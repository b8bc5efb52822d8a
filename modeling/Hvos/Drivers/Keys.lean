import Hvos.Drivers.Keyboard

/-!
# Drivers/Keys — from scancodes to characters

`keyboard_handler_c` is a chain of `if`s none of which ends it: every make code appends the
character of the table in the end, a `0` if the key has none, after the backspace, the cancel or the
clear it has appended already.  So it types what it should exactly if every key pressed has a
character and is no shortcut (`stream_right_iff`).
-/

namespace Hvos.Drivers

open Function

/-! ## The tables -/

/-- `normal_scan_code_table`, up to its last character. -/
def normalScanCodeTable : List Char :=
  ['\x00', '\x00', '1', '2', '3', '4', '5', '6', '7', '8', '9', '0', '-', '=', '\x00', '\x00',
   'q', 'w', 'e', 'r', 't', 'y', 'u', 'i', 'o', 'p', '[', ']', '\n', '\x00', 'a', 's',
   'd', 'f', 'g', 'h', 'j', 'k', 'l', ';', '\x27', '\x60', '\x00', '\x5c', 'z', 'x', 'c', 'v',
   'b', 'n', 'm', ',', '.', '/', '\x00', '\x00', '\x00', ' ']

/-- `shift_scan_code_table`, up to its last character. -/
def shiftScanCodeTable : List Char :=
  ['\x00', '\x00', '!', '@', '\x23', '$', '%', '^', '&', '*', '(', ')', '_', '+', '\x00', '\x00',
   'Q', 'W', 'E', 'R', 'T', 'Y', 'U', 'I', 'O', 'P', '\x7b', '\x7d', '\n', '\x00', 'A', 'S',
   'D', 'F', 'G', 'H', 'J', 'K', 'L', ':', '\x22', '~', '\x00', '|', 'Z', 'X', 'C', 'V',
   'B', 'N', 'M', '<', '>', '?', '\x00', '\x00', '\x00', ' ']

/-- The byte of a character. -/
def charByte (c : Char) : UInt8 := .ofNat c.toNat

/-- An entry of a table; the rest of the table is `0`. -/
def charAt (table : List Char) (scancode : ℕ) : UInt8 := charByte (table.getD scancode '\x00')

/-- `BACKSPACE`. -/
def backspaceCode : ℕ := 0x0E

/-- `LSHIFT`. -/
def lshiftCode : ℕ := 0x2A

/-- `RSHIFT`. -/
def rshiftCode : ℕ := 0x36

/-- `LCTRL`. -/
def lctrlCode : ℕ := 0x1D

/-- `CANCEL`. -/
def cancelChar : UInt8 := 0x18

/-- `CLEAR`. -/
def clearChar : UInt8 := 0x02

/-- `'\b'`. -/
def backspaceChar : UInt8 := 0x08

/-! ## The handler -/

/-- `key_pressed` and the ring. -/
structure Keyboard where
  keyPressed : ℕ → Bool
  kdb : Kdb

namespace Keyboard

/-- The ring update of `append_to_input_buffer`. -/
def appendToInputBuffer (k : Keyboard) (c : UInt8) : Keyboard := { k with kdb := k.kdb.append c }

/-- `keyboard_handler_c`, with the byte it reads.  `kernel_yield` leaves the keyboard alone. -/
def keyboardHandlerC (k : Keyboard) (byte : UInt8) : Keyboard :=
  let pressed : Bool := byte.toNat < 128
  let scancode := if pressed then byte.toNat else byte.toNat - 128
  let k := { k with keyPressed := update k.keyPressed scancode pressed }
  if !pressed then k
  else
    let k := if scancode = backspaceCode then k.appendToInputBuffer backspaceChar else k
    let k :=
      if k.keyPressed lctrlCode then
        let c := charAt normalScanCodeTable scancode
        let k := if c = charByte 'c' then k.appendToInputBuffer cancelChar else k
        if c = charByte 'l' then k.appendToInputBuffer clearChar else k
      else k
    let c :=
      if k.keyPressed lshiftCode || k.keyPressed rshiftCode then charAt shiftScanCodeTable scancode
      else charAt normalScanCodeTable scancode
    k.appendToInputBuffer c

end Keyboard

/-! ## What a key press should type -/

/-- The keys held once a byte has come in. -/
def hold (held : ℕ → Bool) (byte : UInt8) : ℕ → Bool :=
  if byte.toNat < 128 then update held byte.toNat true
  else update held (byte.toNat - 128) false

/-- The character of a key, with or without a shift key held. -/
def keyChar (held : ℕ → Bool) (scancode : ℕ) : UInt8 :=
  if held lshiftCode || held rshiftCode then charAt shiftScanCodeTable scancode
  else charAt normalScanCodeTable scancode

/-- Ctrl+C and Ctrl+L. -/
def shortcut (held : ℕ → Bool) (scancode : ℕ) : Option UInt8 :=
  if held lctrlCode then
    if charAt normalScanCodeTable scancode = charByte 'c' then some cancelChar
    else if charAt normalScanCodeTable scancode = charByte 'l' then some clearChar
    else none
  else none

/-- **The character a byte should append**: one for the make code of a mapped key, none else. -/
def wanted (held : ℕ → Bool) (byte : UInt8) : List UInt8 :=
  if byte.toNat < 128 then
    if byte.toNat = backspaceCode then [backspaceChar]
    else match shortcut (hold held byte) byte.toNat with
      | some c => [c]
      | none => if keyChar (hold held byte) byte.toNat = 0 then []
          else [keyChar (hold held byte) byte.toNat]
  else []

/-- **The characters a byte does append.** -/
def typed (held : ℕ → Bool) (byte : UInt8) : List UInt8 :=
  if byte.toNat < 128 then
    (if byte.toNat = backspaceCode then [backspaceChar] else []) ++
      (shortcut (hold held byte) byte.toNat).toList ++ [keyChar (hold held byte) byte.toNat]
  else []

/-- **A byte that types what it should**: a break code, or the make code of a key that has a
character and is no shortcut. -/
def Plain (held : ℕ → Bool) (byte : UInt8) : Prop :=
  byte.toNat < 128 → keyChar (hold held byte) byte.toNat ≠ 0 ∧
    shortcut (hold held byte) byte.toNat = none

section Byte

variable {held : ℕ → Bool} {byte : UInt8}

/-- A key without a character is no backspace and no shortcut. -/
theorem keyChar_backspace (held : ℕ → Bool) : keyChar held backspaceCode = 0 := by
  unfold keyChar
  split_ifs <;> decide

/-- **A byte types what it should exactly if it is plain**, and else more. -/
theorem typed_eq_wanted_iff : (typed held byte = wanted held byte ↔ Plain held byte) ∧
    ((wanted held byte).length = (typed held byte).length ↔ Plain held byte) ∧
    (wanted held byte).length ≤ (typed held byte).length := by
  unfold typed wanted Plain
  by_cases hmake : byte.toNat < 128
  · simp only [hmake, if_true, true_imp_iff]
    by_cases hback : byte.toNat = backspaceCode
    · simp [hback, keyChar_backspace]
    · simp only [hback, if_false, List.nil_append]
      cases hshort : shortcut (hold held byte) byte.toNat with
      | some c => simp
      | none =>
        by_cases hchar : keyChar (hold held byte) byte.toNat = 0 <;> simp [hchar]
  · simp [hmake]

/-- Ctrl+C and Ctrl+L are two keys. -/
theorem shortcut_append (k : Keyboard) (scancode : ℕ) : (if k.keyPressed lctrlCode then
      if charAt normalScanCodeTable scancode = charByte 'l' then
        (if charAt normalScanCodeTable scancode = charByte 'c' then
          k.appendToInputBuffer cancelChar else k).appendToInputBuffer clearChar
      else if charAt normalScanCodeTable scancode = charByte 'c' then
        k.appendToInputBuffer cancelChar else k
      else k) =
    ⟨k.keyPressed, (shortcut k.keyPressed scancode).toList.foldl Kdb.append k.kdb⟩ := by
  have hne : charByte 'l' ≠ charByte 'c' := by decide
  simp only [shortcut]
  split_ifs with hctrl hl hc hc
  · exact absurd (hl.symm.trans hc) hne
  · rfl
  · rfl
  · rfl
  · rfl

/-- **The handler appends what it types**, one after the other. -/
theorem keyboardHandlerC_eq (k : Keyboard) (byte : UInt8) : k.keyboardHandlerC byte =
    ⟨hold k.keyPressed byte, (typed k.keyPressed byte).foldl Kdb.append k.kdb⟩ := by
  by_cases hmake : byte.toNat < 128
  · have hhold : update k.keyPressed byte.toNat true = hold k.keyPressed byte :=
      (if_pos hmake).symm
    have hback : ∀ j : Keyboard, (if byte.toNat = backspaceCode then
        j.appendToInputBuffer backspaceChar else j) = ⟨j.keyPressed,
          (if byte.toNat = backspaceCode then [backspaceChar] else []).foldl Kdb.append j.kdb⟩ := by
      intro j
      split_ifs <;> rfl
    simp only [Keyboard.keyboardHandlerC, typed, hmake, if_true, decide_true, Bool.not_true,
      Bool.false_eq_true, if_false, hhold, hback]
    rw [shortcut_append ⟨hold k.keyPressed byte, _⟩ byte.toNat]
    simp only [List.foldl_append, List.foldl_cons, List.foldl_nil]
    rfl
  · simp [Keyboard.keyboardHandlerC, typed, hold, hmake]

end Byte

/-! ## Bytes and reads in any order -/

/-- A byte from the keyboard, or a read of the ring. -/
inductive KeyEvent
  | byte (b : UInt8)
  | getChar

namespace Keyboard

/-- One event. -/
def perform (k : Keyboard) : KeyEvent → Keyboard
  | .byte b => k.keyboardHandlerC b
  | .getChar => { k with kdb := k.kdb.getChar.2 }

/-- What an event takes from the ring. -/
def taken (k : Keyboard) : KeyEvent → List UInt8
  | .byte _ => []
  | .getChar => if 0 < k.kdb.occupancy then [k.kdb.getChar.1] else []

/-- **The characters that went through the ring**: those taken, and those still in it. -/
def stream : Keyboard → List KeyEvent → List UInt8
  | k, [] => k.kdb.contents
  | k, e :: es => k.taken e ++ stream (k.perform e) es

/-- **The ring is never full** when a character is appended. -/
def NeverFull : Keyboard → List KeyEvent → Prop
  | _, [] => True
  | k, .byte b :: es => k.kdb.occupancy + (typed k.keyPressed b).length ≤ kdbBufferSize ∧
      NeverFull (k.perform (.byte b)) es
  | k, .getChar :: es => NeverFull (k.perform .getChar) es

end Keyboard

/-- What one byte gives, of all bytes in a row. -/
def ofBytes (f : (ℕ → Bool) → UInt8 → List UInt8) : (ℕ → Bool) → List KeyEvent → List UInt8
  | _, [] => []
  | held, .byte b :: es => f held b ++ ofBytes f (hold held b) es
  | held, .getChar :: es => ofBytes f held es

/-- **Every byte is plain** when it comes in. -/
def AllPlain : (ℕ → Bool) → List KeyEvent → Prop
  | _, [] => True
  | held, .byte b :: es => Plain held b ∧ AllPlain (hold held b) es
  | held, .getChar :: es => AllPlain held es

section Stream

variable {k : Keyboard} {es : List KeyEvent}

/-- Characters appended while there is room. -/
theorem Kdb.Sane.foldl_append {k : Kdb} (h : k.Sane) (cs : List UInt8)
    (hroom : k.occupancy + cs.length ≤ kdbBufferSize) :
    (cs.foldl Kdb.append k).Sane ∧ (cs.foldl Kdb.append k).contents = k.contents ++ cs := by
  induction cs generalizing k with
  | nil => exact ⟨h, (List.append_nil _).symm⟩
  | cons c cs ih =>
    rw [List.length_cons] at hroom
    have hlt : k.occupancy < kdbBufferSize := by omega
    have hnext : (k.append c).occupancy = k.occupancy + 1 := by rw [Kdb.append, if_pos hlt]
    obtain ⟨hsane, hcontents⟩ := ih (h.append c) (by omega)
    refine ⟨hsane, ?_⟩
    rw [List.foldl_cons, hcontents, h.contents_append c hlt, List.append_assoc]
    rfl

/-- **What goes through a ring that is never full is what is typed.** -/
theorem stream_eq (h : k.kdb.Sane) (hroom : k.NeverFull es) :
    k.stream es = k.kdb.contents ++ ofBytes typed k.keyPressed es := by
  induction es generalizing k with
  | nil => exact (List.append_nil _).symm
  | cons e es ih =>
    cases e with
    | byte b =>
      obtain ⟨hsane, hcontents⟩ := h.foldl_append _ hroom.1
      have hnext := keyboardHandlerC_eq k b
      have hrest := hroom.2
      simp only [Keyboard.stream, Keyboard.taken, Keyboard.perform, hnext, ofBytes] at hrest ⊢
      rw [ih hsane hrest, hcontents, List.nil_append, List.append_assoc]
    | getChar =>
      have hrest : (k.perform .getChar).stream es = _ := ih h.getChar hroom
      rw [Keyboard.stream, hrest, ofBytes, ← List.append_assoc]
      congr 1
      simp only [Keyboard.taken, Keyboard.perform]
      split_ifs with hpos
      · exact (h.contents_getChar hpos).symm
      · rw [Kdb.getChar_of_empty hpos]
        rfl

/-- Nothing that should be typed is missing. -/
theorem length_ofBytes_wanted (held : ℕ → Bool) (es : List KeyEvent) :
    (ofBytes wanted held es).length ≤ (ofBytes typed held es).length := by
  induction es generalizing held with
  | nil => exact Nat.le_refl _
  | cons e es ih =>
    cases e with
    | byte b =>
      rw [ofBytes, ofBytes, List.length_append, List.length_append]
      exact Nat.add_le_add typed_eq_wanted_iff.2.2 (ih _)
    | getChar => exact ih held

/-- **All that is typed is as it should be exactly if every byte is plain.** -/
theorem ofBytes_typed_eq_iff (held : ℕ → Bool) (es : List KeyEvent) :
    ofBytes typed held es = ofBytes wanted held es ↔ AllPlain held es := by
  induction es generalizing held with
  | nil => exact iff_of_true rfl trivial
  | cons e es ih =>
    cases e with
    | byte b =>
      obtain ⟨heq, hlength, hle⟩ := @typed_eq_wanted_iff held b
      rw [ofBytes, ofBytes, AllPlain, ← ih]
      constructor
      · intro h
        have htotal := congrArg List.length h
        rw [List.length_append, List.length_append] at htotal
        have hrest := length_ofBytes_wanted (hold held b) es
        have hsame : (typed held b).length = (wanted held b).length := by omega
        exact ⟨hlength.1 hsame.symm, (List.append_inj h hsame).2⟩
      · rintro ⟨hplain, hrest⟩
        rw [heq.2 hplain, hrest]
    | getChar => exact ih held

/-- **One key press, one character, exactly if every key pressed has a character and is no
shortcut.** -/
theorem stream_right_iff (h : k.kdb.Sane) (hroom : k.NeverFull es) :
    k.stream es = k.kdb.contents ++ ofBytes wanted k.keyPressed es ↔
      AllPlain k.keyPressed es := by
  rw [stream_eq h hroom, List.append_right_inj, ofBytes_typed_eq_iff]

end Stream

/-- The keyboard at boot. -/
def Keyboard.boot : Keyboard := ⟨fun _ => false, .empty⟩

/-- **Backspace types two characters**, a shift key one, and Ctrl+C a `c` as well. -/
theorem stream_backspace :
    Keyboard.boot.stream [.byte 0x0E, .byte 0x2A, .byte 0xAA, .byte 0x1D, .byte 0x2E] =
      [backspaceChar, 0, 0, 0, cancelChar, charByte 'c'] ∧
    ofBytes wanted (fun _ => false) [.byte 0x0E, .byte 0x2A, .byte 0xAA, .byte 0x1D, .byte 0x2E] =
      [backspaceChar, cancelChar] := by
  decide

/-- Two letters, the first one read at once. -/
theorem stream_right_iff_letters :
    Keyboard.boot.stream [.byte 0x1E, .getChar, .byte 0x9E, .byte 0x30] =
      Keyboard.boot.kdb.contents ++ ofBytes wanted Keyboard.boot.keyPressed
        [.byte 0x1E, .getChar, .byte 0x9E, .byte 0x30] := by
  refine (stream_right_iff Kdb.sane_empty ?_).2 ?_
  · exact ⟨by decide, by decide, by decide, trivial⟩
  · simp only [AllPlain, Plain]
    decide

end Hvos.Drivers
