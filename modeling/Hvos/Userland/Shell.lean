import Hvos.Drivers.Keys
import Hvos.Lib.Runs
import Mathlib.Data.List.Induction
import Mathlib.Order.Nat

/-!
# Userland/Shell — the line editor of `shell.c`

The shell reads one character after the other into `input_buffer` and never clears it as a whole: a
command, `CLEAR`, `CANCEL` and a backspace each put back the `NUL` bytes that belong behind the
line.  What the user has typed is a `Session`, and the buffer shows it at all times (`Shows`).

Every Enter takes a row of `history_buffer`, an empty line as well, and `history_index` is compared
with nothing.  So the hundred and first one writes behind the buffer (`keepsLines_iff`).
-/

namespace Hvos.Userland

open Drivers

/-! ## C strings -/

/-- The string a buffer holds: what comes before the first `NUL`. -/
def cString (buf : List UInt8) : List UInt8 := buf.takeWhile (· ≠ 0)

/-- `strcpy(dst, src)`.  Nothing if the source has no `NUL`. -/
def strcpy (dst src : List UInt8) : Option (List UInt8) :=
  if (cString src).length < src.length then
    some (cString src ++ 0 :: dst.drop ((cString src).length + 1))
  else none

/-- `isgraph`. -/
def isgraph (c : UInt8) : Bool := 0x21 ≤ c && c ≤ 0x7E

/-- `'\n'`. -/
def enterChar : UInt8 := 0x0A

/-! ## `shell.c` -/

/-- The variables of the shell, and whether it has called `exit`. -/
structure Shell where
  inputBuffer : List UInt8
  historyBuffer : List (List UInt8)
  index : ℕ
  historyIndex : ℕ
  exited : Bool
  deriving DecidableEq

namespace Shell

/-- The variables as the program is loaded. -/
def loaded : Shell where
  inputBuffer := List.replicate 128 0
  historyBuffer := List.replicate 100 (List.replicate 128 0)
  index := 0
  historyIndex := 0
  exited := false

variable (s : Shell)

/-- The loop of `clear_buffer`. -/
def clearFrom (buf : List UInt8) : ℕ → List UInt8
  | 0 => buf
  | i + 1 => clearFrom (buf.set (i + 1) 0) i

/-- `clear_buffer`. -/
def clearBuffer : Shell :=
  { s with inputBuffer := (clearFrom s.inputBuffer s.index).set 0 0, index := 0 }

/-- `exec_cmd`.  The other commands print. -/
def execCmd : Shell :=
  if cString s.inputBuffer = "exit".toList.map charByte then { s with exited := true } else s

/-- `strcpy(history_buffer[history_index++], input_buffer)`.  Nothing if there is no such row. -/
def store : Option Shell := do
  let row ← s.historyBuffer[s.historyIndex]?
  let row ← strcpy row s.inputBuffer
  some { s with
    historyBuffer := s.historyBuffer.set s.historyIndex row
    historyIndex := s.historyIndex + 1 }

/-- From the inner loop of `main` to its next round: the command, if there is one. -/
def afterLine : Shell :=
  if s.index = 0 then { s with index := 0 }
  else
    let s := s.execCmd
    if s.exited then s else { s.clearBuffer with index := 0 }

/-- The inner loop of `main`, for one character.  After `exit` none is read. -/
def readChar (c : UInt8) (s : Shell) : Option Shell :=
  if s.exited then some s
  else if c = enterChar then s.store.map afterLine
  else if c = backspaceChar then
    some (if s.index > 0 then
      { s with index := s.index - 1, inputBuffer := s.inputBuffer.set (s.index - 1) 0 }
    else s)
  else if c = clearChar then some s.clearBuffer.afterLine
  else if c = cancelChar then some s.clearBuffer.afterLine
  else if s.index < 127 ∧ isgraph c then
    some { s with inputBuffer := s.inputBuffer.set s.index c, index := s.index + 1 }
  else some s

/-- `main`, up to the first character. -/
def start : Shell := { loaded.clearBuffer with index := 0 }

end Shell

/-! ## What the user has typed -/

/-- The line being edited, the lines entered, and whether one of them was `exit`. -/
structure Session where
  line : List UInt8
  entered : List (List UInt8)
  ended : Bool

namespace Session

def start : Session := ⟨[], [], false⟩

/-- **One more character**: appended if it is graphic and the line has room, removed by a backspace,
the line emptied by `CLEAR`, `CANCEL` and Enter, which keeps a copy. -/
def next (σ : Session) (c : UInt8) : Session :=
  if σ.ended then σ
  else if c = enterChar then
    { line := if σ.line = "exit".toList.map charByte then σ.line else []
      entered := σ.entered ++ [σ.line]
      ended := σ.line = "exit".toList.map charByte }
  else if c = backspaceChar then { σ with line := σ.line.dropLast }
  else if c = clearChar ∨ c = cancelChar then { σ with line := [] }
  else if σ.line.length < 127 ∧ isgraph c then { σ with line := σ.line ++ [c] }
  else σ

end Session

/-- The session of a text. -/
def session (text : List UInt8) : Session := text.foldl Session.next .start

/-- The line in its buffer, with `NUL` bytes behind it. -/
def padded (line : List UInt8) : List UInt8 := line ++ List.replicate (128 - line.length) 0

/-- **The shell shows the session**: the buffer is the line and `NUL` bytes, `index` is its length,
and the lines entered are in the rows of `history_buffer`. -/
structure Shows (σ : Session) (s : Shell) : Prop where
  buffer : s.inputBuffer = padded σ.line
  index : s.index = σ.line.length
  index_le : s.index ≤ 127
  rows : s.historyBuffer.length = 100
  entered : ∀ (i : ℕ) line, σ.entered[i]? = some line →
    ∃ row, s.historyBuffer[i]? = some row ∧ cString row = line
  historyIndex : s.historyIndex = σ.entered.length
  exited : s.exited = σ.ended

/-- **The lines are edited and kept**: after every character the shell is in its loop, or has
exited, and shows the session. -/
def KeepsLines (text : List UInt8) : Prop :=
  ∀ read, read <+: text → ∃ s, Run.exec Shell.readChar read Shell.start = some s ∧ Shows (session read) s

/-! ## Buffers -/

variable {line buf dst rest : List UInt8} {σ : Session} {s : Shell} {c : UInt8}

/-- A string ends at its first `NUL`. -/
theorem cString_append (h : ∀ c ∈ line, c ≠ 0) : cString (line ++ 0 :: rest) = line := by
  unfold cString
  rw [List.takeWhile_append_of_pos (by simpa using h), List.takeWhile_cons_of_neg (by decide),
    List.append_nil]

theorem length_padded (h : line.length ≤ 127) : (padded line).length = 128 := by
  simp only [padded, List.length_append, List.length_replicate]
  omega

/-- There is a `NUL` behind the line. -/
theorem padded_eq (h : line.length ≤ 127) :
    padded line = line ++ 0 :: List.replicate (127 - line.length) 0 := by
  unfold padded
  rw [show 128 - line.length = 127 - line.length + 1 by omega, List.replicate_succ]

theorem cString_padded (h : ∀ c ∈ line, c ≠ 0) (hlen : line.length ≤ 127) :
    cString (padded line) = line := by
  rw [padded_eq hlen, cString_append h]

/-- A character is appended. -/
theorem padded_push (h : line.length < 127) (c : UInt8) :
    (padded line).set line.length c = padded (line ++ [c]) := by
  rw [padded_eq (by omega), List.set_append_right _ _ (Nat.le_refl _), Nat.sub_self, List.set_cons_zero]
  simp only [padded, List.length_append, List.length_singleton, List.append_assoc,
    List.singleton_append]
  rw [show 128 - (line.length + 1) = 127 - line.length by omega]

/-- There is a `NUL` behind the line already. -/
theorem padded_set_length (h : line.length ≤ 127) : (padded line).set line.length 0 = padded line := by
  rw [padded_eq h, List.set_append_right _ _ (Nat.le_refl _), Nat.sub_self, List.set_cons_zero]

/-- The last character is removed. -/
theorem padded_pop {k : ℕ} (hk : line.length = k + 1) (h : line.length ≤ 127) :
    (padded line).set k 0 = padded line.dropLast := by
  rcases List.eq_nil_or_concat line with rfl | ⟨front, c, rfl⟩
  · simp at hk
  · rw [List.concat_eq_append, List.length_append, List.length_singleton] at hk h
    obtain rfl : front.length = k := by omega
    rw [List.concat_eq_append, ← padded_push (by omega) c, List.set_set, List.dropLast_concat,
      padded_set_length (by omega)]

/-- The loop of `clear_buffer`, from the last character on. -/
theorem clearFrom_of_length {k : ℕ} (hk : line.length = k + 1) (h : line.length ≤ 127) :
    (Shell.clearFrom (padded line) k).set 0 0 = padded [] := by
  induction k generalizing line with
  | zero =>
    have hnil : line.dropLast = [] := List.eq_nil_of_length_eq_zero (by simp [hk])
    rw [Shell.clearFrom, padded_pop hk h, hnil]
  | succ k ih =>
    rw [Shell.clearFrom, padded_pop hk h]
    refine ih (by simp [hk]) ?_
    rw [List.length_dropLast]
    omega

/-- **`clear_buffer` empties the line.** -/
theorem clearFrom_padded (h : line.length ≤ 127) :
    (Shell.clearFrom (padded line) line.length).set 0 0 = padded [] := by
  cases hlen : line.length with
  | zero =>
    rw [List.eq_nil_of_length_eq_zero hlen]
    exact padded_set_length (by decide)
  | succ k =>
    rw [Shell.clearFrom, ← hlen, padded_set_length h]
    exact clearFrom_of_length hlen h

/-! ## One character -/

namespace Session

/-- What is typed has no `NUL`. -/
def Typed (σ : Session) : Prop := ∀ c ∈ σ.line, c ≠ 0

theorem ne_zero_of_isgraph (h : isgraph c = true) : c ≠ 0 := by
  rintro rfl
  exact absurd h (by decide)

theorem Typed.next (h : σ.Typed) (c : UInt8) : (σ.next c).Typed := by
  intro d hd
  unfold Session.next at hd
  split_ifs at hd with hended henter hexit hback hclear hpush
  · exact h d hd
  · exact h d hd
  · cases hd
  · exact h d ((List.dropLast_sublist σ.line).subset hd)
  · cases hd
  · rcases List.mem_append.1 hd with hd | hd
    · exact h d hd
    · rw [List.mem_singleton.1 hd]
      exact ne_zero_of_isgraph hpush.2
  · exact h d hd

theorem entered_of_ne (σ : Session) (hc : c ≠ enterChar) : (σ.next c).entered = σ.entered := by
  unfold next
  split_ifs
  all_goals rfl

theorem length_entered_le (σ : Session) (c : UInt8) :
    σ.entered.length ≤ (σ.next c).entered.length := by
  unfold next
  split_ifs
  all_goals simp

end Session

section

variable (h : Shows σ s)
include h

/-- The line is changed in its buffer, and nothing else. -/
theorem Shows.edit {line : List UInt8} (hlen : line.length ≤ 127) :
    Shows { σ with line := line } { s with inputBuffer := padded line, index := line.length } :=
  ⟨rfl, rfl, hlen, h.rows, h.entered, h.historyIndex, h.exited⟩

theorem Shows.clearBuffer : Shows { σ with line := [] } s.clearBuffer := by
  have hclear : s.clearBuffer = { s with inputBuffer := padded [], index := 0 } := by
    unfold Shell.clearBuffer
    rw [h.buffer, h.index, clearFrom_padded (h.index ▸ h.index_le)]
  rw [hclear]
  exact h.edit (by decide)

/-- **Enter finds a row** exactly if fewer than a hundred are taken. -/
theorem Shows.store (ht : σ.Typed) : if σ.entered.length < 100 then
      ∃ s', s.store = some s' ∧ Shows { σ with entered := σ.entered ++ [σ.line] } s'
    else s.store = none := by
  unfold Shell.store
  split_ifs with hroom
  · have hline : σ.line.length ≤ 127 := h.index ▸ h.index_le
    have hi : s.historyIndex < s.historyBuffer.length := by
      rw [h.historyIndex, h.rows]
      exact hroom
    have hcopy : strcpy s.historyBuffer[s.historyIndex] s.inputBuffer =
        some (σ.line ++ 0 :: s.historyBuffer[s.historyIndex].drop (σ.line.length + 1)) := by
      unfold strcpy
      rw [h.buffer, cString_padded ht hline, length_padded hline, if_pos (by omega)]
    refine ⟨{ s with
      historyBuffer := s.historyBuffer.set s.historyIndex
        (σ.line ++ 0 :: s.historyBuffer[s.historyIndex].drop (σ.line.length + 1))
      historyIndex := s.historyIndex + 1 }, by simp [List.getElem?_eq_getElem hi, hcopy], ?_⟩
    refine ⟨h.buffer, h.index, h.index_le, ?_, fun i line hline => ?_, ?_, h.exited⟩
    · rw [List.length_set, h.rows]
    · rw [List.getElem?_append] at hline
      split_ifs at hline with hold
      · obtain ⟨row, hrow, heq⟩ := h.entered i line hline
        refine ⟨row, ?_, heq⟩
        rw [List.getElem?_set_ne (by rw [h.historyIndex]; omega), hrow]
      · obtain ⟨hzero, rfl⟩ : i - σ.entered.length = 0 ∧ σ.line = line := by
          cases hsub : i - σ.entered.length with
          | zero => exact ⟨rfl, by simpa [hsub] using hline⟩
          | succ j => simp [hsub] at hline
        obtain rfl : i = s.historyIndex := by
          rw [h.historyIndex]
          omega
        exact ⟨_, List.getElem?_set_self hi, cString_append ht⟩
    · simp [h.historyIndex]
  · have hi : s.historyBuffer[s.historyIndex]? = none := by
      rw [List.getElem?_eq_none_iff, h.historyIndex, h.rows]
      omega
    simp [hi]

/-- The command, and the prompt. -/
theorem Shows.afterLine (ht : σ.Typed) (hended : σ.ended = false) : Shows { σ with
      line := if σ.line = "exit".toList.map charByte then σ.line else []
      ended := σ.line = "exit".toList.map charByte } s.afterLine := by
  have hline : cString s.inputBuffer = σ.line := by
    rw [h.buffer, cString_padded ht (h.index ▸ h.index_le)]
  have hexited : s.exited = false := h.exited.trans hended
  unfold Shell.afterLine Shell.execCmd
  rw [hline]
  by_cases hexit : σ.line = "exit".toList.map charByte
  · have hindex : s.index ≠ 0 := by
      rw [h.index, hexit]
      decide
    simp only [hexit, hindex, if_true, if_false]
    exact ⟨hexit ▸ h.buffer, hexit ▸ h.index, h.index_le, h.rows, h.entered, h.historyIndex, rfl⟩
  · have hclear := h.clearBuffer
    simp only [hexit, if_false, decide_false, hexited, Bool.false_eq_true]
    split_ifs with hempty
    · have hnil : σ.line = [] := List.eq_nil_of_length_eq_zero (h.index.symm.trans hempty)
      exact ⟨hnil ▸ h.buffer, rfl, Nat.zero_le _, h.rows, h.entered, h.historyIndex, rfl⟩
    · exact ⟨hclear.buffer, rfl, Nat.zero_le _, hclear.rows, hclear.entered, hclear.historyIndex,
        hclear.exited.trans hended⟩

/-- **Enter** stores the line and runs it, or writes to a row there is not. -/
theorem Shows.enter (ht : σ.Typed) (hended : σ.ended = false) :
    if σ.entered.length < 100 then
      ∃ s', s.readChar enterChar = some s' ∧ Shows (σ.next enterChar) s'
    else s.readChar enterChar = none := by
  have hexited : s.exited = false := h.exited.trans hended
  have hread : s.readChar enterChar = s.store.map Shell.afterLine := by
    simp [Shell.readChar, hexited]
  have hstore := h.store ht
  rw [hread]
  split_ifs at hstore ⊢ with hroom
  · obtain ⟨s1, hs1, h1⟩ := hstore
    refine ⟨s1.afterLine, by rw [hs1, Option.map_some], ?_⟩
    have h2 := h1.afterLine ht hended
    simpa [Session.next, hended] using h2
  · rw [hstore, Option.map_none]

/-- **Every other character** edits the line. -/
theorem Shows.edits (hended : σ.ended = false) (hc : c ≠ enterChar) :
    ∃ s', s.readChar c = some s' ∧ Shows (σ.next c) s' := by
  have hlen : σ.line.length ≤ 127 := h.index ▸ h.index_le
  have hclear : Shows { σ with line := [] } s.clearBuffer.afterLine := h.clearBuffer
  have hruns : ¬s.exited = true := by simp [h.exited, hended]
  have hgoes : ¬σ.ended = true := by simp [hended]
  unfold Shell.readChar Session.next
  rw [if_neg hruns, if_neg hgoes, if_neg hc, if_neg hc]
  by_cases hback : c = backspaceChar
  · rw [if_pos hback, if_pos hback]
    refine ⟨_, rfl, ?_⟩
    split_ifs with hpos
    · have hk : σ.line.length = s.index - 1 + 1 := by
        rw [← h.index]
        omega
      have hindex : s.index - 1 = σ.line.dropLast.length := by rw [List.length_dropLast, h.index]
      rw [h.buffer, padded_pop hk hlen, hindex]
      exact h.edit (by omega)
    · have hnil : σ.line = [] := List.eq_nil_of_length_eq_zero (by rw [← h.index]; omega)
      have hsame : σ.line.dropLast = σ.line := by
        rw [hnil]
        rfl
      rw [hsame]
      exact h
  · rw [if_neg hback, if_neg hback]
    by_cases hclr : c = clearChar
    · rw [if_pos hclr, if_pos (.inl hclr)]
      exact ⟨_, rfl, hclear⟩
    · rw [if_neg hclr]
      by_cases hcancel : c = cancelChar
      · rw [if_pos hcancel, if_pos (.inr hcancel)]
        exact ⟨_, rfl, hclear⟩
      · rw [if_neg hcancel, if_neg (not_or.2 ⟨hclr, hcancel⟩), h.index]
        split_ifs with hpush
        · refine ⟨_, rfl, ?_⟩
          have hlength : σ.line.length + 1 = (σ.line ++ [c]).length := by simp
          rw [h.buffer, padded_push hpush.1, hlength]
          exact h.edit (by omega)
        · exact ⟨s, rfl, h⟩

/-- **One character**: the shell shows the session after it, or writes to a row there is not. -/
theorem Shows.readChar (ht : σ.Typed) (hrows : σ.entered.length ≤ 100) (c : UInt8) :
    if (σ.next c).entered.length ≤ 100 then ∃ s', s.readChar c = some s' ∧ Shows (σ.next c) s'
    else s.readChar c = none := by
  cases hended : σ.ended with
  | true =>
    have hsame : σ.next c = σ := if_pos hended
    rw [hsame, if_pos hrows]
    exact ⟨s, if_pos (h.exited.trans hended), h⟩
  | false =>
    by_cases hc : c = enterChar
    · have hentered : (σ.next c).entered.length = σ.entered.length + 1 := by
        simp [Session.next, hended, hc]
      rw [hentered, hc]
      exact h.enter ht hended
    · rw [Session.entered_of_ne σ hc, if_pos hrows]
      exact h.edits hended hc

end

/-! ## Texts -/

theorem session_snoc (text : List UInt8) (c : UInt8) :
    session (text ++ [c]) = (session text).next c := by
  simp [session]

theorem typed_session (text : List UInt8) : (session text).Typed := by
  induction text using List.reverseRecOn with
  | nil => simp [session, Session.Typed, Session.start]
  | append_singleton text c ih =>
    rw [session_snoc]
    exact ih.next c

theorem length_entered_mono {read text : List UInt8} (h : read <+: text) :
    (session read).entered.length ≤ (session text).entered.length := by
  obtain ⟨rest, rfl⟩ := h
  induction rest using List.reverseRecOn with
  | nil => rw [List.append_nil]
  | append_singleton rest c ih =>
    rw [← List.append_assoc, session_snoc]
    exact ih.trans (Session.length_entered_le _ c)

theorem shows_start : Shows .start .start := by
  refine ⟨by decide, rfl, by decide, by decide, fun i line h => ?_, rfl, rfl⟩
  simp [Session.start] at h

/-- **A whole text**: the shell shows the session, unless more than a hundred lines have been
entered. -/
theorem exec_shows (text : List UInt8) : if (session text).entered.length ≤ 100 then
      ∃ s, Run.exec Shell.readChar text .start = some s ∧ Shows (session text) s
    else Run.exec Shell.readChar text .start = none := by
  induction text using List.reverseRecOn with
  | nil => exact ⟨_, rfl, shows_start⟩
  | append_singleton text c ih =>
    rw [Run.exec_snoc, session_snoc]
    have hmono := Session.length_entered_le (session text) c
    split_ifs at ih with hrows
    · obtain ⟨s, hs, h⟩ := ih
      rw [hs, Option.bind_some]
      exact h.readChar (typed_session text) hrows c
    · rw [ih, Option.bind_none, if_neg (by omega)]

/-- **The lines are edited and kept exactly if** at most a hundred are entered before `exit`. -/
theorem keepsLines_iff (text : List UInt8) :
    KeepsLines text ↔ (session text).entered.length ≤ 100 := by
  constructor
  · intro h
    obtain ⟨s, hs, -⟩ := h text (List.prefix_refl text)
    by_contra hrows
    have hnone := exec_shows text
    rw [if_neg hrows, hs] at hnone
    cases hnone
  · intro hrows read hread
    have hshows := exec_shows read
    rwa [if_pos ((length_entered_mono hread).trans hrows)] at hshows

/-- **A hundred and one times Enter.** -/
theorem rows_used_up : Run.exec Shell.readChar (List.replicate 101 enterChar) .start = none ∧
    ¬KeepsLines (List.replicate 101 enterChar) := by
  have hnone : Run.exec Shell.readChar (List.replicate 101 enterChar) .start = none := by
    decide +kernel
  refine ⟨hnone, fun h => ?_⟩
  obtain ⟨s, hs, -⟩ := h _ (List.prefix_refl _)
  rw [hnone] at hs
  cases hs

end Hvos.Userland
