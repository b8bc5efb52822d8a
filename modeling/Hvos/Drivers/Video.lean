import Mathlib.Data.UInt

/-!
# Drivers/Video — the text terminal of `video.c`

`put_char` keeps a cursor of two 32-bit counters.  A newline, a wrap, a tab and a backspace each
move it in a branch of their own, and before a glyph is drawn the cursor is brought back into the
text area: to the next line if it is right of it, and **one** line up, with a scroll, if it is below
it.  One line is not enough where several line breaks come before a glyph.

The columns do not depend on the lines, so the line breaks before each glyph are a function of the
text alone (`breaks`), and the glyphs are inside the text area exactly if no run of line breaks
leads more than one line below it (`drawsInside_iff`).
-/

namespace Hvos.Drivers

/-! ## State -/

def fontWidth : ℕ := 8

def fontHeight : ℕ := 16

def termMargin : ℕ := 10

def tabSpace : ℕ := 8

/-- `'\n'`. -/
def newlineChar : UInt8 := 0x0A

/-- `'\t'`. -/
def tabChar : UInt8 := 0x09

/-- `'\b'`. -/
def eraseChar : UInt8 := 0x08

/-- `' '`. -/
def spaceChar : UInt8 := 0x20

/-- What is done to the screen: `draw_glyph` for a cell, at a pixel, `_print_cursor`,
`_scroll_up`. -/
inductive Drawn
  | glyph (col line x y : ℕ) (c : UInt8)
  | cursor (x y : ℕ) (visible : Bool)
  | scroll
  deriving DecidableEq, Repr

/-- The variables of `video.c`, less the colours, and what has been drawn, the last first. -/
structure Video where
  col : ℕ
  line : ℕ
  maxCol : ℕ
  maxLine : ℕ
  cursorVisible : Bool
  log : List Drawn

/-- The variables as the kernel is loaded. -/
def Video.loaded : Video := ⟨0, 0, 0, 0, false, []⟩

namespace Video

variable (v : Video)

/-- The pixel `col * font_width + term_margin`. -/
def posx : ℕ := (v.col * fontWidth + termMargin) % 2 ^ 32

/-- The pixel `line * font_height + term_margin`. -/
def posy : ℕ := (v.line * fontHeight + termMargin) % 2 ^ 32

/-! ## The cursor -/

/-- `draw_cursor`. -/
def drawCursor : Video :=
  { v with
    cursorVisible := true
    log := if v.cursorVisible then v.log else .cursor v.posx v.posy true :: v.log }

/-- `hide_cursor`. -/
def hideCursor : Video :=
  { v with
    cursorVisible := false
    log := if v.cursorVisible then .cursor v.posx v.posy false :: v.log else v.log }

/-- `move_cursor_right`. -/
def moveCursorRight : Video :=
  let v := v.hideCursor
  drawCursor { v with col := if v.col < v.maxCol then (v.col + 1) % 2 ^ 32 else v.col }

/-- `move_cursor_left`. -/
def moveCursorLeft : Video :=
  let v := v.hideCursor
  drawCursor { v with col := if v.col > 0 then v.col - 1 else v.col }

/-! ## Characters -/

/-- `_newline`. -/
def newline : Video :=
  let v := v.hideCursor
  drawCursor { v with line := (v.line + 1) % 2 ^ 32, col := 0 }

/-- `_scroll_up`. -/
def scrollUp : Video := { v with log := .scroll :: v.log }

/-- `draw_glyph` for the cell of the cursor. -/
def drawGlyph (c : UInt8) : Video := { v with log := .glyph v.col v.line v.posx v.posy c :: v.log }

/-- `if (col >= max_col) _newline()`. -/
def wrapLine : Video := if v.col ≥ v.maxCol then v.newline else v

/-- `if (line >= max_line) ...`: one scroll, and one line up. -/
def scrollLine : Video :=
  if v.line ≥ v.maxLine then
    let v := v.scrollUp
    { v with line := (v.line + 2 ^ 32 - 1) % 2 ^ 32 }
  else v

/-- `put_char` for what is no control character. -/
def putGlyph (c : UInt8) : Video :=
  (v.hideCursor.wrapLine.scrollLine.drawGlyph c).moveCursorRight.drawCursor

/-- `put_char`. -/
def putChar (c : UInt8) : Video :=
  if c = newlineChar then v.hideCursor.newline
  else if c = tabChar then
    let v := v.hideCursor
    { v with col := (v.col - v.col % tabSpace + tabSpace) % 2 ^ 32 }
  else if c = eraseChar then (v.hideCursor.moveCursorLeft.putGlyph spaceChar).moveCursorLeft
  else v.putGlyph c

/-- `clear_screen`, which draws over everything. -/
def clearScreen : Video := { v with col := 0, line := 0 }

/-- `init_fb`, for a framebuffer of so many pixels. -/
def initFb (width height : ℕ) : Video :=
  clearScreen
    { v with
      maxCol := (width + 2 ^ 64 - termMargin * 2) % 2 ^ 64 / fontWidth % 2 ^ 32
      maxLine := ((height + 2 ^ 64 - termMargin * 2) % 2 ^ 64 / fontHeight + 2 ^ 64 - 1) % 2 ^ 64 %
        2 ^ 32 }

/-- Calls of `put_char`. -/
def putChars (text : List UInt8) : Video := text.foldl putChar v

end Video

/-! ## Text areas -/

/-- **A glyph is inside the text area.** -/
def Drawn.Inside (maxCol maxLine : ℕ) : Drawn → Prop
  | .glyph col line _ _ _ => col < maxCol ∧ line < maxLine
  | _ => True

instance Drawn.decidableInside (maxCol maxLine : ℕ) : DecidablePred (Drawn.Inside maxCol maxLine)
  | .glyph _ _ _ _ _ => inferInstanceAs (Decidable (_ ∧ _))
  | .cursor _ _ _ => inferInstanceAs (Decidable True)
  | .scroll => inferInstanceAs (Decidable True)

/-- All glyphs so far are. -/
def Video.AllInside (v : Video) : Prop := ∀ d ∈ v.log, d.Inside v.maxCol v.maxLine

/-- **The terminal draws inside its text area**, for this framebuffer and this text. -/
def DrawsInside (width height : ℕ) (text : List UInt8) : Prop :=
  ((Video.loaded.initFb width height).putChars text).AllInside

/-! ## Line breaks -/

/-- The line break before a glyph in this column. -/
def wraps (maxCol col : ℕ) : ℕ := if col ≥ maxCol then 1 else 0

/-- The column after a glyph in this column. -/
def glyphCol (maxCol col : ℕ) : ℕ :=
  let col := if col ≥ maxCol then 0 else col
  if col < maxCol then (col + 1) % 2 ^ 32 else col

/-- **The line breaks before each glyph of a text**, from a column on, with so many breaks since the
glyph before.  A backspace is a glyph: the space that is put over the last one. -/
def breaks (maxCol : ℕ) : ℕ → ℕ → List UInt8 → List ℕ
  | _, _, [] => []
  | col, n, c :: text =>
    if c = newlineChar then breaks maxCol 0 (n + 1) text
    else if c = tabChar then breaks maxCol ((col - col % tabSpace + tabSpace) % 2 ^ 32) n text
    else if c = eraseChar then
      (n + wraps maxCol (col - 1)) :: breaks maxCol (glyphCol maxCol (col - 1) - 1) 0 text
    else (n + wraps maxCol col) :: breaks maxCol (glyphCol maxCol col) 0 text

/-- **Glyphs with these line breaks before them fit**, from a line on: they lead one line below the
last at most, from where one scroll leads back to it.  No glyph fits a text area without columns or
lines. -/
def Fits (maxCol maxLine : ℕ) : ℕ → List ℕ → Prop
  | _, [] => True
  | row, b :: bs =>
    (0 < maxCol ∧ 0 < maxLine ∧ (row + b) % 2 ^ 32 ≤ maxLine) ∧
      Fits maxCol maxLine (min ((row + b) % 2 ^ 32) (maxLine - 1)) bs

/-! ## The cursor -/

namespace Video

variable {v w u : Video} {col line col' line' : ℕ}

/-- **The cursor is moved** from `v` to a cell of `w`, and no glyph is drawn. -/
structure Moved (v w : Video) (col line : ℕ) : Prop where
  col : w.col = col
  line : w.line = line
  maxCol : w.maxCol = v.maxCol
  maxLine : w.maxLine = v.maxLine
  inside : w.AllInside ↔ v.AllInside

theorem Moved.trans (h : Moved v w col line) (h' : Moved w u col' line') : Moved v u col' line' :=
  ⟨h'.col, h'.line, h'.maxCol.trans h.maxCol, h'.maxLine.trans h.maxLine, h'.inside.trans h.inside⟩

theorem moved_hideCursor (v : Video) : Moved v v.hideCursor v.col v.line := by
  refine ⟨rfl, rfl, rfl, rfl, ?_⟩
  unfold AllInside hideCursor
  cases v.cursorVisible with
  | true => simp [Drawn.Inside]
  | false => simp

theorem moved_drawCursor (v : Video) : Moved v v.drawCursor v.col v.line := by
  refine ⟨rfl, rfl, rfl, rfl, ?_⟩
  unfold AllInside drawCursor
  cases v.cursorVisible with
  | true => simp
  | false => simp [Drawn.Inside]

/-- The cursor is hidden, moved and shown. -/
theorem moved_between (v : Video) (col line : ℕ) :
    Moved v (drawCursor { v.hideCursor with col := col, line := line }) col line := by
  have hmove : Moved v.hideCursor { v.hideCursor with col := col, line := line } col line :=
    ⟨rfl, rfl, rfl, rfl, Iff.rfl⟩
  exact ((moved_hideCursor v).trans hmove).trans (moved_drawCursor _)

theorem moved_left (v : Video) : Moved v v.moveCursorLeft (v.col - 1) v.line := by
  have hcol : (if v.col > 0 then v.col - 1 else v.col) = v.col - 1 := by
    split_ifs <;> omega
  have h := moved_between v (v.col - 1) v.line
  rw [← hcol] at h
  exact h.trans ⟨hcol, rfl, rfl, rfl, Iff.rfl⟩

theorem moved_right (v : Video) :
    Moved v v.moveCursorRight (if v.col < v.maxCol then (v.col + 1) % 2 ^ 32 else v.col) v.line :=
  moved_between v _ v.line

theorem moved_newline (v : Video) : Moved v v.newline 0 ((v.line + 1) % 2 ^ 32) :=
  moved_between v 0 _

theorem moved_wrapLine (v : Video) : Moved v v.wrapLine (if v.col ≥ v.maxCol then 0 else v.col)
      (if v.col ≥ v.maxCol then (v.line + 1) % 2 ^ 32 else v.line) := by
  unfold wrapLine
  split_ifs with hwrap
  · exact moved_newline v
  · exact ⟨rfl, rfl, rfl, rfl, Iff.rfl⟩

theorem moved_scrollLine (v : Video) : Moved v v.scrollLine v.col
      (if v.line ≥ v.maxLine then (v.line + 2 ^ 32 - 1) % 2 ^ 32 else v.line) := by
  unfold scrollLine
  split_ifs with hscroll
  · refine ⟨rfl, rfl, rfl, rfl, ?_⟩
    unfold AllInside scrollUp
    simp [Drawn.Inside]
  · exact ⟨rfl, rfl, rfl, rfl, Iff.rfl⟩

/-! ## Glyphs -/

/-- **A glyph is put** on the line `x` leads to, and stays inside exactly if that is one below at
most. -/
structure Put (v w : Video) (col x : ℕ) : Prop where
  col : w.col = col
  maxCol : w.maxCol = v.maxCol
  maxLine : w.maxLine = v.maxLine
  inside : w.AllInside ↔ v.AllInside ∧ 0 < v.maxCol ∧ 0 < v.maxLine ∧ x ≤ v.maxLine
  line : 0 < v.maxLine → x ≤ v.maxLine → w.line = min x (v.maxLine - 1)
  line_lt : w.line < 2 ^ 32

/-- The cursor is moved before. -/
theorem Moved.put {x : ℕ} (h : Moved v w col line) (h' : Put w u col' x) : Put v u col' x := by
  refine ⟨h'.col, h'.maxCol.trans h.maxCol, h'.maxLine.trans h.maxLine, ?_, ?_, h'.line_lt⟩
  · rw [h'.inside, h.inside, h.maxCol, h.maxLine]
  · rw [← h.maxLine]
    exact h'.line

/-- The cursor is moved in the line after. -/
theorem Put.moved {x : ℕ} (h : Put v w col x) (h' : Moved w u col' w.line) : Put v u col' x := by
  refine ⟨h'.col, h'.maxCol.trans h.maxCol, h'.maxLine.trans h.maxLine, h'.inside.trans h.inside,
    ?_, ?_⟩
  · rw [h'.line]
    exact h.line
  · rw [h'.line]
    exact h.line_lt

/-- The cursor before a glyph is drawn. -/
theorem moved_beforeGlyph (v : Video) (hline : v.line < 2 ^ 32) :
    let x := (v.line + wraps v.maxCol v.col) % 2 ^ 32
    Moved v v.hideCursor.wrapLine.scrollLine (if v.col ≥ v.maxCol then 0 else v.col)
      (if x ≥ v.maxLine then (x + 2 ^ 32 - 1) % 2 ^ 32 else x) := by
  intro x
  have hwrap := (moved_hideCursor v).trans (moved_wrapLine v.hideCursor)
  have hx : v.hideCursor.wrapLine.line = x := by
    refine hwrap.line.trans ?_
    change (if v.col ≥ v.maxCol then (v.line + 1) % 2 ^ 32 else v.line) = x
    unfold x wraps
    split_ifs
    · rfl
    · exact (Nat.mod_eq_of_lt hline).symm
  have hscroll := hwrap.trans (moved_scrollLine v.hideCursor.wrapLine)
  rw [hx, hwrap.maxLine, hwrap.col] at hscroll
  exact hscroll

/-- **`put_char` for a glyph.** -/
theorem put_glyph (v : Video) (c : UInt8) (hline : v.line < 2 ^ 32) :
    Put v (v.putGlyph c) (glyphCol v.maxCol v.col)
      ((v.line + wraps v.maxCol v.col) % 2 ^ 32) := by
  have hu := moved_beforeGlyph v hline
  have hx : (v.line + wraps v.maxCol v.col) % 2 ^ 32 < 2 ^ 32 := Nat.mod_lt _ (by decide)
  dsimp only at hu
  generalize (v.line + wraps v.maxCol v.col) % 2 ^ 32 = x at hu hx
  unfold putGlyph
  generalize v.hideCursor.wrapLine.scrollLine = u at hu
  have hw := (moved_right (u.drawGlyph c)).trans (moved_drawCursor _)
  have hdraw : (u.drawGlyph c).AllInside ↔ u.AllInside ∧ u.col < u.maxCol ∧ u.line < u.maxLine := by
    unfold AllInside drawGlyph
    simp [Drawn.Inside, and_comm]
  have hcol : u.col < u.maxCol ↔ 0 < v.maxCol := by
    rw [hu.col, hu.maxCol]
    split_ifs <;> omega
  have hrow : u.line < u.maxLine ↔ 0 < v.maxLine ∧ x ≤ v.maxLine := by
    rw [hu.line, hu.maxLine]
    split_ifs <;> omega
  have hlast : _ = if x ≥ v.maxLine then (x + 2 ^ 32 - 1) % 2 ^ 32 else x := hw.line.trans hu.line
  refine ⟨?_, hw.maxCol.trans hu.maxCol, hw.maxLine.trans hu.maxLine, ?_, fun hpos hle => ?_, ?_⟩
  · rw [hw.col]
    change (if u.col < u.maxCol then (u.col + 1) % 2 ^ 32 else u.col) = _
    rw [hu.col, hu.maxCol]
    rfl
  · rw [hw.inside, hdraw, hu.inside, hcol, hrow]
  · rw [hlast]
    split_ifs <;> omega
  · rw [hlast]
    split_ifs <;> omega

/-! ## Texts -/

/-- **Texts**, with `n` line breaks since the glyph before, on the line `row`. -/
theorem allInside_putChars (text : List UInt8) {v : Video} {row n : ℕ}
    (hline : v.line = (row + n) % 2 ^ 32) : (v.putChars text).AllInside ↔
      v.AllInside ∧ Fits v.maxCol v.maxLine row (breaks v.maxCol v.col n text) := by
  induction text generalizing v row n with
  | nil => exact (and_iff_left trivial).symm
  | cons c text ih =>
    -- the text after a glyph
    have hput : ∀ {w : Video} {col b : ℕ}, Put v w col ((row + b) % 2 ^ 32) →
        ((w.putChars text).AllInside ↔ v.AllInside ∧
          Fits v.maxCol v.maxLine row (b :: breaks v.maxCol col 0 text)) := by
      intro w col b hw
      have hlast : w.line = (w.line + 0) % 2 ^ 32 := (Nat.mod_eq_of_lt hw.line_lt).symm
      rw [ih hlast, hw.inside, hw.maxCol, hw.maxLine, hw.col, and_assoc]
      refine and_congr_right fun _ => and_congr_right fun hfits => ?_
      rw [hw.line hfits.2.1 hfits.2.2]
    have hlt : v.line < 2 ^ 32 := by
      rw [hline]
      exact Nat.mod_lt _ (by decide)
    have hbreaks : ∀ k, (v.line + k) % 2 ^ 32 = (row + (n + k)) % 2 ^ 32 := by
      intro k
      rw [hline, Nat.mod_add_mod, Nat.add_assoc]
    have hcons : v.putChars (c :: text) = (v.putChar c).putChars text := rfl
    rw [hcons]
    unfold putChar
    simp only [breaks]
    split_ifs with hnew htab herase
    · have hw := (moved_hideCursor v).trans (moved_newline v.hideCursor)
      rw [ih (hw.line.trans (hbreaks 1)), hw.inside, hw.maxCol, hw.maxLine, hw.col]
    · have hw : Moved v { v.hideCursor with
          col := (v.hideCursor.col - v.hideCursor.col % tabSpace + tabSpace) % 2 ^ 32 }
          ((v.col - v.col % tabSpace + tabSpace) % 2 ^ 32) v.line :=
        (moved_hideCursor v).trans ⟨rfl, rfl, rfl, rfl, Iff.rfl⟩
      rw [ih (hw.line.trans hline), hw.inside, hw.maxCol, hw.maxLine, hw.col]
    · have hleft : Moved v v.hideCursor.moveCursorLeft (v.col - 1) v.line :=
        (moved_hideCursor v).trans (moved_left v.hideCursor)
      have hglyph := hleft.put (put_glyph _ spaceChar (hleft.line.trans_lt hlt))
      have hw := hglyph.moved (moved_left _)
      rw [hglyph.col, hleft.line, hleft.maxCol, hleft.col, hbreaks] at hw
      exact hput hw
    · have hw := put_glyph v c hlt
      rw [hbreaks] at hw
      exact hput hw

end Video

/-- **The glyphs are inside the text area exactly if** the line breaks before them fit it. -/
theorem drawsInside_iff (width height : ℕ) (text : List UInt8) : DrawsInside width height text ↔
      Fits (Video.loaded.initFb width height).maxCol (Video.loaded.initFb width height).maxLine 0
        (breaks (Video.loaded.initFb width height).maxCol 0 0 text) := by
  have hempty : (Video.loaded.initFb width height).AllInside :=
    fun d hd => absurd hd List.not_mem_nil
  exact (@Video.allInside_putChars text _ 0 0 rfl).trans (and_iff_right hempty)

/-- **Two newlines are too many** on a screen of one line: the scroll makes up for one. -/
theorem drawn_below : (Video.loaded.initFb 64 64).maxLine = 1 ∧
    .glyph 0 1 10 26 0x41 ∈
      ((Video.loaded.initFb 64 64).putChars [newlineChar, newlineChar, 0x41]).log ∧
    ¬DrawsInside 64 64 [newlineChar, newlineChar, 0x41] := by
  unfold DrawsInside Video.AllInside
  decide +kernel

/-! ## Texts that fit -/

/-- One line break at most before each glyph fits every text area. -/
theorem fits_of_le_one {maxCol maxLine row : ℕ} {bs : List ℕ} (hcol : 0 < maxCol)
    (hrow : row < maxLine) (hmax : maxLine < 2 ^ 32) (hbs : ∀ b ∈ bs, b ≤ 1) :
    Fits maxCol maxLine row bs := by
  induction bs generalizing row with
  | nil => trivial
  | cons b bs ih =>
    have hb : b ≤ 1 := hbs b List.mem_cons_self
    have hx : (row + b) % 2 ^ 32 = row + b := Nat.mod_eq_of_lt (by omega)
    refine ⟨⟨hcol, by omega, by omega⟩, ih (by omega) fun b hb => ?_⟩
    exact hbs b (List.mem_cons_of_mem _ hb)

/-- **Texts without two line breaks in a row stay inside**, on every screen whose size in cells has
32 bits. -/
theorem drawsInside_of_breaks_le_one {width height : ℕ} (hwidth : 64 ≤ width ∧ width < 2 ^ 35)
    (hheight : 64 ≤ height ∧ height < 2 ^ 36) {text : List UInt8}
    (h : ∀ b ∈ breaks (Video.loaded.initFb width height).maxCol 0 0 text, b ≤ 1) :
    DrawsInside width height text := by
  have hcol : 0 < (Video.loaded.initFb width height).maxCol := by
    simp only [Video.initFb, Video.clearScreen, termMargin, fontWidth]
    omega
  have hline : 0 < (Video.loaded.initFb width height).maxLine := by
    simp only [Video.initFb, Video.clearScreen, termMargin, fontHeight]
    omega
  have hmax : (Video.loaded.initFb width height).maxLine < 2 ^ 32 := Nat.mod_lt _ (by decide)
  have hempty : (Video.loaded.initFb width height).AllInside :=
    fun d hd => absurd hd List.not_mem_nil
  exact (@Video.allInside_putChars text _ 0 0 rfl).2 ⟨hempty, fits_of_le_one hcol hline hmax h⟩

end Hvos.Drivers
