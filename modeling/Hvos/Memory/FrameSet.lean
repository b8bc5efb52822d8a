import Hvos.Memory.Pmm

/-!
# Memory/FrameSet — `memory_frame_set` marks the mirror image

`memory_frame_set` marks a range of pages, eight at a time where it can.  Where it cannot, it counts
the bits of a byte from the other end than `bitmap_set` and `bitmap_test` do: page `8 * b + k` is
marked as page `8 * b + 7 - k`.  So the pages it marks are those whose mirror image in their byte
lies in the range (`MarksMirrored`), and they are the pages of the range only where the two differ
in nothing but pages that were marked before (`marks_iff`).
-/

namespace Hvos.Memory.Pmm

/-! ## `memory_frame_set` -/

/-- `bitmap[b] = v`. -/
def setByte (p : Pmm) (b : ℕ) (v : BitVec 8) : Pmm :=
  { p with bitmap := Function.update p.bitmap b v }

/-- The loop of `memory_frame_set`.  Nothing after so many rounds if it is still in the loop. -/
def frameSetLoop : ℕ → Pmm → ℕ → ℕ → Option Pmm
  | 0, p, _, length => if length > 0 then none else some p
  | fuel + 1, p, frame, length =>
    if length > 0 then
      if frame % 8 = 0 ∧ length ≥ 8 then
        frameSetLoop fuel (p.setByte (frame / 8) 0xFF#8) ((frame + 8) % 2 ^ 64) (length - 8)
      else
        frameSetLoop fuel
          (p.setByte (frame / 8) (p.bitmap (frame / 8) ||| (1#8 <<< (7 - frame % 8))))
          ((frame + 1) % 2 ^ 64) (length - 1)
    else some p

/-- `memory_frame_set`.  A round marks a page at least. -/
def memoryFrameSet (p : Pmm) (frame length : ℕ) : Option Pmm := frameSetLoop length p frame length

/-! ## The pages it marks -/

/-- The page at the same distance from the other end of the byte. -/
def mirror (i : ℕ) : ℕ := 8 * (i / 8) + (7 - i % 8)

/-- A page of the range. -/
def InRange (frame length i : ℕ) : Prop := frame ≤ i ∧ i < frame + length

instance decidableInRange (frame length i : ℕ) : Decidable (InRange frame length i) :=
  inferInstanceAs (Decidable (_ ∧ _))

/-- **From `p` to `q` the pages are marked whose mirror image is in the range**, and no others. -/
structure MarksMirrored (p q : Pmm) (frame length : ℕ) : Prop where
  totalPages : q.totalPages = p.totalPages
  usedPages : q.usedPages = p.usedPages
  test : ∀ j, q.bitmapTest j = (p.bitmapTest j || decide (InRange frame length (mirror j)))

variable {p q r : Pmm} {frame length fuel m n : ℕ}

theorem MarksMirrored.refl (p : Pmm) (frame : ℕ) : MarksMirrored p p frame 0 where
  totalPages := rfl
  usedPages := rfl
  test j := by simp [InRange]

/-- Two ranges in a row. -/
theorem MarksMirrored.trans (h : MarksMirrored p q frame m)
    (h' : MarksMirrored q r (frame + m) n) : MarksMirrored p r frame (m + n) where
  totalPages := h'.totalPages.trans h.totalPages
  usedPages := h'.usedPages.trans h.usedPages
  test j := by
    rw [h'.test, h.test, Bool.or_assoc, ← Bool.decide_or]
    refine congrArg (p.bitmapTest j || ·) (decide_eq_decide.2 ?_)
    unfold InRange
    omega

/-- **A whole byte.** -/
theorem marksMirrored_byte (p : Pmm) (hframe : frame % 8 = 0) :
    MarksMirrored p (p.setByte (frame / 8) 0xFF#8) frame 8 where
  totalPages := rfl
  usedPages := rfl
  test j := by
    have hin : InRange frame 8 (mirror j) ↔ j / 8 = frame / 8 := by
      unfold InRange mirror
      omega
    unfold bitmapTest setByte
    by_cases hb : j / 8 = frame / 8
    · have hones : ∀ k < 8, (0xFF#8).getLsbD k = true := by decide
      simp [hin, hb, hones _ (Nat.mod_lt j (by decide))]
    · simp [hin, hb]

/-- **A single bit** is that of the mirror image. -/
theorem marksMirrored_bit (p : Pmm) (frame : ℕ) :
    MarksMirrored p (p.setByte (frame / 8) (p.bitmap (frame / 8) ||| (1#8 <<< (7 - frame % 8))))
      frame 1 where
  totalPages := rfl
  usedPages := rfl
  test j := by
    have hbyte : mirror frame / 8 = frame / 8 := by
      unfold mirror
      omega
    have hbit : mirror frame % 8 = 7 - frame % 8 := by
      unfold mirror
      omega
    have hset := bitmapTest_bitmapSet p (mirror frame) j
    unfold bitmapSet at hset
    rw [hbyte, hbit] at hset
    unfold setByte
    rw [hset]
    refine congrArg (p.bitmapTest j || ·) (decide_eq_decide.2 ?_)
    unfold mirror InRange
    omega

theorem frameSetLoop_zero (fuel : ℕ) (p : Pmm) (frame : ℕ) :
    frameSetLoop fuel p frame 0 = some p := by
  cases fuel with
  | zero => rfl
  | succ fuel => rfl

/-- **The loop** ends, and marks the pages whose mirror image is in the range. -/
theorem frameSetLoop_spec (hrange : frame + length ≤ 2 ^ 64) (hfuel : length ≤ fuel) :
    ∃ q, frameSetLoop fuel p frame length = some q ∧ MarksMirrored p q frame length := by
  induction fuel generalizing p frame length with
  | zero =>
    obtain rfl : length = 0 := Nat.le_zero.1 hfuel
    exact ⟨p, rfl, .refl p frame⟩
  | succ fuel ih =>
    -- the rounds after one that marks `n` pages
    have hround : ∀ {p1 : Pmm} {n : ℕ}, 0 < n → n ≤ length → MarksMirrored p p1 frame n →
        ∃ q, frameSetLoop fuel p1 ((frame + n) % 2 ^ 64) (length - n) = some q ∧
          MarksMirrored p q frame length := by
      intro p1 n hn hle h1
      rcases Nat.eq_or_lt_of_le hle with rfl | hlt
      · rw [Nat.sub_self, frameSetLoop_zero]
        exact ⟨p1, rfl, h1⟩
      · rw [Nat.mod_eq_of_lt (by omega)]
        have hrest : frame + n + (length - n) ≤ 2 ^ 64 := by omega
        obtain ⟨q, hq, h2⟩ := ih (p := p1) hrest (by omega)
        refine ⟨q, hq, ?_⟩
        rw [← Nat.add_sub_cancel' hle]
        exact h1.trans h2
    rw [frameSetLoop]
    split_ifs with hpos hbyte
    · exact hround (by decide) hbyte.2 (marksMirrored_byte p hbyte.1)
    · exact hround (by decide) hpos (marksMirrored_bit p frame)
    · obtain rfl : length = 0 := by omega
      exact ⟨p, rfl, .refl p frame⟩

/-! ## When it marks the range -/

/-- **The range is marked**: `memory_frame_set` returns, `bitmap_test` is true of the pages of the
range and as before of all others, and all is as if `bitmap_set` had been called for each page of
the range. -/
def Marks (p : Pmm) (frame length : ℕ) : Prop :=
  ∃ q, p.memoryFrameSet frame length = some q ∧
    (∀ i, InRange frame length i → q.bitmapTest i = true) ∧
    (∀ i, ¬InRange frame length i → q.bitmapTest i = p.bitmapTest i) ∧
    q = (List.range' frame length).foldl bitmapSet p

/-- A bitmap is what `bitmap_test` says of its pages. -/
theorem bitmap_ext (h : ∀ i, p.bitmapTest i = q.bitmapTest i) : p.bitmap = q.bitmap := by
  funext b
  refine BitVec.eq_of_getLsbD_eq fun k hk => ?_
  have hi := h (8 * b + k)
  unfold bitmapTest at hi
  rwa [show (8 * b + k) / 8 = b by omega, show (8 * b + k) % 8 = k by omega] at hi

theorem foldl_bitmapSet_usedPages (is : List ℕ) (p : Pmm) :
    (is.foldl bitmapSet p).usedPages = p.usedPages := by
  induction is generalizing p with
  | nil => rfl
  | cons i is ih => exact ih (p.bitmapSet i)

/-- **The range is marked exactly if** each page that was not marked before lies in the range as its
mirror image does. -/
theorem marks_iff (p : Pmm) (hrange : frame + length ≤ 2 ^ 64) :
    p.Marks frame length ↔ ∀ i, p.bitmapTest i = false →
      (InRange frame length i ↔ InRange frame length (mirror i)) := by
  obtain ⟨q, hq, hmarks⟩ := frameSetLoop_spec (p := p) hrange le_rfl
  constructor
  · rintro ⟨q', hq', hin, hout, -⟩ i hfree
    obtain rfl : q = q' := Option.mem_unique hq hq'
    have htest := hmarks.test i
    rw [hfree, Bool.false_or] at htest
    by_cases hi : InRange frame length i
    · rw [hin i hi] at htest
      exact iff_of_true hi (of_decide_eq_true htest.symm)
    · rw [hout i hi, hfree] at htest
      exact iff_of_false hi (of_decide_eq_false htest.symm)
  · intro h
    have htest : ∀ i, q.bitmapTest i = (p.bitmapTest i || decide (InRange frame length i)) := by
      intro i
      rw [hmarks.test]
      cases hbit : p.bitmapTest i with
      | true => rfl
      | false => rw [Bool.false_or, Bool.false_or, decide_eq_decide.2 (h i hbit)]
    refine ⟨q, hq, fun i hi => by simp [htest, hi], fun i hi => by simp [htest, hi], ?_⟩
    obtain ⟨htotal, hfold⟩ := foldl_bitmapSet (List.range' frame length) p
    have hbitmap : q.bitmap = ((List.range' frame length).foldl bitmapSet p).bitmap := by
      refine bitmap_ext fun i => ?_
      rw [htest, hfold]
      refine congrArg (p.bitmapTest i || ·) (decide_eq_decide.2 ?_)
      rw [List.mem_range'_1]
      rfl
    have hused := foldl_bitmapSet_usedPages (List.range' frame length) p
    cases q
    cases hp : (List.range' frame length).foldl bitmapSet p
    simp only [hp] at hbitmap htotal hused
    simp only [mk.injEq]
    exact ⟨hbitmap, hmarks.totalPages.trans htotal.symm, hmarks.usedPages.trans hused.symm⟩

/-- A bitmap of clear bits. -/
def clearBitmap : Pmm := ⟨fun _ => 0#8, 16, 0⟩

/-- Two whole bytes are marked. -/
theorem marks_wholeBytes : clearBitmap.Marks 8 16 := by
  refine (marks_iff clearBitmap (by decide)).2 fun i _ => ?_
  unfold InRange mirror
  omega

/-- **Page 7 is marked for page 0.** -/
theorem frameSet_mirrored : ∃ q, clearBitmap.memoryFrameSet 0 1 = some q ∧ q.bitmapTest 0 = false ∧
    q.bitmapTest 7 = true ∧ (clearBitmap.bitmapSet 0).bitmapTest 0 = true ∧
    (clearBitmap.bitmapSet 0).bitmapTest 7 = false :=
  ⟨_, rfl, by decide, by decide, by decide, by decide⟩

end Hvos.Memory.Pmm
