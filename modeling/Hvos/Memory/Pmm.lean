import Mathlib.Data.BitVec

/-!
# Memory/Pmm — the frame bitmap, `pmm_alloc` and `pmm_free`

The byte-wise bitmap of `bitmap.c` and the first-fit scan of `pmm.c`.  A frame is named by its
number, that is its physical address divided by `PAGE_SIZE`; the null pointer is frame 0, which the
scan never returns.
-/

namespace Hvos.Memory

open Function

/-- `bitmap`, `total_pages` and `used_pages`. -/
structure Pmm where
  bitmap : ℕ → BitVec 8
  totalPages : ℕ
  usedPages : UInt64

namespace Pmm

/-! ## The bitmap -/

/-- `bitmap_test`. -/
def bitmapTest (p : Pmm) (i : ℕ) : Bool := (p.bitmap (i / 8)).getLsbD (i % 8)

/-- `bitmap_set`. -/
def bitmapSet (p : Pmm) (i : ℕ) : Pmm :=
  { p with bitmap := update p.bitmap (i / 8) (p.bitmap (i / 8) ||| (1#8 <<< (i % 8))) }

/-- `bitmap_clear`. -/
def bitmapClear (p : Pmm) (i : ℕ) : Pmm :=
  { p with bitmap := update p.bitmap (i / 8) (p.bitmap (i / 8) &&& ~~~(1#8 <<< (i % 8))) }

variable {i n g : ℕ}

/-- The bit of page `i` in its byte. -/
theorem mask_getLsbD {j : ℕ} (hb : j / 8 = i / 8) :
    (1#8 <<< (i % 8)).getLsbD (j % 8) = decide (j = i) := by
  have hj : j % 8 < 8 := Nat.mod_lt _ (by decide)
  simp only [BitVec.getLsbD_shiftLeft, hj, decide_true, Bool.true_and]
  rcases Nat.lt_trichotomy (j % 8) (i % 8) with hlt | heq | hgt
  · simp only [hlt, decide_true, Bool.not_true, Bool.false_and]
    exact (decide_eq_false (by omega)).symm
  · simp only [heq, Nat.lt_irrefl, decide_false, Bool.not_false, Bool.true_and, Nat.sub_self]
    exact (decide_eq_true (by omega)).symm
  · have hpos : j % 8 - i % 8 ≠ 0 := by omega
    simp only [BitVec.getLsbD_one, hpos, decide_false, Bool.and_false]
    exact (decide_eq_false (by omega)).symm

/-- **Setting a bit sets that bit and no other.** -/
theorem bitmapTest_bitmapSet (p : Pmm) (i j : ℕ) :
    (p.bitmapSet i).bitmapTest j = (p.bitmapTest j || decide (j = i)) := by
  unfold bitmapTest bitmapSet
  by_cases hb : j / 8 = i / 8
  · simp only [hb, update_self, BitVec.getLsbD_or, mask_getLsbD hb]
  · have hne : j ≠ i := fun h => hb (by rw [h])
    simp [update_of_ne hb, hne]

/-- **Clearing a bit clears that bit and no other.** -/
theorem bitmapTest_bitmapClear (p : Pmm) (i j : ℕ) :
    (p.bitmapClear i).bitmapTest j = (p.bitmapTest j && !decide (j = i)) := by
  unfold bitmapTest bitmapClear
  by_cases hb : j / 8 = i / 8
  · have hj : j % 8 < 8 := Nat.mod_lt _ (by decide)
    simp only [hb, update_self, BitVec.getLsbD_and, BitVec.getLsbD_not, hj, decide_true,
      Bool.true_and, mask_getLsbD hb]
  · have hne : j ≠ i := fun h => hb (by rw [h])
    simp [update_of_ne hb, hne]

@[simp] theorem bitmapTest_bitmapSet_self (p : Pmm) (i : ℕ) :
    (p.bitmapSet i).bitmapTest i = true := by
  simp [bitmapTest_bitmapSet]

/-- A loop that sets bits. -/
theorem foldl_bitmapSet (is : List ℕ) (p : Pmm) : (is.foldl bitmapSet p).totalPages = p.totalPages ∧
      ∀ j, (is.foldl bitmapSet p).bitmapTest j = (p.bitmapTest j || decide (j ∈ is)) := by
  induction is generalizing p with
  | nil => simp
  | cons i is ih =>
    obtain ⟨htotal, htest⟩ := ih (p.bitmapSet i)
    refine ⟨htotal, fun j => ?_⟩
    rw [List.foldl_cons, htest, bitmapTest_bitmapSet, Bool.or_assoc]
    simp only [List.mem_cons, Bool.decide_or]

/-- A loop that clears bits. -/
theorem foldl_bitmapClear (is : List ℕ) (p : Pmm) :
    (is.foldl bitmapClear p).totalPages = p.totalPages ∧
      ∀ j, (is.foldl bitmapClear p).bitmapTest j = (p.bitmapTest j && !decide (j ∈ is)) := by
  induction is generalizing p with
  | nil => simp
  | cons i is ih =>
    obtain ⟨htotal, htest⟩ := ih (p.bitmapClear i)
    refine ⟨htotal, fun j => ?_⟩
    rw [List.foldl_cons, htest, bitmapTest_bitmapClear, Bool.and_assoc]
    simp only [List.mem_cons, Bool.decide_or, Bool.not_or]

/-! ## `pmm_alloc` -/

/-- The scan of `pmm_alloc`: the first clear bit among `i, …, i + n - 1`. -/
def firstClear (p : Pmm) : ℕ → ℕ → Option ℕ
  | _, 0 => none
  | i, n + 1 => if p.bitmapTest i then p.firstClear (i + 1) n else some i

/-- `pmm_alloc`: a frame number, or nothing for `NULL`. -/
def pmmAlloc (p : Pmm) : Option (ℕ × Pmm) :=
  (p.firstClear 1 (p.totalPages - 1)).map fun i =>
    (i, { p.bitmapSet i with usedPages := p.usedPages + 1 })

/-- `pmm_free`, for an address. -/
def pmmFree (p : Pmm) (addr : ℕ) : Pmm :=
  let pageIndex := addr / 4096
  if p.bitmapTest pageIndex then { p.bitmapClear pageIndex with usedPages := p.usedPages - 1 } else p

/-- A frame `pmm_alloc` may return. -/
def Free (p : Pmm) (i : ℕ) : Prop := 1 ≤ i ∧ i < p.totalPages ∧ p.bitmapTest i = false

variable {p p' : Pmm}

theorem firstClear_eq_some (h : p.firstClear i n = some g) :
    i ≤ g ∧ g < i + n ∧ p.bitmapTest g = false ∧ ∀ j, i ≤ j → j < g → p.bitmapTest j = true := by
  induction n generalizing i with
  | zero => cases h
  | succ n ih =>
    rw [firstClear] at h
    split_ifs at h with ht
    · obtain ⟨hle, hlt, hg, hall⟩ := ih h
      refine ⟨by omega, by omega, hg, fun j hj hjg => ?_⟩
      rcases Nat.eq_or_lt_of_le hj with rfl | hj
      · exact ht
      · exact hall j hj hjg
    · obtain rfl := Option.some.inj h
      exact ⟨Nat.le_refl i, by omega, Bool.eq_false_iff.2 ht, fun j _ _ => by omega⟩

theorem firstClear_eq_none (h : p.firstClear i n = none) :
    ∀ j, i ≤ j → j < i + n → p.bitmapTest j = true := by
  induction n generalizing i with
  | zero => intro j _ _; omega
  | succ n ih =>
    rw [firstClear] at h
    split_ifs at h with ht
    intro j hj hlt
    rcases Nat.eq_or_lt_of_le hj with rfl | hj
    · exact ht
    · exact ih h j hj (by omega)

/-- **What `pmm_alloc` returns**: the lowest free frame, now marked used. -/
theorem pmmAlloc_eq_some (h : p.pmmAlloc = some (g, p')) :
    p.Free g ∧ (∀ j, p.Free j → g ≤ j) ∧ p'.totalPages = p.totalPages ∧
      p'.usedPages = p.usedPages + 1 ∧
      ∀ j, p'.bitmapTest j = (p.bitmapTest j || decide (j = g)) := by
  obtain ⟨i, hi, heq⟩ := Option.map_eq_some_iff.1 h
  obtain ⟨rfl, rfl⟩ := Prod.mk.inj heq
  obtain ⟨hle, hlt, hclear, hall⟩ := firstClear_eq_some hi
  refine ⟨⟨hle, by omega, hclear⟩, fun j hj => ?_, rfl, rfl, bitmapTest_bitmapSet p i⟩
  by_contra hlt'
  have hused := hall j hj.1 (by omega)
  rw [hj.2.2] at hused
  cases hused

theorem not_free_of_pmmAlloc (h : p.pmmAlloc = none) (j : ℕ) : ¬p.Free j := by
  rintro ⟨h1, hlt, hclear⟩
  have hnone := Option.map_eq_none_iff.1 h
  have hused := firstClear_eq_none hnone j h1 (by omega)
  rw [hclear] at hused
  cases hused

/-! ## Frames left -/

/-- The width of a frame number: 52-bit physical addresses. -/
def frameLimit : ℕ := 2 ^ 40

/-- At least `n` frames of physical memory can still be allocated. -/
def Avail (p : Pmm) (n : ℕ) : Prop :=
  ∃ fs : Finset ℕ, n ≤ fs.card ∧ ∀ g ∈ fs, p.Free g ∧ g < frameLimit

theorem Avail.mono {m : ℕ} (h : p.Avail n) (hmn : m ≤ n) : p.Avail m := by
  obtain ⟨fs, hcard, hfs⟩ := h
  exact ⟨fs, by omega, hfs⟩

/-- **One allocation takes one of them.** -/
theorem Avail.pmmAlloc (h : p.Avail (n + 1)) :
    ∃ g p', p.pmmAlloc = some (g, p') ∧ g < frameLimit ∧ p'.Avail n := by
  obtain ⟨fs, hcard, hfs⟩ := h
  obtain ⟨x, hx⟩ : fs.Nonempty := Finset.card_pos.1 (by omega)
  cases ha : p.pmmAlloc with
  | none => exact absurd (hfs x hx).1 (not_free_of_pmmAlloc ha x)
  | some r =>
    obtain ⟨g, p'⟩ := r
    obtain ⟨hg, hlow, htot, -, htest⟩ := pmmAlloc_eq_some ha
    have hgx : g ≤ x := hlow x (hfs x hx).1
    refine ⟨g, p', rfl, lt_of_le_of_lt hgx (hfs x hx).2, fs.erase g, ?_, fun y hy => ?_⟩
    · have hle := Finset.pred_card_le_card_erase (s := fs) (a := g)
      omega
    · obtain ⟨hne, hy⟩ := Finset.mem_erase.1 hy
      obtain ⟨⟨h1, hlt, hclear⟩, hlim⟩ := hfs y hy
      refine ⟨⟨h1, htot ▸ hlt, ?_⟩, hlim⟩
      rw [htest, hclear]
      simp [hne]

theorem Avail.take (h : p.Avail (n + 1)) (ha : p.pmmAlloc = some (g, p')) : p'.Avail n := by
  obtain ⟨g', p'', ha', -, hav⟩ := h.pmmAlloc
  rw [ha] at ha'
  cases ha'
  exact hav

theorem not_avail_of_pmmAlloc (h : p.pmmAlloc = none) : ¬p.Avail (n + 1) := by
  intro hav
  obtain ⟨g, p', hsome, -⟩ := hav.pmmAlloc
  rw [h] at hsome
  cases hsome

/-- The next `n` frames handed out have 40-bit numbers, because all frames do or because there are
enough that do. -/
def Narrow (p : Pmm) (n : ℕ) : Prop := p.totalPages ≤ frameLimit ∨ p.Avail n

theorem Narrow.mono {m : ℕ} (h : p.Narrow n) (hmn : m ≤ n) : p.Narrow m :=
  h.imp_right fun ha => ha.mono hmn

theorem Narrow.pmmAlloc (h : p.Narrow (n + 1)) (ha : p.pmmAlloc = some (g, p')) : p'.Narrow n := by
  rcases h with htot | hav
  · exact .inl ((pmmAlloc_eq_some ha).2.2.1 ▸ htot)
  · exact .inr (hav.take ha)

theorem Narrow.lt_frameLimit (h : p.Narrow (n + 1)) (ha : p.pmmAlloc = some (g, p')) :
    g < frameLimit := by
  rcases h with htot | hav
  · exact lt_of_lt_of_le (pmmAlloc_eq_some ha).1.2.1 htot
  · obtain ⟨g', p'', ha', hlt, -⟩ := hav.pmmAlloc
    rw [ha] at ha'
    cases ha'
    exact hlt

/-! ## Counting the frames left -/

/-- The number of frames `pmm_alloc` may still return. -/
def freeCount (p : Pmm) : ℕ :=
  ((Finset.range p.totalPages).filter fun i => 1 ≤ i ∧ p.bitmapTest i = false).card

theorem freeCount_le (p : Pmm) : p.freeCount ≤ p.totalPages :=
  (Finset.card_filter_le ..).trans_eq (Finset.card_range _)

theorem Free.freeCount_pos (h : p.Free g) : 0 < p.freeCount :=
  Finset.card_pos.2 ⟨g, by simpa using ⟨h.2.1, h.1, h.2.2⟩⟩

section FreeCount

variable {p p' : Pmm} (htot : p'.totalPages = p.totalPages)
  (hused : ∀ i, p.bitmapTest i = true → p'.bitmapTest i = true)
include htot hused

theorem free_subset :
    ((Finset.range p'.totalPages).filter fun i => 1 ≤ i ∧ p'.bitmapTest i = false) ⊆
      (Finset.range p.totalPages).filter fun i => 1 ≤ i ∧ p.bitmapTest i = false := by
  intro i hi
  simp only [Finset.mem_filter, Finset.mem_range, htot] at hi ⊢
  refine ⟨hi.1, hi.2.1, ?_⟩
  by_contra hset
  have htaken := hused i (by simpa using hset)
  rw [hi.2.2] at htaken
  cases htaken

/-- Frames are never given back… -/
theorem freeCount_anti : p'.freeCount ≤ p.freeCount := Finset.card_le_card (free_subset htot hused)

/-- …and one that is taken counts. -/
theorem freeCount_lt (hfree : p.Free g) (htaken : p'.bitmapTest g = true) :
    p'.freeCount < p.freeCount := by
  refine Finset.card_lt_card ((Finset.ssubset_iff_of_subset (free_subset htot hused)).2 ⟨g, ?_, ?_⟩)
  · simp only [Finset.mem_filter, Finset.mem_range]
    exact ⟨hfree.2.1, hfree.1, hfree.2.2⟩
  · simp [htaken]

end FreeCount

end Pmm

end Hvos.Memory
