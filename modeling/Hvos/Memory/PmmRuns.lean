import Hvos.Lib.Runs
import Hvos.Memory.Pmm

/-!
# Memory/PmmRuns — runs of `pmm_alloc` and `pmm_free`

The frame allocator as its callers see it, through addresses.  A `Ledger` keeps, beside the bitmap,
the addresses that were ever returned and those that are still out; `Books` ties the two together
and every call keeps it, as long as the address of every page fits in 64 bits.
-/

namespace Hvos.Memory

/-- `pmm_alloc` as an address: `i * PAGE_SIZE` in a `uint64_t`, or `NULL`. -/
def Pmm.pmmAllocAddr (p : Pmm) : ℕ × Pmm :=
  match p.pmmAlloc with
  | none => (0, p)
  | some (i, p') => (i * 4096 % 2 ^ 64, p')

/-- The allocator, the addresses it ever returned, and those that are out. -/
structure Ledger where
  pmm : Pmm
  returned : List ℕ
  outstanding : List ℕ

/-- A call. -/
inductive Call
  | alloc
  | free (addr : ℕ)
  deriving DecidableEq

/-- One call; an address may be freed once it has been returned, as often as the caller likes. -/
def Ledger.step : Call → Ledger → Option Ledger
  | .alloc, t =>
    let r := t.pmm.pmmAllocAddr
    if r.1 = 0 then some { t with pmm := r.2 }
    else some ⟨r.2, r.1 :: t.returned, r.1 :: t.outstanding⟩
  | .free addr, t =>
    if addr ∈ t.returned then
      some { t with pmm := t.pmm.pmmFree addr, outstanding := t.outstanding.erase addr }
    else none

/-! ## The books -/

/-- **The bitmap and the addresses agree**, for the allocator that started as `p`. -/
structure Books (p : Pmm) (t : Ledger) : Prop where
  total : t.pmm.totalPages = p.totalPages
  frames : ∀ a ∈ t.returned, ∃ i, a = i * 4096 ∧ p.Free i
  out : t.outstanding ⊆ t.returned
  distinct : t.outstanding.Nodup
  marked : ∀ i, t.pmm.bitmapTest i = true ↔ p.bitmapTest i = true ∨ i * 4096 ∈ t.outstanding
  used : t.pmm.usedPages = UInt64.ofNat t.outstanding.length

variable {p : Pmm} {t t' : Ledger}

theorem books_start (hused : p.usedPages = 0) : Books p ⟨p, [], []⟩ where
  total := rfl
  frames a ha := by cases ha
  out := List.Subset.refl []
  distinct := List.nodup_nil
  marked i := by simp
  used := hused

section

variable (h : Books p t)
include h

/-- A free frame was free in the beginning, and is not out. -/
theorem Books.free {i : ℕ} (hi : t.pmm.Free i) : p.Free i ∧ i * 4096 ∉ t.outstanding := by
  have hclear := mt (h.marked i).2 (by simp [hi.2.2])
  rw [not_or] at hclear
  exact ⟨⟨hi.1, h.total ▸ hi.2.1, by simpa using hclear.1⟩, hclear.2⟩

/-- Addresses of pages fit. -/
theorem Books.addr (hfit : p.totalPages ≤ 2 ^ 52) {i : ℕ} (hi : t.pmm.Free i) :
    i * 4096 % 2 ^ 64 = i * 4096 ∧ i * 4096 ≠ 0 := by
  obtain ⟨hge, hlt, -⟩ := hi
  rw [h.total] at hlt
  exact ⟨Nat.mod_eq_of_lt (by omega), by omega⟩

/-- **`pmm_alloc`** returns `NULL` and changes nothing, or the lowest free frame's address. -/
theorem Books.pmmAllocAddr (hfit : p.totalPages ≤ 2 ^ 52) :
    ((∀ i, ¬t.pmm.Free i) ∧ t.pmm.pmmAllocAddr = (0, t.pmm)) ∨
      ∃ i pmm, t.pmm.Free i ∧ (∀ j, t.pmm.Free j → i ≤ j) ∧ t.pmm.pmmAlloc = some (i, pmm) ∧
        t.pmm.pmmAllocAddr = (i * 4096, pmm) := by
  unfold Pmm.pmmAllocAddr
  cases ha : t.pmm.pmmAlloc with
  | none => exact .inl ⟨Pmm.not_free_of_pmmAlloc ha, rfl⟩
  | some r =>
    obtain ⟨i, pmm⟩ := r
    obtain ⟨hfree, hlow, -⟩ := Pmm.pmmAlloc_eq_some ha
    refine .inr ⟨i, pmm, hfree, hlow, rfl, ?_⟩
    simp only [(h.addr hfit hfree).1]

theorem Books.alloc (hfit : p.totalPages ≤ 2 ^ 52) (hstep : Ledger.step .alloc t = some t') :
    Books p t' := by
  rcases h.pmmAllocAddr hfit with ⟨-, hnull⟩ | ⟨i, pmm, hfree, -, ha, haddr⟩
  · simp only [Ledger.step, hnull, if_true, Option.some.injEq] at hstep
    rwa [← hstep]
  · have hne := (h.addr hfit hfree).2
    simp only [Ledger.step, haddr, if_neg hne, Option.some.injEq] at hstep
    subst hstep
    obtain ⟨-, -, htotal, hused, htest⟩ := Pmm.pmmAlloc_eq_some ha
    obtain ⟨hclear, hnew⟩ := h.free hfree
    refine
      { total := htotal.trans h.total
        frames := fun a ha => ?_
        out := List.cons_subset_cons _ h.out
        distinct := List.nodup_cons.2 ⟨hnew, h.distinct⟩
        marked := fun j => ?_
        used := ?_ }
    · rcases List.mem_cons.1 ha with rfl | ha
      · exact ⟨i, rfl, hclear⟩
      · exact h.frames a ha
    · rw [htest, Bool.or_eq_true, h.marked, decide_eq_true_iff, List.mem_cons, or_assoc,
        Nat.mul_left_inj (by decide), or_comm (a := j * 4096 ∈ t.outstanding)]
    · rw [hused, h.used, List.length_cons, UInt64.ofNat_add]
      rfl

/-- What `pmm_free` does to an address that is out… -/
theorem Books.pmmFree_out {i : ℕ} (hi : i * 4096 ∈ t.outstanding) :
    t.pmm.pmmFree (i * 4096) =
      { t.pmm.bitmapClear i with usedPages := t.pmm.usedPages - 1 } := by
  have hset := (h.marked i).2 (.inr hi)
  simp only [Pmm.pmmFree, Nat.mul_div_cancel i (show 0 < 4096 by decide), hset, if_true]

/-- …and to one that is not: nothing. -/
theorem Books.pmmFree_in {a : ℕ} (ha : a ∈ t.returned) (hin : a ∉ t.outstanding) :
    t.pmm.pmmFree a = t.pmm := by
  obtain ⟨i, rfl, hfree⟩ := h.frames a ha
  have hclear : t.pmm.bitmapTest i ≠ true := fun hset =>
    ((h.marked i).1 hset).elim (fun hset => by simp [hfree.2.2] at hset) hin
  simp only [Pmm.pmmFree, Nat.mul_div_cancel i (show 0 < 4096 by decide), if_neg hclear]

theorem Books.freed {a : ℕ} (ha : a ∈ t.returned) :
    Books p { t with pmm := t.pmm.pmmFree a, outstanding := t.outstanding.erase a } := by
  by_cases hout : a ∈ t.outstanding
  · obtain ⟨i, rfl, hfree⟩ := h.frames a ha
    rw [h.pmmFree_out hout]
    refine
      { total := h.total
        frames := h.frames
        out := fun b hb => h.out (List.mem_of_mem_erase hb)
        distinct := h.distinct.erase _
        marked := fun j => ?_
        used := ?_ }
    · show (t.pmm.bitmapClear i).bitmapTest j = true ↔ _
      rw [Pmm.bitmapTest_bitmapClear, Bool.and_eq_true, h.marked, h.distinct.mem_erase_iff]
      simp only [ne_eq, Nat.mul_left_inj (show 4096 ≠ 0 by decide), Bool.not_eq_true',
        decide_eq_false_iff_not]
      constructor
      · rintro ⟨hset | hset, hne⟩
        · exact .inl hset
        · exact .inr ⟨hne, hset⟩
      · rintro (hset | ⟨hne, hset⟩)
        · refine ⟨.inl hset, ?_⟩
          rintro rfl
          simp [hfree.2.2] at hset
        · exact ⟨.inr hset, hne⟩
    · have hpos : 0 < t.outstanding.length := List.length_pos_of_mem hout
      show t.pmm.usedPages - 1 = _
      rw [h.used, List.length_erase_of_mem hout]
      obtain ⟨n, hn⟩ := Nat.exists_eq_succ_of_ne_zero hpos.ne'
      rw [hn, Nat.succ_sub_one, Nat.succ_eq_add_one, UInt64.ofNat_add]
      simp
  · rw [h.pmmFree_in ha hout, List.erase_of_not_mem hout]
    exact h

end

theorem Books.step (hfit : p.totalPages ≤ 2 ^ 52) (c : Call) (t t' : Ledger) (h : Books p t)
    (hstep : Ledger.step c t = some t') : Books p t' := by
  cases c with
  | alloc => exact h.alloc hfit hstep
  | free addr =>
    simp only [Ledger.step] at hstep
    split_ifs at hstep with haddr
    cases hstep
    exact h.freed haddr

/-- Every address that is out is one of the pages, so their number fits in `used_pages`. -/
theorem Books.length_le (h : Books p t) : t.outstanding.length ≤ p.totalPages := by
  have hsub : t.outstanding.toFinset ⊆ (Finset.range p.totalPages).image (· * 4096) := by
    intro a ha
    obtain ⟨i, rfl, hfree⟩ := h.frames a (h.out (List.mem_toFinset.1 ha))
    exact Finset.mem_image.2 ⟨i, Finset.mem_range.2 hfree.2.1, rfl⟩
  rw [← List.toFinset_card_of_nodup h.distinct]
  exact ((Finset.card_le_card hsub).trans Finset.card_image_le).trans_eq (Finset.card_range _)

/-! ## What callers see -/

/-- **The allocator is accounted for**: what is out, what is marked, the counter, what the next
`pmm_alloc` returns, and a second `pmm_free`. -/
structure Accounted (p : Pmm) (t : Ledger) : Prop where
  distinct : t.outstanding.Nodup
  frames : ∀ a ∈ t.outstanding, a ≠ 0 ∧ a % 4096 = 0 ∧ a < p.totalPages * 4096 ∧
    p.bitmapTest (a / 4096) = false
  marked : ∀ i, t.pmm.bitmapTest i = true ↔ p.bitmapTest i = true ∨ i * 4096 ∈ t.outstanding
  used : t.pmm.usedPages.toNat = t.outstanding.length
  lowest : ∀ i, 1 ≤ i → i < p.totalPages → t.pmm.bitmapTest i = false →
    (∀ j, 1 ≤ j → j < i → t.pmm.bitmapTest j = true) → t.pmm.pmmAllocAddr.1 = i * 4096
  null : t.pmm.pmmAllocAddr.1 = 0 ↔ ∀ i, 1 ≤ i → i < p.totalPages → t.pmm.bitmapTest i = true
  unchanged : t.pmm.pmmAllocAddr.1 = 0 → t.pmm.pmmAllocAddr.2 = t.pmm
  again : ∀ a ∈ t.returned, (a ∉ t.outstanding → t.pmm.pmmFree a = t.pmm) ∧
    (t.pmm.pmmFree a).pmmFree a = t.pmm.pmmFree a

theorem Books.not_free_iff (h : Books p t) :
    (∀ i, ¬t.pmm.Free i) ↔ ∀ i, 1 ≤ i → i < p.totalPages → t.pmm.bitmapTest i = true := by
  simp only [Pmm.Free, h.total, not_and, Bool.not_eq_false]

theorem Books.accounted (h : Books p t) (hfit : p.totalPages ≤ 2 ^ 52) : Accounted p t := by
  have hcase := h.pmmAllocAddr hfit
  refine
    { distinct := h.distinct
      frames := fun a ha => ?_
      marked := h.marked
      used := ?_
      lowest := fun i h1 hlt hclear hbelow => ?_
      null := ?_
      unchanged := fun hnull => ?_
      again := fun a ha => ⟨h.pmmFree_in ha, ?_⟩ }
  · obtain ⟨i, rfl, h1, hlt, hclear⟩ := h.frames a (h.out ha)
    refine ⟨by omega, by omega, by omega, ?_⟩
    rwa [Nat.mul_div_cancel i (by decide)]
  · have hle := h.length_le
    rw [h.used, UInt64.toNat_ofNat']
    exact Nat.mod_eq_of_lt (by omega)
  · have hfree : t.pmm.Free i := ⟨h1, h.total ▸ hlt, hclear⟩
    rcases hcase with ⟨hnone, -⟩ | ⟨j, pmm, hj, hlow, -, haddr⟩
    · exact absurd hfree (hnone i)
    · have hij : i ≤ j := by
        by_contra hji
        have hset := hbelow j hj.1 (by omega)
        rw [hj.2.2] at hset
        cases hset
      rw [haddr, Nat.le_antisymm hij (hlow i hfree)]
  · rw [← h.not_free_iff]
    rcases hcase with ⟨hnone, haddr⟩ | ⟨j, pmm, hj, -, -, haddr⟩
    · simp [haddr, hnone]
    · have hne := (h.addr hfit hj).2
      rw [haddr]
      exact ⟨fun h0 => absurd h0 hne, fun hnone => absurd hj (hnone j)⟩
  · rcases hcase with ⟨-, haddr⟩ | ⟨j, pmm, hj, -, -, haddr⟩
    · rw [haddr]
    · rw [haddr] at hnull
      exact absurd hnull (h.addr hfit hj).2
  · have hnot : a ∉ t.outstanding.erase a := fun hmem => (h.distinct.mem_erase_iff.1 hmem).1 rfl
    exact (h.freed ha).pmmFree_in ha hnot

/-- **Every run of `pmm_alloc` and `pmm_free` is accounted for**, for up to `2 ^ 52` pages. -/
theorem pmm_accounted (hused : p.usedPages = 0) (hfit : p.totalPages ≤ 2 ^ 52) {cs : List Call}
    (h : Run Ledger.step ⟨p, [], []⟩ cs t) : Accounted p t :=
  (h.invariant (Books.step hfit) (books_start hused)).accounted hfit

/-- Four pages, of which the second is in use. -/
def fourPages : Pmm where
  bitmap := Function.update (fun _ => 0) 0 2
  totalPages := 4
  usedPages := 0

/-- Pages 2 and 3 are handed out, page 2 is freed twice and handed out again. -/
theorem pmm_accounted_fourPages :
    ∃ t, Run Ledger.step ⟨fourPages, [], []⟩ [.alloc, .alloc, .free 8192, .free 8192, .alloc] t ∧
      t.outstanding = [8192, 12288] ∧ Accounted fourPages t := by
  have hrun : Run Ledger.step ⟨fourPages, [], []⟩ [.alloc, .alloc, .free 8192, .free 8192, .alloc] _ :=
    Run.of_exec rfl
  exact ⟨_, hrun, by decide, pmm_accounted rfl (by decide) hrun⟩

/-! ## Beyond `2 ^ 52` pages -/

/-- If page `2 ^ 52` is the only clear one, `pmm_alloc` takes it, and its address wraps. -/
theorem pmmAllocAddr_wraps (htotal : p.totalPages = 2 ^ 52 + 1)
    (hset : ∀ i < 2 ^ 52, p.bitmapTest i = true) (hclear : p.bitmapTest (2 ^ 52) = false) :
    p.Free (2 ^ 52) ∧ p.pmmAllocAddr.1 = 0 ∧
      p.pmmAllocAddr.2.usedPages = p.usedPages + 1 := by
  have hfree : p.Free (2 ^ 52) := ⟨by decide, by omega, hclear⟩
  refine ⟨hfree, ?_⟩
  unfold Pmm.pmmAllocAddr
  cases ha : p.pmmAlloc with
  | none => exact absurd hfree (Pmm.not_free_of_pmmAlloc ha _)
  | some r =>
    obtain ⟨i, pmm⟩ := r
    obtain ⟨⟨-, hlt, hclear'⟩, -, -, hused, -⟩ := Pmm.pmmAlloc_eq_some ha
    have htop : i = 2 ^ 52 := by
      by_contra hne
      have hset' := hset i (by omega)
      rw [hclear'] at hset'
      cases hset'
    refine ⟨?_, hused⟩
    simp only [htop]
    decide

/-- One page more than 64-bit addresses have, and only that page clear. -/
def topPage : Pmm where
  bitmap := fun k => if k < 2 ^ 49 then 0xff else 0
  totalPages := 2 ^ 52 + 1
  usedPages := 0

/-- **The address of page `2 ^ 52` wraps to `NULL`**: the page is clear, `pmm_alloc` marks and
counts it, and returns `NULL`. -/
theorem topPage_null :
    topPage.Free (2 ^ 52) ∧ topPage.pmmAllocAddr.1 = 0 ∧ topPage.pmmAllocAddr.2.usedPages = 1 := by
  have hones : ∀ k < 8, (0xff : BitVec 8).getLsbD k = true := by decide
  refine pmmAllocAddr_wraps (p := topPage) rfl (fun i hi => ?_) ?_
  · have hbyte : topPage.bitmap (i / 8) = 0xff := if_pos (show i / 8 < 2 ^ 49 by omega)
    rw [Pmm.bitmapTest, hbyte]
    exact hones _ (Nat.mod_lt _ (by decide))
  · decide

end Hvos.Memory
