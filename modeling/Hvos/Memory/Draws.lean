import Hvos.Lib.Along
import Hvos.Memory.Heap
import Mathlib.Order.Interval.Finset.Nat

/-!
# Memory/Draws — frames are drawn from below

`pmm_alloc` takes the lowest free frame, and the functions that map memory never give one back.  So
what a call has taken lies below whatever is still free after it (`Pmm.Drawn`), and the frames of
two calls one after the other do not interleave.
-/

namespace Hvos.Memory

open Prog

variable {p p' p'' : Pmm}

/-- **Frames have been drawn from `p`**, all of them below those that are left in `p'`. -/
structure Pmm.Drawn (p p' : Pmm) : Prop where
  totalPages : p'.totalPages = p.totalPages
  used : ∀ f, p.bitmapTest f = true → p'.bitmapTest f = true
  below : ∀ f g, p.bitmapTest f = false → p'.bitmapTest f = true → p'.Free g → f < g

namespace Pmm.Drawn

theorem refl (p : Pmm) : Drawn p p where
  totalPages := rfl
  used _ := id
  below f g hfree hused := by
    rw [hfree] at hused
    cases hused

theorem free (h : Drawn p p') {f : ℕ} (hf : p'.Free f) : p.Free f := by
  obtain ⟨h1, hlt, hclear⟩ := hf
  refine ⟨h1, h.totalPages ▸ hlt, ?_⟩
  by_contra hset
  have hused := h.used f (by simpa using hset)
  rw [hclear] at hused
  cases hused

theorem trans (h : Drawn p p') (h' : Drawn p' p'') : Drawn p p'' where
  totalPages := h'.totalPages.trans h.totalPages
  used f hf := h'.used f (h.used f hf)
  below f g hfree hused hg := by
    cases hmid : p'.bitmapTest f with
    | true => exact h.below f g hfree hmid (h'.free hg)
    | false => exact h'.below f g hmid hused hg

/-- **One frame.** -/
theorem pmmAlloc {g : ℕ} (ha : p.pmmAlloc = some (g, p')) : Drawn p p' := by
  obtain ⟨hfree, hlow, htot, -, htest⟩ := Pmm.pmmAlloc_eq_some ha
  refine ⟨htot, fun f hf => by rw [htest, hf, Bool.true_or], fun f i hclear hused hi => ?_⟩
  rw [htest, hclear, Bool.false_or, decide_eq_true_iff] at hused
  obtain ⟨h1, hlt, hi⟩ := hi
  rw [htest, Bool.or_eq_false_iff, decide_eq_false_iff_not] at hi
  have hle := hlow i ⟨h1, htot ▸ hlt, hi.1⟩
  have hne := hi.2
  omega

/-- **What is free from `g` on stays free**, as long as a frame up to `g` does. -/
theorem avail {f g n : ℕ} (h : Drawn p p') (hf : p'.Free f) (hfg : f ≤ g)
    (hclear : ∀ i, g ≤ i → p.bitmapTest i = false) (hn : g + n ≤ p.totalPages)
    (hlimit : p.totalPages ≤ Pmm.frameLimit) : p'.Avail n := by
  refine ⟨Finset.Ico g (g + n), by simp, fun i hi => ?_⟩
  obtain ⟨hle, hlt⟩ := Finset.mem_Ico.1 hi
  refine ⟨⟨hf.1.trans (hfg.trans hle), by rw [h.totalPages]; omega, ?_⟩, by omega⟩
  by_contra hset
  have hlow := h.below i f (hclear i hle) (by simpa using hset) hf
  omega

end Pmm.Drawn

/-! ## Programs that draw -/

/-- The frames of the second state were drawn from the first. -/
def DrawnMem (s s' : Mem) : Prop := s.pmm.Drawn s'.pmm

instance : IsPreorder Mem DrawnMem where
  refl s := Pmm.Drawn.refl s.pmm
  trans _ _ _ := Pmm.Drawn.trans

theorem drawnMem_of_eq {s s' : Mem} (h : s'.pmm = s.pmm) : DrawnMem s s' := by
  unfold DrawnMem
  rw [h]
  exact .refl _

theorem modify_draws {f : Mem → Mem} (h : ∀ s, (f s).pmm = s.pmm) :
    Along DrawnMem (Prog.modify f) := along_modify fun s => drawnMem_of_eq (h s)

theorem pmmAlloc_draws : Along DrawnMem pmmAlloc := by
  intro s
  unfold Memory.pmmAlloc
  cases ha : s.pmm.pmmAlloc with
  | none => exact Pmm.Drawn.refl s.pmm
  | some r => exact Pmm.Drawn.pmmAlloc ha

theorem nextTable_draws (f : ℕ) (i : Fin 512) (user : Bool) :
    Along DrawnMem (nextTable f i user) := by
  refine (along_read _).bind fun e => ?_
  refine along_ite (fun _ => along_read _) fun _ => ?_
  refine Along.bind ?_ fun g => ?_
  · refine pmmAlloc_draws.bind fun g => ?_
    cases g with
    | none => exact along_pure _
    | some g => exact Along.bind (modify_draws fun _ => rfl) fun _ => along_pure _
  · cases g with
    | none => exact along_halt
    | some g => exact Along.bind (modify_draws fun _ => rfl) fun _ => along_read _

theorem mapPage_draws (pml4 v paddr flags : ℕ) : Along DrawnMem (mapPage pml4 v paddr flags) := by
  refine (nextTable_draws _ _ _).bind fun pdpt => (nextTable_draws _ _ _).bind fun pd => ?_
  exact (nextTable_draws _ _ _).bind fun pt => modify_draws fun _ => rfl

theorem heapExpand_draws (n : ℕ) : Along DrawnMem (heapExpand n) := by
  refine (along_forRange (fun _ => pmmAlloc_draws.bind fun g => ?_) _).bind fun _ => along_pure _
  cases g with
  | none => exact along_pure _
  | some g =>
    refine (along_read _).bind fun pml4 => (along_read _).bind fun limit => ?_
    refine (mapPage_draws _ _ _ _).bind fun _ => ?_
    exact Along.bind (modify_draws fun _ => rfl) fun _ => along_pure _

theorem HeapOnly.drawnMem {s s' : Mem} (h : HeapOnly s s') : DrawnMem s s' := drawnMem_of_eq h.pmm

theorem kmalloc_draws (size : ℕ) : Along DrawnMem (kmalloc size) := by
  intro s
  refine (kmalloc_ensures (P := DrawnMem s) (fun t t' h ht => Pmm.Drawn.trans h ht.drawnMem)
    (fun n t h => ?_) size (refl s)).state
  exact ((heapExpand_draws n).ensures t).mono (fun _ _ => Pmm.Drawn.trans h)
    fun _ => Pmm.Drawn.trans h

theorem kzalloc_draws (size : ℕ) : Along DrawnMem (kzalloc size) := by
  refine (kmalloc_draws size).bind fun ptr => along_ite (fun _ => along_pure _) fun _ => ?_
  exact Along.bind (modify_draws fun _ => rfl) fun _ => along_pure _

end Hvos.Memory
