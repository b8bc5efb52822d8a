import Mathlib.Order.Lattice

/-!
# Lib/Objects — a heap of typed objects, and what an allocator owes its caller

A heap maps addresses to objects; an address without one is free.  An allocator may hand out any
free address that is not null, those of freed objects included, or refuse.
-/

namespace Hvos

open Function

/-- **A heap of objects `ω`.**  Nothing lives at or above `limit`; `frees` counts how often each
address was given back. -/
structure Heap (ω : Type) where
  get : ℕ → Option ω
  limit : ℕ
  frees : ℕ → ℕ
  above : ∀ p, limit ≤ p → get p = none

namespace Heap

variable {ω : Type}

/-- The heap without objects. -/
def empty : Heap ω := ⟨fun _ => none, 0, fun _ => 0, fun _ _ => rfl⟩

/-- Put an object at `p`. -/
def set (h : Heap ω) (p : ℕ) (o : ω) : Heap ω where
  get := update h.get p (some o)
  limit := max h.limit (p + 1)
  frees := h.frees
  above q hq := by
    have hne : q ≠ p := by
      rintro rfl
      exact absurd ((le_max_right h.limit (q + 1)).trans hq) (Nat.not_succ_le_self q)
    rw [update_of_ne hne]
    exact h.above q ((le_max_left _ _).trans hq)

/-- Give back what is at `p`. -/
def free (h : Heap ω) (p : ℕ) : Heap ω where
  get := update h.get p none
  limit := h.limit
  frees := update h.frees p (h.frees p + 1)
  above q hq := by
    rcases eq_or_ne q p with rfl | hne
    · exact update_self ..
    · rw [update_of_ne hne]
      exact h.above q hq

variable (h : Heap ω) {p q : ℕ} (o : ω)

theorem get_set : (h.set p o).get = update h.get p (some o) := rfl

@[simp] theorem get_set_self : (h.set p o).get p = some o := update_self ..

theorem get_set_of_ne (hne : q ≠ p) : (h.set p o).get q = h.get q := update_of_ne hne ..

@[simp] theorem get_free_self : (h.free p).get p = none := update_self ..

theorem get_free_of_ne (hne : q ≠ p) : (h.free p).get q = h.get q := update_of_ne hne ..

/-- What is put at a free address and given back leaves no trace. -/
theorem get_free_set (hp : h.get p = none) : ((h.set p o).free p).get = h.get := by
  funext q
  rcases eq_or_ne q p with rfl | hne
  · rw [get_free_self, hp]
  · rw [get_free_of_ne _ hne, get_set_of_ne _ _ hne]

end Heap

/-- **An allocator**: for a heap and a size, a free address or nothing. -/
structure Allocator (ω : Type) where
  alloc : Heap ω → ℕ → Option ℕ
  fresh : ∀ {h n p}, alloc h n = some p → p ≠ 0 ∧ h.get p = none

/-- **Borrowed and given back**: every address that was taken on the way got one object and was
freed, once, before the next one was taken. -/
inductive Allocator.Borrows {ω : Type} (A : Allocator ω) : Heap ω → Heap ω → Prop
  | nil (h : Heap ω) : Borrows A h h
  | cons {h h' : Heap ω} {n p : ℕ} {o : ω} (hp : A.alloc h n = some p)
      (rest : Borrows A ((h.set p o).free p) h') : Borrows A h h'

/-- What is given back leaves no trace. -/
theorem Allocator.Borrows.get_eq {ω : Type} {A : Allocator ω} {h h' : Heap ω}
    (hb : A.Borrows h h') : h'.get = h.get := by
  induction hb with
  | nil => rfl
  | cons hp _ ih => rw [ih, Heap.get_free_set _ _ (A.fresh hp).2]

/-- The allocator that never refuses and hands out the first address above all others. -/
def Allocator.bump (ω : Type) : Allocator ω where
  alloc h _ := some (h.limit + 1)
  fresh {h n p} heq := by
    cases heq
    exact ⟨Nat.succ_ne_zero _, h.above _ (Nat.le_succ _)⟩

end Hvos
