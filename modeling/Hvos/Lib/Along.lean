import Hvos.Lib.Prog

/-!
# Lib/Along — orders that every program respects

`Along R m` says that `m` only moves up in the preorder `R`, whether it returns or halts.  Sequences
and loops of such programs are such programs, so the order has to be looked at where the state is
changed and nowhere else.
-/

namespace Hvos.Prog

variable {σ α β ρ : Type} {R : σ → σ → Prop}

/-- However `m` ends, `R` relates the state before to the one after. -/
def Along (R : σ → σ → Prop) (m : Prog σ α) : Prop := ∀ s, R s (m s).state

theorem along_modify {f : σ → σ} (h : ∀ s, R s (f s)) : Along R (modify f) := h

theorem Along.done {m : Prog σ α} (h : Along R m) {s s' : σ} {a : α} (hm : m s = .done a s') :
    R s s' := by
  have hs := h s
  rwa [hm] at hs

theorem Along.ensures {m : Prog σ α} (h : Along R m) (s : σ) : Ensures m s (fun _ => R s) (R s) := by
  have hs := h s
  unfold Ensures
  cases hm : m s <;> rwa [hm] at hs

theorem along_ite {p : Prop} [Decidable p] {m m' : Prog σ α} (h : p → Along R m)
    (h' : ¬p → Along R m') : Along R (if p then m else m') := by
  split_ifs with hp
  · exact h hp
  · exact h' hp

section Preorder

variable [IsPreorder σ R] {m : Prog σ α} {f : α → Prog σ β}

theorem along_pure (a : α) : Along R (pure a : Prog σ α) := fun s => refl s

theorem along_halt : Along R (halt : Prog σ α) := fun s => refl s

theorem along_read (g : σ → α) : Along R (read g) := fun s => refl s

/-- **Sequence.** -/
theorem Along.bind (h : Along R m) (hf : ∀ a, Along R (f a)) : Along R (m >>= f) := by
  intro s
  rw [bind_apply]
  cases hm : m s with
  | done a t => exact IsTrans.trans _ _ _ (h.done hm) (hf a t)
  | halt t =>
    have hs := h s
    rwa [hm] at hs

/-- **Loop.** -/
theorem along_forFrom {body : ℕ → Prog σ (Option ρ)} (h : ∀ i, Along R (body i)) (i n : ℕ) :
    Along R (forFrom body i n) := by
  induction n generalizing i with
  | zero => exact along_pure none
  | succ n ih =>
    refine (h i).bind fun r => ?_
    cases r with
    | some r => exact along_pure _
    | none => exact ih (i + 1)

theorem along_forRange {body : ℕ → Prog σ (Option ρ)} (h : ∀ i, Along R (body i)) (n : ℕ) :
    Along R (forRange n body) := along_forFrom h 0 n

end Preorder

end Hvos.Prog
