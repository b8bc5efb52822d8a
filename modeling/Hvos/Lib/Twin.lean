import Hvos.Lib.Prog

/-!
# Lib/Twin — one program from two states

`Twin m s t Q H` says that `m` ends from `s` as it does from `t`: with the same result, and then in
states that `Q` relates, or by a halt in states that `H` relates.  What a program makes of a part of
the state that it does not look at is stated with it; the rules follow the program text, as those of
`Ensures` do.
-/

namespace Hvos.Prog

variable {σ α β ρ : Type}

/-- **From `s` and from `t` the program ends in the same way.** -/
def Twin (m : Prog σ α) (s t : σ) (Q : α → σ → σ → Prop) (H : σ → σ → Prop) : Prop :=
  Ensures m s (fun a s' => ∃ t', m t = .done a t' ∧ Q a s' t')
    (fun s' => ∃ t', m t = .halt t' ∧ H s' t')

variable {m : Prog σ α} {f : α → Prog σ β} {s t : σ} {Q Q' : α → σ → σ → Prop} {R : β → σ → σ → Prop}
  {H H' : σ → σ → Prop}

theorem twin_pure {a : α} (h : Q a s t) : Twin (pure a : Prog σ α) s t Q H := ⟨t, rfl, h⟩

theorem twin_halt (h : H s t) : Twin (halt : Prog σ α) s t Q H := ⟨t, rfl, h⟩

/-- What is read must be the same. -/
theorem twin_read {g : σ → α} (hg : g t = g s) (h : Q (g s) s t) : Twin (read g) s t Q H :=
  ⟨t, by rw [read_apply, hg], h⟩

theorem twin_modify {g : σ → σ} {Q : Unit → σ → σ → Prop} (h : Q () (g s) (g t)) :
    Twin (modify g) s t Q H := ⟨g t, rfl, h⟩

theorem twin_of_done {a : α} {s' t' : σ} (hs : m s = .done a s') (ht : m t = .done a t')
    (h : Q a s' t') : Twin m s t Q H := ensures_of_done hs ⟨t', ht, h⟩

/-- **Sequence.** -/
theorem twin_bind (h : Twin m s t (fun a s' t' => Twin (f a) s' t' R H) H) :
    Twin (m >>= f) s t R H := by
  refine ensures_bind (h.mono ?_ ?_)
  · rintro a s' ⟨t', ht', h'⟩
    refine h'.mono ?_ ?_
    · rintro b s'' ⟨t'', ht'', h''⟩
      exact ⟨t'', by rw [bind_apply, ht']; exact ht'', h''⟩
    · rintro s'' ⟨t'', ht'', h''⟩
      exact ⟨t'', by rw [bind_apply, ht']; exact ht'', h''⟩
  · rintro s' ⟨t', ht', h'⟩
    exact ⟨t', by rw [bind_apply, ht'], h'⟩

/-- **Consequence.** -/
theorem Twin.mono (h : Twin m s t Q H) (hQ : ∀ a s' t', Q a s' t' → Q' a s' t')
    (hH : ∀ s' t', H s' t' → H' s' t') : Twin m s t Q' H' := by
  refine Ensures.mono h ?_ ?_
  · rintro a s' ⟨t', ht', h'⟩
    exact ⟨t', ht', hQ a s' t' h'⟩
  · rintro s' ⟨t', ht', h'⟩
    exact ⟨t', ht', hH s' t' h'⟩

/-- Sequence, through what the first part makes of the two states. -/
theorem Twin.bind (h : Twin m s t Q H) (hf : ∀ a s' t', Q a s' t' → Twin (f a) s' t' R H) :
    Twin (m >>= f) s t R H :=
  twin_bind (h.mono hf fun _ _ => id)

/-- What is known of the first run may be used. -/
theorem Twin.and {P : α → σ → Prop} {E : σ → Prop} (h : Twin m s t Q H) (h' : Ensures m s P E) :
    Twin m s t (fun a s' t' => Q a s' t' ∧ P a s') (fun s' t' => H s' t' ∧ E s') := by
  unfold Twin Ensures at *
  cases hm : m s with
  | done a s' =>
    rw [hm] at h h'
    obtain ⟨t', ht', hQ⟩ := h
    exact ⟨t', ht', hQ, h'⟩
  | halt s' =>
    rw [hm] at h h'
    obtain ⟨t', ht', hH⟩ := h
    exact ⟨t', ht', hH, h'⟩

/-- **Two runs from one state are one run.** -/
theorem Twin.ensures (h : Twin m s s Q H) : Ensures m s (fun a s' => Q a s' s') fun s' => H s' s' := by
  unfold Twin Ensures at *
  cases hm : m s with
  | done a s' =>
    rw [hm] at h
    obtain ⟨t', ht', hQ⟩ := h
    cases ht'
    exact hQ
  | halt s' =>
    rw [hm] at h
    obtain ⟨t', ht', hH⟩ := h
    cases ht'
    exact hH

/-- What relates the ends, however they came. -/
theorem Twin.state {P : σ → σ → Prop} (h : Twin m s t (fun _ => P) P) : P (m s).state (m t).state := by
  unfold Twin Ensures at h
  cases hm : m s with
  | done a s' =>
    rw [hm] at h
    obtain ⟨t', ht', hP⟩ := h
    rw [ht']
    exact hP
  | halt s' =>
    rw [hm] at h
    obtain ⟨t', ht', hP⟩ := h
    rw [ht']
    exact hP

/-- After a round or a loop that may return early. -/
def EitherTwin (E : ρ → σ → σ → Prop) (I : σ → σ → Prop) : Option ρ → σ → σ → Prop
  | some r, s, t => E r s t
  | none, s, t => I s t

/-- **A loop that may return early**: `I i` holds before round `i`. -/
theorem twin_forFrom {body : ℕ → Prog σ (Option ρ)} {I : ℕ → σ → σ → Prop} {E : ρ → σ → σ → Prop}
    {n k : ℕ} (hbody : ∀ i s t, k ≤ i → i < k + n → I i s t →
      Twin (body i) s t (EitherTwin E (I (i + 1))) H)
    (hs : I k s t) : Twin (forFrom body k n) s t (EitherTwin E (I (k + n))) H := by
  induction n generalizing k s t with
  | zero => exact twin_pure hs
  | succ n ih =>
    unfold forFrom
    refine (hbody k s t (Nat.le_refl k) (by omega) hs).bind fun r s' t' hr => ?_
    cases r with
    | some r => exact twin_pure hr
    | none =>
      have hih := ih (k := k + 1) (s := s') (t := t')
        (fun i s t hi hlt => hbody i s t (by omega) (by omega)) hr
      rwa [show k + 1 + n = k + (n + 1) by omega] at hih

theorem twin_forRange {body : ℕ → Prog σ (Option ρ)} (I : ℕ → σ → σ → Prop) {E : ρ → σ → σ → Prop}
    {n : ℕ} (hbody : ∀ i s t, i < n → I i s t → Twin (body i) s t (EitherTwin E (I (i + 1))) H)
    (hs : I 0 s t) : Twin (forRange n body) s t (EitherTwin E (I n)) H := by
  have h := twin_forFrom (k := 0) (n := n) (fun i s t _ hlt => hbody i s t (by omega)) hs
  rwa [Nat.zero_add] at h

end Hvos.Prog
