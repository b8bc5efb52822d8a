import Mathlib.Tactic.Common

/-!
# Lib/Prog — programs that change a state and may stop for good

`Prog σ α` is a function from a state to an `Outcome`: a result and the new state, or the state in
which the machine halted.  `Ensures m s Q H` says what holds in either case; the rules below follow
the program text (`pure`, bind, state access, loops), so a specification is proved by walking
through it.
-/

namespace Hvos

variable {σ α β ρ : Type}

/-- The end of a program: it returned, or the machine halted inside it. -/
inductive Outcome (σ α : Type)
  | done (a : α) (s : σ)
  | halt (s : σ)

/-- The state at the end, however it came. -/
def Outcome.state : Outcome σ α → σ
  | .done _ s => s
  | .halt s => s

/-- A program over the state `σ`. -/
def Prog (σ α : Type) := σ → Outcome σ α

namespace Prog

/-- Return. -/
protected def pure (a : α) : Prog σ α := fun s => .done a s

/-- Sequence; a halt is final. -/
protected def bind (m : Prog σ α) (f : α → Prog σ β) : Prog σ β := fun s =>
  match m s with
  | .done a s' => f a s'
  | .halt s' => .halt s'

instance : Monad (Prog σ) where
  pure := Prog.pure
  bind := Prog.bind

/-- Stop the machine. -/
def halt : Prog σ α := fun s => .halt s

/-- Read the state. -/
def read (f : σ → α) : Prog σ α := fun s => .done (f s) s

/-- Change the state. -/
def modify (f : σ → σ) : Prog σ Unit := fun s => .done () (f s)

/-- A loop over `i, …, i + n - 1` whose body may return from the function around it. -/
def forFrom (body : ℕ → Prog σ (Option ρ)) : ℕ → ℕ → Prog σ (Option ρ)
  | _, 0 => pure none
  | i, n + 1 => do
    match ← body i with
    | some r => pure (some r)
    | none => forFrom body (i + 1) n

/-- `for (i = 0; i < n; i++)`. -/
def forRange (n : ℕ) (body : ℕ → Prog σ (Option ρ)) : Prog σ (Option ρ) := forFrom body 0 n

/-- `while`, given up after `n` rounds: `none` then, and otherwise what the loop was left with. -/
def rounds (body : Prog σ (Option ρ)) : ℕ → Prog σ (Option ρ)
  | 0 => pure none
  | n + 1 => do
    match ← body with
    | some r => pure (some r)
    | none => rounds body n

@[simp] theorem pure_apply (a : α) (s : σ) : (pure a : Prog σ α) s = .done a s := rfl

@[simp] theorem halt_apply (s : σ) : (halt : Prog σ α) s = .halt s := rfl

@[simp] theorem read_apply (f : σ → α) (s : σ) : read f s = .done (f s) s := rfl

@[simp] theorem modify_apply (f : σ → σ) (s : σ) : modify f s = .done () (f s) := rfl

@[simp] theorem bind_apply (m : Prog σ α) (f : α → Prog σ β) (s : σ) : (m >>= f) s = match m s with
      | .done a s' => f a s'
      | .halt s' => .halt s' := rfl

theorem pure_bind (a : α) (f : α → Prog σ β) : (pure a >>= f) = f a := rfl

theorem bind_assoc {γ : Type} (m : Prog σ α) (f : α → Prog σ β) (g : β → Prog σ γ) :
    (m >>= f) >>= g = m >>= fun a => f a >>= g := by
  funext s
  simp only [bind_apply]
  cases m s <;> rfl

/-! ## What a program ensures -/

/-- From `s`, a return satisfies `Q` and a halt satisfies `H`. -/
def Ensures (m : Prog σ α) (s : σ) (Q : α → σ → Prop) (H : σ → Prop) : Prop :=
  match m s with
  | .done a s' => Q a s'
  | .halt s' => H s'

variable {m : Prog σ α} {f : α → Prog σ β} {s : σ} {Q Q' : α → σ → Prop} {R : β → σ → Prop}
  {H H' : σ → Prop}

instance decidableEnsures (m : Prog σ α) (s : σ) (Q : α → σ → Prop) (H : σ → Prop)
    [∀ a s', Decidable (Q a s')] [∀ s', Decidable (H s')] : Decidable (Ensures m s Q H) :=
  match hm : m s with
  | .done a s' => decidable_of_iff (Q a s') (by rw [Ensures, hm])
  | .halt s' => decidable_of_iff (H s') (by rw [Ensures, hm])

theorem ensures_pure {a : α} (h : Q a s) : Ensures (pure a : Prog σ α) s Q H := h

theorem ensures_halt (h : H s) : Ensures (halt : Prog σ α) s Q H := h

theorem ensures_read {g : σ → α} (h : Q (g s) s) : Ensures (read g) s Q H := h

theorem ensures_modify {g : σ → σ} {Q : Unit → σ → Prop} (h : Q () (g s)) :
    Ensures (modify g) s Q H := h

theorem ensures_of_done {a : α} {s' : σ} (hm : m s = .done a s') (h : Q a s') : Ensures m s Q H := by
  unfold Ensures
  rw [hm]
  exact h

/-- **Sequence.** -/
theorem ensures_bind (h : Ensures m s (fun a s' => Ensures (f a) s' R H) H) :
    Ensures (m >>= f) s R H := by
  unfold Ensures at h ⊢
  rw [bind_apply]
  cases hm : m s with
  | done a s' =>
    rw [hm] at h
    exact h
  | halt s' =>
    rw [hm] at h
    exact h

theorem ensures_read_bind {g : σ → α} (h : Ensures (f (g s)) s R H) :
    Ensures (read g >>= f) s R H := h

theorem ensures_modify_bind {g : σ → σ} {f : Unit → Prog σ β} (h : Ensures (f ()) (g s) R H) :
    Ensures (modify g >>= f) s R H := h

/-- **Consequence.** -/
theorem Ensures.mono (h : Ensures m s Q H) (hQ : ∀ a s', Q a s' → Q' a s')
    (hH : ∀ s', H s' → H' s') : Ensures m s Q' H' := by
  unfold Ensures at h ⊢
  cases hm : m s with
  | done a s' =>
    rw [hm] at h
    exact hQ a s' h
  | halt s' =>
    rw [hm] at h
    exact hH s' h

theorem Ensures.imp (h : Ensures m s Q H) (hQ : ∀ a s', Q a s' → Q' a s') : Ensures m s Q' H :=
  h.mono hQ fun _ => id

/-- **Two specifications of one program.** -/
theorem Ensures.and (h : Ensures m s Q H) (h' : Ensures m s Q' H') :
    Ensures m s (fun a s' => Q a s' ∧ Q' a s') fun s' => H s' ∧ H' s' := by
  unfold Ensures at h h' ⊢
  cases hm : m s with
  | done a s' =>
    rw [hm] at h h'
    exact ⟨h, h'⟩
  | halt s' =>
    rw [hm] at h h'
    exact ⟨h, h'⟩

/-- What holds of a return. -/
theorem Ensures.apply {a : α} {s' : σ} (h : Ensures m s Q H) (hm : m s = .done a s') : Q a s' := by
  unfold Ensures at h
  rwa [hm] at h

/-- A sequence that returns is two programs that return. -/
theorem done_of_bind {b : β} {s' : σ} (h : (m >>= f) s = .done b s') :
    ∃ a t, m s = .done a t ∧ f a t = .done b s' := by
  rw [bind_apply] at h
  cases hm : m s with
  | done a t =>
    rw [hm] at h
    exact ⟨a, t, rfl, h⟩
  | halt t =>
    rw [hm] at h
    cases h

/-- A program that ensures no halt returns. -/
theorem Ensures.done (h : Ensures m s Q fun _ => False) : ∃ a s', m s = .done a s' ∧ Q a s' := by
  unfold Ensures at h
  cases hm : m s with
  | done a s' =>
    rw [hm] at h
    exact ⟨a, s', rfl, h⟩
  | halt s' =>
    rw [hm] at h
    exact h.elim

/-- The two ends of a program. -/
theorem Ensures.cases (h : Ensures m s Q H) :
    (∃ a s', m s = .done a s' ∧ Q a s') ∨ ∃ s', m s = .halt s' ∧ H s' := by
  unfold Ensures at h
  cases hm : m s with
  | done a s' =>
    rw [hm] at h
    exact .inl ⟨a, s', rfl, h⟩
  | halt s' =>
    rw [hm] at h
    exact .inr ⟨s', rfl, h⟩

/-- What holds in either case holds at the end. -/
theorem Ensures.state {P : σ → Prop} (h : Ensures m s (fun _ => P) P) : P (m s).state := by
  unfold Ensures at h
  cases hm : m s with
  | done a s' =>
    rw [hm] at h
    exact h
  | halt s' =>
    rw [hm] at h
    exact h

/-- The state a program returns in is the one at its end. -/
theorem Ensures.at_end (h : Ensures m s Q H) :
    Ensures m s (fun a s' => Q a s' ∧ (m s).state = s') H := by
  unfold Ensures at h ⊢
  cases hm : m s with
  | done a s' =>
    rw [hm] at h
    exact ⟨h, rfl⟩
  | halt s' =>
    rw [hm] at h
    exact h

/-- Sequence, through the specification of the first part. -/
theorem Ensures.bind (h : Ensures m s Q H) (hf : ∀ a s', Q a s' → Ensures (f a) s' R H) :
    Ensures (m >>= f) s R H :=
  ensures_bind (h.imp hf)

/-- A program that ensures no halt, in front of one that may halt. -/
theorem Ensures.bind_false (h : Ensures m s Q fun _ => False)
    (hf : ∀ a s', Q a s' → Ensures (f a) s' R H) : Ensures (m >>= f) s R H :=
  ensures_bind (h.mono hf fun _ => False.elim)

theorem Ensures.bind_true (h : Ensures m s Q H)
    (hf : ∀ a s', Q a s' → Ensures (f a) s' R fun _ => True) :
    Ensures (m >>= f) s R fun _ => True :=
  ensures_bind (h.mono hf fun _ _ => trivial)

/-- After a round or a loop that may return early: `E` if it returned, `I` if not. -/
def Either (E : ρ → σ → Prop) (I : σ → Prop) : Option ρ → σ → Prop
  | some r, s => E r s
  | none, s => I s

/-- **A loop that may return early**: `I i` holds before round `i`. -/
theorem ensures_forFrom {body : ℕ → Prog σ (Option ρ)} {I : ℕ → σ → Prop} {E : ρ → σ → Prop}
    {n k : ℕ} (hbody : ∀ i s, k ≤ i → i < k + n → I i s →
      Ensures (body i) s (Either E (I (i + 1))) H)
    (hs : I k s) : Ensures (forFrom body k n) s (Either E (I (k + n))) H := by
  induction n generalizing k s with
  | zero => exact ensures_pure hs
  | succ n ih =>
    unfold forFrom
    refine (hbody k s (Nat.le_refl k) (by omega) hs).bind fun r s' hr => ?_
    cases r with
    | some r => exact ensures_pure hr
    | none =>
      have hih := ih (k := k + 1) (s := s') (fun i t hi hlt => hbody i t (by omega) (by omega)) hr
      rwa [show k + 1 + n = k + (n + 1) by omega] at hih

theorem ensures_forRange {body : ℕ → Prog σ (Option ρ)} (I : ℕ → σ → Prop) {E : ρ → σ → Prop}
    {n : ℕ} (hbody : ∀ i s, i < n → I i s → Ensures (body i) s (Either E (I (i + 1))) H)
    (hs : I 0 s) : Ensures (forRange n body) s (Either E (I n)) H := by
  have h := ensures_forFrom (k := 0) (n := n) (fun i t _ hlt => hbody i t (by omega)) hs
  rwa [Nat.zero_add] at h

/-- The last round of a loop that does not return. -/
theorem forFrom_succ_done {body : ℕ → Prog σ (Option ρ)} {k n : ℕ} {s t : σ} :
    forFrom body k (n + 1) s = .done none t ↔
      ∃ s', forFrom body k n s = .done none s' ∧ body (k + n) s' = .done none t := by
  induction n generalizing k s with
  | zero =>
    constructor
    · intro h
      obtain ⟨r, s', hbody, h⟩ := done_of_bind h
      cases r with
      | some r => cases h
      | none =>
        cases h
        exact ⟨s, rfl, hbody⟩
    · rintro ⟨s', hs', hbody⟩
      cases hs'
      rw [forFrom, bind_apply, show body k s = .done none t from hbody]
      rfl
  | succ n ih =>
    constructor
    · intro h
      obtain ⟨r, s1, hbody, h⟩ := done_of_bind h
      cases r with
      | some r => cases h
      | none =>
        obtain ⟨s', hs', hlast⟩ := ih.1 h
        refine ⟨s', ?_, ?_⟩
        · rw [forFrom, bind_apply, hbody]
          exact hs'
        · rwa [Nat.add_assoc, Nat.add_comm 1] at hlast
    · rintro ⟨s', hs', hlast⟩
      obtain ⟨r, s1, hbody, hs'⟩ := done_of_bind hs'
      cases r with
      | some r => cases hs'
      | none =>
        rw [forFrom, bind_apply, hbody]
        refine ih.2 ⟨s', hs', ?_⟩
        rwa [Nat.add_assoc, Nat.add_comm 1]

theorem forRange_succ_done {body : ℕ → Prog σ (Option ρ)} {n : ℕ} {s t : σ} :
    forRange (n + 1) body s = .done none t ↔
      ∃ s', forRange n body s = .done none s' ∧ body n s' = .done none t := by
  rw [forRange, forRange, forFrom_succ_done, Nat.zero_add]

/-! ## Loops that may not end -/

/-- The loop is left with `r` in `s'`, after enough rounds. -/
def Leaves (body : Prog σ (Option ρ)) (s : σ) (r : ρ) (s' : σ) : Prop :=
  ∃ n, rounds body n s = .done (some r) s'

variable {body : Prog σ (Option ρ)} {r r' : ρ} {s' t : σ}

theorem not_rounds_zero : rounds body 0 s ≠ .done (some r) s' := nofun

/-- **The last round.** -/
theorem leaves_iff_of_some (h : body s = .done (some r) t) :
    Leaves body s r' s' ↔ r' = r ∧ s' = t := by
  have hrounds : ∀ n, rounds body (n + 1) s = .done (some r) t := fun n => by
    rw [rounds, bind_apply, h]
    rfl
  constructor
  · rintro ⟨n, hn⟩
    cases n with
    | zero => exact absurd hn not_rounds_zero
    | succ n =>
      cases (hrounds n).symm.trans hn
      exact ⟨rfl, rfl⟩
  · rintro ⟨rfl, rfl⟩
    exact ⟨1, hrounds 0⟩

/-- **A round that goes on.** -/
theorem leaves_iff_of_none (h : body s = .done none t) :
    Leaves body s r s' ↔ Leaves body t r s' := by
  have hrounds : ∀ n, rounds body (n + 1) s = rounds body n t := fun n => by
    rw [rounds, bind_apply, h]
  constructor
  · rintro ⟨n, hn⟩
    cases n with
    | zero => exact absurd hn not_rounds_zero
    | succ n => exact ⟨n, (hrounds n).symm.trans hn⟩
  · rintro ⟨n, hn⟩
    exact ⟨n + 1, (hrounds n).trans hn⟩

/-- **A loop that always goes on is never left.** -/
theorem not_leaves {I : σ → Prop} (hI : ∀ s, I s → ∃ t, body s = .done none t ∧ I t) (hs : I s) :
    ¬Leaves body s r s' := by
  rintro ⟨n, hn⟩
  induction n generalizing s with
  | zero => exact not_rounds_zero hn
  | succ n ih =>
    obtain ⟨t, ht, hIt⟩ := hI s hs
    rw [rounds, bind_apply, ht] at hn
    exact ih hIt hn

/-- **What a loop ends with**, from what each round does: it is the last one, or the next state is
nearer to the end, or it is never left. -/
theorem exists_leaves_iff {V : σ → Prop} {Q : ρ → σ → Prop} (μ : σ → ℕ)
    (h : ∀ s, (∃ r t, body s = .done (some r) t ∧ (V s ↔ Q r t)) ∨
      (∃ t, body s = .done none t ∧ μ t < μ s ∧ (V s ↔ V t)) ∨
      (∀ r t, ¬Leaves body s r t) ∧ ¬V s) : (∃ r s', Leaves body s r s' ∧ Q r s') ↔ V s := by
  induction hn : μ s using Nat.strongRecOn generalizing s with
  | ind n ih =>
    obtain ⟨r, t, hlast, hV⟩ | ⟨t, hnext, hlt, hV⟩ | ⟨hnever, hV⟩ := h s
    · simp only [leaves_iff_of_some hlast, hV, and_assoc, exists_and_left, exists_eq_left]
    · simp only [leaves_iff_of_none hnext, hV]
      exact ih (μ t) (hn ▸ hlt) rfl
    · simp only [hnever, hV, false_and, exists_false]

end Prog

end Hvos
