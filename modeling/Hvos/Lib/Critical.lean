import Hvos.Lib.Runs
import Mathlib.Tactic.Common

/-!
# Lib/Critical — critical sections under one test-and-set lock, in every interleaving

Any number of agents call code that runs between a lock and an unlock.  The code is a `Body`: it
touches the shared state one access at a time, and the accesses of different agents interleave
freely; what keeps them apart is the lock word alone.  The invariant is `Serial`: the calls that are
through the lock have done what they do **one after the other**, in the order of their unlocks, and
at most one agent is on top of that, somewhere in its own code.

* `serial_step` — every step of the interleaved system keeps `Serial`.
* `Replay.run` — where the code computes a function, the calls in the log are a run of that function.
-/

namespace Hvos.Critical

open Function

variable {ι C σ κ ρ : Type*}

/-! ## The code under the lock -/

/-- **Code under a lock**: where a call starts, and what one access does — the state it leaves, and
where the code goes on or what it returns. -/
structure Body (C σ κ ρ : Type*) where
  start : C → κ
  next : κ → σ → σ × (κ ⊕ ρ)

namespace Body

/-- Accesses with nobody else around. -/
inductive Steps (b : Body C σ κ ρ) (k : κ) (s : σ) : κ → σ → Prop
  | refl : Steps b k s k s
  | snoc {k' k'' : κ} {s' s'' : σ} (h : Steps b k s k' s') (hn : b.next k' s' = (s'', .inl k'')) :
      Steps b k s k'' s''

/-- The code from `k` to its end with nobody else around. -/
inductive Ends (b : Body C σ κ ρ) : κ → σ → ρ → σ → Prop
  | ret {k : κ} {s s' : σ} {r : ρ} (hn : b.next k s = (s', .inr r)) : Ends b k s r s'
  | step {k k' : κ} {s s' s'' : σ} {r : ρ} (hn : b.next k s = (s', .inl k'))
      (h : Ends b k' s' r s'') : Ends b k s r s''

/-- **A call made alone.** -/
def Alone (b : Body C σ κ ρ) (c : C) (s : σ) (r : ρ) (s' : σ) : Prop := b.Ends (b.start c) s r s'

/-- **The code computes `spec`**: every call made alone ends, with that result and that state. -/
def Computes (b : Body C σ κ ρ) (spec : C → σ → ρ × σ) : Prop :=
  ∀ c s, b.Alone c s (spec c s).1 (spec c s).2

variable {b : Body C σ κ ρ} {s s' s0 : σ}

theorem Steps.ends {k k' : κ} {s'' : σ} {r : ρ} (h : b.Steps k s k' s') (he : b.Ends k' s' r s'') :
    b.Ends k s r s'' := by
  induction h with
  | refl => exact he
  | snoc _ hn ih => exact ih (.step hn he)

/-- How code ends is determined by where it is. -/
theorem Ends.det {k : κ} {s1 s2 : σ} {r1 r2 : ρ} (h1 : b.Ends k s r1 s1) (h2 : b.Ends k s r2 s2) :
    r1 = r2 ∧ s1 = s2 := by
  induction h1 with
  | ret hn =>
    cases h2 with
    | ret hn' => exact ⟨by simpa using congrArg Prod.snd (hn.symm.trans hn'),
        congrArg Prod.fst (hn.symm.trans hn')⟩
    | step hn' _ => simpa using congrArg Prod.snd (hn.symm.trans hn')
  | step hn _ ih =>
    cases h2 with
    | ret hn' => simpa using congrArg Prod.snd (hn.symm.trans hn')
    | step hn' h' =>
      obtain ⟨rfl, hk⟩ := Prod.mk.inj (hn.symm.trans hn')
      obtain rfl := Sum.inl.inj hk
      exact ih h'

/-- Code that ends does so from wherever it has got to. -/
theorem Steps.rest {k k' : κ} {s'' : σ} {r : ρ} (h : b.Steps k s k' s') (he : b.Ends k s r s'') :
    b.Ends k' s' r s'' := by
  induction h with
  | refl => exact he
  | snoc _ hn ih =>
    cases ih with
    | ret hn' => simpa using congrArg Prod.snd (hn.symm.trans hn')
    | step hn' hrest =>
      obtain ⟨rfl, hk⟩ := Prod.mk.inj (hn.symm.trans hn')
      obtain rfl := Sum.inl.inj hk
      exact hrest

/-- **Calls made one after the other**, each with who made it and what it returned. -/
inductive Replay (b : Body C σ κ ρ) (s : σ) : List (ι × C × ρ) → σ → Prop
  | nil : Replay b s [] s
  | snoc {s' s'' : σ} {log : List (ι × C × ρ)} (i : ι) {c : C} {r : ρ} (h : Replay b s log s')
      (hc : b.Alone c s' r s'') : Replay b s (log ++ [(i, c, r)]) s''

/-- A call in one piece, where it returns what the log says. -/
def atomic [DecidableEq ρ] (spec : C → σ → ρ × σ) (e : ι × C × ρ) (s : σ) : Option σ :=
  if (spec e.2.1 s).1 = e.2.2 then some (spec e.2.1 s).2 else none

theorem atomic_eq_some [DecidableEq ρ] {spec : C → σ → ρ × σ} {e : ι × C × ρ} :
    atomic spec e s = some s' ↔ spec e.2.1 s = (e.2.2, s') := by
  rw [atomic, Prod.ext_iff]
  split_ifs with h
  · simp [h]
  · simp [h]

/-- **The calls in the log are a run of what the code computes.** -/
theorem Replay.run [DecidableEq ρ] {spec : C → σ → ρ × σ} (hb : b.Computes spec)
    {log : List (ι × C × ρ)} (h : b.Replay s log s') : Run (atomic spec) s log s' := by
  induction h with
  | nil => exact .nil s
  | snoc i _ hc ih =>
    obtain ⟨hr, hs⟩ := (hb _ _).det hc
    exact .snoc _ ih (atomic_eq_some.2 (Prod.ext hr hs))

end Body

/-! ## Agents and the lock word -/

/-- Where an agent is: away, at the lock for the call `c`, in the code of `c`, or at its unlock. -/
inductive Place (C κ ρ : Type*)
  | away
  | waiting (c : C)
  | inside (c : C) (k : κ)
  | leaving (c : C) (r : ρ)

/-- The agent has the lock. -/
def Place.Holds : Place C κ ρ → Prop
  | .inside .. | .leaving .. => True
  | _ => False

@[simp] theorem Place.not_holds_away : ¬(Place.away : Place C κ ρ).Holds := id
@[simp] theorem Place.not_holds_waiting (c : C) : ¬(Place.waiting c : Place C κ ρ).Holds := id
@[simp] theorem Place.holds_inside (c : C) (k : κ) : (Place.inside c k : Place C κ ρ).Holds := trivial
@[simp] theorem Place.holds_leaving (c : C) (r : ρ) : (Place.leaving c r : Place C κ ρ).Holds :=
  trivial

/-- The lock word, what it guards, the agents, and the calls that are through. -/
@[ext] structure World (ι C σ κ ρ : Type*) where
  locked : Bool
  shared : σ
  place : ι → Place C κ ρ
  log : List (ι × C × ρ)

/-- What an agent does next. -/
inductive Act (ι C : Type*)
  /-- It comes to the lock. -/
  | call (i : ι) (c : C)
  /-- It exchanges the lock word for `1`, and is through if it was `0`. -/
  | exchange (i : ι)
  /-- It makes one access. -/
  | work (i : ι)
  /-- It stores `0` in the lock word. -/
  | unlock (i : ι)

/-! ## Serial -/

variable {b : Body C σ κ ρ} {w w' : World ι C σ κ ρ}

/-- What the holder has done so far to the state `s` it found. -/
def Progress (b : Body C σ κ ρ) (s t : σ) : Place C κ ρ → Prop
  | .inside c k => b.Steps (b.start c) s k t
  | .leaving c r => b.Alone c s r t
  | _ => False

/-- **The lock keeps the calls apart**: those that are through happened one after the other; if the
word is clear nobody is inside and that is the state, and if it is set exactly one agent is, and the
state is where that agent has brought it. -/
def Serial (b : Body C σ κ ρ) (s0 : σ) (w : World ι C σ κ ρ) : Prop :=
  ∃ s, b.Replay s0 w.log s ∧
    ((w.locked = false ∧ w.shared = s ∧ ∀ i, ¬(w.place i).Holds) ∨
      (w.locked = true ∧ ∃ i, Progress b s w.shared (w.place i) ∧
        ∀ j, (w.place j).Holds → j = i))

/-- Nobody has come yet. -/
def World.fresh (s0 : σ) : World ι C σ κ ρ := ⟨false, s0, fun _ => .away, []⟩

theorem serial_fresh (s0 : σ) : Serial b s0 (World.fresh s0 : World ι C σ κ ρ) :=
  ⟨s0, .nil, .inl ⟨rfl, rfl, fun _ => Place.not_holds_away⟩⟩

variable {p : Place C κ ρ}

theorem Progress.holds {t : σ} (h : Progress b s t p) : p.Holds := by
  cases p with
  | away | waiting => exact h
  | inside | leaving => trivial

/-- An agent that holds is the one the state is waiting for. -/
theorem Serial.holder (h : Serial b s0 w) {i : ι} (hi : (w.place i).Holds) :
    w.locked = true ∧ ∃ s, b.Replay s0 w.log s ∧ Progress b s w.shared (w.place i) ∧
      ∀ j, (w.place j).Holds → j = i := by
  obtain ⟨s, hlog, ⟨-, -, hnone⟩ | ⟨hlocked, j, hprog, honly⟩⟩ := h
  · exact absurd hi (hnone i)
  · obtain rfl := honly i hi
    exact ⟨hlocked, s, hlog, hprog, honly⟩

/-- While the word is set, some agent holds. -/
theorem Serial.exists_holder (h : Serial b s0 w) (hw : w.locked = true) :
    ∃ i, (w.place i).Holds := by
  obtain ⟨s, -, ⟨hfree, -⟩ | ⟨-, i, hprog, -⟩⟩ := h
  · simp [hw] at hfree
  · exact ⟨i, hprog.holds⟩

/-- **Mutual exclusion.** -/
theorem Serial.unique (h : Serial b s0 w) {i j : ι} (hi : (w.place i).Holds)
    (hj : (w.place j).Holds) : j = i := by
  obtain ⟨-, s, -, -, honly⟩ := h.holder hi
  exact honly j hj

/-- While nobody holds, the shared state is that of the calls one after the other. -/
theorem Serial.idle (h : Serial b s0 w) (hw : w.locked = false) : b.Replay s0 w.log w.shared := by
  obtain ⟨s, hlog, ⟨-, rfl, -⟩ | ⟨hlocked, -⟩⟩ := h
  · exact hlog
  · simp [hw] at hlocked

/-! ## Steps -/

section Step

variable [DecidableEq ι]

/-- The agent `i` is at `p` now. -/
def World.move (w : World ι C σ κ ρ) (i : ι) (p : Place C κ ρ) : World ι C σ κ ρ :=
  { w with place := update w.place i p }

/-- **One step of one agent.** -/
def step (b : Body C σ κ ρ) : Act ι C → World ι C σ κ ρ → Option (World ι C σ κ ρ)
  | .call i c, w =>
    match w.place i with
    | .away => some (w.move i (.waiting c))
    | _ => none
  | .exchange i, w =>
    match w.place i with
    | .waiting c =>
      if w.locked then some w
      else some { w.move i (.inside c (b.start c)) with locked := true }
    | _ => none
  | .work i, w =>
    match w.place i with
    | .inside c k =>
      match b.next k w.shared with
      | (s, .inl k') => some { w.move i (.inside c k') with shared := s }
      | (s, .inr r) => some { w.move i (.leaving c r) with shared := s }
    | _ => none
  | .unlock i, w =>
    match w.place i with
    | .leaving c r =>
      some { w.move i .away with locked := false, log := w.log ++ [(i, c, r)] }
    | _ => none

/-- Who else holds does not change when `i` moves. -/
theorem holds_move {i j : ι} (h : ((w.move i p).place j).Holds) :
    (j = i ∧ p.Holds) ∨ (j ≠ i ∧ (w.place j).Holds) := by
  by_cases hj : j = i
  · subst hj
    simp only [World.move, update_self] at h
    exact .inl ⟨rfl, h⟩
  · simp only [World.move, update_of_ne hj] at h
    exact .inr ⟨hj, h⟩

/-- An agent that does not hold may move to another such place. -/
theorem Serial.move (h : Serial b s0 w) {i : ι} (hi : ¬(w.place i).Holds) (hp : ¬p.Holds) :
    Serial b s0 (w.move i p) := by
  have hsame : ∀ j, ((w.move i p).place j).Holds → (w.place j).Holds := by
    intro j hj
    rcases holds_move hj with ⟨-, hp'⟩ | ⟨-, hj⟩
    · exact absurd hp' hp
    · exact hj
  obtain ⟨s, hlog, ⟨hlocked, hs, hnone⟩ | ⟨hlocked, j, hprog, honly⟩⟩ := h
  · exact ⟨s, hlog, .inl ⟨hlocked, hs, fun j hj => hnone j (hsame j hj)⟩⟩
  · have hji : j ≠ i := by
      rintro rfl
      exact hi hprog.holds
    refine ⟨s, hlog, .inr ⟨hlocked, j, ?_, fun l hl => honly l (hsame l hl)⟩⟩
    simpa only [World.move, update_of_ne hji] using hprog

/-- The holder goes on. -/
theorem Serial.advance {i : ι} {t : σ} (hlocked : w.locked = true) (hlog : b.Replay s0 w.log s)
    (honly : ∀ j, (w.place j).Holds → j = i) (hprog : Progress b s t p) :
    Serial b s0 { w.move i p with shared := t } := by
  refine ⟨s, hlog, .inr ⟨hlocked, i, ?_, fun j hj => ?_⟩⟩
  · simpa only [World.move, update_self] using hprog
  · rcases holds_move hj with ⟨hj, -⟩ | ⟨-, hj⟩
    · exact hj
    · exact honly j hj

/-- **Every step keeps the calls apart.** -/
theorem serial_step (e : Act ι C) (w w' : World ι C σ κ ρ) (h : Serial b s0 w)
    (hstep : step b e w = some w') : Serial b s0 w' := by
  cases e with
  | call i c =>
    simp only [step] at hstep
    split at hstep
    next hi =>
      cases hstep
      exact h.move (by simp [hi]) (Place.not_holds_waiting c)
    next => cases hstep
  | exchange i =>
    simp only [step] at hstep
    split at hstep
    next c hi =>
      split at hstep
      next =>
        cases hstep
        exact h
      next hlocked =>
        cases hstep
        obtain ⟨s, hlog, ⟨-, hs, hnone⟩ | ⟨hlocked', -⟩⟩ := h
        · refine ⟨s, hlog, .inr ⟨rfl, i, ?_, fun j hj => ?_⟩⟩
          · simp only [World.move, update_self, Progress]
            exact hs ▸ .refl
          · rcases holds_move hj with ⟨hj, -⟩ | ⟨-, hj⟩
            · exact hj
            · exact absurd hj (hnone j)
        · exact absurd hlocked' hlocked
    next => cases hstep
  | work i =>
    simp only [step] at hstep
    split at hstep
    next c k hi =>
      obtain ⟨hlocked, s, hlog, hprog, honly⟩ := h.holder (i := i) (by simp [hi])
      rw [hi] at hprog
      split at hstep
      next t k' hn =>
        cases hstep
        exact Serial.advance hlocked hlog honly (Body.Steps.snoc hprog hn)
      next t r hn =>
        cases hstep
        exact Serial.advance hlocked hlog honly (Body.Steps.ends hprog (.ret hn))
    next => cases hstep
  | unlock i =>
    simp only [step] at hstep
    split at hstep
    next c r hi =>
      obtain ⟨-, s, hlog, hprog, honly⟩ := h.holder (i := i) (by simp [hi])
      rw [hi] at hprog
      cases hstep
      refine ⟨w.shared, .snoc i hlog hprog, .inl ⟨rfl, rfl, fun j hj => ?_⟩⟩
      rcases holds_move hj with ⟨-, hp⟩ | ⟨hne, hj⟩
      · exact hp
      · exact hne (honly j hj)
    next => cases hstep

end Step

end Hvos.Critical
