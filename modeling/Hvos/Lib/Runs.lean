import Mathlib.Logic.Relation

/-!
# Lib/Runs — runs of a partial step function, and what every run preserves

A system is a function `step : ε → σ → Option σ`: the state an event leads to, where it is enabled.
`Run step s es s'` is a run through the events `es`.  The two rules everything else uses are
`Run.invariant` (one step preserves it, so every run does) and `Run.append`.
-/

namespace Hvos

variable {σ ε : Type*} {step : ε → σ → Option σ}

/-- **A run**: the events in the order they happen, each enabled where it happens. -/
inductive Run (step : ε → σ → Option σ) : σ → List ε → σ → Prop
  | nil (s : σ) : Run step s [] s
  | snoc {s s' s'' : σ} {es : List ε} (e : ε) (h : Run step s es s') (he : step e s' = some s'') :
      Run step s (es ++ [e]) s''

namespace Run

variable {I : σ → Prop} {s s' t : σ} {es es2 : List ε}

/-- **What every step preserves, every run preserves.** -/
theorem invariant (hI : ∀ e s s', I s → step e s = some s' → I s') (h : Run step s es s')
    (hs : I s) : I s' := by
  induction h with
  | nil => exact hs
  | snoc e _ he ih => exact hI _ _ _ ih he

/-- A run in which every step meets a side condition preserves what such steps preserve. -/
theorem invariant_of_forall {C : ε → σ → Prop}
    (hI : ∀ e s s', C e s → I s → step e s = some s' → I s') (h : Run step s es s') (hs : I s)
    (hC : ∀ es1 e es2 t, es = es1 ++ e :: es2 → Run step s es1 t → C e t) : I s' := by
  induction h with
  | nil => exact hs
  | snoc e h he ih =>
    refine hI _ _ _ (hC _ e [] _ rfl h) (ih fun es1 e' es2 t heq => ?_) he
    exact hC es1 e' (es2 ++ [e]) t (by rw [heq]; simp)

variable {e : ε}

theorem single (h : step e s = some s') : Run step s [e] s' :=
  snoc e (nil s) h

theorem append {s'' : σ} {es' : List ε} (h : Run step s es s') (h' : Run step s' es' s'') :
    Run step s (es ++ es') s'' := by
  induction h' with
  | nil => rwa [List.append_nil]
  | snoc e _ he ih =>
    rw [← List.append_assoc]
    exact snoc e ih he

/-- **An invariant of the state and of how it came about.** -/
theorem history {I : List ε → σ → Prop} {s0 : σ}
    (hI : ∀ e es s s', Run step s0 es s → I es s → step e s = some s' → I (es ++ [e]) s')
    (h0 : I [] s0) (h : Run step s0 es s) : I es s := by
  induction h with
  | nil => exact h0
  | snoc e h he ih => exact hI _ _ _ _ h ih he

/-- A run of one event is one step. -/
theorem step_of_single (h : Run step s [e] s') : step e s = some s' := by
  generalize hes : [e] = es at h
  cases h with
  | nil => simp at hes
  | @snoc t _ es' e' h' he =>
    obtain ⟨rfl, heq⟩ := List.append_inj' (show [] ++ [e] = es' ++ [e'] from hes) rfl
    obtain rfl := List.singleton_inj.1 heq
    generalize hnil : ([] : List ε) = es at h'
    cases h' with
    | nil => exact he
    | snoc => simp at hnil

/-- A run is determined by its events. -/
theorem det {s1 s2 : σ} (h1 : Run step s es s1) (h2 : Run step s es s2) : s1 = s2 := by
  induction h1 generalizing s2 with
  | nil =>
    generalize hes : ([] : List ε) = es at h2
    cases h2 with
    | nil => rfl
    | snoc e h he => simp at hes
  | @snoc s' s'' es e h he ih =>
    generalize hes : es ++ [e] = es' at h2
    cases h2 with
    | nil => simp at hes
    | snoc e' h' he' =>
      obtain ⟨rfl, heq⟩ := List.append_inj' hes rfl
      obtain rfl := List.singleton_inj.1 heq
      obtain rfl := ih h'
      exact Option.mem_unique he he'

/-- What holds of the event of a run of one. -/
theorem of_single {P : ε → σ → Prop} {e' : ε} {es1 : List ε} (he : P e s)
    (hes : [e] = es1 ++ e' :: es2) (h : Run step s es1 t) : P e' t := by
  obtain ⟨rfl, rfl⟩ : es1 = [] ∧ e' = e := by cases es1 <;> simp_all
  rwa [h.det (.nil s)]

/-- A run can be cut anywhere. -/
theorem split (es1 : List ε) (h : Run step s (es1 ++ es2) s') :
    ∃ t, Run step s es1 t ∧ Run step t es2 s' := by
  generalize hes : es1 ++ es2 = es at h
  induction h generalizing es2 with
  | nil =>
    obtain ⟨rfl, rfl⟩ := List.append_eq_nil_iff.1 hes
    exact ⟨s, .nil s, .nil s⟩
  | snoc e h he ih =>
    rcases List.eq_nil_or_concat es2 with rfl | ⟨es3, e', rfl⟩
    · rw [List.append_nil] at hes
      subst hes
      exact ⟨_, .snoc e h he, .nil _⟩
    · rw [List.concat_eq_append, ← List.append_assoc] at hes
      obtain ⟨rfl, heq⟩ := List.append_inj' hes rfl
      obtain rfl := List.singleton_inj.1 heq
      obtain ⟨t, ht1, ht2⟩ := ih rfl
      exact ⟨t, ht1, List.concat_eq_append ▸ .snoc e' ht2 he⟩

/-- An event of a run is enabled where it happens, and the run goes on behind it. -/
theorem enabled {es1 : List ε} (h : Run step s (es1 ++ e :: es2) s') (h1 : Run step s es1 t) :
    ∃ t', step e t = some t' ∧ Run step t' es2 s' := by
  obtain ⟨u, hu, hrest⟩ := split es1 h
  obtain rfl := h1.det hu
  obtain ⟨t', hone, hpost⟩ := split [e] hrest
  exact ⟨t', hone.step_of_single, hpost⟩

/-- The first event of a run. -/
theorem uncons (h : Run step s (e :: es) s') : ∃ t, step e s = some t ∧ Run step t es s' :=
  (show Run step s ([] ++ e :: es) s' from h).enabled (nil s)

/-- What is left of a run behind one of its events. -/
theorem rest {t' : σ} {es1 : List ε} (h : Run step s (es1 ++ e :: es2) s') (h1 : Run step s es1 t)
    (he : step e t = some t') : Run step t' es2 s' := by
  obtain ⟨u, hu, hpost⟩ := h.enabled h1
  obtain rfl := Option.mem_unique he hu
  exact hpost

/-- Each step of a run meets `C`. -/
def Each (step : ε → σ → Option σ) (C : σ → ε → σ → Prop) (s : σ) (es : List ε) : Prop :=
  ∀ es1 e es2 t t', es = es1 ++ e :: es2 → Run step s es1 t → step e t = some t' → C t e t'

theorem each_nil {C : σ → ε → σ → Prop} (s : σ) : Each step C s [] := by
  intro es1 e es2 t t' heq
  simp at heq

theorem each_snoc {C : σ → ε → σ → Prop} {t' : σ} (h : Run step s es t) (he : step e t = some t') :
    Each step C s (es ++ [e]) ↔ Each step C s es ∧ C t e t' := by
  refine ⟨fun hall => ⟨fun es1 e' es2 u u' heq => ?_, hall es e [] t t' rfl h he⟩, ?_⟩
  · exact hall es1 e' (es2 ++ [e]) u u' (by rw [heq]; simp)
  · rintro ⟨hall, hlast⟩ es1 e' es2 u u' heq hu hu'
    rcases List.eq_nil_or_concat es2 with rfl | ⟨es3, e'', rfl⟩
    · obtain ⟨rfl, hone⟩ := List.append_inj' heq rfl
      obtain rfl := List.singleton_inj.1 hone
      obtain rfl := h.det hu
      obtain rfl := Option.mem_unique he hu'
      exact hlast
    · rw [List.concat_eq_append, ← List.cons_append, ← List.append_assoc] at heq
      obtain ⟨rfl, -⟩ := List.append_inj' heq rfl
      exact hall es1 e' es3 u u' rfl hu hu'

/-- **Two conditions on steps that agree as long as one of them was met** are met by each step of
the same runs. -/
theorem each_iff {C D : σ → ε → σ → Prop}
    (hI : ∀ e t t', I t → step e t = some t' → D t e t' → I t')
    (hCD : ∀ e t t', I t → step e t = some t' → (C t e t' ↔ D t e t')) (h : Run step s es s')
    (hs : I s) : Each step C s es ↔ Each step D s es := by
  have hboth : (Each step C s es ↔ Each step D s es) ∧ (Each step D s es → I s') := by
    induction h with
    | nil => exact ⟨⟨fun _ => each_nil s, fun _ => each_nil s⟩, fun _ => hs⟩
    | snoc e h he ih =>
      rw [each_snoc h he, each_snoc h he, ih.1]
      refine ⟨and_congr_right fun hD => hCD e _ _ (ih.2 hD) he, ?_⟩
      rintro ⟨hD, hlast⟩
      exact hI e _ _ (ih.2 hD) he hlast
  exact hboth.1

/-- **What a step preserves exactly where the state before it meets a condition**, a run preserves
exactly if each of its events meets the condition where it happens. -/
theorem iff_forall {Q : σ → Prop} {C : ε → σ → Prop} {s0 : σ}
    (hQ : ∀ es e s s', Run step s0 es s → step e s = some s' → (Q s' ↔ Q s ∧ C e s)) (h0 : Q s0)
    (h : Run step s0 es s) :
    Q s ↔ ∀ es1 e es2 t, es = es1 ++ e :: es2 → Run step s0 es1 t → C e t := by
  have heach : Q s ↔ Each step (fun t e _ => C e t) s0 es := by
    induction h with
    | nil => exact iff_of_true h0 (each_nil _)
    | snoc e h he ih => rw [hQ _ e _ _ h he, ih, each_snoc h he]
  rw [heach]
  refine ⟨fun hall es1 e es2 t heq ht => ?_, fun hall es1 e es2 t _ heq ht _ =>
    hall es1 e es2 t heq ht⟩
  subst heq
  obtain ⟨t', he, -⟩ := h.enabled ht
  exact hall es1 e es2 t t' rfl ht he

/-- A run as a computation. -/
def exec (step : ε → σ → Option σ) : List ε → σ → Option σ
  | [], s => some s
  | e :: es, s => (step e s).bind (exec step es)

theorem of_exec (h : exec step es s = some s') : Run step s es s' := by
  induction es generalizing s with
  | nil =>
    cases h
    exact nil _
  | cons e es ih =>
    obtain ⟨t, ht, hes⟩ := Option.bind_eq_some_iff.1 h
    exact (single ht).append (ih hes)

/-- An evaluated run, and what follows from it. -/
theorem exists_of_exec {P : σ → Prop} (h : exec step es s = some s')
    (hP : Run step s es s' → P s') : ∃ t, Run step s es t ∧ P t :=
  ⟨s', of_exec h, hP (of_exec h)⟩

theorem exec_snoc (es : List ε) (e : ε) (s : σ) :
    exec step (es ++ [e]) s = (exec step es s).bind (step e) := by
  induction es generalizing s with
  | nil => simp [exec]
  | cons e' es ih =>
    rw [List.cons_append, exec, exec, Option.bind_assoc]
    exact congrArg _ (funext ih)

/-- A condition on the steps of a run, as a computation. -/
def check (step : ε → σ → Option σ) (c : σ → ε → Bool) : List ε → σ → Bool
  | [], _ => true
  | e :: es, s => c s e && ((step e s).all (check step c es))

theorem each_of_check {c : σ → ε → Bool} (h : check step c es s = true) :
    Each step (fun t e _ => c t e = true) s es := by
  induction es generalizing s with
  | nil => exact each_nil s
  | cons e es ih =>
    rw [check, Bool.and_eq_true] at h
    rintro es1 e' es2 t t' heq hrun he
    cases es1 with
    | nil =>
      obtain ⟨rfl, rfl⟩ := List.cons.inj heq
      obtain rfl := hrun.det (nil s)
      exact h.1
    | cons e1 es1 =>
      obtain ⟨rfl, rfl⟩ := List.cons.inj heq
      obtain ⟨u, hu, hrest⟩ := (show Run step s ([] ++ e :: es1) t from hrun).enabled (nil s)
      rw [hu, Option.all_some] at h
      exact ih h.2 es1 e' es2 t t' rfl hrest he

end Run

end Hvos
