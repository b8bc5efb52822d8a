import Mathlib.Data.List.MinMax

/-!
# Lib/Least — the running minimum over the elements of a list that qualify

A loop that keeps the first element it sees of the least value, and passes those that do not
qualify, ends with `List.argmin` of the others (`foldl_pick`): nothing if there are none, and
otherwise an element that is less than all before it and at most all behind it (`FirstLeast`).
-/

namespace Hvos.Least

variable {α γ β : Type*} [LinearOrder β] {p : α → Prop} {f : α → β} {l : List α} {m a : α}

/-- **`m` is the first element of least value** among those of `l` that satisfy `p`. -/
structure FirstLeast (p : α → Prop) (f : α → β) (l : List α) (m : α) : Prop where
  holds : p m
  split : ∃ as bs, l = as ++ m :: bs ∧ (∀ a ∈ as, p a → f m < f a) ∧ ∀ b ∈ bs, p b → f m ≤ f b

namespace FirstLeast

theorem mem (h : FirstLeast p f l m) : m ∈ l := by
  obtain ⟨as, bs, rfl, -⟩ := h.split
  simp

/-- An element in front that does not qualify, or is greater. -/
theorem cons (h : FirstLeast p f l m) (ha : p a → f m < f a) : FirstLeast p f (a :: l) m := by
  obtain ⟨as, bs, rfl, hbefore, hbehind⟩ := h.split
  refine ⟨h.holds, a :: as, bs, rfl, fun x hx hpx => ?_, hbehind⟩
  rcases List.mem_cons.1 hx with rfl | hx
  · exact ha hpx
  · exact hbefore x hx hpx

/-- Everything that qualifies is greater, or the same and not before. -/
theorem lt_or_idxOf_le [DecidableEq α] (h : FirstLeast p f l m) (ha : a ∈ l) (hp : p a) :
    f m < f a ∨ f m = f a ∧ l.idxOf m ≤ l.idxOf a := by
  obtain ⟨as, bs, rfl, hbefore, hbehind⟩ := h.split
  by_cases hmem : a ∈ as
  · exact .inl (hbefore a hmem hp)
  · have hle : f m ≤ f a := by
      rcases List.mem_cons.1 ((List.mem_append.1 ha).resolve_left hmem) with rfl | ha
      · exact le_rfl
      · exact hbehind a ha hp
    have hm : m ∉ as := fun hm => lt_irrefl _ (hbefore m hm h.holds)
    refine hle.lt_or_eq.imp_right fun heq => ⟨heq, ?_⟩
    rw [List.idxOf_append_of_notMem hm, List.idxOf_append_of_notMem hmem, List.idxOf_cons_self]
    omega

end FirstLeast

/-! ## The loop -/

section Loop

variable [DecidablePred p]

/-- One round of the loop. -/
def pick (p : α → Prop) [DecidablePred p] (f : α → β) (best : Option α) (a : α) : Option α :=
  if p a then
    match best with
    | none => some a
    | some b => if f a < f b then some a else some b
  else best

/-- **The loop computes the minimum** of the elements that qualify. -/
theorem foldl_pick (p : α → Prop) [DecidablePred p] (f : α → β) (l : List α) :
    l.foldl (pick p f) none = (l.filter p).argmin f := by
  rw [List.argmin, List.foldl_filter]
  congr 1
  funext best a
  unfold pick List.argAux
  by_cases hp : p a
  · cases best with
    | none => simp [hp]
    | some b => simp [hp]
  · simp [hp]

/-- **The minimum is the first of its value.** -/
theorem firstLeast_of_argmin (h : (l.filter p).argmin f = some m) : FirstLeast p f l m := by
  induction l generalizing m with
  | nil => simp at h
  | cons a l ih =>
    by_cases hp : p a
    · rw [List.filter_cons_of_pos (by simpa using hp), List.argmin_cons] at h
      cases hrest : (l.filter p).argmin f with
      | none =>
        rw [hrest] at h
        cases h
        rw [List.argmin_eq_none, List.filter_eq_nil_iff] at hrest
        exact ⟨hp, [], l, rfl, by simp, fun b hb hpb => absurd hpb (by simpa using hrest b hb)⟩
      | some c =>
        simp only [hrest] at h
        split_ifs at h with hlt
        · cases h
          exact (ih hrest).cons fun _ => hlt
        · cases h
          refine ⟨hp, [], l, rfl, by simp, fun b hb hpb => (not_lt.1 hlt).trans ?_⟩
          exact List.le_of_mem_argmin (List.mem_filter.2 ⟨hb, by simpa using hpb⟩) hrest
    · rw [List.filter_cons_of_neg (by simpa using hp)] at h
      exact (ih h).cons fun hpa => absurd hpa hp

theorem firstLeast_of_foldl (h : l.foldl (pick p f) none = some m) : FirstLeast p f l m :=
  firstLeast_of_argmin ((foldl_pick p f l).symm.trans h)

/-- The loop ends with nothing exactly if nothing qualifies. -/
theorem foldl_pick_eq_none : l.foldl (pick p f) none = none ↔ ∀ a ∈ l, ¬p a := by
  rw [foldl_pick, List.argmin_eq_none, List.filter_eq_nil_iff]
  simp

theorem mem_of_pick {best : Option α} {b : α} (h : b ∈ pick p f best a) : b = a ∨ b ∈ best := by
  unfold pick at h
  split_ifs at h with hp
  · cases best with
    | none => exact .inl (Option.some.inj h).symm
    | some c =>
      simp only at h
      split_ifs at h with hlt
      · exact .inl (Option.some.inj h).symm
      · exact .inr h
  · exact .inr h

/-- **Two loops side by side**: over elements and over what stands for them. -/
theorem foldl_pick_map {q : γ → Prop} [DecidablePred q] {v : γ → β} {g : α → γ}
    (hp : ∀ a ∈ l, q (g a) ↔ p a) (hf : ∀ a ∈ l, v (g a) = f a) {best : Option α}
    (hbest : ∀ b ∈ best, v (g b) = f b) :
    (l.map g).foldl (pick q v) (best.map g) = (l.foldl (pick p f) best).map g := by
  induction l generalizing best with
  | nil => rfl
  | cons a l ih =>
    have ha := hf a List.mem_cons_self
    have hround : pick q v (best.map g) (g a) = (pick p f best a).map g := by
      by_cases hpa : p a
      · cases best with
        | none => simp [pick, hp, hpa]
        | some b =>
          have hb : v (g b) = f b := hbest b rfl
          by_cases hlt : f a < f b
          · simp [pick, hp, hpa, ha, hb, hlt]
          · simp [pick, hp, hpa, ha, hb, hlt]
      · simp [pick, hp, hpa]
    rw [List.map_cons, List.foldl_cons, List.foldl_cons, hround]
    refine ih (fun x hx => hp x (List.mem_cons_of_mem a hx))
      (fun x hx => hf x (List.mem_cons_of_mem a hx)) fun b hb => ?_
    rcases mem_of_pick hb with rfl | hb
    · exact ha
    · exact hbest b hb

end Loop

end Hvos.Least
