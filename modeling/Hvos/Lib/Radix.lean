import Mathlib.Tactic.Common

/-!
# Lib/Radix — tables of tables, and what may change in them unnoticed

A radix tree kept in frames: `kid f i` is the frame entry `i` of frame `f` leads to, `leaf f i` what
it holds on the last level.  Nothing says that the frames form a tree.  What is needed of that is a
*labelling*: every table carries a label, and an entry leads to a table with the label its own
table's `Scheme` gives it.  A labelling is checked one entry at a time, and under one

* grafting an empty table onto an absent entry (`find_graft`) changes no lookup at all;
* writing a last-level entry (`find_written`) changes the lookups that end there.
-/

namespace Hvos.Radix

open Function

variable {F I A L : Type*}

/-! ## Lookups -/

/-- The table a path leads to. -/
def descend (kid : F → I → Option F) : List I → F → Option F
  | [], f => some f
  | i :: is, f => (kid f i).bind (descend kid is)

/-- The last-level entry a path leads to. -/
def find (kid : F → I → Option F) (leaf : F → I → Option A) : List I → F → Option A
  | [], _ => none
  | [i], f => leaf f i
  | i :: j :: is, f => (kid f i).bind (find kid leaf (j :: is))

variable {kid kid' : F → I → Option F} {leaf leaf' : F → I → Option A}

theorem descend_append (is js : List I) (f : F) :
    descend kid (is ++ js) f = (descend kid is f).bind (descend kid js) := by
  induction is generalizing f with
  | nil => rfl
  | cons i is ih =>
    simp only [List.cons_append, descend]
    cases kid f i with
    | none => rfl
    | some g => exact ih g

/-- A lookup is a descent and one last entry. -/
theorem find_snoc (is : List I) (i : I) (f : F) :
    find kid leaf (is ++ [i]) f = (descend kid is f).bind fun g => leaf g i := by
  induction is generalizing f with
  | nil => rfl
  | cons j is ih =>
    cases is with
    | nil =>
      simp only [List.cons_append, List.nil_append, find, descend]
      cases kid f j <;> rfl
    | cons k is =>
      simp only [List.cons_append, find, descend]
      cases hk : kid f j with
      | none => rfl
      | some g => exact ih g

/-- A lookup through one more table. -/
theorem find_cons_snoc (k : I) (is : List I) (i : I) (f : F) :
    find kid leaf (k :: (is ++ [i])) f = (kid f k).bind (find kid leaf (is ++ [i])) := by
  cases is <;> rfl

variable {is : List I}

/-- A lookup looks at the tables on its path only. -/
theorem find_congr_of_descend {f : F}
    (h : ∀ js g, js <+: is → js ≠ is → descend kid js f = some g → kid' g = kid g ∧ leaf' g = leaf g) :
    find kid' leaf' is f = find kid leaf is f := by
  induction is generalizing f with
  | nil => rfl
  | cons i is ih =>
    obtain ⟨hkid, hleaf⟩ := h [] f List.nil_prefix (by simp) rfl
    cases is with
    | nil => exact congrFun hleaf i
    | cons j is =>
      simp only [find, hkid]
      cases hx : kid f i with
      | none => rfl
      | some x =>
        refine ih fun js g hjs hne hd => h (i :: js) g ?_ (by simpa using hne) ?_
        · exact List.cons_prefix_cons.2 ⟨rfl, hjs⟩
        · simp [descend, hx, hd]

/-! ## Labels -/

/-- **A labelling scheme**: the label an entry of a table must lead to, if it matters, and how many
levels a table has below it. -/
structure Scheme (L I : Type*) where
  child : L → I → Option L
  level : L → ℕ
  level_child : ∀ {l i l'}, child l i = some l' → level l = level l' + 1

variable {S : Scheme L I} {lab : F → Option L}

/-- The label a path leads to. -/
def Scheme.along (S : Scheme L I) : L → List I → Option L
  | l, [] => some l
  | l, i :: is => (S.child l i).bind fun l' => S.along l' is

variable {l l' l1 lf : L}

theorem Scheme.level_along (h : S.along l is = some l') : S.level l = S.level l' + is.length := by
  induction is generalizing l with
  | nil =>
    cases h
    rfl
  | cons i is ih =>
    obtain ⟨l1, hl1, h⟩ := Option.bind_eq_some_iff.1 h
    have hstep := S.level_child hl1
    have hrest := ih h
    simp only [List.length_cons]
    omega

/-- Every entry leads where its table's label says. -/
def Labelled (S : Scheme L I) (kid : F → I → Option F) (lab : F → Option L) : Prop :=
  ∀ f l i l' g, lab f = some l → S.child l i = some l' → kid f i = some g → lab g = some l'

/-- **A descent follows the labels.** -/
theorem Labelled.descend (h : Labelled S kid lab) {f g : F} (hf : lab f = some l)
    (hl : S.along l is = some l') (hd : descend kid is f = some g) : lab g = some l' := by
  induction is generalizing f l with
  | nil =>
    cases hd
    cases hl
    exact hf
  | cons i is ih =>
    obtain ⟨l1, hl1, hl⟩ := Option.bind_eq_some_iff.1 hl
    obtain ⟨f1, hf1, hd⟩ := Option.bind_eq_some_iff.1 hd
    exact ih (h f l i l1 f1 hf hl1 hf1) hl hd

/-- A labelling looks at labelled tables only, and of those at the ones above the last level. -/
theorem Labelled.congr (h : Labelled S kid lab)
    (heq : ∀ f l, lab f = some l → 0 < S.level l → kid' f = kid f) : Labelled S kid' lab := by
  intro f l i l' g hf hl hg
  have hlevel := S.level_child hl
  rw [heq f l hf (by omega)] at hg
  exact h f l i l' g hf hl hg

/-- So does a lookup that starts in one. -/
theorem Labelled.find_congr (h : Labelled S kid lab)
    (hkid : ∀ f l, lab f = some l → 0 < S.level l → kid' f = kid f)
    (hleaf : ∀ f l, lab f = some l → 0 < S.level l → leaf' f = leaf f) (j : I) {r : F}
    (hr : lab r = some l) (hal : S.along l is = some l1) (hone : 0 < S.level l1) :
    find kid' leaf' (is ++ [j]) r = find kid leaf (is ++ [j]) r := by
  induction is generalizing r l with
  | nil =>
    obtain rfl := Option.some.inj hal
    exact congrFun (hleaf r l hr hone) j
  | cons k is ih =>
    obtain ⟨l2, hl2, hal⟩ := Option.bind_eq_some_iff.1 hal
    have hlevel := S.level_child hl2
    rw [List.cons_append, find_cons_snoc, find_cons_snoc, hkid r l hr (by omega)]
    cases hx : kid r k with
    | none => rfl
    | some x => exact ih (h r l k l2 x hr hl2 hx) hal

/-! ## Grafting an empty table -/

/-- `kid'` and `leaf'` arise from `kid` and `leaf` by hanging the empty table `g` on the absent
entry `i` of `f`. -/
structure Grafted (kid kid' : F → I → Option F) (leaf leaf' : F → I → Option A) (f : F) (i : I)
    (g : F) : Prop where
  absent : kid f i = none
  here : kid' f i = some g
  kid_empty : ∀ j, kid' g j = none
  leaf_empty : ∀ j, leaf' g j = none
  kid_other : ∀ h j, h ≠ g → ¬(h = f ∧ j = i) → kid' h j = kid h j
  leaf_other : ∀ h j, h ≠ g → ¬(h = f ∧ j = i) → leaf' h j = leaf h j

variable {f g : F} {i : I}

/-- The new table gets the label its place asks for. -/
theorem Labelled.graft [DecidableEq F] (h : Labelled S kid lab)
    (hg : Grafted kid kid' leaf leaf' f i g) (hfresh : lab g = none) (hf : lab f = some l)
    (hl : S.child l i = some l') : Labelled S kid' (update lab g (some l')) := by
  intro h1 l1 j l2 x hlab hchild hkid
  rcases eq_or_ne h1 g with rfl | hne
  · rw [hg.kid_empty] at hkid
    cases hkid
  · rw [update_of_ne hne] at hlab
    by_cases hhere : h1 = f ∧ j = i
    · obtain ⟨rfl, rfl⟩ := hhere
      obtain rfl := Option.mem_unique hf hlab
      obtain rfl := Option.mem_unique hl hchild
      obtain rfl := Option.mem_unique hg.here hkid
      rw [update_self]
    · rw [hg.kid_other h1 j hne hhere] at hkid
      have hx := h h1 l1 j l2 x hlab hchild hkid
      have hxg : x ≠ g := by
        rintro rfl
        rw [hfresh] at hx
        cases hx
      rw [update_of_ne hxg]
      exact hx

/-- **A graft changes no lookup.** -/
theorem find_graft (h : Labelled S kid lab) (hg : Grafted kid kid' leaf leaf' f i g)
    (hfresh : lab g = none) (hf : lab f = some lf) (hlevel : 2 ≤ S.level lf) (j : I) {r : F}
    (hr : lab r = some l) (hal : S.along l is = some l1) (hone : S.level l1 = 1) :
    find kid' leaf' (is ++ [j]) r = find kid leaf (is ++ [j]) r := by
  induction is generalizing r l with
  | nil =>
    -- On the last level, so `r` is neither the new table nor the one that was written.
    cases hal
    refine hg.leaf_other r j ?_ fun hhere => ?_
    · rintro rfl
      rw [hfresh] at hr
      cases hr
    · obtain rfl := Option.some.inj (hf.symm.trans (hhere.1 ▸ hr))
      omega
  | cons k is ih =>
    obtain ⟨l2, hl2, hal⟩ := Option.bind_eq_some_iff.1 hal
    have hrg : r ≠ g := by
      rintro rfl
      rw [hfresh] at hr
      cases hr
    rw [List.cons_append, find_cons_snoc, find_cons_snoc]
    by_cases hhere : r = f ∧ k = i
    · obtain ⟨rfl, rfl⟩ := hhere
      rw [hg.absent, hg.here]
      cases is with
      | nil => exact hg.leaf_empty j
      | cons m is =>
        simp only [List.cons_append, find_cons_snoc, Option.bind_some, hg.kid_empty]
        rfl
    · rw [hg.kid_other r k hrg hhere]
      cases hx : kid r k with
      | none => rfl
      | some x => exact ih (h r l k l2 x hr hl2 hx) hal

/-! ## Writing a last-level entry -/

/-- `kid'` and `leaf'` differ from `kid` and `leaf` at entry `i` of `f` only. -/
structure Written (kid kid' : F → I → Option F) (leaf leaf' : F → I → Option A) (f : F) (i : I) :
    Prop where
  kid_other : ∀ h j, ¬(h = f ∧ j = i) → kid' h j = kid h j
  leaf_other : ∀ h j, ¬(h = f ∧ j = i) → leaf' h j = leaf h j

/-- Descents through higher levels do not see it. -/
theorem descend_written (h : Labelled S kid lab) (hw : Written kid kid' leaf leaf' f i)
    (hf : lab f = some lf) {r : F} (hr : lab r = some l) (hal : S.along l is = some l1)
    (hlevel : S.level lf ≤ S.level l1) : descend kid' is r = descend kid is r := by
  induction is generalizing r l with
  | nil => rfl
  | cons k is ih =>
    have hlen := Scheme.level_along hal
    obtain ⟨l2, hl2, hal⟩ := Option.bind_eq_some_iff.1 hal
    have hne : ¬(r = f ∧ k = i) := by
      rintro ⟨rfl, -⟩
      obtain rfl := Option.mem_unique hf hr
      simp only [List.length_cons] at hlen
      omega
    simp only [descend, hw.kid_other r k hne]
    cases hx : kid r k with
    | none => rfl
    | some x => exact ih (h r l k l2 x hr hl2 hx) hal

/-- **A last-level write changes the lookups that end there**, and no other. -/
theorem find_written (h : Labelled S kid lab) (hw : Written kid kid' leaf leaf' f i)
    (hf : lab f = some lf) (hlf : S.level lf = 1) (j : I) {r : F} (hr : lab r = some l)
    (hal : S.along l is = some l1) (hone : S.level l1 = 1)
    (hne : ¬(descend kid is r = some f ∧ j = i)) :
    find kid' leaf' (is ++ [j]) r = find kid leaf (is ++ [j]) r := by
  rw [find_snoc, find_snoc, descend_written h hw hf hr hal (by omega)]
  cases hd : descend kid is r with
  | none => rfl
  | some x =>
    refine hw.leaf_other x j fun hhere => hne ⟨?_, hhere.2⟩
    rw [hd, hhere.1]

/-- A labelling survives a last-level write if the written entry leads where the label says. -/
theorem Labelled.written (h : Labelled S kid lab) (hw : Written kid kid' leaf leaf' f i)
    (hnew : ∀ l l' g, lab f = some l → S.child l i = some l' → kid' f i = some g →
      lab g = some l') : Labelled S kid' lab := by
  intro h1 l1 j l2 x hlab hchild hkid
  by_cases hhere : h1 = f ∧ j = i
  · obtain ⟨rfl, rfl⟩ := hhere
    exact hnew l1 l2 x hlab hchild hkid
  · rw [hw.kid_other h1 j hhere] at hkid
    exact h h1 l1 j l2 x hlab hchild hkid

end Hvos.Radix
