import Mathlib.Algebra.Order.Group.Nat
import Mathlib.Data.Nat.Find
import Mathlib.Tactic.Common

/-!
# Lib/Rotation — choosing by turns

Of `n` places in a circle, a chooser takes the first suitable one from its cursor on and leaves the
cursor behind it.  What is suitable may change from turn to turn.  A place that stays suitable is
taken before any place is taken twice (`Turns.fair`): until then the cursor never passes it.
-/

namespace Hvos.Rotation

/-- The place a cursor stands for: past the end it is the first. -/
def place (n c : ℕ) : ℕ := if c < n then c else 0

/-- How far a place is ahead of the cursor, around the circle. -/
def ahead (n c i : ℕ) : ℕ := if place n c ≤ i then i - place n c else n + i - place n c

/-- **`i` is the first suitable place from the cursor on.** -/
structure First (n : ℕ) (p : ℕ → Prop) (c i : ℕ) : Prop where
  lt : i < n
  suitable : p i
  least : ∀ j < n, p j → ahead n c i ≤ ahead n c j

variable {n c i j m : ℕ}

theorem place_lt (hn : 0 < n) : place n c < n := by
  unfold place
  split_ifs <;> omega

theorem ahead_lt (hi : i < n) : ahead n c i < n := by
  have hplace := place_lt (n := n) (c := c) (by omega)
  unfold ahead
  split_ifs <;> omega

theorem ahead_inj (hi : i < n) (hj : j < n) (h : ahead n c i = ahead n c j) : i = j := by
  have hplace := place_lt (n := n) (c := c) (by omega)
  unfold ahead at h
  split_ifs at h <;> omega

/-- The place at the cursor. -/
theorem ahead_place : ahead n c (place n c) = 0 := by
  simp [ahead]

/-- **The cursor behind `m`** has come so much nearer to every place further ahead. -/
theorem ahead_succ (hm : m < n) (hj : j < n) (h : ahead n c m < ahead n c j) :
    ahead n (m + 1) j + ahead n c m + 1 = ahead n c j := by
  have hplace := place_lt (n := n) (c := c) (by omega)
  simp only [ahead] at *
  generalize place n c = a at *
  unfold place
  split_ifs at * <;> omega

/-- Nothing is further ahead than the place just passed. -/
theorem ahead_passed (hi : i < n) (hj : j < n) (hne : j ≠ i) :
    ahead n (i + 1) j < ahead n (i + 1) i := by
  unfold ahead place
  split_ifs <;> omega

/-! ## Walking around the circle -/

/-- The cursor after so many places that were passed. -/
def walk (n c : ℕ) : ℕ → ℕ
  | 0 => c
  | k + 1 => place n (walk n c k) + 1

/-- **After `k` places the cursor is at the one `k` ahead.** -/
theorem ahead_walk {k : ℕ} (hk : k < n) : ahead n c (place n (walk n c k)) = k := by
  induction k with
  | zero => exact ahead_place
  | succ k ih =>
    have hbefore := ih (by omega)
    have hplace := place_lt (n := n) (c := walk n c k) (by omega)
    have hcursor := place_lt (n := n) (c := c) (by omega)
    rw [walk]
    generalize place n (walk n c k) = a at *
    unfold ahead at *
    generalize place n c = b at *
    unfold place
    split_ifs at * <;> omega

theorem exists_first {p : ℕ → Prop} (h : ∃ i < n, p i) : ∃ i, First n p c i := by
  classical
  have hsome : ∃ d, ∃ i < n, p i ∧ ahead n c i = d := by
    obtain ⟨i, hi, hp⟩ := h
    exact ⟨_, i, hi, hp, rfl⟩
  obtain ⟨i, hi, hp, hd⟩ := Nat.find_spec hsome
  refine ⟨i, hi, hp, fun j hj hpj => ?_⟩
  rw [hd]
  exact Nat.find_min' hsome ⟨j, hj, hpj, rfl⟩

/-! ## Turn after turn -/

/-- **Turns**: at turn `k` the cursor is `cursor k`, `p k` is what is suitable, and `taken k` is
what the chooser takes, if anything. -/
structure Turns (n : ℕ) (p : ℕ → ℕ → Prop) (cursor : ℕ → ℕ) (taken : ℕ → Option ℕ) (len : ℕ) :
    Prop where
  first : ∀ k < len, ∀ i, taken k = some i → First n (p k) (cursor k) i ∧ cursor (k + 1) = i + 1
  none : ∀ k < len, taken k = none → ∀ i < n, ¬p k i

variable {p : ℕ → ℕ → Prop} {cursor : ℕ → ℕ} {taken : ℕ → Option ℕ} {len : ℕ}

/-- Until `j` is taken, it is nearer to the cursor than the place taken first. -/
theorem Turns.nearer (h : Turns n p cursor taken len) {a : ℕ} (ha : taken a = some i) (hj : j < n)
    (hne : j ≠ i) : ∀ k, a < k → k ≤ len → (∀ l, a < l → l < k → p l j ∧ taken l ≠ some j) →
      ahead n (cursor k) j < ahead n (cursor k) i := by
  intro k hak
  induction k, hak using Nat.le_induction with
  | base =>
    intro hlen _
    obtain ⟨hfirst, hcursor⟩ := h.first a hlen i ha
    rw [hcursor]
    exact ahead_passed hfirst.lt hj hne
  | succ k hak ih =>
    intro hlen hwaits
    obtain ⟨hsuitable, hnot⟩ := hwaits k hak (Nat.lt_succ_self k)
    have hbefore := ih (by omega) fun l hal hlk => hwaits l hal (by omega)
    have hi : i < n := (h.first a (by omega) i ha).1.lt
    cases htaken : taken k with
    | none => exact absurd hsuitable (h.none k hlen htaken j hj)
    | some m =>
      obtain ⟨hfirst, hcursor⟩ := h.first k hlen m htaken
      have hle := hfirst.least j hj hsuitable
      have hmj : ahead n (cursor k) m < ahead n (cursor k) j := by
        refine lt_of_le_of_ne hle fun heq => hnot ?_
        rw [htaken, ahead_inj hfirst.lt hj heq]
      have hstepj := ahead_succ hfirst.lt hj hmj
      have hstepi := ahead_succ hfirst.lt hi (hmj.trans hbefore)
      rw [hcursor]
      omega

/-- **Choosing by turns is fair**: between two turns that take the same place, every other place
that was suitable at all turns since is taken. -/
theorem Turns.fair (h : Turns n p cursor taken len) {a b : ℕ} (hab : a < b) (hb : b < len)
    (ha : taken a = some i) (hb' : taken b = some i) (hj : j < n) (hne : j ≠ i)
    (hsuitable : ∀ k, a < k → k ≤ b → p k j) : ∃ k, a < k ∧ k < b ∧ taken k = some j := by
  by_contra hnever
  push Not at hnever
  have hnearer := h.nearer ha hj hne b hab hb.le fun l hal hlb =>
    ⟨hsuitable l hal hlb.le, hnever l hal hlb⟩
  have hleast := (h.first b hb i hb').1.least j hj (hsuitable b hab le_rfl)
  exact absurd hnearer (not_lt.2 hleast)

end Hvos.Rotation
