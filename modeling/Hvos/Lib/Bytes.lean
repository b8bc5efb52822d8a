import Mathlib.Algebra.Group.Nat.Defs
import Mathlib.Tactic.Common

/-!
# Lib/Bytes — little-endian words in a byte memory

`load` and `store` of `n`-byte words at any address, and the two facts every field access needs: a
store is read back at its own address, and not seen by a load that does not overlap it.
-/

namespace Hvos.Bytes

open Function

variable (m : ℕ → UInt8)

/-- The little-endian word of `n` bytes at `a`. -/
def load (a : ℕ) : ℕ → ℕ
  | 0 => 0
  | n + 1 => (m a).toNat + 256 * load (a + 1) n

/-- Store the low `n` bytes of `v` at `a`. -/
def store (a n v : ℕ) : ℕ → UInt8 := fun x =>
  if a ≤ x ∧ x < a + n then UInt8.ofNat (v / 256 ^ (x - a)) else m x

variable {m} {m' : ℕ → UInt8} {a b n k v : ℕ}

theorem load_lt : load m a n < 256 ^ n := by
  induction n generalizing a with
  | zero => simp [load]
  | succ n ih =>
    have hb : (m a).toNat < 256 := (m a).toNat_lt
    have hrest : load m (a + 1) n < 256 ^ n := ih
    rw [load, Nat.pow_succ]
    omega

theorem load_congr (h : ∀ x, a ≤ x → x < a + n → m' x = m x) : load m' a n = load m a n := by
  induction n generalizing a with
  | zero => rfl
  | succ n ih =>
    have hrest : load m' (a + 1) n = load m (a + 1) n :=
      ih fun x hx hlt => h x (by omega) (by omega)
    rw [load, load, hrest, h a (Nat.le_refl a) (by omega)]

theorem store_zero : store m a 0 v = m := by
  funext x
  rw [store, if_neg (by omega)]

/-- A store, its low byte first. -/
theorem store_succ : store m a (n + 1) v =
    store (update m a (UInt8.ofNat v)) (a + 1) n (v / 256) := by
  funext x
  unfold store
  rcases Nat.lt_trichotomy x a with hlt | rfl | hlt
  · rw [if_neg (by omega), if_neg (by omega), update_of_ne (by omega)]
  · rw [if_pos (by omega), if_neg (by omega), update_self, Nat.sub_self, Nat.pow_zero,
      Nat.div_one]
  · by_cases hx : x < a + (n + 1)
    · rw [if_pos (by omega), if_pos (by omega), Nat.div_div_eq_div_mul, ← Nat.pow_succ',
        show x - a = (x - (a + 1)).succ by omega]
    · rw [if_neg (by omega), if_neg (by omega), update_of_ne (by omega)]

/-- A store does not change what it does not overlap. -/
theorem load_store_of_disjoint (h : a + n ≤ b ∨ b + k ≤ a) :
    load (store m a n v) b k = load m b k := by
  refine load_congr fun x hx hlt => ?_
  rw [store, if_neg (by omega)]

/-- The part of a stored word from byte `k` on. -/
theorem load_store_part {j : ℕ} (h : k + j = n) :
    load (store m a n v) (a + k) j = v / 256 ^ k % 256 ^ j := by
  induction j generalizing k with
  | zero => simp [load, Nat.mod_one]
  | succ j ih =>
    have hbyte : store m a n v (a + k) = UInt8.ofNat (v / 256 ^ k) := by
      rw [store, if_pos (by omega), Nat.add_sub_cancel_left]
    have hrest : load (store m a n v) (a + k + 1) j = v / 256 ^ (k + 1) % 256 ^ j :=
      ih (k := k + 1) (by omega)
    rw [load, hbyte, hrest, UInt8.toNat_ofNat', Nat.pow_succ 256 j, Nat.mul_comm (256 ^ j),
      Nat.mod_mul, Nat.pow_succ 256 k, ← Nat.div_div_eq_div_mul]

/-- **A stored word is read back.** -/
theorem load_store_self (hv : v < 256 ^ n) : load (store m a n v) a n = v := by
  have h := load_store_part (m := m) (a := a) (v := v) (Nat.zero_add n)
  rwa [Nat.add_zero, Nat.pow_zero, Nat.div_one, Nat.mod_eq_of_lt hv] at h

end Hvos.Bytes
