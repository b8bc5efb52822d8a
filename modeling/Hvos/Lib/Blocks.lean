import Mathlib.Data.List.Nodup

/-!
# Lib/Blocks — blocks with headers, and lists threaded through them

The two structures of a first-fit allocator, over any header size and any `size` and `next` fields.

* `Tiles` — blocks that follow one another without gap from `a` to `lim`.
* `Linked` — a list threaded through `next`, ended by the null pointer.

Each has the edits an allocator makes (cut a block in two, add one at the end; unlink, push), stated
for a field function that agrees with the edited one where the structure looks.
-/

namespace Hvos.Blocks

/-! ## Tilings -/

section Tiles

variable {hdr : ℕ} {size size' : ℕ → ℕ} {a lim mid b c : ℕ} {bs cs : List ℕ}

/-- The blocks `bs` tile `[a, lim)`: each has a header of `hdr` bytes and `size b` bytes after
it. -/
def Tiles (hdr : ℕ) (size : ℕ → ℕ) : ℕ → ℕ → List ℕ → Prop
  | a, lim, [] => a = lim
  | a, lim, b :: bs => b = a ∧ Tiles hdr size (a + hdr + size a) lim bs

theorem Tiles.congr (h : Tiles hdr size a lim bs) (heq : ∀ b ∈ bs, size' b = size b) :
    Tiles hdr size' a lim bs := by
  induction bs generalizing a with
  | nil => exact h
  | cons b bs ih =>
    obtain ⟨rfl, h⟩ := h
    refine ⟨rfl, ?_⟩
    rw [heq b List.mem_cons_self]
    exact ih h fun c hc => heq c (List.mem_cons_of_mem _ hc)

theorem tiles_append :
    Tiles hdr size a lim (bs ++ cs) ↔ ∃ mid, Tiles hdr size a mid bs ∧ Tiles hdr size mid lim cs := by
  induction bs generalizing a with
  | nil => simp [Tiles]
  | cons b bs ih =>
    simp only [List.cons_append, Tiles, ih]
    constructor
    · rintro ⟨rfl, mid, hb, hc⟩
      exact ⟨mid, ⟨rfl, hb⟩, hc⟩
    · rintro ⟨mid, ⟨rfl, hb⟩, hc⟩
      exact ⟨rfl, mid, hb, hc⟩

theorem Tiles.le (h : Tiles hdr size a lim bs) : a + hdr * bs.length ≤ lim := by
  induction bs generalizing a with
  | nil => exact Nat.le_of_eq h
  | cons b bs ih =>
    have hle := ih h.2
    rw [List.length_cons, Nat.mul_succ]
    omega

/-- A block lies within the bounds. -/
theorem Tiles.bounds (h : Tiles hdr size a lim bs) (hb : b ∈ bs) :
    a ≤ b ∧ b + hdr + size b ≤ lim := by
  obtain ⟨xs, ys, rfl⟩ := List.append_of_mem hb
  obtain ⟨mid, hx, rfl, hy⟩ := tiles_append.1 h
  have hle := hx.le
  have hle' := hy.le
  constructor
  · omega
  · omega

/-- Two blocks do not overlap. -/
theorem Tiles.apart (h : Tiles hdr size a lim bs) (hb : b ∈ bs) (hc : c ∈ bs) :
    c = b ∨ b + hdr + size b ≤ c ∨ c + hdr + size c ≤ b := by
  obtain ⟨xs, ys, rfl⟩ := List.append_of_mem hb
  obtain ⟨mid, hx, rfl, hy⟩ := tiles_append.1 h
  rcases List.mem_append.1 hc with hc | hc
  · exact .inr (.inr (hx.bounds hc).2)
  · rcases List.mem_cons.1 hc with rfl | hc
    · exact .inl rfl
    · exact .inr (.inl (hy.bounds hc).1)

/-- **A tiling is read off the sizes.** -/
theorem Tiles.unique (hpos : 0 < hdr) (hb : Tiles hdr size a lim bs) (hc : Tiles hdr size a lim cs) :
    bs = cs := by
  induction bs generalizing a cs with
  | nil =>
    cases cs with
    | nil => rfl
    | cons c cs =>
      obtain rfl := hb
      have hle := hc.2.le
      omega
  | cons b bs ih =>
    cases cs with
    | nil =>
      obtain rfl := hc
      have hle := hb.2.le
      omega
    | cons c cs =>
      obtain ⟨rfl, hb⟩ := hb
      obtain ⟨rfl, hc⟩ := hc
      rw [ih hb hc]

theorem mem_cut : c ∈ bs ++ b :: mid :: cs ↔ c ∈ bs ++ b :: cs ∨ c = mid := by
  simp only [List.mem_append, List.mem_cons]
  tauto

/-- **Cut** block `b` after `k` bytes. -/
theorem Tiles.cut (hpos : 0 < hdr) (h : Tiles hdr size a lim (bs ++ b :: cs)) {k : ℕ}
    (hk : k + hdr ≤ size b) (hold : ∀ c ∈ bs ++ cs, c ≠ b → size' c = size c) (hb : size' b = k)
    (hnew : size' (b + hdr + k) = size b - k - hdr) :
    Tiles hdr size' a lim (bs ++ b :: (b + hdr + k) :: cs) := by
  obtain ⟨mid, hx, rfl, hy⟩ := tiles_append.1 h
  refine tiles_append.2 ⟨b, hx.congr fun c hc => ?_, rfl, ?_, ?_⟩
  · have hle := (hx.bounds hc).2
    exact hold c (List.mem_append_left _ hc) (by omega)
  · rw [hb]
  · rw [hb, hnew]
    have hend : b + hdr + k + hdr + (size b - k - hdr) = b + hdr + size b := by omega
    rw [hend]
    refine hy.congr fun c hc => ?_
    have hle := (hy.bounds hc).1
    exact hold c (List.mem_append_right _ hc) (by omega)

/-- **Add** a block at the end. -/
theorem Tiles.extend (h : Tiles hdr size a mid bs) (hold : ∀ c ∈ bs, size' c = size c)
    (hnew : mid + hdr + size' mid = lim) : Tiles hdr size' a lim (bs ++ [mid]) :=
  tiles_append.2 ⟨mid, h.congr hold, rfl, hnew⟩

end Tiles

/-! ## Threaded lists -/

section Linked

variable {next next' : ℕ → ℕ} {p x y : ℕ} {xs ys : List ℕ}

/-- From the pointer `p` the nodes `xs` follow one another, up to the null pointer. -/
def Linked (next : ℕ → ℕ) : ℕ → List ℕ → Prop
  | p, [] => p = 0
  | p, x :: xs => p = x ∧ x ≠ 0 ∧ Linked next (next x) xs

theorem Linked.congr (h : Linked next p xs) (heq : ∀ x ∈ xs, next' x = next x) :
    Linked next' p xs := by
  induction xs generalizing p with
  | nil => exact h
  | cons x xs ih =>
    obtain ⟨rfl, hne, h⟩ := h
    refine ⟨rfl, hne, ?_⟩
    rw [heq p List.mem_cons_self]
    exact ih h fun c hc => heq c (List.mem_cons_of_mem _ hc)

/-- **A list is read off its links.** -/
theorem Linked.unique (hx : Linked next p xs) (hy : Linked next p ys) : xs = ys := by
  induction xs generalizing p ys with
  | nil =>
    obtain rfl : p = 0 := hx
    cases ys with
    | nil => rfl
    | cons y ys => exact absurd hy.1.symm hy.2.1
  | cons x xs ih =>
    obtain ⟨rfl, hne, hx⟩ := hx
    cases ys with
    | nil => exact absurd hy hne
    | cons y ys =>
      obtain ⟨rfl, -, hy⟩ := hy
      rw [ih hx hy]

/-- **Push** a node. -/
theorem Linked.push (h : Linked next p xs) (hx : x ≠ 0) (hold : ∀ y ∈ xs, next' y = next y)
    (hnew : next' x = p) : Linked next' x (x :: xs) :=
  ⟨rfl, hx, hnew ▸ h.congr hold⟩

/-- **Unlink** the node after `x`. -/
theorem Linked.unlink (h : Linked next p (xs ++ x :: y :: ys))
    (hold : ∀ z ∈ xs ++ ys, next' z = next z) (hnew : next' x = next y) :
    Linked next' p (xs ++ x :: ys) := by
  induction xs generalizing p with
  | nil =>
    obtain ⟨rfl, hne, rfl, -, h⟩ := h
    refine ⟨rfl, hne, ?_⟩
    rw [hnew]
    exact h.congr fun z hz => hold z hz
  | cons z xs ih =>
    obtain ⟨rfl, hne, h⟩ := h
    refine ⟨rfl, hne, ?_⟩
    rw [hold p List.mem_cons_self]
    exact ih h fun w hw => hold w (List.mem_cons_of_mem _ hw)

/-- The list from one of its nodes on. -/
theorem Linked.drop (h : Linked next p (xs ++ x :: ys)) : Linked next x (x :: ys) := by
  induction xs generalizing p with
  | nil =>
    obtain ⟨rfl, h⟩ := h
    exact ⟨rfl, h⟩
  | cons z xs ih => exact ih h.2.2

/-- **Insert** a node after `x`. -/
theorem Linked.insert (h : Linked next p (xs ++ x :: ys)) (hold : ∀ z ∈ xs ++ ys, next' z = next z)
    (hx : next' x = y) (hy : next' y = next x) (hne : y ≠ 0) :
    Linked next' p (xs ++ x :: y :: ys) := by
  induction xs generalizing p with
  | nil =>
    obtain ⟨rfl, hp, h⟩ := h
    exact ⟨rfl, hp, hx, hne, hy ▸ h.congr fun z hz => hold z hz⟩
  | cons z xs ih =>
    obtain ⟨rfl, hp, h⟩ := h
    refine ⟨rfl, hp, ?_⟩
    rw [hold p List.mem_cons_self]
    exact ih h fun w hw => hold w (List.mem_cons_of_mem _ hw)

/-- The first node that fits, with its predecessor: `some none` at the end of the list, `none` when
`fuel` nodes have been passed. -/
def firstFit (next : ℕ → ℕ) (fits : ℕ → Bool) : ℕ → ℕ → ℕ → Option (Option (ℕ × ℕ))
  | 0, _, _ => none
  | fuel + 1, prev, p =>
    if p = 0 then some none
    else if fits p then some (some (prev, p))
    else firstFit next fits fuel p (next p)

/-- **What the search finds**: nothing, the head of the list, or a node after its predecessor. -/
theorem firstFit_spec (fits : ℕ → Bool) (prev : ℕ) {fuel : ℕ} (h : Linked next p xs)
    (hfuel : xs.length < fuel) : firstFit next fits fuel prev p = some none ∨
      ∃ y x, firstFit next fits fuel prev p = some (some (y, x)) ∧ fits x = true ∧
        ((∃ zs, xs = x :: zs ∧ y = prev) ∨ ∃ ys zs, xs = ys ++ y :: x :: zs) := by
  induction xs generalizing fuel prev p with
  | nil =>
    obtain ⟨fuel, rfl⟩ : ∃ k, fuel = k + 1 := ⟨fuel - 1, by omega⟩
    exact .inl (if_pos h)
  | cons x xs ih =>
    obtain ⟨rfl, hne, h⟩ := h
    simp only [List.length_cons] at hfuel
    obtain ⟨fuel, rfl⟩ : ∃ k, fuel = k + 1 := ⟨fuel - 1, by omega⟩
    rw [firstFit, if_neg hne]
    cases hfit : fits p with
    | true => exact .inr ⟨prev, p, rfl, hfit, .inl ⟨xs, rfl, rfl⟩⟩
    | false =>
      have hlt : xs.length < fuel := by omega
      rw [if_neg Bool.false_ne_true]
      rcases ih p h hlt with hend | ⟨y, x, hfound, hx, hpos⟩
      · exact .inl hend
      · refine .inr ⟨y, x, hfound, hx, .inr ?_⟩
        rcases hpos with ⟨zs, rfl, rfl⟩ | ⟨ys, zs, rfl⟩
        · exact ⟨[], zs, rfl⟩
        · exact ⟨p :: ys, zs, rfl⟩

end Linked

end Hvos.Blocks
