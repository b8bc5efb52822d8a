import Hvos.Fs.Vfs
import Mathlib.Data.List.TakeWhile

/-!
# Fs/Paths — how the path functions read a path

`next_path_token` reads off the non-empty components of a path, each cut to 31 characters, and
`vfs_split_path` takes the last one away.  `joinPath` writes components down again.
-/

namespace Hvos.Fs

/-! ## Components -/

/-- The non-empty parts between slashes. -/
def components (path : CString) : List CString := (path.splitOnP (· = slash)).filter (· ≠ [])

/-- **A path falls apart at a slash.** -/
theorem components_append_slash (x y : CString) :
    components (x ++ slash :: y) = components x ++ components y := by
  unfold components
  rw [List.splitOnP_append_cons x y (by simp), List.filter_append]

@[simp] theorem components_nil : components [] = [] := by
  simp [components, List.splitOnP_nil]

@[simp] theorem components_slash_cons (y : CString) : components (slash :: y) = components y := by
  simpa using components_append_slash [] y

variable {c path : CString}

theorem components_of_slash_not_mem (hne : c ≠ []) (h : slash ∉ c) : components c = [c] := by
  have hall : ∀ x ∈ c, decide (x = slash) = false := by
    rintro x hx
    simpa using fun heq : x = slash => h (heq ▸ hx)
  simp [components, List.splitOnP_eq_singleton hall, hne]

theorem components_dropWhile (path : CString) :
    components (path.dropWhile (· = slash)) = components path := by
  induction path with
  | nil => rfl
  | cons c path ih =>
    by_cases hc : c = slash
    · simpa [hc] using ih
    · simp [hc]

/-! ## Tokens -/

/-- What `dropWhile` leaves begins with something it does not drop. -/
theorem head_of_dropWhile {p : UInt8 → Bool} {l as : CString} {a : UInt8}
    (h : l.dropWhile p = a :: as) : p a = false := by
  have := List.head?_dropWhile_not p l
  rwa [h] at this

/-- A token, and what follows it: nothing, or a slash. -/
theorem nextPathToken_cases (path : CString) : nextPathToken path = none ∧ components path = [] ∨
      ∃ c next, nextPathToken path = some (c.take 31, next) ∧ next.length < path.length ∧
        components path = c :: components next ∧ c ≠ [] ∧ slash ∉ c := by
  have hcomp := components_dropWhile path
  have hlen := (List.dropWhile_sublist (· = slash) (l := path)).length_le
  unfold nextPathToken
  cases hd : path.dropWhile (· = slash) with
  | nil =>
    rw [hd, components_nil] at hcomp
    exact .inl ⟨rfl, hcomp.symm⟩
  | cons a as =>
    have ha : a ≠ slash := by simpa using head_of_dropWhile hd
    rw [hd] at hcomp hlen
    have hsplit := List.takeWhile_append_dropWhile (p := (· ≠ slash)) (l := a :: as)
    have hne : (a :: as).takeWhile (· ≠ slash) ≠ [] := by simp [ha]
    have hslash : slash ∉ (a :: as).takeWhile (· ≠ slash) := fun hmem => by
      simpa using List.mem_takeWhile_imp hmem
    refine .inr ⟨_, _, rfl, ?_, ?_, hne, hslash⟩
    · have hpos := List.length_pos_iff.2 hne
      have hsum := congrArg List.length hsplit
      rw [List.length_append] at hsum
      omega
    · rw [← hcomp]
      conv_lhs => rw [← hsplit]
      cases hr : (a :: as).dropWhile (· ≠ slash) with
      | nil => rw [List.append_nil, components_of_slash_not_mem hne hslash, components_nil]
      | cons b bs =>
        obtain rfl : b = slash := by simpa using head_of_dropWhile hr
        rw [components_append_slash, components_of_slash_not_mem hne hslash,
          components_slash_cons, List.singleton_append]

/-- The components of a path have characters, and no slash among them. -/
theorem mem_components (hc : c ∈ components path) : c ≠ [] ∧ slash ∉ c := by
  induction hn : path.length using Nat.strongRecOn generalizing path with
  | ind n ih =>
    rcases nextPathToken_cases path with ⟨-, hnil⟩ | ⟨d, next, -, hlt, hcons, hd⟩
    · simp [hnil] at hc
    · rw [hcons] at hc
      rcases List.mem_cons.1 hc with rfl | hc
      · exact hd
      · exact ih next.length (hn ▸ hlt) hc rfl

theorem tokensWithin_eq {n : ℕ} (h : path.length ≤ n) :
    tokensWithin n path = (components path).map (·.take 31) := by
  induction n generalizing path with
  | zero =>
    obtain rfl := List.length_eq_zero_iff.1 (Nat.le_zero.1 h)
    simp [tokensWithin]
  | succ n ih =>
    rw [tokensWithin]
    rcases nextPathToken_cases path with ⟨hnone, hnil⟩ | ⟨c, next, hsome, hlt, hcons, -⟩
    · rw [hnone, hnil]
      rfl
    · rw [hsome, hcons]
      simp only [List.map_cons, ih (show next.length ≤ n by omega)]

/-- **The tokens of a path** are its components, each cut to 31 characters. -/
theorem tokens_eq (path : CString) : tokens path = (components path).map (·.take 31) :=
  tokensWithin_eq le_rfl

theorem tokens_eq_components (h : ∀ c ∈ components path, c.length ≤ 31) :
    tokens path = components path := by
  rw [tokens_eq]
  conv_rhs => rw [← List.map_id (components path)]
  exact List.map_congr_left fun c hc => List.take_of_length_le (h c hc)

/-! ## Normal forms -/

/-- One component after a normal form: `.` stays, `..` goes up, and stops at the root. -/
def normalStep (cs : List CString) (c : CString) : List CString :=
  if c = dot then cs else if c = dotdot then cs.dropLast else cs ++ [c]

/-- A path without empty components, `.` and `..`. -/
def normal (path : CString) : List CString := (components path).foldl normalStep []

/-! ## Paths put together -/

/-- A slash in front of each component. -/
def joinPath (cs : List CString) : CString := cs.flatMap (slash :: ·)

theorem joinPath_snoc (cs : List CString) (c : CString) :
    joinPath (cs ++ [c]) = joinPath cs ++ slash :: c := by
  simp [joinPath]

variable {cs : List CString}

theorem joinPath_eq_nil : joinPath cs = [] ↔ cs = [] := by
  cases cs <;> simp [joinPath]

theorem head_joinPath (h : cs ≠ []) : (joinPath cs).head? = some slash := by
  obtain ⟨c, cs, rfl⟩ := List.exists_cons_of_ne_nil h
  simp [joinPath]

/-- **Components written down are read again.** -/
theorem components_joinPath (h : ∀ c ∈ cs, c ≠ [] ∧ slash ∉ c) : components (joinPath cs) = cs := by
  induction cs using List.reverseRecOn with
  | nil => rfl
  | append_singleton cs c ih =>
    obtain ⟨hne, hslash⟩ := h c (by simp)
    rw [joinPath_snoc, components_append_slash, ih fun c hc => h c (by simp [hc]),
      components_of_slash_not_mem hne hslash]

/-! ## `vfs_split_path` -/

theorem baseName_append_slash (x : CString) (h : slash ∉ c) : baseName (x ++ slash :: c) = c := by
  have hrev : ∀ a ∈ c.reverse, decide (a ≠ slash) = true := by
    intro a ha
    simpa using fun heq : a = slash => h (heq ▸ List.mem_reverse.1 ha)
  rw [baseName, List.reverse_append, List.reverse_cons, List.append_assoc,
    List.takeWhile_append_of_pos hrev]
  simp

/-- A path with a slash in it, cut at the last one. -/
theorem exists_append_baseName (h : slash ∈ path) :
    ∃ x, path = x ++ slash :: baseName path ∧ slash ∉ baseName path := by
  have hsplit := List.takeWhile_append_dropWhile (p := (· ≠ slash)) (l := path.reverse)
  have hslash : slash ∉ path.reverse.takeWhile (· ≠ slash) := fun hmem => by
    simpa using List.mem_takeWhile_imp hmem
  cases hd : path.reverse.dropWhile (· ≠ slash) with
  | nil =>
    rw [hd, List.append_nil] at hsplit
    rw [hsplit, List.mem_reverse] at hslash
    exact absurd h hslash
  | cons a as =>
    obtain rfl : a = slash := by simpa using head_of_dropWhile hd
    rw [hd] at hsplit
    refine ⟨as.reverse, ?_, fun hmem => hslash (List.mem_reverse.1 hmem)⟩
    have hrev := congrArg List.reverse hsplit
    rw [List.reverse_reverse, List.reverse_append, List.reverse_cons, List.append_assoc] at hrev
    exact hrev.symm

variable {dirMax fileMax : ℕ}

/-- **`vfs_split_path`** on a path cut at its last slash: it refuses an empty last part behind
another, and what does not fit. -/
theorem vfsSplitPath_eq {x : CString} (hhead : (x ++ slash :: c).head? = some slash)
    (hslash : slash ∉ c) :
    vfsSplitPath (some (x ++ slash :: c)) dirMax fileMax =
      if c = [] ∧ x ≠ [] ∨ dirMax ≤ (if x = [] then [slash] else x).length ∨ fileMax ≤ c.length then
        none
      else some (if x = [] then [slash] else x, c) := by
  have hbase := baseName_append_slash x hslash
  have hlast : (x ++ slash :: c).length - c.length - 1 = x.length := by
    simp only [List.length_append, List.length_cons]
    omega
  have htake : (x ++ slash :: c).take x.length = x := List.take_left
  generalize x ++ slash :: c = path at hhead hbase hlast htake ⊢
  obtain ⟨path, rfl⟩ := List.head?_eq_some_iff.1 hhead
  simp only [vfsSplitPath, hbase, hlast, ne_eq, not_true_eq_false, if_false,
    List.length_eq_zero_iff]
  by_cases hx : x = []
  · by_cases hc : c = []
    · simp only [hx, hc, and_self, ↓reduceIte, Nat.lt_succ_iff, Nat.le_zero_eq, not_true_eq_false,
        and_false, List.length_cons, List.length_nil, zero_add, false_or]
    · simp [hx, hc]
  · by_cases hc : c = []
    · simp [hx, hc]
    · simp [hx, hc, htake]

/-- A path that begins with a slash, cut at the last one. -/
theorem exists_last_slash (hhead : path.head? = some slash) :
    ∃ x c, path = x ++ slash :: c ∧ slash ∉ c := by
  obtain ⟨x, hx, hslash⟩ := exists_append_baseName (List.mem_of_mem_head? hhead)
  exact ⟨x, _, hx, hslash⟩

/-- **What `vfs_split_path` takes apart**: the root by itself, or a path and its last component. -/
theorem vfsSplitPath_cases {path : Option CString} {dir name : CString}
    (h : vfsSplitPath path dirMax fileMax = some (dir, name)) :
    path = some [slash] ∧ name = [] ∧ dir = [slash] ∨
      ∃ x, path = some (x ++ slash :: name) ∧ (x ++ slash :: name).head? = some slash ∧ name ≠ [] ∧
        slash ∉ name ∧ dir = if x = [] then [slash] else x := by
  obtain ⟨path, rfl, hhead⟩ : ∃ p, path = some p ∧ p.head? = some slash := by
    match path, h with
    | some (c :: cs), h =>
      refine ⟨c :: cs, rfl, congrArg some (by_contra fun hc => ?_)⟩
      rw [vfsSplitPath, if_pos hc] at h
      cases h
  obtain ⟨x, c, rfl, hslash⟩ := exists_last_slash hhead
  rw [vfsSplitPath_eq hhead hslash] at h
  by_cases hbad : c = [] ∧ x ≠ [] ∨ dirMax ≤ (if x = [] then [slash] else x).length ∨ fileMax ≤ c.length
  · rw [if_pos hbad] at h
    cases h
  · rw [if_neg hbad] at h
    obtain ⟨rfl, rfl⟩ := Prod.mk.inj (Option.some.inj h)
    by_cases hc : c = []
    · have hx : x = [] := by_contra fun hx => hbad (.inl ⟨hc, hx⟩)
      exact .inl ⟨by rw [hx, hc]; rfl, hc, if_pos hx⟩
    · exact .inr ⟨x, rfl, hhead, hc, hslash, rfl⟩

/-- **`vfs_split_path`** on a path of two components or more, or of one. -/
theorem vfsSplitPath_append_slash {x : CString} (hx : x ≠ [] → x.head? = some slash) (hne : c ≠ [])
    (hslash : slash ∉ c) (hdir : x.length < 256) (hfile : c.length < fileMax) :
    vfsSplitPath (some (x ++ slash :: c)) 256 fileMax =
      some (if x = [] then [slash] else x, c) := by
  have hhead : (x ++ slash :: c).head? = some slash := by
    cases x with
    | nil => rfl
    | cons a x => exact hx (by simp)
  have hlen : (if x = [] then [slash] else x).length < 256 := by
    split_ifs
    · decide
    · exact hdir
  rw [vfsSplitPath_eq hhead hslash, if_neg]
  simp only [hne, false_and, false_or, not_or, Nat.not_le]
  exact ⟨hlen, hfile⟩

end Hvos.Fs
