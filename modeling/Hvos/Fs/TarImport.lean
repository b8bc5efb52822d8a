import Hvos.Fs.Chart
import Hvos.Fs.Lookup

/-!
# Fs/TarImport — `ramfs_from_tar` undoes `tar`

`Archive tar tarSize o ms` says what the bytes from `o` on spell: the members `ms`, header by
header.  Importing them one by one keeps the tree an `Image` of the members so far, so that in the
end every file is found under its name with its bytes, and no other file is.
-/

namespace Hvos.Fs

open Prog

/-! ## Bytes -/

/-- The bytes of `str` from `o` on begin with these. -/
def Spells (str : ℕ → UInt8) : ℕ → List UInt8 → Prop
  | _, [] => True
  | o, b :: bs => str o = b ∧ Spells str (o + 1) bs

instance (str : ℕ → UInt8) : (o : ℕ) → (bs : List UInt8) → Decidable (Spells str o bs)
  | _, [] => .isTrue trivial
  | o, _ :: bs =>
    have := instDecidableSpells str (o + 1) bs
    inferInstanceAs (Decidable (_ ∧ _))

section Bytes

variable {str str' : ℕ → UInt8} {o o' : ℕ} {bs : List UInt8}

theorem Spells.congr (h : Spells str o bs) (heq : ∀ k < bs.length, str' (o' + k) = str (o + k)) :
    Spells str' o' bs := by
  induction bs generalizing o o' with
  | nil => trivial
  | cons b bs ih =>
    refine ⟨(heq 0 (by simp)).trans h.1, ih h.2 fun k hk => ?_⟩
    have := heq (k + 1) (by simpa using hk)
    rwa [← Nat.add_assoc, ← Nat.add_assoc, Nat.add_right_comm o', Nat.add_right_comm o] at this

/-- A string that ends in a `NUL`, read up to it. -/
theorem Spells.takeWhile {n : ℕ} (h : Spells str o bs) (hnul : 0 ∉ bs)
    (hend : str (o + bs.length) = 0) (hlen : bs.length < n) :
    ((List.range n).map fun k => str (o + k)).takeWhile (· ≠ 0) = bs := by
  obtain ⟨n, rfl⟩ : ∃ k, n = k + 1 := ⟨n - 1, by omega⟩
  induction bs generalizing o n with
  | nil => simp [List.range_succ_eq_map, show str o = 0 from hend]
  | cons b bs ih =>
    obtain ⟨n, rfl⟩ : ∃ k, n = k + 1 := ⟨n - 1, by simp at hlen; omega⟩
    simp only [List.mem_cons, not_or] at hnul
    have hb : str o ≠ 0 := fun heq => hnul.1 (heq.symm.trans h.1)
    have hrest := ih h.2 hnul.2 (by rw [← hend, List.length_cons]; congr 1; omega) n
      (by simpa using hlen)
    rw [List.range_succ_eq_map, List.map_cons, List.map_map, Nat.add_zero,
      List.takeWhile_cons_of_pos (by simpa using hb), h.1]
    congr 1
    refine Eq.trans ?_ hrest
    congr 2
    funext k
    simp only [Function.comp_apply]
    congr 1
    omega

end Bytes

/-- The value of octal digits. -/
def octalValue (digits : List UInt8) (acc : ℕ) : ℕ :=
  digits.foldl (fun acc d => acc * 8 + (d.toNat - 48)) acc

/-- **`octal_to_int`** on digits that end in another character, or with the field. -/
theorem octalFrom_eq {str : ℕ → UInt8} {n i acc : ℕ} {digits : List UInt8}
    (h : Spells str i digits) (hlen : digits.length ≤ n) (hdigit : ∀ d ∈ digits, 48 ≤ d ∧ d ≤ 55)
    (hend : digits.length < n → str (i + digits.length) = 0 ∨ str (i + digits.length) = 32) :
    octalFrom str n i (acc % 2 ^ 32) = octalValue digits acc % 2 ^ 32 := by
  induction digits generalizing n i acc with
  | nil =>
    cases n with
    | zero => rfl
    | succ n =>
      have hstop : str i < 48 ∨ str i > 55 := by
        rcases hend (Nat.succ_pos n) with h0 | h32
        · exact .inl (by rw [show str i = 0 from h0]; decide)
        · exact .inl (by rw [show str i = 32 from h32]; decide)
      rw [octalFrom, if_pos hstop]
      rfl
  | cons d digits ih =>
    obtain ⟨n, rfl⟩ : ∃ k, n = k + 1 := ⟨n - 1, by simp at hlen; omega⟩
    obtain ⟨hlow, hhigh⟩ := hdigit d (by simp)
    have hgo : ¬(d < 48 ∨ d > 55) := fun hstop =>
      hstop.elim (fun hlt => absurd hlow (UInt8.not_le.2 hlt)) fun hgt =>
        absurd hhigh (UInt8.not_le.2 hgt)
    have hmod : (acc % 2 ^ 32 * 8 + (d.toNat - 48)) % 2 ^ 32 =
        (acc * 8 + (d.toNat - 48)) % 2 ^ 32 := by omega
    rw [octalFrom, h.1, if_neg hgo, hmod]
    refine ih h.2 (by simpa using hlen) (fun x hx => hdigit x (by simp [hx])) fun hlt => ?_
    have := hend (by simpa using hlt)
    rwa [List.length_cons, Nat.add_comm digits.length, ← Nat.add_assoc] at this

/-! ## Archives -/

/-- A component of a member's name. -/
structure Component (c : CString) : Prop where
  ne_nil : c ≠ []
  slash : slash ∉ c
  nul : 0 ∉ c
  short : c.length ≤ 31
  ne_dot : c ≠ dot
  ne_dotdot : c ≠ dotdot

/-- **A member**: the components of its name, whether that starts with `./` and ends in `/`, and
what the member is. -/
structure Member where
  dotted : Bool
  path : List CString
  slashed : Bool
  isDir : Bool
  data : List UInt8

namespace Member

variable (m : Member)

/-- The components, and the `.` before them. -/
def parts : List CString := (if m.dotted then [dot] else []) ++ m.path

/-- The name behind a slash. -/
def absolute : CString := joinPath m.parts ++ if m.slashed then [slash] else []

/-- The name. -/
def name : CString := m.absolute.tail

/-- Where the member goes: `./` becomes an entry of the root. -/
def place : List CString := if m.path = [] then [dot] else m.path

/-- A name `[./]c/…/c[/]`, the last slash only of directories, and a size that fits. -/
structure Valid : Prop where
  component : ∀ c ∈ m.path, Component c
  dotted : m.path = [] → m.dotted
  isDir : m.path = [] ∨ m.slashed → m.isDir
  short : m.name.length ≤ 98
  size : m.data.length < 2 ^ 32

end Member

/-- **A header, and the data behind it**, as `tar --format=ustar` writes them.  The size field holds
octal digits up to a `NUL` or a space; the field for the first part of a long name is empty. -/
structure HeaderAt (tar : TarBytes) (o : ℕ) (m : Member) : Prop where
  name : Spells tar o m.name
  nul : tar (o + m.name.length) = 0
  size : ∃ digits : List UInt8, Spells tar (o + 124) digits ∧ digits.length ≤ 12 ∧
    (∀ d ∈ digits, 48 ≤ d ∧ d ≤ 55) ∧
    (digits.length < 12 →
      tar (o + 124 + digits.length) = 0 ∨ tar (o + 124 + digits.length) = 32) ∧
    octalValue digits 0 = m.data.length
  typeflag : if m.isDir then tar (o + 156) = 53 else tar (o + 156) = 48 ∨ tar (o + 156) = 0
  magic : Spells tar (o + 257) [117, 115, 116, 97, 114]
  whole : tar (o + 345) = 0
  data : Spells tar (o + 512) m.data

/-- **The archive from `o` on**: members in a row, each with its data filled up to full blocks, to
the end of the bytes or to a block of zeros. -/
inductive Archive (tar : TarBytes) (tarSize : ℕ) : ℕ → List Member → Prop
  | done {o : ℕ} (h : tarSize < o + 512 ∨ tar o = 0) : Archive tar tarSize o []
  | member {o : ℕ} {m : Member} {ms : List Member} (header : HeaderAt tar o m)
      (inside : o + 512 + m.data.length ≤ tarSize)
      (rest : Archive tar tarSize (o + 512 + (m.data.length + 511) / 512 * 512) ms) :
      Archive tar tarSize o (m :: ms)

/-- **What can be imported**: valid members with different paths, parents first, and no more than
fit into a directory. -/
structure Importable (ms : List Member) : Prop where
  valid : ∀ m ∈ ms, m.Valid
  distinct : (ms.map Member.path).Nodup
  parents : ∀ k : Fin ms.length, (ms.get k).path.dropLast = [] ∨
    ∃ d ∈ ms.take k, d.isDir ∧ d.path = (ms.get k).path.dropLast
  few : ∀ m ∈ ms, (ms.filter (·.path.dropLast = m.path.dropLast)).length ≤ ramfsMaxChildren

/-! ## Names and places -/

namespace Member

variable {m d : Member}

theorem place_dropLast (m : Member) : m.place.dropLast = m.path.dropLast := by
  unfold place
  split_ifs with h
  · rw [h]
    rfl
  · rfl

theorem place_of_ne_nil (h : m.path ≠ []) : m.place = m.path := if_neg h

theorem place_ne_nil (m : Member) : m.place ≠ [] := by
  unfold place
  split_ifs with h
  · simp
  · exact h

section

variable (hm : m.Valid)
include hm

/-- Different members go to different places. -/
theorem Valid.place_inj (hd : d.Valid) (h : m.place = d.place) : m.path = d.path := by
  unfold place at h
  split_ifs at h with hmp hdp hdp
  · rw [hmp, hdp]
  · exact absurd rfl (hd.component dot (by simp [← h])).ne_dot
  · exact absurd rfl (hm.component dot (by simp [h])).ne_dot
  · exact h

/-- The parts are the place, perhaps behind a `.`. -/
theorem Valid.parts_eq : ∃ pre, (pre = [] ∨ pre = [dot]) ∧ m.parts = pre ++ m.place := by
  unfold parts place
  split_ifs with hdot hp hp
  · exact ⟨[], .inl rfl, by simp [hp]⟩
  · exact ⟨[dot], .inr rfl, rfl⟩
  · exact absurd (hm.dotted hp) hdot
  · exact ⟨[], .inl rfl, rfl⟩

theorem Valid.part {c : CString} (hc : c ∈ m.parts) :
    c ≠ [] ∧ Fs.slash ∉ c ∧ 0 ∉ c ∧ c.length ≤ 31 := by
  unfold parts at hc
  rcases List.mem_append.1 hc with hc | hc
  · split_ifs at hc
    · obtain rfl := List.mem_singleton.1 hc
      decide
    · simp at hc
  · have := hm.component c hc
    exact ⟨this.ne_nil, this.slash, this.nul, this.short⟩

theorem Valid.plain {c : CString} (hc : c ∈ m.path) : Plain c :=
  have := hm.component c hc
  ⟨this.short, this.ne_dot, this.ne_dotdot⟩

theorem Valid.parts_ne_nil : m.parts ≠ [] := by
  obtain ⟨pre, -, h⟩ := hm.parts_eq
  simp [h, m.place_ne_nil]

theorem Valid.slash_name : Fs.slash :: m.name = m.absolute := by
  have hhead := head_joinPath hm.parts_ne_nil
  unfold name absolute
  cases hj : joinPath m.parts with
  | nil => simp [hj] at hhead
  | cons a as =>
    rw [hj] at hhead
    cases hhead
    rfl

theorem Valid.length_joinPath : (joinPath m.parts).length ≤ 99 := by
  have hlen := congrArg List.length hm.slash_name
  have hshort := hm.short
  rw [absolute, List.length_append, List.length_cons] at hlen
  omega

theorem Valid.nul_not_mem : 0 ∉ m.name := by
  intro h0
  have hmem : 0 ∈ m.absolute := hm.slash_name ▸ List.mem_cons_of_mem _ h0
  rw [absolute, joinPath, List.mem_append, List.mem_flatMap] at hmem
  rcases hmem with ⟨c, hc, hin⟩ | hin
  · rcases List.mem_cons.1 hin with heq | hin
    · exact absurd heq (by decide)
    · exact (hm.part hc).2.2.1 hin
  · split_ifs at hin
    · exact absurd (List.mem_singleton.1 hin) (by decide)
    · simp at hin

theorem Valid.components_absolute : components m.absolute = m.parts := by
  have hj := components_joinPath fun c hc => ⟨(hm.part hc).1, (hm.part hc).2.1⟩
  unfold absolute
  split_ifs
  · rw [components_append_slash, hj, components_nil, List.append_nil]
  · rw [List.append_nil, hj]

theorem Valid.name_ne_nil : m.name ≠ [] := by
  intro hnil
  have hcomp := hm.components_absolute
  rw [← hm.slash_name, hnil, components_slash_cons, components_nil] at hcomp
  exact hm.parts_ne_nil hcomp.symm

/-- The path a directory is made under. -/
theorem Valid.stripSlash_absolute : stripSlash m.absolute = joinPath m.parts := by
  have hne : joinPath m.parts ≠ [] := fun h => hm.parts_ne_nil (joinPath_eq_nil.1 h)
  unfold absolute stripSlash
  split_ifs with hs hlast hlast
  · simp
  · have hpos := List.length_pos_iff.2 hne
    exact absurd ⟨by simpa using hpos, by simp⟩ hlast
  · -- A name that does not end in a slash ends in a component.
    obtain ⟨init, c, hinit⟩ := (List.eq_nil_or_concat' m.parts).resolve_left hm.parts_ne_nil
    obtain ⟨hcne, hslash, -, -⟩ := hm.part (c := c) (by simp [hinit])
    rw [List.append_nil, hinit, joinPath_snoc, List.getLast?_append, List.getLast?_cons,
      List.getLast?_eq_some_getLast hcne] at hlast
    have : c.getLast hcne = Fs.slash := by simpa using hlast.2
    exact absurd (this ▸ List.getLast_mem hcne) hslash
  · rw [List.append_nil]

end

end Member

/-! ## The image of the members -/

/-- The node a member became. -/
def Made (m : Member) (n : Node) : Prop :=
  if m.isDir then n.body = .dir
  else n.mode = sIfreg ||| 0o644 ∧
    ∃ f c, n.body = .file m.data.length f c ∧ Spells c 0 m.data

/-- **The tree is the members**: one node in the place of each, made from it, and no other. -/
structure Image (N : Nodes) (ms : List Member) : Prop where
  chart : Charted N (ms.map Member.place)
  made : ∀ m ∈ ms, ∀ n, At N n m.place → Made m n

variable {tar : TarBytes}

section Import

variable {K : Kmalloc} {N : Nodes} {n q r : Node} {s : FsState} {m : Member} {ms : List Member}

theorem Image.root (h : Wf [r]) : Image [r] [] := ⟨.root h, by simp⟩

/-- **One more member.** -/
theorem Image.snoc (hi : Image N ms) (h : Wf N) (h' : Wf (N ++ [n])) (hq : At N q m.place.dropLast)
    (hparent : n.parent = q.dentry) (hplace : m.place = m.place.dropLast ++ [n.name])
    (hnew : m.place ∉ ms.map Member.place) (hmade : Made m n) : Image (N ++ [n]) (ms ++ [m]) := by
  have hchart := hi.chart.snoc h h' hq hparent (hplace ▸ hnew)
  rw [← hplace] at hchart
  refine ⟨by simpa using hchart, fun x hx y hy => ?_⟩
  rcases At.snoc_cases h h' hq hparent hy with hold | ⟨rfl, hyp⟩
  · rcases List.mem_append.1 hx with hx | hx
    · exact hi.made x hx y hold
    · obtain rfl := List.mem_singleton.1 hx
      exact absurd ((hi.chart.only hold).resolve_left x.place_ne_nil) hnew
  · rw [← hplace] at hyp
    rcases List.mem_append.1 hx with hx | hx
    · exact absurd (hyp ▸ List.mem_map_of_mem hx) hnew
    · obtain rfl := List.mem_singleton.1 hx
      exact hmade

/-- The way to a directory. -/
theorem Image.walk_eq (hi : Image N ms) (h : Wf N) (hr : N.head? = some r) {cs pre : List CString}
    (hpre : pre = [] ∨ pre = [dot]) (hn : At N n cs) (hplain : ∀ c ∈ cs, Plain c) :
    N.walk (pre ++ cs) r = some n := by
  have hw := hi.chart.walk_eq h hr hn hplain
  rcases hpre with rfl | rfl
  · exact hw
  · exact hw

/-- **Where the import puts a member**: `vfs_split_path` and `vfs_lookup` find its parent. -/
theorem Image.target_eq (hi : Image N ms) (h : Wf N) (hv : m.Valid) (fileMax : ℕ)
    (hmax : 32 ≤ fileMax) (hq : At N q m.place.dropLast) (hdir : q.body = .dir) :
    ∃ c, N.target (some (joinPath m.parts)) fileMax = some (q, c) ∧ c.take 31 = c ∧
      m.place = m.place.dropLast ++ [c] := by
  obtain ⟨r, hr, -⟩ := h.rooted.exists_root
  obtain ⟨pre, hpre, hparts⟩ := hv.parts_eq
  have hplace := List.dropLast_append_getLast m.place_ne_nil
  set c := m.place.getLast m.place_ne_nil
  set init := pre ++ m.place.dropLast with hinit
  have hsnoc : m.parts = init ++ [c] := by rw [hparts, hinit, List.append_assoc, hplace]
  obtain ⟨hne, hslash, -, hshort⟩ := hv.part (c := c) (by simp [hsnoc])
  have hinit_part : ∀ x ∈ init, x ≠ [] ∧ slash ∉ x ∧ 0 ∉ x ∧ x.length ≤ 31 := fun x hx =>
    hv.part (by simp [hsnoc, hx])
  have hlen := hv.length_joinPath
  rw [hsnoc, joinPath_snoc, List.length_append] at hlen
  have hcomp := components_joinPath fun x hx => ⟨(hinit_part x hx).1, (hinit_part x hx).2.1⟩
  have htoks : tokens (joinPath init) = init := by
    rw [tokens_eq_components, hcomp]
    rw [hcomp]
    exact fun x hx => (hinit_part x hx).2.2.2
  have hplain : ∀ x ∈ m.place.dropLast, Plain x := fun x hx =>
    hv.plain (List.mem_of_mem_dropLast (m.place_dropLast ▸ hx))
  have hwalk := hi.walk_eq h hr hpre hq hplain
  have hlookup : N.lookup (some (if joinPath init = [] then [slash] else joinPath init)) =
      some q := by
    rw [← hinit] at hwalk
    by_cases hnil : init = []
    · have hhead : [slash].head? = some slash := rfl
      rw [if_pos (joinPath_eq_nil.2 hnil), Nodes.lookup, if_pos hhead, hr]
      rw [hnil] at hwalk
      exact hwalk
    · rw [if_neg fun hj => hnil (joinPath_eq_nil.1 hj), Nodes.lookup, if_pos (head_joinPath hnil),
        hr, htoks]
      exact hwalk
  refine ⟨c, ?_, List.take_of_length_le hshort, hplace.symm⟩
  have hsplit : vfsSplitPath (some (joinPath m.parts)) 256 fileMax =
      some (if joinPath init = [] then [slash] else joinPath init, c) := by
    rw [hsnoc, joinPath_snoc]
    refine vfsSplitPath_append_slash (fun hj => head_joinPath fun hnil => hj ?_) hne hslash
      (by omega) (by omega)
    exact joinPath_eq_nil.2 hnil
  rw [Nodes.target, hsplit]
  simp only [hlookup, hdir]

/-- What is known when a member comes up: where it goes is new, a directory, and has room. -/
structure Ready (N : Nodes) (ms : List Member) (m : Member) (q : Node) : Prop where
  valid : m.Valid
  parent : At N q m.place.dropLast
  dir : q.body = .dir
  new : m.place ∉ ms.map Member.place
  room : N.Room q

/-- **Every member of an importable list is ready in its turn.** -/
theorem Importable.ready {rest : List Member} (hok : Importable (ms ++ m :: rest)) (hi : Image N ms)
    (h : Wf N) : ∃ q, Ready N ms m q := by
  have hmem : m ∈ ms ++ m :: rest := by simp
  have hv := hok.valid m hmem
  have hnew : m.place ∉ ms.map Member.place := by
    intro hin
    obtain ⟨d, hd, heq⟩ := List.mem_map.1 hin
    have hnd := hok.distinct
    rw [List.map_append, List.nodup_append] at hnd
    refine hnd.2.2 d.path (List.mem_map_of_mem hd) m.path (by simp) ?_
    exact (hok.valid d (List.mem_append_left _ hd)).place_inj hv heq
  -- The parent is the root, or an earlier member.
  obtain ⟨q, hq, hdir⟩ : ∃ q, At N q m.place.dropLast ∧ q.body = .dir := by
    rw [m.place_dropLast]
    have hparent := hok.parents ⟨ms.length, by simp⟩
    simp only [List.get_eq_getElem, List.getElem_append_right le_rfl, Nat.sub_self,
      List.getElem_cons_zero, List.take_left] at hparent
    rcases hparent with hnil | ⟨d, hd, hisDir, hpath⟩
    · obtain ⟨r, hr, -, -, hrdir⟩ := h.rooted.exists_root
      rw [hnil]
      exact ⟨r, .root hr, hrdir⟩
    · by_cases hnil : m.path.dropLast = []
      · obtain ⟨r, hr, -, -, hrdir⟩ := h.rooted.exists_root
        rw [hnil]
        exact ⟨r, .root hr, hrdir⟩
      · have hplace : d.place = m.path.dropLast := by
          rw [Member.place_of_ne_nil (hpath ▸ hnil), hpath]
        obtain ⟨q, hq⟩ := hi.chart.found d.place (List.mem_map_of_mem hd)
        have hmade := hi.made d hd q hq
        rw [Made, if_pos hisDir] at hmade
        exact ⟨q, hplace ▸ hq, hmade⟩
  refine ⟨q, hv, hq, hdir, hnew, ?_⟩
  have hkids := hi.chart.kids_le h hq
  have hfew := hok.few m hmem
  rw [List.filter_map, List.length_map] at hkids
  have hsame : (ms.filter ((fun p => decide (p.dropLast = m.place.dropLast)) ∘ Member.place)) =
      ms.filter (·.path.dropLast = m.path.dropLast) := by
    congr 1
    funext d
    simp [Member.place_dropLast]
  rw [hsame] at hkids
  rw [List.filter_append, List.length_append, List.filter_cons_of_pos (by simp),
    List.length_cons] at hfew
  exact lt_of_le_of_lt hkids (by omega)

/-- **A directory member.** -/
theorem Image.vfsMkdir (hi : Image N ms) (h : Holds N s) (hready : Ready N ms m q)
    (hisDir : m.isDir = true) : Ensures (vfsMkdir K (some (joinPath m.parts)) 0o775) s
      (fun _ s' => ∃ N', Holds N' s' ∧ Image N' (ms ++ [m])) (Refused K) := by
  obtain ⟨hv, hq, hdir, hnew, hroom⟩ := hready
  obtain ⟨c, htarget, hc, hplace⟩ := hi.target_eq h.wf hv 64 (by decide) hq hdir
  refine (vfsMkdir_spec h _ _).imp ?_
  rintro r s' (⟨q', name, ht, -, -, -, p, ino, data, num, h'⟩ | ⟨hfail, -, -⟩)
  · obtain ⟨rfl, rfl⟩ := Prod.mk.inj (Option.mem_unique htarget ht)
    rw [hc] at h'
    refine ⟨_, h', hi.snoc h.wf h'.wf hq rfl hplace hnew ?_⟩
    rw [Made, if_pos hisDir]
    rfl
  · refine absurd hroom (hfail q c htarget ?_)
    rw [hc]
    cases hchild : N.child q c with
    | none => rfl
    | some x =>
      obtain ⟨hx, hxp, rfl⟩ := Nodes.child_mem hchild
      have hat := hq.child hx hxp
      rw [← hplace] at hat
      exact absurd ((hi.chart.only hat).resolve_left m.place_ne_nil) hnew

/-- The last node with new contents. -/
theorem Nodes.setBody_snoc (h : Wf (N ++ [n])) (b : Body) :
    Nodes.setBody (N ++ [n]) n.dentry b = N ++ [{ n with body := b }] := by
  have hnd := h.nodup_dentries
  rw [List.map_append, List.nodup_append] at hnd
  rw [Nodes.setBody, List.map_append, List.map_singleton, if_pos rfl]
  congr 1
  conv_rhs => rw [← List.map_id N]
  refine List.map_congr_left fun x hx => if_neg fun heq => ?_
  exact hnd.2.2 _ (List.mem_map_of_mem hx) _ (by simp) heq

/-- A member's name leads to its place, or to the root. -/
theorem Charted.lookup_eq {places : List (List CString)} (hc : Charted N places) (h : Wf N)
    (hv : m.Valid) (hn : At N n m.path) : N.lookup (some m.absolute) = some n := by
  obtain ⟨r, hr, -⟩ := h.rooted.exists_root
  have htoks : tokens m.absolute = m.parts := by
    rw [tokens_eq_components, hv.components_absolute]
    rw [hv.components_absolute]
    exact fun c hc => (hv.part hc).2.2.2
  have hwalk := hc.walk_eq h hr hn fun c hc => hv.plain hc
  rw [Nodes.lookup, if_pos (by rw [← hv.slash_name]; rfl), hr, htoks, Option.bind_some]
  unfold Member.parts
  split_ifs
  · exact hwalk
  · exact hwalk

/-- **A file member**: a new node, filled with the member's bytes. -/
theorem Image.importFile (hi : Image N ms) (h : Holds N s) (hready : Ready N ms m q)
    (hfile : m.isDir = false) {data : ℕ → UInt8} (hdata : Spells data 0 m.data) :
    Ensures (importFile K m.absolute data m.data.length) s
      (fun _ s' => ∃ N', Holds N' s' ∧ Image N' (ms ++ [m])) (Refused K) := by
  obtain ⟨hv, hq, hdir, hnew, hroom⟩ := hready
  have hslashed : m.slashed = false := by
    by_contra hs
    simp [hv.isDir (.inr (by simpa using hs))] at hfile
  have hpath : m.path ≠ [] := fun hp => by simp [hv.isDir (.inl hp)] at hfile
  have habs : m.absolute = joinPath m.parts := by simp [Member.absolute, hslashed]
  obtain ⟨c, htarget, hc, hplace⟩ := hi.target_eq h.wf hv 32 le_rfl hq hdir
  unfold Fs.importFile
  rw [← habs] at htarget
  refine (vfsCreate_spec h _ _).bind ?_
  rintro r s1 (⟨q', name, ht, -, -, p, ino, dptr, num, h1⟩ | ⟨hfail, -, -⟩)
  swap
  · exact absurd hroom (hfail q c htarget)
  obtain ⟨rfl, rfl⟩ := Prod.mk.inj (Option.mem_unique htarget ht)
  rw [hc] at h1
  set n : Node := ⟨p, ino, dptr, q.dentry, c, num, sIfreg ||| 0o644, newBody (sIfreg ||| 0o644)⟩
    with hn
  have hchart := hi.chart.snoc h.wf h1.wf hq (m := n) rfl (hplace ▸ hnew)
  have hat : At (N ++ [n]) n m.path := by
    rw [← Member.place_of_ne_nil hpath, hplace]
    exact (hq.append n).child (by simp) rfl
  have hlookup := hchart.lookup_eq h1.wf hv hat
  refine (fillFile_spec h1 m.absolute data hv.size).imp ?_
  rintro _ s2 (⟨x, -, -, -, f, bytes, hl, -, -, hbytes, -, h2⟩ | ⟨hdirs, -⟩)
  · obtain rfl := Option.mem_unique hlookup hl
    rw [Nodes.setBody_snoc h1.wf] at h2
    refine ⟨_, h2, hi.snoc h.wf h2.wf hq rfl hplace hnew ?_⟩
    rw [Made, if_neg (by simp [hfile])]
    exact ⟨rfl, f, bytes, rfl, hdata.congr fun k hk => by simpa using hbytes k hk⟩
  · have hbody : newBody (sIfreg ||| 0o644) = .file 0 ⟨0, 0⟩ fun _ => 0 := if_neg (by decide)
    cases hbody.symm.trans (hdirs n hlookup)

/-! ## The loop -/

theorem HeaderAt.fileSize_eq {o : ℕ} (h : HeaderAt tar o m) (hv : m.Valid) :
    tar.fileSize o = m.data.length := by
  obtain ⟨digits, hspell, hlen, hdigit, hend, hvalue⟩ := h.size
  have hshift : Spells (fun k => tar (o + 124 + k)) 0 digits :=
    hspell.congr fun k _ => by rw [Nat.zero_add]
  have hoctal : octalFrom (fun k => tar (o + 124 + k)) 12 0 (0 % 2 ^ 32) =
      octalValue digits 0 % 2 ^ 32 := octalFrom_eq hshift hlen hdigit (by simpa using hend)
  rwa [hvalue, Nat.mod_eq_of_lt hv.size, Nat.zero_mod] at hoctal

theorem HeaderAt.name_eq {o : ℕ} (h : HeaderAt tar o m) (hv : m.Valid) : tar.name o = m.name :=
  h.name.takeWhile hv.nul_not_mem h.nul (by have := hv.short; omega)

theorem HeaderAt.isUstar_eq {o : ℕ} (h : HeaderAt tar o m) : tar.isUstar o = true := by
  obtain ⟨h0, h1, h2, h3, h4, -⟩ := h.magic
  simp only [TarBytes.isUstar, List.range_succ_eq_map, List.range_zero, List.map_cons, List.map_nil,
    beq_iff_eq, List.cons.injEq, and_true]
  exact ⟨h0, h1, h2, h3, h4⟩

/-- **One round of the loop imports one member.** -/
theorem Image.importMember {o : ℕ} (hi : Image N ms) (h : Holds N s) (hready : Ready N ms m q)
    (hhead : HeaderAt tar o m) :
    Ensures (importMember K tar o) s (fun _ s' => ∃ N', Holds N' s' ∧ Image N' (ms ++ [m]))
      (Refused K) := by
  have hv := hready.valid
  have habs : tar.absolutePath o = m.absolute := by
    rw [TarBytes.absolutePath, hhead.name_eq hv, hv.slash_name]
  have htype := hhead.typeflag
  unfold Fs.importMember
  rw [habs, hhead.fileSize_eq hv, hv.stripSlash_absolute]
  cases hd : m.isDir with
  | true =>
    rw [hd, if_pos rfl] at htype
    rw [if_pos (show tar.typeflag o = 53 from htype)]
    exact (hi.vfsMkdir h hready hd).bind fun _ _ h' => ensures_pure h'
  | false =>
    rw [hd, if_neg Bool.false_ne_true] at htype
    have hnot : tar.typeflag o ≠ 53 := by
      rcases htype with ht | ht <;> rw [show tar.typeflag o = _ from ht] <;> decide
    rw [if_neg hnot, if_pos (show tar.typeflag o = 48 ∨ tar.typeflag o = 0 from htype)]
    exact hi.importFile h hready hd (hhead.data.congr fun k _ => by rw [Nat.zero_add])

/-- **The loop imports the archive**, by induction over its members. -/
theorem Archive.importFrom {tarSize o n : ℕ} {rest : List Member} (ha : Archive tar tarSize o rest)
    (hfuel : (tarSize - o) / 512 ≤ n) (h : Holds N s) (hi : Image N ms)
    (hok : Importable (ms ++ rest)) :
    Ensures (importFrom K tar tarSize n o) s (fun _ s' => ∃ N', Holds N' s' ∧ Image N' (ms ++ rest))
      (Refused K) := by
  induction ha generalizing n N ms s with
  | @done o hend =>
    rw [List.append_nil]
    cases n with
    | zero => exact ensures_pure ⟨N, h, hi⟩
    | succ n =>
      have hstop : o + 512 > tarSize ∨ tar.name o = [] ∨ tar.isUstar o = false := by
        refine hend.imp id fun h0 => .inl ?_
        exact (show Spells tar o [] from trivial).takeWhile (by simp) h0 (by decide)
      rw [Fs.importFrom, if_pos hstop]
      exact ensures_pure ⟨N, h, hi⟩
  | @member o m rest hhead hinside _ ih =>
    obtain ⟨n, rfl⟩ : ∃ k, n = k + 1 := ⟨n - 1, by omega⟩
    have hfuel1 : (tarSize - (o + 512 + (m.data.length + 511) / 512 * 512)) / 512 ≤ n := by
      omega
    have hv := hok.valid m (by simp)
    obtain ⟨q, hready⟩ := hok.ready hi h.wf
    have hgo : ¬(o + 512 > tarSize ∨ tar.name o = [] ∨ tar.isUstar o = false) := by
      rw [hhead.name_eq hv, hhead.isUstar_eq]
      simp only [hv.name_ne_nil, Bool.true_eq_false, or_false]
      omega
    rw [Fs.importFrom, if_neg hgo]
    refine (hi.importMember h hready hhead).bind ?_
    rintro _ s1 ⟨N1, h1, hi1⟩
    have hnext : nextHeader tar o = o + 512 + (m.data.length + 511) / 512 * 512 := by
      rw [nextHeader, hhead.fileSize_eq hv]
    rw [hnext]
    have hok1 : Importable (ms ++ [m] ++ rest) := by simpa using hok
    have hrest := ih hfuel1 h1 hi1 hok1
    rwa [List.append_assoc] at hrest

end Import

/-! ## What the import leaves -/

/-- The file type in a mode is `S_IFREG`. -/
def IsReg (mode : UInt32) : Prop := mode &&& 0xF000 = sIfreg

instance (mode : UInt32) : Decidable (IsReg mode) := inferInstanceAs (Decidable (_ = _))

/-- A regular file of this size, whose buffer holds these bytes; an empty file has none. -/
def FileWith (s : FsState) (p : Ptr) (data : List UInt8) : Prop :=
  ∃ i f, s.inodeOf p = some i ∧ IsReg i.iMode ∧ i.iSize = data.length ∧
    s.heap.get i.iPrivate = some (.file f) ∧
    (data ≠ [] → ∃ len c, s.heap.get f.buffer = some (.bytes len c) ∧ data.length ≤ len ∧
      Spells c 0 data)

/-- **What was imported**: every file is found under its name with its bytes, every directory is
one, and a path to a regular file is, in normal form, the path of a file member. -/
structure Imported (K : Kmalloc) (ms : List Member) (s : FsState) : Prop where
  file : ∀ m ∈ ms, m.isDir = false → Ensures (vfsLookup K (some (slash :: m.name))) s
    (fun p s' => FileWith s' p m.data) (Refused K)
  dir : ∀ m ∈ ms, m.isDir = true → Ensures (vfsLookup K (some (slash :: m.name))) s
    (fun p s' => ∃ i, s'.inodeOf p = some i ∧ IsDir i.iMode) (Refused K)
  only : ∀ path, (∀ c ∈ components path, c.length ≤ 31) → Ensures (vfsLookup K (some path)) s
    (fun p s' => ∀ i, s'.inodeOf p = some i → IsReg i.iMode →
      ∃ m ∈ ms, m.isDir = false ∧ m.path = normal path) (Refused K)

section Outcome

variable {K : Kmalloc} {N : Nodes} {n : Node} {s : FsState} {m : Member} {ms : List Member}

/-- A regular file is no directory. -/
theorem IsReg.not_isDir {mode : UInt32} (h : IsReg mode) : ¬IsDir mode := by
  have hmask : mode &&& sIfdir = mode &&& 0xF000 &&& sIfdir := by
    rw [UInt32.and_assoc]
    rfl
  rw [IsDir, hmask, show mode &&& 0xF000 = sIfreg from h]
  decide

/-- `NULL` is no dentry. -/
theorem Holds.inodeOf_null (h : Holds N s) : s.inodeOf 0 = none := by
  unfold FsState.inodeOf
  split
  · next d hd =>
      by_cases hz : d.dInode = 0
      · rw [hz, hd]
      · obtain ⟨n, hn, heq, -⟩ := (h.dentry_iff hz).1 hd
        exact absurd heq.symm (h.wf.ptr_ne_zero hn n.dentry_mem)
  · rfl

theorem Image.fileWith (hi : Image N ms) (h : Holds N s) (hm : m ∈ ms) (hfile : m.isDir = false)
    (hn : At N n m.place) : FileWith s n.dentry m.data := by
  have hmade := hi.made m hm n hn
  rw [Made, if_neg (by simp [hfile])] at hmade
  obtain ⟨hmode, f, c, hbody, hbytes⟩ := hmade
  obtain ⟨-, hcap, hbuf⟩ := h.file_sound hn.mem hbody
  obtain ⟨-, hdata, hbuffer⟩ := h.file_placed hn.mem hbody
  refine ⟨_, f, h.inodeOf_eq hn.mem, ?_, by rw [hbody]; rfl, hdata, fun hne => ?_⟩
  · show IsReg n.mode
    rw [hmode]
    decide
  · have hpos := List.length_pos_iff.2 hne
    exact ⟨_, c, hbuffer fun hz => by have := hbuf hz; omega, hcap, hbytes⟩

/-- **The image of the members is what was to be imported.** -/
theorem Image.imported (hi : Image N ms) (h : Holds N s) (hv : ∀ m ∈ ms, m.Valid) :
    Imported K ms s where
  file m hm hfile := by
    have hpath : m.path ≠ [] := fun hp => by simp [(hv m hm).isDir (.inl hp)] at hfile
    obtain ⟨n, hn⟩ := hi.chart.found m.place (List.mem_map_of_mem hm)
    have hlookup := hi.chart.lookup_eq h.wf (hv m hm) (Member.place_of_ne_nil hpath ▸ hn)
    rw [(hv m hm).slash_name]
    refine (vfsLookup_spec h _).imp ?_
    rintro p s' ⟨hs, rfl⟩
    rw [hlookup]
    exact hi.fileWith (h.same hs) hm hfile hn
  dir m hm hdir := by
    obtain ⟨n, hn, hbody⟩ : ∃ n, At N n m.path ∧ n.body = .dir := by
      by_cases hpath : m.path = []
      · obtain ⟨r, hr, -, -, hrdir⟩ := h.wf.rooted.exists_root
        exact ⟨r, hpath ▸ .root hr, hrdir⟩
      · obtain ⟨n, hn⟩ := hi.chart.found m.place (List.mem_map_of_mem hm)
        have hmade := hi.made m hm n hn
        rw [Made, if_pos hdir] at hmade
        exact ⟨n, Member.place_of_ne_nil hpath ▸ hn, hmade⟩
    have hlookup := hi.chart.lookup_eq h.wf (hv m hm) hn
    rw [(hv m hm).slash_name]
    refine (vfsLookup_spec h _).imp ?_
    rintro p s' ⟨hs, rfl⟩
    rw [hlookup]
    exact ⟨_, (h.same hs).inodeOf_eq hn.mem, (h.wf.isDir_iff hn.mem).2 hbody⟩
  only path hshort := by
    refine (vfsLookup_spec h _).imp ?_
    rintro p s' ⟨hs, rfl⟩ i hino hreg
    have h' := h.same hs
    rcases Nodes.ptrOf_cases h.wf
      (fun n (hn : N.lookup (some path) = some n) => Nodes.lookup_mem hn) with
      ⟨-, hz⟩ | ⟨n, hn, hl, hp, -⟩
    · rw [hz, h'.inodeOf_null] at hino
      cases hino
    rw [hp, h'.inodeOf_eq hn] at hino
    cases hino
    have hbody : n.body ≠ .dir := fun hb => hreg.not_isDir ((h.wf.isDir_iff hn).2 hb)
    obtain ⟨r, hr, -⟩ := h.wf.rooted.exists_root
    have hat : At N n (normal path) := by
      rw [Nodes.lookup] at hl
      split_ifs at hl
      rw [hr, tokens_eq_components hshort] at hl
      exact At.walk h.wf hshort (.root hr) hl
    rcases hi.chart.only hat with hnil | hplace
    · rw [hnil] at hat
      rw [hi.chart.inj hat (.root hr)] at hbody
      exact absurd (h.wf.head_body hr) hbody
    · obtain ⟨m, hm, hplace⟩ := List.mem_map.1 hplace
      have hmade := hi.made m hm n (hplace ▸ hat)
      have hfile : m.isDir = false := by
        by_contra hd
        rw [Made, if_pos (by simpa using hd)] at hmade
        exact hbody hmade
      refine ⟨m, hm, hfile, ?_⟩
      rw [← hplace, Member.place_of_ne_nil fun hp => by simp [(hv m hm).isDir (.inl hp)] at hfile]

/-- **Import undoes creation.**  After `ramfs_init` and `ramfs_from_tar` on an archive of importable
members, the file system is what was put into the archive; only without memory does the machine
stop before. -/
theorem vfsInit_imports {tar : TarBytes} {tarSize : ℕ} (ha : Archive tar tarSize 0 ms)
    (hok : Importable ms) :
    (∃ s, vfsInit K (some (tar, tarSize)) .boot = .done () s ∧ Imported K ms s) ∨
      ∃ s, vfsInit K (some (tar, tarSize)) .boot = .halt s ∧ Refused K s := by
  have hinit : Ensures (vfsInit K (some (tar, tarSize))) .boot (fun _ s => Imported K ms s)
      (Refused K) := by
    refine ramfsInit_spec.bind ?_
    rintro _ s ⟨r, h⟩
    have hloop := ha.importFrom (K := K) (n := tarSize / 512) (by omega) h (.root h.wf)
      (show Importable ([] ++ ms) from hok)
    refine hloop.imp ?_
    rintro _ s' ⟨N, hN, hi⟩
    exact hi.imported hN hok.valid
  exact hinit.cases.imp (fun ⟨_, s, hs⟩ => ⟨s, hs⟩) id

/-- Two members as the build makes them: `./`, and `./hello.txt` with its text. -/
def helloMembers : List Member :=
  [⟨true, [], true, true, []⟩,
    ⟨true, [[104, 101, 108, 108, 111, 46, 116, 120, 116]], false, false,
      [70, 117, 110, 110, 121, 32, 116, 101, 120, 116, 10]⟩]

/-- The archive of the two, field by field; all other bytes are zero. -/
def helloTar : TarBytes := fun k =>
  let zeros : List UInt8 := List.replicate 9 48
  let fields : List (ℕ × List UInt8) :=
    [(0, [46, 47]), (124, zeros ++ [48, 48]), (156, [53]), (257, [117, 115, 116, 97, 114]),
      (512, [46, 47, 104, 101, 108, 108, 111, 46, 116, 120, 116]), (636, zeros ++ [49, 51]),
      (668, [48]), (769, [117, 115, 116, 97, 114]),
      (1024, [70, 117, 110, 110, 121, 32, 116, 101, 120, 116, 10])]
  fields.foldr (fun f rest => if f.1 ≤ k ∧ k < f.1 + f.2.length then f.2.getD (k - f.1) 0 else rest) 0

set_option maxRecDepth 2000 in
theorem vfsInit_imports_hello : Archive helloTar 2560 0 helloMembers ∧ Importable helloMembers ∧
      ((∃ s, vfsInit .endless (some (helloTar, 2560)) .boot = .done () s ∧
          Imported .endless helloMembers s) ∨
        ∃ s, vfsInit .endless (some (helloTar, 2560)) .boot = .halt s ∧ Refused .endless s) := by
  have hdir : HeaderAt helloTar 0 ⟨true, [], true, true, []⟩ :=
    ⟨by decide, by decide, ⟨List.replicate 11 48, by decide⟩, by decide, by decide, by decide,
      by decide⟩
  have hfile : HeaderAt helloTar 512 ⟨true, [[104, 101, 108, 108, 111, 46, 116, 120, 116]], false,
      false, [70, 117, 110, 110, 121, 32, 116, 101, 120, 116, 10]⟩ :=
    ⟨by decide, by decide, ⟨List.replicate 9 48 ++ [49, 51], by decide⟩, by decide, by decide,
      by decide, by decide⟩
  have ha : Archive helloTar 2560 0 helloMembers :=
    .member hdir (by decide) (.member hfile (by decide) (.done (.inr (by decide))))
  have hok : Importable helloMembers := by
    refine ⟨fun m hm => ?_, by decide, by decide, by decide⟩
    simp only [helloMembers, List.mem_cons, List.not_mem_nil, or_false] at hm
    rcases hm with rfl | rfl
    · exact ⟨by simp, by decide, by decide, by decide, by decide⟩
    · refine ⟨fun c hc => ?_, by decide, by decide, by decide, by decide⟩
      obtain rfl := List.mem_singleton.1 hc
      exact ⟨by decide, by decide, by decide, by decide, by decide, by decide⟩
  exact ⟨ha, hok, vfsInit_imports ha hok⟩

end Outcome

end Hvos.Fs
