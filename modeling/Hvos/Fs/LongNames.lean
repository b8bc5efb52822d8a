import Hvos.Fs.Creation

/-!
# Fs/LongNames — names that are cut

`next_path_token` and `alloc_dentry` cut a name to 31 characters, each on its own, and `vfs_mkdir`
takes names of up to 63.  A log of the names that entries were made by tells which of them can be
reached by another name: exactly those of 31 characters or more.
-/

namespace Hvos.Fs

open Prog

/-! ## Trees and the names they were built from -/

/-- A call that makes an entry. -/
inductive Make
  | mkdir (path : Option CString) (mode : UInt32)
  | create (path : Option CString) (mode : UInt32)

namespace Make

def path : Make → Option CString
  | mkdir path _ | create path _ => path

def run (K : Kmalloc) : Make → Prog FsState ℤ
  | mkdir path mode => vfsMkdir K path mode
  | create path mode => vfsCreate K path mode

/-- The size of the buffer for the name. -/
def fileMax : Make → ℕ
  | mkdir _ _ => 64
  | create _ _ => 32

end Make

/-- The dentries that were made, each with its name at full length. -/
abbrev NameLog := List (Ptr × CString)

/-- **A tree built by `vfs_mkdir` and `vfs_create`**, and the names it was built from. -/
inductive Built (K : Kmalloc) : FsState → NameLog → Prop
  | init {s : FsState} (h : ramfsInit K .boot = .done () s) : Built K s []
  | failed {s s' : FsState} {log : NameLog} {r : ℤ} (c : Make) (h : Built K s log)
      (hrun : c.run K s = .done r s') (hr : r ≠ 0) : Built K s' log
  | made {s s' : FsState} {log : NameLog} {path : CString} {p : Ptr} (c : Make) (h : Built K s log)
      (hpath : c.path = some path) (hrun : c.run K s = .done 0 s') (hnew : Linked s' p)
      (hold : ¬Linked s p) : Built K s' (log ++ [(p, baseName path)])

/-- **Only by its full name**: if `vfs_lookup` finds a path, then each component of it other than
`.` and `..` is the name that the entry it leads to was made by. -/
def FullNames (s : FsState) (log : NameLog) : Prop :=
  ∀ {K path p s'}, vfsLookup K (some path) s = .done p s' → p ≠ 0 →
    ∀ {before c after}, components path = before ++ c :: after → c ≠ dot → c ≠ dotdot →
      ∀ {K1 q s1}, vfsLookup K1 (some (joinPath (before ++ [c]))) s = .done q s1 → (q, c) ∈ log

/-! ## What a log says about the tree -/

/-- **The log of a tree.** -/
structure Logged (N : Nodes) (log : NameLog) : Prop where
  /-- What is in the log is in a directory that some path leads to, under the name as it was cut. -/
  node : ∀ p name, (p, name) ∈ log → slash ∉ name ∧ ∃ n ∈ N, n.dentry = p ∧
    n.name = name.take 31 ∧ ∃ dir q, N.lookup (some dir) = some q ∧ q.body = .dir ∧
      n.parent = q.dentry
  entry : ∀ n ∈ N, n.parent ≠ 0 → ∃ name, (n.dentry, name) ∈ log ∧ n.name = name.take 31
  unique : ∀ p a b, (p, a) ∈ log → (p, b) ∈ log → a = b

variable {path : CString}

section Log

variable {K : Kmalloc} {N : Nodes} {n m q : Node} {s s' : FsState} {log : NameLog} {p : Ptr}
  {name c : CString}

/-- What is linked: every node but the root. -/
theorem Holds.linked_iff (h : Holds N s) : Linked s p ↔ ∃ n ∈ N, n.parent ≠ 0 ∧ p = n.dentry := by
  constructor
  · rintro ⟨a, k, hslot⟩
    obtain ⟨q, hq, -, -, n, hk, rfl⟩ := h.slot_iff.1 hslot
    obtain ⟨hn, hparent⟩ := Nodes.mem_kids.1 (List.mem_of_getElem? hk)
    exact ⟨n, hn, hparent ▸ h.wf.ptr_ne_zero hq q.dentry_mem, rfl⟩
  · rintro ⟨n, hn, hz, rfl⟩
    rcases h.wf.rooted.exists_parent hn with ⟨-, hzero⟩ | ⟨q, hq, hdir, hparent⟩
    · exact absurd hzero hz
    · obtain ⟨k, hk⟩ := List.mem_iff_getElem?.1 (Nodes.mem_kids.2 ⟨hn, hparent⟩)
      exact ⟨q.data, k, h.slot_iff.2 ⟨q, hq, hdir, rfl, n, hk, rfl⟩⟩

theorem Logged.root {r : Node} (h : Wf [r]) : Logged [r] [] := by
  refine ⟨fun _ _ hmem => (nomatch hmem), fun n hn hz => ?_, fun _ _ _ hmem => (nomatch hmem)⟩
  obtain rfl := List.mem_singleton.1 hn
  exact absurd (h.head_parent rfl) hz

/-- The name that a new node is made by. -/
theorem Nodes.target_name {fileMax : ℕ} (ht : N.target (some path) fileMax = some (q, name)) :
    name = baseName path ∧ slash ∉ name ∧ ∃ dir, N.lookup (some dir) = some q := by
  rcases Nodes.target_cases ht with ⟨hpath, rfl, hl⟩ | ⟨x, hpath, -, -, hslash, hl⟩
  · cases hpath
    exact ⟨rfl, List.not_mem_nil, _, hl⟩
  · cases hpath
    exact ⟨(baseName_append_slash x hslash).symm, hslash, _, hl⟩

/-- **A new node and a new line.** -/
theorem Logged.snoc (hlog : Logged N log) (h : Wf N) (h' : Wf (N ++ [n]))
    (hdir : q.body = .dir) (hparent : n.parent = q.dentry) (hname : n.name = name.take 31)
    (hslash : slash ∉ name) {dir : CString} (hl : N.lookup (some dir) = some q) :
    Logged (N ++ [n]) (log ++ [(n.dentry, name)]) := by
  have hfresh : ∀ {m}, m ∈ N → m.dentry ≠ n.dentry := by
    intro m hm heq
    have hnd := h'.nodup_dentries
    rw [List.map_append, List.nodup_append] at hnd
    exact hnd.2.2 _ (List.mem_map_of_mem hm) _ (by simp) heq
  have hlogged : ∀ {a}, (n.dentry, a) ∉ log := by
    intro a hmem
    obtain ⟨-, m, hm, hd, -⟩ := hlog.node _ _ hmem
    exact hfresh hm hd
  refine ⟨fun p a hmem => ?_, fun m hm hz => ?_, fun p a b ha hb => ?_⟩
  · rcases List.mem_append.1 hmem with hmem | hmem
    · obtain ⟨hslash, m, hm, hd, hcut, dir, q', hl', hrest⟩ := hlog.node p a hmem
      exact ⟨hslash, m, List.mem_append_left _ hm, hd, hcut, dir, q', h'.lookup_snoc h hl', hrest⟩
    · obtain ⟨rfl, rfl⟩ := Prod.mk.inj (List.mem_singleton.1 hmem)
      exact ⟨hslash, n, by simp, rfl, hname, dir, q, h'.lookup_snoc h hl, hdir, hparent⟩
  · rcases List.mem_append.1 hm with hm | hm
    · obtain ⟨a, ha, hcut⟩ := hlog.entry m hm hz
      exact ⟨a, List.mem_append_left _ ha, hcut⟩
    · obtain rfl := List.mem_singleton.1 hm
      exact ⟨name, by simp, hname⟩
  · rcases List.mem_append.1 ha with ha | ha <;> rcases List.mem_append.1 hb with hb | hb
    · exact hlog.unique p a b ha hb
    · obtain ⟨rfl, -⟩ := Prod.mk.inj (List.mem_singleton.1 hb)
      exact absurd ha hlogged
    · obtain ⟨rfl, -⟩ := Prod.mk.inj (List.mem_singleton.1 ha)
      exact absurd hb hlogged
    · exact (Prod.mk.inj (List.mem_singleton.1 ha)).2.trans
        (Prod.mk.inj (List.mem_singleton.1 hb)).2.symm

/-- A call makes a node, or leaves the tree alone. -/
theorem Make.run_cases (c : Make) (h : Holds N s) {r : ℤ} (hrun : c.run K s = .done r s') :
    (∃ q name mode, N.target c.path c.fileMax = some (q, name) ∧ r = 0 ∧
      Added N q (name.take 31) mode s') ∨ r ≠ 0 ∧ Holds N s' := by
  cases c with
  | mkdir path mode =>
    rcases (vfsMkdir_spec h path mode).apply hrun with
      ⟨q, name, ht, -, -, hr, hadded⟩ | ⟨-, hr, h'⟩
    · exact .inl ⟨q, name, _, ht, hr, hadded⟩
    · exact .inr ⟨hr.ne, h'⟩
  | create path mode =>
    rcases (vfsCreate_spec h path mode).apply hrun with ⟨q, name, ht, -, hr, hadded⟩ | ⟨-, hr, h'⟩
    · exact .inl ⟨q, name, _, ht, hr, hadded⟩
    · exact .inr ⟨hr.ne, h'⟩

/-- **Every built tree has its log.** -/
theorem Built.logged (h : Built K s log) : ∃ N, Holds N s ∧ Logged N log := by
  induction h with
  | init h =>
    obtain ⟨r, hr⟩ := ramfsInit_spec.apply h
    exact ⟨[r], hr, .root hr.wf⟩
  | failed c _ hrun hr ih =>
    obtain ⟨N, hN, hlog⟩ := ih
    rcases c.run_cases hN hrun with ⟨-, -, -, -, hzero, -⟩ | ⟨-, h'⟩
    · exact absurd hzero hr
    · exact ⟨N, h', hlog⟩
  | @made s s' log path p c _ hpath hrun hnew hold ih =>
    obtain ⟨N, hN, hlog⟩ := ih
    rcases c.run_cases hN hrun with
      ⟨q, name, mode, ht, -, p', ino, data, num, h'⟩ | ⟨hne, -⟩
    · rw [hpath] at ht
      obtain ⟨-, hdir⟩ := Nodes.target_mem ht
      obtain ⟨rfl, hslash, dir, hl⟩ := Nodes.target_name ht
      -- What is linked now and was not before is the new node.
      obtain rfl : p = p' := by
        obtain ⟨m, hm, hz, rfl⟩ := h'.linked_iff.1 hnew
        rcases List.mem_append.1 hm with hm | hm
        · exact absurd (hN.linked_iff.2 ⟨m, hm, hz, rfl⟩) hold
        · rw [List.mem_singleton.1 hm]
      exact ⟨_, h', hlog.snoc hN.wf h'.wf hdir rfl rfl hslash hl⟩
    · exact absurd rfl hne

/-! ## Aliases -/

/-- A name shorter than 31 is not what is left of a longer one. -/
theorem eq_of_take_eq (h : c.take 31 = name) (hlt : name.length < 31) : c = name := by
  have hlen := congrArg List.length h
  rw [List.length_take] at hlen
  rwa [List.take_of_length_le (by omega)] at h

/-- A step to an entry. -/
theorem Nodes.walk_ordinary (hdot : c ≠ dot) (hup : c ≠ dotdot) :
    N.walk [c.take 31] q = match q.body with
      | .file _ _ _ => none
      | .dir => N.child q (c.take 31) := by
  have hdot' : c.take 31 ≠ dot := fun heq => hdot (eq_of_take_eq heq (by decide))
  have hup' : c.take 31 ≠ dotdot := fun heq => hup (eq_of_take_eq heq (by decide))
  rw [Nodes.walk, if_neg hdot', if_neg hup', List.take_take, min_self]
  cases q.body with
  | file => rfl
  | dir => exact Option.bind_fun_some _

/-- Only the components of a path matter. -/
theorem Nodes.lookup_joinPath (N : Nodes) (hhead : path.head? = some slash) {cs : List CString}
    (hne : cs ≠ []) (hcs : components path = cs) :
    N.lookup (some (joinPath cs)) = N.lookup (some path) := by
  have hparts : ∀ c ∈ cs, c ≠ [] ∧ slash ∉ c := fun c hc => mem_components (hcs ▸ hc)
  rw [Nodes.lookup, Nodes.lookup, if_pos (head_joinPath hne), if_pos hhead, tokens_eq, tokens_eq,
    components_joinPath hparts, hcs]

/-- The way to a component of a path that leads somewhere. -/
theorem Nodes.lookup_component {before after : List CString} (hl : N.lookup (some path) = some m)
    (hpath : components path = before ++ c :: after) (hdot : c ≠ dot) (hup : c ≠ dotdot) :
    ∃ q ∈ N, ∃ v, N.child q (c.take 31) = some v ∧
      N.lookup (some (joinPath (before ++ [c]))) = some v := by
  have hparts : ∀ x ∈ before ++ [c], x ≠ [] ∧ slash ∉ x := fun x hx =>
    have hmem : x ∈ components path := by
      rw [hpath, List.append_cons]
      exact List.mem_append_left after hx
    mem_components hmem
  rw [Nodes.lookup] at hl
  split_ifs at hl with hhead
  obtain ⟨r, hr, hw⟩ := Option.bind_eq_some_iff.1 hl
  have htoks : (components path).map (·.take 31) =
      (before.map (·.take 31) ++ [c.take 31]) ++ after.map (·.take 31) := by
    rw [hpath]
    simp
  rw [tokens_eq, htoks, Nodes.walk_append, Nodes.walk_append] at hw
  obtain ⟨v, hv, -⟩ := Option.bind_eq_some_iff.1 hw
  obtain ⟨q, hq, hstep⟩ := Option.bind_eq_some_iff.1 hv
  refine ⟨q, Nodes.walk_mem (List.mem_of_mem_head? hr) hq, v, ?_, ?_⟩
  · rw [Nodes.walk_ordinary hdot hup] at hstep
    cases hb : q.body with
    | file => simp [hb] at hstep
    | dir => simpa [hb] using hstep
  · rw [Nodes.lookup, if_pos (head_joinPath (by simp)), tokens_eq, components_joinPath hparts, hr,
      Option.bind_some, List.map_append, List.map_singleton, Nodes.walk_append]
    exact hv

/-- Where no name is long, every component is a full name. -/
theorem Logged.fullNames (hlog : Logged N log) (h : Holds N s)
    (hshort : ∀ p name, (p, name) ∈ log → name.length < 31) : FullNames s log := by
  intro K path p s' hrun hp before c after hpath hdot hup K1 q s1 hrun1
  obtain ⟨m, hl, -⟩ := h.lookup_of_done hp hrun
  obtain ⟨u, hu, v, hchild, hv⟩ := Nodes.lookup_component hl hpath hdot hup
  obtain ⟨hmem, hparent, hname⟩ := Nodes.child_mem hchild
  have hz : v.parent ≠ 0 := hparent ▸ h.wf.ptr_ne_zero hu u.dentry_mem
  obtain ⟨name, hlogged, hcut⟩ := hlog.entry v hmem hz
  have hlt := hshort _ _ hlogged
  rw [List.take_of_length_le hlt.le, hname] at hcut
  have hq : q = v.dentry := by
    rw [((vfsLookup_spec h _).apply hrun1).2, hv]
    rfl
  rw [hq, eq_of_take_eq hcut hlt]
  exact hlogged

/-- A path that leads somewhere is found, with memory enough. -/
theorem Holds.exists_done (h : Holds N s) (path : Option CString) :
    ∃ s', vfsLookup .endless path s = .done (Nodes.ptrOf (N.lookup path)) s' := by
  obtain ⟨r, s', hrun, -, rfl⟩ := ((vfsLookup_spec (K := .endless) h path).mono (fun _ _ => id)
    (fun _ hrefused => by obtain ⟨n, hn⟩ := hrefused; cases hn)).done
  exact ⟨s', hrun⟩

/-- **A long name has an alias**: of two longer names one at least was not given. -/
theorem Logged.not_fullNames (hlog : Logged N log) (h : Holds N s) (hmem : (p, name) ∈ log)
    (hlong : 31 ≤ name.length) : ¬FullNames s log := by
  intro hfull
  obtain ⟨hslash, n, hn, -, hcut, dir, q, hl, hdir, hparent⟩ := hlog.node p name hmem
  have hlen : n.name.length = 31 := by rw [hcut, List.length_take, min_eq_left hlong]
  have hhead : dir.head? = some slash := by
    rw [Nodes.lookup] at hl
    split_ifs at hl with hhead
    exact hhead
  have hdirne : dir ≠ [] := fun hnil => by simp [hnil] at hhead
  have hclean : slash ∉ n.name := fun hx => hslash (List.mem_of_mem_take (hcut ▸ hx))
  obtain ⟨v, hv⟩ : ∃ v, N.child q n.name = some v := by
    refine Option.isSome_iff_exists.1 (List.find?_isSome.2 ⟨n, Nodes.mem_kids.2 ⟨hn, hparent⟩, ?_⟩)
    simp
  have halias : ∀ b : UInt8, b ≠ slash → (v.dentry, n.name ++ [b]) ∈ log := by
    intro b hb
    set c := n.name ++ [b] with hc
    have hcut : c.take 31 = n.name := by rw [hc, List.take_append_of_le_length hlen.ge]; simp [hlen]
    have hne : c ≠ [] := by simp [hc]
    have hslash : slash ∉ c := by simp [hc, hclean, hb.symm]
    have hclen : c.length = 32 := by simp [hc, hlen]
    have hdot : c ≠ dot := fun heq => absurd (heq ▸ hclen) (by decide)
    have hup : c ≠ dotdot := fun heq => absurd (heq ▸ hclen) (by decide)
    have hcomp : components (dir ++ slash :: c) = components dir ++ c :: [] := by
      rw [components_append_slash, components_of_slash_not_mem hne hslash]
    have hlookup : N.lookup (some (dir ++ slash :: c)) = some v := by
      rw [Nodes.lookup_join N (List.head?_append_of_ne_nil _ hdirne ▸ hhead) hne hslash,
        if_neg hdirne, hl, Option.bind_some, Nodes.walk_ordinary hdot hup, hdir, hcut]
      exact hv
    have hjoin : N.lookup (some (joinPath (components dir ++ [c]))) = some v := by
      rw [← hlookup, N.lookup_joinPath (List.head?_append_of_ne_nil _ hdirne ▸ hhead) (by simp) hcomp]
    obtain ⟨s0, hrun0⟩ := h.exists_done (some (dir ++ slash :: c))
    obtain ⟨s1, hrun1⟩ := h.exists_done (some (joinPath (components dir ++ [c])))
    rw [hlookup] at hrun0
    rw [hjoin] at hrun1
    exact hfull hrun0 (h.wf.ptr_ne_zero (Nodes.lookup_mem hlookup) v.dentry_mem) hcomp hdot hup hrun1
  have heq := hlog.unique _ _ _ (halias 97 (by decide)) (halias 98 (by decide))
  simp at heq

end Log

/-- **Long names alias.**  In a tree built by `vfs_mkdir` and `vfs_create`, paths are found by full
names only if and only if every name that an entry was made by is shorter than 31 characters. -/
theorem fullNames_iff_short {K : Kmalloc} {s : FsState} {log : NameLog} (h : Built K s log) :
    FullNames s log ↔ ∀ p name, (p, name) ∈ log → name.length < 31 := by
  obtain ⟨N, hN, hlog⟩ := h.logged
  refine ⟨fun hfull p name hmem => ?_, hlog.fullNames hN⟩
  by_contra hlong
  exact hlog.not_fullNames hN hmem (not_lt.1 hlong) hfull

/-- The path of a name made of `n` times the letter `a`. -/
def manyAs (n : ℕ) : CString := slash :: List.replicate n 97

/-- The file system with one file, whose name is that. -/
def oneNamed (n : ℕ) : FsState := (vfsCreate .endless (some (manyAs n)) 0 emptyFs).state

theorem emptyFs_not_linked : ¬Linked emptyFs 7 := by
  rintro ⟨a, k, hslot⟩
  obtain ⟨N, hN⟩ := emptyFs_planted
  obtain ⟨d, -, hd, -⟩ := hN.treeShape.live a k 7 hslot
  exact nomatch hd

theorem oneNamed_built {n : ℕ}
    (hrun : vfsCreate .endless (some (manyAs n)) 0 emptyFs = .done 0 (oneNamed n))
    (hslot : Linked (oneNamed n) 7) : Built .endless (oneNamed n) [(7, baseName (manyAs n))] :=
  .made (.create (some (manyAs n)) 0) (.init rfl) rfl hrun hslot emptyFs_not_linked

/-- A name of 30 characters is its own. -/
theorem fullNames_iff_short_thirty : Built .endless (oneNamed 30) [(7, baseName (manyAs 30))] ∧
      FullNames (oneNamed 30) [(7, baseName (manyAs 30))] := by
  have hbuilt : Built .endless (oneNamed 30) [(7, baseName (manyAs 30))] :=
    oneNamed_built rfl ⟨3, 0, _, rfl, by decide, rfl⟩
  refine ⟨hbuilt, (fullNames_iff_short hbuilt).2 fun p name hmem => ?_⟩
  obtain ⟨-, rfl⟩ := Prod.mk.inj (List.mem_singleton.1 hmem)
  decide

/-- **A file with a name of 31 characters is found under one of 32.** -/
theorem alias_of_thirtyone : Built .endless (oneNamed 31) [(7, List.replicate 31 97)] ∧
      (∃ s', vfsLookup .endless (some (manyAs 32)) (oneNamed 31) = .done 7 s') ∧
      ¬FullNames (oneNamed 31) [(7, List.replicate 31 97)] := by
  refine ⟨oneNamed_built rfl ⟨3, 0, _, rfl, by decide, rfl⟩, ⟨_, rfl⟩, fun hfull => ?_⟩
  have hrun : vfsLookup .endless (some (manyAs 32)) (oneNamed 31) = .done 7 _ := rfl
  have hcomp : components (manyAs 32) = [] ++ List.replicate 32 97 :: [] := by decide
  exact absurd (hfull hrun (by decide) hcomp (by decide) (by decide) hrun) (by decide)

end Hvos.Fs
