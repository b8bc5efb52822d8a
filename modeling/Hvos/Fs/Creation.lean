import Hvos.Fs.Chart
import Hvos.Fs.Shape

/-!
# Fs/Creation — what `vfs_create` and `vfs_mkdir` make, and what they leave

A new node is the last of its directory, so every path that led somewhere still leads there.  The
path it was made by leads to it if it led nowhere before: `vfs_split_path` and `next_path_token` cut
a path at the same places.  On the heap a creation should show as three new blocks, and a failure
not at all; a full directory and the search key of `vfs_mkdir` are in the way of that.
-/

namespace Hvos.Fs

open Prog

/-! ## Walks in a tree with one more node -/

variable {path : Option CString}

section Walk

variable {N : Nodes} {n m q r : Node}

theorem Wf.above_snoc (h' : Wf (N ++ [n])) (h : Wf N) (hm : m ∈ N) :
    Nodes.above (N ++ [n]) m = N.above m := by
  have hmem := Nodes.above_mem (List.mem_append_left [n] hm)
  refine h'.dentry_inj hmem (List.mem_append_left _ (Nodes.above_mem hm)) ?_
  rw [h'.above_dentry (List.mem_append_left _ hm), h.above_dentry hm]

theorem Nodes.child_snoc {c : CString} (hm : N.child q c = some m) :
    Nodes.child (N ++ [n]) q c = some m := by
  rw [Nodes.child, Nodes.kids_snoc, List.find?_append, show (N.kids q.dentry).find? _ = _ from hm]
  rfl

/-- The new node is found where there was nothing. -/
theorem Nodes.child_snoc_self (hparent : n.parent = q.dentry) (hnone : N.child q n.name = none) :
    Nodes.child (N ++ [n]) q n.name = some n := by
  rw [Nodes.child, Nodes.kids_snoc, List.find?_append, show (N.kids q.dentry).find? _ = _ from hnone,
    if_pos hparent]
  simp

/-- **A walk that ended somewhere still ends there.** -/
theorem Wf.walk_snoc (h' : Wf (N ++ [n])) (h : Wf N) {toks : List CString} (hq : q ∈ N)
    (hw : N.walk toks q = some m) : Nodes.walk (N ++ [n]) toks q = some m := by
  induction toks generalizing q with
  | nil => exact hw
  | cons token rest ih =>
    rw [Nodes.walk] at hw ⊢
    split_ifs at hw ⊢
    · exact ih hq hw
    · rw [h'.above_snoc h hq]
      exact ih (Nodes.above_mem hq) hw
    · cases hb : q.body with
      | file => simp [hb] at hw
      | dir =>
        simp only [hb] at hw
        obtain ⟨x, hx, hrest⟩ := Option.bind_eq_some_iff.1 hw
        dsimp only
        rw [Nodes.child_snoc hx]
        exact ih (Nodes.child_mem hx).1 hrest

theorem Wf.head_snoc (h : Wf N) (n : Node) : (N ++ [n]).head? = N.head? := by
  obtain ⟨r, hr, -⟩ := h.rooted.exists_root
  rw [List.head?_append, hr]
  rfl

/-- **A path that led somewhere still leads there.** -/
theorem Wf.lookup_snoc (h' : Wf (N ++ [n])) (h : Wf N) (hl : N.lookup path = some m) :
    Nodes.lookup (N ++ [n]) path = some m := by
  cases path with
  | none => cases hl
  | some path =>
    rw [Nodes.lookup] at hl ⊢
    split_ifs at hl ⊢
    obtain ⟨r, hr, hw⟩ := Option.bind_eq_some_iff.1 hl
    rw [h.head_snoc, hr]
    exact h'.walk_snoc h (List.mem_of_mem_head? hr) hw

/-! ## The path of a new node -/

theorem Nodes.lookup_slash (h : Wf N) : N.lookup (some [slash]) = N.head? := by
  obtain ⟨r, hr, -⟩ := h.rooted.exists_root
  simp [Nodes.lookup, tokens_eq, hr, Nodes.walk]

/-- The last component of a path, after the directory that `vfs_split_path` finds. -/
theorem Nodes.lookup_join (N : Nodes) {x c : CString}
    (hhead : (x ++ slash :: c).head? = some slash) (hne : c ≠ []) (hslash : slash ∉ c) :
    N.lookup (some (x ++ slash :: c)) =
      (N.lookup (some (if x = [] then [slash] else x))).bind (N.walk [c.take 31]) := by
  have hdir : (if x = [] then [slash] else x).head? = some slash := by
    cases x with
    | nil => rfl
    | cons a x => simpa using hhead
  have htoks : tokens (x ++ slash :: c) = tokens (if x = [] then [slash] else x) ++ [c.take 31] := by
    rw [tokens_eq, tokens_eq, components_append_slash, components_of_slash_not_mem hne hslash,
      List.map_append]
    cases x <;> simp
  rw [Nodes.lookup, Nodes.lookup, if_pos hhead, if_pos hdir, htoks, Option.bind_assoc]
  exact Option.bind_congr fun r _ => N.walk_append _ _ r

/-- Where a new entry goes, and what its path leads to. -/
theorem Nodes.target_cases {fileMax : ℕ} {name : CString}
    (ht : N.target path fileMax = some (q, name)) :
    path = some [slash] ∧ name = [] ∧ N.lookup (some [slash]) = some q ∨
      ∃ x, path = some (x ++ slash :: name) ∧ (x ++ slash :: name).head? = some slash ∧
        name ≠ [] ∧ slash ∉ name ∧
        N.lookup (some (if x = [] then [slash] else x)) = some q := by
  rw [Nodes.target] at ht
  cases hsplit : vfsSplitPath path 256 fileMax with
  | none => simp [hsplit] at ht
  | some dn =>
    obtain ⟨dir, base⟩ := dn
    simp only [hsplit] at ht
    cases hl : N.lookup (some dir) with
    | none => simp [hl] at ht
    | some q' =>
      simp only [hl] at ht
      obtain ⟨rfl, rfl⟩ : q' = q ∧ base = name := by
        cases hb : q'.body with
        | file => simp [hb] at ht
        | dir => simpa [hb] using ht
      rcases vfsSplitPath_cases hsplit with ⟨hpath, hnil, rfl⟩ | ⟨x, hpath, hhead, hne, hslash, rfl⟩
      · exact .inl ⟨hpath, hnil, hl⟩
      · exact .inr ⟨x, hpath, hhead, hne, hslash, hl⟩

/-- **A new node is found by the path it was made by**, if that led nowhere. -/
theorem Wf.lookup_new (h' : Wf (N ++ [n])) (h : Wf N) {fileMax : ℕ} {name : CString}
    (ht : N.target path fileMax = some (q, name)) (hparent : n.parent = q.dentry)
    (hname : n.name = name.take 31) (hnone : N.lookup path = none) :
    Nodes.lookup (N ++ [n]) path = some n := by
  obtain ⟨-, hdir⟩ := Nodes.target_mem ht
  rcases Nodes.target_cases ht with ⟨rfl, -⟩ | ⟨x, rfl, hhead, hne, hslash, hl⟩
  · obtain ⟨r, hr, -⟩ := h.rooted.exists_root
    rw [Nodes.lookup_slash h, hr] at hnone
    cases hnone
  · rw [Nodes.lookup_join N hhead hne hslash, hl, Option.bind_some, ← hname] at hnone
    rw [Nodes.lookup_join _ hhead hne hslash, h'.lookup_snoc h hl, Option.bind_some, ← hname]
    have hshort : n.name.take 31 = n.name := by rw [hname, List.take_take, min_self]
    rw [Nodes.walk] at hnone ⊢
    split_ifs at hnone ⊢
    · cases hnone
    · cases hnone
    · simp only [hdir, hshort, Nodes.walk, Option.bind_fun_some] at hnone ⊢
      exact Nodes.child_snoc_self hparent hnone

end Walk

/-! ## Visible, and nothing else disturbed -/

/-- `vfs_lookup` returns `p`. -/
def Finds (K : Kmalloc) (s : FsState) (path : Option CString) (p : Ptr) : Prop :=
  Ensures (vfsLookup K path) s (fun r s' => r = p ∧ Same s s') (Refused K)

/-- `p` is in a directory. -/
def Linked (s : FsState) (p : Ptr) : Prop := ∃ a k, Slot s a k p

/-- **A dentry that was made and linked**, with a new inode of this mode and new private data. -/
def Fresh (s s' : FsState) (p : Ptr) (mode : UInt32) (data : Obj) : Prop :=
  Linked s' p ∧ s.heap.get p = none ∧ ∃ d i, s'.heap.get p = some (.dentry d) ∧
    s.heap.get d.dInode = none ∧ s'.heap.get d.dInode = some (.inode i) ∧ i.iMode = mode ∧
    i.iSize = 0 ∧ s.heap.get i.iPrivate = none ∧ s'.heap.get i.iPrivate = some data

section Visible

variable {K K0 : Kmalloc} {N : Nodes} {n q : Node} {s s' s0 : FsState} {path : Option CString}
  {name : CString} {mode : UInt32}

theorem Holds.finds (h : Holds N s) (K : Kmalloc) (path : Option CString) :
    Finds K s path (Nodes.ptrOf (N.lookup path)) :=
  (vfsLookup_spec h path).imp fun _ _ hr => ⟨hr.2, hr.1⟩

theorem Holds.lookup_of_done (h : Holds N s) {p : Ptr} (hp : p ≠ 0)
    (hrun : vfsLookup K0 path s = .done p s0) : ∃ m, N.lookup path = some m ∧ m.dentry = p := by
  have hr := ((vfsLookup_spec h path).apply hrun).2
  cases hl : N.lookup path with
  | none => exact absurd (hr.trans (by rw [hl]; rfl)) hp
  | some m => exact ⟨m, rfl, by rw [hr, hl]; rfl⟩

theorem Holds.lookup_of_null (h : Holds N s) (hrun : vfsLookup K0 path s = .done 0 s0) :
    N.lookup path = none := by
  have hr := ((vfsLookup_spec h path).apply hrun).2
  rcases Nodes.ptrOf_cases h.wf (fun n (hn : N.lookup path = some n) => Nodes.lookup_mem hn) with
    ⟨hl, -⟩ | ⟨n, -, -, hp, hz⟩
  · exact hl
  · exact absurd (hr.trans hp).symm hz

/-- The last node of a tree is linked. -/
theorem Holds.linked_last (h : Holds (N ++ [n]) s) (hq : q ∈ N) (hdir : q.body = .dir)
    (hparent : n.parent = q.dentry) : Linked s n.dentry := by
  have hkid : n ∈ Nodes.kids (N ++ [n]) q.dentry := Nodes.mem_kids.2 ⟨by simp, hparent⟩
  obtain ⟨k, hk⟩ := List.mem_iff_getElem?.1 hkid
  exact ⟨q.data, k, h.slot_iff.2 ⟨q, List.mem_append_left _ hq, hdir, rfl, n, hk, rfl⟩⟩

/-- **A creation, seen from the path**: if it led nowhere, it leads to the new dentry. -/
theorem AddedOn.visible (h : Holds N s) {fileMax : ℕ} {others : List Ptr}
    (hadded : AddedOn N q (name.take 31) mode s s' others)
    (ht : N.target path fileMax = some (q, name)) (hnone : N.lookup path = none) :
    ∃ p, Fresh s s' p mode (emptyData mode) ∧ ∀ K1, Finds K1 s' path p := by
  obtain ⟨p, ino, data, num, htook, -, h'⟩ := hadded
  obtain ⟨hq, hdir⟩ := Nodes.target_mem ht
  set n : Node := ⟨p, ino, data, q.dentry, name.take 31, num, mode, newBody mode⟩ with hn
  have hlast := h'.placed n (List.mem_append_right _ (List.mem_singleton_self _))
  have hempty : Nodes.entries (N ++ [n]) p = ⟨fun _ => 0, 0⟩ := by
    have hnew : p ∉ N.ptrs := h.not_mem (by rw [htook.fresh p (by simp)]; trivial)
    have hz : p ≠ 0 := h'.wf.ptr_ne_zero
      (List.mem_append_right _ (List.mem_singleton_self _)) n.dentry_mem
    have hqp : n.parent ≠ p := fun heq => hnew (heq ▸ Nodes.mem_ptrs.2 ⟨q, hq, q.dentry_mem⟩)
    rw [Nodes.entries_snoc_of_ne hqp, Nodes.entries, h.wf.kids_eq_nil hnew hz]
    rfl
  refine ⟨p, ⟨h'.linked_last hq hdir rfl, htook.fresh p (by simp), _, _, hlast.dentry,
    htook.fresh ino (by simp), hlast.inode, rfl, newBody_size mode, htook.fresh data (by simp), ?_⟩,
    fun K1 => ?_⟩
  · rw [← newBody_obj, ← hempty]
    exact hlast.data
  · have hfound := h'.wf.lookup_new h.wf ht rfl rfl hnone
    have hfinds := h'.finds K1 path
    rwa [hfound] at hfinds

/-- A path that led somewhere still does, where the tree is the same or has one more node. -/
theorem Holds.still_finds (h : Holds N s) {p : Ptr} (hp : p ≠ 0)
    (hrun : vfsLookup K0 path s = .done p s0)
    (hs' : Holds N s' ∨ ∃ n, Holds (N ++ [n]) s') (K1 : Kmalloc) : Finds K1 s' path p := by
  obtain ⟨m, hl, rfl⟩ := h.lookup_of_done hp hrun
  rcases hs' with h' | ⟨n, h'⟩
  · have hfinds := h'.finds K1 path
    rwa [hl] at hfinds
  · have hfinds := h'.finds K1 path
    rwa [h'.wf.lookup_snoc h.wf hl] at hfinds

theorem vfsCreate_holds (h : Holds N s) {r : ℤ} (hrun : vfsCreate K path mode s = .done r s') :
    Holds N s' ∨ ∃ n, Holds (N ++ [n]) s' := by
  rcases (vfsCreate_spec h path mode).apply hrun with
    ⟨q, name, -, -, -, p, ino, data, num, h'⟩ | ⟨-, -, h'⟩
  · exact .inr ⟨_, h'⟩
  · exact .inl h'

theorem vfsMkdir_holds (h : Holds N s) {r : ℤ} (hrun : vfsMkdir K path mode s = .done r s') :
    Holds N s' ∨ ∃ n, Holds (N ++ [n]) s' := by
  rcases (vfsMkdir_spec h path mode).apply hrun with
    ⟨q, name, -, -, -, -, p, ino, data, num, h'⟩ | ⟨-, -, h'⟩
  · exact .inr ⟨_, h'⟩
  · exact .inl h'

theorem or_and_distrib (a b c : UInt32) : (a ||| b) &&& c = a &&& c ||| b &&& c :=
  UInt32.toBitVec_inj.1 BitVec.and_or_distrib_right

theorem emptyData_create (hmode : mode &&& 0xF000 = 0) :
    emptyData (sIfreg ||| mode) = .file ⟨0, 0⟩ := by
  refine if_neg (not_not.2 ?_)
  have hmask : mode &&& sIfdir = mode &&& 0xF000 &&& sIfdir := by
    rw [UInt32.and_assoc]
    rfl
  rw [or_and_distrib, hmask, hmode]
  decide

theorem emptyData_mkdir : emptyData (sIfdir ||| mode) = .dir ⟨fun _ => 0, 0⟩ := by
  refine if_pos fun hz => ?_
  rw [or_and_distrib, UInt32.or_eq_zero_iff] at hz
  exact absurd hz.1 (by decide)

/-- **Creation is visible and disturbs nothing.**  On every tree, where `vfs_lookup` finds nothing
at a path and `vfs_create` or `vfs_mkdir` with a mode without type bits returns 0, `vfs_lookup`
finds the dentry that was linked, with a new, empty inode of that type and mode; and after any call
that returns, every path that was found before is found to be the same dentry. -/
theorem creation_visible (K : Kmalloc) (h : Planted s) :
    (∀ {K0 path mode s0 s'}, mode &&& 0xF000 = 0 → vfsLookup K0 path s = .done 0 s0 →
      vfsCreate K path mode s = .done 0 s' →
        ∃ p, Fresh s s' p (sIfreg ||| mode) (.file ⟨0, 0⟩) ∧ ∀ K1, Finds K1 s' path p) ∧
    (∀ {K0 path mode s0 s'}, mode &&& 0xF000 = 0 → vfsLookup K0 path s = .done 0 s0 →
      vfsMkdir K path mode s = .done 0 s' →
        ∃ p, Fresh s s' p (sIfdir ||| mode) (.dir ⟨fun _ => 0, 0⟩) ∧ ∀ K1, Finds K1 s' path p) ∧
    ∀ {path mode r s'}, vfsCreate K path mode s = .done r s' ∨ vfsMkdir K path mode s = .done r s' →
      ∀ {K0 other p s0}, vfsLookup K0 other s = .done p s0 → p ≠ 0 → ∀ K1, Finds K1 s' other p := by
  obtain ⟨N, hN⟩ := h
  refine ⟨?_, ?_, ?_⟩
  · intro K0 path mode s0 s' hmode hnull hrun
    rcases (vfsCreate_ledger hN path mode).apply hrun with
      ⟨-, hr, -⟩ | ⟨q, name, ht, ⟨-, -, hadded⟩ | ⟨-, hr, -⟩⟩
    · exact absurd hr (lt_irrefl 0)
    · rw [← emptyData_create hmode]
      exact hadded.visible hN ht (hN.lookup_of_null hnull)
    · exact absurd hr (lt_irrefl 0)
  · intro K0 path mode s0 s' _ hnull hrun
    rcases (vfsMkdir_ledger hN path mode).apply hrun with
      ⟨-, hr, -⟩ | ⟨q, name, ht, ⟨-, hr, -⟩ | ⟨-, -, -, key, hadded⟩ | ⟨-, -, hr, -⟩⟩
    · exact absurd hr (lt_irrefl 0)
    · exact absurd hr (lt_irrefl 0)
    · rw [← emptyData_mkdir]
      exact hadded.visible hN ht (hN.lookup_of_null hnull)
    · exact absurd hr (lt_irrefl 0)
  · rintro path mode r s' (hrun | hrun) K0 other p s0 hfound hp K1
    · exact hN.still_finds hp hfound (vfsCreate_holds hN hrun) K1
    · exact hN.still_finds hp hfound (vfsMkdir_holds hN hrun) K1

end Visible

theorem emptyFs_planted : Planted emptyFs := planted_of_run (K := .endless) rfl (.nil emptyFs)

/-- `/f` in an empty file system. -/
theorem creation_visible_f :
    ∃ s', vfsCreate .endless (some [slash, 102]) 0o644 emptyFs = .done 0 s' ∧
      ∃ p, Fresh emptyFs s' p (sIfreg ||| 0o644) (.file ⟨0, 0⟩) ∧
        Finds .endless s' (some [slash, 102]) p := by
  have hnull : vfsLookup .endless (some [slash, 102]) emptyFs = .done 0 _ := rfl
  have hrun : vfsCreate .endless (some [slash, 102]) 0o644 emptyFs = .done 0 _ := rfl
  obtain ⟨p, hfresh, hfinds⟩ :=
    (creation_visible .endless emptyFs_planted).1 (by decide) hnull hrun
  exact ⟨_, hrun, p, hfresh, hfinds .endless⟩

/-! ## What is left on the heap -/

/-- **No trace**: a call that fails leaves every object as it was, and one that makes a dentry takes
three blocks, for the dentry, its inode and its private data. -/
structure Traceless (s : FsState) (r : ℤ) (s' : FsState) : Prop where
  failed : r < 0 → Same s s'
  made : r = 0 → ∃ p d i, Linked s' p ∧ s'.heap.get p = some (.dentry d) ∧
    s'.heap.get d.dInode = some (.inode i) ∧ Took s s' [p, d.dInode, i.iPrivate]

section Traceless

variable {K : Kmalloc} {N : Nodes} {q : Node} {s s' : FsState} {path : Option CString}
  {name : CString} {mode : UInt32} {r : ℤ}

theorem Traceless.of_same (hr : r < 0) (h : Same s s') : Traceless s r s' :=
  ⟨fun _ => h, fun hz => absurd hz hr.ne⟩

/-- A failure that takes a block leaves a trace. -/
theorem Took.not_traceless {p : Ptr} (h : Took s s' [p]) (hr : r < 0) : ¬Traceless s r s' :=
  fun ht => absurd (h.length_eq (ht.failed hr).took) (by simp)

/-- A new node is all there is to see iff nothing else was taken. -/
theorem AddedOn.traceless_iff (hq : q ∈ N) (hdir : q.body = .dir) {others : List Ptr}
    (h : AddedOn N q (name.take 31) mode s s' others) : Traceless s 0 s' ↔ others = [] := by
  obtain ⟨p, ino, data, num, htook, -, h'⟩ := h
  constructor
  · intro ht
    obtain ⟨p', d, i, -, -, -, htook'⟩ := ht.made rfl
    have hlen := htook.length_eq htook'
    rw [List.length_append, List.length_cons, List.length_cons, List.length_cons] at hlen
    simpa using hlen
  · rintro rfl
    have hlast := h'.placed _ (List.mem_append_right _ (List.mem_singleton_self _))
    exact ⟨fun hr => absurd hr (lt_irrefl 0), fun _ =>
      ⟨p, _, _, h'.linked_last hq hdir rfl, hlast.dentry, hlast.inode, htook⟩⟩

theorem vfsCreate_traceless_iff (h : Holds N s) (hrun : vfsCreate K path mode s = .done r s') :
    Traceless s r s' ↔ ∀ q name, N.target path 32 = some (q, name) → N.Room q := by
  rcases (vfsCreate_ledger h path mode).apply hrun with
    ⟨hnone, hr, hs⟩ | ⟨q, name, ht, ⟨hroom, rfl, hadded⟩ | ⟨hfull, hr, -, p, htook, -⟩⟩
  · exact iff_of_true (.of_same hr hs) fun q name ht => (nomatch hnone.symm.trans ht)
  · obtain ⟨hq, hdir⟩ := Nodes.target_mem ht
    refine iff_of_true ((hadded.traceless_iff hq hdir).2 rfl) fun q' name' ht' => ?_
    obtain ⟨rfl, -⟩ := Prod.mk.inj (Option.mem_unique ht ht')
    exact hroom
  · exact iff_of_false (htook.not_traceless hr) fun hall => hfull (hall q name ht)

theorem vfsMkdir_traceless_iff (h : Holds N s) (hrun : vfsMkdir K path mode s = .done r s') :
    Traceless s r s' ↔
      ∀ q name, N.target path 64 = some (q, name) → N.child q (name.take 31) ≠ none := by
  rcases (vfsMkdir_ledger h path mode).apply hrun with
    ⟨hnone, hr, hs⟩ | ⟨q, name, ht, ⟨htaken, hr, hs⟩ | ⟨hnew, -, rfl, key, hadded⟩ |
      ⟨hnew, -, hr, -, key, htook, -⟩⟩
  · exact iff_of_true (.of_same hr hs) fun q name ht => (nomatch hnone.symm.trans ht)
  · refine iff_of_true (.of_same hr hs) fun q' name' ht' => ?_
    obtain ⟨rfl, rfl⟩ := Prod.mk.inj (Option.mem_unique ht ht')
    exact htaken
  · obtain ⟨hq, hdir⟩ := Nodes.target_mem ht
    refine iff_of_false (fun htr => ?_) fun hall => hall q name ht hnew
    exact absurd ((hadded.traceless_iff hq hdir).1 htr) (List.cons_ne_nil key [])
  · exact iff_of_false (htook.not_traceless hr) fun hall => hall q name ht hnew

/-- **When a creation leaves no trace beyond what it makes**: `vfs_create` unless the directory it
would add to is full, `vfs_mkdir` only if it finds no directory to add to, or the name taken. -/
theorem creation_traceless_iff (K : Kmalloc) (h : Holds N s) :
    (∀ {path mode r s'}, vfsCreate K path mode s = .done r s' →
      (Traceless s r s' ↔ ∀ q name, N.target path 32 = some (q, name) → N.Room q)) ∧
    ∀ {path mode r s'}, vfsMkdir K path mode s = .done r s' →
      (Traceless s r s' ↔
        ∀ q name, N.target path 64 = some (q, name) → N.child q (name.take 31) ≠ none) :=
  ⟨vfsCreate_traceless_iff h, vfsMkdir_traceless_iff h⟩

end Traceless

/-- The first file of an empty file system is all there is to see. -/
theorem creation_traceless_iff_f :
    ∃ N s', Holds N emptyFs ∧ vfsCreate .endless (some [slash, 102]) 0o644 emptyFs = .done 0 s' ∧
      Traceless emptyFs 0 s' := by
  obtain ⟨r, hr⟩ := ramfsInit_spec.apply (show ramfsInit .endless .boot = .done () emptyFs from rfl)
  have hroom : ∀ q, Nodes.Room [r] q := fun q =>
    (List.length_filter_le _ [r]).trans_lt (show 1 < 32 by decide)
  have hrun : vfsCreate .endless (some [slash, 102]) 0o644 emptyFs = .done 0 _ := rfl
  have htrace := (creation_traceless_iff .endless hr).1 hrun
  exact ⟨_, _, hr, hrun, htrace.2 fun q _ _ => hroom q⟩

/-- **`vfs_mkdir("/a", 0)` succeeds, and leaves its search key**: the dentry at 7, without an inode,
besides the dentry, the inode and the data of the new directory. -/
theorem mkdir_leaves_key : ∃ s', vfsMkdir .endless (some [slash, 97]) 0 emptyFs = .done 0 s' ∧
      emptyFs.heap.get 7 = none ∧ s'.heap.get 7 = some (.dentry ⟨[97], 0, 5⟩) ∧
      ¬Traceless emptyFs 0 s' := by
  refine ⟨_, rfl, rfl, rfl, fun ht => ?_⟩
  obtain ⟨p, d, i, -, -, -, htook⟩ := ht.made rfl
  have hsub : [7, 9, 11, 13] ⊆ [p, d.dInode, i.iPrivate] := by
    intro x hx
    refine htook.mem_iff.2 ?_
    simp only [List.mem_cons, List.not_mem_nil, or_false] at hx
    rcases hx with rfl | rfl | rfl | rfl <;> exact ⟨rfl, fun hnone => nomatch hnone⟩
  have hlen := ((show [7, 9, 11, 13].Nodup by decide).subperm hsub).length_le
  simp at hlen

end Hvos.Fs
