import Hvos.Fs.LongNames
import Hvos.Fs.Lookup
import Hvos.Fs.Names

/-!
# Fs/Split — splitting a path agrees with resolving it

`vfs_split_path` cuts the string at its last slash; `vfs_lookup` reads tokens, passes repeated
slashes and follows `.` and `..`.  The part in front of the last slash has all components of the
path but the last, so that a lookup of the path is a lookup of the last component in what the other
part leads to (`split_agrees`).
-/

namespace Hvos.Fs

open Prog

/-! ## Looking up one name -/

section Child

variable (K : Kmalloc)

/-- A name looked up in a directory, with the `lookup` of its inode: `NULL` if it is none. -/
def lookupName (name : CString) (current : Ptr) : Prog FsState Ptr := do
  let d ← dentryAt current
  let i ← inodeAt d.dInode
  if ¬IsDir i.iMode then pure 0
  else if i.iOps = false then Prog.halt
  else do
    let searchDentry ← allocDentry K name 0 current
    let found ← ramfsLookup d.dInode searchDentry
    if found = 0 then do
      freeDentry searchDentry
      pure 0
    else pure found

/-- A name looked up in what a path leads to: `NULL` if that is nothing. -/
def lookupChild (dir name : CString) : Prog FsState Ptr := do
  let current ← vfsLookup K (some dir)
  if current = 0 then pure 0 else lookupName K name current

end Child

variable {K : Kmalloc} {N : Nodes} {n : Node} {s : FsState} {name : CString}

/-- The entry of a directory; a file has none. -/
def Nodes.entry (N : Nodes) (name : CString) (n : Node) : Option Node :=
  match n.body with
  | .file _ _ _ => none
  | .dir => N.child n (name.take 31)

/-- **A name looked up** is the entry of the directory, and nothing is left of the search key. -/
theorem lookupName_spec (h : Holds N s) (hn : n ∈ N) : Ensures (lookupName K name n.dentry) s
      (fun r s' => Same s s' ∧ r = Nodes.ptrOf (N.entry name n)) (Refused K) := by
  refine ensures_bind (ensures_dentryAt (h.placed n hn).dentry
    (ensures_bind (ensures_inodeAt (h.placed n hn).inode ?_)))
  unfold Nodes.entry
  cases hb : n.body with
  | file size f c =>
    have hmode : ¬IsDir n.mode := fun hd => by simp [(h.wf.isDir_iff hn).1 hd] at hb
    rw [if_pos hmode]
    exact ensures_pure ⟨.refl s, rfl⟩
  | dir =>
    rw [if_neg (not_not.2 ((h.wf.isDir_iff hn).2 hb)), if_neg Bool.noConfusion]
    refine ensures_bind (ensures_alloc fun key halloc => ?_)
    obtain ⟨hkey, hfree⟩ := K.fresh halloc
    have h1 := h.set_key hfree (name.take 31) n.dentry
    refine (ramfsLookup_spec h1 hn hb (Heap.get_set_self ..) hkey).bind fun r s' hr => ?_
    have hback : Borrowed K s { s with
        heap := (s.heap.set key (.dentry ⟨name.take 31, 0, n.dentry⟩)).free key } :=
      ⟨.cons halloc (.nil _), rfl, rfl⟩
    rcases hr with ⟨hnone, rfl, rfl⟩ | ⟨m, hm, rfl, rfl⟩
    · rw [if_pos rfl]
      refine ensures_bind (ensures_kfree hkey (ensures_pure ⟨hback.same, ?_⟩))
      simp [hnone, Nodes.ptrOf]
    · have hm0 : m.dentry ≠ 0 := h.wf.ptr_ne_zero (Nodes.child_mem hm).1 m.dentry_mem
      rw [if_neg hm0]
      refine ensures_pure ⟨hback.same, ?_⟩
      simp [hm, Nodes.ptrOf]

/-- A path looked up, and then a name. -/
theorem lookupChild_spec (h : Holds N s) (dir : CString) : Ensures (lookupChild K dir name) s
      (fun r s' => Same s s' ∧ r = Nodes.ptrOf ((N.lookup (some dir)).bind (N.entry name)))
      (Refused K) := by
  refine (vfsLookup_spec h (some dir)).bind fun p s1 ⟨hsame, hp⟩ => ?_
  rcases Nodes.ptrOf_cases h.wf (r := N.lookup (some dir)) fun n => Nodes.lookup_mem with
    ⟨hnone, hz⟩ | ⟨n, hn, hsome, hptr, hne⟩
  · rw [hp, if_pos hz, hnone]
    exact ensures_pure ⟨hsame, rfl⟩
  · rw [hp, hptr, if_neg hne, hsome]
    refine (lookupName_spec (h.same hsame) hn).imp fun r s' hr => ⟨hsame.trans hr.1, hr.2⟩

/-! ## Split paths -/

/-- **A path is its directory and a name.** -/
theorem Nodes.lookup_split (N : Nodes) {x : CString} (hhead : (x ++ slash :: name).head? = some slash)
    (hslash : slash ∉ name) (hname : Nameable name) : N.lookup (some (x ++ slash :: name)) =
      (N.lookup (some (if x = [] then [slash] else x))).bind (N.entry name) := by
  have hdir : (if x = [] then [slash] else x).head? = some slash := by
    cases x with
    | nil => rfl
    | cons a x => exact hhead
  have hparts : components (if x = [] then [slash] else x) = components x := by
    split_ifs with hx
    · rw [hx]
      rfl
    · rfl
  have hstep : N.walk [name.take 31] = N.entry name := by
    funext q
    rw [Nodes.walk_ordinary hname.2.1 hname.2.2]
    rfl
  rw [Nodes.lookup, Nodes.lookup, if_pos hhead, if_pos hdir, tokens_eq, tokens_eq,
    components_append_slash, components_of_slash_not_mem hname.1 hslash, hparts, List.map_append,
    List.map_singleton, Option.bind_assoc]
  refine congrArg _ (funext fun r => ?_)
  rw [Nodes.walk_append, hstep]

/-- The part in front of the last slash; the slash itself if there is nothing. -/
def dirName (path : CString) : CString :=
  let x := path.take (path.length - (baseName path).length - 1)
  if x = [] then [slash] else x

theorem dirName_append_slash (x : CString) (hslash : slash ∉ name) :
    dirName (x ++ slash :: name) = if x = [] then [slash] else x := by
  have hlast : (x ++ slash :: name).length - name.length - 1 = x.length := by
    simp only [List.length_append, List.length_cons]
    omega
  simp only [dirName, baseName_append_slash x hslash, hlast, List.take_left]

/-- **Splitting agrees with resolving**: what is returned fits its buffers with a `NUL` behind it,
has no slash in the name, and leads where the path leads; and only what cannot be split, or does not
fit, is refused. -/
structure SplitAgrees (K : Kmalloc) (s : FsState) (path : CString) (dirMax fileMax : ℕ) : Prop where
  split : ∀ d f, vfsSplitPath (some path) dirMax fileMax = some (d, f) →
    d.length < dirMax ∧ f.length < fileMax ∧ slash ∉ f ∧
      (Nameable f → ∃ r,
        Ensures (vfsLookup K (some path)) s (fun r' s' => Same s s' ∧ r' = r) (Refused K) ∧
        Ensures (lookupChild K d f) s (fun r' s' => Same s s' ∧ r' = r) (Refused K))
  refused : vfsSplitPath (some path) dirMax fileMax = none →
    path.head? ≠ some slash ∨ path.getLast? = some slash ∧ path ≠ [slash] ∨
      dirMax ≤ (dirName path).length ∨ fileMax ≤ (baseName path).length

/-- **Splitting a path agrees with resolving it**, on every tree, for every path and all sizes of
the buffers. -/
theorem split_agrees (K : Kmalloc) (h : Planted s) (path : CString) (dirMax fileMax : ℕ) :
    SplitAgrees K s path dirMax fileMax := by
  obtain ⟨N, h⟩ := h
  by_cases hhead : path.head? = some slash
  · obtain ⟨x, c, rfl, hslash⟩ := exists_last_slash hhead
    have heq : vfsSplitPath (some (x ++ slash :: c)) dirMax fileMax = _ :=
      vfsSplitPath_eq hhead hslash
    refine ⟨fun d f hsplit => ?_, fun hnone => .inr ?_⟩
    · rw [heq, ite_eq_iff] at hsplit
      obtain ⟨-, hsplit⟩ | ⟨hfits, hsplit⟩ := hsplit
      · cases hsplit
      cases hsplit
      simp only [not_or, Nat.not_le] at hfits
      refine ⟨hfits.2.1, hfits.2.2, hslash, fun hname => ?_⟩
      refine ⟨Nodes.ptrOf (N.lookup (some (x ++ slash :: c))), vfsLookup_spec h _, ?_⟩
      rw [N.lookup_split hhead hslash hname]
      exact lookupChild_spec h _
    · rw [heq, ite_eq_iff] at hnone
      obtain ⟨hbad, -⟩ | ⟨-, hnone⟩ := hnone
      · rw [dirName_append_slash x hslash, baseName_append_slash x hslash]
        refine hbad.imp_left ?_
        rintro ⟨rfl, hx⟩
        exact ⟨by simp, by simpa using hx⟩
      · cases hnone
  · refine ⟨fun d f hsplit => ?_, fun _ => .inl hhead⟩
    rcases vfsSplitPath_cases hsplit with ⟨hpath, -⟩ | ⟨x, hpath, hslash, -⟩
    · exact absurd (Option.some.inj hpath ▸ rfl) hhead
    · exact absurd (Option.some.inj hpath ▸ hslash) hhead

/-- The path `/a/../b`, in a file system with a directory `/a`. -/
theorem split_agrees_oneDir : ∃ s, Run (callStep .endless) emptyFs oneDir s ∧
    vfsSplitPath (some [slash, 97, slash, 46, 46, slash, 98]) 256 32 =
      some ([slash, 97, slash, 46, 46], [98]) ∧
    SplitAgrees .endless s [slash, 97, slash, 46, 46, slash, 98] 256 32 := by
  have hrun : Run (callStep .endless) emptyFs oneDir _ := .of_exec rfl
  exact ⟨_, hrun, by decide, split_agrees .endless (planted_of_run rfl hrun) _ 256 32⟩

end Hvos.Fs
