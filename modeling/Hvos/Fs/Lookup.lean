import Hvos.Fs.Paths
import Hvos.Fs.Shape

/-!
# Fs/Lookup — `vfs_lookup` against path resolution on the objects

What a path means, read off the dentries, inodes and directory data on the heap: one step for each
component, from the root.  `vfs_lookup` allocates a search key for every step it takes and compares
names cut to 31 characters; for paths with short components it returns what the recursion gives, and
of its keys nothing is left.
-/

namespace Hvos.Fs

open Prog

/-! ## The recursion -/

namespace FsState

variable (s : FsState)

/-- `d_name`, if `p` is a dentry. -/
def nameOf (p : Ptr) : Option CString :=
  match s.heap.get p with
  | some (.dentry d) => some d.dName
  | _ => none

/-- The inode of the dentry `p`. -/
def inodeOf (p : Ptr) : Option Inode :=
  match s.heap.get p with
  | some (.dentry d) =>
    match s.heap.get d.dInode with
    | some (.inode i) => some i
    | _ => none
  | _ => none

/-- The children of the dentry `p`, in order, if its inode is a directory. -/
def childrenOf (p : Ptr) : Option (List Ptr) :=
  match s.inodeOf p with
  | none => none
  | some i =>
    if IsDir i.iMode then
      match s.heap.get i.iPrivate with
      | some (.dir d) => some ((List.range d.childCount).map d.children)
      | _ => none
    else none

/-- **One component**: `.` stays, `..` goes to `d_parent` or stays at the root, and any other goes
to the first child of exactly that name. -/
def resolveStep (p : Ptr) (c : CString) : Option Ptr :=
  if c = dot then some p
  else if c = dotdot then some (if s.parent p = 0 then p else s.parent p)
  else (s.childrenOf p).bind fun children => children.find? fun q => s.nameOf q = some c

/-- Component by component; nothing as soon as a step fails. -/
def resolveFrom : List CString → Ptr → Option Ptr
  | [], p => some p
  | c :: cs, p => (s.resolveStep p c).bind (resolveFrom cs)

/-- **Path resolution**, from the root. -/
def resolve (path : CString) : Option Ptr := s.resolveFrom (components path) s.rootDentry

end FsState

/-! ## On a tree -/

section Tree

variable {K : Kmalloc} {N : Nodes} {n m q : Node} {s s' : FsState}

theorem Holds.nameOf_eq (h : Holds N s) (hn : n ∈ N) : s.nameOf n.dentry = some n.name := by
  rw [FsState.nameOf, (h.placed n hn).dentry]

theorem Holds.parent_eq (h : Holds N s) (hn : n ∈ N) : s.parent n.dentry = n.parent := by
  rw [FsState.parent, (h.placed n hn).dentry]

theorem Holds.inodeOf_eq (h : Holds N s) (hn : n ∈ N) :
    s.inodeOf n.dentry = some ⟨n.ino, n.mode, n.body.size, true, n.data⟩ := by
  rw [FsState.inodeOf, (h.placed n hn).dentry]
  dsimp only
  rw [(h.placed n hn).inode]

theorem Nodes.map_children (N : Nodes) (p : Ptr) :
    (List.range (N.entries p).childCount).map (N.entries p).children =
      (N.kids p).map Node.dentry := by
  refine List.ext_getElem (by simp [Nodes.entries]) fun k hk hk' => ?_
  rw [List.getElem_map, List.getElem_range, Nodes.children_eq (by simpa using hk'), List.getElem_map]
  rfl

theorem Holds.childrenOf_dir (h : Holds N s) (hn : n ∈ N) (hdir : n.body = .dir) :
    s.childrenOf n.dentry = some ((N.kids n.dentry).map Node.dentry) := by
  rw [FsState.childrenOf, h.inodeOf_eq hn]
  dsimp only
  rw [if_pos ((h.wf.isDir_iff hn).2 hdir), (h.dir_placed hn hdir).2]
  exact congrArg some (N.map_children n.dentry)

theorem Holds.childrenOf_file (h : Holds N s) (hn : n ∈ N) (hfile : n.body ≠ .dir) :
    s.childrenOf n.dentry = none := by
  rw [FsState.childrenOf, h.inodeOf_eq hn]
  exact if_neg fun hd => hfile ((h.wf.isDir_iff hn).1 hd)

/-- The first child by name, on the heap and in the tree. -/
theorem Holds.find_child (h : Holds N s) (q : Node) (c : CString) :
    ((N.kids q.dentry).map Node.dentry).find? (fun p => s.nameOf p = some c) =
      (N.child q c).map Node.dentry := by
  rw [List.find?_map, Nodes.child, ← List.head?_filter, ← List.head?_filter]
  refine congrArg (fun l => Option.map Node.dentry (List.head? l)) (List.filter_congr fun m hm => ?_)
  simp [h.nameOf_eq (Nodes.mem_kids.1 hm).1]

/-- **A walk and the recursion agree** on components that are short enough. -/
theorem Holds.resolveFrom_eq (h : Holds N s) {cs : List CString} (hcs : ∀ c ∈ cs, c.length ≤ 31)
    (hn : n ∈ N) : s.resolveFrom cs n.dentry = (N.walk cs n).map Node.dentry := by
  induction cs generalizing n with
  | nil => rfl
  | cons c cs ih =>
    have ih : ∀ {m}, m ∈ N → s.resolveFrom cs m.dentry = (N.walk cs m).map Node.dentry :=
      ih fun c hc => hcs c (List.mem_cons_of_mem _ hc)
    rw [FsState.resolveFrom, FsState.resolveStep, Nodes.walk]
    split_ifs with hdot hup hroot
    · exact ih hn
    · rw [h.parent_eq hn] at hroot
      have hup := h.wf.above_dentry hn
      rw [if_neg (not_not.2 hroot)] at hup
      rw [Option.bind_some, ← ih (Nodes.above_mem hn), hup]
    · rw [h.parent_eq hn] at hroot ⊢
      have hup := h.wf.above_dentry hn
      rw [if_pos hroot] at hup
      rw [Option.bind_some, ← ih (Nodes.above_mem hn), hup]
    · rw [List.take_of_length_le (hcs c List.mem_cons_self)]
      cases hb : n.body with
      | file size f content =>
        rw [h.childrenOf_file hn (by simp [hb])]
        rfl
      | dir =>
        rw [h.childrenOf_dir hn hb, Option.bind_some, h.find_child]
        cases hchild : N.child n c with
        | none => rfl
        | some m => exact ih (Nodes.child_mem hchild).1

/-- A path resolves to what `vfs_lookup` returns. -/
theorem Holds.resolve_eq (h : Holds N s) {path : CString} (hslash : path.head? = some slash)
    (hshort : ∀ c ∈ components path, c.length ≤ 31) :
    s.resolve path = (N.lookup (some path)).map Node.dentry := by
  obtain ⟨r, hr, hmem, -, -⟩ := h.wf.rooted.exists_root
  have hroot := h.root
  rw [hr] at hroot
  rw [FsState.resolve, ← Option.some.inj hroot, h.resolveFrom_eq hshort hmem, Nodes.lookup,
    if_pos hslash, tokens_eq_components hshort, hr]
  rfl

/-- **`vfs_lookup` is path resolution.**  On every tree and for every absolute path with components
of at most 31 characters, it returns the dentry the recursion gives, or `NULL` where that gives
nothing. Every object on the heap is as before, and every search key was allocated and freed once,
one after the other. -/
theorem vfsLookup_resolves (K : Kmalloc) (h : Planted s) {path : CString}
    (hslash : path.head? = some slash) (hshort : ∀ c ∈ components path, c.length ≤ 31) :
    s.resolve path ≠ some 0 ∧
      Ensures (vfsLookup K (some path)) s
        (fun r s' => r = (s.resolve path).getD 0 ∧ s'.heap.get = s.heap.get ∧ Borrowed K s s')
        (Refused K) := by
  obtain ⟨N, hN⟩ := h
  rw [hN.resolve_eq hslash hshort]
  constructor
  · rw [ne_eq, Option.map_eq_some_iff]
    rintro ⟨n, hn, hz⟩
    exact hN.wf.ptr_ne_zero (Nodes.lookup_mem hn) n.dentry_mem hz
  · refine (vfsLookup_borrows hN (some path)).imp ?_
    rintro r s' ⟨hborrowed, hr⟩
    exact ⟨hr, hborrowed.same.get, hborrowed⟩

end Tree

/-- The path `//a/.././a/`, in a file system with a directory `/a`. -/
def roundabout : CString := [slash, slash, 97, slash, 46, 46, slash, 46, slash, 97, slash]

/-- It leads to the dentry at 9. -/
theorem vfsLookup_resolves_roundabout :
    ∃ s, Run (callStep .endless) emptyFs oneDir s ∧ s.resolve roundabout = some 9 ∧
      Ensures (vfsLookup .endless (some roundabout)) s
        (fun r s' => r = 9 ∧ s'.heap.get = s.heap.get) (Refused .endless) := by
  have hrun : Run (callStep .endless) emptyFs oneDir _ := .of_exec rfl
  have hshort : ∀ c ∈ components roundabout, c.length ≤ 31 := by decide
  have hnine := vfsLookup_resolves .endless (planted_of_run rfl hrun) rfl hshort
  refine ⟨_, hrun, rfl, hnine.2.imp ?_⟩
  rintro r s' ⟨hr, hget, -⟩
  exact ⟨hr, hget⟩

end Hvos.Fs
