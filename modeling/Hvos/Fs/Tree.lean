import Hvos.Fs.Vfs
import Mathlib.Data.List.Flatten
import Mathlib.Data.List.Pairwise

/-!
# Fs/Tree — the tree behind the pointers

A ramfs tree is a list of nodes in the order of their creation: the root, and nodes that each name
an earlier directory as their parent.  `Holds N s` says that the heap of `s` is the tree `N`, object
by object, and that everything else on it is a dentry without an inode or an open file.  Two changes
keep it: a new node (`Holds.link`) and new contents for a file (`Holds.rewrite`).
-/

namespace Hvos.Fs

open Function

/-! ## Nodes -/

/-- What a node holds: entries, which are the nodes below it, or bytes. -/
inductive Body
  | dir
  | file (size : ℕ) (data : FileData) (content : ℕ → UInt8)

namespace Body

/-- `i_size`. -/
def size : Body → ℕ
  | dir => 0
  | file n _ _ => n

/-- The buffer of a file, if it has one. -/
def buffers : Body → List Ptr
  | dir => []
  | file _ f _ => if f.buffer = 0 then [] else [f.buffer]

/-- The private data, given what the directory data would be. -/
def obj (entries : DirData) : Body → Obj
  | dir => .dir entries
  | file _ f _ => .file f

/-- The mode tells directories from files, and a file fits its buffer. -/
def Sound (mode : UInt32) : Body → Prop
  | dir => IsDir mode
  | file n f _ => ¬IsDir mode ∧ n ≤ f.capacity ∧ (f.buffer = 0 → f.capacity = 0)

end Body

/-- **A node**: a dentry with its inode and private data. -/
structure Node where
  dentry : Ptr
  inode : Ptr
  data : Ptr
  parent : Ptr
  name : CString
  ino : ℕ
  mode : UInt32
  body : Body

/-- The blocks a node owns. -/
def Node.ptrs (n : Node) : List Ptr := n.dentry :: n.inode :: n.data :: n.body.buffers

/-- A list of nodes, oldest first. -/
abbrev Nodes := List Node

namespace Nodes

variable (N : Nodes)

/-- The blocks of all nodes. -/
def ptrs : List Ptr := N.flatMap Node.ptrs

/-- The nodes that name `p` as their parent. -/
def kids (p : Ptr) : Nodes := N.filter (·.parent = p)

/-- The directory data of the dentry `p`. -/
def entries (p : Ptr) : DirData where
  children i := ((N.kids p).map Node.dentry).getD i 0
  childCount := (N.kids p).length

/-- New contents for the node with the dentry `p`. -/
def setBody (p : Ptr) (b : Body) : Nodes := N.map fun n => if n.dentry = p then { n with body := b } else n

end Nodes

/-- **Grown from a root**: every other node names an earlier directory. -/
inductive Rooted : Nodes → Prop
  | root {r : Node} (hparent : r.parent = 0) (hdir : r.body = .dir) : Rooted [r]
  | snoc {N : Nodes} {q n : Node} (h : Rooted N) (hq : q ∈ N) (hdir : q.body = .dir)
      (hparent : n.parent = q.dentry) : Rooted (N ++ [n])

/-- A well-formed tree. -/
structure Wf (N : Nodes) : Prop where
  rooted : Rooted N
  nodup : N.ptrs.Nodup
  ne_zero : 0 ∉ N.ptrs
  sound : ∀ n ∈ N, n.body.Sound n.mode
  few : ∀ n ∈ N, (N.kids n.dentry).length ≤ ramfsMaxChildren

/-- What else is on the heap: nothing, dentries that never were linked, and open files. -/
def Junk : Option Obj → Prop
  | none => True
  | some (.dentry d) => d.dInode = 0
  | some (.handle _) => True
  | some _ => False

/-- The objects of a node are where it says. -/
structure Placed (get : Ptr → Option Obj) (N : Nodes) (n : Node) : Prop where
  dentry : get n.dentry = some (.dentry ⟨n.name, n.inode, n.parent⟩)
  inode : get n.inode = some (.inode ⟨n.ino, n.mode, n.body.size, true, n.data⟩)
  data : get n.data = some (n.body.obj (N.entries n.dentry))
  buffer : ∀ {size f c}, n.body = .file size f c → f.buffer ≠ 0 →
    get f.buffer = some (.bytes f.capacity c)

/-- **The heap is the tree `N`**, and junk. -/
structure Holds (N : Nodes) (s : FsState) : Prop where
  wf : Wf N
  root : N.head?.map Node.dentry = some s.rootDentry
  placed : ∀ n ∈ N, Placed s.heap.get N n
  junk : ∀ p, p ∉ N.ptrs → Junk (s.heap.get p)

/-! ## Blocks and their owners -/

section Owners

variable {N : Nodes} {n m q : Node} {p : Ptr}

theorem Nodes.mem_ptrs : p ∈ N.ptrs ↔ ∃ n ∈ N, p ∈ n.ptrs := List.mem_flatMap

theorem Nodes.mem_kids : n ∈ N.kids p ↔ n ∈ N ∧ n.parent = p := by simp [Nodes.kids]

theorem Node.dentry_mem (n : Node) : n.dentry ∈ n.ptrs := by simp [Node.ptrs]

theorem Node.inode_mem (n : Node) : n.inode ∈ n.ptrs := by simp [Node.ptrs]

theorem Node.data_mem (n : Node) : n.data ∈ n.ptrs := by simp [Node.ptrs]

theorem Node.buffer_mem {size : ℕ} {f : FileData} {c : ℕ → UInt8} (h : n.body = .file size f c)
    (hf : f.buffer ≠ 0) : f.buffer ∈ n.ptrs := by
  simp [Node.ptrs, h, Body.buffers, hf]

/-- A block has one owner. -/
theorem Wf.owner_eq (h : Wf N) (hn : n ∈ N) (hm : m ∈ N) (hpn : p ∈ n.ptrs) (hpm : p ∈ m.ptrs) :
    n = m := by
  have hsymm : Std.Symm (onFun List.Disjoint Node.ptrs) := ⟨fun _ _ hd => hd.symm⟩
  by_contra hne
  exact (List.nodup_flatMap.1 h.nodup).2.forall hn hm hne hpn hpm

theorem Wf.dentry_inj (h : Wf N) (hn : n ∈ N) (hm : m ∈ N) (heq : n.dentry = m.dentry) : n = m :=
  h.owner_eq hn hm n.dentry_mem (heq ▸ m.dentry_mem)

theorem Wf.ptr_ne_zero (h : Wf N) (hn : n ∈ N) (hp : p ∈ n.ptrs) : p ≠ 0 := by
  rintro rfl
  exact h.ne_zero (Nodes.mem_ptrs.2 ⟨n, hn, hp⟩)

theorem Wf.nodup_dentries (h : Wf N) : (N.map Node.dentry).Nodup := by
  refine List.pairwise_map.2 ((List.nodup_flatMap.1 h.nodup).2.imp ?_)
  intro n m hdisj heq
  exact hdisj n.dentry_mem (heq ▸ m.dentry_mem)

end Owners

/-! ## Roots and parents -/

namespace Rooted

variable {N : Nodes} {n : Node}

/-- The first node is the root. -/
theorem exists_root (h : Rooted N) :
    ∃ r, N.head? = some r ∧ r ∈ N ∧ r.parent = 0 ∧ r.body = .dir := by
  induction h with
  | root hparent hdir => exact ⟨_, rfl, List.mem_singleton_self _, hparent, hdir⟩
  | snoc h hq hdir hparent ih =>
    obtain ⟨r, hr, hmem, hrest⟩ := ih
    exact ⟨r, by rw [List.head?_append, hr]; rfl, List.mem_append_left _ hmem, hrest⟩

/-- Every node but the root has its parent in the tree. -/
theorem exists_parent (h : Rooted N) (hn : n ∈ N) :
    N.head? = some n ∧ n.parent = 0 ∨ ∃ q ∈ N, q.body = .dir ∧ n.parent = q.dentry := by
  induction h with
  | root hparent hdir =>
    obtain rfl := List.mem_singleton.1 hn
    exact .inl ⟨rfl, hparent⟩
  | @snoc N q m h hq hdir hparent ih =>
    rcases List.mem_append.1 hn with hold | hnew
    · rcases ih hold with ⟨hhead, hz⟩ | ⟨q', hq', hrest⟩
      · exact .inl ⟨by rw [List.head?_append, hhead]; rfl, hz⟩
      · exact .inr ⟨q', List.mem_append_left _ hq', hrest⟩
    · obtain rfl := List.mem_singleton.1 hnew
      exact .inr ⟨q, List.mem_append_left _ hq, hdir, hparent⟩

/-- **A rule for what holds of the root and passes from parents to children.** -/
theorem induct (h : Rooted N) {P : Node → Prop} (hroot : ∀ r, N.head? = some r → r.parent = 0 → P r)
    (hstep : ∀ q n, q ∈ N → n ∈ N → q.body = .dir → n.parent = q.dentry → P q → P n) :
    ∀ n ∈ N, P n := by
  induction h with
  | root hparent hdir =>
    intro n hn
    obtain rfl := List.mem_singleton.1 hn
    exact hroot n rfl hparent
  | @snoc N q m h hq hdir hparent ih =>
    have hold : ∀ n ∈ N, P n := by
      refine ih (fun r hr hz => hroot r (by rw [List.head?_append, hr]; rfl) hz) ?_
      intro q' n hq' hn
      exact hstep q' n (List.mem_append_left _ hq') (List.mem_append_left _ hn)
    intro n hn
    rcases List.mem_append.1 hn with hn | hn
    · exact hold n hn
    · obtain rfl := List.mem_singleton.1 hn
      exact hstep q n (List.mem_append_left _ hq) (List.mem_append_right _ hn) hdir hparent
        (hold q hq)

end Rooted

/-! ## The heap and the tree -/

section Heap

variable {N : Nodes} {n m q : Node} {s s' : FsState} {p : Ptr}

theorem Placed.congr {get get' : Ptr → Option Obj} (h : Placed get N n)
    (hget : ∀ p ∈ n.ptrs, get' p = get p) : Placed get' N n where
  dentry := by rw [hget _ n.dentry_mem, h.dentry]
  inode := by rw [hget _ n.inode_mem, h.inode]
  data := by rw [hget _ n.data_mem, h.data]
  buffer hbody hf := by rw [hget _ (Node.buffer_mem hbody hf), h.buffer hbody hf]

/-- The blocks of the tree stay, and the rest stays junk. -/
theorem Holds.of_agree (h : Holds N s) (hroot : s'.rootDentry = s.rootDentry)
    (hget : ∀ p ∈ N.ptrs, s'.heap.get p = s.heap.get p)
    (hjunk : ∀ p, p ∉ N.ptrs → Junk (s'.heap.get p)) : Holds N s' where
  wf := h.wf
  root := by rw [h.root, hroot]
  placed n hn := (h.placed n hn).congr fun p hp => hget p (Nodes.mem_ptrs.2 ⟨n, hn, hp⟩)
  junk := hjunk

/-- **The blocks of the tree are those that are not junk.** -/
theorem Holds.mem_ptrs_iff (h : Holds N s) : p ∈ N.ptrs ↔ ¬Junk (s.heap.get p) := by
  refine ⟨fun hp => ?_, fun hj => by_contra fun hp => hj (h.junk p hp)⟩
  obtain ⟨n, hn, hmem⟩ := Nodes.mem_ptrs.1 hp
  have hpl := h.placed n hn
  have hino : n.inode ≠ 0 := h.wf.ptr_ne_zero hn n.inode_mem
  simp only [Node.ptrs, List.mem_cons] at hmem
  rcases hmem with rfl | rfl | rfl | hbuf
  · simpa [hpl.dentry, Junk] using hino
  · simp [hpl.inode, Junk]
  · rw [hpl.data]
    cases n.body <;> simp [Body.obj, Junk]
  · cases hb : n.body with
    | dir => simp [hb, Body.buffers] at hbuf
    | file size f c =>
      rw [hb, Body.buffers] at hbuf
      split_ifs at hbuf with hf
      · simp at hbuf
      · obtain rfl := List.mem_singleton.1 hbuf
        simp [hpl.buffer hb hf, Junk]

theorem Holds.not_mem (h : Holds N s) (hp : Junk (s.heap.get p)) : p ∉ N.ptrs := fun hmem =>
  h.mem_ptrs_iff.1 hmem hp

/-- A block outside the tree may become any junk. -/
theorem Holds.set_junk (h : Holds N s) {o : Obj} (hp : Junk (s.heap.get p)) (ho : Junk (some o)) :
    Holds N { s with heap := s.heap.set p o } := by
  refine h.of_agree rfl (fun r hr => ?_) fun r hr => ?_
  · have hne : r ≠ p := fun heq => h.not_mem hp (heq ▸ hr)
    exact s.heap.get_set_of_ne o hne
  · rcases eq_or_ne r p with rfl | hne
    · simpa using ho
    · rw [s.heap.get_set_of_ne o hne]
      exact h.junk r hr

/-- So may a free block become a dentry that is not linked. -/
theorem Holds.set_key (h : Holds N s) (hfree : s.heap.get p = none) (name : CString)
    (parent : Ptr) : Holds N { s with heap := s.heap.set p (.dentry ⟨name, 0, parent⟩) } :=
  h.set_junk (hfree ▸ trivial) rfl

/-- Junk may be freed. -/
theorem Holds.free_junk (h : Holds N s) (hp : Junk (s.heap.get p)) :
    Holds N { s with heap := s.heap.free p } := by
  refine h.of_agree rfl (fun r hr => ?_) fun r hr => ?_
  · have hne : r ≠ p := fun heq => h.not_mem hp (heq ▸ hr)
    exact s.heap.get_free_of_ne hne
  · rcases eq_or_ne r p with rfl | hne
    · simp [Junk]
    · rw [s.heap.get_free_of_ne hne]
      exact h.junk r hr

/-! ### A new node -/

theorem Nodes.kids_snoc (N : Nodes) (n : Node) (p : Ptr) :
    Nodes.kids (N ++ [n]) p = N.kids p ++ if n.parent = p then [n] else [] := by
  rw [Nodes.kids, List.filter_append, Nodes.kids]
  by_cases hp : n.parent = p <;> simp [hp]

theorem Nodes.entries_snoc_of_ne (hne : n.parent ≠ p) :
    Nodes.entries (N ++ [n]) p = N.entries p := by
  simp [Nodes.entries, Nodes.kids_snoc, hne]

/-- The entries with one more: the array is written where it was `0`. -/
theorem Nodes.entries_snoc (N : Nodes) (n : Node) : Nodes.entries (N ++ [n]) n.parent =
      { children := update (N.entries n.parent).children (N.entries n.parent).childCount n.dentry
        childCount := (N.entries n.parent).childCount + 1 } := by
  unfold Nodes.entries
  rw [Nodes.kids_snoc, if_pos rfl]
  congr 1
  · funext i
    rcases lt_trichotomy i (N.kids n.parent).length with hlt | heq | hgt
    · have hlt' : i < ((N.kids n.parent).map Node.dentry).length := by simpa using hlt
      simp [hlt, hlt.ne, List.getElem?_append_left hlt']
    · simp [heq]
    · have hold : ((N.kids n.parent).map Node.dentry).length ≤ i := by simpa using hgt.le
      have hnew : ((N.kids n.parent ++ [n]).map Node.dentry).length ≤ i := by
        rw [List.length_map, List.length_append]
        exact hgt
      simp only [update_of_ne hgt.ne', List.getD_eq_getElem?_getD, List.getElem?_eq_none hold,
        List.getElem?_eq_none hnew]
  · simp

/-- Nobody names a block outside the tree as parent. -/
theorem Wf.kids_eq_nil (h : Wf N) (hp : p ∉ N.ptrs) (hz : p ≠ 0) : N.kids p = [] := by
  rw [Nodes.kids, List.filter_eq_nil_iff]
  intro n hn
  rcases h.rooted.exists_parent hn with ⟨-, hzero⟩ | ⟨q, hq, -, heq⟩
  · simpa [hzero] using hz.symm
  · have hmem : n.parent ∈ N.ptrs := heq ▸ Nodes.mem_ptrs.2 ⟨q, hq, q.dentry_mem⟩
    have hne : n.parent ≠ p := fun heq' => hp (heq' ▸ hmem)
    simpa using hne

theorem Nodes.ptrs_snoc (N : Nodes) (n : Node) : Nodes.ptrs (N ++ [n]) = N.ptrs ++ n.ptrs := by
  simp [Nodes.ptrs, List.flatMap_append]

/-- The new node is no child of the others. -/
theorem Wf.parent_ne (h : Wf N) (hq : q ∈ N) (hparent : n.parent = q.dentry) (hm : m ∈ N)
    (hne : m ≠ q) : n.parent ≠ m.dentry := fun heq =>
  hne (h.dentry_inj hm hq (by rw [← heq, hparent]))

/-- A well-formed tree may take a node in below a directory that has room. -/
theorem Wf.snoc (h : Wf N) (hq : q ∈ N) (hdir : q.body = .dir)
    (hfew : (N.kids q.dentry).length < ramfsMaxChildren) (hparent : n.parent = q.dentry)
    (hsound : n.body.Sound n.mode) (hnodup : n.ptrs.Nodup) (hzero : 0 ∉ n.ptrs)
    (hnew : ∀ p ∈ n.ptrs, p ∉ N.ptrs) : Wf (N ++ [n]) := by
  refine ⟨.snoc h.rooted hq hdir hparent, ?_, ?_, ?_, ?_⟩
  · rw [Nodes.ptrs_snoc]
    refine List.nodup_append.2 ⟨h.nodup, hnodup, ?_⟩
    rintro a ha b hb rfl
    exact hnew a hb ha
  · rw [Nodes.ptrs_snoc, List.mem_append, not_or]
    exact ⟨h.ne_zero, hzero⟩
  · intro m hm
    rcases List.mem_append.1 hm with hm | hm
    · exact h.sound m hm
    · obtain rfl := List.mem_singleton.1 hm
      exact hsound
  · intro m hm
    rw [Nodes.kids_snoc]
    rcases List.mem_append.1 hm with hm | hm
    · rcases eq_or_ne m q with rfl | hne
      · rw [if_pos hparent, List.length_append, List.length_singleton]
        exact hfew
      · rw [if_neg (h.parent_ne hq hparent hm hne), List.append_nil]
        exact h.few m hm
    · obtain rfl := List.mem_singleton.1 hm
      have hz : m.dentry ≠ 0 := fun heq => hzero (heq ▸ m.dentry_mem)
      have hqm : q.dentry ≠ m.dentry := fun heq =>
        hnew _ m.dentry_mem (Nodes.mem_ptrs.2 ⟨q, hq, heq ▸ q.dentry_mem⟩)
      rw [h.kids_eq_nil (hnew _ m.dentry_mem) hz, if_neg (hparent.trans_ne hqm)]
      exact Nat.zero_le _

/-- The parent of the new node keeps its blocks but for the entries. -/
theorem Placed.relist {get get' : Ptr → Option Obj} {N' : Nodes} (h : Placed get N q)
    (hdir : q.body = .dir) (hnodup : q.ptrs.Nodup)
    (hget : ∀ p ∈ q.ptrs, p ≠ q.data → get' p = get p)
    (hdata : get' q.data = some (.dir (N'.entries q.dentry))) : Placed get' N' q := by
  simp only [Node.ptrs, hdir, Body.buffers, List.nodup_cons, List.mem_cons, List.not_mem_nil,
    or_false, not_or] at hnodup
  exact {
    dentry := by rw [hget _ q.dentry_mem hnodup.1.2, h.dentry]
    inode := by rw [hget _ q.inode_mem hnodup.2.1, h.inode]
    data := by rw [hdata, hdir]; rfl
    buffer := fun hb => by rw [hdir] at hb; cases hb }

/-- **A new node**: its own blocks are new, and its parent has one more entry. -/
theorem Holds.link (h : Holds N s) (hq : q ∈ N) (hdir : q.body = .dir)
    (hfew : (N.kids q.dentry).length < ramfsMaxChildren) (hparent : n.parent = q.dentry)
    (hsound : n.body.Sound n.mode) (hnodup : n.ptrs.Nodup) (hzero : 0 ∉ n.ptrs)
    (hnew : ∀ p ∈ n.ptrs, p ∉ N.ptrs) (hroot : s'.rootDentry = s.rootDentry)
    (hplaced : Placed s'.heap.get (N ++ [n]) n)
    (hdata : s'.heap.get q.data = some (.dir (Nodes.entries (N ++ [n]) q.dentry)))
    (hrest : ∀ p, p ∉ n.ptrs → p ≠ q.data → s'.heap.get p = s.heap.get p) :
    Holds (N ++ [n]) s' := by
  refine ⟨h.wf.snoc hq hdir hfew hparent hsound hnodup hzero hnew, ?_, fun m hm => ?_,
    fun p hp => ?_⟩
  · obtain ⟨r, hr, -⟩ := h.wf.rooted.exists_root
    rw [List.head?_append, hroot, ← h.root, hr]
    rfl
  · rcases List.mem_append.1 hm with hm | hm
    · have hkeep : ∀ p ∈ m.ptrs, p ≠ q.data → s'.heap.get p = s.heap.get p := fun p hp =>
        hrest p fun hpn => hnew p hpn (Nodes.mem_ptrs.2 ⟨m, hm, hp⟩)
      rcases eq_or_ne m q with rfl | hne
      · exact (h.placed m hm).relist hdir ((List.nodup_flatMap.1 h.wf.nodup).1 m hm) hkeep hdata
      · have hdisj : ∀ p ∈ m.ptrs, p ≠ q.data := fun p hp heq =>
          hne (h.wf.owner_eq hm hq hp (heq ▸ q.data_mem))
        have hpl := (h.placed m hm).congr fun p hp => hkeep p hp (hdisj p hp)
        refine ⟨hpl.dentry, hpl.inode, ?_, hpl.buffer⟩
        rw [Nodes.entries_snoc_of_ne (h.wf.parent_ne hq hparent hm hne)]
        exact hpl.data
    · obtain rfl := List.mem_singleton.1 hm
      exact hplaced
  · rw [Nodes.ptrs_snoc, List.mem_append, not_or] at hp
    rw [hrest p hp.2 fun heq => hp.1 (heq ▸ Nodes.mem_ptrs.2 ⟨q, hq, q.data_mem⟩)]
    exact h.junk p hp.1

/-! ### New contents -/

theorem Nodes.mem_setBody {b : Body} (h : Wf N) (hm : m ∈ N) :
    n ∈ N.setBody m.dentry b ↔ n = { m with body := b } ∨ n ∈ N ∧ n ≠ m := by
  rw [Nodes.setBody, List.mem_map]
  constructor
  · rintro ⟨x, hx, rfl⟩
    rcases eq_or_ne x m with rfl | hne
    · exact .inl (if_pos rfl)
    · rw [if_neg fun heq => hne (h.dentry_inj hx hm heq)]
      exact .inr ⟨hx, hne⟩
  · rintro (rfl | ⟨hn, hne⟩)
    · exact ⟨m, hm, if_pos rfl⟩
    · exact ⟨n, hn, if_neg fun heq => hne (h.dentry_inj hn hm heq)⟩

theorem Nodes.kids_setBody (N : Nodes) (p : Ptr) (b : Body) (q : Ptr) :
    (N.setBody p b).kids q = (N.kids q).setBody p b := by
  rw [Nodes.kids, Nodes.setBody, List.filter_map, Nodes.kids, Nodes.setBody]
  congr 2
  funext n
  simp only [comp_apply]
  split_ifs <;> rfl

/-- Contents are not part of a directory. -/
theorem Nodes.entries_setBody (N : Nodes) (p : Ptr) (b : Body) :
    (N.setBody p b).entries = N.entries := by
  have hdentries : ∀ M : Nodes, (M.setBody p b).map Node.dentry = M.map Node.dentry := by
    intro M
    rw [Nodes.setBody, List.map_map]
    refine List.map_congr_left fun n _ => ?_
    simp only [comp_apply]
    split_ifs <;> rfl
  have hlength : ∀ M : Nodes, (M.setBody p b).length = M.length := fun M => List.length_map _
  funext q
  simp only [Nodes.entries, Nodes.kids_setBody, hdentries, hlength]

theorem Nodes.head_setBody (N : Nodes) (p : Ptr) (b : Body) :
    (N.setBody p b).head?.map Node.dentry = N.head?.map Node.dentry := by
  cases N with
  | nil => rfl
  | cons n N =>
    simp only [Nodes.setBody, List.map_cons, List.head?_cons, Option.map_some]
    split_ifs <;> rfl

/-- A file can be rewritten, as nobody's parent. -/
theorem Rooted.setBody (h : Rooted N) {b : Body}
    (hfile : ∀ n ∈ N, n.dentry = p → n.body ≠ .dir) : Rooted (N.setBody p b) := by
  induction h with
  | @root r hparent hdir =>
    have hne : r.dentry ≠ p := fun heq => hfile r (List.mem_singleton_self r) heq hdir
    simpa [Nodes.setBody, hne] using Rooted.root hparent hdir
  | @snoc N q n h hq hdir hparent ih =>
    have hold := ih fun m hm => hfile m (List.mem_append_left _ hm)
    have hne : q.dentry ≠ p := fun heq => hfile q (List.mem_append_left _ hq) heq hdir
    have hq' : q ∈ N.setBody p b := List.mem_map.2 ⟨q, hq, if_neg hne⟩
    have heq : Nodes.setBody (N ++ [n]) p b =
        N.setBody p b ++ [if n.dentry = p then { n with body := b } else n] := by
      simp [Nodes.setBody]
    rw [heq]
    refine .snoc hold hq' hdir ?_
    split_ifs <;> exact hparent

section Rewrite

variable {b : Body}

/-- The blocks of the rewritten node are apart from those of the others. -/
theorem Wf.disjoint_setBody (h : Wf N) (hm : m ∈ N)
    (hnew : ∀ p ∈ { m with body := b }.ptrs, p ∈ m.ptrs ∨ p ∉ N.ptrs) (hn : n ∈ N) (hne : n ≠ m) :
    List.Disjoint n.ptrs { m with body := b }.ptrs := by
  intro p hpn hpm
  rcases hnew p hpm with hp | hp
  · exact hne (h.owner_eq hn hm hpn hp)
  · exact hp (Nodes.mem_ptrs.2 ⟨n, hn, hpn⟩)

theorem Wf.nodup_setBody (h : Wf N) (hm : m ∈ N) (hnodup : { m with body := b }.ptrs.Nodup)
    (hnew : ∀ p ∈ { m with body := b }.ptrs, p ∈ m.ptrs ∨ p ∉ N.ptrs) :
    (N.setBody m.dentry b).ptrs.Nodup := by
  refine List.nodup_flatMap.2 ⟨fun n hn => ?_, ?_⟩
  · rcases (Nodes.mem_setBody h hm).1 hn with rfl | ⟨hn, -⟩
    · exact hnodup
    · exact (List.nodup_flatMap.1 h.nodup).1 n hn
  · refine List.pairwise_map.2 ((List.nodup_flatMap.1 h.nodup).2.imp_of_mem ?_)
    intro x y hx hy hdisj
    have hupd : ∀ {z}, z ∈ N → z ≠ m → z.dentry ≠ m.dentry := fun hz hne heq =>
      hne (h.dentry_inj hz hm heq)
    rcases eq_or_ne x m with rfl | hxm
    · rcases eq_or_ne y x with rfl | hyx
      · exact absurd (hdisj y.dentry_mem y.dentry_mem) id
      · simp only [onFun, if_true, if_neg (hupd hy hyx)]
        exact (h.disjoint_setBody hm hnew hy hyx).symm
    · rcases eq_or_ne y m with rfl | hym
      · simp only [onFun, if_true, if_neg (hupd hx hxm)]
        exact h.disjoint_setBody hm hnew hx hxm
      · simpa only [onFun, if_neg (hupd hx hxm), if_neg (hupd hy hym)] using hdisj

/-- A well-formed tree may give a file new contents. -/
theorem Wf.setBody (h : Wf N) (hm : m ∈ N) (hold : m.body ≠ .dir) (hsound : b.Sound m.mode)
    (hnodup : { m with body := b }.ptrs.Nodup) (hzero : 0 ∉ { m with body := b }.ptrs)
    (hnew : ∀ p ∈ { m with body := b }.ptrs, p ∈ m.ptrs ∨ p ∉ N.ptrs) :
    Wf (N.setBody m.dentry b) := by
  refine ⟨h.rooted.setBody fun n hn heq => ?_, h.nodup_setBody hm hnodup hnew, fun hz => ?_,
    fun n hn => ?_, fun n hn => ?_⟩
  · rwa [h.dentry_inj hn hm heq]
  · obtain ⟨n, hn, hp⟩ := Nodes.mem_ptrs.1 hz
    rcases (Nodes.mem_setBody h hm).1 hn with rfl | ⟨hn, -⟩
    · exact hzero hp
    · exact h.ne_zero (Nodes.mem_ptrs.2 ⟨n, hn, hp⟩)
  · rcases (Nodes.mem_setBody h hm).1 hn with rfl | ⟨hn, -⟩
    · exact hsound
    · exact h.sound n hn
  · have hcount := congrArg DirData.childCount
      (congrFun (Nodes.entries_setBody N m.dentry b) n.dentry)
    simp only [Nodes.entries] at hcount
    rw [hcount]
    rcases (Nodes.mem_setBody h hm).1 hn with rfl | ⟨hn, -⟩
    · exact h.few m hm
    · exact h.few n hn

/-- **New contents for a file**: a buffer it gives up becomes junk, one it takes was junk before. -/
theorem Holds.rewrite (h : Holds N s) (hm : m ∈ N) (hold : m.body ≠ .dir)
    (hsound : b.Sound m.mode) (hnodup : { m with body := b }.ptrs.Nodup)
    (hzero : 0 ∉ { m with body := b }.ptrs)
    (hnew : ∀ p ∈ { m with body := b }.ptrs, p ∈ m.ptrs ∨ p ∉ N.ptrs)
    (hroot : s'.rootDentry = s.rootDentry)
    (hplaced : Placed s'.heap.get N { m with body := b })
    (hrest : ∀ p, p ∉ m.ptrs → p ∉ { m with body := b }.ptrs → s'.heap.get p = s.heap.get p)
    (hgone : ∀ p ∈ m.ptrs, p ∉ { m with body := b }.ptrs → Junk (s'.heap.get p)) :
    Holds (N.setBody m.dentry b) s' := by
  have hmem := @Nodes.mem_setBody N
  refine ⟨h.wf.setBody hm hold hsound hnodup hzero hnew, ?_, fun n hn => ?_, fun p hp => ?_⟩
  · rw [Nodes.head_setBody, hroot, h.root]
  · have hpl : Placed s'.heap.get N n := by
      rcases (hmem h.wf hm).1 hn with rfl | ⟨hn, hne⟩
      · exact hplaced
      · have hdisj := h.wf.disjoint_setBody hm hnew hn hne
        refine (h.placed n hn).congr fun p hp => hrest p (fun hpm => ?_) (hdisj hp)
        exact hne (h.wf.owner_eq hn hm hp hpm)
    exact ⟨hpl.dentry, hpl.inode, by rw [Nodes.entries_setBody]; exact hpl.data, hpl.buffer⟩
  · have hpm : p ∉ { m with body := b }.ptrs := fun hmp =>
      hp (Nodes.mem_ptrs.2 ⟨_, (hmem h.wf hm).2 (.inl rfl), hmp⟩)
    by_cases hpo : p ∈ m.ptrs
    · exact hgone p hpo hpm
    · rw [hrest p hpo hpm]
      refine h.junk p fun hpN => hp ?_
      obtain ⟨n, hn, hpn⟩ := Nodes.mem_ptrs.1 hpN
      have hne : n ≠ m := by
        rintro rfl
        exact hpo hpn
      exact Nodes.mem_ptrs.2 ⟨n, (hmem h.wf hm).2 (.inr ⟨hn, hne⟩), hpn⟩

end Rewrite

end Heap

end Hvos.Fs
