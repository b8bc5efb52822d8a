import Hvos.Fs.Contents
import Hvos.Fs.Tar
import Hvos.Lib.Runs

/-!
# Fs/Shape — every run keeps the shape of the tree

`ramfs_init` makes a tree of one node, and each call of `vfs_mkdir`, `vfs_create`, `vfs_lookup`,
`vfs_open` and `ramfs_from_tar` leaves a tree.  `TreeShape` says what that means for the objects on
the heap: who is linked where, how often, and what hangs on it.
-/

namespace Hvos.Fs

open Prog Memory Function

variable {K : Kmalloc} {N : Nodes} {s s' : FsState}

/-! ## `ramfs_init` -/

/-- The file system's part of the kernel at boot. -/
def FsState.boot : FsState := ⟨.empty, 0, 100⟩

/-- **The first tree.** -/
theorem ramfsInit_spec : Ensures (ramfsInit K) .boot (fun _ s => ∃ r, Holds [r] s) (Refused K) := by
  unfold ramfsInit
  refine ensures_bind (ensures_kmalloc fun ino hino _ => ?_)
  refine ensures_bind (ensures_kmalloc fun data hdata hdfree => ?_)
  refine ensures_modify_bind (ensures_bind (ensures_kmalloc fun p hp hpfree =>
    ensures_modify ?_))
  have hid : ino ≠ data := by
    rintro rfl
    simp at hdfree
  have hpi : p ≠ ino := by
    rintro rfl
    simp at hpfree
  have hpd : p ≠ data := by
    rintro rfl
    simp [Heap.get_set_of_ne _ _ hid.symm] at hpfree
  refine ⟨⟨p, ino, data, 0, [slash], 2, sIfdir, .dir⟩, ⟨.root rfl rfl, ?_, ?_, ?_, ?_⟩, rfl, ?_, ?_⟩
  · simp [Nodes.ptrs, Node.ptrs, Body.buffers, hpi, hpd, hid]
  · simp [Nodes.ptrs, Node.ptrs, Body.buffers, hp.symm, hino.symm, hdata.symm]
  · intro n hn
    obtain rfl := List.mem_singleton.1 hn
    show IsDir sIfdir
    decide
  · intro n hn
    obtain rfl := List.mem_singleton.1 hn
    simp [Nodes.kids, hp.symm]
  · intro n hn
    obtain rfl := List.mem_singleton.1 hn
    refine ⟨Heap.get_set_self .., ?_, ?_, fun hb => by cases hb⟩
    · rw [Heap.get_set_of_ne _ _ hpi.symm, Heap.get_set_self]
      rfl
    · rw [Heap.get_set_of_ne _ _ hpd.symm, Heap.get_set_of_ne _ _ hid.symm, Heap.get_set_self]
      simp [Nodes.entries, Nodes.kids, hp.symm, Body.obj]
  · intro r hr
    simp only [Nodes.ptrs, Node.ptrs, Body.buffers, List.flatMap_cons, List.flatMap_nil,
      List.append_nil, List.mem_cons, List.not_mem_nil, or_false, not_or] at hr
    rw [Heap.get_set_of_ne _ _ hr.1, Heap.get_set_of_ne _ _ hr.2.1, Heap.get_set_of_ne _ _ hr.2.2,
      Heap.get_set_of_ne _ _ hr.2.1]
    trivial

/-! ## `ramfs_from_tar` -/

theorem octalFrom_lt (str : ℕ → UInt8) (n i : ℕ) {acc : ℕ} (hacc : acc < 2 ^ 32) :
    octalFrom str n i acc < 2 ^ 32 := by
  induction n generalizing i acc with
  | zero => exact hacc
  | succ n ih =>
    rw [octalFrom]
    split_ifs
    · exact hacc
    · exact ih _ (Nat.mod_lt _ (by decide))

theorem TarBytes.fileSize_lt (tar : TarBytes) (offset : ℕ) : tar.fileSize offset < 2 ^ 32 :=
  octalFrom_lt _ _ _ (by decide)

/-- **Filling a file**: if the path leads to a file, it has exactly these bytes. -/
theorem fillFile_spec (h : Holds N s) (path : CString) (data : ℕ → UInt8) {n : ℕ}
    (hn : n < 2 ^ 32) : Ensures (fillFile K path data n) s
      (fun _ s' =>
        (∃ m size f0 c0 f c, N.lookup (some path) = some m ∧ m.body = .file size f0 c0 ∧
          (Capacity f0.capacity → Capacity f.capacity) ∧
          (∀ k < n, c k = data k) ∧ Leaves s s' [] ∧ Holds (N.setBody m.dentry (.file n f c)) s') ∨
        (∀ m, N.lookup (some path) = some m → m.body = .dir) ∧ Same s s') (Refused K) := by
  unfold fillFile
  refine (vfsOpen_spec h (some path)).bind ?_
  rintro p s1 (⟨m, hl, hfile, hp, hhandle, hopen, h1⟩ | ⟨hdir, rfl, hs⟩)
  swap
  · rw [if_pos rfl]
    exact ensures_pure (.inr ⟨hdir, hs⟩)
  have hm := Nodes.lookup_mem hl
  rw [if_neg hp]
  refine ensures_bind (ensures_handleAt hhandle ?_)
  rw [if_pos rfl]
  cases hb : m.body with
  | dir => exact absurd hb hfile
  | file size f c =>
    refine (ramfsWrite_spec h1 hm hb hhandle rfl data (n := n) (by omega) (fun _ => id)
      (by omega)).bind ?_
    rintro r s2 ⟨-, f2, c2, hcap, hgrown, h2, hkept, hbytes, -⟩
    set b2 : Body := .file (max size (0 + n)) f2 c2 with hb2
    have hm2 : { m with body := b2 } ∈ N.setBody m.dentry b2 :=
      (Nodes.mem_setBody h1.wf hm).2 (.inl rfl)
    refine ensures_bind (ensures_dentryAt (h2.placed _ hm2).dentry
      (ensures_bind (ensures_inodeAt (h2.placed _ hm2).inode ?_)))
    have hino : s2.heap.get m.inode = _ := (h2.placed _ hm2).inode
    have hhandle2 : s2.heap.get p = some (.handle ⟨m.dentry, 0, .ramfs, none⟩) :=
      (hkept p (.handle _) trivial).2 hhandle
    have hne : p ≠ m.inode := by
      rintro rfl
      rw [hino] at hhandle2
      simp at hhandle2
    have h3 : Holds ((N.setBody m.dentry b2).setBody m.dentry (.file n f2 c2))
        { s2 with heap := s2.heap.set m.inode (.inode ⟨m.ino, m.mode, n, true, m.data⟩) } := by
      obtain ⟨-, -, hbuffer⟩ := h2.file_placed hm2 hb2
      obtain ⟨-, -, -, hbuf⟩ := h2.file_apart hm2 hb2
      refine h2.overwrite hm2 hb2 (by omega) rfl (Heap.get_set_self ..) (fun hf => ?_)
        fun r hr _ => Heap.get_set_of_ne _ _ hr
      rw [Heap.get_set_of_ne _ _ (hbuf hf).2.1.symm, hbuffer hf]
    rw [Nodes.setBody_setBody] at h3
    rw [← Heap.get_set_of_ne s2.heap (.inode ⟨m.ino, m.mode, n, true, m.data⟩) hne] at hhandle2
    refine ensures_modify_bind (ensures_kfree hp (.inl
      ⟨m, size, f, c, f2, c2, hl, hb, hgrown.capacity, fun k hk => by simpa using hbytes k hk,
        ?_, h3.free_junk (hhandle2 ▸ trivial)⟩))
    have hset : Leaves s2 { s2 with
        heap := s2.heap.set m.inode (.inode ⟨m.ino, m.mode, n, true, m.data⟩) } [] :=
      .other (p := m.inode) (by simp [Stray, hino]) (by simp [Stray]) fun r hr =>
        Heap.get_set_of_ne _ _ hr
    exact (hopen.trans hkept.leaves).trans (hset.trans (.other (p := p) (by simp [Stray, hhandle2])
      (by simp [Stray]) fun r hr => Heap.get_free_of_ne _ hr))

/-- There is a tree on the heap. -/
def Planted (s : FsState) : Prop := ∃ N, Holds N s

/-- A tree with the property `P`. -/
def PlantedWith (P : Nodes → Prop) (s : FsState) : Prop := ∃ N, Holds N s ∧ P N

/-- What new nodes and new contents for files preserve. -/
structure Closed (P : Nodes → Prop) : Prop where
  add : ∀ {N : Nodes} {n : Node}, n.body = newBody n.mode → P N → P (N ++ [n])
  fill : ∀ {N : Nodes} {m : Node} {size size' : ℕ} {f f' : FileData} {c c' : ℕ → UInt8}, Wf N →
    m ∈ N → m.body = .file size f c → (Capacity f.capacity → Capacity f'.capacity) → P N →
    P (N.setBody m.dentry (.file size' f' c'))

theorem closed_true : Closed fun _ => True := ⟨fun _ _ => trivial, fun _ _ _ _ _ => trivial⟩

theorem planted_iff : Planted s ↔ PlantedWith (fun _ => True) s := by
  simp [Planted, PlantedWith]

section Closed

variable {P : Nodes → Prop} (hP : Closed P)

include hP

theorem PlantedWith.vfsCreate (h : PlantedWith P s) (path : Option CString) (mode : UInt32) :
    Ensures (vfsCreate K path mode) s (fun _ => PlantedWith P) (Refused K) := by
  obtain ⟨N, h, hN⟩ := h
  refine (vfsCreate_spec h path mode).imp ?_
  rintro r s' (⟨q, name, -, -, -, p, ino, data, num, h'⟩ | ⟨-, -, h'⟩)
  · exact ⟨_, h', hP.add rfl hN⟩
  · exact ⟨N, h', hN⟩

theorem PlantedWith.vfsMkdir (h : PlantedWith P s) (path : Option CString) (mode : UInt32) :
    Ensures (vfsMkdir K path mode) s (fun _ => PlantedWith P) (Refused K) := by
  obtain ⟨N, h, hN⟩ := h
  refine (vfsMkdir_spec h path mode).imp ?_
  rintro r s' (⟨q, name, -, -, -, -, p, ino, data, num, h'⟩ | ⟨-, -, h'⟩)
  · exact ⟨_, h', hP.add rfl hN⟩
  · exact ⟨N, h', hN⟩

theorem PlantedWith.fillFile (h : PlantedWith P s) (path : CString) (data : ℕ → UInt8) {n : ℕ}
    (hn : n < 2 ^ 32) : Ensures (fillFile K path data n) s (fun _ => PlantedWith P) (Refused K) := by
  obtain ⟨N, h, hN⟩ := h
  refine (fillFile_spec h path data hn).imp ?_
  rintro _ s' (⟨m, size, f0, c0, f, c, hl, hb, hcap, -, -, h'⟩ | ⟨-, hs⟩)
  · exact ⟨_, h', hP.fill h.wf (Nodes.lookup_mem hl) hb hcap hN⟩
  · exact ⟨N, h.same hs, hN⟩

/-- One member of an archive, whatever its bytes. -/
theorem PlantedWith.importMember (h : PlantedWith P s) (tar : TarBytes) (offset : ℕ) :
    Ensures (importMember K tar offset) s (fun _ => PlantedWith P) (Refused K) := by
  unfold Fs.importMember
  split_ifs
  · exact (h.vfsMkdir hP _ _).bind fun _ _ h' => ensures_pure h'
  · exact (h.vfsCreate hP _ _).bind fun _ s1 h1 => h1.fillFile hP _ _ (tar.fileSize_lt offset)
  · exact ensures_pure h

/-- **Any archive**, by induction on the rounds of the loop. -/
theorem PlantedWith.importFrom (tar : TarBytes) (tarSize n offset : ℕ) (h : PlantedWith P s) :
    Ensures (importFrom K tar tarSize n offset) s (fun _ => PlantedWith P) (Refused K) := by
  induction n generalizing offset s with
  | zero => exact ensures_pure h
  | succ n ih =>
    rw [Fs.importFrom]
    split_ifs
    · exact ensures_pure h
    · exact (h.importMember hP tar offset).bind fun _ s1 h1 => ih _ h1

end Closed

/-! ## What a tree is, on the heap -/

/-- `p` is `children[k]` of the directory data at `a`. -/
def Slot (s : FsState) (a : Ptr) (k : ℕ) (p : Ptr) : Prop :=
  ∃ dd, s.heap.get a = some (.dir dd) ∧ k < dd.childCount ∧ dd.children k = p

/-- `a` is the private data of the dentry `q`. -/
def DataOf (s : FsState) (q a : Ptr) : Prop :=
  ∃ d i, s.heap.get q = some (.dentry d) ∧ s.heap.get d.dInode = some (.inode i) ∧ i.iPrivate = a

/-- `d_parent`. -/
def FsState.parent (s : FsState) (p : Ptr) : Ptr :=
  match s.heap.get p with
  | some (.dentry d) => d.dParent
  | _ => 0

/-- **The shape of the tree.** -/
structure TreeShape (s : FsState) : Prop where
  /-- A dentry with an inode, other than the root, is linked once, below its `d_parent`. -/
  once : ∀ p d, s.heap.get p = some (.dentry d) → p ≠ s.rootDentry → d.dInode ≠ 0 →
    ∃ a k, Slot s a k p ∧ DataOf s d.dParent a ∧ ∀ a' k', Slot s a' k' p → a' = a ∧ k' = k
  /-- A dentry without one is linked nowhere. -/
  unlinked : ∀ p d, s.heap.get p = some (.dentry d) → d.dInode = 0 → ∀ a k, ¬Slot s a k p
  /-- What is linked is a dentry that has not been freed, with an inode. -/
  live : ∀ a k p, Slot s a k p → ∃ d i, s.heap.get p = some (.dentry d) ∧ d.dInode ≠ 0 ∧
    s.heap.get d.dInode = some (.inode i)
  few : ∀ a dd, s.heap.get a = some (.dir dd) → dd.childCount ≤ ramfsMaxChildren
  /-- `S_IFDIR` inodes and only they carry directory data. -/
  kind : ∀ p i, s.heap.get p = some (.inode i) →
    (IsDir i.iMode ↔ ∃ dd, s.heap.get i.iPrivate = some (.dir dd))
  reach : ∀ a k p, Slot s a k p → ∃ n, s.parent^[n] p = s.rootDentry

section TreeShape

variable {n m q : Node} {p a : Ptr}

section

variable (h : Holds N s)
include h

/-- Which object of a node a pointer is to. -/
theorem Holds.owner_cases {o : Obj} (hp : s.heap.get p = some o) (ho : ¬Junk (some o)) :
    ∃ n ∈ N, p = n.dentry ∧ o = .dentry ⟨n.name, n.inode, n.parent⟩ ∨
      p = n.inode ∧ o = .inode ⟨n.ino, n.mode, n.body.size, true, n.data⟩ ∨
      p = n.data ∧ o = n.body.obj (N.entries n.dentry) ∨ ∃ len c, o = .bytes len c := by
  obtain ⟨n, hn, hmem⟩ := Nodes.mem_ptrs.1 (h.mem_ptrs_iff.2 (hp ▸ ho))
  have hpl := h.placed n hn
  refine ⟨n, hn, ?_⟩
  simp only [Node.ptrs, List.mem_cons] at hmem
  rcases hmem with rfl | rfl | rfl | hbuf
  · exact .inl ⟨rfl, Option.mem_unique hp hpl.dentry⟩
  · exact .inr (.inl ⟨rfl, Option.mem_unique hp hpl.inode⟩)
  · exact .inr (.inr (.inl ⟨rfl, Option.mem_unique hp hpl.data⟩))
  · cases hb : n.body with
    | dir => simp [hb, Body.buffers] at hbuf
    | file size f c =>
      rw [hb, Body.buffers] at hbuf
      split_ifs at hbuf with hf
      · simp at hbuf
      · obtain rfl := List.mem_singleton.1 hbuf
        exact .inr (.inr (.inr ⟨_, _, Option.some.inj (hp.symm.trans (hpl.buffer hb hf))⟩))

theorem Holds.dentry_iff {d : Dentry} (hd : d.dInode ≠ 0) :
    s.heap.get p = some (.dentry d) ↔
      ∃ n ∈ N, p = n.dentry ∧ d = ⟨n.name, n.inode, n.parent⟩ := by
  constructor
  · intro hp
    obtain ⟨n, hn, ⟨hpn, ho⟩ | ⟨-, ho⟩ | ⟨-, ho⟩ | ⟨_, _, ho⟩⟩ := h.owner_cases hp hd
    · exact ⟨n, hn, hpn, by cases ho; rfl⟩
    · cases ho
    · cases hb : n.body <;> simp [hb, Body.obj] at ho
    · cases ho
  · rintro ⟨n, hn, rfl, rfl⟩
    exact (h.placed n hn).dentry

theorem Holds.node_of_inode {i : Inode} (hp : s.heap.get p = some (.inode i)) :
    ∃ n ∈ N, p = n.inode ∧ i = ⟨n.ino, n.mode, n.body.size, true, n.data⟩ := by
  obtain ⟨n, hn, ⟨-, ho⟩ | ⟨hpn, ho⟩ | ⟨-, ho⟩ | ⟨_, _, ho⟩⟩ := h.owner_cases hp id
  · cases ho
  · exact ⟨n, hn, hpn, by cases ho; rfl⟩
  · cases hb : n.body <;> simp [hb, Body.obj] at ho
  · cases ho

theorem Holds.dir_iff {dd : DirData} : s.heap.get p = some (.dir dd) ↔
      ∃ n ∈ N, p = n.data ∧ n.body = .dir ∧ dd = N.entries n.dentry := by
  constructor
  · intro hp
    obtain ⟨n, hn, ⟨-, ho⟩ | ⟨-, ho⟩ | ⟨hpn, ho⟩ | ⟨_, _, ho⟩⟩ := h.owner_cases hp id
    · cases ho
    · cases ho
    · cases hb : n.body with
      | dir =>
        rw [hb] at ho
        exact ⟨n, hn, hpn, hb, by cases ho; rfl⟩
      | file size f c => simp [hb, Body.obj] at ho
    · cases ho
  · rintro ⟨n, hn, rfl, hdir, rfl⟩
    exact (h.dir_placed hn hdir).2

/-- The slots of the heap are the entries of the tree. -/
theorem Holds.slot_iff {k : ℕ} :
    Slot s a k p ↔ ∃ q ∈ N, q.body = .dir ∧ a = q.data ∧
      ∃ n, (N.kids q.dentry)[k]? = some n ∧ p = n.dentry := by
  constructor
  · rintro ⟨dd, ha, hk, rfl⟩
    obtain ⟨q, hq, rfl, hdir, rfl⟩ := h.dir_iff.1 ha
    have hk' : k < (N.kids q.dentry).length := hk
    exact ⟨q, hq, hdir, rfl, _, List.getElem?_eq_getElem hk', Nodes.children_eq hk'⟩
  · rintro ⟨q, hq, hdir, rfl, n, hn, rfl⟩
    obtain ⟨hk, rfl⟩ := List.getElem?_eq_some_iff.1 hn
    exact ⟨_, (h.dir_placed hq hdir).2, hk, Nodes.children_eq hk⟩

/-- **Upwards to the root**: by induction from parents to children. -/
theorem Holds.reach : ∀ n ∈ N, ∃ k, s.parent^[k] n.dentry = s.rootDentry := by
  refine h.wf.rooted.induct (fun r hr _ => ⟨0, ?_⟩) ?_
  · have hroot := h.root
    rw [hr] at hroot
    exact Option.some.inj hroot
  · rintro q n - hn - hparent ⟨k, hk⟩
    refine ⟨k + 1, ?_⟩
    have hstep : s.parent n.dentry = q.dentry := by
      rw [FsState.parent, (h.placed n hn).dentry, hparent]
    rw [iterate_succ_apply, hstep, hk]

/-- **The heap of a tree has its shape.** -/
theorem Holds.treeShape : TreeShape s where
  once p d hp hroot hd := by
    obtain ⟨n, hn, rfl, rfl⟩ := (h.dentry_iff hd).1 hp
    obtain ⟨hhead, -⟩ | ⟨q, hq, hdir, hparent⟩ := h.wf.rooted.exists_parent hn
    · have heq := h.root
      rw [hhead] at heq
      exact absurd (Option.some.inj heq) hroot
    have hkid : n ∈ N.kids q.dentry := Nodes.mem_kids.2 ⟨hn, hparent⟩
    obtain ⟨k, hk⟩ := List.mem_iff_getElem?.1 hkid
    refine ⟨q.data, k, h.slot_iff.2 ⟨q, hq, hdir, rfl, n, hk, rfl⟩,
      ⟨_, _, hparent ▸ (h.placed q hq).dentry, (h.placed q hq).inode, rfl⟩, ?_⟩
    intro a' k' hslot
    obtain ⟨q', hq', -, rfl, n', hk', heq⟩ := h.slot_iff.1 hslot
    have hn' := Nodes.mem_kids.1 (List.mem_of_getElem? hk')
    obtain rfl := h.wf.dentry_inj hn hn'.1 heq
    obtain rfl := h.wf.dentry_inj hq hq' (hparent.symm.trans hn'.2)
    have hnd : (N.kids q.dentry).Nodup := (h.wf.nodup_dentries.of_map _).filter _
    exact ⟨rfl, (List.getElem?_inj (List.getElem?_eq_some_iff.1 hk').1 hnd).1 (hk'.trans hk.symm)⟩
  unlinked p d hp hd a k hslot := by
    obtain ⟨q, -, -, -, n, hk, rfl⟩ := h.slot_iff.1 hslot
    have hn := (Nodes.mem_kids.1 (List.mem_of_getElem? hk)).1
    rw [(h.placed n hn).dentry] at hp
    cases hp
    exact h.wf.ptr_ne_zero hn n.inode_mem hd
  live a k p hslot := by
    obtain ⟨q, -, -, -, n, hk, rfl⟩ := h.slot_iff.1 hslot
    have hn := (Nodes.mem_kids.1 (List.mem_of_getElem? hk)).1
    exact ⟨_, _, (h.placed n hn).dentry, h.wf.ptr_ne_zero hn n.inode_mem, (h.placed n hn).inode⟩
  few a dd ha := by
    obtain ⟨q, hq, -, -, rfl⟩ := h.dir_iff.1 ha
    exact h.wf.few q hq
  kind p i hp := by
    obtain ⟨n, hn, -, rfl⟩ := h.node_of_inode hp
    have hdata := (h.placed n hn).data
    rw [h.wf.isDir_iff hn]
    cases hb : n.body with
    | dir =>
      rw [hb] at hdata
      exact ⟨fun _ => ⟨_, hdata⟩, fun _ => rfl⟩
    | file size f c =>
      rw [hb] at hdata
      refine ⟨(nomatch ·), fun ⟨dd, hdd⟩ => ?_⟩
      rw [show s.heap.get n.data = _ from hdata] at hdd
      cases hdd
  reach a k p hslot := by
    obtain ⟨q, -, -, -, n, hk, rfl⟩ := h.slot_iff.1 hslot
    exact h.reach n (Nodes.mem_kids.1 (List.mem_of_getElem? hk)).1

end

end TreeShape

/-! ## Every run -/

/-- A call into the file system. -/
inductive Call
  | mkdir (path : Option CString) (mode : UInt32)
  | create (path : Option CString) (mode : UInt32)
  | lookup (path : Option CString)
  | openFile (path : Option CString)
  | fromTar (tar : TarBytes) (tarSize : ℕ)

/-- The call, without its result. -/
def Call.run (K : Kmalloc) : Call → Prog FsState Unit
  | .mkdir path mode => do let _ ← vfsMkdir K path mode
  | .create path mode => do let _ ← vfsCreate K path mode
  | .lookup path => do let _ ← vfsLookup K path
  | .openFile path => do let _ ← vfsOpen K path
  | .fromTar tar tarSize => ramfsFromTar K tar tarSize

/-- The state a call returns in. -/
def callStep (K : Kmalloc) (c : Call) (s : FsState) : Option FsState :=
  match c.run K s with
  | .done _ s' => some s'
  | .halt _ => none

section Runs

variable {P : Nodes → Prop}

theorem PlantedWith.run (hP : Closed P) (h : PlantedWith P s) (c : Call) :
    Ensures (c.run K) s (fun _ => PlantedWith P) (Refused K) := by
  cases c with
  | mkdir path mode => exact (h.vfsMkdir hP path mode).bind fun _ _ h' => ensures_pure h'
  | create path mode => exact (h.vfsCreate hP path mode).bind fun _ _ h' => ensures_pure h'
  | lookup path =>
    obtain ⟨N, h, hN⟩ := h
    exact (vfsLookup_spec h path).bind fun _ _ h' => ensures_pure ⟨N, h.same h'.1, hN⟩
  | openFile path =>
    obtain ⟨N, h, hN⟩ := h
    refine (vfsOpen_spec h path).bind ?_
    rintro r s' (⟨n, -, -, -, -, -, h'⟩ | ⟨-, -, h'⟩)
    · exact ensures_pure ⟨N, h', hN⟩
    · exact ensures_pure ⟨N, h.same h', hN⟩
  | fromTar tar tarSize => exact h.importFrom hP tar tarSize _ 0

theorem done_of_callStep {c : Call} (hstep : callStep K c s = some s') :
    c.run K s = .done () s' := by
  unfold callStep at hstep
  cases hc : c.run K s with
  | done _ t =>
    rw [hc] at hstep
    rw [← Option.some.inj hstep]
  | halt t =>
    rw [hc] at hstep
    cases hstep

/-- **What a root has and every call preserves**, every state after `ramfs_init` has. -/
theorem plantedWith_of_run (hP : Closed P) (hroot : ∀ r : Node, r.body = .dir → P [r])
    {s0 : FsState} {cs : List Call} (hinit : ramfsInit K .boot = .done () s0)
    (h : Run (callStep K) s0 cs s) : PlantedWith P s := by
  refine h.invariant (fun c s s' hs hstep => (hs.run hP c).apply (done_of_callStep hstep)) ?_
  obtain ⟨r, hr⟩ : ∃ r, Holds [r] s0 := by
    have hspec := ramfsInit_spec (K := K)
    unfold Ensures at hspec
    rwa [hinit] at hspec
  obtain ⟨r', hr', -, -, hdir⟩ := hr.wf.rooted.exists_root
  cases hr'
  exact ⟨_, hr, hroot r hdir⟩

theorem planted_of_run {s0 : FsState} {cs : List Call} (hinit : ramfsInit K .boot = .done () s0)
    (h : Run (callStep K) s0 cs s) : Planted s := by
  exact planted_iff.2 (plantedWith_of_run closed_true (fun _ _ => trivial) hinit h)

end Runs

/-- **The tree keeps its shape.**  After `ramfs_init` and any calls with any paths, modes and
archives: a dentry with an inode, other than the root, is linked exactly once, below its `d_parent`;
one without is linked nowhere; what is linked is live and has an inode; no directory has more than
32 entries; directory data and `S_IFDIR` go together; and `d_parent` leads to the root. -/
theorem treeShape_of_run {s0 : FsState} {cs : List Call}
    (hinit : ramfsInit K .boot = .done () s0) (h : Run (callStep K) s0 cs s) : TreeShape s := by
  obtain ⟨N, hN⟩ := planted_of_run hinit h
  exact hN.treeShape

/-- An empty file system on an endless heap. -/
def emptyFs : FsState := (ramfsInit .endless .boot).state

/-- One call of `vfs_mkdir("/a", 0)`. -/
def oneDir : List Call := [.mkdir (some [slash, 97]) 0]

end Hvos.Fs
