import Hvos.Fs.Tree

/-!
# Fs/Resolve — what the functions of `vfs.c` and `ramfs.c` do to the tree

`vfs_lookup` walks the tree as `Nodes.walk` does and leaves the heap as it was; `vfs_mkdir` and
`vfs_create` add one node or none.  A program that does not return has run out of memory.
-/

namespace Hvos.Fs

open Prog Memory Function

/-! ## Walking a tree -/

namespace Nodes

variable (N : Nodes)

/-- The first entry of a directory with that name. -/
def child (q : Node) (name : CString) : Option Node := (N.kids q.dentry).find? (·.name = name)

/-- The node above; above the root there is nothing. -/
def above (n : Node) : Node := (N.find? (·.dentry = n.parent)).getD n

/-- **Path resolution**, token by token. -/
def walk : List CString → Node → Option Node
  | [], n => some n
  | token :: rest, n =>
    if token = dot then walk rest n
    else if token = dotdot then walk rest (N.above n)
    else match n.body with
      | .file _ _ _ => none
      | .dir => (N.child n (token.take 31)).bind (walk rest)

/-- The node of an absolute path. -/
def lookup (path : Option CString) : Option Node :=
  match path with
  | none => none
  | some path => if path.head? = some slash then N.head?.bind (N.walk (tokens path)) else none

/-- The dentry of a result; `NULL` for none. -/
def ptrOf (r : Option Node) : Ptr := (r.map Node.dentry).getD 0

end Nodes

section Walk

variable {N : Nodes} {n m q : Node} {name : CString}

theorem Nodes.child_mem (h : N.child q name = some m) :
    m ∈ N ∧ m.parent = q.dentry ∧ m.name = name := by
  have hmem := Nodes.mem_kids.1 (List.mem_of_find?_eq_some h)
  exact ⟨hmem.1, hmem.2, by simpa using List.find?_some h⟩

theorem Nodes.above_mem (hn : n ∈ N) : N.above n ∈ N := by
  unfold Nodes.above
  cases hf : N.find? (·.dentry = n.parent) with
  | none => exact hn
  | some q => exact List.mem_of_find?_eq_some hf

theorem Nodes.walk_mem {toks : List CString} (hn : n ∈ N) (h : N.walk toks n = some m) : m ∈ N := by
  induction toks generalizing n with
  | nil =>
    cases h
    exact hn
  | cons token rest ih =>
    rw [Nodes.walk] at h
    split_ifs at h
    · exact ih hn h
    · exact ih (Nodes.above_mem hn) h
    · split at h
      · cases h
      · obtain ⟨x, hx, hrest⟩ := Option.bind_eq_some_iff.1 h
        exact ih (Nodes.child_mem hx).1 hrest

theorem Nodes.lookup_mem {path : Option CString} (h : N.lookup path = some m) : m ∈ N := by
  unfold Nodes.lookup at h
  split at h
  · cases h
  · split_ifs at h
    obtain ⟨r, hr, hw⟩ := Option.bind_eq_some_iff.1 h
    exact Nodes.walk_mem (List.mem_of_mem_head? hr) hw

/-- The mode tells directories from files. -/
theorem Wf.isDir_iff (h : Wf N) (hn : n ∈ N) : IsDir n.mode ↔ n.body = .dir := by
  have hsound := h.sound n hn
  cases hb : n.body with
  | dir =>
    rw [hb] at hsound
    exact ⟨fun _ => rfl, fun _ => hsound⟩
  | file size f c =>
    rw [hb] at hsound
    exact ⟨fun hd => absurd hd hsound.1, fun heq => nomatch heq⟩

/-- Where `d_parent` leads. -/
theorem Wf.above_dentry (h : Wf N) (hn : n ∈ N) :
    (N.above n).dentry = if n.parent ≠ 0 then n.parent else n.dentry := by
  unfold Nodes.above
  rcases h.rooted.exists_parent hn with ⟨-, hz⟩ | ⟨q, hq, -, heq⟩
  · have hnone : N.find? (·.dentry = n.parent) = none := by
      rw [List.find?_eq_none]
      intro m hm
      have := h.ptr_ne_zero hm m.dentry_mem
      simpa [hz] using this
    rw [hnone]
    simp [hz]
  · cases hf : N.find? (·.dentry = n.parent) with
    | none =>
      rw [List.find?_eq_none] at hf
      exact absurd (by simp [heq]) (hf q hq)
    | some m =>
      have hm : m.dentry = n.parent := by simpa using List.find?_some hf
      have hz : n.parent ≠ 0 := heq ▸ h.ptr_ne_zero hq q.dentry_mem
      simp [hm, hz]

end Walk

/-! ## `vfs_lookup` -/

/-- Everything but the allocator's bookkeeping is the same. -/
structure Same (s s' : FsState) : Prop where
  get : s'.heap.get = s.heap.get
  root : s'.rootDentry = s.rootDentry

theorem Same.refl (s : FsState) : Same s s := ⟨rfl, rfl⟩

theorem Same.trans {s s' s'' : FsState} (h : Same s s') (h' : Same s' s'') : Same s s'' :=
  ⟨h'.get.trans h.get, h'.root.trans h.root⟩

/-- Search keys were taken, and each of them was freed once; nothing else happened. -/
structure Borrowed (K : Kmalloc) (s s' : FsState) : Prop where
  heap : K.Borrows s.heap s'.heap
  root : s'.rootDentry = s.rootDentry
  ino : s'.nextInoNum = s.nextInoNum

theorem Borrowed.refl (K : Kmalloc) (s : FsState) : Borrowed K s s := ⟨.nil _, rfl, rfl⟩

theorem Borrowed.same {K : Kmalloc} {s s' : FsState} (h : Borrowed K s s') : Same s s' :=
  ⟨h.heap.get_eq, h.root⟩

/-- The blocks `ps` are new on the heap, and no other block came or went. -/
structure Took (s s' : FsState) (ps : List Ptr) : Prop where
  nodup : ps.Nodup
  fresh : ∀ p ∈ ps, s.heap.get p = none
  taken : ∀ p ∈ ps, s'.heap.get p ≠ none
  rest : ∀ p, p ∉ ps → (s'.heap.get p = none ↔ s.heap.get p = none)

section Took

variable {s s' s'' : FsState} {ps qs : List Ptr}

theorem Same.took (h : Same s s') : Took s s' [] :=
  ⟨List.nodup_nil, by simp, by simp, fun p _ => by rw [h.get]⟩

theorem Took.set (s : FsState) {p : Ptr} {o : Obj} (hp : s.heap.get p = none) :
    Took s { s with heap := s.heap.set p o } [p] where
  nodup := List.nodup_singleton p
  fresh q hq := by rwa [List.mem_singleton.1 hq]
  taken q hq := by simp [List.mem_singleton.1 hq]
  rest q hq := by
    have hne : q ≠ p := fun heq => hq (List.mem_singleton.2 heq)
    rw [Heap.get_set_of_ne _ _ hne]

/-- One after the other. -/
theorem Took.trans (h : Took s s' ps) (h' : Took s' s'' qs) : Took s s'' (ps ++ qs) where
  nodup := by
    refine List.nodup_append.2 ⟨h.nodup, h'.nodup, ?_⟩
    rintro p hp _ hq rfl
    exact h.taken p hp (h'.fresh p hq)
  fresh p hp := by
    rcases List.mem_append.1 hp with hp | hp
    · exact h.fresh p hp
    · by_cases hps : p ∈ ps
      · exact h.fresh p hps
      · exact (h.rest p hps).1 (h'.fresh p hp)
  taken p hp := by
    rcases List.mem_append.1 hp with hp | hp
    · by_cases hqs : p ∈ qs
      · exact h'.taken p hqs
      · exact fun hnone => h.taken p hp ((h'.rest p hqs).1 hnone)
    · exact h'.taken p hp
  rest p hp := by
    rw [List.mem_append, not_or] at hp
    rw [h'.rest p hp.2, h.rest p hp.1]

theorem Took.mem_iff (h : Took s s' ps) {p : Ptr} :
    p ∈ ps ↔ s.heap.get p = none ∧ s'.heap.get p ≠ none := by
  refine ⟨fun hp => ⟨h.fresh p hp, h.taken p hp⟩, fun hnew => ?_⟩
  by_contra hp
  exact hnew.2 ((h.rest p hp).2 hnew.1)

/-- What was taken shows on the heap. -/
theorem Took.length_eq (h : Took s s' ps) (h' : Took s s' qs) : ps.length = qs.length :=
  ((List.perm_ext_iff_of_nodup h.nodup h'.nodup).2 fun p => by rw [h.mem_iff, h'.mem_iff]).length_eq

end Took

/-- A dentry without an inode. -/
def Stray (s : FsState) (p : Ptr) : Prop := ∃ d, s.heap.get p = some (.dentry d) ∧ d.dInode = 0

/-- The strays of `s'` are those of `s` and the blocks `ps`. -/
def Leaves (s s' : FsState) (ps : List Ptr) : Prop := ∀ p, Stray s' p ↔ Stray s p ∨ p ∈ ps

section Leaves

variable {s s' s'' : FsState} {ps qs : List Ptr} {p : Ptr}

theorem Same.leaves (h : Same s s') : Leaves s s' [] := fun p => by simp [Stray, h.get]

theorem Leaves.set (s : FsState) (hp : s.heap.get p = none) {d : Dentry} (hd : d.dInode = 0) :
    Leaves s { s with heap := s.heap.set p (.dentry d) } [p] := by
  intro q
  rcases eq_or_ne q p with rfl | hne
  · simp [Stray, hd]
  · simp [Stray, Heap.get_set_of_ne _ _ hne, hne]

/-- A block that is no stray, before and after. -/
theorem Leaves.other (hp : ¬Stray s p) (hp' : ¬Stray s' p)
    (h : ∀ q, q ≠ p → s'.heap.get q = s.heap.get q) : Leaves s s' [] := by
  intro q
  rcases eq_or_ne q p with rfl | hne
  · simp [hp, hp']
  · simp [Stray, h q hne]

theorem Leaves.trans (h : Leaves s s' ps) (h' : Leaves s' s'' qs) : Leaves s s'' (ps ++ qs) := by
  intro p
  rw [h' p, h p, List.mem_append, or_assoc]

/-- A new dentry that was linked is no stray. -/
theorem Leaves.linked (h : Leaves s s' [p]) (hp : s.heap.get p = none)
    (h' : ∀ q, Stray s'' q ↔ Stray s' q ∧ q ≠ p) : Leaves s s'' [] := by
  intro q
  rw [h' q, h q]
  rcases eq_or_ne q p with rfl | hne
  · simp [Stray, hp]
  · simp [hne]

end Leaves

variable {name : CString}

section Specs

variable {K : Kmalloc} {N : Nodes} {n m q : Node} {s s' : FsState} {p : Ptr}

theorem Holds.same (h : Holds N s) (hs : Same s s') : Holds N s' :=
  h.of_agree hs.root (fun p _ => congrFun hs.get p) fun p hp => by
    rw [hs.get]
    exact h.junk p hp

/-- A dentry without an inode is not in the tree. -/
theorem Junk.template {d : Dentry} (hp : s.heap.get p = some (.dentry d)) (hd : d.dInode = 0) :
    Junk (s.heap.get p) := by
  rw [hp]
  exact hd

theorem Holds.dir_placed (h : Holds N s) (hq : q ∈ N) (hdir : q.body = .dir) :
    s.heap.get q.inode = some (.inode ⟨q.ino, q.mode, 0, true, q.data⟩) ∧
      s.heap.get q.data = some (.dir (N.entries q.dentry)) := by
  have hpl := h.placed q hq
  have hi := hpl.inode
  have hd := hpl.data
  rw [hdir] at hi hd
  exact ⟨hi, hd⟩

/-- The entries of a directory, by index. -/
theorem Nodes.children_eq {k : ℕ} (hk : k < (N.kids p).length) :
    (N.entries p).children k = ((N.kids p).get ⟨k, hk⟩).dentry := by
  simp [Nodes.entries, hk]

/-- **`ramfs_lookup`** finds the first entry with the name of the key, and then frees the key. -/
theorem ramfsLookup_spec (h : Holds N s) (hq : q ∈ N) (hdir : q.body = .dir) {key : Dentry}
    (hkey : s.heap.get p = some (.dentry key)) (hp : p ≠ 0) {H : FsState → Prop} :
    Ensures (ramfsLookup q.inode p) s
      (fun r s' =>
        N.child q key.dName = none ∧ r = 0 ∧ s' = s ∨
          ∃ m, N.child q key.dName = some m ∧ r = m.dentry ∧
            s' = { s with heap := s.heap.free p }) H := by
  obtain ⟨hino, hdata⟩ := h.dir_placed hq hdir
  have hz : q.data ≠ 0 := h.wf.ptr_ne_zero hq q.data_mem
  unfold ramfsLookup
  refine ensures_bind (ensures_inodeAt hino ?_)
  rw [if_neg hz]
  refine ensures_bind (ensures_dirAt hdata (Ensures.bind (Q := Either
    (fun r s' => ∃ m, N.child q key.dName = some m ∧ r = m.dentry ∧
      s' = { s with heap := s.heap.free p })
    (fun s' => N.child q key.dName = none ∧ s' = s)) ?_ ?_))
  · -- Before round `k` none of the first `k` entries has the name.
    refine Ensures.mono (ensures_forRange
      (I := fun k s' => s' = s ∧ ∀ n ∈ (N.kids q.dentry).take k, n.name ≠ key.dName)
      (E := fun r s' => ∃ m, N.child q key.dName = some m ∧ r = m.dentry ∧
        s' = { s with heap := s.heap.free p }) ?_ ⟨rfl, by simp⟩) (fun r s' hr => ?_) fun _ => id
    · rintro k s' hk ⟨rfl, hnone⟩
      have hk' : k < (N.kids q.dentry).length := hk
      set c := (N.kids q.dentry).get ⟨k, hk'⟩ with hc
      have hcmem : c ∈ N := (Nodes.mem_kids.1 (List.get_mem _ _)).1
      rw [Nodes.children_eq hk', ← hc]
      refine ensures_bind (ensures_dentryAt (h.placed c hcmem).dentry
        (ensures_bind (ensures_dentryAt hkey ?_)))
      by_cases hname : c.name = key.dName
      · rw [if_pos hname]
        refine ensures_bind (ensures_kfree hp (ensures_pure ⟨c, ?_, rfl, rfl⟩))
        refine List.find?_eq_some_iff_append.2 ⟨by simpa using hname,
          (N.kids q.dentry).take k, (N.kids q.dentry).drop (k + 1), ?_, fun n hn => ?_⟩
        · simp [hc]
        · simpa using hnone n hn
      · rw [if_neg hname]
        refine ensures_pure ⟨rfl, fun n hn => ?_⟩
        rw [List.take_succ_eq_append_getElem hk', List.mem_append] at hn
        rcases hn with hn | hn
        · exact hnone n hn
        · obtain rfl := List.mem_singleton.1 hn
          exact hname
    · cases r with
      | some r => exact hr
      | none =>
        obtain ⟨rfl, hnone⟩ := hr
        refine ⟨List.find?_eq_none.2 fun n hn => ?_, rfl⟩
        have hall := hnone n (by simpa [Nodes.entries] using hn)
        simpa using hall
  · rintro (_ | r) s' hr
    · exact ensures_pure (.inl ⟨hr.1, rfl, hr.2⟩)
    · obtain ⟨m, hm, rfl, hs⟩ := hr
      exact ensures_pure (.inr ⟨m, hm, rfl, hs⟩)

/-- **The loop of `vfs_lookup`** walks the tree, and gives back the key of every step. -/
theorem walk_borrows (toks : List CString) (h : Holds N s) (hn : n ∈ N) :
    Ensures (walk K toks n.dentry) s
      (fun r s' => Borrowed K s s' ∧ r = Nodes.ptrOf (N.walk toks n)) (Refused K) := by
  induction toks generalizing n s with
  | nil => exact ensures_pure ⟨.refl K s, rfl⟩
  | cons token rest ih =>
    rw [walk, Nodes.walk]
    by_cases hdot : token = dot
    · rw [if_pos hdot, if_pos hdot]
      exact ih h hn
    rw [if_neg hdot, if_neg hdot]
    by_cases hup : token = dotdot
    · rw [if_pos hup, if_pos hup]
      refine ensures_bind (ensures_dentryAt (h.placed n hn).dentry ?_)
      rw [← h.wf.above_dentry hn]
      exact ih h (Nodes.above_mem hn)
    rw [if_neg hup, if_neg hup]
    refine ensures_bind (ensures_dentryAt (h.placed n hn).dentry
      (ensures_bind (ensures_inodeAt (h.placed n hn).inode ?_)))
    cases hb : n.body with
    | file size f c =>
      have hmode : ¬IsDir n.mode := fun hd => by simp [(h.wf.isDir_iff hn).1 hd] at hb
      rw [if_pos hmode]
      exact ensures_pure ⟨.refl K s, rfl⟩
    | dir =>
      rw [if_neg (not_not.2 ((h.wf.isDir_iff hn).2 hb)), if_neg Bool.noConfusion]
      -- The search key is new, so the tree does not see it.
      refine ensures_bind (ensures_alloc fun key halloc => ?_)
      obtain ⟨hkey, hfree⟩ := K.fresh halloc
      have h1 := h.set_key hfree (token.take 31) n.dentry
      refine (ramfsLookup_spec h1 hn hb (Heap.get_set_self ..) hkey).bind fun r s' hr => ?_
      have hback : ∀ {t : FsState}, Borrowed K { s with
          heap := (s.heap.set key (.dentry ⟨token.take 31, 0, n.dentry⟩)).free key } t →
          Borrowed K s t := fun ht => ⟨.cons halloc ht.heap, ht.root, ht.ino⟩
      rcases hr with ⟨hnone, rfl, rfl⟩ | ⟨m, hm, rfl, rfl⟩
      · rw [if_pos rfl]
        refine ensures_bind (ensures_kfree hkey (ensures_pure ⟨hback (.refl K _), ?_⟩))
        simp [hnone, Nodes.ptrOf]
      · obtain ⟨hmem, -, -⟩ := Nodes.child_mem hm
        have hm0 : m.dentry ≠ 0 := h.wf.ptr_ne_zero hmem m.dentry_mem
        have hi0 : m.inode ≠ 0 := h.wf.ptr_ne_zero hmem m.inode_mem
        have h2 := h.same (hback (.refl K _)).same
        rw [if_neg hm0]
        refine ensures_bind (ensures_dentryAt (h2.placed m hmem).dentry ?_)
        rw [if_neg hi0]
        refine (ih h2 hmem).imp fun r s' hr => ⟨hback hr.1, ?_⟩
        rw [hr.2]
        simp [hm]

/-- **`vfs_lookup` is path resolution**, and gives back what it takes. -/
theorem vfsLookup_borrows (h : Holds N s) (path : Option CString) : Ensures (vfsLookup K path) s
      (fun r s' => Borrowed K s s' ∧ r = Nodes.ptrOf (N.lookup path)) (Refused K) := by
  obtain ⟨r, hr, hmem, -, -⟩ := h.wf.rooted.exists_root
  have hroot : s.rootDentry = r.dentry := by
    have := h.root
    rw [hr] at this
    exact (Option.some.inj this).symm
  have hz : s.rootDentry ≠ 0 := hroot ▸ h.wf.ptr_ne_zero hmem r.dentry_mem
  unfold vfsLookup
  refine ensures_read_bind ?_
  rw [if_neg hz]
  cases path with
  | none => exact ensures_pure ⟨.refl K s, rfl⟩
  | some path =>
    simp only [Nodes.lookup]
    by_cases hslash : path.head? = some slash
    · rw [if_pos hslash, if_pos hslash, hr, hroot]
      exact walk_borrows _ h hmem
    · rw [if_neg hslash, if_neg hslash]
      exact ensures_pure ⟨.refl K s, rfl⟩

/-- **`vfs_lookup` is path resolution.** -/
theorem vfsLookup_spec (h : Holds N s) (path : Option CString) : Ensures (vfsLookup K path) s
      (fun r s' => Same s s' ∧ r = Nodes.ptrOf (N.lookup path)) (Refused K) :=
  (vfsLookup_borrows h path).imp fun _ _ hr => ⟨hr.1.same, hr.2⟩

/-- A path that resolves, or does not. -/
theorem Nodes.ptrOf_cases (h : Wf N) {r : Option Node} (hr : ∀ n, r = some n → n ∈ N) :
    r = none ∧ Nodes.ptrOf r = 0 ∨
      ∃ n ∈ N, r = some n ∧ Nodes.ptrOf r = n.dentry ∧ n.dentry ≠ 0 := by
  cases r with
  | none => exact .inl ⟨rfl, rfl⟩
  | some n => exact .inr ⟨n, hr n rfl, rfl, rfl, h.ptr_ne_zero (hr n rfl) n.dentry_mem⟩

/-! ## New nodes -/

/-- The body of a new node: an empty directory, or an empty file without a buffer. -/
def newBody (mode : UInt32) : Body := if IsDir mode then .dir else .file 0 ⟨0, 0⟩ fun _ => 0

theorem newBody_size (mode : UInt32) : (newBody mode).size = 0 := by
  unfold newBody
  split_ifs <;> rfl

theorem newBody_buffers (mode : UInt32) : (newBody mode).buffers = [] := by
  unfold newBody
  split_ifs <;> rfl

theorem newBody_obj (mode : UInt32) : (newBody mode).obj ⟨fun _ => 0, 0⟩ = emptyData mode := by
  unfold newBody emptyData
  split_ifs <;> rfl

theorem newBody_sound (mode : UInt32) : (newBody mode).Sound mode := by
  unfold newBody
  split_ifs with hd
  · exact hd
  · exact ⟨hd, Nat.le_refl 0, fun _ => rfl⟩

/-- `ramfs_create_inode` takes two new blocks. -/
theorem ramfsCreateInode_spec (mode : UInt32) : Ensures (ramfsCreateInode K mode) s
      (fun ino s' => ∃ data num, ino ≠ 0 ∧ data ≠ 0 ∧ ino ≠ data ∧ s.heap.get ino = none ∧
        s.heap.get data = none ∧ s'.rootDentry = s.rootDentry ∧
        s'.heap.get = update (update s.heap.get data (some (emptyData mode))) ino
          (some (.inode ⟨num, mode, 0, true, data⟩))) (Refused K) := by
  unfold ramfsCreateInode
  refine ensures_bind (ensures_kmalloc fun ino hino hfree => ?_)
  refine ensures_read_bind (ensures_modify_bind
    (ensures_modify_bind (ensures_bind (ensures_kmalloc fun data hdata hfree' => ?_))))
  have hne : ino ≠ data := by
    rintro rfl
    simp at hfree'
  refine ensures_modify_bind (ensures_pure
    ⟨data, s.nextInoNum, hino, hdata, hne, hfree, ?_, rfl, ?_⟩)
  · rwa [Heap.get_set_of_ne _ _ hne.symm, Heap.get_set_of_ne _ _ hne.symm] at hfree'
  · simp only [Heap.get_set, update_idem, update_comm hne.symm]

section Add

variable {s1 : FsState} {ino data : Ptr} {num : ℕ} {mode : UInt32} {name : CString}
  (hne : ino ≠ data) (hifree : s.heap.get ino = none) (hdfree : s.heap.get data = none)
  (hget : s1.heap.get = update (update s.heap.get data (some (emptyData mode))) ino
    (some (.inode ⟨num, mode, 0, true, data⟩)))
include hne hifree hdfree hget

/-- The two blocks of a new inode are all that is taken, whatever is stored to blocks in use. -/
theorem took_newInode {r : Ptr} {o o' : Obj} (hp : s.heap.get p ≠ none) (hr : s.heap.get r ≠ none) :
    Took s { s1 with heap := (s1.heap.set p o).set r o' } [ino, data] := by
  have hapart : ∀ {x}, s.heap.get x ≠ none → x ≠ ino ∧ x ≠ data := fun hx =>
    ⟨fun heq => hx (heq ▸ hifree), fun heq => hx (heq ▸ hdfree)⟩
  refine ⟨by simp [hne], by simp [hifree, hdfree], fun x hx => ?_, fun x hx => ?_⟩
  · rcases List.mem_pair.1 hx with rfl | rfl
    · simp [Heap.get_set_of_ne _ _ (hapart hr).1.symm, Heap.get_set_of_ne _ _ (hapart hp).1.symm,
        hget]
    · simp [Heap.get_set_of_ne _ _ (hapart hr).2.symm, Heap.get_set_of_ne _ _ (hapart hp).2.symm,
        hget, update_of_ne hne.symm]
  · rw [List.mem_pair, not_or] at hx
    rcases eq_or_ne x r with rfl | hxr
    · simp [hr]
    rcases eq_or_ne x p with rfl | hxp
    · simp [Heap.get_set_of_ne _ _ hxr, hp]
    rw [Heap.get_set_of_ne _ _ hxr, Heap.get_set_of_ne _ _ hxp, hget, update_of_ne hx.1,
      update_of_ne hx.2]

/-- …and the dentry that gets it is no stray any more. -/
theorem strays_newInode {r x parent : Ptr} {dd dd' : DirData} (hino : ino ≠ 0)
    (hr : s.heap.get r = some (.dir dd)) :
    Stray { s1 with heap := (s1.heap.set p (.dentry ⟨name, ino, parent⟩)).set r (.dir dd') } x ↔
      Stray s x ∧ x ≠ p := by
  unfold Stray
  rcases eq_or_ne x r with rfl | hxr
  · simp [hr]
  rcases eq_or_ne x p with rfl | hxp
  · simp [Heap.get_set_of_ne _ _ hxr, hino]
  rw [Heap.get_set_of_ne _ _ hxr, Heap.get_set_of_ne _ _ hxp, hget]
  rcases eq_or_ne x ino with rfl | hxi
  · simp [hifree]
  rcases eq_or_ne x data with rfl | hxd
  · rw [update_of_ne hxi, update_self, hdfree, emptyData]
    split_ifs <;> simp
  · simp [update_of_ne hxi, update_of_ne hxd, hxp]

/-- **The new inode, its dentry and the entry of the directory make a node.** -/
theorem Holds.newNode (h : Holds N s) (hq : q ∈ N) (hdir : q.body = .dir)
    (hfew : (N.kids q.dentry).length < ramfsMaxChildren) (hp : p ≠ 0)
    (hkey : s.heap.get p = some (.dentry ⟨name, 0, q.dentry⟩)) (hino0 : ino ≠ 0) (hdata0 : data ≠ 0)
    (hroot : s1.rootDentry = s.rootDentry) :
    Holds (N ++ [⟨p, ino, data, q.dentry, name, num, mode, newBody mode⟩])
      { s1 with
        heap := (s1.heap.set p (.dentry ⟨name, ino, q.dentry⟩)).set q.data
          (.dir ⟨update (N.entries q.dentry).children (N.entries q.dentry).childCount p,
            (N.entries q.dentry).childCount + 1⟩) } := by
  set n : Node := ⟨p, ino, data, q.dentry, name, num, mode, newBody mode⟩ with hn
  -- The three blocks of the node are apart, and none is in the tree.
  have hpi : p ≠ ino := by
    rintro rfl
    simp [hkey] at hifree
  have hpd : p ≠ data := by
    rintro rfl
    simp [hkey] at hdfree
  have hptrs : n.ptrs = [p, ino, data] := by simp [hn, Node.ptrs, newBody_buffers]
  have hnew : ∀ r ∈ n.ptrs, r ∉ N.ptrs := by
    intro r hr
    rw [hptrs] at hr
    simp only [List.mem_cons, List.not_mem_nil, or_false] at hr
    rcases hr with rfl | rfl | rfl
    · exact h.not_mem (Junk.template hkey rfl)
    · exact h.not_mem (by rw [hifree]; trivial)
    · exact h.not_mem (by rw [hdfree]; trivial)
  have hqd : q.data ∈ N.ptrs := Nodes.mem_ptrs.2 ⟨q, hq, q.data_mem⟩
  have hqp : q.data ≠ p := fun heq => hnew p (by simp [hptrs]) (heq ▸ hqd)
  have hqi : q.data ≠ ino := fun heq => hnew ino (by simp [hptrs]) (heq ▸ hqd)
  have hqdata : q.data ≠ data := fun heq => hnew data (by simp [hptrs]) (heq ▸ hqd)
  have hempty : Nodes.entries (N ++ [n]) p = ⟨fun _ => 0, 0⟩ := by
    have hnil := h.wf.kids_eq_nil (hnew p (by simp [hptrs])) hp
    have hqp' : n.parent ≠ p := fun heq =>
      hnew p (by simp [hptrs]) (heq ▸ Nodes.mem_ptrs.2 ⟨q, hq, q.dentry_mem⟩)
    rw [Nodes.entries_snoc_of_ne hqp', Nodes.entries, hnil]
    rfl
  refine h.link (n := n) hq hdir hfew rfl (newBody_sound mode) ?_ ?_ hnew hroot ?_ ?_ ?_
  · simp [hptrs, hpi, hpd, hne]
  · simp [hptrs, hp.symm, hino0.symm, hdata0.symm]
  · refine ⟨?_, ?_, ?_, fun {size f c} hb hf => ?_⟩
    · rw [Heap.get_set_of_ne _ _ hqp.symm, Heap.get_set_self]
    · rw [Heap.get_set_of_ne _ _ hqi.symm, Heap.get_set_of_ne _ _ hpi.symm, hget, update_self]
      simp [hn, newBody_size]
    · rw [Heap.get_set_of_ne _ _ hqdata.symm, Heap.get_set_of_ne _ _ hpd.symm, hget,
        update_of_ne hne.symm, update_self, ← newBody_obj, ← hempty]
    · have hbuf := newBody_buffers mode
      rw [show newBody mode = .file size f c from hb] at hbuf
      simp [Body.buffers, hf] at hbuf
  · rw [Heap.get_set_self, Nodes.entries_snoc N n]
  · intro r hr hrq
    rw [hptrs] at hr
    simp only [List.mem_cons, List.not_mem_nil, or_false, not_or] at hr
    rw [Heap.get_set_of_ne _ _ hrq, Heap.get_set_of_ne _ _ hr.1, hget, update_of_ne hr.2.1,
      update_of_ne hr.2.2]

end Add

/-- **`ramfs_mkdir` and `ramfs_create`**: the dentry becomes a node, unless the directory is
full. -/
theorem ramfsAdd_spec (fileType mode : UInt32) (h : Holds N s) (hq : q ∈ N) (hdir : q.body = .dir)
    (hp : p ≠ 0) (hkey : s.heap.get p = some (.dentry ⟨name, 0, q.dentry⟩)) :
    Ensures (ramfsAdd K fileType q.inode p mode) s
      (fun r s' =>
        ramfsMaxChildren ≤ (N.kids q.dentry).length ∧ r = -1 ∧ s' = s ∨
          (N.kids q.dentry).length < ramfsMaxChildren ∧ r = 0 ∧
            ∃ ino data num, Took s s' [ino, data] ∧ (∀ x, Stray s' x ↔ Stray s x ∧ x ≠ p) ∧
              Holds (N ++ [⟨p, ino, data, q.dentry, name, num, fileType ||| mode,
                newBody (fileType ||| mode)⟩]) s') (Refused K) := by
  obtain ⟨hino, hdata⟩ := h.dir_placed hq hdir
  have hz : q.data ≠ 0 := h.wf.ptr_ne_zero hq q.data_mem
  unfold ramfsAdd
  refine ensures_bind (ensures_inodeAt hino ?_)
  rw [if_neg hz]
  refine ensures_bind (ensures_dirAt hdata ?_)
  by_cases hfull : (N.entries q.dentry).childCount ≥ ramfsMaxChildren
  · rw [if_pos hfull]
    exact ensures_pure (.inl ⟨hfull, rfl, rfl⟩)
  rw [if_neg hfull]
  refine (ramfsCreateInode_spec (fileType ||| mode)).bind ?_
  rintro ino s1 ⟨data, num, hino0, hdata0, hne, hifree, hdfree, hroot, hget⟩
  have hkeep : ∀ {r o}, s.heap.get r = some o → s1.heap.get r = some o := fun {r o} hr => by
    rw [hget, update_of_ne, update_of_ne, hr]
    · rintro rfl
      simp [hr] at hdfree
    · rintro rfl
      simp [hr] at hifree
  have hqp : q.data ≠ p := by
    rintro heq
    simp [← heq, hdata] at hkey
  have hdata1 : (s1.heap.set p (.dentry ⟨name, ino, q.dentry⟩)).get q.data =
      some (.dir (N.entries q.dentry)) := by
    rw [Heap.get_set_of_ne _ _ hqp, hkeep hdata]
  refine ensures_bind (ensures_dentryAt (hkeep hkey) (ensures_modify_bind ?_))
  refine ensures_bind (ensures_dirAt hdata1 (ensures_modify_bind (ensures_pure ?_)))
  exact .inr ⟨not_le.1 hfull, rfl, ino, data, num,
    took_newInode hne hifree hdfree hget (by simp [hkey]) (by simp [hdata]),
    fun _ => strays_newInode hne hifree hdfree hget hino0 hdata,
    h.newNode hne hifree hdfree hget hq hdir (not_le.1 hfull) hp hkey hino0 hdata0 hroot⟩

/-- The directory a new entry goes to, and its name. -/
def Nodes.target (N : Nodes) (path : Option CString) (fileMax : ℕ) : Option (Node × CString) :=
  match vfsSplitPath path 256 fileMax with
  | none => none
  | some (dir, name) =>
    match N.lookup (some dir) with
    | none => none
    | some q => match q.body with
      | .dir => some (q, name)
      | .file _ _ _ => none

/-- Room for one more entry. -/
def Nodes.Room (N : Nodes) (q : Node) : Prop := (N.kids q.dentry).length < ramfsMaxChildren

/-- The tree with a new node below `q`. -/
def Added (N : Nodes) (q : Node) (name : CString) (mode : UInt32) (s : FsState) : Prop :=
  ∃ p ino data num, Holds (N ++ [⟨p, ino, data, q.dentry, name, num, mode, newBody mode⟩]) s

theorem Nodes.target_mem {path : Option CString} {fileMax : ℕ}
    (h : N.target path fileMax = some (q, name)) : q ∈ N ∧ q.body = .dir := by
  unfold Nodes.target at h
  split at h
  · cases h
  · split at h
    · cases h
    · next hl =>
      split at h
      · next hd =>
        cases h
        exact ⟨Nodes.lookup_mem hl, hd⟩
      · cases h

/-- **The way to the parent directory.** -/
theorem inParent_spec (h : Holds N s) (path : Option CString) (fileMax : ℕ)
    {add : Ptr → Ptr → CString → Prog FsState ℤ} {Q : ℤ → FsState → Prop}
    (hnone : N.target path fileMax = none → ∀ r s', r < 0 → Same s s' → Q r s')
    (hsome : ∀ q name s', N.target path fileMax = some (q, name) → Same s s' →
      Ensures (add q.dentry q.inode name) s' Q (Refused K)) :
    Ensures (inParent K path fileMax add) s Q (Refused K) := by
  unfold inParent
  unfold Nodes.target at hnone hsome
  cases hsplit : vfsSplitPath path 256 fileMax with
  | none =>
    rw [hsplit] at hnone
    exact ensures_pure (hnone rfl _ _ (by decide) (.refl s))
  | some dn =>
    obtain ⟨dir, name⟩ := dn
    rw [hsplit] at hnone hsome
    simp only at hnone hsome ⊢
    refine (vfsLookup_spec h (some dir)).bind ?_
    rintro p s' ⟨hsame, rfl⟩
    rcases Nodes.ptrOf_cases h.wf (fun n (hn : N.lookup (some dir) = some n) => Nodes.lookup_mem hn) with
      ⟨hl, hz⟩ | ⟨q, hq, hl, hp, hq0⟩
    · rw [hl] at hnone
      rw [if_pos hz]
      exact ensures_pure (hnone rfl _ _ (by decide) hsame)
    rw [hp, if_neg hq0]
    have h' := h.same hsame
    refine ensures_bind (ensures_dentryAt (h'.placed q hq).dentry ?_)
    rw [if_neg (h.wf.ptr_ne_zero hq q.inode_mem)]
    refine ensures_bind (ensures_inodeAt (h'.placed q hq).inode ?_)
    rw [hl] at hnone hsome
    cases hb : q.body with
    | file size f c =>
      have hmode : ¬IsDir q.mode := fun hd => by simp [(h.wf.isDir_iff hq).1 hd] at hb
      simp only [hb] at hnone
      rw [if_pos hmode]
      exact ensures_pure (hnone trivial _ _ (by decide) hsame)
    | dir =>
      simp only [hb] at hsome
      rw [if_neg (not_not.2 ((h.wf.isDir_iff hq).2 hb)), if_neg Bool.noConfusion]
      exact hsome q name s' rfl hsame

/-- A new node below `q`, on three new blocks, and the strays taken with them. -/
def AddedOn (N : Nodes) (q : Node) (name : CString) (mode : UInt32) (s s' : FsState)
    (others : List Ptr) : Prop :=
  ∃ p ino data num, Took s s' (others ++ [p, ino, data]) ∧ Leaves s s' others ∧
    Holds (N ++ [⟨p, ino, data, q.dentry, name, num, mode, newBody mode⟩]) s'

theorem AddedOn.added {mode : UInt32} {others : List Ptr} (h : AddedOn N q name mode s s' others) :
    Added N q name mode s' := by
  obtain ⟨p, ino, data, num, -, -, h⟩ := h
  exact ⟨p, ino, data, num, h⟩

/-- **`vfs_create`, block by block**: a new dentry stays on the heap, also where the directory is
full. -/
theorem vfsCreate_ledger (h : Holds N s) (path : Option CString) (mode : UInt32) :
    Ensures (vfsCreate K path mode) s
      (fun r s' =>
        N.target path 32 = none ∧ r < 0 ∧ Same s s' ∨
        ∃ q name, N.target path 32 = some (q, name) ∧
          (N.Room q ∧ r = 0 ∧ AddedOn N q (name.take 31) (sIfreg ||| mode) s s' [] ∨
            ¬N.Room q ∧ r < 0 ∧ Holds N s' ∧ ∃ p, Took s s' [p] ∧ Leaves s s' [p]))
      (Refused K) := by
  refine inParent_spec h path 32 (fun hnone r s' hr hs => .inl ⟨hnone, hr, hs⟩) ?_
  intro q name s' htarget hs
  obtain ⟨hq, hdir⟩ := Nodes.target_mem htarget
  have h' := h.same hs
  refine ensures_bind (ensures_kmalloc fun p hp hfree => ?_)
  have h1 := h'.set_key hfree (name.take 31) q.dentry
  have htook := hs.took.trans (Took.set s' (o := .dentry ⟨name.take 31, 0, q.dentry⟩) hfree)
  have hstray := Leaves.set s' hfree (d := ⟨name.take 31, 0, q.dentry⟩) rfl
  refine (ramfsAdd_spec sIfreg mode h1 hq hdir hp (Heap.get_set_self ..)).imp ?_
  rintro r s'' (⟨hfull, rfl, rfl⟩ | ⟨hroom, rfl, ino, data, num, hadded, hlinked, hholds⟩)
  · exact .inr ⟨q, name, htarget,
      .inr ⟨not_lt.2 hfull, by decide, h1, p, htook, hs.leaves.trans hstray⟩⟩
  · exact .inr ⟨q, name, htarget, .inl ⟨hroom, rfl, p, ino, data, num, htook.trans hadded,
      hs.leaves.trans (hstray.linked hfree hlinked), hholds⟩⟩

/-- **`vfs_create`** adds a node, or fails and leaves the tree alone. -/
theorem vfsCreate_spec (h : Holds N s) (path : Option CString) (mode : UInt32) :
    Ensures (vfsCreate K path mode) s
      (fun r s' =>
        (∃ q name, N.target path 32 = some (q, name) ∧ N.Room q ∧ r = 0 ∧
          Added N q (name.take 31) (sIfreg ||| mode) s') ∨
        (∀ q name, N.target path 32 = some (q, name) → ¬N.Room q) ∧ r < 0 ∧ Holds N s')
      (Refused K) := by
  refine (vfsCreate_ledger h path mode).imp ?_
  rintro r s' (⟨hnone, hr, hs⟩ | ⟨q, name, ht, ⟨hroom, hr, hadded⟩ | ⟨hfull, hr, h', -⟩⟩)
  · exact .inr ⟨fun q name ht => (nomatch hnone.symm.trans ht), hr, h.same hs⟩
  · exact .inl ⟨q, name, ht, hroom, hr, hadded.added⟩
  · refine .inr ⟨fun q' name' ht' => ?_, hr, h'⟩
    obtain ⟨rfl, -⟩ := Prod.mk.inj (Option.mem_unique ht ht')
    exact hfull

/-- **`vfs_mkdir`, block by block**: where the name is new, its search key stays on the heap. -/
theorem vfsMkdir_ledger (h : Holds N s) (path : Option CString) (mode : UInt32) :
    Ensures (vfsMkdir K path mode) s
      (fun r s' =>
        N.target path 64 = none ∧ r < 0 ∧ Same s s' ∨
        ∃ q name, N.target path 64 = some (q, name) ∧
          (N.child q (name.take 31) ≠ none ∧ r < 0 ∧ Same s s' ∨
            N.child q (name.take 31) = none ∧ N.Room q ∧ r = 0 ∧
              (∃ key, AddedOn N q (name.take 31) (sIfdir ||| mode) s s' [key]) ∨
            N.child q (name.take 31) = none ∧ ¬N.Room q ∧ r < 0 ∧ Holds N s' ∧
              ∃ key, Took s s' [key] ∧ Leaves s s' [key]))
      (Refused K) := by
  refine inParent_spec h path 64 (fun hnone r s' hr hs => .inl ⟨hnone, hr, hs⟩) ?_
  intro q name s' htarget hs
  obtain ⟨hq, hdir⟩ := Nodes.target_mem htarget
  have h' := h.same hs
  refine ensures_bind (ensures_kmalloc fun key hkey hfree => ?_)
  have h1 := h'.set_key hfree (name.take 31) q.dentry
  have htook := hs.took.trans (Took.set s' (o := .dentry ⟨name.take 31, 0, q.dentry⟩) hfree)
  have hstray := hs.leaves.trans (Leaves.set s' hfree (d := ⟨name.take 31, 0, q.dentry⟩) rfl)
  refine (ramfsLookup_spec h1 hq hdir (Heap.get_set_self ..) hkey).bind ?_
  rintro r s1 (⟨hnone, rfl, rfl⟩ | ⟨m, hm, rfl, rfl⟩)
  · -- No such entry: the key stays behind, and the new dentry is linked.
    rw [if_pos rfl]
    refine ensures_bind (ensures_pure ?_)
    beta_reduce
    rw [if_neg Bool.noConfusion]
    refine ensures_bind (ensures_kmalloc fun p hp hfree' => ?_)
    have h2 := h1.set_key hfree' (name.take 31) q.dentry
    refine (ramfsAdd_spec sIfdir mode h2 hq hdir hp (Heap.get_set_self ..)).bind ?_
    rintro r s2 (⟨hfull, rfl, rfl⟩ | ⟨hroom, rfl, ino, data, num, hadded, hlinked, hholds⟩)
    · rw [if_pos (by decide)]
      refine ensures_bind (ensures_kfree hp (ensures_pure (.inr ⟨q, name, htarget,
        .inr (.inr ⟨hnone, not_lt.2 hfull, by decide, ?_, key, ?_⟩)⟩)))
      · exact h2.free_junk (Junk.template (Heap.get_set_self ..) rfl)
      · have hback : Same { s' with heap := s'.heap.set key _ } { s' with
            heap := ((s'.heap.set key (.dentry ⟨name.take 31, 0, q.dentry⟩)).set p
              (.dentry ⟨name.take 31, 0, q.dentry⟩)).free p } :=
          ⟨Heap.get_free_set _ _ hfree', rfl⟩
        exact ⟨htook.trans hback.took, hstray.trans hback.leaves⟩
    · rw [if_neg (by decide)]
      refine ensures_pure (.inr ⟨q, name, htarget, .inr (.inl ⟨hnone, hroom, rfl, key, p, ino, data,
        num, ?_, ?_, hholds⟩)⟩)
      · exact htook.trans ((Took.set _ hfree').trans hadded)
      · exact hstray.trans ((Leaves.set _ hfree' rfl).linked hfree' hlinked)
  · obtain ⟨hmem, -, -⟩ := Nodes.child_mem hm
    have h2 := h1.free_junk (Junk.template (Heap.get_set_self ..) rfl)
    rw [if_neg (h.wf.ptr_ne_zero hmem m.dentry_mem)]
    refine ensures_bind (ensures_dentryAt (h2.placed m hmem).dentry
      (ensures_bind (ensures_pure ?_)))
    beta_reduce
    rw [if_pos (by simpa using h.wf.ptr_ne_zero hmem m.inode_mem)]
    have hback : Same s' { s' with
        heap := (s'.heap.set key (.dentry ⟨name.take 31, 0, q.dentry⟩)).free key } :=
      ⟨Heap.get_free_set _ _ hfree, rfl⟩
    refine ensures_pure (.inr ⟨q, name, htarget, .inl ⟨?_, by decide, hs.trans hback⟩⟩)
    rw [hm]
    exact Option.some_ne_none m

/-- **`vfs_mkdir`** adds a node, or fails and leaves the tree alone. -/
theorem vfsMkdir_spec (h : Holds N s) (path : Option CString) (mode : UInt32) :
    Ensures (vfsMkdir K path mode) s
      (fun r s' =>
        (∃ q name, N.target path 64 = some (q, name) ∧ N.child q (name.take 31) = none ∧ N.Room q ∧
          r = 0 ∧ Added N q (name.take 31) (sIfdir ||| mode) s') ∨
        (∀ q name, N.target path 64 = some (q, name) → N.child q (name.take 31) = none →
          ¬N.Room q) ∧ r < 0 ∧ Holds N s')
      (Refused K) := by
  refine (vfsMkdir_ledger h path mode).imp ?_
  have hunique : ∀ {q name q' name'}, N.target path 64 = some (q, name) →
      N.target path 64 = some (q', name') → q' = q ∧ name' = name :=
    fun ht ht' => Prod.mk.inj (Option.mem_unique ht' ht)
  rintro r s' (⟨hnone, hr, hs⟩ | ⟨q, name, ht, ⟨htaken, hr, hs⟩ | ⟨hnew, hroom, hr, key, hadded⟩ |
    ⟨-, hfull, hr, h', -⟩⟩)
  · exact .inr ⟨fun q name ht => (nomatch hnone.symm.trans ht), hr, h.same hs⟩
  · refine .inr ⟨fun q' name' ht' hnew => ?_, hr, h.same hs⟩
    obtain ⟨rfl, rfl⟩ := hunique ht ht'
    exact absurd hnew htaken
  · exact .inl ⟨q, name, ht, hnew, hroom, hr, hadded.added⟩
  · refine .inr ⟨fun q' name' ht' _ => ?_, hr, h'⟩
    obtain ⟨rfl, -⟩ := hunique ht ht'
    exact hfull

/-- **`vfs_open`** opens a path that leads to a file. -/
theorem vfsOpen_spec (h : Holds N s) (path : Option CString) : Ensures (vfsOpen K path) s
      (fun r s' =>
        (∃ n, N.lookup path = some n ∧ n.body ≠ .dir ∧ r ≠ 0 ∧
          s'.heap.get r = some (.handle ⟨n.dentry, 0, .ramfs, none⟩) ∧ Leaves s s' [] ∧
          Holds N s') ∨
        (∀ n, N.lookup path = some n → n.body = .dir) ∧ r = 0 ∧ Same s s')
      (Refused K) := by
  unfold vfsOpen
  refine (vfsLookup_spec h path).bind ?_
  rintro p s' ⟨hs, rfl⟩
  have h' := h.same hs
  rcases Nodes.ptrOf_cases h.wf (fun n (hn : N.lookup path = some n) => Nodes.lookup_mem hn) with
    ⟨hl, hz⟩ | ⟨n, hn, hl, hp, hn0⟩
  · rw [if_pos hz]
    refine ensures_pure (.inr ⟨fun n heq => ?_, rfl, hs⟩)
    rw [hl] at heq
    cases heq
  rw [hp, if_neg hn0]
  refine ensures_bind (ensures_dentryAt (h'.placed n hn).dentry ?_)
  rw [if_neg (h.wf.ptr_ne_zero hn n.inode_mem)]
  refine ensures_bind (ensures_inodeAt (h'.placed n hn).inode ?_)
  by_cases hd : IsDir n.mode
  · rw [if_pos hd]
    refine ensures_pure (.inr ⟨fun m heq => ?_, rfl, hs⟩)
    obtain rfl := Option.mem_unique hl heq
    exact (h.wf.isDir_iff hn).1 hd
  · rw [if_neg hd]
    refine ensures_kmalloc fun p hp hfree => .inl ⟨n, hl, ?_, hp, Heap.get_set_self .., ?_, ?_⟩
    · exact fun hb => hd ((h.wf.isDir_iff hn).2 hb)
    · exact hs.leaves.trans (.other (p := p) (by simp [Stray, hfree]) (by simp [Stray]) fun r hr =>
        Heap.get_set_of_ne _ _ hr)
    · exact h'.set_junk (by rw [hfree]; trivial) trivial

end Specs

end Hvos.Fs
