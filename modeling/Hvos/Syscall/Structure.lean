import Hvos.Fs.Shape
import Hvos.Syscall.Pointers

/-!
# Syscall/Structure — what system calls do to the directories

`SC_OPEN`, `SC_READ` and `SC_WRITE`, by any processes with any arguments, on a ramfs tree.  They
keep every dentry and every directory as long as no bytes are written through a descriptor of a
directory and no bytes are read into the kernel.  `sys_open` opens directories, and `ramfs_write`
takes their data for that of a file.
-/

namespace Hvos.Syscall

open Prog Fs Memory Function

/-! ## Dentries and directories -/

/-- **The same structure**: every dentry, with its name, inode and parent, and the entries of every
directory. -/
structure SameStructure (s s' : FsState) : Prop where
  dentry : ∀ p d, s'.heap.get p = some (.dentry d) ↔ s.heap.get p = some (.dentry d)
  dir : ∀ p d, s'.heap.get p = some (.dir d) ↔ s.heap.get p = some (.dir d)

namespace SameStructure

variable {s s' s'' : FsState} {p : Ptr}

theorem of_get (h : s'.heap.get = s.heap.get) : SameStructure s s' :=
  ⟨fun _ _ => by rw [h], fun _ _ => by rw [h]⟩

theorem refl (s : FsState) : SameStructure s s := of_get rfl

theorem trans (h : SameStructure s s') (h' : SameStructure s' s'') : SameStructure s s'' :=
  ⟨fun p d => (h'.dentry p d).trans (h.dentry p d), fun p d => (h'.dir p d).trans (h.dir p d)⟩

/-- An open file, on a free block or on its own. -/
theorem set_handle (s : FsState) {f : File}
    (hp : s.heap.get p = none ∨ ∃ g, s.heap.get p = some (.handle g)) :
    SameStructure s { s with heap := s.heap.set p (.handle f) } := by
  have hother : ∀ {o : Obj}, (∀ g, o ≠ .handle g) → ∀ r,
      (s.heap.set p (.handle f)).get r = some o ↔ s.heap.get r = some o := by
    intro o ho r
    rcases eq_or_ne r p with rfl | hne
    · rw [Heap.get_set_self]
      refine iff_of_false (fun heq => ho f (Option.some.inj heq).symm) fun heq => ?_
      rcases hp with hp | ⟨g, hp⟩
      · cases hp.symm.trans heq
      · exact ho g (Option.mem_unique heq hp)
    · rw [Heap.get_set_of_ne _ _ hne]
  exact ⟨fun r d => hother (by simp) r, fun r d => hother (by simp) r⟩

end SameStructure

section Rewrite

variable {N : Nodes} {m : Node} {s s' : FsState} {p : Ptr} {b : Body}

/-- **New contents for a file leave the structure.** -/
theorem SameStructure.rewrite (h : Holds N s) (hm : m ∈ N) (hold : m.body ≠ .dir) (hnew : b ≠ .dir)
    (h' : Holds (N.setBody m.dentry b) s') (hjunk : JunkKept s s') : SameStructure s s' := by
  have hmem := @Nodes.mem_setBody N
  have hin : ∀ {n}, n ∈ N → n ≠ m → n ∈ N.setBody m.dentry b := fun hn hne =>
    (hmem h.wf hm).2 (.inr ⟨hn, hne⟩)
  have hself : { m with body := b } ∈ N.setBody m.dentry b := (hmem h.wf hm).2 (.inl rfl)
  refine ⟨fun p d => ?_, fun p d => ?_⟩
  · by_cases hd : d.dInode = 0
    · exact hjunk p (.dentry d) hd
    rw [h.dentry_iff hd, h'.dentry_iff hd]
    constructor
    · rintro ⟨n, hn, rfl, rfl⟩
      rcases (hmem h.wf hm).1 hn with rfl | ⟨hn, -⟩
      · exact ⟨m, hm, rfl, rfl⟩
      · exact ⟨n, hn, rfl, rfl⟩
    · rintro ⟨n, hn, rfl, rfl⟩
      rcases eq_or_ne n m with rfl | hne
      · exact ⟨_, hself, rfl, rfl⟩
      · exact ⟨n, hin hn hne, rfl, rfl⟩
  · rw [h.dir_iff, h'.dir_iff, Nodes.entries_setBody]
    constructor
    · rintro ⟨n, hn, rfl, hdir, rfl⟩
      rcases (hmem h.wf hm).1 hn with rfl | ⟨hn, -⟩
      · exact absurd hdir hnew
      · exact ⟨n, hn, rfl, hdir, rfl⟩
    · rintro ⟨n, hn, rfl, hdir, rfl⟩
      have hne : n ≠ m := by
        rintro rfl
        exact hold hdir
      exact ⟨n, hin hn hne, rfl, hdir, rfl⟩

end Rewrite

/-! ## Processes on a tree -/

/-- An open file of the tree.  One of a directory has not moved; a read goes past the end of a file
by less than its size. -/
def Fits (N : Nodes) (f : File) : Prop :=
  f.fOps = .ramfs → f.fPos ≤ 2 ^ 63 + 2 ^ 32 ∧
    ∃ n ∈ N, f.fDentry = n.dentry ∧ (n.body = .dir → f.fPos = 0)

/-- **The tree `N` on the heap**, and in the slots of the processes nothing or open files of it. -/
structure OnTree (N : Nodes) (s : Sys) : Prop where
  holds : Holds N s.fs
  capacities : ∀ n ∈ N, ∀ {size f c}, n.body = .file size f c → Capacity f.capacity
  files : ∀ pid fd, fd < maxFilesPerProcess → s.fileTable pid fd ≠ 0 →
    ∃ f, s.fs.heap.get (s.fileTable pid fd) = some (.handle f) ∧ Fits N f

/-- `sys_write` takes bytes to a directory. -/
def IntoDir (s : Sys) (fd size : ℕ) : Prop :=
  0 < size ∧ ∃ f i, Opened s (s.fileTable s.pid fd) f ∧ f.fOps = .ramfs ∧ OpenInode s f i ∧
    IsDir i.iMode

/-- The end of a call: still on a tree, of the same structure. -/
def Kept (s s' : Sys) : Prop := (∃ N, OnTree N s') ∧ SameStructure s.fs s'.fs

variable {H : Sys → Prop} {fs : FsState} {fd size buffer : ℕ}

section Calls

variable {K : Kmalloc} {N : Nodes} {m n : Node} {s s' s'' : Sys} {f g : File} {filp : Ptr}

theorem OnTree.kept (h : OnTree N s) : Kept s s := ⟨⟨N, h⟩, .refl _⟩

theorem Kept.trans (h : Kept s s') (h' : Kept s' s'') : Kept s s'' := ⟨h'.1, h.2.trans h'.2⟩

/-- Only the objects and the slots matter. -/
theorem OnTree.congr (h : OnTree N s) (hfs : s'.fs = s.fs) (htable : s'.fileTable = s.fileTable) :
    OnTree N s' := ⟨hfs ▸ h.holds, h.capacities, by rw [hfs, htable]; exact h.files⟩

/-- **An open file moves.** -/
theorem OnTree.set_handle (h : OnTree N s) (hf : s.fs.heap.get filp = some (.handle f))
    (hg : Fits N g) :
    OnTree N { s with fs := { s.fs with heap := s.fs.heap.set filp (.handle g) } } := by
  refine ⟨h.holds.set_junk (by rw [hf]; trivial) trivial, h.capacities, fun pid fd hfd hslot => ?_⟩
  obtain ⟨f', hf', hfit⟩ := h.files pid fd hfd hslot
  by_cases heq : s.fileTable pid fd = filp
  · exact ⟨g, by rw [heq]; exact Heap.get_set_self .., hg⟩
  · exact ⟨f', by rw [← hf']; exact Heap.get_set_of_ne _ _ heq, hfit⟩

theorem advance_spec (hf : s.fs.heap.get filp = some (.handle f)) (count : ℕ) :
    Ensures (advance filp count) s
      (fun _ s' => s' = { s with fs := { s.fs with
        heap := s.fs.heap.set filp (.handle { f with fPos := wrap (f.fPos + count) }) } }) H :=
  ensures_bind (ensures_onFs (ensures_handleAt hf (ensures_onFs (ensures_modify rfl))))

/-! ### `sys_open` -/

theorem loadString_quiet (p : ℕ) : Ensures (loadString p) s
      (fun _ s' => s'.fs = s.fs ∧ s'.fileTable = s.fileTable ∧ s'.pid = s.pid) fun _ => True := by
  unfold loadString
  refine ensures_read_bind (ensures_modify_bind ?_)
  cases strlenFrom s.mem p (2 ^ 64) 0 with
  | none => exact ensures_halt trivial
  | some n => exact ensures_pure ⟨rfl, rfl, rfl⟩

/-- A new open file in a free slot. -/
theorem OnTree.opened (h : OnTree N s) (hfree : s.fs.heap.get filp = none) (fd : ℕ)
    (hf : Fits N f) : OnTree N { s with
      fs := { s.fs with heap := s.fs.heap.set filp (.handle f) }
      fileTable := update s.fileTable s.pid (update (s.fileTable s.pid) fd filp) } := by
  refine ⟨h.holds.set_junk (by rw [hfree]; trivial) trivial, h.capacities, fun pid i hi hslot => ?_⟩
  have hold : s.fileTable pid i ≠ 0 → ∃ f', (s.fs.heap.set filp (.handle f)).get
      (s.fileTable pid i) = some (.handle f') ∧ Fits N f' := by
    intro hne
    obtain ⟨f', hf', hfit⟩ := h.files pid i hi hne
    have hap : s.fileTable pid i ≠ filp := by
      intro heq
      rw [heq, hfree] at hf'
      cases hf'
    exact ⟨f', by rw [Heap.get_set_of_ne _ _ hap, hf'], hfit⟩
  by_cases hpid : pid = s.pid
  · subst hpid
    simp only [update_self] at hslot ⊢
    by_cases hfd : i = fd
    · subst hfd
      rw [update_self]
      exact ⟨f, Heap.get_set_self .., hf⟩
    · rw [update_of_ne hfd] at hslot ⊢
      exact hold hslot
  · simp only [update_of_ne hpid] at hslot ⊢
    exact hold hslot

/-- **`sys_open` has opened a file of the tree**, in the first free slot. -/
structure Taken (N : Nodes) (s : Sys) (flags : UInt32) (fd : ℕ) (s' : Sys) : Prop where
  lt : fd < maxFilesPerProcess
  free : s.fileTable s.pid fd = 0
  first : ∀ i < fd, s.fileTable s.pid i ≠ 0
  table : ∃ filp, ∃ n ∈ N, filp ≠ 0 ∧ s.fs.heap.get filp = none ∧
    s'.fileTable = update s.fileTable s.pid (update (s.fileTable s.pid) fd filp) ∧
    s'.fs.heap.get = update s.fs.heap.get filp (some (.handle ⟨n.dentry, 0, .ramfs, some flags⟩))

/-- **`sys_open` has failed**, and left tables and open files as they were. -/
structure Failed (s : Sys) (r : ℤ) (s' : Sys) : Prop where
  neg : r < 0
  full : r = -24 → TableFull s
  table : s'.fileTable = s.fileTable
  get : s'.fs.heap.get = s.fs.heap.get

/-- **What `sys_open` does.** -/
theorem sysOpen_cases (h : Holds N s.fs) (path : ℕ) (flags : UInt32) :
    Ensures (sysOpen K path flags) s
      (fun r s' => Holds N s'.fs ∧ s'.pid = s.pid ∧
        (Failed s r s' ∨ ∃ fd : ℕ, r = fd ∧ Taken N s flags fd s')) fun _ => True := by
  unfold sysOpen
  refine ensures_read_bind ?_
  by_cases hnull : s.fs.rootDentry = 0 ∨ path = 0
  · rw [if_pos hnull]
    exact ensures_pure ⟨h, rfl, .inl ⟨by decide, fun heq => absurd heq (by decide), rfl, rfl⟩⟩
  rw [if_neg hnull]
  refine ensures_bind (ensures_modify_bind (ensures_read (ensures_read_bind ?_)))
  dsimp only
  cases hfd : (List.range maxFilesPerProcess).find? fun i => s.fileTable s.pid i = 0 with
  | none =>
    refine ensures_pure ⟨h, rfl, .inl ⟨by decide, fun _ fd hlt hz => ?_, rfl, rfl⟩⟩
    exact absurd hz (by simpa using List.find?_eq_none.1 hfd fd (List.mem_range.2 hlt))
  | some fd =>
    dsimp only
    refine (loadString_quiet _).bind ?_
    rintro str s1 ⟨hfs, htable, hpid⟩
    have h1 : Holds N s1.fs := hfs ▸ h
    refine ensures_bind (ensures_onFs ((vfsLookup_spec (K := K) h1 (some str)).mono ?_
      fun _ _ => trivial))
    rintro dentry fs2 ⟨hsame, rfl⟩
    have h2 : Holds N fs2 := h1.same hsame
    have hget : fs2.heap.get = s.fs.heap.get := hsame.get.trans (by rw [hfs])
    rcases Nodes.ptrOf_cases h1.wf
      (fun n (hn : N.lookup (some str) = some n) => Nodes.lookup_mem hn) with
      ⟨-, hz⟩ | ⟨n, hn, -, hp, hn0⟩
    · rw [hz, if_pos rfl]
      exact ensures_pure ⟨h2, hpid,
        .inl ⟨by decide, fun heq => absurd heq (by decide), htable, hget⟩⟩
    have hpl := h2.placed n hn
    rw [hp, if_neg hn0]
    refine ensures_bind (ensures_onFs (ensures_dentryAt hpl.dentry ?_))
    rw [if_neg (h2.wf.ptr_ne_zero hn n.inode_mem)]
    refine ensures_bind (ensures_onFs (ensures_inodeAt hpl.inode (ensures_bind (ensures_onFs
      ((ensures_kmalloc fun filp hne hfree => ?_).mono (fun _ _ => id) fun _ _ => trivial)))))
    refine ensures_modify_bind (ensures_pure ⟨?_, hpid, .inr ⟨fd, rfl, ?_⟩⟩)
    · exact h2.set_junk (by rw [hfree]; trivial) trivial
    · obtain ⟨hz, hlt, hfirst⟩ := List.find?_range_eq_some.1 hfd
      refine ⟨List.mem_range.1 hlt, by simpa using hz, fun i hi => by simpa using hfirst i hi,
        filp, n, hn, hne, ?_, ?_, ?_⟩
      · rw [← hget]
        exact hfree
      · dsimp only
        rw [htable, hpid]
      · rw [← hget]
        rfl

theorem sysOpen_kept (h : OnTree N s) (path : ℕ) (flags : UInt32) :
    Ensures (sysOpen K path flags) s (fun _ => Kept s) fun _ => True := by
  refine (sysOpen_cases h.holds path flags).imp ?_
  rintro r s' ⟨hholds, -, hfailed | ⟨fd, -, htaken⟩⟩
  · refine ⟨⟨N, hholds, h.capacities, ?_⟩, .of_get hfailed.get⟩
    rw [hfailed.table, hfailed.get]
    exact h.files
  · obtain ⟨filp, n, hn, -, hfree, htable, hget⟩ := htaken.table
    refine ⟨⟨N, hholds, h.capacities, ?_⟩, (SameStructure.set_handle _ (.inl hfree)).trans
      (.of_get hget)⟩
    rw [htable, hget]
    exact (h.opened hfree fd fun _ => ⟨Nat.zero_le _, n, hn, rfl, fun _ => rfl⟩).files

/-! ### `sys_read` -/

theorem fetch_of_get {α : Type} {kind : Obj → Option α} {p : Ptr} {o : Obj} {a : α}
    (ho : fs.heap.get p = some o) (hk : kind o = some a) : fetch kind p fs = .done a fs := by
  simp [fetch, ho, hk]

theorem opened_iff : Opened s filp f ↔ s.fs.heap.get filp = some (.handle f) := by
  refine ⟨fun h => ?_, fun h => fetch_of_get h rfl⟩
  unfold Opened handleAt fetch at h
  cases hget : s.fs.heap.get filp with
  | none => simp [hget] at h
  | some o => cases o <;> simp_all

/-- An open file of the tree, by its slot. -/
theorem OnTree.fits (h : OnTree N s) {pid : ℕ} (hfd : fd < maxFilesPerProcess)
    (hslot : s.fileTable pid fd ≠ 0) (hf : s.fs.heap.get (s.fileTable pid fd) = some (.handle f)) :
    Fits N f := by
  obtain ⟨f', hf', hfit⟩ := h.files pid fd hfd hslot
  cases hf.symm.trans hf'
  exact hfit

/-- The inode of an open file of the tree. -/
theorem OpenInode.of_holds (h : Holds N s.fs) (hn : n ∈ N) (hd : f.fDentry = n.dentry) :
    OpenInode s f ⟨n.ino, n.mode, n.body.size, true, n.data⟩ := by
  refine ⟨⟨n.name, n.inode, n.parent⟩, ?_, fetch_of_get (h.placed n hn).inode rfl⟩
  rw [hd]
  exact fetch_of_get (h.placed n hn).dentry rfl

/-- **An open file moves on**, which matters to nothing else. -/
theorem advance_kept (h : OnTree N s) (hf : s.fs.heap.get filp = some (.handle f)) {count : ℕ}
    (hfit : Fits N { f with fPos := wrap (f.fPos + count) }) :
    Ensures (advance filp count) s (fun _ => Kept s) H := by
  refine (advance_spec hf count).imp ?_
  rintro _ _ rfl
  exact ⟨⟨N, h.set_handle hf hfit⟩, .set_handle _ (.inr ⟨f, hf⟩)⟩

/-- Stores to these bytes miss the objects. -/
def Clear (K : Kmalloc) (p n : ℕ) : Prop := ∀ k < n, ∀ h b, K.clobber h (wrap (p + k)) b = h

theorem Below.clear {p n : ℕ} (hb : Below (bytesFrom p n)) : Clear K p n := fun k hk _ _ =>
  K.clobber_user (below_bytesFrom.1 hb k hk)

theorem Clear.clobberRange {p n : ℕ} (hc : Clear K p n) (o : Heap Obj) (src : ℕ → UInt8) :
    clobberRange K o p src n = o := by
  unfold Fs.clobberRange
  induction n with
  | zero => rfl
  | succ n ih =>
    rw [List.range_succ, List.foldl_append, ih fun k hk => hc k (by omega)]
    exact hc n (by omega) _ _

theorem storeBytes_user {p n : ℕ} (src : ℕ → UInt8) (hb : Below (bytesFrom p n)) :
    Ensures (storeBytes K p src n) s
      (fun _ s' => s'.fs = s.fs ∧ s'.fileTable = s.fileTable) H := by
  refine ensures_modify_bind (ensures_modify ⟨?_, rfl⟩)
  dsimp only
  rw [hb.clear.clobberRange]

/-- How far a read takes an open file. -/
theorem readSize_le {iSize pos : ℕ} (hpos : pos < iSize) (hle : iSize ≤ 2 ^ 63)
    (hsize : size < 2 ^ 32) : wrap (pos + readSize iSize pos size) ≤ 2 ^ 63 + 2 ^ 32 := by
  unfold readSize wrap
  split_ifs <;> omega

theorem ramfsRead_kept (h : OnTree N s) (hfd : fd < maxFilesPerProcess)
    (hslot : s.fileTable s.pid fd ≠ 0)
    (hf : s.fs.heap.get (s.fileTable s.pid fd) = some (.handle f)) (hflags : f.fFlags ≠ none)
    (hops : f.fOps = .ramfs) (buffer : ℕ) (hsize : size < 2 ^ 32)
    (huser : ∀ n, Stores s fd size n → Below (bytesFrom buffer n)) :
    Ensures (ramfsRead K (s.fileTable s.pid fd) buffer size) s (fun _ => Kept s) fun _ => True := by
  obtain ⟨-, n, hn, hd, -⟩ := h.fits hfd hslot hf hops
  have hpl := h.holds.placed n hn
  have hdata : n.data ≠ 0 := h.holds.wf.ptr_ne_zero hn n.data_mem
  unfold ramfsRead
  refine ensures_bind (ensures_onFs (ensures_handleAt hf (ensures_bind (ensures_onFs
    (ensures_dentryAt (hd ▸ hpl.dentry) (ensures_bind (ensures_onFs (ensures_inodeAt hpl.inode ?_))))))))
  rw [if_neg hdata]
  cases hb : n.body with
  | dir =>
    refine ensures_bind (ensures_onFs (ensures_fetch (h.holds.dir_placed hn hb).2 rfl ?_))
    rw [if_pos (.inr (Nat.zero_le _))]
    exact ensures_pure h.kept
  | file fileSize fdata c =>
    have hfile := (h.holds.file_placed hn hb).2.1
    refine ensures_bind (ensures_onFs (ensures_fileAt hfile ?_))
    split_ifs with hstop
    · exact ensures_pure h.kept
    obtain ⟨hbuf, hpos⟩ := not_or.1 hstop
    have hstores : Stores s fd size (readSize fileSize f.fPos size) := by
      have hinode := OpenInode.of_holds h.holds hn hd
      rw [hb] at hinode
      exact ⟨f, opened_iff.2 hf, hflags, .inr ⟨hops, _, fdata, hinode, hdata,
        fetch_of_get hfile rfl, hbuf, not_le.1 hpos, rfl⟩⟩
    refine ensures_bind (ensures_onFs (ensures_read
      ((storeBytes_user _ (huser _ hstores)).bind fun _ s1 h1 => ?_)))
    have hkept : Kept s s1 := ⟨⟨N, h.congr h1.1 h1.2⟩, h1.1 ▸ .refl _⟩
    refine (advance_kept (h.congr h1.1 h1.2) (h1.1 ▸ hf) fun _ =>
      ⟨?_, n, hn, hd, fun hdir => ?_⟩).bind fun _ s2 h2 => ensures_pure (hkept.trans h2)
    · have hcap := (h.capacities n hn hb).le
      have hle := (h.holds.file_sound hn hb).2.1
      exact readSize_le (not_le.1 hpos) (hle.trans hcap) hsize
    · cases hb.symm.trans hdir

theorem sysRead_kept (h : OnTree N s) (key : UInt8) (hsize : size < 2 ^ 32)
    (htame : ReadFails s fd buffer size ∨ ∀ n, Stores s fd size n → Below (bytesFrom buffer n)) :
    Ensures (sysRead K key fd buffer size) s (fun _ => Kept s) fun _ => True := by
  rcases htame with hfails | huser
  · refine (sysRead_fails key hfails).mono ?_ fun _ _ => trivial
    rintro _ _ ⟨-, rfl⟩
    exact h.kept
  unfold sysRead
  by_cases hz : buffer = 0 ∨ size = 0
  · rw [if_pos hz]
    exact ensures_pure h.kept
  rw [if_neg hz]
  refine ensures_read_bind (ensures_bind (ensures_onFs_fetch (fun f hf => ?_)
    fun _ => trivial))
  have hopened : Opened s (s.fileTable s.pid fd) f := hf
  unfold accessMode
  cases hflags : f.fFlags with
  | none => exact ensures_bind (ensures_halt trivial)
  | some flags =>
    have hset : f.fFlags ≠ none := by simp [hflags]
    refine ensures_bind (ensures_pure ?_)
    split_ifs with hmode hfd
    · exact ensures_pure h.kept
    · exact ensures_pure h.kept
    obtain ⟨hmax, hslot⟩ := not_or.1 hfd
    refine ensures_bind (ensures_of_done (onFs_done hf) ?_)
    cases hops : f.fOps with
    | null => exact ensures_pure h.kept
    | console =>
      have hone : Stores s fd size 1 := ⟨f, hopened, hset, .inl ⟨hops, rfl⟩⟩
      exact (storeBytes_user _ (huser 1 hone)).bind fun _ s1 h1 =>
        ensures_pure ⟨⟨N, h.congr h1.1 h1.2⟩, h1.1 ▸ .refl _⟩
    | ramfs =>
      have hlt : fd < maxFilesPerProcess := (not_le.1 hmax).trans (by decide)
      exact ramfsRead_kept h hlt hslot (opened_iff.1 hopened) hset hops buffer hsize huser

/-! ### `sys_write` -/

/-- **New contents for a file of the tree**, with the open files as they were. -/
theorem OnTree.rewrite (h : OnTree N s) (hn : n ∈ N) (hold : n.body ≠ .dir) {b : Body}
    (hnew : b ≠ .dir) (hfs : Holds (N.setBody n.dentry b) fs) (hjunk : JunkKept s.fs fs)
    (hcap : ∀ {size f c}, b = .file size f c → Capacity f.capacity) :
    OnTree (N.setBody n.dentry b) { s with fs } := by
  refine ⟨hfs, fun m hm _ _ _ hmb => ?_, fun pid fd hfd hslot => ?_⟩
  · rcases (Nodes.mem_setBody h.holds.wf hn).1 hm with rfl | ⟨hm, -⟩
    · exact hcap hmb
    · exact h.capacities m hm hmb
  obtain ⟨f, hf, hfit⟩ := h.files pid fd hfd hslot
  refine ⟨f, (hjunk _ (.handle f) trivial).2 hf, fun hops => ?_⟩
  obtain ⟨hpos, m, hm, hd, hstart⟩ := hfit hops
  refine ⟨hpos, ?_⟩
  rcases eq_or_ne m n with rfl | hne
  · exact ⟨_, (Nodes.mem_setBody h.holds.wf hn).2 (.inl rfl), hd, fun hdir => absurd hdir hnew⟩
  · exact ⟨m, (Nodes.mem_setBody h.holds.wf hn).2 (.inr ⟨hm, hne⟩), hd, hstart⟩

/-- No bytes to a directory: nothing happens. -/
theorem ramfsWrite_dir_zero (h : Holds N fs) (hn : n ∈ N) (hdir : n.body = .dir)
    (hf : fs.heap.get filp = some (.handle f)) (hd : f.fDentry = n.dentry) (src : ℕ → UInt8)
    {H : FsState → Prop} :
    Ensures (ramfsWrite K filp src 0 0) fs (fun r fs' => r = (0, 0) ∧ fs' = fs) H := by
  obtain ⟨hinode, hdata⟩ := h.dir_placed hn hdir
  unfold ramfsWrite
  refine ensures_bind (ensures_handleAt hf (ensures_bind (ensures_dentryAt
    (hd ▸ (h.placed n hn).dentry) (ensures_bind (ensures_inodeAt hinode ?_)))))
  rw [if_neg (h.wf.ptr_ne_zero hn n.data_mem)]
  refine ensures_bind (ensures_fetch hdata rfl ?_)
  dsimp only
  rw [if_neg (show ¬wrap (0 + 0) > _ from Nat.not_lt_zero _)]
  exact ensures_bind (ensures_pure (ensures_bind (ensures_memcpyTo
    (fun _ => ensures_pure ⟨rfl, rfl⟩) fun hne => absurd rfl hne)))

/-- The end of a write: the bytes were read, and the open file moves on. -/
theorem written_kept (h : OnTree N s) (hf : s.fs.heap.get filp = some (.handle f)) {count : ℕ}
    (hfit : Fits N { f with fPos := wrap (f.fPos + count) }) (addresses : List ℕ) (r : ℤ) :
    Ensures (do touch addresses; advance filp count; pure r) s (fun _ => Kept s) H :=
  have h1 : OnTree N { s with touched := s.touched ++ addresses } := h.congr rfl rfl
  ensures_modify_bind ((advance_kept h1 hf hfit).bind fun _ _ h2 => ensures_pure h2)

theorem ramfsWriteFrom_kept (h : OnTree N s) (hfd : fd < maxFilesPerProcess)
    (hslot : s.fileTable s.pid fd ≠ 0)
    (hf : s.fs.heap.get (s.fileTable s.pid fd) = some (.handle f)) (hops : f.fOps = .ramfs)
    (buffer : ℕ) (hsize : size < 2 ^ 32) (hdir : ∀ i, OpenInode s f i → IsDir i.iMode → size = 0) :
    Ensures (ramfsWriteFrom K (s.fileTable s.pid fd) buffer size) s (fun _ => Kept s)
      fun _ => True := by
  obtain ⟨hpos, n, hn, hd, hstart⟩ := h.fits hfd hslot hf hops
  unfold ramfsWriteFrom
  refine ensures_bind (ensures_onFs (ensures_handleAt hf (ensures_read_bind ?_)))
  cases hb : n.body with
  | dir =>
    have hz : size = 0 := hdir _ (OpenInode.of_holds h.holds hn hd) ((h.holds.wf.isDir_iff hn).2 hb)
    replace hstart := hstart hb
    subst hz
    rw [hstart]
    refine ensures_bind (ensures_onFs ((ramfsWrite_dir_zero h.holds hn hb hf hd _).imp ?_))
    rintro r fs ⟨rfl, rfl⟩
    rw [if_neg (lt_irrefl _)]
    refine written_kept h hf (fun _ => ⟨?_, n, hn, hd, fun _ => ?_⟩) _ _
    · simp [hstart, wrap]
    · simp [hstart, wrap]
  | file fileSize fdata c =>
    have hold : n.body ≠ .dir := by simp [hb]
    have hspec := ramfsWrite_spec (K := K) (H := fun _ => True) h.holds hn hb hf hd
      (fun k => s.mem (wrap (buffer + k))) (show f.fPos + size < 2 ^ 64 by omega)
      (fun _ _ => trivial) fun _ => trivial
    refine ensures_bind (ensures_onFs (hspec.imp ?_))
    rintro r fs ⟨rfl, f', c', hfits, hgrown, hfs, hjunk, -⟩
    have hcap := hgrown.capacity (h.capacities n hn hb)
    have hfs' := h.rewrite hn hold (by simp) hfs hjunk fun heq => by cases heq; exact hcap
    have hsame := SameStructure.rewrite h.holds hn hold (by simp) hfs hjunk
    rw [if_neg (not_lt.2 (Int.natCast_nonneg size))]
    have hf' : fs.heap.get (s.fileTable s.pid fd) = some (.handle f) :=
      (hjunk _ (.handle f) trivial).2 hf
    have hend : wrap (f.fPos + size) ≤ 2 ^ 63 + 2 ^ 32 := by
      have hle := hcap.le
      unfold wrap
      omega
    exact (written_kept hfs' hf' (fun _ => ⟨hend, _, (Nodes.mem_setBody h.holds.wf hn).2 (.inl rfl),
      hd, fun hb => by cases hb⟩) _ _).imp fun _ s1 h1 => ⟨h1.1, hsame.trans h1.2⟩

theorem sysWrite_kept (h : OnTree N s) (hsize : size < 2 ^ 32)
    (htame : WriteFails s fd ∨ ¬IntoDir s fd size) :
    Ensures (sysWrite K fd buffer size) s (fun _ => Kept s) fun _ => True := by
  rcases htame with hfails | hfile
  · refine (sysWrite_fails hfails).mono ?_ fun _ _ => trivial
    rintro _ _ ⟨-, rfl⟩
    exact h.kept
  unfold sysWrite
  by_cases hmax : fd ≥ maxFilesPerProcess
  · rw [if_pos hmax]
    exact ensures_pure h.kept
  rw [if_neg hmax]
  refine ensures_read_bind ?_
  by_cases hslot : s.fileTable s.pid fd = 0
  · rw [if_pos hslot]
    exact ensures_pure h.kept
  rw [if_neg hslot]
  refine ensures_bind (ensures_onFs_fetch (fun f hf => ?_) fun _ => trivial)
  have hopened : Opened s (s.fileTable s.pid fd) f := hf
  by_cases hnull : f.fOps = .null
  · rw [if_pos hnull]
    exact ensures_pure h.kept
  rw [if_neg hnull]
  unfold accessMode
  cases hflags : f.fFlags with
  | none => exact ensures_bind (ensures_halt trivial)
  | some flags =>
    refine ensures_bind (ensures_pure ?_)
    split_ifs with hmode hcon
    · exact ensures_pure h.kept
    · exact ensures_modify_bind (ensures_pure ⟨⟨N, h.congr rfl rfl⟩, .refl _⟩)
    · have hops : f.fOps = .ramfs := by
        cases hops : f.fOps with
        | null => exact absurd hops hnull
        | console => exact absurd hops hcon
        | ramfs => rfl
      refine ramfsWriteFrom_kept h (not_le.1 hmax) hslot (opened_iff.1 hopened) hops buffer hsize
        fun i hi hdir => ?_
      by_contra hne
      exact hfile ⟨Nat.pos_of_ne_zero hne, f, i, hopened, hops, hi, hdir⟩

/-! ### Bytes into a directory -/

/-- Directory data with a second entry. -/
def Spoilt (p : Ptr) (fs : FsState) : Prop := ∃ d, fs.heap.get p = some (.dir d) ∧ d.children 1 ≠ 0

theorem Spoilt.set {p r : Ptr} (h : Spoilt p fs) (hne : p ≠ r) (o : Obj) :
    Spoilt p { fs with heap := fs.heap.set r o } := by
  obtain ⟨d, hd, hone⟩ := h
  exact ⟨d, by rw [Heap.get_set_of_ne _ _ hne, hd], hone⟩

theorem Nodes.children_one {p : Ptr} (hfew : (N.entries p).childCount ≤ 1) :
    (N.entries p).children 1 = 0 := by
  have hlen : (N.kids p).length ≤ 1 := hfew
  simp [Nodes.entries, List.getElem?_eq_none hlen]

/-- A first entry is a dentry. -/
theorem Holds.first_dentry (h : Holds N fs) {p : Ptr} (hz : (N.entries p).children 0 ≠ 0) :
    ∃ d, fs.heap.get ((N.entries p).children 0) = some (.dentry d) := by
  cases hk : N.kids p with
  | nil => simp [Nodes.entries, hk] at hz
  | cons m ms =>
    have hm : m ∈ N := (Nodes.mem_kids.1 (hk ▸ List.mem_cons_self)).1
    have hfirst : (N.entries p).children 0 = m.dentry := by simp [Nodes.entries, hk]
    exact ⟨_, hfirst ▸ (h.placed m hm).dentry⟩

/-- **The growing branch on a directory** with at most one entry: a buffer takes the place of the
first entry, and its capacity that of the second. -/
theorem growBuffer_spoils (h : Holds N fs) (hn : n ∈ N) (hdir : n.body = .dir) {target : ℕ}
    (htarget : 0 < target) :
    Ensures (growBuffer K n.data ⟨(N.entries n.dentry).children 0, 0⟩ 0 target) fs
      (fun f fs' => Spoilt n.data fs' ∧ n.data ≠ f.buffer ∧ target ≤ f.capacity ∧
        ∃ c, fs'.heap.get f.buffer = some (.bytes f.capacity c)) fun _ => True := by
  obtain ⟨-, hdata⟩ := h.dir_placed hn hdir
  unfold growBuffer
  cases hgrow : growCap target 64 (if (0 : ℕ) = 0 then 64 else wrap (2 * 0)) with
  | none => exact ensures_halt trivial
  | some cap => ?_
  have hreach := le_of_growCap hgrow
  refine ensures_read_bind (ensures_bind ((ensures_kmalloc fun p _ hfree => ?_).mono
    (fun _ _ => id) fun _ _ => trivial))
  have hdp : n.data ≠ p := by
    rintro rfl
    simp [hdata] at hfree
  -- Once the old buffer is gone, the two words are written.
  have hfinish : ∀ {s1 : FsState} {c}, s1.heap.get n.data = some (.dir (N.entries n.dentry)) →
      s1.heap.get p = some (.bytes cap c) →
      Ensures (setFile n.data ⟨p, cap⟩ >>= fun _ => pure (f := Prog FsState) (⟨p, cap⟩ : FileData)) s1
        (fun f fs' => Spoilt n.data fs' ∧ n.data ≠ f.buffer ∧ target ≤ f.capacity ∧
          ∃ c, fs'.heap.get f.buffer = some (.bytes f.capacity c)) fun _ => True := by
    intro s1 c hdata1 hp1
    refine ensures_modify_bind ?_
    rw [hdata1]
    refine ensures_pure ⟨⟨_, Heap.get_set_self .., ?_⟩, hdp, hreach, c, ?_⟩
    · show update (update (N.entries n.dentry).children 0 p) 1 cap 1 ≠ 0
      rw [update_self]
      exact (htarget.trans_le hreach).ne'
    · rw [Heap.get_set_of_ne _ _ hdp.symm, hp1]
  by_cases hz : (N.entries n.dentry).children 0 = 0
  · rw [if_neg (not_not.2 hz)]
    refine hfinish ?_ (Heap.get_set_self ..)
    rw [Heap.get_set_of_ne _ _ hdp, hdata]
  · obtain ⟨d, hd⟩ := Holds.first_dentry h hz
    have hdz : n.data ≠ (N.entries n.dentry).children 0 := by
      intro heq
      rw [← heq, hdata] at hd
      cases hd
    have hpz : p ≠ (N.entries n.dentry).children 0 := by
      intro heq
      rw [← heq, hfree] at hd
      cases hd
    rw [if_pos hz]
    refine ensures_read_bind (ensures_bind (ensures_memcpyTo (fun _ => ?_)
      fun hne => absurd rfl hne))
    refine ensures_bind (ensures_kfree hz (hfinish ?_ (c := K.leftover fs.heap cap) ?_))
    · rw [Heap.get_free_of_ne _ hdz, Heap.get_set_of_ne _ _ hdp, hdata]
    · rw [Heap.get_free_of_ne _ hpz, Heap.get_set_self]

theorem copyIn_spoilt {p ino : Ptr} {inode : Inode} {fdata : FileData} {c : ℕ → UInt8}
    (h : Spoilt p fs) (hino : p ≠ ino) (hbuf : p ≠ fdata.buffer)
    (hc : fs.heap.get fdata.buffer = some (.bytes fdata.capacity c)) (src : ℕ → UInt8)
    (hle : size ≤ fdata.capacity) {H : FsState → Prop} :
    Ensures (copyIn K ino inode fdata src size 0) fs (fun r fs' => r.1 = size ∧ Spoilt p fs') H := by
  have hfinish : ∀ {s1 : FsState}, Spoilt p s1 →
      Ensures (if wrap (0 + size) > inode.iSize then do
          store ino (.inode { inode with iSize := wrap (0 + size) })
          pure (f := Prog FsState) ((size : ℤ), wrap (0 + size))
        else pure (↑size, wrap (0 + size))) s1 (fun r fs' => r.1 = size ∧ Spoilt p fs') H := by
    intro s1 h1
    split_ifs
    · exact ensures_modify_bind (ensures_pure ⟨rfl, h1.set hino _⟩)
    · exact ensures_pure ⟨rfl, h1⟩
  unfold copyIn
  exact ensures_bind (ensures_memcpyTo (fun _ => hfinish h) fun _ =>
    ⟨_, c, hc, by omega, hfinish (h.set hbuf _)⟩)

theorem ramfsWrite_spoils (h : Holds N fs) (hn : n ∈ N) (hdir : n.body = .dir)
    (hf : fs.heap.get filp = some (.handle f)) (hd : f.fDentry = n.dentry)
    (hfew : (N.entries n.dentry).childCount ≤ 1) (src : ℕ → UInt8) (hpos : 0 < size)
    (hsize : size < 2 ^ 32) :
    Ensures (ramfsWrite K filp src size 0) fs (fun r fs' => r.1 = size ∧ Spoilt n.data fs')
      fun _ => True := by
  obtain ⟨hinode, hdata⟩ := h.dir_placed hn hdir
  have hone := Nodes.children_one hfew
  have hid : n.data ≠ n.inode := by
    intro heq
    rw [heq, hinode] at hdata
    cases hdata
  unfold ramfsWrite
  refine ensures_bind (ensures_handleAt hf (ensures_bind (ensures_dentryAt
    (hd ▸ (h.placed n hn).dentry) (ensures_bind (ensures_inodeAt hinode ?_)))))
  rw [if_neg (h.wf.ptr_ne_zero hn n.data_mem)]
  refine ensures_bind (ensures_fetch hdata rfl ?_)
  dsimp only
  rw [hone, Nat.zero_add, wrap_of_lt (by omega), if_pos hpos]
  refine (growBuffer_spoils h hn hdir hpos).bind ?_
  rintro fdata s1 ⟨h1, hne, hle, c, hc⟩
  exact copyIn_spoilt h1 hid hne hc src hle

theorem ramfsWriteFrom_spoils (h : OnTree N s) (hn : n ∈ N) (hdir : n.body = .dir)
    (hf : s.fs.heap.get filp = some (.handle f)) (hd : f.fDentry = n.dentry) (hstart : f.fPos = 0)
    (hfew : (N.entries n.dentry).childCount ≤ 1) (buffer : ℕ) (hpos : 0 < size)
    (hsize : size < 2 ^ 32) :
    Ensures (ramfsWriteFrom K filp buffer size) s (fun _ s' => Spoilt n.data s'.fs)
      fun _ => True := by
  unfold ramfsWriteFrom
  refine ensures_bind (ensures_onFs (ensures_handleAt hf (ensures_read_bind ?_)))
  rw [hstart]
  refine ensures_bind (ensures_onFs ((ramfsWrite_spoils h.holds hn hdir hf hd hfew _ hpos hsize).mono
    ?_ fun _ => id))
  rintro ⟨_, _⟩ fs ⟨rfl, hspoilt⟩
  rw [if_neg (not_lt.2 (Int.natCast_nonneg size))]
  refine ensures_modify_bind (ensures_bind (ensures_bind (ensures_onFs_fetch
    (fun g hg => ensures_onFs (ensures_modify (ensures_pure (hspoilt.set ?_ _))))
    fun _ => trivial)))
  rintro rfl
  obtain ⟨d, hdata, -⟩ := hspoilt
  simp [fetch, hdata] at hg

/-- `sys_write` takes bytes to a directory with at most one entry. -/
def IntoSmallDir (s : Sys) (fd size : ℕ) : Prop :=
  0 < size ∧ ∃ f i d, Opened s (s.fileTable s.pid fd) f ∧ f.fOps = .ramfs ∧ OpenInode s f i ∧
    s.fs.heap.get i.iPrivate = some (.dir d) ∧ d.childCount ≤ 1

theorem sysWrite_spoils (h : OnTree N s) (hsize : size < 2 ^ 32) (hruns : ¬WriteFails s fd)
    (hinto : IntoSmallDir s fd size) :
    Ensures (sysWrite K fd buffer size) s (fun _ s' => ¬SameStructure s.fs s'.fs)
      fun _ => True := by
  obtain ⟨hpos, f, i, d, hf, hops, hi, hd, hfew⟩ := hinto
  simp only [WriteFails, not_or, not_exists, not_and, not_le] at hruns
  obtain ⟨hmax, hslot, hwhy⟩ := hruns
  have hget := opened_iff.1 hf
  obtain ⟨-, n, hn, hdentry, hstart⟩ := h.fits hmax hslot hget hops
  obtain rfl := (OpenInode.of_holds h.holds hn hdentry).unique hi
  obtain ⟨m, hm, hdata, hdir, rfl⟩ := h.holds.dir_iff.1 hd
  obtain rfl := h.holds.wf.owner_eq hn hm n.data_mem
    ((show n.data = m.data from hdata) ▸ m.data_mem)
  have hold := (h.holds.dir_placed hn hdir).2
  have hone := Nodes.children_one hfew
  unfold sysWrite
  rw [if_neg (not_le.2 hmax)]
  refine ensures_read_bind ?_
  rw [if_neg hslot]
  refine ensures_bind (ensures_of_done (onFs_done hf) ?_)
  rw [if_neg (by simp [hops])]
  unfold accessMode
  cases hflags : f.fFlags with
  | none => exact ensures_bind (ensures_halt trivial)
  | some flags =>
    refine ensures_bind (ensures_pure ?_)
    rw [if_neg ((hwhy f hf).2 flags hflags).1, if_neg (by simp [hops])]
    refine (ramfsWriteFrom_spoils h hn hdir hget hdentry (hstart hdir) hfew buffer hpos hsize).mono
      ?_ fun _ => id
    rintro _ s' ⟨d', hd', hne⟩ hsame
    cases hold.symm.trans ((hsame.dir n.data d').1 hd')
    exact hne hone

end Calls

/-! ## Every run -/

/-- A system call: the process that makes it, its memory at that moment, what the call gets from
elsewhere, and the registers. -/
structure Trap where
  pid : ℕ
  mem : ℕ → UInt8
  out : Outside
  frame : Frame

/-- The kernel when the call begins. -/
def Sys.enter (s : Sys) (e : Trap) : Sys := { s with pid := e.pid, mem := e.mem, touched := [] }

/-- The state in which an `SC_READ`, `SC_WRITE` or `SC_OPEN` returns. -/
def trapStep (K : Kmalloc) (e : Trap) (s : Sys) : Option Sys :=
  match e.frame.sysno with
  | some .read | some .write | some .openFile =>
    match syscallHandler K e.out e.frame (s.enter e) with
    | .done _ s' => some s'
    | .halt _ => none
  | _ => none

/-- **A tame call**: no bytes are read into the kernel, and none are written to a directory. -/
def Tame (e : Trap) (s : Sys) : Prop :=
  match e.frame.sysno with
  | some .read =>
    ReadFails (s.enter e) e.frame.fd e.frame.rsi.toNat e.frame.size ∨
      ∀ n, Stores (s.enter e) e.frame.fd e.frame.size n → Below (bytesFrom e.frame.rsi.toNat n)
  | some .write =>
    WriteFails (s.enter e) e.frame.fd ∨ ¬IntoDir (s.enter e) e.frame.fd e.frame.size
  | _ => True

/-- A call that writes to a directory with at most one entry. -/
def Spoils (e : Trap) (s : Sys) : Prop :=
  e.frame.sysno = some .write ∧ ¬WriteFails (s.enter e) e.frame.fd ∧
    IntoSmallDir (s.enter e) e.frame.fd e.frame.size

section Runs

variable {K : Kmalloc} {N : Nodes} {s s' : Sys} {e : Trap} {es : List Trap}

theorem Frame.size_lt (frame : Frame) : frame.size < 2 ^ 32 := Nat.mod_lt _ (by decide)

/-- A step is a call that returned. -/
theorem done_of_trapStep (h : trapStep K e s = some s') :
    ∃ r, syscallHandler K e.out e.frame (s.enter e) = .done r s' := by
  unfold trapStep at h
  cases hrun : syscallHandler K e.out e.frame (s.enter e) with
  | done r t =>
    rw [hrun] at h
    split at h
    all_goals first | cases h; exact ⟨r, rfl⟩ | cases h
  | halt t =>
    rw [hrun] at h
    split at h <;> cases h

/-- What a call ensures holds where a step leads. -/
theorem Ensures.trapStep {Q : Sys → Prop}
    (h : Ensures (syscallHandler K e.out e.frame) (s.enter e) (fun _ => Q) H)
    (hstep : Syscall.trapStep K e s = some s') : Q s' := by
  obtain ⟨r, hrun⟩ := done_of_trapStep hstep
  unfold Ensures at h
  rwa [hrun] at h

theorem OnTree.enter (h : OnTree N s) (e : Trap) : OnTree N (s.enter e) := h.congr rfl rfl

theorem OnTree.trapStep (h : OnTree N s) (htame : Tame e s) (hstep : trapStep K e s = some s') :
    Kept s s' := by
  have hs := h.enter e
  refine Ensures.trapStep (H := fun _ => True) ?_ hstep
  unfold Tame at htame
  unfold Syscall.trapStep at hstep
  unfold syscallHandler
  cases hno : e.frame.sysno with
  | none => simp [hno] at hstep
  | some no =>
    rw [hno] at htame hstep
    cases no with
    | read => exact sysRead_kept hs _ e.frame.size_lt htame
    | write => exact sysWrite_kept hs e.frame.size_lt htame
    | openFile => exact sysOpen_kept hs _ _
    | execve => cases hstep
    | uprint => cases hstep
    | time => cases hstep

/-- **Tame calls keep the directories**, over every run from a tree; a call that writes to a
directory with at most one entry never does. -/
theorem structure_kept (h : OnTree N s) : (∀ es s', Run (trapStep K) s es s' →
      (∀ es1 e es2 t, es = es1 ++ e :: es2 → Run (trapStep K) s es1 t → Tame e t) →
        SameStructure s.fs s'.fs) ∧
      ∀ e s', trapStep K e s = some s' → Spoils e s → ¬SameStructure s.fs s'.fs := by
  constructor
  · intro es s' hrun htame
    refine (hrun.invariant_of_forall (I := Kept s) (fun e t t' ht hkept hstep => ?_) h.kept htame).2
    obtain ⟨M, hM⟩ := hkept.1
    exact hkept.trans (hM.trapStep ht hstep)
  · rintro e s' hstep ⟨hno, hruns, hinto⟩
    refine Ensures.trapStep (Q := fun s' => ¬SameStructure s.fs s'.fs) (H := fun _ => True) ?_ hstep
    unfold syscallHandler
    rw [hno]
    exact sysWrite_spoils (h.enter e) e.frame.size_lt hruns hinto

end Runs

/-- The open file of a console. -/
def consoleFile (flags : UInt32) : Obj := .handle ⟨0, 0, .console, some flags⟩

/-- A new process on an empty file system: three consoles. -/
def newProcess : Sys where
  fs := { emptyFs with
    heap := ((emptyFs.heap.set 10 (consoleFile 0)).set 11 (consoleFile 1)).set 12 (consoleFile 1) }
  fileTable _ fd := if fd < 3 then 10 + fd else 0
  pid := 0
  mem _ := 0
  touched := []

theorem newProcess_onTree : ∃ N, OnTree N newProcess := by
  obtain ⟨r, hr⟩ : ∃ r, Holds [r] emptyFs := ramfsInit_spec (K := .endless)
  obtain ⟨r', hr', -, -, hdir⟩ := hr.wf.rooted.exists_root
  cases hr'
  have hset : ∀ {fs : FsState} {p flags}, Holds [r] fs → fs.heap.get p = none →
      Holds [r] { fs with heap := fs.heap.set p (consoleFile flags) } := fun h hp =>
    h.set_junk (hp ▸ trivial) trivial
  refine ⟨[r], hset (hset (hset hr rfl) rfl) rfl, fun n hn _ _ _ hb => ?_, fun pid fd _ hslot => ?_⟩
  · obtain rfl := List.mem_singleton.1 hn
    cases hdir.symm.trans hb
  · have hfd : fd < 3 := by
      by_contra hge
      exact hslot (if_neg hge)
    rcases fd with _ | _ | _ | fd
    · exact ⟨_, rfl, nofun⟩
    · exact ⟨_, rfl, nofun⟩
    · exact ⟨_, rfl, nofun⟩
    · omega

/-- A call with the string `//` at `0x1000`. -/
def slashes (frame : Frame) : Trap :=
  ⟨0, fun a => if a = 0x1000 ∨ a = 0x1001 then slash else 0, ⟨0, 0, fun _ => 0⟩, frame⟩

/-- `SC_OPEN("//", flags)`. -/
def openRoot (flags : UInt64) : Trap := slashes ⟨2, 0x1000, flags, 0, 0⟩

/-- `SC_WRITE(3, p, 1)`. -/
def writeByte : Trap := slashes ⟨1, 3, 0x1000, 1, 0⟩

/-- A descriptor for reading changes nothing. -/
theorem structure_kept_openRoot : ∃ s, Run (trapStep .endless) newProcess [openRoot 0] s ∧
      SameStructure newProcess.fs s.fs := by
  obtain ⟨N, hN⟩ := newProcess_onTree
  have hrun : Run (trapStep .endless) newProcess [openRoot 0] _ := .of_exec rfl
  refine ⟨_, hrun, (structure_kept hN).1 _ _ hrun ?_⟩
  intro es1 e es2 t hes _
  have he : e ∈ [openRoot 0] := hes ▸ by simp
  obtain rfl := List.mem_singleton.1 he
  trivial

/-- **One byte to the root directory**: a buffer is its first entry. -/
theorem writeByte_spoils :
    (∃ N, OnTree N newProcess) ∧ ∃ s, Run (trapStep .endless) newProcess [openRoot 1, writeByte] s ∧
      ¬SameStructure newProcess.fs s.fs := by
  refine ⟨newProcess_onTree, _, .of_exec rfl, fun h => ?_⟩
  have hdir := Option.some.inj ((h.dir 3 _).1 rfl)
  injection hdir with hdir
  exact absurd (congrFun (congrArg DirData.children hdir) 1) (by decide)

end Hvos.Syscall
