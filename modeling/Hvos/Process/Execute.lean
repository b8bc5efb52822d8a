import Hvos.Lib.Noted
import Hvos.Memory.HeapLive
import Hvos.Process.ElfImage
import Hvos.Process.Spaces

/-!
# Process/Execute — what a failed `execute_elf` leaves behind

`execute_elf` over the memory and the two lists, noting the `kmalloc` and the `kfree` of the file
handle and of `elf_buffer`.  What the VFS finds at the path is given (`Lookup`), with the search
keys it allocates and frees on the way; the handle, the buffer and the new process are the caller's.
-/

namespace Hvos.Process

open Memory Bytes Prog Noted

/-! ## The call -/

/-- The inode of a file that can be opened: `i_size`, which a `ssize_t` holds, `i_fop` (which is
`ramfs_fops` or null) and the bytes at `fdata->buffer`, if there is one. -/
structure Inode where
  iSize : ℕ
  small : iSize < 2 ^ 63
  iFop : ℕ
  buffer : Option (ℕ → UInt8)

/-- What `vfs_lookup` does: the bytes of each search key on its way, then the dentry with its inode,
unless there is none or it is a directory's. -/
structure Lookup where
  searches : List (ℕ → UInt8)
  found : Option (ℕ × Inode)

/-- What `execute_elf` allocates. -/
inductive Item
  | file
  | elfBuffer
  deriving DecidableEq

/-- The calls that are noted. -/
inductive HeapNote
  | kmalloc (i : Item)
  | kfree (i : Item)
  deriving DecidableEq

/-- The memory, and the processes and the processes of the threads, each by its pid. -/
structure Kernel where
  mem : Mem
  threads : List ℕ
  processes : List ℕ
  nextPid : ℕ

/-- `alloc_dentry` and `free_dentry` of a search key. -/
def searchKey (bytes : ℕ → UInt8) : Prog Mem Unit := do
  let dentry ← kmalloc 48
  Prog.modify fun s => s.copyHeap dentry 48 bytes
  Prog.modify fun s => s.kfree dentry

/-- One search key after the other. -/
def searchKeys : List (ℕ → UInt8) → Prog Mem Unit
  | [] => pure ()
  | bytes :: rest => do
    searchKey bytes
    searchKeys rest

/-- `filp->f_dentry`, `filp->f_pos` and `filp->f_ops` are set. -/
def fillHandle (filp dentry fOps : ℕ) (s : Mem) : Mem :=
  ((s.storeHeap (filp + 8) dentry).storeHeap (filp + 16) 0).storeHeap (filp + 24) fOps

/-- `vfs_open`: the handle, if any, and the inode.  `ramfs_fops` has no `open`. -/
def vfsOpen (path : Lookup) : Noted Mem HeapNote (Option (ℕ × Inode)) := do
  lift (searchKeys path.searches)
  match path.found with
  | none => pure none
  | some (dentry, inode) => do
    let filp ← lift (kmalloc 40)
    note [.kmalloc .file]
    lift (Prog.modify (fillHandle filp dentry inode.iFop))
    pure (some (filp, inode))

/-- `vfs_read` of a whole file from its start: -1 without operations, and else `ramfs_read`. -/
def vfsRead (filp : ℕ) (inode : Inode) (elfBuffer : ℕ) : Prog Mem ℤ :=
  if inode.iFop = 0 then pure (-1)
  else match inode.buffer with
    | none => pure 0
    | some bytes => do
      Prog.modify fun s => s.copyHeap elfBuffer inode.iSize bytes
      Prog.modify fun s => s.storeHeap (filp + 16) inode.iSize
      pure inode.iSize

/-- `kfree`, noted. -/
def kfreeItem (i : Item) (ptr : ℕ) : Noted Mem HeapNote Unit := do
  note [.kfree i]
  lift (Prog.modify fun s => s.kfree ptr)

/-- `execute_elf` up to the call of `create_elf_process`: `elf_buffer`, or none where it returns. -/
def readFile (path : Lookup) : Noted Mem HeapNote (Option ℕ) := do
  match ← vfsOpen path with
  | none => pure none
  | some (filp, inode) =>
    if inode.iSize = 0 then do
      kfreeItem .file filp
      pure none
    else do
      let elfBuffer ← lift (kmalloc inode.iSize)
      if elfBuffer = 0 then do
        kfreeItem .file filp
        pure none
      else do
        note [.kmalloc .elfBuffer]
        let byteRead ← lift (vfsRead filp inode elfBuffer)
        if byteRead < 0 then do
          kfreeItem .elfBuffer elfBuffer
          kfreeItem .file filp
          pure none
        else do
          kfreeItem .file filp
          pure (some elfBuffer)

/-- `create_elf_process`, which frees `elf_buffer` if the magic is wrong. -/
def createNoted (elfBuffer : ℕ) : Noted Mem HeapNote (Option Proc) := do
  let elf : ElfFile ← lift (Prog.read fun s => s.behind elfBuffer)
  note (if elf.eIdent ≠ elfMagic then [.kfree .elfBuffer] else [])
  lift (createElfProcess elfBuffer elf)

/-- A program over the memory, in the kernel. -/
def inKernel {α : Type} (m : Noted Mem HeapNote α) : Noted Kernel HeapNote α := fun st =>
  ((m st.mem).1, match (m st.mem).2 with
    | .done a s => .done a { st with mem := s }
    | .halt s => .halt { st with mem := s })

/-- A `uint64_t` as an `int`. -/
def toInt (n : ℕ) : ℤ := ((n + 2 ^ 31) % 2 ^ 32 : ℕ) - 2 ^ 31

/-- `new_elf_process` numbers the process and puts it and its thread in front of the lists. -/
def Kernel.push (st : Kernel) : Kernel :=
  { st with
    threads := st.nextPid :: st.threads
    processes := st.nextPid :: st.processes
    nextPid := wrap (st.nextPid + 1) }

/-- What `execute_elf` returns for the new process, if there is one, once it is in the lists. -/
def returnPid : Option Proc → Prog Kernel ℤ
  | none => pure (-1)
  | some _ => do
    let pid ← Prog.read fun st => st.nextPid
    Prog.modify Kernel.push
    pure (toInt pid)

/-- `execute_elf`. -/
def executeElf (path : Lookup) : Noted Kernel HeapNote ℤ := do
  match ← inKernel (readFile path) with
  | none => pure (-1)
  | some elfBuffer => do
    let newTask ← inKernel (createNoted elfBuffer)
    lift (returnPid newTask)

/-! ## The property -/

/-- Whatever is allocated is freed once. -/
def FreedOnce (ts : List HeapNote) : Prop := ∀ i, .kmalloc i ∈ ts → ts.count (.kfree i) = 1

instance (ts : List HeapNote) : Decidable (FreedOnce ts) :=
  decidable_of_iff
    ((.kmalloc .file ∈ ts → ts.count (.kfree .file) = 1) ∧
      (.kmalloc .elfBuffer ∈ ts → ts.count (.kfree .elfBuffer) = 1))
    ⟨fun h i => match i with
      | .file => h.1
      | .elfBuffer => h.2, fun h => ⟨h .file, h .elfBuffer⟩⟩

/-- **All or nothing**: a call that returns -1 has changed neither frames, live blocks nor lists;
and what the call allocated for itself it has freed once. -/
structure AllOrNothing (st st' : Kernel) (r : ℤ) (ts : List HeapNote) : Prop where
  nothing : r = -1 → st'.mem.pmm.usedPages = st.mem.pmm.usedPages ∧
    st'.mem.pmm.bitmap = st.mem.pmm.bitmap ∧ st'.mem.live = st.mem.live ∧
    st'.threads = st.threads ∧ st'.processes = st.processes
  freed : FreedOnce ts

/-- **The call ends before the loader gets past the magic**: no file, an empty one, one that cannot
be read, or one that does not start with `ELF_MAGIC`. -/
def Rejected (path : Lookup) (s : Mem) : Prop :=
  ∀ p t, (readFile path).run s = .done (some p) t → ElfFile.eIdent (t.behind p) ≠ elfMagic

/-- Every search key finds a block on the free list. -/
def KeysFindBlocks : List (ℕ → UInt8) → Mem → Prop
  | [], _ => True
  | bytes :: rest, s => s.HasBlock 48 ∧ KeysFindBlocks rest (searchKey bytes s).state

/-- **Every `kmalloc` on the way finds a block on the free list**: those for the search keys, for
the handle, and for the buffer of a file that is not empty, each in the state it is called in. -/
def FindsBlocks (path : Lookup) (s : Mem) : Prop :=
  KeysFindBlocks path.searches s ∧ ∀ dentry inode, path.found = some (dentry, inode) →
    (searchKeys path.searches s).state.HasBlock 40 ∧
      (inode.iSize ≠ 0 → ((vfsOpen path).run s).state.HasBlock inode.iSize)

/-! ## The account of the call -/

variable {elfBuffer : ℕ}

section Account

variable {s0 s s' : Mem} {A B C : Set (ℕ × ℕ)} {p size : ℕ}

/-- A search key leaves nothing. -/
theorem searchKey_held (bytes : ℕ → UInt8) {F : Prop} (h : Held s0 F (Quiet s0 A s) s) :
    Ensures (searchKey bytes) s (fun _ s' => Held s0 (F ∧ s.HasBlock 48) (Quiet s0 A s') s')
      (fun _ => True) := by
  refine (h.kmalloc 48 fun hq => hq.kmalloc (by decide) (by decide)).bind fun p s1 h1 => ?_
  have h2 : Held s0 _ (∃ B, Adds A p 48 B ∧ Quiet s0 B (s1.copyHeap p 48 bytes))
      (s1.copyHeap p 48 bytes) :=
    h1.of_heapOnly ⟨rfl, rfl, rfl, rfl⟩
      fun ⟨B, hadds, hq⟩ => ⟨B, hadds, hq.copyHeap hadds bytes⟩
  refine ensures_modify_bind (ensures_modify ?_)
  exact h2.of_heapOnly (Mem.kfree_heapOnly ..) fun ⟨B, hadds, hq⟩ => hq.kfree hadds

theorem searchKeys_held (keys : List (ℕ → UInt8)) {F : Prop} (h : Held s0 F (Quiet s0 A s) s) :
    Ensures (searchKeys keys) s (fun _ s' => Held s0 (F ∧ KeysFindBlocks keys s) (Quiet s0 A s') s')
      (fun _ => True) := by
  induction keys generalizing s F with
  | nil => exact ensures_pure (h.congr (and_iff_left trivial).symm)
  | cons bytes keys ih =>
    refine (searchKey_held bytes h).at_end.bind fun _ s1 h1 => ?_
    rw [KeysFindBlocks, h1.2, ← and_assoc]
    exact ih h1.1

/-- **`vfs_open`** adds the handle. -/
theorem vfsOpen_held (path : Lookup) (h : Quiet s0 A s) : Returns (vfsOpen path) s fun r ts s' =>
      (path.found = none ∧ r = none ∧ ts = [] ∧
        Held s0 (KeysFindBlocks path.searches s) (Quiet s0 A s') s') ∨
      ∃ dentry filp inode, path.found = some (dentry, inode) ∧ r = some (filp, inode) ∧
        ts = [.kmalloc .file] ∧
        Held s0 (KeysFindBlocks path.searches s ∧ (searchKeys path.searches s).state.HasBlock 40)
          (∃ B, Adds A filp 40 B ∧ Quiet s0 B s') s' := by
  have hstart : Held s0 True (Quiet s0 A s) s := .inl ⟨trivial, h⟩
  refine returns_lift_bind ((searchKeys_held path.searches hstart).at_end.imp fun _ s1 h1 => ?_)
  rw [true_and] at h1
  obtain ⟨h1, rfl⟩ := h1
  rcases path.found with _ | ⟨dentry, inode⟩
  · exact returns_pure (.inl ⟨rfl, rfl, rfl, h1⟩)
  · refine returns_lift_bind ((h1.kmalloc 40 fun hq => hq.kmalloc (by decide) (by decide)).mono
      (fun filp s2 h2 => ?_) fun _ => id)
    refine returns_note_bind (returns_lift_bind (ensures_modify (returns_pure (.inr ?_))))
    refine ⟨dentry, filp, inode, rfl, rfl, rfl, h2.of_heapOnly ⟨rfl, rfl, rfl, rfl⟩ ?_⟩
    rintro ⟨B, hadds, hq⟩
    exact ⟨B, hadds, ((hq.storeHeap hadds (by decide) _).storeHeap hadds (by decide) _).storeHeap hadds
      (by decide) _⟩

/-- The account of the handle and the buffer. -/
def BothHeld (s0 : Mem) (A : Set (ℕ × ℕ)) (filp elfBuffer size : ℕ) (s : Mem) : Prop :=
  ∃ B C, Adds A filp 40 B ∧ Adds B elfBuffer size C ∧ Quiet s0 C s

/-- **`vfs_read`** writes to the two blocks only. -/
theorem vfsRead_held {filp : ℕ} {inode : Inode} {F : Prop}
    (h : Held s0 F (BothHeld s0 A filp elfBuffer inode.iSize s) s) :
    Ensures (vfsRead filp inode elfBuffer) s
      (fun _ s' => Held s0 F (BothHeld s0 A filp elfBuffer inode.iSize s') s') (fun _ => True) := by
  unfold vfsRead
  split_ifs with hops
  · exact ensures_pure h
  · rcases inode.buffer with _ | bytes
    · exact ensures_pure h
    · refine ensures_modify_bind (ensures_modify_bind (ensures_pure ?_))
      refine h.of_heapOnly ⟨rfl, rfl, rfl, rfl⟩ ?_
      rintro ⟨B, C, hfile, hbuf, hq⟩
      obtain ⟨B', -, hfile'⟩ := hfile.comm hbuf
      exact ⟨B, C, hfile, hbuf, (hq.copyHeap hbuf bytes).storeHeap hfile' (by decide) _⟩

theorem returns_kfreeItem_bind {α : Type} {i : Item} {ptr : ℕ} {f : Unit → Noted Mem HeapNote α}
    {R : α → List HeapNote → Mem → Prop}
    (h : Returns (f ()) (s.kfree ptr) fun a ts => R a (.kfree i :: ts)) :
    Returns (kfreeItem i ptr >>= f) s R :=
  returns_bind (returns_note_bind (returns_lift (ensures_modify h)))

/-- **Up to the loader** the call either gives everything back or holds `elf_buffer` alone. -/
theorem readFile_held (path : Lookup) (h : Quiet s0 A s) : Returns (readFile path) s fun r ts s' =>
      (r = none ∧ FreedOnce ts ∧ Held s0 (FindsBlocks path s) (Quiet s0 A s') s') ∨
      ∃ elfBuffer, r = some elfBuffer ∧ ts = [.kmalloc .file, .kmalloc .elfBuffer, .kfree .file] ∧
        Held s0 (FindsBlocks path s) (∃ B size, Adds A elfBuffer size B ∧ Quiet s0 B s') s' := by
  refine (vfsOpen_held path h).at_end.bind fun r ts s1 h1 => ?_
  obtain ⟨⟨hfound, rfl, rfl, h1⟩ | ⟨dentry, filp, inode, hfound, rfl, rfl, h1⟩, hs1⟩ := h1
  · exact returns_pure (.inl ⟨rfl, nofun, h1.congr (by simp [FindsBlocks, hfound])⟩)
  have hfile : Held s0 _ (Quiet s0 A (s1.kfree filp)) (s1.kfree filp) :=
    h1.of_heapOnly (Mem.kfree_heapOnly ..) fun ⟨B, hadds, hq⟩ => hq.kfree hadds
  have hsmall := inode.small
  by_cases hzero : inode.iSize = 0
  · simp only [if_pos hzero]
    refine returns_kfreeItem_bind (returns_pure (.inl ⟨rfl, by decide, hfile.congr ?_⟩))
    simp [FindsBlocks, hfound, hzero]
  simp only [if_neg hzero]
  have hboth : Ensures (kmalloc inode.iSize) s1
      (fun p s' => Held s0 (FindsBlocks path s) (BothHeld s0 A filp p inode.iSize s') s')
      (fun _ => True) := by
    refine (h1.kmalloc _ ?_).imp fun p s' hp => hp.congr ?_
    · rintro ⟨B, hadds, hq⟩
      refine (hq.kmalloc (by omega) (by omega)).imp fun p s' hp => ?_
      exact hp.imp_left (And.imp_right fun ⟨C, hadds', hq'⟩ => ⟨B, C, hadds, hadds', hq'⟩)
    · simp [FindsBlocks, hfound, hzero, hs1, and_assoc]
  refine returns_lift_bind (hboth.imp fun elfBuffer s2 h2 => ?_)
  by_cases hnull : elfBuffer = 0
  · simp only [if_pos hnull]
    refine returns_kfreeItem_bind (returns_pure (.inl ⟨rfl, by decide, ?_⟩))
    refine h2.of_heapOnly (Mem.kfree_heapOnly ..) ?_
    rintro ⟨B, C, -, ⟨b, n, hb, -⟩, -⟩
    unfold headerSize at hb
    omega
  simp only [if_neg hnull]
  refine returns_note_bind (returns_lift_bind ((vfsRead_held h2).imp fun byteRead s3 h3 => ?_))
  by_cases hneg : byteRead < 0
  · simp only [if_pos hneg]
    refine returns_kfreeItem_bind (returns_kfreeItem_bind (returns_pure (.inl ⟨rfl, by decide, ?_⟩)))
    refine h3.of_heapOnly ((Mem.kfree_heapOnly ..).trans (Mem.kfree_heapOnly ..)) ?_
    rintro ⟨B, C, hfile, hbuf, hq⟩
    exact (hq.kfree hbuf).kfree hfile
  · simp only [if_neg hneg]
    refine returns_kfreeItem_bind (returns_pure (.inr ⟨elfBuffer, rfl, rfl, ?_⟩))
    refine h3.of_heapOnly (Mem.kfree_heapOnly ..) ?_
    rintro ⟨B, C, hfile, hbuf, hq⟩
    obtain ⟨B', hbuf', hfile'⟩ := hfile.comm hbuf
    exact ⟨B', _, hbuf', hq.kfree hfile'⟩

end Account

/-! ## The whole call -/

variable {s : Mem}

section Call

variable {α : Type} {st : Kernel}

theorem inKernel_run (m : Noted Mem HeapNote α) : (inKernel m).run st = match m.run st.mem with
      | .done a s => .done a { st with mem := s }
      | .halt s => .halt { st with mem := s } := rfl

theorem returns_inKernel {m : Noted Mem HeapNote α} {Q : α → List HeapNote → Kernel → Prop}
    (h : Returns m st.mem fun a ts s' => m.run st.mem = .done a s' → Q a ts { st with mem := s' }) :
    Returns (inKernel m) st Q := by
  intro a st' hrun
  rw [inKernel_run] at hrun
  cases hm : m.run st.mem with
  | halt s =>
    rw [hm] at hrun
    cases hrun
  | done b s =>
    rw [hm] at hrun
    cases hrun
    exact h a s hm hm

/-- With the wrong magic `create_elf_process` frees `elf_buffer`, and that is all. -/
theorem createElfProcess_wrong {elf : ElfFile} (h : elf.eIdent ≠ elfMagic) :
    createElfProcess elfBuffer elf s = .done none (s.kfree elfBuffer) := by
  simp [createElfProcess, loadElfBinary, h]

theorem createNoted_wrong (h : ElfFile.eIdent (s.behind elfBuffer) ≠ elfMagic) :
    Returns (createNoted elfBuffer) s fun r ts s' =>
      r = none ∧ ts = [.kfree .elfBuffer] ∧ s' = s.kfree elfBuffer := by
  refine returns_lift_bind (ensures_read (returns_note_bind (returns_lift ?_)))
  rw [if_pos h]
  exact ensures_of_done (createElfProcess_wrong h) ⟨rfl, rfl, rfl⟩

/-- With the right one it does not. -/
theorem createNoted_right (h : ElfFile.eIdent (s.behind elfBuffer) = elfMagic) :
    Returns (createNoted elfBuffer) s fun _ ts _ => ts = [] := by
  refine returns_lift_bind (ensures_read (returns_note_bind ?_))
  rw [if_neg (not_not.2 h)]
  intro a s' _
  rfl

/-- What the call leaves: everything is given back unless the loader gets past the magic, and then
`elf_buffer` never is. -/
theorem executeElf_held (path : Lookup) {A : Set (ℕ × ℕ)} (h : Quiet st.mem A st.mem) :
    Returns (executeElf path) st fun r ts st' =>
      (Rejected path st.mem ∧ r = -1 ∧ FreedOnce ts ∧ st'.threads = st.threads ∧
        st'.processes = st.processes ∧
        Held st.mem (FindsBlocks path st.mem) (Quiet st.mem A st'.mem) st'.mem) ∨
      (¬Rejected path st.mem ∧ ¬FreedOnce ts) := by
  refine (returns_inKernel ((readFile_held path h).mono fun r ts s1 h1 hread => ?_)).bind
    fun r ts st1 h1 => h1
  rcases h1 with ⟨rfl, hfreed, h1⟩ | ⟨elfBuffer, rfl, rfl, h1⟩
  · refine returns_pure (.inl ⟨fun p t hp => ?_, rfl, by simpa using hfreed, rfl, rfl, h1⟩)
    rw [hread] at hp
    cases hp
  by_cases hmagic : ElfFile.eIdent (s1.behind elfBuffer) = elfMagic
  · refine Returns.bind (Q := fun _ ts _ => ts = []) (returns_inKernel ?_) fun newTask ts st2 hts => ?_
    · exact (createNoted_right hmagic).mono fun _ _ _ hts _ => hts
    · intro r st3 _
      have hend : (lift (returnPid newTask) : Noted Kernel HeapNote ℤ).notes st2 = [] := rfl
      refine .inr ⟨fun hrej => hrej elfBuffer s1 hread hmagic, ?_⟩
      rw [hts, hend]
      decide
  · refine (returns_inKernel ((createNoted_wrong hmagic).mono fun r ts s2 h2 _ => ?_)).bind
      fun r ts st2 h2 => h2
    obtain ⟨rfl, rfl, rfl⟩ := h2
    refine returns_lift (ensures_pure (.inl ⟨fun p t hp => ?_, rfl, by decide, rfl, rfl, ?_⟩))
    · rw [hread] at hp
      cases hp
      exact hmagic
    · exact h1.of_heapOnly (Mem.kfree_heapOnly ..) fun ⟨B, size, hadds, hq⟩ => hq.kfree hadds

/-- **`execute_elf` is all or nothing** exactly when it ends before the loader gets past the magic,
and every `kmalloc` on the way finds a block on the free list.  A heap that grows keeps its frames;
past the magic nobody frees `elf_buffer`, whatever becomes of the process. -/
theorem allOrNothing_iff_rejected {path : Lookup} {hs fs : List ℕ} {r : ℤ} {st' : Kernel}
    (hsound : Sound st.mem hs fs) (hrun : (executeElf path).run st = .done r st') :
    AllOrNothing st st' r ((executeElf path).notes st) ↔
      Rejected path st.mem ∧ FindsBlocks path st.mem := by
  have hstart : Quiet st.mem st.mem.live st.mem := ⟨rfl, rfl, ⟨hs, fs, hsound⟩, rfl⟩
  rcases executeElf_held path hstart r st' hrun with
    ⟨hrej, rfl, hfreed, hthreads, hprocs, ⟨hlist, hquiet⟩ | ⟨hlist, hgrew⟩⟩ | ⟨hnot, hleak⟩
  · refine iff_of_true ⟨fun _ => ?_, hfreed⟩ ⟨hrej, hlist⟩
    rw [hquiet.pmm]
    exact ⟨rfl, rfl, hquiet.live, hthreads, hprocs⟩
  · exact iff_of_false (fun h => hgrew.bitmap_ne (h.nothing rfl).2.1) fun h => hlist h.2
  · exact iff_of_false (fun h => hleak h.freed) fun h => hnot h.1

end Call

/-- A heap of one page, all of it one free block, and eight frames of which two are taken. -/
def onePageHeap : Kernel where
  mem := (Mem.header
    { phys := fun _ => Page.zero
      pmm := { bitmap := fun _ => 3#8, totalPages := 8, usedPages := 2 }
      kernelPml4 := 1
      heapCurrentLimit := kernelHeapStart + 4096
      heapFreeList := 0
      heapBytes := fun _ => 0 }
    kernelHeapStart (kernelHeapStart + 4096) true).setFreeList kernelHeapStart
  threads := [0]
  processes := [0]
  nextPid := 1

theorem onePageHeap_sound : Sound onePageHeap.mem [kernelHeapStart] [kernelHeapStart] :=
  heapInit_sound_of_limit (by decide) (by decide)

/-- A file of the given size and bytes in the root directory. -/
def fileAt (size : ℕ) (h : size < 2 ^ 63) (bytes : ℕ → UInt8) : Lookup where
  searches := [fun _ => 0x66]
  found := some (4096, ⟨size, h, 8192, some bytes⟩)

/-- A result, with the number of frames then in use. -/
def resultOf : Outcome Kernel ℤ → Option (ℤ × UInt64)
  | .done r st => some (r, st.mem.pmm.usedPages)
  | .halt _ => none

theorem exists_done_of_resultOf {o : Outcome Kernel ℤ} {r : ℤ} {used : UInt64}
    (h : resultOf o = some (r, used)) : ∃ st', o = .done r st' ∧ st'.mem.pmm.usedPages = used := by
  cases o with
  | halt st' => cases h
  | done r' st' =>
    cases h
    exact ⟨st', rfl, rfl⟩

/-- Whether the loader would find another magic behind the pointer. -/
def otherMagic : Outcome Mem (Option ℕ) → Bool
  | .done (some p) t => ElfFile.eIdent (t.behind p) ≠ elfMagic
  | _ => true

theorem rejected_of_otherMagic {path : Lookup} (h : otherMagic ((readFile path).run s) = true) :
    Rejected path s := by
  intro p t hrun
  rw [hrun] at h
  exact of_decide_eq_true h

/-- A script is rejected without a trace. -/
theorem allOrNothing_iff_rejected_script :
    ∃ st', (executeElf (fileAt 9 (by decide) fun _ => 0x23)).run onePageHeap = .done (-1) st' ∧
      AllOrNothing onePageHeap st' (-1)
        ((executeElf (fileAt 9 (by decide) fun _ => 0x23)).notes onePageHeap) := by
  obtain ⟨st', hrun, -⟩ := exists_done_of_resultOf
    (show resultOf ((executeElf (fileAt 9 (by decide) fun _ => 0x23)).run onePageHeap) =
      some (-1, 2) by decide +kernel)
  refine ⟨st', hrun, (allOrNothing_iff_rejected onePageHeap_sound hrun).2
    ⟨rejected_of_otherMagic (by decide +kernel), ⟨by decide +kernel, trivial⟩, ?_⟩⟩
  rintro _ _ ⟨⟩
  exact ⟨by decide +kernel, fun _ => by decide +kernel⟩

/-- **A header without entry point leaks**: the call returns -1, and the frame of the new PML4 stays
taken. -/
theorem entryless_leaks :
    ∃ st', (executeElf (fileAt 64 (by decide) (fileOf 0 0 [] []))).run onePageHeap = .done (-1) st' ∧
      st'.mem.pmm.usedPages = 3 ∧
      ¬AllOrNothing onePageHeap st' (-1)
        ((executeElf (fileAt 64 (by decide) (fileOf 0 0 [] []))).notes onePageHeap) := by
  obtain ⟨st', hrun, hused⟩ := exists_done_of_resultOf
    (show resultOf ((executeElf (fileAt 64 (by decide) (fileOf 0 0 [] []))).run onePageHeap) =
      some (-1, 3) by decide +kernel)
  refine ⟨st', hrun, hused, fun h => ?_⟩
  have hsame := (h.nothing rfl).1
  rw [hused] at hsame
  exact absurd hsame (by decide)

end Hvos.Process
