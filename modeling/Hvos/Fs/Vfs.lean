import Hvos.Fs.Objects
import Hvos.Memory.Heap

/-!
# Fs/Vfs — `vfs.c` and `ramfs.c`

Path functions on byte strings, and the operations on the tree as programs over the object heap, in
the order in which the code allocates, links and frees.
-/

namespace Hvos.Fs

open Prog Memory

/-! ## Paths -/

/-- The character `/`. -/
def slash : UInt8 := 47

/-- The string `.`. -/
def dot : CString := [46]

/-- The string `..`. -/
def dotdot : CString := [46, 46]

/-- `next_path_token`: the token, cut to 31 characters, and what follows it. -/
def nextPathToken (path : CString) : Option (CString × CString) :=
  match path.dropWhile (· = slash) with
  | [] => none
  | c :: cs => some (((c :: cs).takeWhile (· ≠ slash)).take 31, (c :: cs).dropWhile (· ≠ slash))

/-- The tokens that `n` calls of `next_path_token` find, each going on where the last one ended. -/
def tokensWithin : ℕ → CString → List CString
  | 0, _ => []
  | n + 1, path =>
    match nextPathToken path with
    | none => []
    | some (token, next) => token :: tokensWithin n next

/-- All tokens of a path: each of them takes a character. -/
def tokens (path : CString) : List CString := tokensWithin path.length path

/-- The part behind the last `/`, which `strrchr` finds. -/
def baseName (path : CString) : CString := (path.reverse.takeWhile (· ≠ slash)).reverse

/-- `vfs_split_path`. -/
def vfsSplitPath (path : Option CString) (dirMax fileMax : ℕ) : Option (CString × CString) :=
  match path with
  | none | some [] => none
  | some (c :: cs) =>
    if c ≠ slash then none
    else
      let filename := baseName (c :: cs)
      let lastSlash := (c :: cs).length - filename.length - 1
      if lastSlash = 0 ∧ filename = [] then
        if dirMax < 2 ∨ fileMax < 1 then none else some ([slash], [])
      else
        let dirLen := if lastSlash = 0 then 1 else lastSlash
        if filename.length = 0 then none
        else if dirLen ≥ dirMax ∨ filename.length ≥ fileMax then none
        else some (if lastSlash = 0 then [slash] else (c :: cs).take dirLen, filename)

/-! ## `ramfs.c` -/

/-- `S_IFDIR`. -/
def sIfdir : UInt32 := 0x4000

/-- `S_IFREG`. -/
def sIfreg : UInt32 := 0x8000

/-- `RAMFS_MAX_CHILDREN`. -/
def ramfsMaxChildren : ℕ := 32

/-- `mode & S_IFDIR`. -/
def IsDir (mode : UInt32) : Prop := mode &&& sIfdir ≠ 0

instance (mode : UInt32) : Decidable (IsDir mode) := inferInstanceAs (Decidable (_ ≠ _))

variable (K : Kmalloc)

/-- `alloc_dentry`: a name is cut to 31 characters. -/
def allocDentry (name : CString) (inode parent : Ptr) : Prog FsState Ptr :=
  kmalloc K 48 (.dentry ⟨name.take 31, inode, parent⟩)

/-- `free_dentry`. -/
def freeDentry (dentry : Ptr) : Prog FsState Unit := kfree dentry

/-- `ramfs_lookup`: the first child of that name, and the search key is freed if there is one. -/
def ramfsLookup (dir dentry : Ptr) : Prog FsState Ptr := do
  let i ← inodeAt dir
  if i.iPrivate = 0 then pure 0
  else do
    let dirData ← dirAt i.iPrivate
    let r ← forRange dirData.childCount fun k => do
      let child ← dentryAt (dirData.children k)
      let key ← dentryAt dentry
      if child.dName = key.dName then do
        freeDentry dentry
        pure (some (dirData.children k))
      else pure none
    pure (r.getD 0)

/-- The zeroed private data of a new inode. -/
def emptyData (mode : UInt32) : Obj :=
  if IsDir mode then .dir ⟨fun _ => 0, 0⟩ else .file ⟨0, 0⟩

/-- `ramfs_create_inode`. -/
def ramfsCreateInode (mode : UInt32) : Prog FsState Ptr := do
  let ino ← kmalloc K 48 (.inode ⟨0, 0, 0, false, 0⟩)
  let num ← Prog.read fun s => s.nextInoNum
  Prog.modify fun s => { s with nextInoNum := (s.nextInoNum + 1) % 2 ^ 32 }
  store ino (.inode ⟨num, mode, 0, true, 0⟩)
  let data ← kmalloc K (if IsDir mode then 264 else 16) (emptyData mode)
  store ino (.inode ⟨num, mode, 0, true, data⟩)
  pure ino

/-- `ramfs_mkdir` and `ramfs_create`, which differ in the file type they add to the mode. -/
def ramfsAdd (fileType : UInt32) (dir dentry : Ptr) (mode : UInt32) : Prog FsState ℤ := do
  let i ← inodeAt dir
  if i.iPrivate = 0 then pure (-1)
  else do
    let dirData ← dirAt i.iPrivate
    if dirData.childCount ≥ ramfsMaxChildren then pure (-1)
    else do
      let newInode ← ramfsCreateInode K (fileType ||| mode)
      let d ← dentryAt dentry
      store dentry (.dentry { d with dInode := newInode })
      let dirData ← dirAt i.iPrivate
      store i.iPrivate (.dir
        { children := Function.update dirData.children dirData.childCount dentry
          childCount := dirData.childCount + 1 })
      pure 0

/-- `ramfs_mkdir`. -/
def ramfsMkdir := ramfsAdd K sIfdir

/-- `ramfs_create`. -/
def ramfsCreate := ramfsAdd K sIfreg

/-- The objects after bytes are stored from an address on, whatever lies there. -/
def clobberRange (h : Heap Obj) (dest : ℕ) (src : ℕ → UInt8) (n : ℕ) : Heap Obj :=
  (List.range n).foldl (fun h k => K.clobber h (wrap (dest + k)) (src k)) h

/-- `memcpy` to an offset in a block: into a buffer, or over what else is there. -/
def memcpyTo (dest offset : ℕ) (src : ℕ → UInt8) (n : ℕ) : Prog FsState Unit :=
  Prog.modify fun s =>
    let stray := { s with heap := clobberRange K s.heap (dest + offset) src n }
    if n = 0 then s
    else match s.heap.get dest with
      | some (.bytes len content) =>
        if offset + n ≤ len then
          { s with
            heap := s.heap.set dest (.bytes len fun k =>
              if offset ≤ k ∧ k < offset + n then src (k - offset) else content k) }
        else stray
      | _ => stray

/-- The bytes `memcpy` reads from a block on. -/
def bytesAt (p : ℕ) : Prog FsState (ℕ → UInt8) :=
  Prog.read fun s k =>
    match s.heap.get p with
    | some (.bytes len content) => if k < len then content k else K.peek s.heap (wrap (p + k))
    | _ => K.peek s.heap (wrap (p + k))

/-- `while (new_cap < target_size) new_cap *= 2`: after 64 rounds `new_cap` is `0`, and the loop
does not end. -/
def growCap (target : ℕ) : ℕ → ℕ → Option ℕ
  | 0, cap => if cap < target then none else some cap
  | n + 1, cap => if cap < target then growCap target n (wrap (2 * cap)) else some cap

/-- The branch of `ramfs_write` that moves the data to a larger buffer. -/
def growBuffer (data : Ptr) (f : FileData) (iSize target : ℕ) : Prog FsState FileData := do
  match growCap target 64 (if f.capacity = 0 then 64 else wrap (2 * f.capacity)) with
  | none => Prog.halt
  | some newCap => do
    let old ← Prog.read fun s => s.heap
    let newBuffer ← kmalloc K newCap (.bytes newCap (K.leftover old newCap))
    if f.buffer ≠ 0 then do
      let content ← bytesAt K f.buffer
      memcpyTo K newBuffer 0 content iSize
      kfree f.buffer
    setFile data ⟨newBuffer, newCap⟩
    pure ⟨newBuffer, newCap⟩

/-- The end of `ramfs_write`: the bytes go to the buffer, and the offset and the size move on. -/
def copyIn (ino : Ptr) (inode : Inode) (f : FileData) (buf : ℕ → UInt8) (size offset : ℕ) :
    Prog FsState (ℤ × ℕ) := do
  memcpyTo K f.buffer offset buf size
  let newOffset := wrap (offset + size)
  if newOffset > inode.iSize then store ino (.inode { inode with iSize := newOffset })
  pure (size, newOffset)

/-- `ramfs_write`: the value returned, and the new `*offset`. -/
def ramfsWrite (filp : Ptr) (buf : ℕ → UInt8) (size offset : ℕ) : Prog FsState (ℤ × ℕ) := do
  let filp ← handleAt filp
  let d ← dentryAt filp.fDentry
  let inode ← inodeAt d.dInode
  if inode.iPrivate = 0 then pure (-1, offset)
  else do
    let f ← fileAt inode.iPrivate
    let targetSize := wrap (offset + size)
    let f ← if targetSize > f.capacity then growBuffer K inode.iPrivate f inode.iSize targetSize
      else pure f
    copyIn K d.dInode inode f buf size offset

/-- `ramfs_init`. -/
def ramfsInit : Prog FsState Unit := do
  let rootInode ← kmalloc K 48 (.inode ⟨2, sIfdir, 0, true, 0⟩)
  let data ← kmalloc K 264 (.dir ⟨fun _ => 0, 0⟩)
  store rootInode (.inode ⟨2, sIfdir, 0, true, data⟩)
  let root ← allocDentry K [slash] rootInode 0
  Prog.modify fun s => { s with rootDentry := root }

/-! ## `vfs.c` -/

/-- The loop of `vfs_lookup`, from `current` on. -/
def walk : List CString → Ptr → Prog FsState Ptr
  | [], current => pure current
  | token :: rest, current =>
    if token = dot then walk rest current
    else if token = dotdot then do
      let d ← dentryAt current
      walk rest (if d.dParent ≠ 0 then d.dParent else current)
    else do
      let d ← dentryAt current
      let i ← inodeAt d.dInode
      if ¬IsDir i.iMode then pure 0
      else if i.iOps = false then Prog.halt
      else do
        let searchDentry ← allocDentry K token 0 current
        let found ← ramfsLookup d.dInode searchDentry
        if found = 0 then do
          freeDentry searchDentry
          pure 0
        else do
          let child ← dentryAt found
          if child.dInode = 0 then do
            if found ≠ searchDentry then freeDentry searchDentry
            pure 0
          else walk rest found

/-- `vfs_lookup`. -/
def vfsLookup (path : Option CString) : Prog FsState Ptr := do
  let root ← Prog.read fun s => s.rootDentry
  if root = 0 then pure 0
  else match path with
    | none => pure 0
    | some path => if path.head? = some slash then walk K (tokens path) root else pure 0

/-- `vfs_open`. -/
def vfsOpen (path : Option CString) : Prog FsState Ptr := do
  let dentry ← vfsLookup K path
  if dentry = 0 then pure 0
  else do
    let d ← dentryAt dentry
    if d.dInode = 0 then pure 0
    else do
      let i ← inodeAt d.dInode
      if IsDir i.iMode then pure 0
      else kmalloc K 40 (.handle ⟨dentry, 0, if i.iOps then .ramfs else .null, none⟩)

/-- What `vfs_create` and `vfs_mkdir` do first: split the path, find the directory, and go on with
its dentry, its inode and the name. -/
def inParent (path : Option CString) (fileMax : ℕ) (add : Ptr → Ptr → CString → Prog FsState ℤ) :
    Prog FsState ℤ :=
  match vfsSplitPath path 256 fileMax with
  | none => pure (-1)
  | some (parentDir, name) => do
    let parent ← vfsLookup K (some parentDir)
    if parent = 0 then pure (-2)
    else do
      let d ← dentryAt parent
      if d.dInode = 0 then pure (-2)
      else do
        let i ← inodeAt d.dInode
        if ¬IsDir i.iMode then pure (-3)
        else if i.iOps = false then pure (-4)
        else add parent d.dInode name

/-- `vfs_create`. -/
def vfsCreate (path : Option CString) (mode : UInt32) : Prog FsState ℤ :=
  inParent K path 32 fun parent inode fileName => do
    let newFile ← allocDentry K fileName 0 parent
    ramfsCreate K inode newFile mode

/-- `vfs_mkdir`.  The search key is not freed where nothing is found. -/
def vfsMkdir (path : Option CString) (mode : UInt32) : Prog FsState ℤ :=
  inParent K path 64 fun parent inode newDirName => do
    let searchTemplate ← allocDentry K newDirName 0 parent
    let existing ← ramfsLookup inode searchTemplate
    let taken ← if existing = 0 then pure false else do
      let e ← dentryAt existing
      pure (e.dInode != 0)
    if taken then pure (-6)
    else do
      let newDirDentry ← allocDentry K newDirName 0 parent
      let result ← ramfsMkdir K inode newDirDentry mode
      if result < 0 then freeDentry newDirDentry
      pure result

end Hvos.Fs
