import Hvos.Lib.Objects
import Hvos.Lib.Prog

/-!
# Fs/Objects — dentries, inodes, directory and file data on the kernel heap

The objects of `vfs.h` and `ramfs.h`, each behind a pointer, and the accesses the code makes to
them. A pointer is an address, `0` is `NULL`.  `kmalloc` returns a free block or stops the machine;
an access through a pointer to no object of its kind has no meaning in C, and stops the program
here.
-/

namespace Hvos.Fs

open Prog

/-- An address; `0` is `NULL`. -/
abbrev Ptr := ℕ

/-- A C string: its bytes up to the `NUL`. -/
abbrev CString := List UInt8

/-! ## Objects -/

/-- `dentry_t`. -/
structure Dentry where
  dName : CString
  dInode : Ptr
  dParent : Ptr

/-- `inode_t`.  Its two tables of operations are those of ramfs, or `NULL` until they are set. -/
structure Inode where
  iIno : ℕ
  iMode : UInt32
  iSize : ℕ
  iOps : Bool
  iPrivate : Ptr

/-- `ramfs_dir_data_t`: an array of 32 pointers and a count. -/
structure DirData where
  children : ℕ → Ptr
  childCount : ℕ

/-- `ramfs_file_data_t`. -/
structure FileData where
  buffer : Ptr
  capacity : ℕ

/-- The tables an `f_ops` can point to. -/
inductive FileOps
  | null | ramfs | console
  deriving DecidableEq, Repr

/-- `file_t`.  `vfs_open` leaves `f_flags` unset. -/
structure File where
  fDentry : Ptr
  fPos : ℕ
  fOps : FileOps
  fFlags : Option UInt32

/-- What a block of the heap holds. -/
inductive Obj
  | dentry (d : Dentry)
  | inode (i : Inode)
  | dir (d : DirData)
  | file (f : FileData)
  | bytes (len : ℕ) (content : ℕ → UInt8)
  | handle (f : File)

/-- `USER_SPACE_END`. -/
def userSpaceEnd : ℕ := 0x00007FFFFFFFFFFF

/-- `kmalloc`, and the memory around its blocks: the bytes that stand in a block of a given size
when it is handed out, the byte at an address outside of all buffers, and what becomes of the
objects when a byte is stored there.  No object is in user space. -/
structure Kmalloc extends Allocator Obj where
  leftover : Heap Obj → ℕ → ℕ → UInt8
  peek : Heap Obj → ℕ → UInt8
  clobber : Heap Obj → ℕ → UInt8 → Heap Obj
  clobber_user : ∀ {h : Heap Obj} {a : ℕ} {b : UInt8}, a < userSpaceEnd → clobber h a b = h

/-- A heap that never ends and is full of zeros, in memory where stray bytes do no harm. -/
def Kmalloc.endless : Kmalloc := ⟨.bump Obj, fun _ _ _ => 0, fun _ _ => 0, fun h _ _ => h, fun _ => rfl⟩

/-- The file system's part of the kernel. -/
structure FsState where
  heap : Heap Obj
  rootDentry : Ptr
  nextInoNum : ℕ

/-! ## Accesses -/

variable (K : Kmalloc)

/-- `kmalloc(n)` and the assignments that make the block an object. -/
def kmalloc (n : ℕ) (o : Obj) : Prog FsState Ptr := fun s =>
  match K.alloc s.heap n with
  | none => .halt s
  | some p => .done p { s with heap := s.heap.set p o }

/-- `kfree`. -/
def kfree (p : Ptr) : Prog FsState Unit :=
  Prog.modify fun s => if p = 0 then s else { s with heap := s.heap.free p }

/-- Overwrite the object at `p`. -/
def store (p : Ptr) (o : Obj) : Prog FsState Unit :=
  Prog.modify fun s => { s with heap := s.heap.set p o }

/-- The object at `p`, if it is of the kind that `kind` picks. -/
def fetch {α : Type} (kind : Obj → Option α) (p : Ptr) : Prog FsState α := fun s =>
  match (s.heap.get p).bind kind with
  | some a => .done a s
  | none => .halt s

/-- Read a `dentry_t`. -/
def dentryAt : Ptr → Prog FsState Dentry := fetch fun | .dentry d => some d | _ => none

/-- Read an `inode_t`. -/
def inodeAt : Ptr → Prog FsState Inode := fetch fun | .inode i => some i | _ => none

/-- Read a `file_t`. -/
def handleAt : Ptr → Prog FsState File := fetch fun | .handle f => some f | _ => none

/-- Read a `ramfs_dir_data_t`. -/
def dirAt : Ptr → Prog FsState DirData := fetch fun | .dir d => some d | _ => none

/-- Read a `ramfs_file_data_t`, whatever the block holds: of directory data, its two words are
`children[0]` and `children[1]`. -/
def fileAt : Ptr → Prog FsState FileData := fetch fun
  | .file f => some f
  | .dir d => some ⟨d.children 0, d.children 1⟩
  | _ => none

/-- Write a `ramfs_file_data_t`, with the same two words. -/
def setFile (p : Ptr) (f : FileData) : Prog FsState Unit :=
  Prog.modify fun s =>
    match s.heap.get p with
    | some (.dir d) =>
      { s with
        heap := s.heap.set p (.dir { d with
          children := Function.update (Function.update d.children 0 f.buffer) 1 f.capacity }) }
    | _ => { s with heap := s.heap.set p (.file f) }

/-! ## The rules for accesses -/

section Rules

variable {K} {s : FsState} {H : FsState → Prop} {p : Ptr}

/-- The machine stopped because there was no memory left. -/
def Refused (K : Kmalloc) (s : FsState) : Prop := ∃ n, K.alloc s.heap n = none

theorem ensures_alloc {n : ℕ} {o : Obj} {Q : Ptr → FsState → Prop}
    (h : ∀ p, K.alloc s.heap n = some p → Q p { s with heap := s.heap.set p o }) :
    Ensures (kmalloc K n o) s Q (Refused K) := by
  unfold Ensures kmalloc
  cases ha : K.alloc s.heap n with
  | none => exact ⟨n, ha⟩
  | some p => exact h p ha

theorem ensures_kmalloc {n : ℕ} {o : Obj} {Q : Ptr → FsState → Prop}
    (h : ∀ p, p ≠ 0 → s.heap.get p = none → Q p { s with heap := s.heap.set p o }) :
    Ensures (kmalloc K n o) s Q (Refused K) :=
  ensures_alloc fun p ha => h p (K.fresh ha).1 (K.fresh ha).2

theorem ensures_kfree {Q : Unit → FsState → Prop} (hp : p ≠ 0)
    (h : Q () { s with heap := s.heap.free p }) : Ensures (kfree p) s Q H :=
  ensures_modify (by rwa [if_neg hp])

theorem ensures_fetch {α : Type} {kind : Obj → Option α} {Q : α → FsState → Prop} {o : Obj} {a : α}
    (ho : s.heap.get p = some o) (hk : kind o = some a) (h : Q a s) :
    Ensures (fetch kind p) s Q H := by
  unfold Ensures fetch
  rw [ho, Option.bind_some, hk]
  exact h

theorem ensures_dentryAt {Q : Dentry → FsState → Prop} {d : Dentry}
    (hd : s.heap.get p = some (.dentry d)) (h : Q d s) : Ensures (dentryAt p) s Q H :=
  ensures_fetch hd rfl h

theorem ensures_inodeAt {Q : Inode → FsState → Prop} {i : Inode}
    (hi : s.heap.get p = some (.inode i)) (h : Q i s) : Ensures (inodeAt p) s Q H :=
  ensures_fetch hi rfl h

theorem ensures_handleAt {Q : File → FsState → Prop} {f : File}
    (hf : s.heap.get p = some (.handle f)) (h : Q f s) : Ensures (handleAt p) s Q H :=
  ensures_fetch hf rfl h

theorem ensures_dirAt {Q : DirData → FsState → Prop} {d : DirData}
    (hd : s.heap.get p = some (.dir d)) (h : Q d s) : Ensures (dirAt p) s Q H :=
  ensures_fetch hd rfl h

theorem ensures_fileAt {Q : FileData → FsState → Prop} {f : FileData}
    (hf : s.heap.get p = some (.file f)) (h : Q f s) : Ensures (fileAt p) s Q H :=
  ensures_fetch hf rfl h

theorem ensures_setFile {Q : Unit → FsState → Prop} {f f' : FileData}
    (hf : s.heap.get p = some (.file f)) (h : Q () { s with heap := s.heap.set p (.file f') }) :
    Ensures (setFile p f') s Q H :=
  ensures_modify (by rwa [hf])

end Rules

end Hvos.Fs
