import Hvos.Fs.Vfs

/-!
# Fs/Tar — `ramfs_from_tar`

The importer of `tar.c`, over the bytes at `tar_addr`: a walk from header to header that makes a
directory or a file for each member it knows the type of.
-/

namespace Hvos.Fs

open Prog

/-- The bytes at `tar_addr`, by offset. -/
abbrev TarBytes := ℕ → UInt8

/-- The loop of `octal_to_int`, from `str[i]` on, `n` characters before the end. -/
def octalFrom (str : ℕ → UInt8) : ℕ → ℕ → ℕ → ℕ
  | 0, _, acc => acc
  | n + 1, i, acc =>
    if str i < 48 ∨ str i > 55 then acc
    else octalFrom str n (i + 1) ((acc * 8 + ((str i).toNat - 48)) % 2 ^ 32)

/-- `octal_to_int`: it stops at the first character that is no octal digit. -/
def octalToInt (str : ℕ → UInt8) (size : ℕ) : ℕ := octalFrom str size 0 0

namespace TarBytes

variable (tar : TarBytes) (offset : ℕ)

/-- `header->name`, as `strncpy` copies it: up to a `NUL`, 254 bytes at most. -/
def name : CString := ((List.range 254).map fun k => tar (offset + k)).takeWhile (· ≠ 0)

/-- The size of the member. -/
def fileSize : ℕ := octalToInt (fun k => tar (offset + 124 + k)) 12

/-- `header->typeflag`. -/
def typeflag : UInt8 := tar (offset + 156)

/-- `strncmp(header->magic, "ustar", 5) == 0`. -/
def isUstar : Bool := (List.range 5).map (fun k => tar (offset + 257 + k)) == [117, 115, 116, 97, 114]

/-- `absolute_path`. -/
def absolutePath : CString := slash :: tar.name offset

end TarBytes

/-- The path of a directory without its last `/`. -/
def stripSlash (path : CString) : CString :=
  if path.length > 1 ∧ path.getLast? = some slash then path.dropLast else path

variable (K : Kmalloc)

/-- Write `fileSize` bytes to the file at `path`, and make that its size. -/
def fillFile (path : CString) (data : ℕ → UInt8) (fileSize : ℕ) : Prog FsState Unit := do
  let file ← vfsOpen K (some path)
  if file = 0 then pure ()
  else do
    let f ← handleAt file
    if f.fOps = .ramfs then do
      let _ ← ramfsWrite K file data fileSize 0
      let d ← dentryAt f.fDentry
      let i ← inodeAt d.dInode
      store d.dInode (.inode { i with iSize := fileSize })
      kfree file
    else Prog.halt

/-- The branch for a regular file.  What `vfs_create` returns is not looked at. -/
def importFile (path : CString) (data : ℕ → UInt8) (fileSize : ℕ) : Prog FsState Unit := do
  let _ ← vfsCreate K (some path) 0o644
  fillFile K path data fileSize

/-- One round: the member at `offset`. -/
def importMember (tar : TarBytes) (offset : ℕ) : Prog FsState Unit := do
  if tar.typeflag offset = 53 then do
    let _ ← vfsMkdir K (some (stripSlash (tar.absolutePath offset))) 0o775
  else if tar.typeflag offset = 48 ∨ tar.typeflag offset = 0 then
    importFile K (tar.absolutePath offset) (fun k => tar (offset + 512 + k)) (tar.fileSize offset)

/-- Where the header after the one at `offset` is looked for. -/
def nextHeader (tar : TarBytes) (offset : ℕ) : ℕ :=
  offset + 512 + (tar.fileSize offset + 511) / 512 * 512

/-- The loop of `ramfs_from_tar`, from `offset` on. -/
def importFrom (tar : TarBytes) (tarSize : ℕ) : ℕ → ℕ → Prog FsState Unit
  | 0, _ => pure ()
  | n + 1, offset =>
    if offset + 512 > tarSize ∨ tar.name offset = [] ∨ tar.isUstar offset = false then pure ()
    else do
      importMember K tar offset
      importFrom tar tarSize n (nextHeader tar offset)

/-- `ramfs_from_tar`: a round moves on by a block at least, which bounds their number. -/
def ramfsFromTar (tar : TarBytes) (tarSize : ℕ) : Prog FsState Unit :=
  importFrom K tar tarSize (tarSize / 512) 0

/-- `vfs_init`, given the first module the boot loader has, if there is one. -/
def vfsInit (ramdisk : Option (TarBytes × ℕ)) : Prog FsState Unit :=
  match ramdisk with
  | none => pure ()
  | some (tar, tarSize) => do
    ramfsInit K
    ramfsFromTar K tar tarSize

end Hvos.Fs
