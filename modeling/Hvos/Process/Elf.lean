import Hvos.Memory.Heap

/-!
# Process/Elf — `load_elf_binary`

The loader of `elf.c`: headers read from the bytes behind `elf_buffer`, a new PML4 with the kernel's
upper half, and one frame per page of every `PT_LOAD` segment, mapped and filled.  Sizes, offsets
and addresses come from the file and wrap as `uint64_t`.
-/

namespace Hvos.Process

open Memory Bytes Prog

/-! ## Headers -/

/-- The bytes behind `elf_buffer`, by offset. -/
abbrev ElfFile := ℕ → UInt8

namespace ElfFile

/-- The bytes from `off` on. -/
def bytesFrom (elf : ElfFile) (off : ℕ) : ℕ → UInt8 := fun k => elf (wrap (off + k))

/-- The first four bytes of `e_ident`. -/
def eIdent (elf : ElfFile) : ℕ := load (elf.bytesFrom 0) 0 4

/-- `e_entry`. -/
def eEntry (elf : ElfFile) : ℕ := load (elf.bytesFrom 0) 24 8

/-- `e_phoff`. -/
def ePhoff (elf : ElfFile) : ℕ := load (elf.bytesFrom 0) 32 8

/-- `e_phnum`. -/
def ePhnum (elf : ElfFile) : ℕ := load (elf.bytesFrom 0) 56 2

end ElfFile

/-- `ELF_MAGIC`. -/
def elfMagic : ℕ := 0x464C457F

/-- `PT_LOAD`. -/
def ptLoad : ℕ := 1

/-- The fields of `elf64_pheader_t` that the loader reads. -/
structure ProgramHeader where
  pType : ℕ
  pOffset : ℕ
  pVaddr : ℕ
  pFilesz : ℕ
  pMemsz : ℕ

/-- `pheaders[i]`. -/
def ElfFile.pheader (elf : ElfFile) (i : ℕ) : ProgramHeader :=
  let bytes := elf.bytesFrom (elf.ePhoff + 56 * i)
  { pType := load bytes 0 4
    pOffset := load bytes 8 8
    pVaddr := load bytes 16 8
    pFilesz := load bytes 32 8
    pMemsz := load bytes 40 8 }

namespace ProgramHeader

variable (ph : ProgramHeader)

/-- `page_offset`. -/
def pageOffset : ℕ := ph.pVaddr % 4096

/-- `vaddr_page`. -/
def vaddrPage : ℕ := ph.pVaddr - ph.pageOffset

/-- `total_size`, rounded up to whole pages. -/
def totalSize : ℕ :=
  let total := wrap (ph.pMemsz + ph.pageOffset)
  if total % 4096 ≠ 0 then wrap ((total / 4096 + 1) * 4096) else total

/-- The rounds of the loop over `off`. -/
def pageCount : ℕ := ph.totalSize / 4096

/-- `vaddr_page + off` in round `i`. -/
def pageVaddr (i : ℕ) : ℕ := wrap (ph.vaddrPage + 4096 * i)

end ProgramHeader

/-! ## Filling a page -/

/-- `memcpy` of `n` bytes to offset `dest` of a page. -/
def memcpy (pg : Page) (dest : ℕ) (src : ℕ → UInt8) (n : ℕ) : Page := fun o =>
  if dest ≤ o.val ∧ o.val < dest + n then src (o.val - dest) else pg o

/-- `memset` to zero of `n` bytes from offset `dest` of a page. -/
def memzero (pg : Page) (dest n : ℕ) : Page := fun o =>
  if dest ≤ o.val ∧ o.val < dest + n then 0 else pg o

/-- Zero the remainder of a page of which `bytesCopied` bytes are written. -/
def zeroRemainder (pg : Page) (bytesCopied : ℕ) : Page :=
  if bytesCopied < 4096 then memzero pg bytesCopied (4096 - bytesCopied) else pg

/-- File bytes from `fileReadOffset` on, up to the end of the page or of the file part. -/
def copyFile (elf : ElfFile) (ph : ProgramHeader) (destPageOffset fileReadOffset : ℕ) (pg : Page) :
    Page :=
  if fileReadOffset < ph.pFilesz then
    let rest := ph.pFilesz - fileReadOffset
    let byteToCopy := if rest > 4096 - destPageOffset then 4096 - destPageOffset else rest
    zeroRemainder (memcpy pg destPageOffset (elf.bytesFrom (ph.pOffset + fileReadOffset)) byteToCopy)
      (byteToCopy + destPageOffset)
  else zeroRemainder pg destPageOffset

/-- The page at `off` of a segment. -/
def fillPage (elf : ElfFile) (ph : ProgramHeader) (off : ℕ) (pg : Page) : Page :=
  copyFile elf ph (if off = 0 then ph.pageOffset else 0)
    (if off = 0 then 0 else wsub off ph.pageOffset) pg

/-! ## `load_elf_binary` -/

/-- Entries 256..511 of the PML4 `dst` become those of `src`. -/
def copyHalf (src dst : ℕ) (s : Mem) : Mem :=
  (List.range 256).foldl (fun s i =>
    s.setEntry dst (Fin.ofNat 512 (256 + i)) (s.entry src (Fin.ofNat 512 (256 + i)))) s

/-- One round of the loop over the pages of a segment, with
`PTE_PRESENT | PTE_WRITABLE | PTE_USER`. -/
def loadPage (elf : ElfFile) (pml4 : ℕ) (ph : ProgramHeader) (i : ℕ) : Prog Mem (Option ℕ) := do
  match ← pmmAlloc with
  | none => pure (some 0)
  | some frame =>
    mapPage pml4 (ph.pageVaddr i) (frame * 4096) 7
    Prog.modify fun s => s.setFrame frame (fillPage elf ph (4096 * i) (s.phys frame))
    pure none

/-- One round of the loop over the program headers. -/
def loadSegment (elf : ElfFile) (pml4 : ℕ) (ph : ProgramHeader) : Prog Mem (Option ℕ) :=
  if ph.pType ≠ ptLoad then pure none else forRange ph.pageCount (loadPage elf pml4 ph)

/-- The new PML4.  Its allocation is not checked: without a frame it is made in frame 0. -/
def newPml4 : Prog Mem ℕ := do
  let frame ← pmmAlloc
  let pml4 := frame.getD 0
  Prog.modify fun s => copyHalf s.kernelPml4 pml4 (s.setFrame pml4 Page.zero)
  pure pml4

/-- `load_elf_binary`: the value returned, and the one stored in `*out_pml4_phys`, if any (as a
frame number). -/
def loadElfBinary (elfBuffer : ℕ) (elf : ElfFile) : Prog Mem (ℕ × Option ℕ) :=
  if elf.eIdent ≠ elfMagic then do
    Prog.modify fun s => s.kfree elfBuffer
    pure (0, none)
  else do
    let pml4 ← newPml4
    match ← forRange elf.ePhnum fun i => loadSegment elf pml4 (elf.pheader i) with
    | some r => pure (r, none)
    | none => pure (elf.eEntry, some pml4)

end Hvos.Process
