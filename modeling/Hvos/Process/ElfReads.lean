import Hvos.Lib.Noted
import Hvos.Process.ElfImage

/-!
# Process/ElfReads — what `load_elf_binary` reads

The loader once more, noting the index of every byte it reads behind `elf_buffer`; without the notes
it is `loadElfBinary`.  It is not told how long the file is, so nothing but the file itself keeps it
inside: the headers it visits have to be there, and of every segment the bytes that are copied.
-/

namespace Hvos.Process

open Memory Bytes Prog Noted

/-! ## The loader, with notes -/

namespace ElfFile

/-- The indices of `n` bytes from `k` on, counted from `base`. -/
def indices (base k n : ℕ) : List ℕ := (List.range n).map fun i => wrap (base + (k + i))

/-- Read a field of `n` bytes at offset `k` of the structure at `base`. -/
def readField (elf : ElfFile) (base k n : ℕ) : Noted Mem ℕ ℕ := do
  note (indices base k n)
  pure (load (elf.bytesFrom base) k n)

/-- Where `pheaders[i]` lies. -/
def phBase (elf : ElfFile) (i : ℕ) : ℕ := elf.ePhoff + 56 * i

end ElfFile

namespace ProgramHeader

variable (ph : ProgramHeader) (i : ℕ)

/-- `dest_page_offset` in round `i`. -/
def destPageOffset : ℕ := if i = 0 then ph.pageOffset else 0

/-- `file_read_offset`. -/
def fileReadOffset : ℕ := if i = 0 then 0 else wsub (4096 * i) ph.pageOffset

/-- `byte_to_copy`, where there is something to copy. -/
def byteToCopy : ℕ :=
  let rest := ph.pFilesz - ph.fileReadOffset i
  if rest > 4096 - ph.destPageOffset i then 4096 - ph.destPageOffset i else rest

end ProgramHeader

/-- The page in `frame` is filled, for a header of which `p_vaddr` and `p_memsz` have been read.  A
field that is read twice is noted once. -/
def fillFrameNoted (elf : ElfFile) (base : ℕ) (ph : ProgramHeader) (frame i : ℕ) :
    Noted Mem ℕ (Option ℕ) := do
  let pFilesz ← elf.readField base 32 8
  if ph.fileReadOffset i < pFilesz then do
    let pOffset ← elf.readField base 8 8
    note (ElfFile.indices pOffset (ph.fileReadOffset i)
      ({ ph with pFilesz := pFilesz }.byteToCopy i))
    lift (Prog.modify fun s => s.setFrame frame
      (fillPage elf { ph with pFilesz := pFilesz, pOffset := pOffset } (4096 * i) (s.phys frame)))
    pure none
  else do
    lift (Prog.modify fun s => s.setFrame frame
      (fillPage elf { ph with pFilesz := pFilesz } (4096 * i) (s.phys frame)))
    pure none

/-- `loadPage`. -/
def loadPageNoted (elf : ElfFile) (pml4 base : ℕ) (ph : ProgramHeader) (i : ℕ) :
    Noted Mem ℕ (Option ℕ) := do
  match ← lift pmmAlloc with
  | none => pure (some 0)
  | some frame => do
    lift (mapPage pml4 (ph.pageVaddr i) (frame * 4096) 7)
    fillFrameNoted elf base ph frame i

/-- `loadSegment`, for the header at `base`. -/
def loadSegmentNoted (elf : ElfFile) (pml4 base : ℕ) : Noted Mem ℕ (Option ℕ) := do
  let pType ← elf.readField base 0 4
  if pType ≠ ptLoad then pure none
  else do
    let pVaddr ← elf.readField base 16 8
    let pMemsz ← elf.readField base 40 8
    let ph : ProgramHeader :=
      { pType := pType, pOffset := 0, pVaddr := pVaddr, pFilesz := 0, pMemsz := pMemsz }
    Noted.forRange ph.pageCount (loadPageNoted elf pml4 base ph)

/-- `load_elf_binary`, with the indices it reads. -/
def loadElfBinaryNoted (elfBuffer : ℕ) (elf : ElfFile) : Noted Mem ℕ (ℕ × Option ℕ) := do
  let eIdent ← elf.readField 0 0 4
  if eIdent ≠ elfMagic then do
    lift (Prog.modify fun s => s.kfree elfBuffer)
    pure (0, none)
  else do
    let pml4 ← lift newPml4
    let ePhoff ← elf.readField 0 32 8
    let ePhnum ← elf.readField 0 56 2
    match ← Noted.forRange ePhnum fun i => loadSegmentNoted elf pml4 (ePhoff + 56 * i) with
    | some r => pure (r, none)
    | none => do
      let eEntry ← elf.readField 0 24 8
      pure (eEntry, some pml4)

/-- The file as `execute_elf` hands it on: an empty one is turned down. -/
def loadFileNoted (fileSize elfBuffer : ℕ) (elf : ElfFile) : Noted Mem ℕ (ℕ × Option ℕ) :=
  if fileSize = 0 then pure (0, none) else loadElfBinaryNoted elfBuffer elf

/-! ## Without the notes -/

variable {i base : ℕ}

section Run

variable {elf : ElfFile} {pml4 : ℕ}

@[simp] theorem readField_run (base k n : ℕ) :
    (elf.readField base k n).run = pure (load (elf.bytesFrom base) k n) := rfl

/-- The header of which only `p_type`, `p_vaddr` and `p_memsz` are known. -/
def ElfFile.extent (elf : ElfFile) (j : ℕ) : ProgramHeader :=
  { elf.pheader j with pOffset := 0, pFilesz := 0 }

theorem extent_pageVaddr (j i : ℕ) : (elf.extent j).pageVaddr i = (elf.pheader j).pageVaddr i := by
  rw [ElfFile.extent]
  generalize elf.pheader j = ph
  rfl

theorem extent_fileReadOffset (j i : ℕ) :
    (elf.extent j).fileReadOffset i = (elf.pheader j).fileReadOffset i := by
  rw [ElfFile.extent]
  generalize elf.pheader j = ph
  rfl

theorem extent_pageCount (j : ℕ) : (elf.extent j).pageCount = (elf.pheader j).pageCount := by
  rw [ElfFile.extent]
  generalize elf.pheader j = ph
  rfl

theorem fillPage_offset (ph : ProgramHeader) (h : ¬ph.fileReadOffset i < ph.pFilesz) (offset : ℕ)
    (pg : Page) :
    fillPage elf { ph with pOffset := offset } (4096 * i) pg = fillPage elf ph (4096 * i) pg := by
  have hoff : ¬(if 4096 * i = 0 then 0 else wsub (4096 * i) ph.pageOffset) < ph.pFilesz := by
    simpa [ProgramHeader.fileReadOffset] using h
  unfold fillPage copyFile
  rw [if_neg hoff]
  exact if_neg hoff

theorem fillFrameNoted_run (j frame i : ℕ) :
    (fillFrameNoted elf (elf.phBase j) (elf.extent j) frame i).run = (do
      Prog.modify fun s =>
        s.setFrame frame (fillPage elf (elf.pheader j) (4096 * i) (s.phys frame))
      pure none) := by
  have hfilesz : load (elf.bytesFrom (elf.phBase j)) 32 8 = (elf.pheader j).pFilesz := rfl
  simp only [fillFrameNoted, run_bind, run_lift, readField_run, run_ite, run_note, run_pure,
    Prog.pure_bind, hfilesz, extent_fileReadOffset]
  by_cases hcopy : (elf.pheader j).fileReadOffset i < (elf.pheader j).pFilesz
  · rw [if_pos hcopy]
    rfl
  · have hph : ({ elf.extent j with pFilesz := (elf.pheader j).pFilesz } : ProgramHeader) =
        { elf.pheader j with pOffset := 0 } := rfl
    simp only [if_neg hcopy, hph, fillPage_offset (elf.pheader j) hcopy]

theorem loadPageNoted_run (j i : ℕ) : (loadPageNoted elf pml4 (elf.phBase j) (elf.extent j) i).run =
      loadPage elf pml4 (elf.pheader j) i := by
  unfold loadPageNoted loadPage
  rw [run_bind]
  congr 1
  funext frame
  cases frame with
  | none => rfl
  | some frame => rw [run_bind, run_lift, extent_pageVaddr, fillFrameNoted_run]

theorem loadSegmentNoted_run (j : ℕ) :
    (loadSegmentNoted elf pml4 (elf.phBase j)).run = loadSegment elf pml4 (elf.pheader j) := by
  have htype : load (elf.bytesFrom (elf.phBase j)) 0 4 = (elf.pheader j).pType := rfl
  have hextent : (⟨(elf.pheader j).pType, 0, load (elf.bytesFrom (elf.phBase j)) 16 8, 0,
      load (elf.bytesFrom (elf.phBase j)) 40 8⟩ : ProgramHeader) = elf.extent j := rfl
  simp only [loadSegmentNoted, run_bind, readField_run, run_ite, run_pure, run_forRange,
    Prog.pure_bind, htype, hextent, extent_pageCount, loadPageNoted_run, loadSegment]

/-- **Without its notes it is the loader.** -/
theorem loadElfBinaryNoted_run (elfBuffer : ℕ) :
    (loadElfBinaryNoted elfBuffer elf).run = loadElfBinary elfBuffer elf := by
  unfold loadElfBinaryNoted loadElfBinary
  simp only [run_bind, readField_run, run_ite, run_lift, run_pure, run_forRange, Prog.pure_bind]
  have hsegment : ∀ pml4, (fun i => (loadSegmentNoted elf pml4 (elf.phBase i)).run) =
      fun i => loadSegment elf pml4 (elf.pheader i) := fun _ => funext loadSegmentNoted_run
  simp only [← hsegment]
  refine if_congr Iff.rfl rfl ?_
  congr 1
  funext pml4
  congr 1
  funext r
  cases r <;> rfl

end Run

/-! ## When the reads are inside -/

/-- The `n` bytes from `k` on, counted from `base`, are bytes of a file of `size`. -/
def FieldInside (size base k n : ℕ) : Prop := ∀ i < n, wrap (base + (k + i)) < size

/-- In the segment that is begun in `t`, page `i` gets a frame and is mapped, and so is filled. -/
def PageFilled (elf : ElfFile) (pml4 : ℕ) (ph : ProgramHeader) (t : Mem) (i : ℕ) : Prop :=
  i < ph.pageCount ∧ ∃ t', Prog.forRange (i + 1) (loadPage elf pml4 ph) t = .done none t'

/-- What page `i` of segment `j` needs of the file to be filled. -/
def PageInside (elf : ElfFile) (size j i : ℕ) : Prop :=
  FieldInside size (elf.phBase j) 32 8 ∧
    ((elf.pheader j).fileReadOffset i < (elf.pheader j).pFilesz →
      FieldInside size (elf.phBase j) 8 8 ∧
      ∀ k < (elf.pheader j).byteToCopy i,
        wrap ((elf.pheader j).pOffset + ((elf.pheader j).fileReadOffset i + k)) < size)

/-- **What a segment that is begun in `t` needs of the file**: its header as far as it is read, and
those of its bytes whose page is filled. -/
structure SegmentInside (elf : ElfFile) (size pml4 j : ℕ) (t : Mem) : Prop where
  type : FieldInside size (elf.phBase j) 0 4
  extent : (elf.pheader j).pType = ptLoad →
    FieldInside size (elf.phBase j) 16 8 ∧ FieldInside size (elf.phBase j) 40 8
  filesz : (elf.pheader j).pType = ptLoad → PageFilled elf pml4 (elf.pheader j) t 0 →
    FieldInside size (elf.phBase j) 32 8
  offset : (elf.pheader j).pType = ptLoad → PageFilled elf pml4 (elf.pheader j) t 0 →
    0 < (elf.pheader j).pFilesz → FieldInside size (elf.phBase j) 8 8
  data : (elf.pheader j).pType = ptLoad → ∀ k < (elf.pheader j).pFilesz,
    PageFilled elf pml4 (elf.pheader j) t (((elf.pheader j).pageOffset + k) / 4096) →
      wrap ((elf.pheader j).pOffset + k) < size

/-- **What a load from `s` needs of the file**: the magic number, and behind it the rest of the
header and every segment that is begun. -/
def FileInside (elf : ElfFile) (size : ℕ) (s : Mem) : Prop :=
  4 ≤ size ∧ (elf.eIdent = elfMagic → 58 ≤ size ∧ ∀ pml4 s1, newPml4 s = .done pml4 s1 →
    ∀ j < elf.ePhnum, ∀ t,
      Prog.forRange j (fun i => loadSegment elf pml4 (elf.pheader i)) s1 = .done none t →
        SegmentInside elf size pml4 j t)

variable {k n j : ℕ}

section Inside

variable {elf : ElfFile} {size pml4 : ℕ} {s t : Mem}

theorem allNotes_indices {P : ℕ → Prop} :
    AllNotes P (note (ElfFile.indices base k n) : Noted Mem ℕ Unit) s ↔
      ∀ i < n, P (wrap (base + (k + i))) := by
  simp [ElfFile.indices]

theorem allNotes_readField_bind {α : Type} {f : ℕ → Noted Mem ℕ α} :
    AllNotes (· < size) (elf.readField base k n >>= f) s ↔
      FieldInside size base k n ∧ AllNotes (· < size) (f (load (elf.bytesFrom base) k n)) s := by
  have hfield : AllNotes (· < size) (elf.readField base k n) s ↔ FieldInside size base k n := by
    rw [ElfFile.readField, allNotes_bind, allNotes_indices]
    exact and_iff_left fun _ _ _ => allNotes_pure _
  rw [allNotes_bind, hfield]
  refine and_congr_right fun _ => ⟨fun h => h _ _ rfl, fun h a s' heq => ?_⟩
  cases heq
  exact h

/-- Fields at fixed places of the header. -/
theorem fieldInside_zero (hn : 0 < n) (hk : k + n ≤ 2 ^ 64) :
    FieldInside size 0 k n ↔ k + n ≤ size := by
  constructor
  · intro h
    have hlast := h (n - 1) (by omega)
    rw [wrap_of_lt (by omega)] at hlast
    omega
  · intro h i hi
    rw [wrap_of_lt (by omega)]
    omega

theorem PageFilled.mono {ph : ProgramHeader} {i' : ℕ} (h : PageFilled elf pml4 ph t i)
    (hle : i' ≤ i) : PageFilled elf pml4 ph t i' := by
  induction i with
  | zero => rwa [Nat.le_zero.1 hle]
  | succ i ih =>
    rcases Nat.eq_or_lt_of_le hle with rfl | hlt
    · exact h
    · obtain ⟨hi, t', ht'⟩ := h
      obtain ⟨t1, ht1, -⟩ := forRange_succ_done.1 ht'
      exact ih ⟨by omega, t1, ht1⟩ (by omega)

/-- **The bytes a page is filled with** are those of the file part that lie on it. -/
theorem forall_byteToCopy_iff (ph : ProgramHeader) {P : ℕ → Prop} (hi : i < ph.pageCount) :
    (ph.fileReadOffset i < ph.pFilesz → ∀ k < ph.byteToCopy i, P (ph.fileReadOffset i + k)) ↔
      ∀ k < ph.pFilesz, (ph.pageOffset + k) / 4096 = i → P k := by
  have hpage : ph.pageOffset < 4096 := Nat.mod_lt _ (by decide)
  have hsize : 4096 * i < 2 ^ 64 := by
    have htotal : ph.totalSize < 2 ^ 64 := by
      unfold ProgramHeader.totalSize wrap
      dsimp only
      split_ifs <;> omega
    unfold ProgramHeader.pageCount at hi
    omega
  have hoff : ph.fileReadOffset i = 4096 * i - ph.pageOffset := by
    unfold ProgramHeader.fileReadOffset
    split_ifs with hzero
    · omega
    · exact wsub_of_le (by omega) hsize
  have hlen : ∀ k, k < ph.byteToCopy i ↔
      ph.fileReadOffset i + k < ph.pFilesz ∧ (ph.pageOffset + (ph.fileReadOffset i + k)) / 4096 = i := by
    intro k
    unfold ProgramHeader.byteToCopy ProgramHeader.destPageOffset
    rw [hoff]
    dsimp only
    split_ifs <;> omega
  constructor
  · intro h k hk hpageof
    have hle : ph.fileReadOffset i ≤ k := by omega
    have hk' := h (by omega) (k - ph.fileReadOffset i) ((hlen _).2 (by
      rw [Nat.add_sub_of_le hle]
      exact ⟨hk, hpageof⟩))
    rwa [Nat.add_sub_of_le hle] at hk'
  · intro h _ k hk
    obtain ⟨hlt, hpageof⟩ := (hlen k).1 hk
    exact h _ hlt hpageof

/-- **The bytes that fill a page.** -/
theorem allNotes_fillFrameNoted {frame : ℕ} :
    AllNotes (· < size) (fillFrameNoted elf (elf.phBase j) (elf.extent j) frame i) t ↔
      PageInside elf size j i := by
  have hfilesz : load (elf.bytesFrom (elf.phBase j)) 32 8 = (elf.pheader j).pFilesz := rfl
  have hlength : ({ elf.extent j with pFilesz := (elf.pheader j).pFilesz } : ProgramHeader).byteToCopy i =
      (elf.pheader j).byteToCopy i := by
    rw [ElfFile.extent]
    generalize elf.pheader j = ph
    rfl
  rw [fillFrameNoted, allNotes_readField_bind, hfilesz, extent_fileReadOffset]
  refine and_congr_right fun _ => ?_
  by_cases hcopy : (elf.pheader j).fileReadOffset i < (elf.pheader j).pFilesz
  · rw [if_pos hcopy, allNotes_readField_bind, allNotes_bind, allNotes_indices, hlength]
    refine ⟨fun h _ => ⟨h.1, h.2.1⟩, fun h => ⟨(h hcopy).1, (h hcopy).2, fun _ _ _ => ?_⟩⟩
    exact allNotes_bind.2 ⟨allNotes_lift _, fun _ _ _ => allNotes_pure _⟩
  · rw [if_neg hcopy]
    refine iff_of_true ?_ fun h => absurd h hcopy
    exact allNotes_bind.2 ⟨allNotes_lift _, fun _ _ _ => allNotes_pure _⟩

/-- **A page**: nothing is read before it is mapped. -/
theorem allNotes_loadPageNoted :
    AllNotes (· < size) (loadPageNoted elf pml4 (elf.phBase j) (elf.extent j) i) t ↔
      ∀ t', loadPage elf pml4 (elf.pheader j) i t = .done none t' → PageInside elf size j i := by
  unfold loadPageNoted loadPage
  rw [bind_apply]
  cases hframe : pmmAlloc t with
  | halt t1 => exact iff_of_true (allNotes_lift_halt hframe) fun _ heq => (nomatch heq)
  | done frame t1 =>
    rw [allNotes_lift_done hframe]
    cases frame with
    | none => exact iff_of_true (allNotes_pure _) fun _ heq => (nomatch heq)
    | some frame =>
      rw [extent_pageVaddr]
      dsimp only
      rw [bind_apply]
      cases hmap : mapPage pml4 ((elf.pheader j).pageVaddr i) (frame * 4096) 7 t1 with
      | halt t2 => exact iff_of_true (allNotes_lift_halt hmap) fun _ heq => (nomatch heq)
      | done _ t2 =>
        rw [allNotes_lift_done hmap, allNotes_fillFrameNoted]
        exact ⟨fun h _ _ => h, fun h => h _ rfl⟩

/-- **The pages of a segment.** -/
theorem allNotes_pages : AllNotes (· < size) (Noted.forRange (elf.extent j).pageCount
      (loadPageNoted elf pml4 (elf.phBase j) (elf.extent j))) t ↔
      ∀ i, PageFilled elf pml4 (elf.pheader j) t i → PageInside elf size j i := by
  rw [allNotes_forRange, extent_pageCount]
  simp only [loadPageNoted_run, allNotes_loadPageNoted]
  constructor
  · rintro h i ⟨hi, t', ht'⟩
    obtain ⟨t1, ht1, hlast⟩ := forRange_succ_done.1 ht'
    exact h i hi t1 ht1 t' hlast
  · intro h i hi t1 ht1 t' hlast
    exact h i ⟨hi, t', forRange_succ_done.2 ⟨t1, ht1, hlast⟩⟩

/-- A segment that is loaded needs its header and, page by page, the bytes that fill the page. -/
theorem segmentInside_iff (hload : (elf.pheader j).pType = ptLoad) :
    SegmentInside elf size pml4 j t ↔
      FieldInside size (elf.phBase j) 0 4 ∧ FieldInside size (elf.phBase j) 16 8 ∧
      FieldInside size (elf.phBase j) 40 8 ∧
      ∀ i, PageFilled elf pml4 (elf.pheader j) t i → PageInside elf size j i := by
  constructor
  · intro h
    refine ⟨h.type, (h.extent hload).1, (h.extent hload).2, fun i hi => ?_⟩
    have hfirst := hi.mono (Nat.zero_le i)
    refine ⟨h.filesz hload hfirst, fun hcopy => ⟨h.offset hload hfirst (by omega), ?_⟩⟩
    have hdata := (forall_byteToCopy_iff (P := fun k => wrap ((elf.pheader j).pOffset + k) < size)
      (elf.pheader j) hi.1).2 fun k hk hpage => h.data hload k hk (hpage ▸ hi)
    exact hdata hcopy
  · rintro ⟨htype, hvaddr, hmemsz, hpages⟩
    refine ⟨htype, fun _ => ⟨hvaddr, hmemsz⟩, fun _ hi => (hpages 0 hi).1, fun _ hi hpos => ?_,
      fun _ k hk hi => ?_⟩
    · exact ((hpages 0 hi).2 hpos).1
    · exact (forall_byteToCopy_iff (P := fun k => wrap ((elf.pheader j).pOffset + k) < size)
        (elf.pheader j) hi.1).1 (fun hcopy => ((hpages _ hi).2 hcopy).2) k hk rfl

/-- **A segment.** -/
theorem allNotes_loadSegmentNoted :
    AllNotes (· < size) (loadSegmentNoted elf pml4 (elf.phBase j)) t ↔
      SegmentInside elf size pml4 j t := by
  have htype : load (elf.bytesFrom (elf.phBase j)) 0 4 = (elf.pheader j).pType := rfl
  rw [loadSegmentNoted, allNotes_readField_bind, htype]
  by_cases hload : (elf.pheader j).pType = ptLoad
  · rw [if_neg (not_not.2 hload), allNotes_readField_bind, allNotes_readField_bind,
      segmentInside_iff hload, ← allNotes_pages]
    rfl
  · rw [if_pos hload]
    refine ⟨fun h => ⟨h.1, ?_, ?_, ?_, ?_⟩, fun h => ⟨h.type, allNotes_pure _⟩⟩
    all_goals exact fun h => absurd h hload

theorem newPml4_done (s : Mem) : ∃ pml4 s1, newPml4 s = .done pml4 s1 := by
  cases ha : s.pmm.pmmAlloc with
  | none => exact ⟨_, _, newPml4_none ha⟩
  | some r => exact ⟨_, _, newPml4_some ha⟩

/-- **The loop over the segments, and the entry point.** -/
theorem allNotes_segments (n : ℕ) (hsize : 58 ≤ size) : AllNotes (· < size) (do
      match ← Noted.forRange n fun i => loadSegmentNoted elf pml4 (elf.phBase i) with
      | some r => pure (r, none)
      | none => do
        let eEntry ← elf.readField 0 24 8
        pure (eEntry, some pml4)) s ↔
      ∀ j < n, ∀ t,
        Prog.forRange j (fun i => loadSegment elf pml4 (elf.pheader i)) s = .done none t →
          SegmentInside elf size pml4 j t := by
  rw [allNotes_bind, allNotes_forRange]
  simp only [loadSegmentNoted_run, allNotes_loadSegmentNoted]
  refine and_iff_left fun r t _ => ?_
  cases r with
  | some r => exact allNotes_pure _
  | none =>
    refine allNotes_readField_bind.2 ⟨?_, allNotes_pure _⟩
    exact (fieldInside_zero (by decide) (by decide)).2 (by omega)

/-- **The whole load.** -/
theorem allNotes_loadElfBinaryNoted (elfBuffer : ℕ) :
    AllNotes (· < size) (loadElfBinaryNoted elfBuffer elf) s ↔ FileInside elf size s := by
  have hident : load (elf.bytesFrom 0) 0 4 = elf.eIdent := rfl
  rw [loadElfBinaryNoted, allNotes_readField_bind, hident, FileInside,
    fieldInside_zero (by decide) (by decide)]
  refine and_congr_right fun _ => ?_
  by_cases hmagic : elf.eIdent = elfMagic
  · obtain ⟨pml4, s1, hnew⟩ := newPml4_done s
    rw [if_neg (not_not.2 hmagic), allNotes_lift_done hnew, allNotes_readField_bind,
      allNotes_readField_bind, fieldInside_zero (by decide) (by decide),
      fieldInside_zero (by decide) (by decide)]
    constructor
    · rintro ⟨-, hsize, hall⟩ -
      refine ⟨hsize, fun pml4' s1' hnew' => ?_⟩
      cases hnew.symm.trans hnew'
      exact (allNotes_segments elf.ePhnum hsize).1 hall
    · intro h
      obtain ⟨hsize, hall⟩ := h hmagic
      exact ⟨by omega, hsize, (allNotes_segments elf.ePhnum hsize).2 (hall pml4 s1 hnew)⟩
  · rw [if_pos hmagic]
    refine iff_of_true ?_ fun h => absurd h hmagic
    exact allNotes_bind.2 ⟨allNotes_lift _, fun _ _ _ => allNotes_pure _⟩

/-- **The loader reads only its file iff the file holds what it asks for.** -/
theorem readsFile_iff_inside (fileSize elfBuffer : ℕ) (elf : ElfFile) (s : Mem) :
    AllNotes (· < fileSize) (loadFileNoted fileSize elfBuffer elf) s ↔
      fileSize = 0 ∨ FileInside elf fileSize s := by
  unfold loadFileNoted
  split_ifs with hzero
  · exact iff_of_true (allNotes_pure _) (.inl hzero)
  · rw [allNotes_loadElfBinaryNoted]
    exact (or_iff_right hzero).symm

end Inside

/-- A file of 120 bytes, all headers, whose one segment claims 200 bytes of it. -/
def shortFile : ElfFile := fileOf 0x400000 1 (headerBytes 1 0 0x400000 200 200) []

/-- What a load returned. -/
def valueOf : Outcome Mem (ℕ × Option ℕ) → Option (ℕ × Option ℕ)
  | .done r _ => some r
  | .halt _ => none

/-- **The file is loaded, and 80 bytes behind it with it.** -/
theorem shortFile_outside :
    valueOf (loadElfBinary 0 shortFile sixteenFrames) = some (0x400000, some 2) ∧
      ¬AllNotes (· < 120) (loadFileNoted 120 0 shortFile) sixteenFrames := by
  have hread : 199 ∈ (loadFileNoted 120 0 shortFile).notes sixteenFrames := by decide +kernel
  exact ⟨by decide +kernel, fun h => absurd (h 199 hread) (by decide)⟩

end Hvos.Process
