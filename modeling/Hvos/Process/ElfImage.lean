import Mathlib.Order.Interval.Finset.Nat
import Hvos.Process.Loader

/-!
# Process/ElfImage — the address space `load_elf_binary` builds

Above the tables stands an *image*: for every page number below the kernel half, the bytes mapped
there, if any.  Loading a page is one update of the image (`Image.load`), so what the two loops
leave is read off a statement about images alone (`Progress`).
-/

namespace Hvos.Process

open Memory Bytes Radix Prog Function

/-! ## The bytes of a page -/

namespace ProgramHeader

variable (ph : ProgramHeader)

/-- The segment touches page `n`. -/
def Covers (n : ℕ) : Prop :=
  ph.pVaddr / 4096 ≤ n ∧ n < (ph.pVaddr + ph.pMemsz + 4095) / 4096

/-- The number of page `i` of the segment. -/
def pageAt (i : ℕ) : ℕ := ph.pVaddr / 4096 + i

variable {ph} {n i j j' i' : ℕ}

/-- A segment that is not empty touches the pages of its bytes. -/
theorem covers_iff_byte (h : 0 < ph.pMemsz) :
    ph.Covers n ↔ ∃ k < ph.pMemsz, n = (ph.pVaddr + k) / 4096 := by
  unfold Covers
  constructor
  · intro hn
    by_cases hfirst : n = ph.pVaddr / 4096
    · exact ⟨0, h, by omega⟩
    · exact ⟨4096 * n - ph.pVaddr, by omega, by omega⟩
  · rintro ⟨k, hk, rfl⟩
    omega

section

variable (h : ph.pVaddr + ph.pMemsz ≤ 2 ^ 47)
include h

/-- Below `2 ^ 47` nothing wraps, and the pages loaded are those the segment touches. -/
theorem pageCount_eq : ph.pVaddr / 4096 + ph.pageCount = (ph.pVaddr + ph.pMemsz + 4095) / 4096 := by
  have hoff : ph.pageOffset = ph.pVaddr % 4096 := rfl
  have htotal : wrap (ph.pMemsz + ph.pageOffset) = ph.pMemsz + ph.pageOffset :=
    wrap_of_lt (by omega)
  unfold pageCount totalSize
  simp only [htotal]
  by_cases hwhole : (ph.pMemsz + ph.pageOffset) % 4096 ≠ 0
  · rw [if_pos hwhole, wrap_of_lt (by omega)]
    omega
  · rw [if_neg hwhole]
    omega

theorem covers_iff : ph.Covers n ↔ ∃ i < ph.pageCount, n = ph.pageAt i := by
  have hcount := pageCount_eq h
  unfold Covers pageAt
  constructor
  · intro hn
    exact ⟨n - ph.pVaddr / 4096, by omega, by omega⟩
  · rintro ⟨i, hi, rfl⟩
    omega

/-- Where page `i` is mapped. -/
theorem pageVaddr_eq (hi : i < ph.pageCount) :
    ph.pageVaddr i = 4096 * ph.pageAt i ∧ ph.pageAt i < 2 ^ 35 := by
  have hcount := pageCount_eq h
  unfold pageVaddr vaddrPage pageOffset pageAt wrap
  omega

/-- It is a page of the lower half. -/
theorem pageVaddr_low (hi : i < ph.pageCount) : (pml4Index (ph.pageVaddr i)).val < 256 := by
  obtain ⟨hv, hlt⟩ := pageVaddr_eq h hi
  rw [hv]
  exact (show 4096 * _ / 2 ^ 39 % 512 < 256 by omega)

theorem pageNumber_pageVaddr (hi : i < ph.pageCount) :
    pageNumber (ph.pageVaddr i) = ph.pageAt i := by
  obtain ⟨hv, hlt⟩ := pageVaddr_eq h hi
  rw [hv, pageNumber]
  omega

end

end ProgramHeader

theorem zeroRemainder_apply (pg : Page) (n : ℕ) (o : Fin 4096) :
    zeroRemainder pg n o = if n ≤ o.val then 0 else pg o := by
  have ho : o.val < 4096 := o.isLt
  unfold zeroRemainder
  by_cases hn : n < 4096
  · rw [if_pos hn]
    unfold memzero
    by_cases hle : n ≤ o.val
    · rw [if_pos (by omega), if_pos hle]
    · rw [if_neg (by omega), if_neg hle]
  · rw [if_neg hn, if_neg (by omega)]

/-- The bytes of a page from `dest` on. -/
theorem copyFile_byte (elf : ElfFile) (ph : ProgramHeader) (pg : Page) {dest off : ℕ} {o : Fin 4096}
    (ho : dest ≤ o.val) : copyFile elf ph dest off pg o =
      if off + (o.val - dest) < ph.pFilesz then elf (wrap (ph.pOffset + off + (o.val - dest)))
      else 0 := by
  have hlt : o.val < 4096 := o.isLt
  unfold copyFile
  by_cases hfile : off < ph.pFilesz
  · rw [if_pos hfile]
    simp only [zeroRemainder_apply, memcpy, ElfFile.bytesFrom]
    by_cases hk : off + (o.val - dest) < ph.pFilesz
    · rw [if_pos hk, if_neg (by split_ifs <;> omega), if_pos ⟨ho, by split_ifs <;> omega⟩]
    · rw [if_neg hk, if_pos (by split_ifs <;> omega)]
  · rw [if_neg hfile, zeroRemainder_apply, if_pos ho, if_neg (by omega)]

/-- **Byte `k` of a segment** is where it belongs in its page, from the file or zero. -/
theorem fillPage_byte (elf : ElfFile) (ph : ProgramHeader) (pg : Page) {k : ℕ} {o : Fin 4096}
    (hi : 4096 * i < 2 ^ 64) (hk : ph.pageOffset + k = 4096 * i + o.val) :
    fillPage elf ph (4096 * i) pg o =
      if k < ph.pFilesz then elf (wrap (ph.pOffset + k)) else 0 := by
  have hoff : ph.pageOffset < 4096 := Nat.mod_lt _ (by decide)
  unfold fillPage
  by_cases hzero : 4096 * i = 0
  · rw [if_pos hzero, if_pos hzero, copyFile_byte elf ph pg (by omega),
      show 0 + (o.val - ph.pageOffset) = k by omega, Nat.add_zero,
      show o.val - ph.pageOffset = k by omega]
  · rw [if_neg hzero, if_neg hzero, copyFile_byte elf ph pg (Nat.zero_le _),
      wsub_of_le (by omega) hi, show 4096 * i - ph.pageOffset + (o.val - 0) = k by omega,
      show ph.pOffset + (4096 * i - ph.pageOffset) + (o.val - 0) = ph.pOffset + k by omega]

/-! ## Images -/

/-- The slots below the kernel half. -/
def lowSlots : Fin 512 → Bool := fun i => i.val < 256

theorem lowSlots_iff {i : Fin 512} : lowSlots i = true ↔ i.val < 256 := decide_eq_true_iff

/-- What is mapped at `v`: nothing, or a used frame that is no table and holds the page. -/
def Shows (s : Mem) (lab : ℕ → Option (List (Fin 512))) (pml4 v : ℕ) : Option Page → Prop
  | none => s.walk pml4 v = none
  | some pg => ∃ e, s.walk pml4 v = some e ∧ lab e.address.val = none ∧
      s.pmm.bitmapTest e.address.val = true ∧ s.phys e.address.val = pg

/-- **The lower half of the PML4 shows the image.** -/
structure Image (s : Mem) (lab : ℕ → Option (List (Fin 512))) (pml4 : ℕ) (img : ℕ → Option Page) :
    Prop where
  typed : Typed (ownScheme lowSlots) s lab
  root : lab pml4 = some []
  shows : ∀ v, lowSlots (pml4Index v) = true → Shows s lab pml4 v (img (pageNumber v))

section Image

variable {s s' : Mem} {lab lab' : ℕ → Option (List (Fin 512))} {pml4 v g : ℕ} {img : ℕ → Option Page}

/-- What was mapped stays when a frame is added elsewhere. -/
theorem Shows.extends {pg : Option Page} (h : Shows s lab pml4 v pg)
    (hext : Extends (ownScheme lowSlots) s s' lab lab') (hwalk : s'.walk pml4 v = s.walk pml4 v) :
    Shows s' lab' pml4 v pg := by
  cases pg with
  | none => exact hwalk.trans h
  | some pg =>
    obtain ⟨e, he, hlab, hused, hphys⟩ := h
    exact ⟨e, hwalk.trans he, hext.unlabelled hused hlab, hext.used _ hused,
      (hext.frames _ hused hlab).trans hphys⟩

/-- **Loading a page** updates the image at its page number. -/
theorem Image.load (h : Image s lab pml4 img)
    (hp : Placed (ownScheme lowSlots) s s' lab lab' pml4 v g true (upperPath v)) :
    Image s' lab' pml4 (update img (pageNumber v) (some (s'.phys g))) where
  typed := hp.typed
  root := hp.keep pml4 [] h.root
  shows v' hlow' := by
    by_cases heq : pageNumber v' = pageNumber v
    · obtain ⟨hupper, hpt⟩ := path_inj.2 heq
      obtain ⟨e, he, rfl, -⟩ := hp.leaf
      rw [heq, update_self]
      refine ⟨e, ?_, hp.data.trans (ownScheme_leaf _), hp.taken, rfl⟩
      rw [Mem.walk, hupper, hpt]
      exact he
    · rw [update_of_ne heq]
      refine (h.shows v' hlow').extends hp.toExtends ?_
      refine hp.other _ h.root (ownScheme_along hlow') rfl ?_
      by_contra hboth
      rw [not_or, not_not, not_not] at hboth
      exact heq (path_inj.1 hboth)

end Image

/-! ## Progress of the loops -/

/-- Page `i'` of segment `j'` is loaded before page `i` of segment `j`. -/
def Before (elf : ElfFile) (j i j' i' : ℕ) : Prop :=
  (elf.pheader j').pType = ptLoad ∧ i' < (elf.pheader j').pageCount ∧ (j' < j ∨ j' = j ∧ i' < i)

variable {elf : ElfFile}

/-- A segment that is not loaded has no pages… -/
theorem before_skip (htype : (elf.pheader j).pType ≠ ptLoad) :
    Before elf (j + 1) 0 j' i' ↔ Before elf j 0 j' i' := by
  unfold Before
  constructor
  · rintro ⟨ht, hi', hpos⟩
    refine ⟨ht, hi', .inl ?_⟩
    rcases Nat.lt_or_eq_of_le (show j' ≤ j by omega) with hlt | rfl
    · exact hlt
    · exact absurd ht htype
  · rintro ⟨ht, hi', hpos⟩
    exact ⟨ht, hi', .inl (by omega)⟩

/-- …and one that is has those of its loop. -/
theorem before_next :
    Before elf (j + 1) 0 j' i' ↔ Before elf j (elf.pheader j).pageCount j' i' := by
  unfold Before
  constructor
  · rintro ⟨ht, hi', hpos⟩
    refine ⟨ht, hi', ?_⟩
    rcases Nat.lt_or_eq_of_le (show j' ≤ j by omega) with hlt | rfl
    · exact .inl hlt
    · exact .inr ⟨rfl, hi'⟩
  · rintro ⟨ht, hi', hpos⟩
    exact ⟨ht, hi', .inl (by omega)⟩

/-- The image before page `i` of segment `j` is loaded: the pages before it, and no others. -/
structure Progress (elf : ElfFile) (j i : ℕ) (img : ℕ → Option Page) : Prop where
  filled : ∀ j' i', Before elf j i j' i' → ∃ pg,
    img ((elf.pheader j').pageAt i') = some (fillPage elf (elf.pheader j') (4096 * i') pg)
  only : ∀ n, img n ≠ none → ∃ j' i', Before elf j i j' i' ∧ n = (elf.pheader j').pageAt i'

section Progress

variable {elf : ElfFile} {j i : ℕ} {img : ℕ → Option Page}

theorem Progress.congr {j1 i1 : ℕ} (h : Progress elf j i img)
    (hiff : ∀ j' i', Before elf j1 i1 j' i' ↔ Before elf j i j' i') : Progress elf j1 i1 img where
  filled j' i' hb := h.filled j' i' ((hiff j' i').1 hb)
  only n hn := by
    obtain ⟨j', i', hb, heq⟩ := h.only n hn
    exact ⟨j', i', (hiff j' i').2 hb, heq⟩

/-- One more page, on a page number no page before it has. -/
theorem Progress.page (h : Progress elf j i img) (htype : (elf.pheader j).pType = ptLoad)
    (hi : i < (elf.pheader j).pageCount) (hnew : ∀ j' i', Before elf j i j' i' →
      (elf.pheader j').pageAt i' ≠ (elf.pheader j).pageAt i) (pg : Page) :
    Progress elf j (i + 1) (update img ((elf.pheader j).pageAt i)
      (some (fillPage elf (elf.pheader j) (4096 * i) pg))) where
  filled j' i' hb := by
    by_cases hlast : j' = j ∧ i' = i
    · obtain ⟨rfl, rfl⟩ := hlast
      exact ⟨pg, update_self ..⟩
    · have hb' : Before elf j i j' i' := ⟨hb.1, hb.2.1, by
        have hpos := hb.2.2
        omega⟩
      obtain ⟨pg', hpg'⟩ := h.filled j' i' hb'
      exact ⟨pg', by rw [update_of_ne (hnew j' i' hb'), hpg']⟩
  only n hn := by
    by_cases heq : n = (elf.pheader j).pageAt i
    · exact ⟨j, i, ⟨htype, hi, .inr ⟨rfl, Nat.lt_succ_self i⟩⟩, heq⟩
    · rw [update_of_ne heq] at hn
      obtain ⟨j', i', hb, heq'⟩ := h.only n hn
      exact ⟨j', i', ⟨hb.1, hb.2.1, hb.2.2.imp_right fun hj => ⟨hj.1, Nat.lt_succ_of_lt hj.2⟩⟩, heq'⟩

theorem Progress.skip (h : Progress elf j 0 img) (htype : (elf.pheader j).pType ≠ ptLoad) :
    Progress elf (j + 1) 0 img := h.congr fun _ _ => before_skip htype

theorem Progress.next (h : Progress elf j (elf.pheader j).pageCount img) :
    Progress elf (j + 1) 0 img := h.congr fun _ _ => before_next

end Progress

/-! ## The theorem -/

/-- The pages loaded for the segments before segment `j`. -/
def ElfFile.pagesBefore (elf : ElfFile) : ℕ → ℕ
  | 0 => 0
  | j + 1 => elf.pagesBefore j +
      if (elf.pheader j).pType = ptLoad then (elf.pheader j).pageCount else 0

theorem ElfFile.pagesBefore_le (elf : ElfFile) (h : j ≤ n) :
    elf.pagesBefore j ≤ elf.pagesBefore n := by
  induction h with
  | refl => exact Nat.le_refl _
  | step _ ih => exact Nat.le_trans ih (Nat.le_add_right ..)

/-- There are four frames for one more page, if there are for all of them. -/
theorem ElfFile.avail_four {p p' : Pmm}
    (hav : ∀ m, p.Avail (m + 4 * (elf.pagesBefore j + i)) → p'.Avail m) (hj : j < n)
    (htype : (elf.pheader j).pType = ptLoad) (hi : i < (elf.pheader j).pageCount)
    (hall : p.Avail (4 * elf.pagesBefore n)) : p'.Avail 4 := by
  have hle := elf.pagesBefore_le (show j + 1 ≤ n from hj)
  simp only [ElfFile.pagesBefore, if_pos htype] at hle
  exact hav 4 (hall.mono (by omega))

/-- **The files the loader is written for**, in a buffer of `size` bytes. -/
structure Loadable (elf : ElfFile) (size : ℕ) : Prop where
  magic : elf.eIdent = elfMagic
  buffer : size ≤ 2 ^ 64
  filesz : ∀ j < elf.ePhnum, (elf.pheader j).pType = ptLoad →
    (elf.pheader j).pFilesz ≤ (elf.pheader j).pMemsz ∧
      (elf.pheader j).pOffset + (elf.pheader j).pFilesz ≤ size
  low : ∀ j < elf.ePhnum, (elf.pheader j).pType = ptLoad →
    (elf.pheader j).pVaddr + (elf.pheader j).pMemsz ≤ 2 ^ 47
  disjoint : ∀ j < elf.ePhnum, ∀ j' < elf.ePhnum, j ≠ j' → (elf.pheader j).pType = ptLoad →
    (elf.pheader j').pType = ptLoad → ∀ n, ¬((elf.pheader j).Covers n ∧ (elf.pheader j').Covers n)

/-- A byte of an address space. -/
def byteAt (s : Mem) (pml4 a : ℕ) : Option UInt8 :=
  (s.walk pml4 a).map fun e => s.phys e.address.val (Fin.ofNat _ a)

/-- **The file is loaded** in the address space of `pml4`, between `s` and `s'`. -/
structure Loaded (elf : ElfFile) (s s' : Mem) (pml4 : ℕ) : Prop where
  bytes : ∀ j < elf.ePhnum, (elf.pheader j).pType = ptLoad → ∀ k < (elf.pheader j).pMemsz,
    byteAt s' pml4 ((elf.pheader j).pVaddr + k) =
      some (if k < (elf.pheader j).pFilesz then elf ((elf.pheader j).pOffset + k) else 0)
  only : ∀ v, (pml4Index v).val < 256 →
    (∀ j < elf.ePhnum, (elf.pheader j).pType = ptLoad → ¬(elf.pheader j).Covers (pageNumber v)) →
      s'.walk pml4 v = none
  kernel : s'.kernelPml4 = s.kernelPml4 ∧ ∀ i : Fin 512, 256 ≤ i.val →
    s'.entry pml4 i = s'.entry s'.kernelPml4 i ∧ s'.entry pml4 i = s.entry s.kernelPml4 i

/-- `pmm_alloc` has nothing left, and there were fewer than `n` frames to begin with. -/
def OutOfFrames (p p' : Pmm) (n : ℕ) : Prop := p'.pmmAlloc = none ∧ ¬p.Avail n

/-- What holds before page `i` of segment `j` is loaded: the image so far, and what has been added
to `s1`, at no more than four frames a page. -/
def LoadState (elf : ElfFile) (s1 : Mem) (pml4 j i : ℕ) (s : Mem) : Prop :=
  ∃ lab img, Image s lab pml4 img ∧ Progress elf j i img ∧
    Extends (ownScheme lowSlots) s1 s (rootLab pml4) lab ∧
    ∀ m, s1.pmm.Avail (m + 4 * (elf.pagesBefore j + i)) → s.pmm.Avail m

section Load

variable {elf : ElfFile} {size : ℕ} {s s1 : Mem} {pml4 : ℕ}

/-- Pages of the file have numbers of their own. -/
theorem Loadable.pageAt_ne (h : Loadable elf size) (hj : j < elf.ePhnum)
    (htype : (elf.pheader j).pType = ptLoad) (hi : i < (elf.pheader j).pageCount)
    (hb : Before elf j i j' i') : (elf.pheader j').pageAt i' ≠ (elf.pheader j).pageAt i := by
  obtain ⟨htype', hi', hpos⟩ := hb
  intro heq
  by_cases hjj : j' = j
  · subst hjj
    unfold ProgramHeader.pageAt at heq
    omega
  · have hj' : j' < elf.ePhnum := by omega
    refine h.disjoint j' hj' j hj hjj htype' htype _
      ⟨(ProgramHeader.covers_iff (h.low j' hj' htype')).2 ⟨i', hi', rfl⟩, ?_⟩
    exact (ProgramHeader.covers_iff (h.low j hj htype)).2 ⟨i, hi, heq⟩

/-- **The step of the loops.** -/
theorem LoadState.page (h : Loadable elf size) (hn : s1.pmm.Narrow (4 * elf.pagesBefore elf.ePhnum))
    (hj : j < elf.ePhnum) (htype : (elf.pheader j).pType = ptLoad)
    (hi : i < (elf.pheader j).pageCount) (hs : LoadState elf s1 pml4 j i s) :
    Ensures (loadPage elf pml4 (elf.pheader j) i) s
      (Either (fun _ s' => OutOfFrames s1.pmm s'.pmm (4 * elf.pagesBefore elf.ePhnum))
        (LoadState elf s1 pml4 j (i + 1)))
      (fun s' => OutOfFrames s1.pmm s'.pmm (4 * elf.pagesBefore elf.ePhnum)) := by
  obtain ⟨lab, img, himg, hprog, hext, hav⟩ := hs
  have hlow := h.low j hj htype
  have hslot := lowSlots_iff.2 (ProgramHeader.pageVaddr_low hlow hi)
  have hfour : s1.pmm.Avail (4 * elf.pagesBefore elf.ePhnum) → s.pmm.Avail 4 :=
    ElfFile.avail_four hav hj htype hi
  refine (loadPage_spec himg.typed himg.root (ownScheme_along hslot) rfl
    (hn.imp (hext.totalPages ▸ ·) hfour)).mono (fun r s' hr => ?_)
    fun s' hH => ⟨hH.exhausted, fun hall => hH.few (hfour hall)⟩
  cases r with
  | some r =>
    obtain ⟨-, rfl, hnone⟩ := hr
    exact ⟨hnone, fun hall => Pmm.not_avail_of_pmmAlloc hnone (hfour hall)⟩
  | none =>
    obtain ⟨lab', g, hp, pg, hpg⟩ := hr
    refine ⟨lab', _, himg.load hp, ?_, hext.trans hp.toExtends, fun m hm =>
      hp.avail m (hav (m + 4) (hm.mono (by omega)))⟩
    rw [ProgramHeader.pageNumber_pageVaddr hlow hi, hpg]
    exact hprog.page htype hi (fun j' i' hb => h.pageAt_ne hj htype hi hb) pg

/-- The PML4 the loader starts from shows the empty image. -/
theorem LoadState.start {pmm : Pmm} {r : ℕ} (ha : s.pmm.pmmAlloc = some (r, pmm)) :
    LoadState elf (withPml4 s pmm r) r 0 0 (withPml4 s pmm r) := by
  have hused : (withPml4 s pmm r).pmm.bitmapTest r = true := by
    rw [withPml4_pmm, (Pmm.pmmAlloc_eq_some ha).2.2.2.2]
    simp
  have hempty : ∀ j, lowSlots j = true → (withPml4 s pmm r).next r j = none := fun j hj => by
    rw [Mem.next, withPml4_entry_low (lowSlots_iff.1 hj)]
    rfl
  have hT := typed_root hused hempty
  refine ⟨rootLab r, fun _ => none, ⟨hT, rootLab_eq_some.2 ⟨rfl, rfl⟩, fun v hv => ?_⟩,
    ⟨fun j' i' hb => ?_, fun n hn => absurd rfl hn⟩, .refl hT, fun _ => id⟩
  · simp [Shows, Mem.walk, upperPath, find, hempty _ hv]
  · have hpos := hb.2.2
    omega

/-- **The loops** end with every page loaded, or with no frame left. -/
theorem LoadState.run (h : Loadable elf size)
    (hn : s1.pmm.Narrow (4 * elf.pagesBefore elf.ePhnum)) (hs : LoadState elf s1 pml4 0 0 s) :
    Ensures (forRange elf.ePhnum fun j => loadSegment elf pml4 (elf.pheader j)) s
      (Either (fun _ s' => OutOfFrames s1.pmm s'.pmm (4 * elf.pagesBefore elf.ePhnum))
        (LoadState elf s1 pml4 elf.ePhnum 0))
      (fun s' => OutOfFrames s1.pmm s'.pmm (4 * elf.pagesBefore elf.ePhnum)) := by
  refine loadSegments_ensures (fun j i s hj htype hi hI => hI.page h hn hj htype hi)
    (fun j s _ htype hI => ?_) (fun j s _ htype hI => ?_) hs
  · obtain ⟨lab, img, himg, hprog, hext, hav⟩ := hI
    refine ⟨lab, img, himg, hprog.skip htype, hext, fun m hm => hav m (hm.mono ?_)⟩
    simp [ElfFile.pagesBefore, htype]
  · obtain ⟨lab, img, himg, hprog, hext, hav⟩ := hI
    refine ⟨lab, img, himg, hprog.next, hext, fun m hm => hav m (hm.mono ?_)⟩
    simp [ElfFile.pagesBefore, htype]

/-- The byte an image shows. -/
theorem Image.byteAt {lab : ℕ → Option (List (Fin 512))} {img : ℕ → Option Page} {a : ℕ} {pg : Page}
    (h : Image s lab pml4 img) (ha : a < 2 ^ 47) (hpg : img (a / 4096) = some pg) :
    byteAt s pml4 a = some (pg (Fin.ofNat _ a)) := by
  have hshow := h.shows a (lowSlots_iff.2 (show a / 2 ^ 39 % 512 < 256 by omega))
  rw [show pageNumber a = a / 4096 by unfold pageNumber; omega, hpg] at hshow
  obtain ⟨e, he, -, -, hphys⟩ := hshow
  rw [Process.byteAt, he, Option.map_some, hphys]

/-- **At the end of the loops** the file is loaded. -/
theorem LoadState.loaded (h : Loadable elf size) {s0 : Mem} {pmm : Pmm}
    (hker : s0.pmm.bitmapTest s0.kernelPml4 = true) (ha : s0.pmm.pmmAlloc = some (pml4, pmm))
    (hs : LoadState elf (withPml4 s0 pmm pml4) pml4 elf.ePhnum 0 s) : Loaded elf s0 s pml4 := by
  obtain ⟨lab, img, himg, hprog, hext, -⟩ := hs
  refine ⟨fun j hj htype k hk => ?_, fun v hlow hout => ?_, ?_⟩
  · have hlow := h.low j hj htype
    have hfile := h.filesz j hj htype
    have hbuf := h.buffer
    have hcount := ProgramHeader.pageCount_eq hlow
    have hoff : (elf.pheader j).pageOffset = (elf.pheader j).pVaddr % 4096 := rfl
    -- The page of the byte, counted from the first page of the segment.
    have hbefore : Before elf elf.ePhnum 0 j
        (((elf.pheader j).pVaddr + k) / 4096 - (elf.pheader j).pVaddr / 4096) :=
      ⟨htype, by omega, .inl hj⟩
    obtain ⟨pg, hpg⟩ := hprog.filled _ _ hbefore
    rw [ProgramHeader.pageAt, Nat.add_sub_cancel' (by omega)] at hpg
    rw [himg.byteAt (by omega) hpg, fillPage_byte (k := k) elf _ pg (by omega)
      (show _ = _ + ((elf.pheader j).pVaddr + k) % 4096 by omega)]
    by_cases hkf : k < (elf.pheader j).pFilesz
    · rw [if_pos hkf, if_pos hkf, wrap_of_lt (by omega)]
    · rw [if_neg hkf, if_neg hkf]
  · have hshow := himg.shows v (lowSlots_iff.2 hlow)
    cases hp : img (pageNumber v) with
    | none =>
      rw [hp] at hshow
      exact hshow
    | some pg =>
      obtain ⟨j, i, ⟨htype, hi, hpos⟩, heq⟩ := hprog.only _ (by rw [hp]; exact Option.some_ne_none pg)
      have hj : j < elf.ePhnum := by omega
      exact absurd ((ProgramHeader.covers_iff (h.low j hj htype)).2 ⟨i, hi, heq⟩) (hout j hj htype)
  · have hne : s0.kernelPml4 ≠ pml4 := by
      rintro rfl
      rw [(Pmm.pmmAlloc_eq_some ha).1.2.2] at hker
      cases hker
    have hused : (withPml4 s0 pmm pml4).pmm.bitmapTest s0.kernelPml4 = true := by
      rw [withPml4_pmm, (Pmm.pmmAlloc_eq_some ha).2.2.2.2, hker, Bool.true_or]
    have hlab : rootLab pml4 s0.kernelPml4 = none := if_neg hne
    have hphys : s.phys s0.kernelPml4 = s0.phys s0.kernelPml4 :=
      (hext.frames _ hused hlab).trans (withPml4_phys hne)
    have hglob : s.kernelPml4 = s0.kernelPml4 := (withPml4_globals.trans hext.globals).kernelPml4
    refine ⟨hglob, fun i hi => ?_⟩
    have hown : s.entry pml4 i = s0.entry s0.kernelPml4 i := by
      rw [hext.foreign pml4 [] i (rootLab_eq_some.2 ⟨rfl, rfl⟩) (by decide) (if_neg ?_),
        withPml4_entry_high hi hne]
      rintro ⟨-, hlow⟩
      have hlt := lowSlots_iff.1 (hlow rfl)
      omega
    exact ⟨by rw [hown, hglob, Mem.entry, Mem.entry, hphys], hown⟩

/-- `load_elf_binary`, with what is left when it does not get to the end. -/
theorem loadElfBinary_ensures (h : Loadable elf size) (elfBuffer : ℕ)
    (hker : s.pmm.bitmapTest s.kernelPml4 = true)
    (hn : s.pmm.Narrow (4 * elf.pagesBefore elf.ePhnum + 1)) :
    Ensures (loadElfBinary elfBuffer elf) s
      (fun r s' => (∃ pml4, r = (elf.eEntry, some pml4) ∧ Loaded elf s s' pml4) ∨
        OutOfFrames s.pmm s'.pmm (4 * elf.pagesBefore elf.ePhnum + 1))
      (fun s' => OutOfFrames s.pmm s'.pmm (4 * elf.pagesBefore elf.ePhnum + 1)) := by
  rw [loadElfBinary, if_neg (not_not.2 h.magic)]
  cases ha : s.pmm.pmmAlloc with
  | none =>
    have hout : OutOfFrames s.pmm (withPml4 s s.pmm 0).pmm
        (4 * elf.pagesBefore elf.ePhnum + 1) := by
      rw [withPml4_pmm]
      exact ⟨ha, Pmm.not_avail_of_pmmAlloc ha⟩
    refine ensures_bind (ensures_of_done (newPml4_none ha) ?_)
    refine (loadSegments_none hout.1).bind_false fun r s' hr => ?_
    subst hr
    cases r <;> exact ensures_pure (.inr hout)
  | some a =>
    obtain ⟨r, pmm⟩ := a
    have hout : ∀ {p'}, OutOfFrames (withPml4 s pmm r).pmm p' (4 * elf.pagesBefore elf.ePhnum) →
        OutOfFrames s.pmm p' (4 * elf.pagesBefore elf.ePhnum + 1) := fun ho => by
      rw [withPml4_pmm] at ho
      exact ⟨ho.1, fun hav => ho.2 (hav.take ha)⟩
    have hn' : (withPml4 s pmm r).pmm.Narrow (4 * elf.pagesBefore elf.ePhnum) := by
      rw [withPml4_pmm]
      exact hn.pmmAlloc ha
    refine ensures_bind (ensures_of_done (newPml4_some ha) ?_)
    refine ensures_bind (((LoadState.start ha).run h hn').mono (fun o s' ho => ?_) fun _ => hout)
    cases o with
    | some o => exact ensures_pure (.inr (hout ho))
    | none => exact ensures_pure (.inl ⟨r, rfl, ho.loaded h hker ha⟩)

end Load

/-! A file of two segments: five bytes across a page boundary, three of them from the file, and one
byte of zeroes. -/

/-- The bytes of a word, low byte first. -/
def wordBytes : ℕ → ℕ → List UInt8
  | 0, _ => []
  | n + 1, v => UInt8.ofNat v :: wordBytes n (v / 256)

/-- A program header. -/
def headerBytes (type offset vaddr filesz memsz : ℕ) : List UInt8 :=
  wordBytes 4 type ++ wordBytes 4 0 ++ wordBytes 8 offset ++ wordBytes 8 vaddr ++ wordBytes 8 vaddr ++
    wordBytes 8 filesz ++ wordBytes 8 memsz ++ wordBytes 8 4096

/-- A file with the given program headers right behind its header, then the given bytes. -/
def fileOf (entry phnum : ℕ) (headers contents : List UInt8) : ElfFile := fun k =>
  (wordBytes 4 elfMagic ++ wordBytes 20 0 ++ wordBytes 8 entry ++ wordBytes 8 64 ++ wordBytes 16 0 ++
    wordBytes 2 phnum ++ wordBytes 6 0 ++ headers ++ contents).getD k 0

/-- The file. -/
def twoSegments : ElfFile :=
  fileOf 0x400ffe 2 (headerBytes 1 176 0x400ffe 3 5 ++ headerBytes 1 0 0x403000 0 1) [0x90, 0xeb, 0xfd]

/-- Sixteen frames, of which the kernel's PML4 is in frame 1. -/
def sixteenFrames : Mem where
  phys _ := Page.zero
  pmm := { bitmap := update (fun _ => 0) 0 3, totalPages := 16, usedPages := 2 }
  kernelPml4 := 1
  heapCurrentLimit := kernelHeapStart
  heapFreeList := 0
  heapBytes _ := 0

end Hvos.Process
