import Mathlib.Algebra.Order.BigOperators.Group.Finset
import Hvos.Process.ElfImage

/-!
# Process/SharedPages — segments that share a page

The loader takes a new frame for every page of every segment and maps it over whatever is there.  So
a page shows the segment that was loaded last among those that touch it (`Layered`): its bytes,
zeroes behind them, and before them what the frame happened to hold.  An earlier segment keeps its
bytes exactly where that makes no difference.
-/

namespace Hvos.Process

open Memory Bytes Radix Prog Function

/-! ## Segments and the bytes they should show -/

/-- Byte `k` of segment `j`: from the file, or zero. -/
def ElfFile.segmentByte (elf : ElfFile) (j k : ℕ) : UInt8 :=
  if k < (elf.pheader j).pFilesz then elf (wrap ((elf.pheader j).pOffset + k)) else 0

/-- The address `a` lies in the byte range of the segment. -/
def ProgramHeader.Holds (ph : ProgramHeader) (a : ℕ) : Prop :=
  ph.pVaddr ≤ a ∧ a < ph.pVaddr + ph.pMemsz

/-- **Files with disjoint segments in user space.** -/
structure ElfFile.Disjoint (elf : ElfFile) : Prop where
  low : ∀ j < elf.ePhnum, (elf.pheader j).pType = ptLoad →
    (elf.pheader j).pVaddr + (elf.pheader j).pMemsz ≤ 2 ^ 47
  apart : ∀ i < elf.ePhnum, ∀ j < elf.ePhnum, i ≠ j → (elf.pheader i).pType = ptLoad →
    (elf.pheader j).pType = ptLoad → ∀ a, ¬((elf.pheader i).Holds a ∧ (elf.pheader j).Holds a)

/-- The first `n` segments lie below `2 ^ 47`. -/
def ElfFile.LowUpTo (elf : ElfFile) (n : ℕ) : Prop :=
  ∀ j < n, (elf.pheader j).pType = ptLoad → (elf.pheader j).pVaddr + (elf.pheader j).pMemsz ≤ 2 ^ 47

variable {n i k : ℕ}

theorem ElfFile.Disjoint.lowUpTo {elf : ElfFile} (h : elf.Disjoint) (hn : n ≤ elf.ePhnum) :
    elf.LowUpTo n := fun j hj => h.low j (hj.trans_le hn)

/-- The first `n` segments. -/
def loadSegments (elf : ElfFile) (pml4 n : ℕ) : Prog Mem (Option ℕ) :=
  forRange n fun i => loadSegment elf pml4 (elf.pheader i)

/-- **Later segments do not damage earlier ones**: from any memory with 40-bit frame numbers, a byte
of segment `i` that is there once segment `i` has been loaded is there once segment `j` has been. -/
def Undamaged (elf : ElfFile) : Prop :=
  ∀ s : Mem, s.pmm.totalPages ≤ Pmm.frameLimit → ∀ pml4 s1, newPml4 s = .done pml4 s1 →
    ∀ j < elf.ePhnum, (elf.pheader j).pType = ptLoad →
    ∀ i < j, (elf.pheader i).pType = ptLoad → ∀ t t',
      loadSegments elf pml4 (i + 1) s1 = .done none t →
      loadSegments elf pml4 (j + 1) s1 = .done none t' →
      ∀ k < (elf.pheader i).pMemsz, ∃ b,
        byteAt t pml4 ((elf.pheader i).pVaddr + k) = some b ∧
          byteAt t' pml4 ((elf.pheader i).pVaddr + k) = some b

/-- **Shared pages agree**: where a page of a later segment holds a byte of an earlier one, the byte
lies behind the start of the later segment, which has the same byte there. -/
def SharedAgree (elf : ElfFile) : Prop :=
  ∀ j < elf.ePhnum, (elf.pheader j).pType = ptLoad →
    ∀ i < j, (elf.pheader i).pType = ptLoad → ∀ k < (elf.pheader i).pMemsz,
      (elf.pheader j).Covers (((elf.pheader i).pVaddr + k) / 4096) →
        (elf.pheader j).pVaddr ≤ (elf.pheader i).pVaddr + k ∧
          elf.segmentByte j ((elf.pheader i).pVaddr + k - (elf.pheader j).pVaddr) =
            elf.segmentByte i k

/-! ## A page by its bytes -/

section Page

variable {elf : ElfFile} {j m a : ℕ}

/-- From the start of the segment on, its bytes… -/
theorem fillPage_from (pg : Page) (ha : a < 2 ^ 47)
    (hpage : a / 4096 = (elf.pheader j).pageAt m) (hfrom : (elf.pheader j).pVaddr ≤ a) :
    fillPage elf (elf.pheader j) (4096 * m) pg (Fin.ofNat _ a) =
      elf.segmentByte j (a - (elf.pheader j).pVaddr) := by
  have hoff : (elf.pheader j).pageOffset = (elf.pheader j).pVaddr % 4096 := rfl
  unfold ProgramHeader.pageAt at hpage
  exact fillPage_byte elf _ pg (by omega) (show _ = _ + a % 4096 by omega)

/-- …and before it what the frame held. -/
theorem fillPage_before (pg : Page) (hpage : a / 4096 = (elf.pheader j).pageAt m)
    (hbefore : a < (elf.pheader j).pVaddr) :
    fillPage elf (elf.pheader j) (4096 * m) pg (Fin.ofNat _ a) = pg (Fin.ofNat _ a) := by
  have hoff : (elf.pheader j).pageOffset = (elf.pheader j).pVaddr % 4096 := rfl
  unfold ProgramHeader.pageAt at hpage
  have hzero : 4096 * m = 0 := by omega
  have hlt : (Fin.ofNat 4096 a).val < (elf.pheader j).pageOffset :=
    show a % 4096 < _ by omega
  unfold fillPage copyFile
  rw [if_pos hzero, if_pos hzero]
  dsimp only
  split_ifs
  · rw [zeroRemainder_apply, if_neg (by omega), memcpy, if_neg (by omega)]
  · rw [zeroRemainder_apply, if_neg (by omega), memcpy, if_neg (by omega)]
  · rw [zeroRemainder_apply, if_neg (by omega)]

end Page

/-! ## The last segment on a page -/

/-- **The image before page `i` of segment `j` is loaded**: each page shows the last of the segments
that touch it, filled over a frame that was free in `s1`. -/
structure Layered (elf : ElfFile) (s1 : Mem) (j i : ℕ) (img : ℕ → Option Page) : Prop where
  covered : ∀ l m, Before elf j i l m → img ((elf.pheader l).pageAt m) ≠ none
  last : ∀ n pg, img n = some pg → ∃ l m g, Before elf j i l m ∧ n = (elf.pheader l).pageAt m ∧
    (∀ l' m', Before elf j i l' m' → n = (elf.pheader l').pageAt m' → l' ≤ l) ∧
    s1.pmm.Free g ∧ pg = fillPage elf (elf.pheader l) (4096 * m) (s1.phys g)

section Layered

variable {elf : ElfFile} {s1 : Mem} {j i : ℕ} {img : ℕ → Option Page}

theorem Layered.congr {j1 i1 : ℕ} (h : Layered elf s1 j i img)
    (hiff : ∀ l m, Before elf j1 i1 l m ↔ Before elf j i l m) : Layered elf s1 j1 i1 img where
  covered l m hb := h.covered l m ((hiff l m).1 hb)
  last n pg hn := by
    obtain ⟨l, m, g, hb, hpage, hlast, hfree, hpg⟩ := h.last n pg hn
    exact ⟨l, m, g, (hiff l m).2 hb, hpage, fun l' m' hb' => hlast l' m' ((hiff l' m').1 hb'), hfree,
      hpg⟩

theorem before_succ {l m : ℕ} (h : Before elf j (i + 1) l m) :
    Before elf j i l m ∨ l = j ∧ m = i := by
  obtain ⟨htype, hm, hpos⟩ := h
  by_cases hlast : l = j ∧ m = i
  · exact .inr hlast
  · exact .inl ⟨htype, hm, by omega⟩

theorem Before.succ {l m : ℕ} (h : Before elf j i l m) : Before elf j (i + 1) l m :=
  ⟨h.1, h.2.1, h.2.2.imp_right fun hj => ⟨hj.1, Nat.lt_succ_of_lt hj.2⟩⟩

/-- **One more page**, over whatever is there. -/
theorem Layered.page (h : Layered elf s1 j i img) (htype : (elf.pheader j).pType = ptLoad)
    (hi : i < (elf.pheader j).pageCount) {g : ℕ} (hg : s1.pmm.Free g) :
    Layered elf s1 j (i + 1) (update img ((elf.pheader j).pageAt i)
      (some (fillPage elf (elf.pheader j) (4096 * i) (s1.phys g)))) where
  covered l m hb := by
    by_cases heq : (elf.pheader l).pageAt m = (elf.pheader j).pageAt i
    · rw [heq, update_self]
      exact Option.some_ne_none _
    · rw [update_of_ne heq]
      rcases before_succ hb with hb | ⟨rfl, rfl⟩
      · exact h.covered l m hb
      · exact absurd rfl heq
  last n pg hn := by
    by_cases heq : n = (elf.pheader j).pageAt i
    · rw [heq, update_self] at hn
      refine ⟨j, i, g, ⟨htype, hi, .inr ⟨rfl, Nat.lt_succ_self i⟩⟩, heq, fun l' m' hb _ => ?_, hg,
        (Option.some.inj hn).symm⟩
      have hpos := hb.2.2
      omega
    · rw [update_of_ne heq] at hn
      obtain ⟨l, m, g', hb, hpage, hlast, hfree, hpg⟩ := h.last n pg hn
      refine ⟨l, m, g', hb.succ, hpage, fun l' m' hb' hpage' => ?_, hfree, hpg⟩
      rcases before_succ hb' with hb' | ⟨rfl, rfl⟩
      · exact hlast l' m' hb' hpage'
      · exact absurd hpage' heq

end Layered

/-! ## The loops -/

/-- What holds before page `i` of segment `j` is loaded, `s1` being the memory with the new PML4. -/
structure LayerState (elf : ElfFile) (s1 : Mem) (pml4 j i : ℕ) (s : Mem)
    (lab : ℕ → Option (List (Fin 512))) (img : ℕ → Option Page) : Prop where
  image : Image s lab pml4 img
  layered : Layered elf s1 j i img
  ext : Extends (ownScheme lowSlots) s1 s (rootLab pml4) lab
  idle : ∀ h, s.pmm.Free h → s.phys h = s1.phys h
  avail : ∀ m, s1.pmm.Avail (m + 4 * (elf.pagesBefore j + i)) → s.pmm.Avail m

/-- Some labels and image do. -/
def Loading (elf : ElfFile) (s1 : Mem) (pml4 j i : ℕ) (s : Mem) : Prop :=
  ∃ lab img, LayerState elf s1 pml4 j i s lab img

section Loops

variable {elf : ElfFile} {s s1 : Mem} {pml4 n : ℕ}

/-- **The step of the loops.** -/
theorem Loading.page (hn : s1.pmm.totalPages ≤ Pmm.frameLimit) {j : ℕ} (hj : j < n)
    (htype : (elf.pheader j).pType = ptLoad)
    (hlow : (elf.pheader j).pVaddr + (elf.pheader j).pMemsz ≤ 2 ^ 47)
    (hi : i < (elf.pheader j).pageCount) (hs : Loading elf s1 pml4 j i s) :
    Ensures (loadPage elf pml4 (elf.pheader j) i) s
      (Either (fun _ _ => ¬s1.pmm.Avail (4 * elf.pagesBefore n)) (Loading elf s1 pml4 j (i + 1)))
      (fun _ => ¬s1.pmm.Avail (4 * elf.pagesBefore n)) := by
  obtain ⟨lab, img, hs⟩ := hs
  have hslot := lowSlots_iff.2 (ProgramHeader.pageVaddr_low hlow hi)
  have hfour : s1.pmm.Avail (4 * elf.pagesBefore n) → s.pmm.Avail 4 :=
    ElfFile.avail_four hs.avail hj htype hi
  refine (loadPage_over hs.image.typed hs.image.root (ownScheme_along hslot) rfl
    (.inl (hs.ext.totalPages ▸ hn))).mono (fun r s' hr => ?_) fun s' hH hall => hH.few (hfour hall)
  cases r with
  | some r =>
    obtain ⟨-, rfl, hnone⟩ := hr
    exact fun hall => Pmm.not_avail_of_pmmAlloc hnone (hfour hall)
  | none =>
    obtain ⟨lab', g, hp, hphys, hidle⟩ := hr
    have himg := hs.image.load hp
    rw [ProgramHeader.pageNumber_pageVaddr hlow hi, hphys, hs.idle g hp.free] at himg
    refine ⟨lab', _, himg, hs.layered.page htype hi (hs.ext.free hp.free),
      hs.ext.trans hp.toExtends, fun h hfree => ?_, fun m hm =>
      hp.avail m (hs.avail (m + 4) (hm.mono (by omega)))⟩
    rw [hidle h hfree, hs.idle h (hp.toExtends.free hfree)]

/-- The PML4 the loader starts from. -/
theorem Loading.start {pmm : Pmm} {r : ℕ} (ha : s.pmm.pmmAlloc = some (r, pmm)) :
    Loading elf (withPml4 s pmm r) r 0 0 (withPml4 s pmm r) := by
  have hstart : LoadState elf (withPml4 s pmm r) r 0 0 (withPml4 s pmm r) := LoadState.start ha
  obtain ⟨lab, img, himg, hprog, hext, hav⟩ := hstart
  refine ⟨lab, img, himg, ⟨fun l m hb => ?_, fun n pg hn => ?_⟩, hext, fun _ _ => rfl, hav⟩
  · have hpos := hb.2.2
    omega
  · obtain ⟨l, m, hb, -⟩ := hprog.only n (by rw [hn]; exact Option.some_ne_none pg)
    have hpos := hb.2.2
    omega

/-- **The loops** over the first `n` segments. -/
theorem Loading.run (hn : s1.pmm.totalPages ≤ Pmm.frameLimit) (hlow : elf.LowUpTo n)
    (hs : Loading elf s1 pml4 0 0 s) : Ensures (loadSegments elf pml4 n) s
      (Either (fun _ _ => ¬s1.pmm.Avail (4 * elf.pagesBefore n)) (Loading elf s1 pml4 n 0))
      (fun _ => ¬s1.pmm.Avail (4 * elf.pagesBefore n)) := by
  refine loadSegments_ensures (fun j i s hj htype hi hI => hI.page hn hj htype (hlow j hj htype) hi)
    (fun j s _ htype hI => ?_) (fun j s _ htype hI => ?_) hs
  · obtain ⟨lab, img, hI⟩ := hI
    refine ⟨lab, img, hI.image, hI.layered.congr fun _ _ => before_skip htype, hI.ext, hI.idle,
      fun m hm => hI.avail m (hm.mono ?_)⟩
    simp [ElfFile.pagesBefore, htype]
  · obtain ⟨lab, img, hI⟩ := hI
    refine ⟨lab, img, hI.image, hI.layered.congr fun _ _ => before_next, hI.ext, hI.idle,
      fun m hm => hI.avail m (hm.mono ?_)⟩
    simp [ElfFile.pagesBefore, htype]

/-- A segment holds its bytes on its pages. -/
theorem ElfFile.covers_byte {j : ℕ} (hk : k < (elf.pheader j).pMemsz) :
    (elf.pheader j).Covers (((elf.pheader j).pVaddr + k) / 4096) := by
  unfold ProgramHeader.Covers
  omega

/-- **What is read at a byte of a loaded segment**: the page of the last segment on it. -/
theorem Loading.byteAt_last (h : Loading elf s1 pml4 n 0 s) (hlow : elf.LowUpTo n) (hi : i < n)
    (htype : (elf.pheader i).pType = ptLoad) (hk : k < (elf.pheader i).pMemsz) :
    ∃ l m g, l < n ∧ (elf.pheader l).pType = ptLoad ∧
      (elf.pheader l).Covers (((elf.pheader i).pVaddr + k) / 4096) ∧
      ((elf.pheader i).pVaddr + k) / 4096 = (elf.pheader l).pageAt m ∧
      (∀ l' < n, (elf.pheader l').pType = ptLoad →
        (elf.pheader l').Covers (((elf.pheader i).pVaddr + k) / 4096) → l' ≤ l) ∧
      s1.pmm.Free g ∧ byteAt s pml4 ((elf.pheader i).pVaddr + k) =
        some (fillPage elf (elf.pheader l) (4096 * m) (s1.phys g)
          (Fin.ofNat _ ((elf.pheader i).pVaddr + k))) := by
  obtain ⟨lab, img, hs⟩ := h
  have hend := hlow i hi htype
  have hbefore : ∀ {l m}, Before elf n 0 l m ↔
      (elf.pheader l).pType = ptLoad ∧ m < (elf.pheader l).pageCount ∧ l < n := by
    intro l m
    unfold Before
    omega
  -- Some page shows there, since segment `i` has one there.
  have hcov : (elf.pheader i).Covers (((elf.pheader i).pVaddr + k) / 4096) := ElfFile.covers_byte hk
  obtain ⟨m, hm, hpage⟩ := (ProgramHeader.covers_iff hend).1 hcov
  have hsome := hs.layered.covered i m (hbefore.2 ⟨htype, hm, hi⟩)
  rw [← hpage] at hsome
  obtain ⟨pg, hpg⟩ := Option.ne_none_iff_exists'.1 hsome
  obtain ⟨l, m', g, hb, hpage', hlast, hfree, hfill⟩ := hs.layered.last _ pg hpg
  rw [hfill] at hpg
  obtain ⟨htype', hm', hl⟩ := hbefore.1 hb
  refine ⟨l, m', g, hl, htype', ?_, hpage', fun l' hl' ht' hcov => ?_, hfree,
    hs.image.byteAt (by omega) hpg⟩
  · exact (ProgramHeader.covers_iff (hlow l hl htype')).2 ⟨m', hm', hpage'⟩
  · obtain ⟨m'', hm'', hpage''⟩ := (ProgramHeader.covers_iff (hlow l' hl' ht')).1 hcov
    exact hlast l' m'' (hbefore.2 ⟨ht', hm'', hl'⟩) hpage''

/-- Right after segment `i` its bytes are there. -/
theorem Loading.byteAt_self (h : Loading elf s1 pml4 (i + 1) 0 s) (hlow : elf.LowUpTo (i + 1))
    (htype : (elf.pheader i).pType = ptLoad) (hk : k < (elf.pheader i).pMemsz) :
    byteAt s pml4 ((elf.pheader i).pVaddr + k) = some (elf.segmentByte i k) := by
  have hend := hlow i (Nat.lt_succ_self i) htype
  obtain ⟨l, m, g, hl, -, -, hpage, hlast, -, hbyte⟩ :=
    h.byteAt_last hlow (Nat.lt_succ_self i) htype hk
  have hle := hlast i (Nat.lt_succ_self i) htype (ElfFile.covers_byte hk)
  obtain rfl : l = i := Nat.le_antisymm (Nat.lt_succ_iff.1 hl) hle
  rw [hbyte, fillPage_from _ (by omega) hpage (Nat.le_add_right _ _), Nat.add_sub_cancel_left]

/-- Without a frame, only segments without pages are loaded. -/
theorem loadSegments_exhausted (ha : s.pmm.pmmAlloc = none) : Ensures (loadSegments elf pml4 n) s
      (Either (fun _ _ => True) fun _ => ∀ l < n, (elf.pheader l).pType = ptLoad →
        (elf.pheader l).pageCount = 0)
      (fun _ => False) := by
  have hstart : s = s ∧ 0 = 0 ∧ ∀ l < 0, (elf.pheader l).pType = ptLoad →
      (elf.pheader l).pageCount = 0 := ⟨rfl, rfl, fun l hl => absurd hl (Nat.not_lt_zero l)⟩
  refine (loadSegments_ensures (I := fun j i t => t = s ∧ i = 0 ∧ ∀ l < j,
    (elf.pheader l).pType = ptLoad → (elf.pheader l).pageCount = 0) (E := fun _ _ => True) ?_ ?_ ?_
    hstart).imp fun r t hr => ?_
  · rintro j i t - - - ⟨rfl, -⟩
    refine ensures_bind (ensures_pmmAlloc (fun _ => ensures_pure trivial) fun g pmm hsome => ?_)
    rw [ha] at hsome
    cases hsome
  · rintro j t - htype ⟨rfl, -, hall⟩
    refine ⟨rfl, rfl, fun l hl ht => ?_⟩
    rcases Nat.lt_succ_iff_lt_or_eq.1 hl with hl | rfl
    · exact hall l hl ht
    · exact absurd ht htype
  · rintro j t - htype ⟨rfl, hzero, hall⟩
    refine ⟨rfl, rfl, fun l hl ht => ?_⟩
    rcases Nat.lt_succ_iff_lt_or_eq.1 hl with hl | rfl
    · exact hall l hl ht
    · exact hzero
  · cases r with
    | some r => trivial
    | none => exact hr.2.2

end Loops

/-! ## Agreement is enough -/

section Theorem

variable {elf : ElfFile}

theorem Undamaged.of_sharedAgree (h : elf.Disjoint) (hagree : SharedAgree elf) : Undamaged elf := by
  intro s hn pml4 s1 hnew j hj htypej i hij htype t t' ht ht' k hk
  cases ha : s.pmm.pmmAlloc with
  | none =>
    rw [newPml4_none ha] at hnew
    cases hnew
    have hzero := (loadSegments_exhausted (by rwa [withPml4_pmm])).apply ht i
      (Nat.lt_succ_self i) htype
    have hcount := ProgramHeader.pageCount_eq (h.low i (by omega) htype)
    omega
  | some r =>
    obtain ⟨r, pmm⟩ := r
    rw [newPml4_some ha] at hnew
    cases hnew
    have hn' : (withPml4 s pmm pml4).pmm.totalPages ≤ Pmm.frameLimit := by
      rw [withPml4_pmm, (Pmm.pmmAlloc_eq_some ha).2.2.1]
      exact hn
    have hlowi := h.lowUpTo (show i + 1 ≤ elf.ePhnum by omega)
    have hlowj := h.lowUpTo (show j + 1 ≤ elf.ePhnum by omega)
    have hloadi := ((Loading.start ha).run hn' hlowi).apply ht
    have hloadj := ((Loading.start ha).run hn' hlowj).apply ht'
    refine ⟨_, hloadi.byteAt_self hlowi htype hk, ?_⟩
    have hend := h.low i (by omega) htype
    obtain ⟨l, m, g, hl, htypel, hcov, hpage, hlast, -, hbyte⟩ :=
      hloadj.byteAt_last hlowj (by omega) htype hk
    have hle := hlast i (by omega) htype (ElfFile.covers_byte hk)
    rw [hbyte]
    rcases Nat.eq_or_lt_of_le hle with rfl | hlt
    · rw [fillPage_from _ (by omega) hpage (Nat.le_add_right _ _), Nat.add_sub_cancel_left]
    · obtain ⟨hfrom, hsame⟩ := hagree l (by omega) htypel i hlt htype k hk hcov
      rw [fillPage_from _ (by omega) hpage hfrom, hsame]

/-! ## Agreement is needed -/

/-- The bytes of the segments, all together. -/
def ElfFile.bytesBefore (elf : ElfFile) (n : ℕ) : ℕ :=
  ∑ j ∈ (Finset.range n).filter fun j => (elf.pheader j).pType = ptLoad, (elf.pheader j).pMemsz

/-- Disjoint segments fit into user space. -/
theorem ElfFile.Disjoint.bytesBefore_le (h : elf.Disjoint) : elf.bytesBefore elf.ePhnum ≤ 2 ^ 47 := by
  set js := (Finset.range elf.ePhnum).filter fun j => (elf.pheader j).pType = ptLoad with hjs
  have hmem : ∀ {j}, j ∈ js → j < elf.ePhnum ∧ (elf.pheader j).pType = ptLoad := fun hj => by
    simpa [hjs] using hj
  let range := fun j => Finset.Ico (elf.pheader j).pVaddr
    ((elf.pheader j).pVaddr + (elf.pheader j).pMemsz)
  calc elf.bytesBefore elf.ePhnum = ∑ j ∈ js, (range j).card := by
        simp [ElfFile.bytesBefore, range, hjs]
    _ = (js.biUnion range).card := by
        refine (Finset.card_biUnion fun i hi j hj hne => ?_).symm
        refine Finset.disjoint_left.2 fun a ha ha' => ?_
        obtain ⟨hin, hti⟩ := hmem hi
        obtain ⟨hjn, htj⟩ := hmem hj
        exact h.apart i hin j hjn hne hti htj a ⟨Finset.mem_Ico.1 ha, Finset.mem_Ico.1 ha'⟩
    _ ≤ (Finset.range (2 ^ 47)).card := by
        refine Finset.card_le_card fun a ha => ?_
        obtain ⟨j, hj, ha⟩ := Finset.mem_biUnion.1 ha
        have hlow := h.low j (hmem hj).1 (hmem hj).2
        have hlt := (Finset.mem_Ico.1 ha).2
        exact Finset.mem_range.2 (by omega)
    _ = 2 ^ 47 := Finset.card_range _

/-- A segment has two pages more than it fills at most. -/
theorem ElfFile.pagesBefore_le_bytes (hlow : elf.LowUpTo n) :
    4096 * elf.pagesBefore n ≤ elf.bytesBefore n + 8192 * n := by
  induction n with
  | zero => simp [ElfFile.pagesBefore]
  | succ n ih =>
    have hrest := ih fun j hj => hlow j (Nat.lt_succ_of_lt hj)
    simp only [ElfFile.pagesBefore, ElfFile.bytesBefore, Finset.range_add_one,
      Finset.filter_insert] at hrest ⊢
    by_cases htype : (elf.pheader n).pType = ptLoad
    · have hcount := ProgramHeader.pageCount_eq (hlow n (Nat.lt_succ_self n) htype)
      rw [if_pos htype, if_pos htype, Finset.sum_insert (by simp)]
      omega
    · rw [if_neg htype, if_neg htype]
      omega

theorem ElfFile.ePhnum_lt (elf : ElfFile) : elf.ePhnum < 2 ^ 16 := load_lt

/-- Memory with free frames in abundance, every byte of them `c`. -/
def plentyOf (c : UInt8) : Mem where
  phys _ _ := c
  pmm := { bitmap := fun _ => 0, totalPages := 2 ^ 39, usedPages := 0 }
  kernelPml4 := 0
  heapCurrentLimit := kernelHeapStart
  heapFreeList := 0
  heapBytes _ := 0

theorem plentyOf_avail (c : UInt8) (hn : n < 2 ^ 39) : (plentyOf c).pmm.Avail n := by
  refine ⟨Finset.Ico 1 (2 ^ 39), by rw [Nat.card_Ico]; omega, fun g hg => ?_⟩
  obtain ⟨h1, hlt⟩ := Finset.mem_Ico.1 hg
  exact ⟨⟨h1, hlt, by simp [plentyOf, Pmm.bitmapTest]⟩, by unfold Pmm.frameLimit; omega⟩

/-- **The loops get through in it.** -/
theorem ElfFile.Disjoint.loads (h : elf.Disjoint) (c : UInt8) :
    ∃ pml4 s1, newPml4 (plentyOf c) = .done pml4 s1 ∧ (∀ g, s1.pmm.Free g → s1.phys g = fun _ => c) ∧
      ∀ n ≤ elf.ePhnum, ∃ t, loadSegments elf pml4 n s1 = .done none t ∧
        Loading elf s1 pml4 n 0 t := by
  have henough : 4 * elf.pagesBefore elf.ePhnum + 1 < 2 ^ 39 := by
    have hpages := ElfFile.pagesBefore_le_bytes h.low
    have hbytes := h.bytesBefore_le
    have hnum := elf.ePhnum_lt
    omega
  obtain ⟨r, pmm, ha, -, hav⟩ := (plentyOf_avail c henough).pmmAlloc
  refine ⟨r, withPml4 (plentyOf c) pmm r, newPml4_some ha, fun g hg => ?_, fun n hn => ?_⟩
  · have hne : g ≠ r := by
      rintro rfl
      have hclear := hg.2.2
      rw [withPml4_pmm, (Pmm.pmmAlloc_eq_some ha).2.2.2.2] at hclear
      simp at hclear
    rw [withPml4_phys hne]
    rfl
  · have htotal : (withPml4 (plentyOf c) pmm r).pmm.totalPages ≤ Pmm.frameLimit := by
      rw [withPml4_pmm, (Pmm.pmmAlloc_eq_some ha).2.2.1]
      exact Nat.pow_le_pow_right (by decide) (by decide)
    have hall : (withPml4 (plentyOf c) pmm r).pmm.Avail (4 * elf.pagesBefore n) := by
      rw [withPml4_pmm]
      exact hav.mono (Nat.mul_le_mul_left 4 (elf.pagesBefore_le hn))
    have hstart : Loading elf _ r 0 0 (withPml4 (plentyOf c) pmm r) := Loading.start ha
    have hrun := hstart.run htotal fun j hj => h.low j (Nat.lt_of_lt_of_le hj hn)
    rcases hrun.cases with ⟨res, t, ht, hres⟩ | ⟨t, -, hhalt⟩
    · cases res with
      | some res => exact absurd hall hres
      | none => exact ⟨t, ht, hres⟩
    · exact absurd hall hhalt

theorem SharedAgree.of_undamaged (h : elf.Disjoint) (hun : Undamaged elf) : SharedAgree elf := by
  intro j hj htypej i hij htype k hk hcov
  -- Free frames hold a byte that is not the one in question.
  obtain ⟨pml4, s1, hnew, hstale, hloads⟩ := h.loads (elf.segmentByte i k + 1)
  have hlowi := h.lowUpTo (show i + 1 ≤ elf.ePhnum by omega)
  have hlowj := h.lowUpTo (show j + 1 ≤ elf.ePhnum by omega)
  obtain ⟨t, ht, hloadi⟩ := hloads (i + 1) (by omega)
  obtain ⟨t', ht', hloadj⟩ := hloads (j + 1) (by omega)
  obtain ⟨b, hb, hb'⟩ := hun _ (Nat.pow_le_pow_right (by decide) (by decide)) pml4 s1 hnew j hj
    htypej i hij htype t t' ht ht' k hk
  obtain rfl := Option.some.inj ((hloadi.byteAt_self hlowi htype hk).symm.trans hb)
  have hend := h.low i (by omega) htype
  obtain ⟨l, m, g, hl, htypel, -, hpage, hlast, hfree, hbyte⟩ :=
    hloadj.byteAt_last hlowj (by omega) htype hk
  have hle := hlast j (by omega) htypej hcov
  obtain rfl : l = j := Nat.le_antisymm (Nat.lt_succ_iff.1 hl) hle
  have hsame := Option.mem_unique hbyte hb'
  by_cases hfrom : (elf.pheader l).pVaddr ≤ (elf.pheader i).pVaddr + k
  · rw [fillPage_from _ (by omega) hpage hfrom] at hsame
    exact ⟨hfrom, hsame⟩
  · rw [fillPage_before _ hpage (by omega), hstale g hfree] at hsame
    simp at hsame

end Theorem

/-- Two segments, one behind the other. -/
theorem ElfFile.disjoint_of_two {elf : ElfFile} (hnum : elf.ePhnum = 2)
    (hlow : elf.LowUpTo elf.ePhnum)
    (hle : (elf.pheader 0).pVaddr + (elf.pheader 0).pMemsz ≤ (elf.pheader 1).pVaddr) :
    elf.Disjoint := by
  refine ⟨hlow, ?_⟩
  rw [hnum]
  intro i hi j hj hne _ _ a
  unfold ProgramHeader.Holds
  rcases (show i = 0 ∧ j = 1 ∨ i = 1 ∧ j = 0 by omega) with ⟨rfl, rfl⟩ | ⟨rfl, rfl⟩ <;> omega

theorem twoSegments_disjoint : twoSegments.Disjoint :=
  ElfFile.disjoint_of_two (by decide +kernel) (by unfold ElfFile.LowUpTo; decide +kernel)
    (by decide +kernel)

/-- Sixteen bytes at the start of a page, and sixteen in the middle of it. -/
def onePage : ElfFile :=
  fileOf 0x400000 2 (headerBytes 1 176 0x400000 16 16 ++ headerBytes 1 176 0x400800 16 16)
    (List.replicate 16 0x90)

theorem onePage_disjoint : onePage.Disjoint :=
  ElfFile.disjoint_of_two (by decide +kernel) (by unfold ElfFile.LowUpTo; decide +kernel)
    (by decide +kernel)

end Hvos.Process
