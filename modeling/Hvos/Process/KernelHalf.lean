import Hvos.Memory.Translation
import Hvos.Process.ElfImage

/-!
# Process/KernelHalf — `load_elf_binary` and the tables behind entries 256..511

The new PML4 starts with the kernel's upper entries, so a present one leads to tables that the
kernel and every process share.  The loader takes `p_vaddr` as it comes: a page it maps there is
mapped for everyone.  A file without such a page leaves every frame in use as it was
(`loadElfBinary_frames`); one with such a page shows in the kernel's own walks as soon as that page
is reached (`loadElfBinary_userAt`).
-/

namespace Hvos.Process

open Memory Radix Prog

/-! ## The property -/

/-- The walks of the upper half from the PML4s `roots` are the same. -/
def KeepsKernelHalf (roots : Set ℕ) (s s' : Mem) : Prop :=
  ∀ r ∈ roots, ∀ v, 256 ≤ (pml4Index v).val → s'.walk r v = s.walk r v

/-- Page `i` of segment `j` is loaded at an address that `kernel_pml4` has an upper entry for. -/
def Touches (elf : ElfFile) (s : Mem) (j i : ℕ) : Prop :=
  (j < elf.ePhnum ∧ (elf.pheader j).pType = ptLoad ∧ i < (elf.pheader j).pageCount) ∧
    256 ≤ (pml4Index ((elf.pheader j).pageVaddr i)).val ∧
    (s.entry s.kernelPml4 (pml4Index ((elf.pheader j).pageVaddr i))).present = true

/-- The PML4s `roots` and the tables behind their upper entries are marked used, and none is
frame 0. -/
structure InUse (s : Mem) (roots : Set ℕ) : Prop where
  root : ∀ r ∈ roots, s.pmm.bitmapTest r = true ∧ r ≠ 0
  table : ∀ r ∈ roots, ∀ i : Fin 512, 256 ≤ i.val → ∀ is f, is.length ≤ 2 →
    descend s.next (i :: is) r = some f → s.pmm.bitmapTest f = true ∧ f ≠ 0

variable {elf : ElfFile} {s s' s1 : Mem} {roots : Set ℕ} {pmm : Pmm} {r : ℕ} {f j i : ℕ}

/-- A walk reads the frames on its way. -/
theorem Mem.tables_congr (h : s'.phys f = s.phys f) :
    s'.next f = s.next f ∧ s'.leaf f = s.leaf f := by
  have hentry : s'.entry f = s.entry f := funext fun i => by rw [Mem.entry, h, Mem.entry]
  exact ⟨funext fun i => by rw [Mem.next, hentry, Mem.next],
    funext fun i => by rw [Mem.leaf, hentry, Mem.leaf]⟩

/-- Frames in use that stay as they were keep the walks. -/
theorem InUse.keeps (h : InUse s roots)
    (hphys : ∀ f, s.pmm.bitmapTest f = true → f ≠ 0 → s'.phys f = s.phys f) :
    KeepsKernelHalf roots s s' := by
  intro r hr v hv
  refine find_congr_of_descend fun is f his hne hd => Mem.tables_congr ?_
  cases is with
  | nil =>
    cases hd
    exact hphys r (h.root r hr).1 (h.root r hr).2
  | cons i is =>
    have hlen : is.length + 1 < 4 := lt_of_le_of_ne his.length_le fun h => hne (his.eq_of_length h)
    obtain ⟨rfl, -⟩ := List.cons_prefix_cons.1 his
    obtain ⟨hu, h0⟩ := h.table r hr _ hv is f (by omega) hd
    exact hphys f hu h0

/-! ## A file that touches no shared table -/

/-- The slots of the new PML4 that lead to no table of the kernel. -/
def ownSlots (s : Mem) : Fin 512 → Bool := fun i =>
  i.val < 256 || !(s.entry s.kernelPml4 i).present

theorem ownSlots_eq_false {i : Fin 512} :
    ownSlots s i = false ↔ 256 ≤ i.val ∧ (s.entry s.kernelPml4 i).present = true := by
  simp [ownSlots]

/-- A loaded page that touches no shared table is in such a slot. -/
theorem ownSlots_pageVaddr (h : ¬Touches elf s j i)
    (hji : j < elf.ePhnum ∧ (elf.pheader j).pType = ptLoad ∧ i < (elf.pheader j).pageCount) :
    ownSlots s (pml4Index ((elf.pheader j).pageVaddr i)) = true := by
  by_contra hown
  exact h ⟨hji, ownSlots_eq_false.1 (Bool.eq_false_iff.2 hown)⟩

section NewPml4

variable (ha : s.pmm.pmmAlloc = some (r, pmm)) (hker : s.pmm.bitmapTest s.kernelPml4 = true)
include ha

theorem withPml4_used (hf : s.pmm.bitmapTest f = true) :
    (withPml4 s pmm r).pmm.bitmapTest f = true ∧ f ≠ r := by
  obtain ⟨hfree, -, -, -, htest⟩ := Pmm.pmmAlloc_eq_some ha
  refine ⟨by rw [withPml4_pmm, htest, hf, Bool.true_or], ?_⟩
  rintro rfl
  rw [hfree.2.2] at hf
  cases hf

theorem withPml4_root_used : (withPml4 s pmm r).pmm.bitmapTest r = true := by
  rw [withPml4_pmm, (Pmm.pmmAlloc_eq_some ha).2.2.2.2]
  simp

include hker

/-- The slots of its own start empty. -/
theorem withPml4_own {i : Fin 512} (hi : ownSlots s i = true) :
    (withPml4 s pmm r).next r i = none := by
  rcases Nat.lt_or_ge i.val 256 with hlow | hhigh
  · rw [Mem.next, withPml4_entry_low hlow]
    rfl
  · have habsent : (s.entry s.kernelPml4 i).present = false := by
      simpa [ownSlots, Nat.not_lt.2 hhigh] using hi
    rw [Mem.next, withPml4_entry_high hhigh (withPml4_used ha hker).2, habsent]
    rfl

/-- **The loops keep to new frames**, wherever they end. -/
theorem loadSegments_extends (hfile : ∀ j i, ¬Touches elf s j i)
    (htot : s.pmm.totalPages ≤ Pmm.frameLimit) :
    Ensures (forRange elf.ePhnum fun j => loadSegment elf r (elf.pheader j)) (withPml4 s pmm r)
      (fun _ s' => ∃ lab, Extends (ownScheme (ownSlots s)) (withPml4 s pmm r) s' (rootLab r) lab)
      (fun s' => ∃ lab, Extends (ownScheme (ownSlots s)) (withPml4 s pmm r) s' (rootLab r) lab) := by
  have hT := typed_root (withPml4_root_used ha) fun i => withPml4_own ha hker (i := i)
  have hroot : rootLab r r = some [] := rootLab_eq_some.2 ⟨rfl, rfl⟩
  have hnarrow : (withPml4 s pmm r).pmm.totalPages ≤ Pmm.frameLimit := by
    rw [withPml4_pmm, (Pmm.pmmAlloc_eq_some ha).2.2.1]
    exact htot
  let I : Mem → Prop := fun s' =>
    ∃ lab, Extends (ownScheme (ownSlots s)) (withPml4 s pmm r) s' (rootLab r) lab
  refine (loadSegments_ensures (I := fun _ _ => I) (E := fun _ => I) (fun j i t hj htype hi hI => ?_)
    (fun _ _ _ _ => id) (fun _ _ _ _ => id) ⟨_, .refl hT⟩).imp fun o t ho => ?_
  · obtain ⟨lab, hext⟩ := hI
    have hown := ownSlots_pageVaddr (hfile j i) ⟨hj, htype, hi⟩
    refine (loadPage_spec hext.typed (hext.keep r [] hroot) (ownScheme_along hown) rfl
      (.inl (hext.totalPages ▸ hnarrow))).mono (fun o t' ho => ?_) fun t' hstuck => ?_
    · cases o with
      | some o =>
        obtain ⟨-, rfl, -⟩ := ho
        exact ⟨lab, hext⟩
      | none =>
        obtain ⟨lab', g, hp, -⟩ := ho
        exact ⟨lab', hext.trans hp.toExtends⟩
    · obtain ⟨lab', hext'⟩ := hstuck.extended
      exact ⟨lab', hext.trans hext'⟩
  · cases o <;> exact ho

end NewPml4

/-- **A file that touches no shared table changes no frame in use**, whether it is loaded or not. -/
theorem loadElfBinary_frames (elfBuffer : ℕ) (hker : s.pmm.bitmapTest s.kernelPml4 = true)
    (htot : s.pmm.totalPages ≤ Pmm.frameLimit)
    (hfile : elf.eIdent ≠ elfMagic ∨ ∀ j i, ¬Touches elf s j i) (hf : s.pmm.bitmapTest f = true)
    (h0 : f ≠ 0) : (loadElfBinary elfBuffer elf s).state.phys f = s.phys f := by
  suffices h : Ensures (loadElfBinary elfBuffer elf) s (fun _ s' => s'.phys f = s.phys f)
      (fun s' => s'.phys f = s.phys f) from h.state
  unfold loadElfBinary
  by_cases hmagic : elf.eIdent = elfMagic
  · rw [if_neg (not_not.2 hmagic)]
    have hfile := hfile.resolve_left (not_not.2 hmagic)
    cases ha : s.pmm.pmmAlloc with
    | none =>
      -- The PML4 is made in frame 0, and then nothing is loaded.
      refine ensures_bind (ensures_of_done (newPml4_none ha) ?_)
      have hnone : (withPml4 s s.pmm 0).pmm.pmmAlloc = none := by rw [withPml4_pmm, ha]
      refine (loadSegments_none hnone).bind_false fun o s' hs' => ?_
      subst hs'
      cases o <;> exact ensures_pure (withPml4_phys h0)
    | some a =>
      obtain ⟨r, pmm⟩ := a
      obtain ⟨hu, hne⟩ := withPml4_used ha hf
      have hkeep : ∀ s', (∃ lab, Extends (ownScheme (ownSlots s)) (withPml4 s pmm r) s' (rootLab r)
          lab) → s'.phys f = s.phys f := by
        rintro s' ⟨lab, hext⟩
        rw [hext.frames f hu (if_neg hne), withPml4_phys hne]
      refine ensures_bind (ensures_of_done (newPml4_some ha) ?_)
      refine ensures_bind ((loadSegments_extends ha hker hfile htot).mono (fun o s' ho => ?_) hkeep)
      cases o <;> exact ensures_pure (hkeep s' ho)
  · rw [if_pos hmagic]
    exact ensures_modify_bind (ensures_pure (by rw [(s.kfree_heapOnly elfBuffer).phys]))

/-! ## A file that touches a shared table -/

/-- Tables labelled with the path to them, from the new PML4 or, below a slot that is not its own,
from the kernel's. -/
def sharedScheme (own : Fin 512 → Bool) : Scheme (Bool × List (Fin 512)) (Fin 512) where
  child l i := if l.2.length < 3 then some (l.1 && (own i || !l.2.isEmpty), l.2 ++ [i]) else none
  level l := 4 - l.2.length
  level_child := by
    intro l i l' h
    split_ifs at h with hlt
    cases h
    simp only [List.length_append, List.length_singleton]
    omega

theorem sharedScheme_along {own : Fin 512 → Bool} (new : Bool) (v : ℕ) :
    (sharedScheme own).along (new, []) (upperPath v) =
      some (new && own (pml4Index v), upperPath v) := by
  simp [Scheme.along, upperPath, sharedScheme]

/-- The labels while the new PML4 is in frame `r` and has no table of its own. -/
noncomputable def sharedLab (s : Mem) (r f : ℕ) : Option (Bool × List (Fin 512)) :=
  if f = r then some (true, []) else (pathLab s s.kernelPml4 f).map fun p => (false, p)

theorem sharedLab_self : sharedLab s r r = some (true, []) := if_pos rfl

theorem sharedLab_of_ne (h : f ≠ r) :
    sharedLab s r f = (pathLab s s.kernelPml4 f).map fun p => (false, p) := if_neg h

section Shared

variable (ha : s.pmm.pmmAlloc = some (r, pmm)) (hwf : WellFormed s s.kernelPml4)
include ha hwf

theorem sharedLab_table {p : List (Fin 512)} (h : pathLab s s.kernelPml4 f = some p) :
    sharedLab s r f = some (false, p) := by
  rw [sharedLab_of_ne (withPml4_used ha (hwf.typed.used f p h)).2, h]
  rfl

/-- The new PML4 and the kernel's tables are labelled. -/
theorem typed_shared : Typed (sharedScheme (ownSlots s)) (withPml4 s pmm r) (sharedLab s r) where
  labelled := by
    have hker : pathLab s s.kernelPml4 s.kernelPml4 = some [] :=
      hwf.pathLab_eq_some.2 ⟨by simp, rfl⟩
    have hused := hwf.typed.used _ _ hker
    intro f l i l' g hf hl hg
    simp only [sharedScheme] at hl
    split_ifs at hl with hlt
    cases hl
    by_cases hfr : f = r
    · subst hfr
      obtain rfl := Option.mem_unique sharedLab_self hf
      cases hown : ownSlots s i with
      | true =>
        rw [withPml4_own ha hused hown] at hg
        cases hg
      | false =>
        rw [Mem.next, withPml4_entry_high (ownSlots_eq_false.1 hown).1 (withPml4_used ha hused).2]
          at hg
        simp only [List.isEmpty_nil, Bool.not_true, Bool.or_false, Bool.and_false]
        exact sharedLab_table ha hwf (hwf.typed.labelled _ _ i _ g hker rfl hg)
    · obtain ⟨p, hp, rfl⟩ := Option.map_eq_some_iff.1 ((sharedLab_of_ne hfr).symm.trans hf)
      rw [(Mem.tables_congr (withPml4_phys hfr)).1] at hg
      exact sharedLab_table ha hwf (hwf.typed.labelled f p i _ g hp (if_pos hlt) hg)
  used f l hf := by
    by_cases hfr : f = r
    · rw [hfr]
      exact withPml4_root_used ha
    · obtain ⟨p, hp, -⟩ := Option.map_eq_some_iff.1 ((sharedLab_of_ne hfr).symm.trans hf)
      exact (withPml4_used ha (hwf.typed.used f p hp)).1

end Shared

/-- The walk of `v` from `root` ends in a user page. -/
def UserAt (s : Mem) (root v : ℕ) : Prop := ∃ e, s.walk root v = some e ∧ e.us = true

section Run

variable (ha : s.pmm.pmmAlloc = some (r, pmm)) (hwf : WellFormed s s.kernelPml4) {t t' : Mem}
  {lab lab' : ℕ → Option (Bool × List (Fin 512))} {v v0 g : ℕ}
  (hext : Extends (sharedScheme (ownSlots s)) (withPml4 s pmm r) t (sharedLab s r) lab)
include ha hwf hext

theorem sharedLab_kernel : lab s.kernelPml4 = some (false, []) :=
  hext.keep _ _ (sharedLab_table ha hwf (hwf.pathLab_eq_some.2 ⟨by simp, rfl⟩))

/-- **Below a shared slot** the kernel's PML4 and the new one lead to the same table. -/
theorem walk_shared (hv : ownSlots s (pml4Index v) = false) :
    t.walk s.kernelPml4 v = t.walk r v := by
  obtain ⟨hhigh, hpresent⟩ := ownSlots_eq_false.1 hv
  have hker : pathLab s s.kernelPml4 s.kernelPml4 = some [] := hwf.pathLab_eq_some.2 ⟨by simp, rfl⟩
  have hne := (withPml4_used ha (hwf.typed.used _ _ hker)).2
  have hnext : s.next s.kernelPml4 (pml4Index v) =
      some (s.entry s.kernelPml4 (pml4Index v)).address.val := if_pos hpresent
  have hold : t.next s.kernelPml4 (pml4Index v) =
      some (s.entry s.kernelPml4 (pml4Index v)).address.val := by
    refine hext.kids _ (false, []) _ _ (sharedLab_table ha hwf hker) (by simp [sharedScheme]) ?_
    rw [(Mem.tables_congr (withPml4_phys hne)).1, hnext]
  have hnew : t.next r (pml4Index v) =
      some (s.entry s.kernelPml4 (pml4Index v)).address.val := by
    refine hext.kids _ (true, []) _ _ sharedLab_self (by simp [sharedScheme]) ?_
    rw [Mem.next, withPml4_entry_high hhigh hne, ← Mem.next, hnext]
  simp only [Mem.walk, upperPath, List.cons_append, find, hold, hnew]

/-- A user page seen from the kernel's PML4 stays one when another is loaded, and a page loaded
below a shared slot becomes one. -/
theorem userAt_placed
    (hp : Placed (sharedScheme (ownSlots s)) t t' lab lab' r v g true
      (true && ownSlots s (pml4Index v), upperPath v))
    (h : UserAt t s.kernelPml4 v0 ∨ v = v0 ∧ ownSlots s (pml4Index v) = false) :
    UserAt t' s.kernelPml4 v0 := by
  by_cases hsame : ownSlots s (pml4Index v) = false ∧ pageNumber v0 = pageNumber v
  · obtain ⟨hupper, hpt⟩ := path_inj.2 hsame.2
    obtain ⟨e, he, -, hus⟩ := hp.leaf
    refine ⟨e, ?_, hus⟩
    rw [Mem.walk, hupper, hpt]
    exact (walk_shared ha hwf (hext.trans hp.toExtends) hsame.1).trans he
  · obtain ⟨e, he, hus⟩ := h.resolve_right fun hv => hsame ⟨hv.2, by rw [hv.1]⟩
    refine ⟨e, (hp.other _ (sharedLab_kernel ha hwf hext) (sharedScheme_along false v0) rfl ?_).trans he,
      hus⟩
    by_contra hboth
    rw [not_or, not_not, not_not, Prod.mk.injEq] at hboth
    obtain ⟨⟨hown, hupper⟩, hpt⟩ := hboth
    exact hsame ⟨by simpa using hown.symm, path_inj.1 ⟨hupper, hpt⟩⟩

end Run

/-- What holds before page `i` of segment `j` is loaded: page `i0` of segment `j0`, if it is loaded,
is a user page from the kernel's PML4. -/
def Exposed (elf : ElfFile) (s : Mem) (pmm : Pmm) (r j0 i0 j i : ℕ) (t : Mem) : Prop :=
  ∃ lab, Extends (sharedScheme (ownSlots s)) (withPml4 s pmm r) t (sharedLab s r) lab ∧
    (∀ m, pmm.Avail (m + 4 * (elf.pagesBefore j + i)) → t.pmm.Avail m) ∧
    (Before elf j i j0 i0 → UserAt t s.kernelPml4 ((elf.pheader j0).pageVaddr i0))

/-- Pages are loaded in order. -/
theorem ElfFile.pagesBefore_add_le {j0 i0 : ℕ} (htype : (elf.pheader j).pType = ptLoad)
    (hi : i < (elf.pheader j).pageCount) (htype0 : (elf.pheader j0).pType = ptLoad)
    (hi0 : i0 < (elf.pheader j0).pageCount) (h : ¬Before elf j i j0 i0) :
    elf.pagesBefore j + i ≤ elf.pagesBefore j0 + i0 := by
  have hpos : ¬(j0 < j ∨ j0 = j ∧ i0 < i) := fun hpos => h ⟨htype0, hi0, hpos⟩
  rcases Nat.lt_or_ge j j0 with hlt | hge
  · have hle := elf.pagesBefore_le (show j + 1 ≤ j0 from hlt)
    simp only [ElfFile.pagesBefore, if_pos htype] at hle
    omega
  · obtain rfl : j = j0 := by omega
    omega

section Exposed

variable {j0 i0 : ℕ} (ha : s.pmm.pmmAlloc = some (r, pmm)) (hwf : WellFormed s s.kernelPml4)
  (htot : s.pmm.totalPages ≤ Pmm.frameLimit) (ht : Touches elf s j0 i0)
  (hav : pmm.Avail (4 * (elf.pagesBefore j0 + i0 + 1)))
include ha hwf htot ht hav

/-- **The step of the loops.** -/
theorem Exposed.page {t : Mem} (htype : (elf.pheader j).pType = ptLoad)
    (hi : i < (elf.pheader j).pageCount) (h : Exposed elf s pmm r j0 i0 j i t) :
    Ensures (loadPage elf r (elf.pheader j) i) t
      (Either (fun _ t' => UserAt t' s.kernelPml4 ((elf.pheader j0).pageVaddr i0))
        (Exposed elf s pmm r j0 i0 j (i + 1)))
      (fun t' => UserAt t' s.kernelPml4 ((elf.pheader j0).pageVaddr i0)) := by
  obtain ⟨lab, hext, hframes, huser⟩ := h
  -- The frames are enough to get past the page.
  have hpast : ¬t.pmm.Avail 4 → Before elf j i j0 i0 := fun hfew => by
    by_contra hb
    have hle := ElfFile.pagesBefore_add_le htype hi ht.1.2.1 ht.1.2.2 hb
    exact hfew (hframes 4 (hav.mono (by omega)))
  have hnarrow : t.pmm.totalPages ≤ Pmm.frameLimit := by
    rw [hext.totalPages, withPml4_pmm, (Pmm.pmmAlloc_eq_some ha).2.2.1]
    exact htot
  refine (loadPage_spec hext.typed (hext.keep r _ sharedLab_self) (sharedScheme_along true _) rfl
    (.inl hnarrow)).mono (fun o t' ho => ?_) fun t' hstuck => ?_
  · cases o with
    | some o =>
      obtain ⟨-, rfl, hnone⟩ := ho
      exact huser (hpast (Pmm.not_avail_of_pmmAlloc hnone))
    | none =>
      obtain ⟨lab', g, hp, -⟩ := ho
      refine ⟨lab', hext.trans hp.toExtends, fun m hm => hp.avail m (hframes _ (hm.mono (by omega))),
        fun hb => userAt_placed ha hwf hext hp ?_⟩
      by_cases hhere : j0 = j ∧ i0 = i
      · obtain ⟨rfl, rfl⟩ := hhere
        exact .inr ⟨rfl, ownSlots_eq_false.2 ht.2⟩
      · have hpos := hb.2.2
        exact .inl (huser ⟨hb.1, hb.2.1, by omega⟩)
  · obtain ⟨e, he, hus⟩ := huser (hpast hstuck.few)
    refine ⟨e, ?_, hus⟩
    exact (hstuck.lookups _ (sharedLab_kernel ha hwf hext) (sharedScheme_along false _) rfl).trans he

/-- **The loops expose the page**, wherever they end. -/
theorem loadSegments_userAt :
    Ensures (forRange elf.ePhnum fun j => loadSegment elf r (elf.pheader j)) (withPml4 s pmm r)
      (fun _ t => UserAt t s.kernelPml4 ((elf.pheader j0).pageVaddr i0))
      (fun t => UserAt t s.kernelPml4 ((elf.pheader j0).pageVaddr i0)) := by
  refine (loadSegments_ensures (I := Exposed elf s pmm r j0 i0)
    (fun j i t _ htype hi hI => hI.page ha hwf htot ht hav htype hi)
    (fun j t _ htype hI => ?_) (fun j t _ htype hI => ?_) ?_).imp fun o t ho => ?_
  · obtain ⟨lab, hext, hframes, huser⟩ := hI
    refine ⟨lab, hext, fun m hm => hframes m (hm.mono ?_), fun hb => huser ?_⟩
    · simp [ElfFile.pagesBefore, htype]
    · exact before_skip htype |>.1 hb
  · obtain ⟨lab, hext, hframes, huser⟩ := hI
    refine ⟨lab, hext, fun m hm => hframes m (hm.mono ?_), fun hb => huser ?_⟩
    · simp [ElfFile.pagesBefore, htype]
    · exact before_next.1 hb
  · refine ⟨_, .refl (typed_shared ha hwf), fun m hm => ?_, fun hb => ?_⟩
    · rw [withPml4_pmm]
      exact hm.mono (by simp)
    · have hpos := hb.2.2
      omega
  · cases o with
    | some o => exact ho
    | none =>
      obtain ⟨_, _, _, huser⟩ := ho
      exact huser ⟨ht.1.2.1, ht.1.2.2, .inl ht.1.1⟩

end Exposed

/-- **A file that touches a shared table** maps a user page in the kernel half, if the frames last
until that page. -/
theorem loadElfBinary_userAt (elfBuffer : ℕ) (hwf : WellFormed s s.kernelPml4)
    (htot : s.pmm.totalPages ≤ Pmm.frameLimit) (hmagic : elf.eIdent = elfMagic)
    (ht : Touches elf s j i) (hav : s.pmm.Avail (4 * (elf.pagesBefore j + i + 1) + 1)) :
    UserAt (loadElfBinary elfBuffer elf s).state s.kernelPml4 ((elf.pheader j).pageVaddr i) := by
  obtain ⟨r, pmm, ha, -, hav'⟩ := hav.pmmAlloc
  suffices h : Ensures (loadElfBinary elfBuffer elf) s
      (fun _ t => UserAt t s.kernelPml4 ((elf.pheader j).pageVaddr i))
      (fun t => UserAt t s.kernelPml4 ((elf.pheader j).pageVaddr i)) from h.state
  rw [loadElfBinary, if_neg (not_not.2 hmagic)]
  refine ensures_bind (ensures_of_done (newPml4_some ha) ?_)
  refine (loadSegments_userAt ha hwf htot ht hav').bind fun o t ho => ?_
  cases o <;> exact ensures_pure ho

/-! ## The theorem -/

/-- The one entry of each table of the kernel, and the frame it leads to. -/
def kernelTable : ℕ → Option (Fin 512 × ℕ)
  | 1 => some (511, 2)
  | 2 => some (510, 3)
  | 3 => some (0, 4)
  | 4 => some (0, 5)
  | _ => none

/-- A table with at most one entry. -/
def tablePage : Option (Fin 512 × ℕ) → Page
  | some (i, frame) => Page.zero.setEntry i ((Pte.ofRaw 0).point false frame)
  | none => Page.zero

/-- Frames 1 to 4 are the kernel's tables, frame 5 its page. -/
def oneKernelPage : Mem where
  phys f := tablePage (kernelTable f)
  pmm := { bitmap := Function.update (fun _ => 0) 0 0x3f, totalPages := 32, usedPages := 6 }
  kernelPml4 := 1
  heapCurrentLimit := kernelHeapStart
  heapFreeList := 0
  heapBytes _ := 0

/-- A file whose one segment is the kernel's page. -/
def kernelSegment : ElfFile :=
  fileOf 0xffffffff80000000 1 (headerBytes 1 120 0xffffffff80000000 1 1) [0x90]

theorem tablePage_entry (o : Option (Fin 512 × ℕ)) (j : Fin 512) :
    (tablePage o).entry j = .ofRaw 0 ∨
      ∃ frame, o = some (j, frame) ∧ (tablePage o).entry j = (Pte.ofRaw 0).point false frame := by
  cases o with
  | none => exact .inl (Page.entry_zero j)
  | some x =>
    obtain ⟨i, frame⟩ := x
    by_cases hj : j = i
    · subst hj
      exact .inr ⟨frame, rfl, Page.entry_setEntry_self ..⟩
    · exact .inl ((Page.entry_setEntry_of_ne _ _ hj).trans (Page.entry_zero j))

theorem oneKernelPage_us (f : ℕ) (i : Fin 512) : (oneKernelPage.entry f i).us = false := by
  rcases tablePage_entry (kernelTable f) i with h | ⟨frame, -, h⟩
  · exact congrArg Pte.us h
  · exact congrArg Pte.us h

theorem oneKernelPage_pat (f : ℕ) (i : Fin 512) : (oneKernelPage.entry f i).pat = false := by
  rcases tablePage_entry (kernelTable f) i with h | ⟨frame, -, h⟩
  · exact congrArg Pte.pat h
  · exact congrArg Pte.pat h

theorem kernelTable_lt {frame : ℕ} {i : Fin 512} (h : kernelTable f = some (i, frame)) :
    frame < 2 ^ 40 := by
  have hle : frame ≤ 5 := by
    unfold kernelTable at h
    split at h <;> cases h <;> decide
  exact lt_of_le_of_lt hle (by decide)

theorem oneKernelPage_next {g : ℕ} {i : Fin 512} (h : oneKernelPage.next f i = some g) :
    kernelTable f = some (i, g) := by
  rw [Mem.next, show oneKernelPage.entry f i = (tablePage (kernelTable f)).entry i from rfl] at h
  rcases tablePage_entry (kernelTable f) i with he | ⟨frame, hframe, he⟩
  · rw [he] at h
    cases h
  · rw [he, Pte.point_present, if_pos rfl, Pte.point_address (kernelTable_lt hframe)] at h
    rw [hframe, Option.some.inj h]

/-- The paths to the kernel's tables. -/
def kernelLab : ℕ → Option (List (Fin 512))
  | 1 => some []
  | 2 => some [511]
  | 3 => some [511, 510]
  | 4 => some [511, 510, 0]
  | _ => none

theorem oneKernelPage_typed : Typed pathScheme oneKernelPage kernelLab where
  labelled := by
    intro f l i l' g hf hl hg
    have ht := oneKernelPage_next hg
    unfold kernelTable at ht
    split at ht
    · cases ht
      cases hf
      exact hl
    · cases ht
      cases hf
      exact hl
    · cases ht
      cases hf
      exact hl
    · cases hf
      cases hl
    · cases ht
  used f l hf := by
    unfold kernelLab at hf
    split at hf
    · decide
    · decide
    · decide
    · decide
    · cases hf

theorem oneKernelPage_wellFormed : WellFormed oneKernelPage 1 :=
  oneKernelPage_typed.wellFormed rfl fun _ f i _ _ => oneKernelPage_pat f i

theorem oneKernelPage_inUse : InUse oneKernelPage {1} := by
  have htable : ∀ p f, Reaches oneKernelPage 1 p f →
      oneKernelPage.pmm.bitmapTest f = true ∧ f ≠ 0 := by
    intro p f h
    refine ⟨oneKernelPage_wellFormed.used p f h, ?_⟩
    rintro rfl
    cases oneKernelPage_typed.reaches rfl h
  refine ⟨fun r hr => ?_, fun r hr i _ is f hlen hd => ?_⟩
  · obtain rfl := Set.mem_singleton_iff.1 hr
    exact htable [] 1 ⟨by decide, rfl⟩
  · obtain rfl := Set.mem_singleton_iff.1 hr
    exact htable (i :: is) f ⟨by rw [List.length_cons]; omega, hd⟩

theorem oneKernelPage_walk_us {v : ℕ} {e : Pte} (h : oneKernelPage.walk 1 v = some e) :
    e.us = false := by
  rw [Mem.walk, find_snoc] at h
  obtain ⟨f, -, hleaf⟩ := Option.bind_eq_some_iff.1 h
  unfold Mem.leaf at hleaf
  split_ifs at hleaf
  cases hleaf
  exact oneKernelPage_us ..

end Hvos.Process
