import Hvos.Memory.TwinMaps
import Hvos.Process.Elf

/-!
# Process/Loader — what the parts of `load_elf_binary` do

The upper half that is copied, the PML4 that is made, one page of a segment, and the loop over them.
`loadSegments_ensures` is the rule for that loop: an invariant of segment `j` and page `i` that
every page keeps holds at the end.
-/

namespace Hvos.Process

open Memory Bytes Radix Prog

variable {L : Type} {S : Scheme L (Fin 512)} {s s' : Mem} {lab lab' : ℕ → Option L}
  {elf : ElfFile} {pml4 : ℕ} {ph : ProgramHeader}

/-! ## The upper half -/

/-- The first `n` entries of the upper half. -/
theorem copyHalf_spec (src dst : ℕ) (s : Mem) {n : ℕ} (hn : n ≤ 256) :
    ∃ s', (List.range n).foldl (fun s i =>
        s.setEntry dst (Fin.ofNat 512 (256 + i)) (s.entry src (Fin.ofNat 512 (256 + i)))) s = s' ∧
      s'.pmm = s.pmm ∧ SameGlobals s s' ∧ (∀ f, f ≠ dst → s'.phys f = s.phys f) ∧
      ∀ f j, s'.entry f j = if f = dst ∧ 256 ≤ j.val ∧ j.val < 256 + n then s.entry src j
        else s.entry f j := by
  induction n with
  | zero =>
    refine ⟨s, rfl, rfl, .refl s, fun _ _ => rfl, fun f j => ?_⟩
    rw [if_neg (by omega)]
  | succ n ih =>
    obtain ⟨t, ht, hpmm, hglob, hphys, hentry⟩ := ih (by omega)
    rw [List.range_succ, List.foldl_append, ht]
    have hval : (Fin.ofNat 512 (256 + n)).val = 256 + n := Nat.mod_eq_of_lt (by omega)
    refine ⟨_, rfl, hpmm, hglob.trans ⟨rfl, rfl, rfl, rfl⟩, fun f hf => ?_, fun f j => ?_⟩
    · exact (Mem.setEntry_phys_of_ne t _ hf).trans (hphys f hf)
    · by_cases hhere : f = dst ∧ j = Fin.ofNat 512 (256 + n)
      · obtain ⟨rfl, rfl⟩ := hhere
        rw [List.foldl_cons, List.foldl_nil, Mem.entry_setEntry_self, hentry src, hval,
          if_neg (by omega), if_pos (by omega)]
      · rw [List.foldl_cons, List.foldl_nil, Mem.entry_setEntry_of_ne t _ hhere, hentry f]
        have hj : f = dst → j.val ≠ 256 + n := fun hf heq =>
          hhere ⟨hf, Fin.ext (heq.trans hval.symm)⟩
        by_cases hin : f = dst ∧ 256 ≤ j.val ∧ j.val < 256 + n
        · rw [if_pos hin, if_pos (by omega)]
        · rw [if_neg hin, if_neg (by
            rintro ⟨hf, hge, hlt⟩
            have hne := hj hf
            exact hin ⟨hf, hge, by omega⟩)]

variable {f r : ℕ}

section CopyHalf

variable (src dst : ℕ) (s : Mem)

/-- **The upper half of `dst` is that of `src`**, and no other entry changes. -/
theorem copyHalf_entry (f : ℕ) (j : Fin 512) : (copyHalf src dst s).entry f j =
      if f = dst ∧ 256 ≤ j.val then s.entry src j else s.entry f j := by
  obtain ⟨t, ht, -, -, -, hentry⟩ := copyHalf_spec src dst s (Nat.le_refl 256)
  rw [copyHalf, ht, hentry]
  have hlt : j.val < 256 + 256 := j.isLt
  simp only [hlt, and_true]

theorem copyHalf_phys (hf : f ≠ dst) : (copyHalf src dst s).phys f = s.phys f := by
  obtain ⟨t, ht, -, -, hphys, -⟩ := copyHalf_spec src dst s (Nat.le_refl 256)
  rw [copyHalf, ht, hphys f hf]

theorem copyHalf_pmm : (copyHalf src dst s).pmm = s.pmm := by
  obtain ⟨t, ht, hpmm, -⟩ := copyHalf_spec src dst s (Nat.le_refl 256)
  rw [copyHalf, ht, hpmm]

theorem copyHalf_globals : SameGlobals s (copyHalf src dst s) := by
  obtain ⟨t, ht, -, hglob, -⟩ := copyHalf_spec src dst s (Nat.le_refl 256)
  rw [copyHalf, ht]
  exact hglob

end CopyHalf

/-! ## The new PML4 -/

/-- Memory with a new PML4 in frame `r`. -/
def withPml4 (s : Mem) (pmm : Pmm) (r : ℕ) : Mem :=
  copyHalf s.kernelPml4 r ({ s with pmm := pmm }.setFrame r Page.zero)

theorem newPml4_none (ha : s.pmm.pmmAlloc = none) : newPml4 s = .done 0 (withPml4 s s.pmm 0) := by
  simp [newPml4, pmmAlloc, ha, withPml4]

theorem newPml4_some {pmm : Pmm} (ha : s.pmm.pmmAlloc = some (r, pmm)) :
    newPml4 s = .done r (withPml4 s pmm r) := by
  simp [newPml4, pmmAlloc, ha, withPml4]

section WithPml4

variable {pmm : Pmm} {r : ℕ}

theorem withPml4_phys (hf : f ≠ r) : (withPml4 s pmm r).phys f = s.phys f := by
  rw [withPml4, copyHalf_phys _ _ _ hf, Mem.setFrame_phys_of_ne _ _ hf]

theorem withPml4_pmm : (withPml4 s pmm r).pmm = pmm := by
  rw [withPml4, copyHalf_pmm]
  rfl

theorem withPml4_globals : SameGlobals s (withPml4 s pmm r) := by
  have hzero : SameGlobals s ({ s with pmm := pmm }.setFrame r Page.zero) := ⟨rfl, rfl, rfl, rfl⟩
  exact hzero.trans (copyHalf_globals ..)

/-- The lower half is empty. -/
theorem withPml4_entry_low {j : Fin 512} (hj : j.val < 256) :
    (withPml4 s pmm r).entry r j = .ofRaw 0 := by
  rw [withPml4, copyHalf_entry, if_neg (by omega), Mem.entry, Mem.setFrame_phys_self,
    Page.entry_zero]

/-- The upper half is the kernel's. -/
theorem withPml4_entry_high {j : Fin 512} (hj : 256 ≤ j.val) (hk : s.kernelPml4 ≠ r) :
    (withPml4 s pmm r).entry r j = s.entry s.kernelPml4 j := by
  rw [withPml4, copyHalf_entry, if_pos ⟨rfl, hj⟩, Mem.entry, Mem.setFrame_phys_of_ne _ _ hk,
    Mem.entry]

end WithPml4

/-! ## Labels for the slots that are not shared -/

/-- The tables below a PML4, in its slots `own`, labelled with their paths. -/
def ownScheme (own : Fin 512 → Bool) : Scheme (List (Fin 512)) (Fin 512) where
  child p i := if p.length < 3 ∧ (p = [] → own i = true) then some (p ++ [i]) else none
  level p := 4 - p.length
  level_child := by
    intro p i p' h
    split_ifs at h with hlt
    cases h
    simp only [List.length_append, List.length_singleton]
    omega

section OwnScheme

variable {own : Fin 512 → Bool} {v : ℕ}

theorem ownScheme_along (h : own (pml4Index v) = true) :
    (ownScheme own).along [] (upperPath v) = some (upperPath v) := by
  simp [Scheme.along, upperPath, ownScheme, h]

theorem ownScheme_leaf (i : Fin 512) : (ownScheme own).child (upperPath v) i = none := by
  simp [upperPath, ownScheme]

/-- The PML4 in frame `r`, and no other table. -/
def rootLab (r : ℕ) : ℕ → Option (List (Fin 512)) := fun f => if f = r then some [] else none

theorem rootLab_eq_some {p : List (Fin 512)} : rootLab r f = some p ↔ f = r ∧ p = [] := by
  unfold rootLab
  by_cases hf : f = r
  · simp [hf, eq_comm]
  · simp [hf]

/-- A PML4 alone is labelled, while its own slots are empty. -/
theorem typed_root (hr : s.pmm.bitmapTest r = true) (hown : ∀ j, own j = true → s.next r j = none) :
    Typed (ownScheme own) s (rootLab r) where
  labelled := by
    intro f p i p' g hf hp hg
    obtain ⟨rfl, rfl⟩ := rootLab_eq_some.1 hf
    simp only [ownScheme] at hp
    split_ifs at hp with hcond
    rw [hown i (hcond.2 trivial)] at hg
    cases hg
  used f p hf := by
    obtain ⟨rfl, -⟩ := rootLab_eq_some.1 hf
    exact hr

end OwnScheme

/-! ## One page -/

/-- **One page of a segment**: the new frame is filled over what it held and mapped below the PML4,
or there was none left and the loader returns 0, or `map_page` halts.  Frames that stay free keep
what they hold. -/
theorem loadPage_over {i : ℕ} {l l1 : L} (hT : Typed S s lab) (hroot : lab pml4 = some l)
    (hal : S.along l (upperPath (ph.pageVaddr i)) = some l1)
    (hone : S.level l1 = 1) (hn : s.pmm.Narrow 4) : Ensures (loadPage elf pml4 ph i) s
      (Either (fun r s' => r = 0 ∧ s' = s ∧ s.pmm.pmmAlloc = none)
        fun s' => ∃ lab' g, Placed S s s' lab lab' pml4 (ph.pageVaddr i) g true l1 ∧
          s'.phys g = fillPage elf ph (4096 * i) (s.phys g) ∧
          ∀ h, s'.pmm.Free h → s'.phys h = s.phys h)
      (fun s' => Stuck S s s' lab) := by
  refine ensures_bind (ensures_pmmAlloc (fun hnone => ?_) fun g pmm ha => ?_)
  · exact ensures_pure ⟨rfl, rfl, hnone⟩
  · refine ensures_bind (((mapFresh_spec 7 hT ha hroot hal hone hn).and
      (mapFresh_idle 7 hT ha hroot hal hone hn)).mono ?_ fun _ => And.left)
    rintro - s' ⟨⟨lab', hplaced⟩, hidle⟩
    have hfill := hplaced.fill hroot hal hone (fillPage elf ph (4096 * i) (s'.phys g))
    refine ensures_modify_bind (ensures_pure ⟨lab', g, hfill, ?_, fun h hfree => ?_⟩)
    · rw [Mem.setFrame_phys_self, hidle g (.inl rfl)]
    · have hne : h ≠ g := by
        rintro rfl
        have hclear : s'.pmm.bitmapTest h = false := hfree.2.2
        rw [hplaced.taken] at hclear
        cases hclear
      rw [Mem.setFrame_phys_of_ne _ _ hne]
      exact hidle h (.inr hfree)

/-- What the frame held does not matter to most. -/
theorem loadPage_spec {i : ℕ} {l l1 : L} (hT : Typed S s lab) (hroot : lab pml4 = some l)
    (hal : S.along l (upperPath (ph.pageVaddr i)) = some l1)
    (hone : S.level l1 = 1) (hn : s.pmm.Narrow 4) : Ensures (loadPage elf pml4 ph i) s
      (Either (fun r s' => r = 0 ∧ s' = s ∧ s.pmm.pmmAlloc = none)
        fun s' => ∃ lab' g, Placed S s s' lab lab' pml4 (ph.pageVaddr i) g true l1 ∧
          ∃ pg, s'.phys g = fillPage elf ph (4096 * i) pg)
      (fun s' => Stuck S s s' lab) := by
  refine (loadPage_over hT hroot hal hone hn).imp fun r s' hr => ?_
  cases r with
  | some r => exact hr
  | none =>
    obtain ⟨lab', g, hplaced, hphys, -⟩ := hr
    exact ⟨lab', g, hplaced, s.phys g, hphys⟩

/-! ## The loops -/

/-- **The loops of `load_elf_binary`**, for `n` segments: `I j i` holds before page `i` of segment
`j`. -/
theorem loadSegments_ensures {I : ℕ → ℕ → Mem → Prop} {E : ℕ → Mem → Prop} {H : Mem → Prop} {n : ℕ}
    (hpage : ∀ j i s, j < n → (elf.pheader j).pType = ptLoad →
      i < (elf.pheader j).pageCount → I j i s →
        Ensures (loadPage elf pml4 (elf.pheader j) i) s (Either E (I j (i + 1))) H)
    (hskip : ∀ j s, j < n → (elf.pheader j).pType ≠ ptLoad → I j 0 s → I (j + 1) 0 s)
    (hnext : ∀ j s, j < n → (elf.pheader j).pType = ptLoad →
      I j (elf.pheader j).pageCount s → I (j + 1) 0 s) (h0 : I 0 0 s) :
    Ensures (forRange n fun j => loadSegment elf pml4 (elf.pheader j)) s (Either E (I n 0)) H := by
  refine ensures_forRange (fun j => I j 0) (fun j s hj hI => ?_) h0
  unfold loadSegment
  by_cases htype : (elf.pheader j).pType = ptLoad
  · rw [if_neg (not_not.2 htype)]
    refine (ensures_forRange (I j) (fun i s hi => hpage j i s hj htype hi) hI).imp ?_
    intro r s' hr
    cases r with
    | some r => exact hr
    | none => exact hnext j s' hj htype hr
  · rw [if_pos htype]
    exact ensures_pure (hskip j s hj htype hI)

/-- Without a frame left the loops do nothing. -/
theorem loadSegments_none (ha : s.pmm.pmmAlloc = none) :
    Ensures (forRange elf.ePhnum fun j => loadSegment elf pml4 (elf.pheader j)) s
      (fun _ s' => s' = s) (fun _ => False) := by
  refine (loadSegments_ensures (I := fun _ _ t => t = s) (E := fun _ t => t = s) ?_
    (fun _ _ _ _ => id) (fun _ _ _ _ => id) rfl).imp fun r s' hr => ?_
  · rintro j i _ - - - rfl
    refine ensures_bind (ensures_pmmAlloc (fun _ => ensures_pure rfl) fun g pmm hsome => ?_)
    rw [ha] at hsome
    cases hsome
  · cases r <;> exact hr

end Hvos.Process
