import Hvos.Process.Owners

/-!
# Process/TwinSpaces — address spaces in two runs at once

Two runs, from the system `a` and from `a` with a memory `b` that differs in free frames only, stay
together: they take the same frames for the same purposes, and their tables are the same.  `Paired`
says so of the states the two have reached, and what has become of each process that is watched: a
page in its lower half still holds what its frame held at the start, or the process was there at the
start and maps what it mapped then.
-/

namespace Hvos.Process

open Memory Radix Prog Function

variable {a : Sys} {s0 b s t s' t' : Mem} {lab0 lab lab' : ℕ → Option Label} {roots : List ℕ}
  {watched : Set ℕ} {most r v g : ℕ} {pmm : Pmm}

/-! ## Two states -/

/-- The PML4s of the processes. -/
def Sys.spaces (st : Sys) : Set ℕ := { r | ∃ p ∈ st.procs, p.cr3 = r }

/-- A page of the process was free at the start and still holds what it held then. -/
def Raw (a : Sys) (b s t : Mem) (r : ℕ) : Prop :=
  ∃ v e, (pml4Index v).val < 256 ∧ s.walk r v = some e ∧ a.mem.pmm.Free e.address.val ∧
    s.phys e.address.val = a.mem.phys e.address.val ∧ t.phys e.address.val = b.phys e.address.val

/-- The process was there at the start, and maps what it mapped then. -/
def Settled (a : Sys) (s : Mem) (r : ℕ) : Prop :=
  r ∈ a.spaces ∧ ∀ v, (pml4Index v).val < 256 → s.walk r v = a.mem.walk r v

/-- **Two runs from `a`, and from `a` with memory `b`,** have come to `s` and `t`. -/
structure Paired (s0 : Mem) (a : Sys) (b : Mem) (most : ℕ) (roots : List ℕ) (watched : Set ℕ)
    (lab : ℕ → Option Label) (s t : Mem) : Prop where
  owned : Owned s0 s lab roots
  alike : Alike ownerScheme lab s t
  equal : ∀ f, ¬a.mem.pmm.Free f → t.phys f = s.phys f
  free : ∀ f, s.pmm.Free f →
    a.mem.pmm.Free f ∧ s.phys f = a.mem.phys f ∧ t.phys f = b.phys f
  few : s.pmm.freeCount ≤ most
  status : ∀ r ∈ watched, r ∈ roots ∧ (Raw a b s t r ∨ Settled a s r)
  halves : ∀ r ∈ roots, a.mem.pmm.bitmapTest r = true → ∀ i : Fin 512, 256 ≤ i.val →
    s.entry r i = a.mem.entry r i
  kernel : ∀ (i : Fin 512) x,
    a.mem.next s0.kernelPml4 i = some x → s.next s0.kernelPml4 i = some x

/-- **What a step must not touch**: frames that stay free, pages, the walks of those watched, upper
halves, and what the kernel's PML4 already has. -/
structure Advance (s0 : Mem) (roots : List ℕ) (watched : Set ℕ) (lab : ℕ → Option Label)
    (s t s' t' : Mem) : Prop where
  equal : ∀ f, t.phys f = s.phys f → t'.phys f = s'.phys f
  free : ∀ f, s'.pmm.Free f → s.pmm.Free f ∧ s'.phys f = s.phys f ∧ t'.phys f = t.phys f
  pages : ∀ r ∈ watched, ∀ f, lab f = some (some r, 0) →
    s'.phys f = s.phys f ∧ t'.phys f = t.phys f
  walks : ∀ r ∈ watched, ∀ v, (pml4Index v).val < 256 → s'.walk r v = s.walk r v
  halves : ∀ r ∈ roots, ∀ i : Fin 512, 256 ≤ i.val → s'.entry r i = s.entry r i
  kernel : ∀ (i : Fin 512) x, s.next s0.kernelPml4 i = some x → s'.next s0.kernelPml4 i = some x
  few : s'.pmm.freeCount ≤ s.pmm.freeCount

/-- A walk through a lower half ends in a page of its process. -/
theorem Owned.walk_low (h : Owned s0 s lab roots) (hr : r ∈ roots) (hv : (pml4Index v).val < 256)
    {e : Pte} (hwalk : s.walk r v = some e) : lab e.address.val = some (some r, 0) :=
  h.walk (h.root r hr) (ownerScheme_user r hv) hwalk

/-- Such a walk reads the tables of its process only. -/
theorem Owned.walk_congr (h : Owned s0 s lab roots)
    (hentry : ∀ f l, lab f = some l → 0 < ownerScheme.level l → s'.entry f = s.entry f)
    (hr : r ∈ roots) (hv : (pml4Index v).val < 256) : s'.walk r v = s.walk r v := by
  refine h.typed.labelled.find_congr (fun f l hf hl => funext fun i => ?_)
    (fun f l hf hl => funext fun i => ?_) _ (h.root r hr)
    (ownerScheme_upper (ownerScheme_user r hv)) (show 0 < 1 by decide)
  · rw [Mem.next, hentry f l hf hl, Mem.next]
  · rw [Mem.leaf, hentry f l hf hl, Mem.leaf]

section

variable (h : Paired s0 a b most roots watched lab s t)
include h

theorem Paired.advance (hadv : Advance s0 roots watched lab s t s' t')
    (howned : Owned s0 s' lab' roots) (halike : Alike ownerScheme lab' s' t') :
    Paired s0 a b most roots watched lab' s' t' where
  owned := howned
  alike := halike
  equal f hf := hadv.equal f (h.equal f hf)
  free f hf := by
    obtain ⟨hfree, hs, ht⟩ := hadv.free f hf
    obtain ⟨hstart, hs', ht'⟩ := h.free f hfree
    exact ⟨hstart, hs.trans hs', ht.trans ht'⟩
  few := Nat.le_trans hadv.few h.few
  status r hr := by
    obtain ⟨hin, hstatus⟩ := h.status r hr
    refine ⟨hin, hstatus.imp ?_ fun hsettled => ⟨hsettled.1, fun v hv => ?_⟩⟩
    · rintro ⟨v, e, hv, hwalk, hfree, hs, ht⟩
      obtain ⟨hs', ht'⟩ := hadv.pages r hr _ (h.owned.walk_low hin hv hwalk)
      exact ⟨v, e, hv, (hadv.walks r hr v hv).trans hwalk, hfree, hs'.trans hs, ht'.trans ht⟩
    · exact (hadv.walks r hr v hv).trans (hsettled.2 v hv)
  halves r hr hused i hi := (hadv.halves r hr i hi).trans (h.halves r hr hused i hi)
  kernel i x hx := hadv.kernel i x (h.kernel i x hx)

/-- Less may be watched. -/
theorem Paired.mono {watched' : Set ℕ} (hsub : watched' ⊆ watched) :
    Paired s0 a b most roots watched' lab s t :=
  ⟨h.owned, h.alike, h.equal, h.free, h.few, fun r hr => h.status r (hsub hr), h.halves, h.kernel⟩

/-- A process with such a page may be watched. -/
theorem Paired.watch (hr : r ∈ roots) (hraw : Raw a b s t r) :
    Paired s0 a b most roots (insert r watched) lab s t := by
  refine ⟨h.owned, h.alike, h.equal, h.free, h.few, fun r' hr' => ?_, h.halves, h.kernel⟩
  rcases Set.mem_insert_iff.1 hr' with rfl | hr'
  · exact ⟨hr, .inl hraw⟩
  · exact h.status r' hr'

end

/-! ## Pages -/

/-- The slots of a lower half, and those of no upper half. -/
def lowerScheme : Scheme Label (Fin 512) where
  child l i := if l.2 = 4 ∧ 256 ≤ i.val then none else ownerScheme.child l i
  level l := l.2
  level_child := by
    intro l i l' h
    split_ifs at h
    exact ownerScheme.level_child h

theorem Owned.typed_lower (h : Owned s0 s lab roots) : Typed lowerScheme s lab where
  labelled f l i l' g hf hl hg := by
    simp only [lowerScheme] at hl
    split_ifs at hl
    exact h.typed.labelled f l i l' g hf hl hg
  used := h.typed.used

theorem lowerScheme_upper (hv : (pml4Index v).val < 256) :
    lowerScheme.along (some r, 4) (upperPath v) = some (some r, 1) := by
  have hfirst : lowerScheme.child (some r, 4) (pml4Index v) = some (some r, 3) := by
    simp [lowerScheme, Nat.not_le.2 hv, ownerScheme_user r hv]
  have hinner : ∀ k i, k < 3 → lowerScheme.child (some r, k + 1) i = some (some r, k) := by
    intro k i hk
    simp only [lowerScheme]
    rw [if_neg (by omega), ownerScheme_inner (some r) i hk]
  simp [upperPath, Scheme.along, hfirst, hinner 2 _ (by decide), hinner 1 _ (by decide)]

/-- **A page mapped in a lower half** leaves the upper half of every PML4 as it is. -/
theorem Owned.mapFresh_halves (h : Owned s0 s lab roots) (flags : ℕ)
    (ha : s.pmm.pmmAlloc = some (g, pmm)) (hr : r ∈ roots) (hv : (pml4Index v).val < 256) :
    Ensures (mapPage r v (g * 4096) flags) { s with pmm := pmm }
      (fun _ s' => ∀ f o (i : Fin 512), lab f = some (o, 4) → 256 ≤ i.val →
        s'.entry f i = s.entry f i)
      (fun s' => ∀ f o (i : Fin 512), lab f = some (o, 4) → 256 ≤ i.val →
        s'.entry f i = s.entry f i) := by
  have hextends : ∀ s' lab', Extends lowerScheme s s' lab lab' → ∀ f o (i : Fin 512),
      lab f = some (o, 4) → 256 ≤ i.val → s'.entry f i = s.entry f i := by
    intro s' lab' hext f o i hf hi
    exact hext.foreign f _ i hf (show 2 ≤ 4 by decide) (by simp [lowerScheme, hi])
  refine (mapFresh_spec flags h.typed_lower ha (h.root r hr) (lowerScheme_upper hv) rfl
    (h.narrow 4)).mono ?_ ?_
  · rintro - s' ⟨lab', hplaced⟩
    exact hextends s' lab' hplaced.toExtends
  · rintro s' hstuck
    obtain ⟨lab', hext⟩ := hstuck.extended
    exact hextends s' lab' hext

variable {o : Option ℕ}

/-- A frame without a label, or with that of a page, is none that `map_page` may write. -/
theorem not_below {root f : ℕ} (hroot : lab root = some (o, 4))
    (hf : ∀ l, lab f = some l → l.2 = 0) : ¬Below ownerScheme lab root (o, 4) f := by
  rintro (rfl | ⟨l, hl, hpos, -⟩)
  · exact absurd (hf _ hroot) (by simp)
  · have hzero := hf l hl
    change 0 < l.2 at hpos
    omega

/-- **A fresh page**: what `map_page` does in the two memories. -/
theorem Owned.advance (h : Owned s0 s lab roots) {root : ℕ} (ha : s.pmm.pmmAlloc = some (g, pmm))
    (hroot : lab root = some (o, 4)) (hext : Extends ownerScheme s s' lab lab')
    (hab : Abreast (Below ownerScheme lab root (o, 4)) { s with pmm := pmm } { t with pmm := pmm }
      s' t') (hwalks : ∀ r ∈ watched, ∀ v, (pml4Index v).val < 256 → s'.walk r v = s.walk r v)
    (hhalves : ∀ r ∈ roots, ∀ i : Fin 512, 256 ≤ i.val → s'.entry r i = s.entry r i) :
    Advance s0 roots watched lab s t s' t' where
  equal f hf := hab.equal f hf
  free f hf := by
    refine ⟨hext.free hf, hab.idle f (not_below hroot fun l hl => ?_) (.inr hf.2.2)⟩
    have hclear := hf.2.2
    rw [hext.used f (h.typed.used f l hl)] at hclear
    cases hclear
  pages r _ f hf := by
    refine hab.idle f (not_below hroot fun l hl => ?_) (.inl ?_)
    · obtain rfl := Option.mem_unique hf hl
      rfl
    · show pmm.bitmapTest f = true
      rw [(Pmm.pmmAlloc_eq_some ha).2.2.2.2, h.typed.used f _ hf, Bool.true_or]
  walks := hwalks
  halves := hhalves
  kernel i x hx := by
    have hk := h.kernelRoot
    rw [h.kernel] at hk
    exact hext.kids _ _ i x hk (show 2 ≤ 4 by decide) hx
  few := Extends.freeCount_le hext

/-- Walks through the lower half of another process stay. -/
theorem Placed.walk_other {root : ℕ} {user : Bool} (h : Owned s0 s lab roots)
    (hplaced : Placed ownerScheme s s' lab lab' root v g user (o, 1)) {r' v' : ℕ} (hr' : r' ∈ roots)
    (hne : o ≠ some r') (hv' : (pml4Index v').val < 256) : s'.walk r' v' = s.walk r' v' :=
  hplaced.other (ptIndex v') (h.root r' hr') (ownerScheme_upper (ownerScheme_user r' hv')) rfl
    (.inl fun heq => hne (Prod.mk.inj heq).1.symm)

/-- …and all of them if `map_page` halts. -/
theorem Stuck.walk (h : Owned s0 s lab roots) (hstuck : Stuck ownerScheme s s' lab) {r' v' : ℕ}
    (hr' : r' ∈ roots) (hv' : (pml4Index v').val < 256) : s'.walk r' v' = s.walk r' v' :=
  hstuck.lookups (ptIndex v') (h.root r' hr') (ownerScheme_upper (ownerScheme_user r' hv')) rfl

/-- The two states are paired, by labels that extend `lab0`. -/
def Together (s0 : Mem) (a : Sys) (b : Mem) (most : ℕ) (roots : List ℕ) (watched : Set ℕ)
    (lab0 : ℕ → Option Label) (s t : Mem) : Prop :=
  ∃ lab, Paired s0 a b most roots watched lab s t ∧ ∀ f l, lab0 f = some l → lab f = some l

/-- **A fresh page in a lower half**, which holds in both memories what it held at the start. -/
theorem Paired.mapUser (h : Paired s0 a b most roots watched lab s t) (flags : ℕ)
    (ha : s.pmm.pmmAlloc = some (g, pmm)) (hr : r ∈ roots) (hv : (pml4Index v).val < 256) :
    Twin (mapPage r v (g * 4096) flags) { s with pmm := pmm } { t with pmm := pmm }
      (fun _ s' t' => ∃ lab', Paired s0 a b most roots (watched \ {r}) lab' s' t' ∧
        (∀ f l, lab f = some l → lab' f = some l) ∧ lab' g = some (some r, 0) ∧
        s'.pmm.freeCount < s.pmm.freeCount ∧ (∃ e, s'.walk r v = some e ∧ e.address.val = g) ∧
        a.mem.pmm.Free g ∧ s'.phys g = a.mem.phys g ∧ t'.phys g = b.phys g)
      (Together s0 a b most roots watched lab) := by
  have howned := h.owned
  have hroot := howned.root r hr
  have hslot := ownerScheme_upper (ownerScheme_user r hv)
  have hnone := howned.typed.fresh_of_pmmAlloc ha
  obtain ⟨hfree, hs, ht⟩ := h.free g (Pmm.pmmAlloc_eq_some ha).1
  refine (((mapFresh_twin flags howned.typed h.alike ha hroot hslot rfl (howned.narrow 4)).and
    (howned.mapFresh_halves flags ha hr hv)).mono ?_ ?_)
  · rintro - s' t' ⟨⟨lab', hplaced, halike, hab⟩, hhalves⟩
    have hext := hplaced.toExtends
    have hadv : Advance s0 roots (watched \ {r}) lab s t s' t' := by
      refine howned.advance ha hroot hext hab (fun r' hr' v' hv' => ?_)
        fun r' hr' i hi => hhalves r' _ i (howned.root r' hr') hi
      obtain ⟨hin, hne⟩ := hr'
      refine Placed.walk_other howned hplaced (h.status r' hin).1 ?_ hv'
      rintro ⟨⟩
      exact hne rfl
    have hidle := hab.idle g (not_below hroot fun l hl => by simp [hnone] at hl) (.inl (by
      show pmm.bitmapTest g = true
      rw [(Pmm.pmmAlloc_eq_some ha).2.2.2.2]
      simp))
    obtain ⟨e, hwalk, haddr, -⟩ := hplaced.leaf
    refine ⟨lab', (h.mono Set.sdiff_subset).advance hadv (howned.extend hext) halike, hext.keep, ?_,
      ?_, ⟨e, hwalk, haddr⟩, hfree, hidle.1.trans hs, hidle.2.trans ht⟩
    · rw [hplaced.data]
      exact ownerScheme_inner (some r) _ (by decide)
    · exact Pmm.freeCount_lt hplaced.totalPages hplaced.used hplaced.free hplaced.taken
  · rintro s' t' ⟨⟨hstuck, lab', hext, halike, hab⟩, hhalves⟩
    refine ⟨lab', h.advance ?_ (howned.extend hext) halike, hext.keep⟩
    exact howned.advance ha hroot hext hab
      (fun r' hr' v' hv' => Stuck.walk howned hstuck (h.status r' hr').1 hv')
      fun r' hr' i hi => hhalves r' _ i (howned.root r' hr') hi

theorem Paired.together (h : Paired s0 a b most roots watched lab s t) :
    Together s0 a b most roots watched lab s t := ⟨lab, h, fun _ _ => id⟩

/-- Labels that extend labels that extend. -/
theorem Together.from (h : Together s0 a b most roots watched lab' s t)
    (hkeep : ∀ f l, lab0 f = some l → lab' f = some l) :
    Together s0 a b most roots watched lab0 s t := by
  obtain ⟨lab, h, hlab⟩ := h
  exact ⟨lab, h, fun f l hl => hlab f l (hkeep f l hl)⟩

section

variable (h : Together s0 a b most roots watched lab0 s t)
include h

theorem Together.beside : Beside s t := by
  obtain ⟨lab, h, -⟩ := h
  exact h.alike.beside

theorem Together.mono {watched' : Set ℕ} (hsub : watched' ⊆ watched) :
    Together s0 a b most roots watched' lab0 s t := by
  obtain ⟨lab, h, hlab⟩ := h
  exact ⟨lab, h.mono hsub, hlab⟩

/-- **A page for a process** is not cleared. -/
theorem Together.mapUserPage (hr : r ∈ roots) (hv : 0 < s.pmm.freeCount → (pml4Index v).val < 256) :
    Twin (mapUserPage r v) s t
      (EitherTwin (fun _ => Together s0 a b most roots watched lab0)
        fun s' t' => Together s0 a b most roots (insert r watched) lab0 s' t' ∧
          s'.pmm.freeCount < s.pmm.freeCount)
      (Together s0 a b most roots watched lab0) := by
  refine twin_bind (twin_pmmAlloc h.beside (fun _ => twin_pure h) fun g pmm ha => ?_)
  obtain ⟨lab, h, hlab⟩ := h
  have hslot := hv (Pmm.pmmAlloc_eq_some ha).1.freeCount_pos
  refine twin_bind ((h.mapUser 7 ha hr hslot).mono ?_ fun _ _ h' => h'.from hlab)
  rintro - s' t' ⟨lab', h', hkeep, -, hlt, ⟨e, hwalk, rfl⟩, hfree, hs, ht⟩
  have hwatch := h'.watch hr ⟨v, e, hslot, hwalk, hfree, hs, ht⟩
  rw [Set.insert_sdiff_singleton] at hwatch
  exact twin_pure ⟨⟨lab', hwatch, fun f l hl => hkeep f l (hlab f l hl)⟩, hlt⟩

end

/-- **A page that is not watched may be written.** -/
theorem Paired.setPage (h : Paired s0 a b most roots watched lab s t) (hg : lab g = some (o, 0))
    (ho : ∀ r ∈ watched, o ≠ some r) {pg pg' : Page} (hpg : t.phys g = s.phys g → pg' = pg) :
    Paired s0 a b most roots watched lab (s.setFrame g pg) (t.setFrame g pg') := by
  have howned := h.owned
  have hab := Abreast.setFrame h.alike.beside hpg
  have hpage : ∀ l, lab g = some l → ownerScheme.level l = 0 := fun l hl => by
    obtain rfl := Option.mem_unique hg hl
    rfl
  have htable := fun {f l} =>
    Mem.setFrame_tables (s := s) (S := ownerScheme) (f := f) (l := l) pg hpage
  have hidle : ∀ f, f ≠ g →
      (s.setFrame g pg).phys f = s.phys f ∧ (t.setFrame g pg').phys f = t.phys f :=
    fun f hf => ⟨Mem.setFrame_phys_of_ne _ _ hf, Mem.setFrame_phys_of_ne _ _ hf⟩
  refine h.advance ?_ (howned.setFrame hg pg) ⟨hab.beside, fun f l hf hl => ?_⟩
  · refine ⟨hab.equal, fun f hf => ?_, fun r hr f hf => hidle f ?_, fun r hr v hv => ?_,
      fun r hr i hi => ?_, fun i x hx => ?_, Nat.le_refl _⟩
    · refine ⟨hf, hidle f ?_⟩
      rintro rfl
      exact howned.typed.not_free hg hf
    · rintro rfl
      exact ho r hr (Prod.mk.inj (Option.mem_unique hg hf)).1
    · exact howned.walk_congr (fun f l hf hl => (htable hf hl).1) (h.status r hr).1 hv
    · rw [(htable (howned.root r hr) (show 0 < 4 by decide)).1]
    · have hk := howned.kernelRoot
      rw [howned.kernel] at hk
      rw [(htable hk (show 0 < 4 by decide)).2.1]
      exact hx
  · exact hab.equal f (h.alike.tables f l hf hl)

/-! ## Segments -/

variable {elf : ElfFile}

/-- **A page of a segment** of a process that is not watched. -/
theorem Together.loadPage (h : Together s0 a b most roots watched lab0 s t) {ph : ProgramHeader}
    {i : ℕ} (hr : r ∈ roots) (hnew : r ∉ watched) (hph : ph.pVaddr + ph.pMemsz ≤ 2 ^ 47)
    (hi : i < ph.pageCount) : Twin (loadPage elf r ph i) s t
      (EitherTwin (fun res s' t' => res = 0 ∧ Together s0 a b most roots watched lab0 s' t')
        (Together s0 a b most roots watched lab0))
      (Together s0 a b most roots watched lab0) := by
  have hslot := ProgramHeader.pageVaddr_low hph hi
  refine twin_bind (twin_pmmAlloc h.beside (fun _ => twin_pure ⟨rfl, h⟩) fun g pmm ha => ?_)
  obtain ⟨lab, h, hlab⟩ := h
  refine twin_bind ((h.mapUser 7 ha hr hslot).mono ?_ fun _ _ h' => h'.from hlab)
  rintro - s' t' ⟨lab', h', hkeep, hg, -⟩
  rw [Set.sdiff_singleton_eq_self hnew] at h'
  refine twin_bind (twin_modify (twin_pure ⟨lab', h'.setPage hg (fun r' hr' heq => ?_) fun heq => ?_,
    fun f l hl => hkeep f l (hlab f l hl)⟩))
  · cases heq
    exact hnew hr'
  · rw [heq]

variable {H : Mem → Mem → Prop}

/-- **The loops of `load_elf_binary`** keep what every page keeps. -/
theorem loadSegments_twin {P : Mem → Mem → Prop} {E : ℕ → Mem → Mem → Prop} {pml4 : ℕ}
    (hpage : ∀ j i s t, j < elf.ePhnum → (elf.pheader j).pType = ptLoad →
      i < (elf.pheader j).pageCount → P s t →
        Twin (Process.loadPage elf pml4 (elf.pheader j) i) s t (EitherTwin E P) H) (hP : P s t) :
    Twin (forRange elf.ePhnum fun j => loadSegment elf pml4 (elf.pheader j)) s t
      (EitherTwin E P) H := by
  refine twin_forRange (fun _ => P) (fun j s t hj hP => ?_) hP
  unfold loadSegment
  by_cases htype : (elf.pheader j).pType = ptLoad
  · rw [if_neg (not_not.2 htype)]
    exact twin_forRange (fun _ => P) (fun i s t hi hP => hpage j i s t hj htype hi hP) hP
  · rw [if_pos htype]
    exact twin_pure hP

/-! ## The heap -/

theorem Paired.heapOnly (h : Paired s0 a b most roots watched lab s t) (ho : HeapOnly s s') :
    Paired s0 a b most roots watched lab s' { s' with phys := t.phys } := by
  have hphys := ho.phys
  have hentry : s'.entry = s.entry := by
    funext f i
    rw [Mem.entry, hphys, Mem.entry]
  have hnext : s'.next = s.next := by
    funext f i
    rw [Mem.next, hentry, Mem.next]
  have hleaf : s'.leaf = s.leaf := by
    funext f i
    rw [Mem.leaf, hentry, Mem.leaf]
  refine h.advance ⟨fun f hf => ?_, fun f hf => ⟨ho.pmm ▸ hf, by rw [hphys], rfl⟩,
    fun _ _ f _ => ⟨by rw [hphys], rfl⟩, fun r _ v _ => ?_, fun r _ i _ => by rw [hentry],
    fun i x hx => by rwa [hnext], by rw [ho.pmm]⟩ (h.owned.heapOnly ho) ⟨rfl, fun f l hf hl => ?_⟩
  · rw [hphys, ← hf]
  · rw [Mem.walk, hnext, hleaf, Mem.walk]
  · rw [hphys, ← h.alike.tables f l hf hl]

theorem Together.heapOnly (h : Together s0 a b most roots watched lab0 s t) (ho : HeapOnly s s') :
    Together s0 a b most roots watched lab0 s' { s' with phys := t.phys } := by
  obtain ⟨lab, h, hlab⟩ := h
  exact ⟨lab, h.heapOnly ho, hlab⟩

theorem Paired.setLimit (h : Paired s0 a b most roots watched lab s t) {limit : ℕ}
    (hstart : kernelHeapStart ≤ limit) (hroom : limit + 4096 * s.pmm.freeCount ≤ heapTop) :
    Paired s0 a b most roots watched lab { s with heapCurrentLimit := limit }
      { t with heapCurrentLimit := limit } := by
  have hbeside : Beside { s with heapCurrentLimit := limit }
      { t with heapCurrentLimit := limit } := by
    rw [Beside, h.alike.beside]
  exact ⟨h.owned.setLimit hstart hroom, ⟨hbeside, h.alike.tables⟩, h.equal, h.free, h.few, h.status,
    h.halves, h.kernel⟩

/-- **A fresh page of the heap.** -/
theorem Paired.mapHeap (h : Paired s0 a b most roots watched lab s t)
    (ha : s.pmm.pmmAlloc = some (g, pmm)) :
    Twin (mapPage s.kernelPml4 s.heapCurrentLimit (g * 4096) 3) { s with pmm := pmm }
      { t with pmm := pmm }
      (fun _ s' t' => ∃ lab', Paired s0 a b most roots watched lab' s' t' ∧
        (∀ f l, lab f = some l → lab' f = some l) ∧ s'.pmm.freeCount < s.pmm.freeCount ∧
        s'.heapCurrentLimit = s.heapCurrentLimit)
      (Together s0 a b most roots watched lab) := by
  have howned := h.owned
  have hslot := ownerScheme_upper (ownerScheme_heap none
    (howned.heapSlot (Pmm.pmmAlloc_eq_some ha).1.freeCount_pos))
  -- The PML4 of a process is neither the kernel's nor a table below it.
  have hhalves : ∀ {s' t' : Mem}, Abreast (Below ownerScheme lab s.kernelPml4 (none, 4))
      { s with pmm := pmm } { t with pmm := pmm } s' t' →
      ∀ r ∈ roots, ∀ i : Fin 512, 256 ≤ i.val → s'.entry r i = s.entry r i := by
    intro s' t' hab r hr i _
    have hlab := howned.root r hr
    have hidle := hab.idle r (fun hbelow => ?_) (.inl ?_)
    · rw [Mem.entry, hidle.1, Mem.entry]
    · rcases hbelow with rfl | ⟨l, hl, -, hlt⟩
      · rw [howned.kernelRoot] at hlab
        cases hlab
      · obtain rfl := Option.mem_unique hlab hl
        exact absurd hlt (Nat.lt_irrefl 4)
    · show pmm.bitmapTest r = true
      rw [(Pmm.pmmAlloc_eq_some ha).2.2.2.2, howned.typed.used r _ hlab, Bool.true_or]
  refine (mapFresh_twin 3 howned.typed h.alike ha howned.kernelRoot hslot rfl (howned.narrow 4)).mono
    ?_ ?_
  · rintro - s' t' ⟨lab', hplaced, halike, hab⟩
    have hext := hplaced.toExtends
    refine ⟨lab', h.advance ?_ (howned.extend hext) halike, hext.keep, ?_,
      hext.globals.heapCurrentLimit⟩
    · exact howned.advance ha howned.kernelRoot hext hab
        (fun r hr v hv => Placed.walk_other howned hplaced (h.status r hr).1 (fun h => by cases h) hv)
        (hhalves hab)
    · exact Pmm.freeCount_lt hplaced.totalPages hplaced.used hplaced.free hplaced.taken
  · rintro s' t' ⟨hstuck, lab', hext, halike, hab⟩
    refine ⟨lab', h.advance ?_ (howned.extend hext) halike, hext.keep⟩
    exact howned.advance ha howned.kernelRoot hext hab
      (fun r hr v hv => Stuck.walk howned hstuck (h.status r hr).1 hv) (hhalves hab)

section

variable (h : Together s0 a b most roots watched lab0 s t)
include h

theorem Together.expandPage : Twin expandPage s t
      (EitherTwin (fun _ => Together s0 a b most roots watched lab0)
        (Together s0 a b most roots watched lab0))
      (Together s0 a b most roots watched lab0) := by
  have hbeside := h.beside
  refine twin_bind (twin_pmmAlloc hbeside (fun _ => twin_pure h) fun g pmm ha => ?_)
  obtain ⟨lab, h, hlab⟩ := h
  refine twin_bind (twin_read hbeside.kernelPml4 (twin_bind (twin_read hbeside.heapCurrentLimit ?_)))
  refine twin_bind ((h.mapHeap ha).mono ?_ fun _ _ h' => h'.from hlab)
  rintro - s' t' ⟨lab', h', hkeep, hlt, hlimit⟩
  have hstart := h.owned.start
  have hroom := h.owned.room
  have hwrap : wrap (s'.heapCurrentLimit + 4096) = s.heapCurrentLimit + 4096 := by
    simp only [heapTop, wrap] at hroom ⊢
    omega
  have hset := @Paired.setLimit _ _ _ _ _ _ _ _ _ h' (wrap (s'.heapCurrentLimit + 4096)) (by omega)
    (by omega)
  refine twin_bind (twin_modify (twin_pure ⟨lab', ?_, fun f l hl => hkeep f l (hlab f l hl)⟩))
  rw [h'.alike.beside.heapCurrentLimit]
  exact hset

theorem Together.heapExpand (n : ℕ) :
    Twin (heapExpand n) s t (fun _ => Together s0 a b most roots watched lab0)
      (Together s0 a b most roots watched lab0) := by
  refine (twin_forRange (fun _ => Together s0 a b most roots watched lab0)
    (E := fun _ => Together s0 a b most roots watched lab0) (fun _ s t _ h => h.expandPage) h).bind
    fun res s' t' h' => twin_pure ?_
  cases res <;> exact h'

theorem Together.kmalloc (size : ℕ) :
    Twin (kmalloc size) s t (fun _ => Together s0 a b most roots watched lab0)
      (Together s0 a b most roots watched lab0) :=
  kmalloc_twin (fun _ _ h => h.beside) (fun _ _ _ h ho => h.heapOnly ho)
    (fun n _ _ h => h.heapExpand n) size h

theorem Together.kzalloc (size : ℕ) :
    Twin (kzalloc size) s t (fun _ => Together s0 a b most roots watched lab0)
      (Together s0 a b most roots watched lab0) :=
  kzalloc_twin (fun _ _ h => h.beside) (fun _ _ _ h ho => h.heapOnly ho)
    (fun n _ _ h => h.heapExpand n) size h

end

/-! ## The new PML4 -/

/-- Entries are copied in both memories. -/
theorem copyEntries_twin (h : Beside s t) {src dst : ℕ} (hsrc : t.phys src = s.phys src)
    (hdst : t.phys dst = s.phys dst) (is : List ℕ) :
    let copy := fun (u : Mem) (i : ℕ) =>
      u.setEntry dst (Fin.ofNat 512 (256 + i)) (u.entry src (Fin.ofNat 512 (256 + i)))
    Beside (is.foldl copy s) (is.foldl copy t) ∧
      (is.foldl copy t).phys dst = (is.foldl copy s).phys dst := by
  induction is generalizing s t with
  | nil => exact ⟨h, hdst⟩
  | cons i is ih =>
    have hab : Abreast _ s t
        (s.setEntry dst (Fin.ofNat 512 (256 + i)) (s.entry src (Fin.ofNat 512 (256 + i))))
        (t.setEntry dst (Fin.ofNat 512 (256 + i)) (t.entry src (Fin.ofNat 512 (256 + i)))) :=
      Abreast.setFrame h fun heq => by rw [heq, Mem.entry_congr hsrc]
    exact ih hab.beside (hab.equal src hsrc) (hab.equal dst hdst)

/-- The new PML4 is the same in both memories. -/
theorem withPml4_twin (h : Beside s t) (hk : t.phys s.kernelPml4 = s.phys s.kernelPml4) :
    Beside (withPml4 s pmm r) (withPml4 t pmm r) ∧
      (withPml4 t pmm r).phys r = (withPml4 s pmm r).phys r := by
  have hzero : Beside ({ s with pmm := pmm }.setFrame r Page.zero)
      ({ t with pmm := pmm }.setFrame r Page.zero) := (h.setPmm pmm).setFrame ..
  have hself : ({ t with pmm := pmm }.setFrame r Page.zero).phys r =
      ({ s with pmm := pmm }.setFrame r Page.zero).phys r := by
    rw [Mem.setFrame_phys_self, Mem.setFrame_phys_self]
  have hsrc : ({ t with pmm := pmm }.setFrame r Page.zero).phys s.kernelPml4 =
      ({ s with pmm := pmm }.setFrame r Page.zero).phys s.kernelPml4 := by
    rcases eq_or_ne s.kernelPml4 r with heq | hne
    · rw [heq, Mem.setFrame_phys_self, Mem.setFrame_phys_self]
    · rw [Mem.setFrame_phys_of_ne _ _ hne, Mem.setFrame_phys_of_ne _ _ hne]
      exact hk
  unfold withPml4 copyHalf
  have hcopy := copyEntries_twin hzero hsrc hself (List.range 256)
  generalize List.range 256 = is at hcopy ⊢
  simp only [h.kernelPml4] at hcopy ⊢
  exact hcopy

section

variable (h : Paired s0 a b most roots watched lab s t)
include h

/-- A PML4 made in a frame without a label: the tables there are, and the walks through lower
halves, stay. -/
theorem Paired.withPml4_idle (pmm : Pmm) (hr : lab r = none) :
    Beside (withPml4 s pmm r) (withPml4 t pmm r) ∧
      (∀ f, t.phys f = s.phys f → (withPml4 t pmm r).phys f = (withPml4 s pmm r).phys f) ∧
      (∀ f l, lab f = some l → (withPml4 s pmm r).entry f = s.entry f) ∧
      ∀ r' ∈ roots, ∀ v, (pml4Index v).val < 256 → (withPml4 s pmm r).walk r' v = s.walk r' v := by
  have howned := h.owned
  have hk := h.alike.tables _ _ howned.kernelRoot (show 0 < 4 by decide)
  have hpml4 : Beside (withPml4 s pmm r) (withPml4 t pmm r) ∧
      (withPml4 t pmm r).phys r = (withPml4 s pmm r).phys r :=
    withPml4_twin h.alike.beside hk
  have hentry : ∀ f l, lab f = some l → (withPml4 s pmm r).entry f = s.entry f := by
    intro f l hf
    refine Mem.entry_congr (withPml4_phys ?_)
    rintro rfl
    rw [hr] at hf
    cases hf
  refine ⟨hpml4.1, fun f hf => ?_, hentry,
    fun r' hr' v hv => howned.walk_congr (fun f l hf _ => hentry f l hf) hr' hv⟩
  rcases eq_or_ne f r with rfl | hne
  · exact hpml4.2
  · rw [withPml4_phys hne, withPml4_phys hne, hf]

/-- **A new PML4.** -/
theorem Paired.newPml4 (ha : s.pmm.pmmAlloc = some (r, pmm)) :
    Paired s0 a b most (r :: roots) watched (update lab r (some (some r, 4)))
      (withPml4 s pmm r) (withPml4 t pmm r) := by
  have howned := h.owned
  have htake := howned.typed.take ha (d := none) (by simp)
  obtain ⟨hbeside, hequal, hentry, hwalk⟩ := h.withPml4_idle pmm
    (howned.typed.fresh_of_pmmAlloc ha)
  have hne : ∀ f l, lab f = some l → f ≠ r := fun f l hf => howned.typed.ne_of_pmmAlloc ha hf
  have hfew := Extends.freeCount_le htake
  dsimp only at hfew
  refine
    { owned := howned.newPml4 ha
      alike := ⟨hbeside, fun f l hf hl => ?_⟩
      equal := fun f hf => hequal f (h.equal f hf)
      free := fun f hf => ?_
      few := by rw [withPml4_pmm]; exact Nat.le_trans hfew h.few
      status := fun r' hr' => ?_
      halves := fun r' hr' hused i hi => ?_
      kernel := fun i x hx => ?_ }
  · rcases eq_or_ne f r with rfl | hfr
    · exact (withPml4_twin h.alike.beside
        (h.alike.tables _ _ howned.kernelRoot (show 0 < 4 by decide))).2
    · rw [update_of_ne hfr] at hf
      exact hequal f (h.alike.tables f l hf hl)
  · rw [withPml4_pmm] at hf
    obtain ⟨hstart, hs, ht⟩ := h.free f (htake.free hf)
    have hfr : f ≠ r := by
      rintro rfl
      have hclear := hf.2.2
      rw [(Pmm.pmmAlloc_eq_some ha).2.2.2.2] at hclear
      simp at hclear
    exact ⟨hstart, (withPml4_phys hfr).trans hs, (withPml4_phys hfr).trans ht⟩
  · obtain ⟨hin, hstatus⟩ := h.status r' hr'
    refine ⟨List.mem_cons_of_mem r hin, hstatus.imp ?_ fun hsettled => ⟨hsettled.1, fun v hv => ?_⟩⟩
    · rintro ⟨v, e, hv, hw, hfree, hs, ht⟩
      have hpage := hne _ _ (howned.walk_low hin hv hw)
      exact ⟨v, e, hv, (hwalk r' hin v hv).trans hw, hfree, (withPml4_phys hpage).trans hs,
        (withPml4_phys hpage).trans ht⟩
    · exact (hwalk r' hin v hv).trans (hsettled.2 v hv)
  · rcases List.mem_cons.1 hr' with rfl | hr'
    · rw [(h.free r' (Pmm.pmmAlloc_eq_some ha).1).1.2.2] at hused
      cases hused
    · rw [hentry r' _ (howned.root r' hr')]
      exact h.halves r' hr' hused i hi
  · rw [Mem.next, hentry _ _ (howned.kernel ▸ howned.kernelRoot)]
    exact h.kernel i x hx

/-- Without a frame it is made in frame 0, which is nobody's. -/
theorem Paired.nullPml4 :
    Paired s0 a b most roots watched lab (withPml4 s s.pmm 0) (withPml4 t s.pmm 0) := by
  have howned := h.owned
  obtain ⟨hbeside, hequal, hentry, hwalk⟩ := h.withPml4_idle s.pmm howned.null
  refine h.advance ⟨hequal, fun f hf => ?_, fun r hr f hf => ?_,
    fun r hr v hv => hwalk r (h.status r hr).1 v hv, fun r hr i hi => ?_, fun i x hx => ?_,
    by rw [withPml4_pmm]⟩ howned.nullPml4
    ⟨hbeside, fun f l hf hl => hequal f (h.alike.tables f l hf hl)⟩
  · rw [withPml4_pmm] at hf
    have hpos : f ≠ 0 := Nat.pos_iff_ne_zero.1 hf.1
    exact ⟨hf, withPml4_phys hpos, withPml4_phys hpos⟩
  · have hpos : f ≠ 0 := by
      rintro rfl
      rw [howned.null] at hf
      cases hf
    exact ⟨withPml4_phys hpos, withPml4_phys hpos⟩
  · rw [hentry r _ (howned.root r hr)]
  · rw [Mem.next, hentry _ _ (howned.kernel ▸ howned.kernelRoot)]
    exact hx

end

/-! ## `create_elf_process` -/

/-- The two states are paired, by some labels. -/
def Both (s0 : Mem) (a : Sys) (b : Mem) (most : ℕ) (watched : Set ℕ) (s t : Mem) : Prop :=
  ∃ roots lab, Paired s0 a b most roots watched lab s t

theorem Together.both (h : Together s0 a b most roots watched lab0 s t) :
    Both s0 a b most watched s t := by
  obtain ⟨lab, h, -⟩ := h
  exact ⟨roots, lab, h⟩

/-- Paired, and no frame is left. -/
def Drained (s0 : Mem) (a : Sys) (b : Mem) (most : ℕ) (roots : List ℕ) (watched : Set ℕ)
    (lab : ℕ → Option Label) (s t : Mem) : Prop :=
  Paired s0 a b most roots watched lab s t ∧ s.pmm.pmmAlloc = none

/-- Without a frame only the failure of `pmm_alloc` matters. -/
theorem Drained.bind_pmmAlloc (h : Drained s0 a b most roots watched lab s t) {α : Type}
    {f : Option ℕ → Prog Mem α} {Q : α → Mem → Mem → Prop} (hnone : Twin (f none) s t Q H) :
    Twin (pmmAlloc >>= f) s t Q H := by
  refine twin_bind (twin_pmmAlloc h.1.alike.beside (fun _ => hnone) fun g pmm ha => ?_)
  rw [h.2] at ha
  cases ha

/-- **`load_elf_binary`** returns 0, or there is no frame left, or it made a new PML4. -/
theorem Paired.loadElfBinary (h : Paired s0 a b most roots watched lab s t) (hlow : elf.Below47)
    (elfBuffer : ℕ) : Twin (loadElfBinary elfBuffer elf) s t
      (fun res s' t' => ∃ roots' lab', Paired s0 a b most roots' watched lab' s' t' ∧
        (res.1 = 0 ∨ s'.pmm.pmmAlloc = none ∨ ∃ r, res.2 = some r ∧ r ∈ roots' ∧ r ∉ watched))
      (Both s0 a b most watched) := by
  unfold Process.loadElfBinary
  by_cases hmagic : elf.eIdent = elfMagic
  · rw [if_neg (not_not.2 hmagic)]
    have hbeside := h.alike.beside
    cases ha : s.pmm.pmmAlloc with
    | none =>
      have ha' : t.pmm.pmmAlloc = none := by rw [hbeside.pmm, ha]
      have hnull : Paired s0 a b most roots watched lab (withPml4 s s.pmm 0)
          (withPml4 t t.pmm 0) := by
        rw [hbeside.pmm]
        exact h.nullPml4
      refine twin_bind (twin_of_done (newPml4_none ha) (newPml4_none ha') ?_)
      refine (loadSegments_twin (P := Drained s0 a b most roots watched lab)
        (E := fun _ => Drained s0 a b most roots watched lab) ?_
        ⟨hnull, by rw [withPml4_pmm, ha]⟩).bind fun res s' t' h' => ?_
      · exact fun j i s t _ _ _ h => h.bind_pmmAlloc (twin_pure h)
      · cases res <;> exact twin_pure ⟨roots, lab, h'.1, .inr (.inl h'.2)⟩
    | some x =>
      obtain ⟨r, pmm⟩ := x
      have ha' : t.pmm.pmmAlloc = some (r, pmm) := by rw [hbeside.pmm, ha]
      have hnew := h.newPml4 ha
      have hfresh : r ∉ watched := fun hr =>
        h.owned.typed.ne_of_pmmAlloc ha (h.owned.root r (h.status r hr).1) rfl
      refine twin_bind (twin_of_done (newPml4_some ha) (newPml4_some ha') ?_)
      refine twin_bind ((loadSegments_twin (fun j i s' t' hj htype hi h' =>
        h'.loadPage List.mem_cons_self hfresh (hlow j hj htype) hi) hnew.together).mono ?_
        fun s' t' h' => h'.both)
      intro res s' t' h'
      cases res with
      | some res =>
        obtain ⟨hzero, lab', h', -⟩ := h'
        exact twin_pure ⟨_, lab', h', .inl hzero⟩
      | none =>
        obtain ⟨lab', h', -⟩ := h'
        exact twin_pure ⟨_, lab', h', .inr (.inr ⟨r, rfl, List.mem_cons_self, hfresh⟩)⟩
  · rw [if_pos hmagic]
    refine (twin_modify_heap (P := Paired s0 a b most roots watched lab)
      (fun _ _ h => h.alike.beside) (fun _ _ _ h ho => h.heapOnly ho)
      (fun s x => s.kfree_withPhys x elfBuffer) (fun s => s.kfree_heapOnly elfBuffer) h).bind
      fun _ s' t' h' => ?_
    exact twin_pure ⟨roots, lab, h', .inl rfl⟩

/-- The pages of the user stack. -/
theorem Together.mapStack (h : Together s0 a b most roots watched lab0 s t) (hr : r ∈ roots)
    (n : ℕ) : Twin (forRange (n + 1) fun i => Process.mapUserPage r (usrStackBase - 4096 * i)) s t
      (EitherTwin (fun _ => Together s0 a b most roots watched lab0)
        (Together s0 a b most roots (insert r watched) lab0))
      (Together s0 a b most roots watched lab0) := by
  -- After the first round there is a page that was not cleared.
  refine (twin_forRange (fun i => Together s0 a b most roots
      { x | x ∈ watched ∨ 0 < i ∧ x = r } lab0)
    (E := fun _ => Together s0 a b most roots watched lab0) (fun i s t _ h => ?_) (h.mono ?_)).mono
    (fun res s' t' h' => ?_) fun _ _ => id
  · have hslot : (pml4Index (usrStackBase - 4096 * i)).val < 256 := by
      show (0x7ffffffff000 - 4096 * i) / 2 ^ 39 % 512 < 256
      omega
    have hold : watched ⊆ { x | x ∈ watched ∨ 0 < i ∧ x = r } := fun _ => .inl
    refine (h.mapUserPage hr fun _ => hslot).mono (fun res s' t' h' => ?_) fun _ _ h' => h'.mono hold
    cases res with
    | some _ => exact Together.mono h' hold
    | none =>
      refine h'.1.mono ?_
      rintro x (hx | ⟨-, rfl⟩)
      · exact .inr (hold hx)
      · exact .inl rfl
  · rintro x (hx | ⟨hlt, -⟩)
    · exact hx
    · exact absurd hlt (Nat.lt_irrefl 0)
  · cases res with
    | some _ => exact h'
    | none =>
      refine Together.mono h' ?_
      rintro x (rfl | hx)
      · exact .inr ⟨Nat.succ_pos n, rfl⟩
      · exact .inl hx

/-- A frame for the kernel. -/
theorem Paired.take (h : Paired s0 a b most roots watched lab s t)
    (ha : s.pmm.pmmAlloc = some (g, pmm)) :
    Paired s0 a b most roots watched (update lab g (some (none, 0))) { s with pmm := pmm }
        { t with pmm := pmm } ∧
      ∀ f l, lab f = some l → update lab g (some (none, 0)) f = some l := by
  have htake := h.owned.typed.take ha (d := some (none, 0)) (fun l hl => by
    cases hl
    rfl)
  refine ⟨h.advance ⟨fun _ => id, fun f hf => ⟨htake.free hf, rfl, rfl⟩, fun _ _ _ _ => ⟨rfl, rfl⟩,
    fun _ _ _ _ => rfl, fun _ _ _ _ => rfl, fun _ _ => id, Extends.freeCount_le htake⟩
    (h.owned.extend htake) ⟨h.alike.beside.setPmm pmm, fun f l hf hl => ?_⟩, htake.keep⟩
  rcases eq_or_ne f g with rfl | hne
  · rw [update_self] at hf
    cases hf
    exact absurd hl (Nat.lt_irrefl 0)
  · rw [update_of_ne hne] at hf
    exact h.alike.tables f l hf hl

/-- Frames that are taken for kernel stacks are pages of the kernel. -/
theorem Paired.allocFrames (h : Paired s0 a b most roots watched lab s t) (n : ℕ) :
    Twin (allocFrames n) s t
      (fun res s' t' => ∃ lab', Paired s0 a b most roots watched lab' s' t' ∧
        (∀ f l, lab f = some l → lab' f = some l) ∧
        ∀ gs, res = some gs → gs.length = n ∧ ∀ g ∈ gs, lab' g = some (none, 0)) H := by
  induction n generalizing s t lab with
  | zero =>
    refine twin_pure ⟨lab, h, fun _ _ => id, fun gs hgs => ?_⟩
    cases hgs
    simp
  | succ n ih =>
    refine twin_bind (twin_pmmAlloc h.alike.beside (fun _ => twin_pure ?_) fun g pmm ha => ?_)
    · exact ⟨lab, h, fun _ _ => id, fun gs hgs => by cases hgs⟩
    · obtain ⟨htake, hold⟩ := h.take ha
      refine (ih htake).bind fun res s' t' h' => ?_
      obtain ⟨lab', h', hkeep, hgs⟩ := h'
      have hkeep' : ∀ f l, lab f = some l → lab' f = some l := fun f l hl =>
        hkeep f l (hold f l hl)
      cases res with
      | none => exact twin_pure ⟨lab', h', hkeep', fun gs hgs => by cases hgs⟩
      | some gs =>
        obtain ⟨hlen, hmem⟩ := hgs gs rfl
        refine twin_pure ⟨lab', h', hkeep', fun gs' hgs' => ?_⟩
        cases hgs'
        refine ⟨by simp [hlen], fun f hf => ?_⟩
        rcases List.mem_cons.1 hf with rfl | hf
        · exact hkeep f _ (update_self ..)
        · exact hmem f hf

theorem Together.newElfProcess (h : Together s0 a b most roots watched lab0 s t) {rip kstack : ℕ}
    (hk : lab0 kstack = some (none, 0)) :
    Twin (newElfProcess rip kstack) s t (fun _ => Together s0 a b most roots watched lab0)
      (Together s0 a b most roots watched lab0) := by
  refine (h.kzalloc 312).bind fun _ _ _ h => (h.kzalloc 40).bind fun _ _ _ h => ?_
  refine (h.kzalloc 40).bind fun _ _ _ h => (h.kzalloc 40).bind fun _ _ _ h => ?_
  refine (h.kmalloc 96).bind fun _ s' t' h => twin_bind (twin_modify ?_)
  obtain ⟨lab, h, hlab⟩ := h
  have hstack : Together s0 a b most roots watched lab0
      (s'.setFrame kstack (newTaskKernelStack rip usrStackBase (s'.phys kstack)))
      (t'.setFrame kstack (newTaskKernelStack rip usrStackBase (t'.phys kstack))) :=
    ⟨lab, h.setPage (hlab _ _ hk) (fun _ _ => nofun) fun heq => by rw [heq], hlab⟩
  refine (hstack.kzalloc 16).bind fun _ _ _ h => (h.kzalloc 16).bind fun _ _ _ h => ?_
  exact twin_pure h

/-- **`create_elf_process`**: a new process has a new PML4, and a stack that was not cleared. -/
theorem Paired.createElfProcess (h : Paired s0 a b most roots watched lab s t) (hlow : elf.Below47)
    (elfBuffer : ℕ) : Twin (createElfProcess elfBuffer elf) s t
      (EitherTwin (fun proc s' t' => Both s0 a b most (insert proc.cr3 watched) s' t' ∧
        proc.cr3 ∉ watched ∧ proc.heapEnd = usrHeapBase) (Both s0 a b most watched))
      (Both s0 a b most watched) := by
  refine (h.loadElfBinary hlow elfBuffer).bind fun loaded s1 t1 hloaded => ?_
  obtain ⟨roots', lab1, h1, hcase⟩ := hloaded
  by_cases hzero : loaded.1 = 0
  · rw [if_pos hzero]
    exact twin_pure ⟨roots', lab1, h1⟩
  · rw [if_neg hzero]
    rcases hcase.resolve_left hzero with hnone | ⟨r, hr, hmem, hfresh⟩
    · have hidle : Drained s0 a b most roots' watched lab1 s1 t1 := ⟨h1, hnone⟩
      -- The first page of the stack fails.
      refine (twin_forRange (fun i u w => i = 0 ∧ Drained s0 a b most roots' watched lab1 u w)
        (E := fun _ => Drained s0 a b most roots' watched lab1) (fun i u w _ h' => ?_)
        ⟨rfl, hidle⟩).bind fun res u w h' => ?_
      · exact h'.2.bind_pmmAlloc (twin_pure (a := some ()) h'.2)
      · cases res with
        | some _ => exact twin_pure ⟨roots', lab1, h'.1⟩
        | none => exact absurd h'.1 (by decide)
    · rw [hr, Option.getD_some]
      refine twin_bind ((h1.together.mapStack hmem 5).mono ?_ fun _ _ h' => h'.both)
      intro res s2 t2 h2
      cases res with
      | some _ => exact twin_pure (Together.both h2)
      | none =>
        obtain ⟨lab2, h2, -⟩ := h2
        have hless : watched ⊆ insert r watched := Set.subset_insert r watched
        refine (h2.allocFrames 6).bind fun kPages s3 t3 h3 => ?_
        obtain ⟨lab3, h3, -, hpages⟩ := h3
        cases kPages with
        | none => exact twin_pure ⟨roots', lab3, h3.mono hless⟩
        | some kPages =>
          obtain ⟨hlen, hlab⟩ := hpages kPages rfl
          have hthree : kPages.getD 3 0 ∈ kPages := by
            rw [List.getD_eq_getElem?_getD, List.getElem?_eq_getElem (by omega)]
            exact List.getElem_mem _
          refine twin_bind ((h3.together.newElfProcess (hlab _ hthree)).mono ?_
            fun _ _ h4 => (h4.mono hless).both)
          intro _ s4 t4 h4
          exact twin_pure ⟨h4.both, hfresh, rfl⟩

/-! ## Pages on demand -/

/-- **The pages of `sys_alloc_pages`** end below `2 ^ 47`, since there is a frame for each. -/
theorem Paired.sysAllocPages (h : Paired s0 a b most roots watched lab s t) {ct : Proc}
    (hr : ct.cr3 ∈ watched) (hroom : ct.heapEnd + 4096 * most ≤ 2 ^ 47) (pages : UInt32) :
    Twin (sysAllocPages pages ct) s t
      (fun res s' t' => Both s0 a b most watched s' t' ∧ res.2.cr3 = ct.cr3 ∧
        res.2.heapEnd + 4096 * s'.pmm.freeCount ≤ 2 ^ 47)
      (Both s0 a b most watched) := by
  unfold Process.sysAllocPages
  by_cases hzero : pages = 0
  · rw [if_pos hzero]
    exact twin_pure ⟨⟨roots, lab, h⟩, rfl, by have hfew := h.few; simp only; omega⟩
  · rw [if_neg hzero]
    have hfew := h.few
    have hin := (h.status _ hr).1
    refine twin_bind ((twin_forRange (fun i u w => Together s0 a b most roots watched lab u w ∧
      ct.heapEnd + 4096 * i + 4096 * u.pmm.freeCount ≤ 2 ^ 47)
      (E := fun _ => Together s0 a b most roots watched lab) (fun i u w _ h' => ?_)
      ⟨h.together, by omega⟩).mono ?_ fun _ _ => id)
    · obtain ⟨htogether, hleft⟩ := h'
      have hslot : 0 < u.pmm.freeCount →
          (pml4Index (wrap (ct.heapEnd + 4096 * i))).val < 256 := fun hpos => by
        rw [wrap_of_lt (by omega)]
        show (ct.heapEnd + 4096 * i) / 2 ^ 39 % 512 < 256
        omega
      refine (htogether.mapUserPage hin hslot).mono (fun res u' w' h' => ?_) fun _ _ => Together.both
      cases res with
      | some _ => exact h'
      | none =>
        rw [EitherTwin, Set.insert_eq_of_mem hr] at h'
        exact ⟨h'.1, by have hlt := h'.2; omega⟩
    · intro res s' t' h'
      cases res with
      | some _ =>
        obtain ⟨lab', h', -⟩ := h'
        have hfew' := h'.few
        exact twin_pure ⟨⟨roots, lab', h'⟩, rfl, by simp only; omega⟩
      | none =>
        refine twin_pure ⟨h'.1.both, rfl, ?_⟩
        have hleft := h'.2
        simp only [wrap]
        omega

/-- **The new stack page** lies in the last slot of the lower half. -/
theorem Paired.pageFaultHandler (h : Paired s0 a b most roots watched lab s t) {current : Proc}
    (hr : current.cr3 ∈ watched) (errorCode cr2 : ℕ) :
    Twin (pageFaultHandler errorCode cr2 current) s t (fun _ => Both s0 a b most watched)
      (Both s0 a b most watched) := by
  unfold Process.pageFaultHandler
  split_ifs with hgrow
  · have hslot : (pml4Index (cr2 / 4096 * 4096)).val < 256 := by
      have hlt := hgrow.2.2.1
      simp only [usrStackBase] at hlt
      show cr2 / 4096 * 4096 / 2 ^ 39 % 512 < 256
      omega
    refine twin_bind ((h.together.mapUserPage (h.status _ hr).1 fun _ => hslot).mono
      (fun res s' t' h' => ?_) fun _ _ h' => h'.both)
    cases res with
    | some _ => exact twin_halt (Together.both h')
    | none =>
      have hboth := h'.1.both
      rw [Set.insert_eq_of_mem hr] at hboth
      exact twin_pure hboth
  · exact twin_halt ⟨roots, lab, h⟩

end Hvos.Process
