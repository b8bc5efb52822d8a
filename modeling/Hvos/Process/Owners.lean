import Hvos.Process.ElfImage
import Hvos.Process.Spaces

/-!
# Process/Owners — every frame of an address space has one owner

Every frame that is a table or a page of a process, or a table or a page of the kernel heap, carries
its owner and its level (`ownerScheme`).  The operations only ever add frames that were free, and
add them where their label belongs; `Owned` is what all of them keep, whether they return or halt.
-/

namespace Hvos.Process

open Memory Radix Prog Function

/-! ## Tables below a PML4 -/

/-- The table an entry of a PDPT or a page directory leads to; an entry with bit 7 maps a large
page. -/
def Mem.sub (s : Mem) (f : ℕ) (i : Fin 512) : Option ℕ :=
  if (s.entry f i).pat = true then none else s.next f i

/-- `f` is a table behind entry `i` of the PML4 in frame `r`. -/
def TableBelow (s : Mem) (r : ℕ) (i : Fin 512) (f : ℕ) : Prop :=
  ∃ g is, s.next r i = some g ∧ is.length ≤ 2 ∧ descend (Mem.sub s) is g = some f

/-! ## Owners -/

/-- The slots the kernel heap lives in. -/
def HeapSlot (i : Fin 512) : Prop := 320 ≤ i.val ∧ i.val < 511

instance (i : Fin 512) : Decidable (HeapSlot i) := inferInstanceAs (Decidable (_ ∧ _))

/-- The end of those slots. -/
def heapTop : ℕ := 0xffffff8000000000

/-- A frame's owner, `none` for the kernel heap or the PML4 of a process, and its level: 4 for a
PML4, 0 for a page. -/
abbrev Label := Option ℕ × ℕ

/-- **The lower half of a process's PML4 is its own, the heap's slots of every PML4 the
kernel's.** -/
def ownerScheme : Scheme Label (Fin 512) where
  child l i :=
    if l.2 = 4 then
      if i.val < 256 then l.1.map fun r => (some r, 3)
      else if HeapSlot i then some (none, 3) else none
    else if 0 < l.2 ∧ l.2 < 4 then some (l.1, l.2 - 1) else none
  level l := l.2
  level_child := by
    intro l i l' h
    split_ifs at h with h4 hlow hheap hmid
    · obtain ⟨r, -, rfl⟩ := Option.map_eq_some_iff.1 h
      exact h4
    · cases h
      exact h4
    · cases h
      simp only
      omega

variable {i : Fin 512}

theorem ownerScheme_user (r : ℕ) (hi : i.val < 256) :
    ownerScheme.child (some r, 4) i = some (some r, 3) := by
  simp [ownerScheme, hi]

theorem ownerScheme_heap (o : Option ℕ) (hi : HeapSlot i) :
    ownerScheme.child (o, 4) i = some (none, 3) := by
  have hlow : ¬i.val < 256 := by
    have hge := hi.1
    omega
  simp [ownerScheme, hlow, hi]

theorem ownerScheme_direct (o : Option ℕ) (hi : 256 ≤ i.val) (hheap : ¬HeapSlot i) :
    ownerScheme.child (o, 4) i = none := by
  simp [ownerScheme, Nat.not_lt.2 hi, hheap]

theorem ownerScheme_inner (o : Option ℕ) {k : ℕ} (i : Fin 512) (hk : k < 3) :
    ownerScheme.child (o, k + 1) i = some (o, k) := by
  simp only [ownerScheme]
  rw [if_neg (by omega), if_pos (by omega), Nat.add_sub_cancel]

theorem ownerScheme_along (o : Option ℕ) (is : List (Fin 512)) {k : ℕ} (hk : is.length + k ≤ 3) :
    ownerScheme.along (o, is.length + k) is = some (o, k) := by
  induction is with
  | nil => simp [Scheme.along]
  | cons i is ih =>
    simp only [List.length_cons] at hk ⊢
    rw [Scheme.along, show is.length + 1 + k = is.length + k + 1 by omega,
      ownerScheme_inner o i (by omega), Option.bind_some]
    exact ih (by omega)

theorem ownerScheme_upper {o o' : Option ℕ} {v : ℕ}
    (h : ownerScheme.child (o, 4) (pml4Index v) = some (o', 3)) :
    ownerScheme.along (o, 4) (upperPath v) = some (o', 1) := by
  rw [upperPath, Scheme.along, h, Option.bind_some]
  exact ownerScheme_along o' [pdptIndex v, pdIndex v] (k := 1) (Nat.le_refl 3)

/-! ## The invariant -/

/-- **The frames of `s` are owned** as `lab` says, with the PML4s `roots` beside the kernel's; the
tables of the direct map are those of `s0`, and neither the heap nor a process can outgrow its
slots with the frames that are left. -/
structure Owned (s0 s : Mem) (lab : ℕ → Option Label) (roots : List ℕ) : Prop where
  typed : Typed ownerScheme s lab
  kernel : s.kernelPml4 = s0.kernelPml4
  kernelRoot : lab s.kernelPml4 = some (none, 4)
  root : ∀ r ∈ roots, lab r = some (some r, 4)
  null : lab 0 = none
  small : ∀ f o k i, lab f = some (some o, k) → 2 ≤ k → k ≤ 3 → (s.entry f i).pat = false
  upper : ∀ r, r = s.kernelPml4 ∨ r ∈ roots → ∀ i : Fin 512, 256 ≤ i.val → ¬HeapSlot i →
    s.entry r i = s0.entry s0.kernelPml4 i
  direct : ∀ (i : Fin 512) f, 256 ≤ i.val → ¬HeapSlot i → TableBelow s0 s0.kernelPml4 i f →
    (s.pmm.bitmapTest f = true ∧ f ≠ 0) ∧ lab f = none ∧ s.phys f = s0.phys f
  start : kernelHeapStart ≤ s.heapCurrentLimit
  room : s.heapCurrentLimit + 4096 * s.pmm.freeCount ≤ heapTop
  memory : s.pmm.totalPages ≤ 2 ^ 33

variable {s0 s s' : Mem} {lab lab' : ℕ → Option Label} {roots : List ℕ}

theorem Owned.pml4 (h : Owned s0 s lab roots) {r : ℕ} (hr : r = s.kernelPml4 ∨ r ∈ roots) :
    ∃ o, lab r = some (o, 4) := by
  rcases hr with rfl | hr
  · exact ⟨_, h.kernelRoot⟩
  · exact ⟨_, h.root r hr⟩

theorem Extends.freeCount_le (h : Extends ownerScheme s s' lab lab') :
    s'.pmm.freeCount ≤ s.pmm.freeCount := Pmm.freeCount_anti h.totalPages h.used

/-- **Adding frames where they belong** keeps the invariant. -/
theorem Owned.extend (h : Owned s0 s lab roots) (hext : Extends ownerScheme s s' lab lab') :
    Owned s0 s' lab' roots := by
  have hglob := hext.globals
  have hfew := Extends.freeCount_le hext
  refine
    { typed := hext.typed
      kernel := hglob.kernelPml4.trans h.kernel
      kernelRoot := by rw [hglob.kernelPml4]; exact hext.keep _ _ h.kernelRoot
      root := fun r hr => hext.keep _ _ (h.root r hr)
      null := ?_
      small := fun f o k i hf hk hk3 => ?_
      upper := fun r hr i hi hheap => ?_
      direct := fun i f hi hheap hf => ?_
      start := by rw [hglob.heapCurrentLimit]; exact h.start
      room := ?_
      memory := by rw [hext.totalPages]; exact h.memory }
  · by_contra hne
    have hfree := (hext.fresh 0 h.null hne).1
    omega
  · by_contra hlarge
    obtain ⟨hf', hlarge'⟩ := hext.large f _ i hf hk (by simpa using hlarge)
    rw [h.small f o k i hf' hk hk3] at hlarge'
    cases hlarge'
  · rw [hglob.kernelPml4] at hr
    obtain ⟨o, ho⟩ := h.pml4 hr
    rw [hext.foreign r _ i ho (by simp [ownerScheme]) (ownerScheme_direct o hi hheap)]
    exact h.upper r hr i hi hheap
  · obtain ⟨⟨hused, h0⟩, hnone, hphys⟩ := h.direct i f hi hheap hf
    exact ⟨⟨hext.used f hused, h0⟩, hext.unlabelled hused hnone,
      (hext.frames f hused hnone).trans hphys⟩
  · have hroom := h.room
    rw [hglob.heapCurrentLimit]
    omega

/-- Frames fit their field. -/
theorem Owned.narrow (h : Owned s0 s lab roots) (n : ℕ) : s.pmm.Narrow n :=
  .inl (Nat.le_trans h.memory (by decide))

theorem Mem.next_of_leaf {f : ℕ} {e : Pte} (h : s.leaf f i = some e) :
    s.next f i = some e.address.val := by
  unfold Mem.leaf at h
  split_ifs at h with hpresent
  cases h
  rw [Mem.next, if_pos hpresent]

/-- A walk through a slot ends in a page of the slot's owner. -/
theorem Owned.walk (h : Owned s0 s lab roots) {root v : ℕ} {o o' : Option ℕ} {e : Pte}
    (hroot : lab root = some (o, 4)) (hslot : ownerScheme.child (o, 4) (pml4Index v) = some (o', 3))
    (hwalk : s.walk root v = some e) : lab e.address.val = some (o', 0) := by
  rw [Mem.walk, find_snoc] at hwalk
  obtain ⟨pt, hpt, hleaf⟩ := Option.bind_eq_some_iff.1 hwalk
  have hlab := h.typed.labelled.descend hroot (ownerScheme_upper hslot) hpt
  exact h.typed.labelled pt _ _ _ _ hlab (ownerScheme_inner o' _ (by decide)) (Mem.next_of_leaf hleaf)

/-! ## Changes of memory

What the operations do to memory, apart from adding frames: bytes of the heap, bytes of pages, the
heap's limit, a new PML4, and upper halves copied from one PML4 to another. -/

section

variable (h : Owned s0 s lab roots)
include h

/-- **Frame 0 and pages may be written.** -/
theorem Owned.congr (hphys : ∀ f, f ≠ 0 → (∀ o, lab f ≠ some (o, 0)) → s'.phys f = s.phys f)
    (hpmm : s'.pmm = s.pmm) (hkernel : s'.kernelPml4 = s.kernelPml4)
    (hlimit : s'.heapCurrentLimit = s.heapCurrentLimit) : Owned s0 s' lab roots := by
  have htable : ∀ f o k, lab f = some (o, k) → 0 < k → s'.entry f = s.entry f := by
    intro f o k hf hk
    have hnull : f ≠ 0 := by
      rintro rfl
      rw [h.null] at hf
      cases hf
    have hpage : ∀ o, lab f ≠ some (o, 0) := fun o ho => by
      obtain ⟨-, rfl⟩ := Prod.mk.inj (Option.mem_unique hf ho)
      omega
    funext i
    rw [Mem.entry, hphys f hnull hpage, Mem.entry]
  refine
    { typed := ⟨h.typed.labelled.congr fun f l hf hl => ?_, fun f l hf => ?_⟩
      kernel := hkernel.trans h.kernel
      kernelRoot := by rw [hkernel]; exact h.kernelRoot
      root := h.root
      null := h.null
      small := fun f o k i hf hk hk3 => ?_
      upper := fun r hr i hi hheap => ?_
      direct := fun i f hi hheap hf => ?_
      start := by rw [hlimit]; exact h.start
      room := by rw [hlimit, hpmm]; exact h.room
      memory := by rw [hpmm]; exact h.memory }
  · funext i
    rw [Mem.next, htable f l.1 l.2 hf hl, Mem.next]
  · rw [hpmm]
    exact h.typed.used f l hf
  · rw [htable f _ k hf (by omega)]
    exact h.small f o k i hf hk hk3
  · rw [hkernel] at hr
    obtain ⟨o, ho⟩ := h.pml4 hr
    rw [htable r o 4 ho (by decide)]
    exact h.upper r hr i hi hheap
  · obtain ⟨hused, hnone, hsame⟩ := h.direct i f hi hheap hf
    rw [hpmm]
    exact ⟨hused, hnone, (hphys f hused.2 fun o ho => by simp [hnone] at ho).trans hsame⟩

theorem Owned.setFrame {g : ℕ} {o : Option ℕ} (hg : lab g = some (o, 0)) (pg : Page) :
    Owned s0 (s.setFrame g pg) lab roots := by
  refine h.congr (fun f _ hf => Mem.setFrame_phys_of_ne s pg ?_) rfl rfl rfl
  rintro rfl
  exact hf o hg

theorem Owned.heapOnly (ho : HeapOnly s s') : Owned s0 s' lab roots :=
  h.congr (fun f _ _ => by rw [ho.phys]) ho.pmm ho.kernelPml4 ho.heapCurrentLimit

/-- The heap's limit may move while the frames left bound it. -/
theorem Owned.setLimit {limit : ℕ} (hstart : kernelHeapStart ≤ limit)
    (hroom : limit + 4096 * s.pmm.freeCount ≤ heapTop) :
    Owned s0 { s with heapCurrentLimit := limit } lab roots :=
  ⟨⟨h.typed.labelled, h.typed.used⟩, h.kernel, h.kernelRoot, h.root, h.null, h.small, h.upper,
    h.direct, hstart, hroom, h.memory⟩

/-- **Upper halves may be copied**: behind a heap slot there is a table of the heap, and behind the
other upper slots what was there from the beginning. -/
theorem Owned.copyHalf {src dst : ℕ} (hsrc : src = s.kernelPml4 ∨ src ∈ roots)
    (hdst : dst = s.kernelPml4 ∨ dst ∈ roots) : Owned s0 (copyHalf src dst s) lab roots := by
  obtain ⟨osrc, hosrc⟩ := h.pml4 hsrc
  obtain ⟨odst, hodst⟩ := h.pml4 hdst
  have hglob := copyHalf_globals src dst s
  have hpmm := copyHalf_pmm src dst s
  have hother : ∀ f, f ≠ dst → (Process.copyHalf src dst s).entry f = s.entry f := fun f hf => by
    funext i
    rw [copyHalf_entry, if_neg fun hcopy => hf hcopy.1]
  refine
    { typed := ⟨fun f l i l' g hf hl hg => ?_, fun f l hf => ?_⟩
      kernel := hglob.kernelPml4.trans h.kernel
      kernelRoot := by rw [hglob.kernelPml4]; exact h.kernelRoot
      root := h.root
      null := h.null
      small := fun f o k i hf hk hk3 => ?_
      upper := fun r hr i hi hheap => ?_
      direct := fun i f hi hheap hf => ?_
      start := by rw [hglob.heapCurrentLimit]; exact h.start
      room := by rw [hglob.heapCurrentLimit, hpmm]; exact h.room
      memory := by rw [hpmm]; exact h.memory }
  · rw [Mem.next, copyHalf_entry] at hg
    by_cases hcopy : f = dst ∧ 256 ≤ i.val
    · obtain ⟨rfl, hi⟩ := hcopy
      obtain rfl := Option.mem_unique hodst hf
      rw [if_pos (show f = f ∧ 256 ≤ i.val from ⟨rfl, hi⟩)] at hg
      by_cases hheap : HeapSlot i
      · obtain rfl := Option.some.inj ((ownerScheme_heap odst hheap).symm.trans hl)
        exact h.typed.labelled src _ i _ g hosrc (ownerScheme_heap osrc hheap) hg
      · rw [ownerScheme_direct odst hi hheap] at hl
        cases hl
    · rw [if_neg hcopy] at hg
      exact h.typed.labelled f l i l' g hf hl hg
  · rw [hpmm]
    exact h.typed.used f l hf
  · have hne : f ≠ dst := by
      rintro rfl
      obtain ⟨-, rfl⟩ := Prod.mk.inj (Option.mem_unique hodst hf)
      omega
    rw [hother f hne]
    exact h.small f o k i hf hk hk3
  · rw [hglob.kernelPml4] at hr
    rw [copyHalf_entry]
    split_ifs
    · exact h.upper src hsrc i hi hheap
    · exact h.upper r hr i hi hheap
  · obtain ⟨hused, hnone, hphys⟩ := h.direct i f hi hheap hf
    have hne : f ≠ dst := by
      rintro rfl
      rw [hnone] at hodst
      cases hodst
    rw [hpmm]
    exact ⟨hused, hnone, (copyHalf_phys src dst s hne).trans hphys⟩

/-- **A new PML4** in a free frame: its lower half is empty, its upper half the kernel's. -/
theorem Owned.newPml4 {r : ℕ} {pmm : Pmm} (ha : s.pmm.pmmAlloc = some (r, pmm)) :
    Owned s0 (withPml4 s pmm r) (update lab r (some (some r, 4))) (r :: roots) := by
  have htake := h.typed.take ha (d := none) (by simp)
  have hglob : SameGlobals s (withPml4 s pmm r) := withPml4_globals
  have hne : ∀ f l, lab f = some l → f ≠ r := fun f l hf => h.typed.ne_of_pmmAlloc ha hf
  have hk : s.kernelPml4 ≠ r := hne _ _ h.kernelRoot
  have hkeep : ∀ f l, lab f = some l → update lab r (some (some r, 4)) f = some l :=
    fun f l hf => by rwa [update_of_ne (hne f l hf)]
  have hentry : ∀ f, f ≠ r → (withPml4 s pmm r).entry f = s.entry f := fun f hf => by
    funext i
    rw [Mem.entry, withPml4_phys hf, Mem.entry]
  have hused : ∀ f, s.pmm.bitmapTest f = true → (withPml4 s pmm r).pmm.bitmapTest f = true := by
    rw [withPml4_pmm]
    exact htake.used
  refine
    { typed := ⟨fun f l i l' g hf hl hg => ?_, fun f l hf => ?_⟩
      kernel := hglob.kernelPml4.trans h.kernel
      kernelRoot := by rw [hglob.kernelPml4]; exact hkeep _ _ h.kernelRoot
      root := fun r' hr' => ?_
      null := ?_
      small := fun f o k i hf hk hk3 => ?_
      upper := fun r' hr' i hi hheap => ?_
      direct := fun i f hi hheap hf => ?_
      start := by rw [hglob.heapCurrentLimit]; exact h.start
      room := ?_
      memory := by rw [withPml4_pmm, htake.totalPages]; exact h.memory }
  · rcases eq_or_ne f r with rfl | hfr
    · rw [update_self] at hf
      cases hf
      by_cases hlow : i.val < 256
      · rw [Mem.next, withPml4_entry_low hlow] at hg
        cases hg
      · rw [Mem.next, withPml4_entry_high (Nat.not_lt.1 hlow) hk] at hg
        by_cases hheap : HeapSlot i
        · rw [ownerScheme_heap _ hheap] at hl
          cases hl
          exact hkeep g _
            (h.typed.labelled _ _ i _ g h.kernelRoot (ownerScheme_heap none hheap) hg)
        · rw [ownerScheme_direct _ (Nat.not_lt.1 hlow) hheap] at hl
          cases hl
    · rw [update_of_ne hfr] at hf
      rw [Mem.next, hentry f hfr] at hg
      exact hkeep g _ (h.typed.labelled f l i l' g hf hl hg)
  · rcases eq_or_ne f r with rfl | hfr
    · rw [withPml4_pmm, (Pmm.pmmAlloc_eq_some ha).2.2.2.2]
      simp
    · rw [update_of_ne hfr] at hf
      exact hused f (h.typed.used f l hf)
  · rcases List.mem_cons.1 hr' with rfl | hr'
    · exact update_self ..
    · exact hkeep _ _ (h.root r' hr')
  · have hpos := (Pmm.pmmAlloc_eq_some ha).1.1
    rw [update_of_ne (by omega)]
    exact h.null
  · rcases eq_or_ne f r with rfl | hfr
    · rw [update_self] at hf
      cases hf
      omega
    · rw [update_of_ne hfr] at hf
      rw [hentry f hfr]
      exact h.small f o k i hf hk hk3
  · rw [hglob.kernelPml4] at hr'
    rcases eq_or_ne r' r with rfl | hrr
    · rw [withPml4_entry_high hi hk]
      exact h.upper _ (.inl rfl) i hi hheap
    · rw [hentry r' hrr]
      exact h.upper r' (hr'.imp_right fun hmem => (List.mem_cons.1 hmem).resolve_left hrr) i hi hheap
  · obtain ⟨⟨hin, h0⟩, hnone, hphys⟩ := h.direct i f hi hheap hf
    have hfr : f ≠ r := by
      rintro rfl
      rw [(Pmm.pmmAlloc_eq_some ha).1.2.2] at hin
      cases hin
    exact ⟨⟨hused f hin, h0⟩, by rwa [update_of_ne hfr], (withPml4_phys hfr).trans hphys⟩
  · have hroom := h.room
    have hfew := Extends.freeCount_le htake
    dsimp only at hfew
    rw [hglob.heapCurrentLimit, withPml4_pmm]
    omega

/-- Without a frame the new PML4 is written to frame 0, which nobody owns. -/
theorem Owned.nullPml4 : Owned s0 (withPml4 s s.pmm 0) lab roots :=
  h.congr (fun _ hf _ => withPml4_phys hf) withPml4_pmm withPml4_globals.kernelPml4
    withPml4_globals.heapCurrentLimit

/-- The heap's limit lies in its slots while there is a frame left. -/
theorem Owned.heapSlot (hpos : 0 < s.pmm.freeCount) : HeapSlot (pml4Index s.heapCurrentLimit) := by
  have hstart := h.start
  have hroom := h.room
  simp only [kernelHeapStart, heapTop] at hstart hroom
  show 320 ≤ s.heapCurrentLimit / 2 ^ 39 % 512 ∧ s.heapCurrentLimit / 2 ^ 39 % 512 < 511
  omega

end

end Hvos.Process
