import Hvos.Memory.HeapIntegrity

/-!
# Memory/HeapSizes — `kmalloc` for every 64-bit size

`kmalloc` rounds a size, adds headers to it and counts pages, all modulo `2 ^ 64`.  The last fifteen
sizes below `2 ^ 64` are rounded to 0 and served by a block of no bytes; the thirty-two before them
wrap once the headers are added and get a block that ends beyond the heap; the sizes a page further
down come to no page at all, and the store to the new header faults.  Every other size is honoured,
as long as there are not so many frames that the limit of the heap wraps (`kmalloc_honours_iff`).
-/

namespace Hvos.Memory

open Bytes Blocks Prog

variable {s s' : Mem} {hs fs : List ℕ} {k p size : ℕ}

/-! ## Requests that are honoured -/

/-- **A request that is honoured**: the block behind `p` holds `size` bytes, lies inside the heap,
and overlaps no other block. -/
structure Honoured (s : Mem) (p size : ℕ) : Prop where
  holds : size ≤ s.sizeAt (p - headerSize)
  start : kernelHeapStart + headerSize ≤ p
  limit : p + s.sizeAt (p - headerSize) ≤ s.heapCurrentLimit
  apart : ∃ hs, Tiles headerSize s.sizeAt kernelHeapStart s.heapCurrentLimit hs ∧
    p - headerSize ∈ hs ∧ ∀ h ∈ hs, h ≠ p - headerSize →
      h + headerSize + s.sizeAt h ≤ p - headerSize ∨ p + s.sizeAt (p - headerSize) ≤ h

/-- An allocation is one. -/
theorem Allocated.honoured {hs' fs' : List ℕ} (h : Allocated s s' hs hs' fs fs' size p) :
    Honoured s' p size := by
  obtain ⟨b, hb, rfl, -, hsize, -⟩ := h.block
  have hbounds := h.sound.bounds hb
  have hsub : b + headerSize - headerSize = b := Nat.add_sub_cancel ..
  refine ⟨by rwa [hsub], Nat.add_le_add_right hbounds.1 _, by rw [hsub]; exact hbounds.2, hs',
    h.sound.tiles, by rwa [hsub], fun c hc hne => ?_⟩
  rw [hsub] at hne ⊢
  exact ((h.sound.tiles.apart hb hc).resolve_left hne).symm

/-- No more than the room behind `KERNEL_HEAP_START` can be honoured. -/
theorem Honoured.size_lt (h : Honoured s p size) (hlim : s.heapCurrentLimit < 2 ^ 64) :
    size < 2 ^ 64 - kernelHeapStart := by
  have hholds := h.holds
  have hstart := h.start
  have hlimit := h.limit
  omega

/-! ## Where the pointer is -/

/-- The pointer is that of a block of the free list, which leaves the limit where it is, or lies
behind a header at the old limit. -/
theorem Served.pointer (h : Served s fs k p s') :
    (∃ b ∈ fs, p = b + headerSize ∧ s'.heapCurrentLimit = s.heapCurrentLimit) ∨
      p = wrap (s.heapCurrentLimit + headerSize) ∧
        s'.heapCurrentLimit = wrap (s.heapCurrentLimit + 4096 * expandPages (wrap (k + headerSize))) := by
  cases h with
  | @listed prev current hf hk =>
    have honly := ((Mem.unlink_heapOnly s prev current).trans (Mem.split_heapOnly _ current k)).trans
      (Mem.setIsFree_heapOnly _ current false)
    exact .inl ⟨current, hf.mem, rfl, honly.heapCurrentLimit⟩
  | @grown s1 hexp _ => exact .inr ⟨rfl, by simpa using hexp.limit⟩

/-- **The limit does not wrap** exactly where there is room. -/
theorem Served.le_iff (h : Served s fs (wrap (size + 15) / 16 * 16) p s')
    (hbound : s.heapCurrentLimit < 2 ^ 64) :
    s.heapCurrentLimit ≤ s'.heapCurrentLimit ↔ s.HasRoom size := by
  unfold Mem.HasRoom Mem.HasBlock
  generalize wrap (size + 15) / 16 * 16 = k at h ⊢
  cases h with
  | @listed prev current hf hk hfind =>
    have honly := ((Mem.unlink_heapOnly s prev current).trans (Mem.split_heapOnly _ current k)).trans
      (Mem.setIsFree_heapOnly _ current false)
    exact iff_of_true honly.heapCurrentLimit.ge (.inl (by simp [hfind]))
  | @grown s1 hexp _ hfind =>
    have hlim := hexp.limit
    simp only [Mem.heapCurrentLimit_split, Mem.heapCurrentLimit_setNext,
      Mem.heapCurrentLimit_setIsFree, Mem.heapCurrentLimit_setSize, hlim, hfind, Option.join_some,
      ne_eq, not_true_eq_false, false_or]
    unfold expandPages wrap
    omega

section

variable (h : Served s fs k p s')
include h

theorem Served.limit_lt (hbound : s.heapCurrentLimit < 2 ^ 64) : s'.heapCurrentLimit < 2 ^ 64 := by
  rcases h.pointer with ⟨b, -, -, hsame⟩ | ⟨-, hmoved⟩
  · rwa [hsame]
  · rw [hmoved]
    exact Nat.mod_lt _ (by decide)

/-- The limit stays at the start of a page. -/
theorem Served.paged (hpaged : s.heapCurrentLimit % 4096 = 0) : s'.heapCurrentLimit % 4096 = 0 := by
  rcases h.pointer with ⟨b, -, -, hsame⟩ | ⟨-, hmoved⟩
  · rwa [hsame]
  · rw [hmoved]
    unfold wrap
    omega

/-- A header at the start of a page does not wrap. -/
theorem Served.ne_zero (hpaged : s.heapCurrentLimit % 4096 = 0) : p ≠ 0 := by
  rcases h.pointer with ⟨b, -, rfl, -⟩ | ⟨rfl, -⟩
  · simp [headerSize]
  · unfold headerSize wrap
    omega

/-- A pointer into the heap has not made the limit wrap. -/
theorem Served.le_of_inside (hbound : s.heapCurrentLimit < 2 ^ 64)
    (hstart : kernelHeapStart + headerSize ≤ p) (hlimit : p ≤ s'.heapCurrentLimit) :
    s.heapCurrentLimit ≤ s'.heapCurrentLimit := by
  rcases h.pointer with ⟨b, -, -, hsame⟩ | ⟨hp, -⟩
  · exact hsame.ge
  · -- A pointer that wrapped would be below the heap.
    unfold wrap headerSize at hp
    unfold kernelHeapStart headerSize at hstart
    omega

theorem Served.le_of_honoured (hbound : s.heapCurrentLimit < 2 ^ 64) (hhon : Honoured s' p size) :
    s.heapCurrentLimit ≤ s'.heapCurrentLimit :=
  h.le_of_inside hbound hhon.start (Nat.le_of_add_right_le hhon.limit)

end

theorem Sound.kmalloc_served (h : Sound s hs fs) (hpos : 0 < size) :
    Ensures (Memory.kmalloc size) s (Served s fs (wrap (size + 15) / 16 * 16)) (fun _ => True) := by
  unfold Memory.kmalloc
  rw [if_neg hpos.ne']
  exact (h.served _).mono (fun _ _ => id) fun _ _ => trivial

/-- **When a request is honoured**: it fits behind `KERNEL_HEAP_START`, and there is room. -/
theorem Sound.honoured_iff (h : Sound s hs fs) (hpos : 0 < size) : Ensures (Memory.kmalloc size) s
      (fun p s' => Honoured s' p size ↔
        size < 2 ^ 64 - kernelHeapStart ∧ s.HasRoom size)
      (fun _ => True) := by
  have hserved := h.kmalloc_served hpos
  by_cases hsize : size < 2 ^ 64 - kernelHeapStart
  · have hsmall : size + 4158 < 2 ^ 64 := by
      unfold kernelHeapStart at hsize
      omega
    refine (hserved.and (h.kmalloc hpos hsmall)).mono (fun p s' hp => ?_) fun _ _ => trivial
    rw [← hp.1.le_iff h.bound]
    refine ⟨fun hhon => ⟨hsize, hp.1.le_of_honoured h.bound hhon⟩, fun hcond => ?_⟩
    obtain ⟨hs', fs', hall⟩ := hp.2 hcond.2
    exact hall.honoured
  · refine hserved.imp fun p s' hp => ⟨fun hhon => ?_, fun hcond => absurd hcond.1 hsize⟩
    exact absurd (hhon.size_lt (hp.limit_lt h.bound)) hsize

/-! ## Any request -/

namespace HeapState

/-- One event, where `kmalloc` may be asked for any 64-bit size and may do with the limit what it
does. -/
def stepAny (e : HeapEvent) (st : HeapState) : Option HeapState :=
  match e with
  | .kmalloc size =>
    if size < 2 ^ 64 then
      match Memory.kmalloc size st.mem with
      | .done p s' => some ⟨s', p :: st.returned⟩
      | .halt _ => none
    else none
  | e => st.step e

variable {st st' : HeapState}

/-- What a `kmalloc` event says. -/
theorem stepAny_kmalloc (he : stepAny (.kmalloc size) st = some st') :
    ∃ p, size < 2 ^ 64 ∧ Memory.kmalloc size st.mem = .done p st'.mem ∧
      st' = ⟨st'.mem, p :: st.returned⟩ := by
  simp only [stepAny] at he
  split_ifs at he with hsize
  cases hrun : Memory.kmalloc size st.mem with
  | halt s' =>
    rw [hrun] at he
    cases he
  | done p s' =>
    rw [hrun] at he
    cases he
    exact ⟨p, hsize, rfl, rfl⟩

end HeapState

/-! ## Runs -/

/-- **What requests that are honoured keep**: a sound heap that ends with a page. -/
def Orderly (st : HeapState) : Prop :=
  (∃ hs fs, Kept st hs fs) ∧ st.mem.heapCurrentLimit % 4096 = 0

/-- `heap_init` leaves an orderly heap. -/
theorem heapInit_orderly {boot s0 : Mem} (h : heapInit boot = .done () s0) : Orderly ⟨s0, []⟩ := by
  have hsound := (heapInit_sound boot).apply h
  refine ⟨⟨_, _, hsound, fun p hp => by cases hp⟩, ?_⟩
  have hpaged : Ensures heapInit boot (fun _ s' => s'.heapCurrentLimit % 4096 = 0)
      (fun _ => True) := by
    refine ensures_modify_bind (ensures_bind ?_)
    refine (heapExpand_spec _ (show kernelHeapStart < 2 ^ 64 by decide)).mono ?_ fun _ _ => trivial
    rintro r s1 ⟨j, -, hexp, -⟩
    have hlim : s1.heapCurrentLimit % 4096 = 0 := by
      rw [hexp.limit]
      simp only [wrap, kernelHeapStart]
      omega
    refine ensures_read_bind ?_
    by_cases hzero : s1.heapCurrentLimit = kernelHeapStart
    · rw [if_pos hzero]
      exact ensures_halt trivial
    · rw [if_neg hzero]
      exact ensures_modify hlim
  exact hpaged.apply h

/-- An event whose request, if it is one, fits behind `KERNEL_HEAP_START` and finds room. -/
def InRoom (st : HeapState) (e : HeapEvent) (_ : HeapState) : Prop :=
  ∀ size, e = .kmalloc size → size ≠ 0 → size < 2 ^ 64 - kernelHeapStart ∧ st.mem.HasRoom size

/-- An event whose request, if it is one that is answered by a pointer, is honoured. -/
def Honours (st : HeapState) (e : HeapEvent) (st' : HeapState) : Prop :=
  ∀ size p, e = .kmalloc size → st'.returned = p :: st.returned → p ≠ 0 →
    Honoured st'.mem p size

theorem Orderly.step {e : HeapEvent} (h : Orderly st) (he : HeapState.stepAny e st = some st')
    (hroom : InRoom st e st') : Orderly st' := by
  obtain ⟨⟨hs, fs, hkept⟩, hpaged⟩ := h
  cases e with
  | kmalloc size =>
    obtain ⟨p, -, hrun, hst'⟩ := HeapState.stepAny_kmalloc he
    rcases Nat.eq_zero_or_pos size with rfl | hpos
    · obtain ⟨-, hmem⟩ : 0 = p ∧ st.mem = st'.mem := by simpa [Memory.kmalloc] using hrun
      obtain ⟨hs', fs', hkept', -⟩ := hkept.kmalloc (by decide) hrun (hmem ▸ Nat.le_refl _)
      exact ⟨⟨hs', fs', hst' ▸ hkept'⟩, hmem ▸ hpaged⟩
    · obtain ⟨hsize, hroom⟩ := hroom size rfl hpos.ne'
      unfold kernelHeapStart at hsize
      have hserved := (hkept.sound.kmalloc_served hpos).apply hrun
      obtain ⟨hs', fs', hkept', -⟩ := hkept.kmalloc (by omega) hrun
        ((hserved.le_iff hkept.sound.bound).2 hroom)
      exact ⟨⟨hs', fs', hst' ▸ hkept'⟩, hserved.paged hpaged⟩
  | kfree ptr =>
    have hstep : HeapState.step (.kfree ptr) st = some st' := he
    obtain ⟨hs', fs', hkept', -⟩ := hkept.step hstep
    refine ⟨⟨hs', fs', hkept'⟩, ?_⟩
    simp only [HeapState.step] at hstep
    split_ifs at hstep
    cases hstep
    rwa [(Mem.kfree_heapOnly st.mem ptr).heapCurrentLimit]
  | store ptr off v =>
    have hstep : HeapState.step (.store ptr off v) st = some st' := he
    obtain ⟨hs', fs', hkept', -⟩ := hkept.step hstep
    refine ⟨⟨hs', fs', hkept'⟩, ?_⟩
    simp only [HeapState.step] at hstep
    split_ifs at hstep
    cases hstep
    exact hpaged

theorem Orderly.honours_iff {e : HeapEvent} (h : Orderly st)
    (he : HeapState.stepAny e st = some st') : Honours st e st' ↔ InRoom st e st' := by
  obtain ⟨⟨hs, fs, hkept⟩, hpaged⟩ := h
  cases e with
  | kmalloc size =>
    obtain ⟨p, -, hrun, hst'⟩ := HeapState.stepAny_kmalloc he
    have hret : st'.returned = p :: st.returned := by rw [hst']
    rcases Nat.eq_zero_or_pos size with rfl | hpos
    · obtain ⟨rfl, hmem⟩ : 0 = p ∧ st.mem = st'.mem := by simpa [Memory.kmalloc] using hrun
      refine ⟨fun _ size hsize hne => ?_, fun _ size q _ hq hne => ?_⟩
      · exact absurd (HeapEvent.kmalloc.inj hsize).symm hne
      · exact absurd (List.cons.inj (hq.symm.trans hret)).1 hne
    · have hne := ((hkept.sound.kmalloc_served hpos).apply hrun).ne_zero hpaged
      have hiff := (hkept.sound.honoured_iff hpos).apply hrun
      refine ⟨fun hhon n hn _ => ?_, fun hroom n q hn hq _ => ?_⟩
      · obtain rfl := HeapEvent.kmalloc.inj hn
        exact hiff.1 (hhon size p rfl hret hne)
      · obtain rfl := HeapEvent.kmalloc.inj hn
        obtain rfl := (List.cons.inj (hq.symm.trans hret)).1
        exact hiff.2 (hroom size rfl hpos.ne')
  | kfree ptr => simp [Honours, InRoom]
  | store ptr off v => simp [Honours, InRoom]

/-- **When `kmalloc` honours every request** of a run after `heap_init`: each fits behind
`KERNEL_HEAP_START` and finds room. -/
theorem kmalloc_honours_iff {boot s0 : Mem} {st : HeapState} {es : List HeapEvent}
    (hinit : heapInit boot = .done () s0) (hrun : Run HeapState.stepAny ⟨s0, []⟩ es st) :
    Run.Each HeapState.stepAny Honours ⟨s0, []⟩ es ↔
      Run.Each HeapState.stepAny InRoom ⟨s0, []⟩ es :=
  Run.each_iff (fun _ _ _ h he hroom => h.step he hroom) (fun _ _ _ h he => h.honours_iff he) hrun
    (heapInit_orderly hinit)

/-- A small request is honoured. -/
theorem kmalloc_honours_iff_sixFrames : ∃ s0 st, heapInit sixFrames = .done () s0 ∧
      Run HeapState.stepAny ⟨s0, []⟩ [.kmalloc 100] st ∧
      Run.Each HeapState.stepAny Honours ⟨s0, []⟩ [.kmalloc 100] := by
  obtain ⟨st, hst⟩ : ∃ st, afterInit HeapState.step sixFrames [.kmalloc 100] = some st :=
    Option.isSome_iff_exists.1 (by decide +kernel)
  obtain ⟨s0, hinit, hrun⟩ := run_of_afterInit hst
  obtain ⟨p, -, hcall, hlim, hret⟩ := HeapState.step_kmalloc hrun.step_of_single
  have hany : HeapState.stepAny (.kmalloc 100) ⟨s0, []⟩ = some ⟨st.mem, [p]⟩ := by
    simp [HeapState.stepAny, hcall]
  have hrun' := Run.single hany
  refine ⟨s0, _, hinit, hrun', (kmalloc_honours_iff hinit hrun').2 ?_⟩
  refine (Run.each_snoc (.nil _) hany).2 ⟨Run.each_nil _, fun n hn _ => ?_⟩
  obtain rfl := HeapEvent.kmalloc.inj hn
  obtain ⟨⟨hs, fs, hkept⟩, -⟩ := heapInit_orderly hinit
  have hserved := (hkept.sound.kmalloc_served (by decide)).apply hcall
  exact ⟨by decide, (hserved.le_iff hkept.sound.bound).1 hlim⟩

/-- **A request that is not honoured**: the last size is answered by a block of no bytes. -/
theorem kmalloc_last_size : ∃ s0 st, heapInit sixFrames = .done () s0 ∧
      Run HeapState.stepAny ⟨s0, []⟩ [.kmalloc (2 ^ 64 - 1)] st ∧
      st.returned = [kernelHeapStart + headerSize] ∧ st.mem.sizeAt kernelHeapStart = 0 := by
  have hrun : (afterInit HeapState.stepAny sixFrames [.kmalloc (2 ^ 64 - 1)]).map (fun st =>
      (st.returned, st.mem.sizeAt kernelHeapStart)) = some ([kernelHeapStart + headerSize], 0) := by
    decide +kernel
  obtain ⟨st, hst, heq⟩ := Option.map_eq_some_iff.1 hrun
  obtain ⟨s0, hinit, hrun'⟩ := run_of_afterInit hst
  exact ⟨s0, st, hinit, hrun', (Prod.mk.inj heq).1, (Prod.mk.inj heq).2⟩

end Hvos.Memory
