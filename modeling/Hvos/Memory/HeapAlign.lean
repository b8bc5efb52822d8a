import Hvos.Memory.HeapSizes

/-!
# Memory/HeapAlign — how the pointers of `kmalloc` are aligned

The heap starts at a page and a header has 24 bytes, so the first block of the heap, and every block
at a new limit, lies 8 bytes off a multiple of 16.  The first pointer `kmalloc` returns is one of
them, whatever the size: a run of `kmalloc` and `kfree` returns multiples of 16 only if it asks for
nothing (`kmalloc_aligned_iff`).  Later pointers are multiples of 16 as the blocks in front have it
(`pointer_aligned_iff`).
-/

namespace Hvos.Memory

open Bytes Blocks Prog

variable {s s' : Mem} {hs fs : List ℕ} {b k p size : ℕ}

/-! ## The first pointer -/

/-- Behind the start of the heap, and behind a new limit, no pointer is a multiple of 16. -/
theorem Served.not_aligned (h : Served s [kernelHeapStart] k p s')
    (hpaged : s.heapCurrentLimit % 4096 = 0) : p % 16 = 8 := by
  rcases h.pointer with ⟨b, hb, rfl, -⟩ | ⟨rfl, -⟩
  · obtain rfl := List.mem_singleton.1 hb
    rfl
  · unfold wrap headerSize
    omega

variable {st st' : HeapState} {e : HeapEvent}

/-- Pointers stay returned. -/
theorem HeapState.stepAny_returned (he : stepAny e st = some st') (hp : p ∈ st.returned) :
    p ∈ st'.returned := by
  cases e with
  | kmalloc size =>
    obtain ⟨q, -, -, hst'⟩ := stepAny_kmalloc he
    rw [hst']
    exact List.mem_cons_of_mem _ hp
  | kfree ptr =>
    simp only [stepAny, step] at he
    split_ifs at he
    cases he
    exact hp
  | store ptr off v =>
    simp only [stepAny, step] at he
    split_ifs at he
    cases he
    exact hp

/-- What the events so far say of the pointers returned: nothing was asked for and nothing has
happened, or something was, and a pointer is not a multiple of 16. -/
def Misaligned (s0 : Mem) (es : List HeapEvent) (st : HeapState) : Prop :=
  (∀ size, .kmalloc size ∈ es → size = 0) ∧ st.mem = s0 ∧ (∀ p ∈ st.returned, p = 0) ∨
    (∃ size, .kmalloc size ∈ es ∧ size ≠ 0) ∧ ∃ p ∈ st.returned, p ≠ 0 ∧ ¬16 ∣ p

theorem Misaligned.step {s0 : Mem} {es : List HeapEvent}
    (hsound : Sound s0 [kernelHeapStart] [kernelHeapStart])
    (hpaged : s0.heapCurrentLimit % 4096 = 0) (h : Misaligned s0 es st)
    (he : HeapState.stepAny e st = some st') : Misaligned s0 (es ++ [e]) st' := by
  rcases h with ⟨hnone, hmem, hnull⟩ | ⟨⟨size, hsize, hne⟩, p, hp, hmis⟩
  · cases e with
    | kmalloc size =>
      obtain ⟨p, -, hrun, hst'⟩ := HeapState.stepAny_kmalloc he
      rw [hmem] at hrun
      rcases Nat.eq_zero_or_pos size with rfl | hpos
      · obtain ⟨rfl, hsame⟩ : 0 = p ∧ s0 = st'.mem := by simpa [kmalloc] using hrun
        refine .inl ⟨fun n hn => ?_, hsame.symm, ?_⟩
        · rcases List.mem_append.1 hn with hn | hn
          · exact hnone n hn
          · exact HeapEvent.kmalloc.inj (List.mem_singleton.1 hn)
        · rw [hst']
          simpa using hnull
      · have hoff := ((hsound.kmalloc_served hpos).apply hrun).not_aligned hpaged
        refine .inr ⟨⟨size, by simp, hpos.ne'⟩, p, ?_, by omega, by omega⟩
        rw [hst']
        exact List.mem_cons_self
    | kfree ptr =>
      simp only [HeapState.stepAny, HeapState.step] at he
      split_ifs at he with hptr
      cases he
      have hzero : ptr = 0 := hptr.elim id (hnull ptr)
      refine .inl ⟨by simpa using hnone, ?_, hnull⟩
      rw [← hmem, Mem.kfree, if_pos hzero]
    | store ptr off v =>
      simp only [HeapState.stepAny, HeapState.step] at he
      split_ifs at he with hptr
      exact absurd (hnull ptr hptr.2.1) hptr.1
  · exact .inr ⟨⟨size, List.mem_append_left _ hsize, hne⟩, p,
      HeapState.stepAny_returned he hp, hmis⟩

/-- **When every pointer is a multiple of 16**: when nothing was asked for. -/
theorem kmalloc_aligned_iff {boot s0 : Mem} {st : HeapState} {es : List HeapEvent}
    (hinit : heapInit boot = .done () s0) (hrun : Run HeapState.stepAny ⟨s0, []⟩ es st) :
    (∀ p ∈ st.returned, p ≠ 0 → 16 ∣ p) ↔ ∀ size, .kmalloc size ∈ es → size = 0 := by
  have hsound := (heapInit_sound boot).apply hinit
  have hpaged := (heapInit_orderly hinit).2
  have hmis : Misaligned s0 es st := hrun.history
    (fun _ _ _ _ _ h he => h.step hsound hpaged he) (.inl ⟨by simp, rfl, by simp⟩)
  rcases hmis with ⟨hnone, -, hnull⟩ | ⟨⟨size, hsize, hne⟩, p, hp, hzero, hmis⟩
  · exact ⟨fun _ => hnone, fun _ p hp hne => absurd (hnull p hp) hne⟩
  · exact ⟨fun hall => absurd (hall p hp hzero) hmis, fun hall => absurd (hall size hsize) hne⟩

/-- The first pointer after `heap_init`. -/
theorem kmalloc_first_pointer : ∃ s0 st, heapInit sixFrames = .done () s0 ∧
      Run HeapState.stepAny ⟨s0, []⟩ [.kmalloc 100] st ∧
      st.returned = [kernelHeapStart + headerSize] ∧ (kernelHeapStart + headerSize) % 16 = 8 := by
  have hrun : (afterInit HeapState.stepAny sixFrames [.kmalloc 100]).map (·.returned) =
      some [kernelHeapStart + headerSize] := by decide +kernel
  obtain ⟨st, hst, hret⟩ := Option.map_eq_some_iff.1 hrun
  obtain ⟨s0, hinit, hrun'⟩ := run_of_afterInit hst
  exact ⟨s0, st, hinit, hrun', hret, by decide⟩

/-- Asking for nothing. -/
theorem kmalloc_aligned_iff_nothing : ∃ s0 st, heapInit sixFrames = .done () s0 ∧
      Run HeapState.stepAny ⟨s0, []⟩ [.kmalloc 0, .kfree 0] st ∧
      ∀ p ∈ st.returned, p ≠ 0 → 16 ∣ p := by
  obtain ⟨st, hst⟩ : ∃ st, afterInit HeapState.stepAny sixFrames [.kmalloc 0, .kfree 0] = some st :=
    Option.isSome_iff_exists.1 (by decide +kernel)
  obtain ⟨s0, hinit, hrun⟩ := run_of_afterInit hst
  exact ⟨s0, st, hinit, hrun, (kmalloc_aligned_iff hinit hrun).2 (by simp)⟩

/-! ## Later pointers -/

/-- A block lies behind the headers and bytes of those in front of it. -/
theorem tiles_position_mod {sz : ℕ → ℕ} {a lim : ℕ} {as cs : List ℕ}
    (h : Tiles headerSize sz a lim (as ++ b :: cs)) (hsizes : ∀ x ∈ as, sz x % 8 = 0) :
    b % 16 = (a + 8 * as.countP fun x => sz x % 16 = 0) % 16 := by
  induction as generalizing a with
  | nil =>
    obtain ⟨rfl, -⟩ := h
    rfl
  | cons x as ih =>
    obtain ⟨rfl, h⟩ := h
    have hx := hsizes x List.mem_cons_self
    rw [ih h fun y hy => hsizes y (List.mem_cons_of_mem _ hy), List.countP_cons]
    unfold headerSize
    by_cases hzero : sz x % 16 = 0
    · rw [if_pos (decide_eq_true hzero)]
      omega
    · rw [if_neg (by simpa using hzero)]
      omega

/-- Blocks at multiples of 8 have sizes that are multiples of 8. -/
theorem tiles_size_mod {sz : ℕ → ℕ} {a lim : ℕ} {as : List ℕ} (h : Tiles headerSize sz a lim as)
    (hpos : ∀ x ∈ as, x % 8 = 0) (hlim : lim % 8 = 0) : ∀ x ∈ as, sz x % 8 = 0 := by
  induction as generalizing a with
  | nil => simp
  | cons x as ih =>
    obtain ⟨rfl, h⟩ := h
    have hx := hpos x List.mem_cons_self
    have hrest := fun y hy => hpos y (List.mem_cons_of_mem x hy)
    have hend : (x + headerSize + sz x) % 8 = 0 := by
      cases as with
      | nil => rwa [show x + headerSize + sz x = lim from h]
      | cons y as =>
        rw [← h.1]
        exact hrest y List.mem_cons_self
    unfold headerSize at hend
    exact List.forall_mem_cons.2 ⟨by omega, ih h hrest⟩

/-- Splitting a block adds one header at most. -/
theorem Layout.split_headers (h : Layout s hs fs) (hb : b ∈ hs) (hk : k ≤ s.sizeAt b) :
    ∃ hs', Tiles headerSize (s.split b k).sizeAt kernelHeapStart s.heapCurrentLimit hs' ∧
      ∀ c ∈ hs', c ∈ hs ∨ c = b + headerSize + k := by
  rw [h.split_eq hb hk]
  split_ifs with hfit
  · obtain ⟨as, cs, rfl⟩ := List.append_of_mem hb
    have htiles := h.cut_tiles (k := k) (by omega)
    rw [Mem.cut_heapCurrentLimit] at htiles
    exact ⟨_, htiles, fun c hc => mem_cut.1 hc⟩
  · exact ⟨hs, h.tiles, fun c hc => .inl hc⟩

/-- **The headers after a request**: the old ones, one at the old limit, and one behind a block of
the rounded size. -/
theorem Sound.served_headers (h : Sound s hs fs) (hserved : Served s fs k p s')
    (hk : k + 4143 < 2 ^ 64) (hlim : s.heapCurrentLimit ≤ s'.heapCurrentLimit) :
    ∃ hs', Tiles headerSize s'.sizeAt kernelHeapStart s'.heapCurrentLimit hs' ∧
      ∀ c ∈ hs', ∃ b ∈ hs ++ [s.heapCurrentLimit], c = b ∨ c = b + headerSize + k := by
  cases hserved with
  | @listed prev current hf hfit =>
    have hcur := h.sub current hf.mem
    have hsize := (h.toLayout.unlink_fields hf hcur).1
    obtain ⟨hs', htiles, hmem⟩ := (h.toLayout.unlink hf).split_headers hcur (k := k) (by rwa [hsize])
    refine ⟨hs', ?_, fun c hc => ?_⟩
    · rw [Mem.heapCurrentLimit_setIsFree, Mem.heapCurrentLimit_split]
      refine htiles.congr fun c hc => Mem.sizeAt_setIsFree ?_
      rcases hmem c hc with hc | rfl
      · exact h.toLayout.apart hcur hc
      · exact (apart_cut current k).2.1
    · rcases hmem c hc with hc | rfl
      · exact ⟨c, List.mem_append_left _ hc, .inl rfl⟩
      · exact ⟨current, List.mem_append_left _ hcur, .inr rfl⟩
  | @grown s1 hexp _ =>
    have hmono : s.heapCurrentLimit ≤ s1.heapCurrentLimit := by simpa using hlim
    obtain ⟨heq, -, hext, hsize⟩ := h.grown hexp hk hmono
    obtain ⟨hs', htiles, hmem⟩ := hext.split_headers (by simp) hsize
    rw [heq, Mem.heapCurrentLimit_split]
    refine ⟨hs', htiles, fun c hc => ?_⟩
    rcases hmem c hc with hc | rfl
    · exact ⟨c, hc, .inl rfl⟩
    · exact ⟨s.heapCurrentLimit, by simp, .inr rfl⟩

/-- Headers at multiples of 8, and a limit at the start of a page. -/
structure Eighths (st : HeapState) (hs : List ℕ) : Prop where
  mod : ∀ h ∈ hs, h % 8 = 0
  paged : st.mem.heapCurrentLimit % 4096 = 0

/-- **One event** keeps them. -/
theorem Eighths.step {hs' fs' : List ℕ} (h : Eighths st hs) (hkept : Kept st hs fs)
    (he : HeapState.step e st = some st') (hkept' : Kept st' hs' fs') : Eighths st' hs' := by
  have hsame : Tiles headerSize st'.mem.sizeAt kernelHeapStart st'.mem.heapCurrentLimit hs →
      st'.mem.heapCurrentLimit = st.mem.heapCurrentLimit → Eighths st' hs' := by
    intro htiles hlim
    obtain rfl := htiles.unique (by decide) hkept'.sound.tiles
    exact ⟨h.mod, by rw [hlim, h.paged]⟩
  cases e with
  | kmalloc n =>
    obtain ⟨p, hn, hrun, hlim, -⟩ := HeapState.step_kmalloc he
    rcases Nat.eq_zero_or_pos n with rfl | hpos
    · obtain ⟨-, hmem⟩ : 0 = p ∧ st.mem = st'.mem := by simpa [kmalloc] using hrun
      exact hsame (hmem ▸ hkept.sound.tiles) (by rw [hmem])
    · have hserved := (hkept.sound.kmalloc_served hpos).apply hrun
      have hround : wrap (n + 15) / 16 * 16 + 4143 < 2 ^ 64 := by
        unfold wrap
        omega
      obtain ⟨hs'', htiles, hmem⟩ := hkept.sound.served_headers hserved hround hlim
      obtain rfl := htiles.unique (by decide) hkept'.sound.tiles
      refine ⟨fun c hc => ?_, hserved.paged h.paged⟩
      obtain ⟨b, hb, hcb⟩ := hmem c hc
      have hpaged := h.paged
      have hbmod : b % 8 = 0 := by
        rcases List.mem_append.1 hb with hb | hb
        · exact h.mod b hb
        · obtain rfl := List.mem_singleton.1 hb
          omega
      unfold headerSize at hcb
      omega
  | kfree ptr =>
    simp only [HeapState.step] at he
    split_ifs at he with hptr
    cases he
    refine hsame ?_ (Mem.kfree_heapOnly st.mem ptr).heapCurrentLimit
    by_cases hzero : ptr = 0
    · rw [Mem.kfree, if_pos hzero]
      exact hkept.sound.tiles
    · obtain ⟨b, hb, rfl⟩ := hkept.returned ptr (hptr.resolve_left hzero) hzero
      rw [(Mem.kfree_heapOnly st.mem _).heapCurrentLimit]
      exact hkept.sound.tiles.congr fun c hc => hkept.sound.kfree_sizeAt hb hc
  | store ptr off v =>
    simp only [HeapState.step] at he
    split_ifs at he with hptr
    cases he
    obtain ⟨hne, hmem, -, hoff⟩ := hptr
    obtain ⟨b, hb, rfl⟩ := hkept.returned ptr hmem hne
    rw [Nat.add_sub_cancel] at hoff
    exact hsame (hkept.sound.store hb hoff v).tiles rfl

/-- **Which pointers are multiples of 16**: after any run, those of the blocks behind an odd number
of blocks whose size is one. -/
theorem pointer_aligned_iff {boot s0 : Mem} {st : HeapState} {es : List HeapEvent}
    (hinit : heapInit boot = .done () s0) (hrun : Run HeapState.step ⟨s0, []⟩ es st) :
    ∃ hs, Tiles headerSize st.mem.sizeAt kernelHeapStart st.mem.heapCurrentLimit hs ∧
      ∀ as b cs, hs = as ++ b :: cs →
        (16 ∣ b + headerSize ↔ (as.countP fun x => st.mem.sizeAt x % 16 = 0) % 2 = 1) := by
  have hstart : Kept ⟨s0, []⟩ [kernelHeapStart] [kernelHeapStart] :=
    ⟨(heapInit_sound boot).apply hinit, fun p hp => by cases hp⟩
  have hinv : ∃ hs fs, Kept st hs fs ∧ Eighths st hs := by
    refine hrun.invariant (I := fun t => ∃ hs fs, Kept t hs fs ∧ Eighths t hs) ?_
      ⟨_, _, hstart, by simp [kernelHeapStart], (heapInit_orderly hinit).2⟩
    rintro e t t' ⟨hs, fs, hkept, heighths⟩ he
    obtain ⟨hs', fs', hkept', -⟩ := hkept.step he
    exact ⟨hs', fs', hkept', heighths.step hkept he hkept'⟩
  obtain ⟨hs, fs, hkept, heighths⟩ := hinv
  have hpaged := heighths.paged
  have hsizes := tiles_size_mod hkept.sound.tiles heighths.mod (by omega)
  refine ⟨hs, hkept.sound.tiles, ?_⟩
  rintro as b cs rfl
  have hmod := tiles_position_mod hkept.sound.tiles fun x hx =>
    hsizes x (List.mem_append_left _ hx)
  unfold kernelHeapStart at hmod
  unfold headerSize
  omega

/-- The first of two blocks. -/
theorem pointer_aligned_iff_first :
    ∃ st hs, afterInit HeapState.step sixFrames [.kmalloc 100] = some st ∧
      Tiles headerSize st.mem.sizeAt kernelHeapStart st.mem.heapCurrentLimit hs ∧
      ∀ b cs, hs = b :: cs → ¬16 ∣ b + headerSize := by
  obtain ⟨st, hst⟩ : ∃ st, afterInit HeapState.step sixFrames [.kmalloc 100] = some st :=
    Option.isSome_iff_exists.1 (by decide +kernel)
  obtain ⟨s0, hinit, hrun⟩ := run_of_afterInit hst
  obtain ⟨hs, htiles, h⟩ := pointer_aligned_iff hinit hrun
  exact ⟨st, hs, hst, htiles, fun b cs hb => by simp [h [] b cs hb]⟩

end Hvos.Memory
