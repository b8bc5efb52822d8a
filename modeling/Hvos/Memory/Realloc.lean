import Hvos.Memory.HeapLive
import Hvos.Memory.HeapReuse

/-!
# Memory/Realloc — `kcalloc` and `krealloc`

`kcalloc` refuses a product that does not fit 64 bits; `krealloc` does so only for the null pointer,
and otherwise allocates, copies and frees with the product modulo `2 ^ 64`.  So it keeps the data
exactly if the product fits behind `KERNEL_HEAP_START`, or is a multiple of `2 ^ 64`, when nothing
is allocated (`krealloc_keeps_iff`).
-/

namespace Hvos.Memory

open Bytes Blocks Prog

variable {s s1 s' : Mem} {hs fs : List ℕ} {b c d n p q size : ℕ}

/-! ## `memset` and `memcpy` in the heap -/

/-- The `n` bytes from `ptr` on are on pages of the heap. -/
def Mem.OnPages (s : Mem) (ptr n : ℕ) : Prop :=
  wsub ptr kernelHeapStart + n ≤ wsub s.heapCurrentLimit kernelHeapStart

instance Mem.decidableOnPages (s : Mem) (ptr n : ℕ) : Decidable (s.OnPages ptr n) := Nat.decLe ..

/-- `memset` to zero.  A byte beyond the pages of the heap faults, which stops the machine. -/
def memsetHeap (ptr n : ℕ) : Prog Mem Unit := do
  if ← Prog.read fun s => decide (s.OnPages ptr n) then
    Prog.modify fun s => s.zeroHeap ptr n
  else Prog.halt

/-- `memcpy` between blocks that do not overlap. -/
def memcpyHeap (dst src n : ℕ) : Prog Mem Unit := do
  if ← Prog.read fun s => decide (s.OnPages dst n ∧ s.OnPages src n) then
    Prog.modify fun s => s.copyHeap dst n fun k => s.heapBytes (src + k)
  else Prog.halt

/-! ## `kcalloc` and `krealloc` -/

/-- `SIZE_MAX`. -/
def sizeMax : ℕ := 2 ^ 64 - 1

/-- `kcalloc`. -/
def kcalloc (n size : ℕ) : Prog Mem ℕ :=
  if n ≠ 0 ∧ size > sizeMax / n then pure 0
  else
    let totalSize := wrap (n * size)
    if totalSize = 0 then pure 0
    else do
      let ptr ← kmalloc totalSize
      if ptr = 0 then pure 0
      else do
        memsetHeap ptr totalSize
        pure ptr

/-- `krealloc`. -/
def krealloc (p newN newSize oldTotalSize : ℕ) : Prog Mem ℕ :=
  if p = 0 then
    if newN ≠ 0 ∧ newSize > sizeMax / newN then pure 0
    else kmalloc (wrap (newN * newSize))
  else if newN = 0 ∨ newSize = 0 then do
    Prog.modify fun s => s.kfree p
    pure 0
  else do
    let newTotalSize := wrap (newN * newSize)
    let newPtr ← kmalloc newTotalSize
    if newPtr = 0 then pure 0
    else do
      memcpyHeap newPtr p (if oldTotalSize < newTotalSize then oldTotalSize else newTotalSize)
      Prog.modify fun s => s.kfree p
      pure newPtr

/-! ## What they are for -/

/-- A block of `n` bytes at least, in use, whose pointer is `q`. -/
def InUse (s : Mem) (q n : ℕ) : Prop :=
  ∃ hs c, Tiles headerSize s.sizeAt kernelHeapStart s.heapCurrentLimit hs ∧ c ∈ hs ∧
    q = c + headerSize ∧ n ≤ s.sizeAt c ∧ s.isFreeAt c = false

/-- **What `krealloc` of block `b` is to do**: refuse and leave the block alone, free it where
nothing is asked for, or move its bytes to a block that is large enough, free it, and leave the
other live blocks alone. -/
def KeepsData (s : Mem) (b old newN newSize q : ℕ) (s' : Mem) : Prop :=
  q = 0 ∧ (s'.isFreeAt b = false ∧ Intact s s' b ∨
      (newN = 0 ∨ newSize = 0) ∧ s'.isFreeAt b = true) ∨
    InUse s' q (newN * newSize) ∧ (∀ x ∈ s.live, q ≠ x.1 + headerSize) ∧
      (∀ i < min old (newN * newSize), s'.heapBytes (q + i) = s.heapBytes (b + headerSize + i)) ∧
      s'.isFreeAt b = true ∧ ∀ x ∈ s.live, x.1 ≠ b → x ∈ s'.live ∧ Intact s s' x.1

/-- **What `kcalloc` is to do**: refuse, or return a block of zeros that is large enough. -/
def ZeroesData (n size q : ℕ) (s' : Mem) : Prop :=
  q = 0 ∨ InUse s' q (n * size) ∧ ∀ i < n * size, s'.heapBytes (q + i) = 0

/-! ## The calls one by one -/

/-- A block in use is inside the heap. -/
theorem InUse.bounds (h : InUse s q n) :
    kernelHeapStart + headerSize ≤ q ∧ q + n ≤ s.heapCurrentLimit := by
  obtain ⟨hs, c, htiles, hc, rfl, hn, -⟩ := h
  obtain ⟨hge, hle⟩ := htiles.bounds hc
  exact ⟨by omega, by omega⟩

theorem memsetHeap_spec (ptr n : ℕ) (s : Mem) :
    Ensures (memsetHeap ptr n) s (fun _ s' => s.OnPages ptr n ∧ s' = s.zeroHeap ptr n)
      (fun _ => True) := by
  refine ensures_read_bind ?_
  by_cases hon : s.OnPages ptr n
  · rw [if_pos (decide_eq_true hon)]
    exact ensures_modify ⟨hon, rfl⟩
  · rw [if_neg (by simpa using hon)]
    exact ensures_halt trivial

theorem memcpyHeap_spec (dst src n : ℕ) (s : Mem) : Ensures (memcpyHeap dst src n) s
      (fun _ s' => s' = s.copyHeap dst n fun k => s.heapBytes (src + k)) (fun _ => True) := by
  refine ensures_read_bind ?_
  by_cases hon : s.OnPages dst n ∧ s.OnPages src n
  · rw [if_pos (decide_eq_true hon)]
    exact ensures_modify rfl
  · rw [if_neg (by simpa using hon)]
    exact ensures_halt trivial

/-- Bytes written inside one block leave the others alone. -/
theorem Wrote.intact (h : Wrote s s' c n) (hsound : Sound s hs fs) (hc : c ∈ hs)
    (hn : n ≤ s.sizeAt c) (hd : d ∈ hs) (hne : d ≠ c) : Intact s s' d := by
  intro x hx hlt
  have hapart := hsound.tiles.apart hc hd
  exact h.heapBytes x (by omega)

/-- …and its own header. -/
theorem Wrote.fields (h : Wrote s s' c n) : s'.sizeAt c = s.sizeAt c ∧ s'.isFreeAt c = s.isFreeAt c :=
  fields_congr fun x _ hlt => h.heapBytes x (.inl hlt)

/-- The block of an allocation was not live. -/
theorem Allocated.fresh {hs' fs' : List ℕ} (h : Allocated s s' hs hs' fs fs' n q)
    (hsound : Sound s hs fs) : ∀ x ∈ s.live, q ≠ x.1 + headerSize := by
  rintro x hx rfl
  obtain ⟨hmem, hlive, -⟩ := hsound.mem_live.1 hx
  obtain ⟨c, -, hc, hwas, -⟩ := h.block
  obtain rfl := Nat.add_right_cancel hc
  rcases hwas with hfree | hnew
  · rw [(hsound.free_iff x.1 hmem).2 hfree] at hlive
    cases hlive
  · exact hnew hmem

section

variable (h : Sound s hs fs)
include h

/-- **Allocate, copy, free**: what is left when the allocation was in order. -/
theorem Sound.moved {k old newN newSize : ℕ} {hs1 fs1 : List ℕ} (hb : b ∈ hs)
    (hlive : s.isFreeAt b = false) (hold : old ≤ s.sizeAt b)
    (hintact : ∀ d ∈ hs, s.isFreeAt d = false → Intact s s1 d)
    (hall : Allocated s s1 hs hs1 fs fs1 (newN * newSize) q) (hk : k = min old (newN * newSize)) :
    KeepsData s b old newN newSize q
      ((s1.copyHeap q k fun i => s1.heapBytes (b + headerSize + i)).kfree (b + headerSize)) := by
  have hfresh := hall.fresh h
  obtain ⟨c, hc, rfl, -, hsize, hclear, -⟩ := hall.block
  have hbc : ∀ x ∈ s.live, x.1 ≠ c := fun x hx heq => hfresh x hx (by rw [heq])
  have hblive : (b, s.sizeAt b) ∈ s.live := h.mem_live.2 ⟨hb, hlive, rfl⟩
  have hb1 := hall.old b hb
  have hclive : (c, s1.sizeAt c) ∈ s1.live := hall.sound.mem_live.2 ⟨hc, hclear, rfl⟩
  have hwrote : Wrote s1 (s1.copyHeap (c + headerSize) k fun i =>
      s1.heapBytes (b + headerSize + i)) c (s1.sizeAt c) :=
    ⟨⟨rfl, rfl, rfl, rfl⟩, rfl, fun x hx => if_neg (by omega)⟩
  generalize hs2 : s1.copyHeap (c + headerSize) k _ = s2 at hwrote ⊢
  have hsound2 := (hall.sound.wrote hclive hwrote).1
  obtain ⟨fs', hsound'⟩ := hsound2.kfree hb1
  have hothers : ∀ d ∈ hs1, d ≠ b → Intact s2 (s2.kfree (b + headerSize)) d :=
    fun d hd hne => hsound2.kfree_intact hb1 hd hne
  have hcfields := (hothers c hc (hbc _ hblive).symm).fields
  refine .inr ⟨⟨hs1, c, hsound'.tiles, hc, rfl, ?_, ?_⟩, hfresh, fun i hi => ?_, ?_, fun x hx hne => ?_⟩
  · rwa [hcfields.1, hwrote.fields.1]
  · rw [hcfields.2, hwrote.fields.2, hclear]
  · have hin : i < s.sizeAt b := by omega
    have hcopy : s2.heapBytes (c + headerSize + i) = s1.heapBytes (b + headerSize + i) := by
      rw [← hs2]
      refine (if_pos ⟨by omega, by omega⟩).trans ?_
      rw [Nat.add_sub_cancel_left]
    rw [hothers c hc (hbc _ hblive).symm _ (by omega) (by rw [hwrote.fields.1]; omega), hcopy,
      hintact b hb hlive _ (by omega) (by omega)]
  · rw [hsound2.kfree_isFreeAt hb1 hb1, if_pos rfl]
  · obtain ⟨hmem, hxlive, hxsize⟩ := h.mem_live.1 hx
    have hx1 := hall.old x.1 hmem
    have hfull : Intact s (s2.kfree (b + headerSize)) x.1 :=
      ((hintact x.1 hmem hxlive).trans
        (hwrote.intact hall.sound hc (Nat.le_refl _) hx1 (hbc x hx))).trans (hothers x.1 hx1 hne)
    refine ⟨hsound'.mem_live.2 ⟨hx1, ?_, ?_⟩, hfull⟩
    · rw [hfull.fields.2, hxlive]
    · rw [hfull.fields.1, hxsize]

/-- A request that is small enough and does not make the limit wrap is an allocation, and leaves the
live blocks alone. -/
theorem Sound.kmalloc_allocated (hpos : 0 < size) (hsize : size + 4158 < 2 ^ 64) :
    Ensures (Memory.kmalloc size) s
      (fun q s' => s.heapCurrentLimit ≤ s'.heapCurrentLimit →
        (∃ hs' fs', Allocated s s' hs hs' fs fs' size q) ∧
          ∀ d ∈ hs, s.isFreeAt d = false → Intact s s' d)
      (fun _ => True) := by
  have hround : wrap (size + 15) / 16 * 16 + 4143 < 2 ^ 64 := by
    unfold wrap
    omega
  refine ((h.kmalloc hpos hsize).and (h.kmalloc_served hpos)).mono (fun q s' hq hlim => ?_)
    fun _ _ => trivial
  exact ⟨hq.1 hlim, fun d hd hlive => h.served_intact hq.2 hround hlim hd hlive⟩

/-- A pointer that `kmalloc` returns is one behind the start of the heap. -/
theorem Sound.served_ge {k : ℕ} (hserved : Served s fs k p s')
    (hpaged : s.heapCurrentLimit % 4096 = 0) : kernelHeapStart + headerSize ≤ p ∧ p < 2 ^ 64 := by
  have hbound := h.bound
  rcases hserved.pointer with ⟨b, hb, rfl, -⟩ | ⟨rfl, -⟩
  · have hbounds := h.bounds (h.sub b hb)
    exact ⟨by omega, by omega⟩
  · have hle := h.tiles.le
    rw [wrap_of_lt (by unfold headerSize; omega)]
    exact ⟨by omega, by unfold headerSize; omega⟩

/-- What a call for a product modulo `2 ^ 64` does. -/
theorem Sound.kmalloc_product {m : ℕ} (hpos : 0 < wrap m) :
    Ensures (Memory.kmalloc (wrap m)) s
      (fun q s' => Served s fs (wrap (wrap m + 15) / 16 * 16) q s' ∧
        (m < 2 ^ 64 - kernelHeapStart → s.heapCurrentLimit ≤ s'.heapCurrentLimit →
          (∃ hs' fs', Allocated s s' hs hs' fs fs' m q) ∧
            ∀ d ∈ hs, s.isFreeAt d = false → Intact s s' d))
      (fun _ => True) := by
  by_cases hroom : m < 2 ^ 64 - kernelHeapStart
  · have hm : wrap m = m := wrap_of_lt (by omega)
    have hsmall : wrap m + 4158 < 2 ^ 64 := by
      unfold kernelHeapStart at hroom
      omega
    refine ((h.kmalloc_served hpos).and (h.kmalloc_allocated hpos hsmall)).mono
      (fun q s' hq => ⟨hq.1, fun _ hlim => ?_⟩) fun _ _ => trivial
    have hall := hq.2 hlim
    rwa [hm] at hall
  · exact (h.kmalloc_served hpos).imp fun q s' hq => ⟨hq, fun hlt => absurd hlt hroom⟩

/-- **When `krealloc` keeps the data** of a live block. -/
theorem Sound.krealloc_iff (hpaged : s.heapCurrentLimit % 4096 = 0) (hb : b ∈ hs)
    (hlive : s.isFreeAt b = false) {old : ℕ} (hold : old ≤ s.sizeAt b) (newN newSize : ℕ) :
    Ensures (krealloc (b + headerSize) newN newSize old) s
      (fun q s' => KeepsData s b old newN newSize q s' ↔ 2 ^ 64 ∣ newN * newSize ∨
        newN * newSize < 2 ^ 64 - kernelHeapStart ∧ s.HasRoom (newN * newSize))
      (fun _ => True) := by
  have hne : b + headerSize ≠ 0 := by simp [headerSize]
  unfold krealloc
  rw [if_neg hne]
  by_cases hzero : newN = 0 ∨ newSize = 0
  · rw [if_pos hzero]
    refine ensures_modify_bind (ensures_pure ⟨fun _ => .inl ?_, fun _ => .inl ?_⟩)
    · rw [Nat.mul_eq_zero.2 hzero]
      exact Nat.dvd_zero _
    · refine ⟨rfl, .inr ⟨hzero, ?_⟩⟩
      rw [h.kfree_isFreeAt hb hb, if_pos rfl]
  rw [if_neg hzero]
  rcases Nat.eq_zero_or_pos (wrap (newN * newSize)) with hwrap | hpos
  · simp only [hwrap]
    refine ensures_bind (ensures_pure ?_)
    rw [if_pos rfl]
    refine ensures_pure ⟨fun _ => .inl (Nat.dvd_of_mod_eq_zero hwrap), fun _ => .inl ⟨rfl, .inl ?_⟩⟩
    exact ⟨hlive, fun _ _ _ => rfl⟩
  have hdvd : ¬2 ^ 64 ∣ newN * newSize := fun hdvd => hpos.ne' (Nat.mod_eq_zero_of_dvd hdvd)
  refine (h.kmalloc_product hpos).bind ?_
  rintro q s1 ⟨hserved, hall⟩
  have hq := hserved.ne_zero hpaged
  rw [if_neg hq]
  refine (memcpyHeap_spec ..).bind ?_
  rintro - s2 rfl
  refine ensures_modify_bind (ensures_pure ?_)
  have hlim := (Mem.kfree_heapOnly (s1.copyHeap q (if old < wrap (newN * newSize) then old
    else wrap (newN * newSize)) fun k => s1.heapBytes (b + headerSize + k))
    (b + headerSize)).heapCurrentLimit
  rw [or_iff_right hdvd]
  have hmono : newN * newSize < 2 ^ 64 - kernelHeapStart →
      (s.heapCurrentLimit ≤ s1.heapCurrentLimit ↔ s.HasRoom (newN * newSize)) := by
    intro hlt
    rw [hserved.le_iff h.bound, wrap_of_lt (by omega)]
  refine ⟨fun hkeeps => ?_, fun hroom => ?_⟩
  · obtain ⟨huse, -⟩ := hkeeps.resolve_left fun hnull => hq hnull.1
    obtain ⟨hge, hle⟩ := huse.bounds
    rw [hlim] at hle
    have hle' : q + newN * newSize ≤ s1.heapCurrentLimit := hle
    have hbound := hserved.limit_lt h.bound
    have hlt : newN * newSize < 2 ^ 64 - kernelHeapStart := by omega
    exact ⟨hlt, (hmono hlt).1 (hserved.le_of_inside h.bound hge (by omega))⟩
  · obtain ⟨hlt, hroom⟩ := hroom
    obtain ⟨⟨hs', fs', hallocated⟩, hintact⟩ := hall hlt ((hmono hlt).2 hroom)
    refine h.moved hb hlive hold hintact hallocated ?_
    rw [wrap_of_lt (by omega)]
    split_ifs
    · omega
    · omega

/-- **When `kcalloc` returns zeros**: whenever it returns, unless the pages it needs make the limit
wrap. -/
theorem Sound.kcalloc_iff (hpaged : s.heapCurrentLimit % 4096 = 0) (n size : ℕ) :
    Ensures (kcalloc n size) s
      (fun q s' => ZeroesData n size q s' ↔
        n * size = 0 ∨ 2 ^ 64 ≤ n * size ∨ s.HasRoom (n * size)) (fun _ => True) := by
  have hguard : (n ≠ 0 ∧ size > sizeMax / n) ↔ 2 ^ 64 ≤ n * size := by
    rcases Nat.eq_zero_or_pos n with rfl | hn
    · simp
    · rw [and_iff_right hn.ne', gt_iff_lt, Nat.div_lt_iff_lt_mul hn, Nat.mul_comm]
      unfold sizeMax
      omega
  unfold kcalloc
  by_cases hbig : 2 ^ 64 ≤ n * size
  · rw [if_pos (hguard.2 hbig)]
    exact ensures_pure (iff_of_true (.inl rfl) (.inr (.inl hbig)))
  rw [if_neg (mt hguard.1 hbig)]
  have hprod : wrap (n * size) = n * size := wrap_of_lt (Nat.lt_of_not_le hbig)
  by_cases hzero : wrap (n * size) = 0
  · simp only [if_pos hzero]
    exact ensures_pure (iff_of_true (.inl rfl) (.inl (hprod ▸ hzero)))
  simp only [if_neg hzero]
  refine (h.kmalloc_product (Nat.pos_of_ne_zero hzero)).bind ?_
  rintro q s1 ⟨hserved, hall⟩
  have hq := hserved.ne_zero hpaged
  rw [if_neg hq]
  refine (memsetHeap_spec ..).bind ?_
  rintro - s2 ⟨hon, rfl⟩
  refine ensures_pure ?_
  rw [or_iff_right (hprod ▸ hzero), or_iff_right hbig, ← hprod, ← hserved.le_iff h.bound, hprod]
  refine ⟨fun hzeroes => ?_, fun hmono => .inr ?_⟩
  · obtain ⟨huse, -⟩ := hzeroes.resolve_left hq
    have hge := huse.bounds.1
    have hle : q + n * size ≤ s1.heapCurrentLimit := huse.bounds.2
    exact hserved.le_of_inside h.bound hge (by omega)
  · have hge := h.served_ge hserved hpaged
    have hbound := hserved.limit_lt h.bound
    have hstart := h.tiles.le
    have hroom : q + n * size ≤ s1.heapCurrentLimit := by
      have hlim : kernelHeapStart ≤ s1.heapCurrentLimit := by omega
      rw [Mem.OnPages, wsub_of_le (by omega) hge.2, wsub_of_le hlim hbound, hprod] at hon
      omega
    obtain ⟨⟨hs', fs', hallocated⟩, -⟩ := hall (by omega) hmono
    obtain ⟨c, hc, rfl, -, hsize, hclear, -⟩ := hallocated.block
    have hwrote : Wrote s1 (s1.zeroHeap (c + headerSize) (wrap (n * size))) c (s1.sizeAt c) :=
      ⟨⟨rfl, rfl, rfl, rfl⟩, rfl, fun x hx => if_neg (by omega)⟩
    have hclive : (c, s1.sizeAt c) ∈ s1.live := hallocated.sound.mem_live.2 ⟨hc, hclear, rfl⟩
    have hsound := (hallocated.sound.wrote hclive hwrote).1
    refine ⟨⟨hs', c, hsound.tiles, hc, rfl, ?_, ?_⟩, fun i hi => if_pos ⟨by omega, by omega⟩⟩
    · rwa [hwrote.fields.1]
    · rw [hwrote.fields.2, hclear]

end

/-- **`krealloc` keeps the data exactly if** the product fits behind `KERNEL_HEAP_START` and finds
room, or is a multiple of `2 ^ 64`; `kcalloc` returns zeros whenever it returns, unless there is a
product to allocate and no room for it. -/
theorem krealloc_keeps_iff {old : ℕ} (h : Sound s hs fs) (hpaged : s.heapCurrentLimit % 4096 = 0)
    (hb : b ∈ hs) (hlive : s.isFreeAt b = false) (hold : old ≤ s.sizeAt b) (newN newSize : ℕ) :
    Ensures (krealloc (b + headerSize) newN newSize old) s
        (fun q s' => KeepsData s b old newN newSize q s' ↔ 2 ^ 64 ∣ newN * newSize ∨
          newN * newSize < 2 ^ 64 - kernelHeapStart ∧ s.HasRoom (newN * newSize))
        (fun _ => True) ∧
      ∀ n size, Ensures (kcalloc n size) s
        (fun q s' => ZeroesData n size q s' ↔
          n * size = 0 ∨ 2 ^ 64 ≤ n * size ∨ s.HasRoom (n * size)) (fun _ => True) :=
  ⟨h.krealloc_iff hpaged hb hlive hold newN newSize, fun n size => h.kcalloc_iff hpaged n size⟩

/-- A block of a hundred bytes, and a product that fits. -/
theorem krealloc_keeps_iff_sixFrames : ∃ s hs fs, Sound s hs fs ∧ kernelHeapStart ∈ hs ∧
      Ensures (krealloc (kernelHeapStart + headerSize) 2 100 100) s
        (KeepsData s kernelHeapStart 100 2 100) (fun _ => True) := by
  have hcall : (afterInit HeapState.step sixFrames [.kmalloc 100]).map (fun st =>
      (st.returned, decide (st.mem.HasBlock 200))) = some ([kernelHeapStart + headerSize], true) := by
    decide +kernel
  obtain ⟨st, hst, hpair⟩ := Option.map_eq_some_iff.1 hcall
  obtain ⟨hret, hblock⟩ := Prod.mk.inj hpair
  obtain ⟨s0, hinit, hrun⟩ := run_of_afterInit hst
  obtain ⟨⟨hs0, fs0, hkept⟩, hpaged⟩ := heapInit_orderly hinit
  obtain ⟨p, -, hmalloc, hlim, hp⟩ := HeapState.step_kmalloc hrun.step_of_single
  obtain ⟨hs, fs, b, rfl, -, hserves⟩ := hkept.serves (by decide) (by decide) hmalloc hlim
  obtain rfl : kernelHeapStart = b :=
    Nat.add_right_cancel (List.cons.inj (hret.symm.trans hp)).1
  have hpaged' := ((hkept.sound.kmalloc_served (by decide)).apply hmalloc).paged hpaged
  refine ⟨st.mem, hs, fs, hserves.sound, hserves.mem, ?_⟩
  refine (krealloc_keeps_iff hserves.sound hpaged' hserves.mem hserves.live
    (Nat.le_trans (by decide) hserves.le) 2 100).1.imp fun q s' hiff => ?_
  exact hiff.2 (.inr ⟨by decide, .inl (of_decide_eq_true hblock)⟩)

/-- **A product that wraps**: for `2 ^ 62 + 1` times 4 bytes `krealloc` returns a block of 16, and
frees the old one. -/
theorem krealloc_wrapped_product : Ensures (do
        heapInit
        let p ← kmalloc 100
        krealloc p (2 ^ 62 + 1) 4 100) sixFrames
      (fun q s' => q ≠ 0 ∧ s'.sizeAt (q - headerSize) = 16 ∧ s'.isFreeAt kernelHeapStart = true)
      (fun _ => False) := by
  decide +kernel

end Hvos.Memory
