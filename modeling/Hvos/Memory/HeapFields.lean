import Hvos.Memory.Realloc

/-!
# Memory/HeapFields — records in heap blocks

What a data structure in the heap has to know of `kzalloc`, `kfree` and its own stores: which blocks
are in use (`InUse`), and that all the others are left alone (`Spares`).  A heap is `Healthy` if it
is sound and `KERNEL_HEAP_START` leaves room for a page for every frame, so that its limit cannot
wrap.
-/

namespace Hvos.Memory

open Bytes Blocks Prog

variable {s s' s'' : Mem} {hs hs' fs fs' : List ℕ} {A B : Set ℕ} {p q n m k o v : ℕ}

/-- **A heap in order**: sound, with room above its limit for every frame that is free. -/
structure Healthy (s : Mem) : Prop where
  sound : ∃ hs fs, Sound s hs fs
  room : s.heapCurrentLimit + 4096 * s.pmm.freeCount < 2 ^ 64

/-- **Every block in use whose pointer is not in `A`** is in use in `s'`, with the same bytes. -/
def Spares (A : Set ℕ) (s s' : Mem) : Prop :=
  ∀ q n, q ∉ A → InUse s q n → InUse s' q n ∧ ∀ i < n, s'.heapBytes (q + i) = s.heapBytes (q + i)

/-! ## Blocks in use -/

theorem Sound.inUse_iff (h : Sound s hs fs) : InUse s q n ↔
    ∃ c ∈ hs, q = c + headerSize ∧ n ≤ s.sizeAt c ∧ s.isFreeAt c = false := by
  constructor
  · rintro ⟨hs', c, htiles, hc, hrest⟩
    rw [htiles.unique (by decide) h.tiles] at hc
    exact ⟨c, hc, hrest⟩
  · rintro ⟨c, hc, hrest⟩
    exact ⟨hs, c, h.tiles, hc, hrest⟩

theorem InUse.mono (h : InUse s q n) (hle : m ≤ n) : InUse s q m := by
  obtain ⟨hs, c, htiles, hc, hq, hn, hlive⟩ := h
  exact ⟨hs, c, htiles, hc, hq, hle.trans hn, hlive⟩

theorem InUse.ne_zero (h : InUse s q n) : q ≠ 0 := by
  have hge := h.bounds.1
  unfold headerSize at hge
  omega

theorem InUse.lt (h : InUse s q n) (hs : Healthy s) : q < 2 ^ 64 := by
  have hle := h.bounds.2
  have hroom := hs.room
  omega

/-- More blocks than the heap has headers: a chain as long as that has no end. -/
def blockLimit (s : Mem) : ℕ := s.heapCurrentLimit / headerSize + 1

/-- **Blocks in use are fewer than that.** -/
theorem Healthy.length_lt {ps : List ℕ} (h : Healthy s) (hnodup : ps.Nodup)
    (hps : ∀ p ∈ ps, InUse s p n) : ps.length < blockLimit s ∧ ps.length + 1 < 2 ^ 64 := by
  obtain ⟨hs, fs, hsound⟩ := h.sound
  have hsub : ∀ c ∈ ps.map (· - headerSize), c ∈ hs := by
    intro c hc
    obtain ⟨p, hp, rfl⟩ := List.mem_map.1 hc
    obtain ⟨b, hb, rfl, -⟩ := hsound.inUse_iff.1 (hps p hp)
    rwa [Nat.add_sub_cancel]
  have hinj : ∀ p ∈ ps, ∀ q ∈ ps, p - headerSize = q - headerSize → p = q := by
    intro p hp q hq heq
    have hple := (hps p hp).bounds.1
    have hqle := (hps q hq).bounds.1
    omega
  have hnodup' := (List.nodup_map_iff_inj_on hnodup).2 hinj
  have hlen := (hnodup'.subperm hsub).length_le
  rw [List.length_map] at hlen
  have htiles := hsound.tiles.le
  have hbound := hsound.bound
  unfold blockLimit
  unfold headerSize at htiles ⊢
  exact ⟨by omega, by omega⟩

/-! ## What is left alone -/

theorem Spares.mono (h : Spares A s s') (hAB : A ⊆ B) : Spares B s s' :=
  fun q n hq => h q n fun hA => hq (hAB hA)

theorem Spares.trans (h : Spares A s s') (h' : Spares A s' s'') : Spares A s s'' := by
  intro q n hq hu
  obtain ⟨hu', hbytes⟩ := h q n hq hu
  obtain ⟨hu'', hbytes'⟩ := h' q n hq hu'
  exact ⟨hu'', fun i hi => (hbytes' i hi).trans (hbytes i hi)⟩

theorem Spares.inUse (h : Spares A s s') (hq : q ∉ A) (hu : InUse s q n) : InUse s' q n :=
  (h q n hq hu).1

/-- A field of a block that is left alone. -/
theorem Spares.load (h : Spares A s s') (hq : q ∉ A) (hu : InUse s q n) (ho : o + k ≤ n) :
    load s'.heapBytes (q + o) k = load s.heapBytes (q + o) k := by
  refine load_congr fun x hx hlt => ?_
  have hbyte := (h q n hq hu).2 (x - q) (by omega)
  rwa [Nat.add_sub_cancel' (by omega)] at hbyte

/-- Headers that stay, and live blocks that are intact. -/
theorem Sound.spares (h : Sound s hs fs) (h' : Sound s' hs' fs') (hold : ∀ c ∈ hs, c ∈ hs')
    (hin : ∀ d ∈ hs, s.isFreeAt d = false → d + headerSize ∉ A → Intact s s' d) : Spares A s s' := by
  intro q n hq hu
  obtain ⟨c, hc, rfl, hn, hlive⟩ := h.inUse_iff.1 hu
  have hintact := hin c hc hlive hq
  refine ⟨h'.inUse_iff.2 ⟨c, hold c hc, rfl, ?_, ?_⟩, fun i hi => hintact _ (by omega) (by omega)⟩
  · rwa [hintact.fields.1]
  · rw [hintact.fields.2, hlive]

/-! ## Stores -/

/-- **Bytes of a block in use may be written**: the heap is kept and the other blocks are left
alone. -/
theorem Healthy.within (h : Healthy s) (hp : InUse s p n) (honly : HeapOnly s s')
    (hlist : s'.heapFreeList = s.heapFreeList)
    (hbytes : ∀ x, x < p ∨ p + n ≤ x → s'.heapBytes x = s.heapBytes x) :
    Healthy s' ∧ Spares {p} s s' ∧ InUse s' p n := by
  obtain ⟨hs, fs, hsound⟩ := h.sound
  obtain ⟨c, hc, rfl, hn, hlive⟩ := hsound.inUse_iff.1 hp
  have hwrote : Wrote s s' c (s.sizeAt c) := ⟨honly, hlist, fun x hx => hbytes x (by omega)⟩
  have hmem : (c, s.sizeAt c) ∈ s.live := hsound.mem_live.2 ⟨hc, hlive, rfl⟩
  have hsound' := (hsound.wrote hmem hwrote).1
  refine ⟨⟨⟨hs, fs, hsound'⟩, ?_⟩, ?_, ?_⟩
  · rw [honly.heapCurrentLimit, honly.pmm]
    exact h.room
  · refine hsound.spares hsound' (fun _ => id) fun d hd _ hne => ?_
    exact hwrote.intact hsound hc le_rfl hd fun heq => hne (by rw [heq]; rfl)
  · refine hsound'.inUse_iff.2 ⟨c, hc, rfl, ?_, ?_⟩
    · rwa [hwrote.fields.1]
    · rw [hwrote.fields.2, hlive]

/-- A store to a field. -/
theorem Healthy.storeHeap (h : Healthy s) (hp : InUse s p n) (ho : o + 8 ≤ n) (v : ℕ) :
    Healthy (s.storeHeap (p + o) v) ∧ Spares {p} s (s.storeHeap (p + o) v) ∧
      InUse (s.storeHeap (p + o) v) p n :=
  h.within hp ⟨rfl, rfl, rfl, rfl⟩ rfl fun _ _ => if_neg (by omega)

/-- Stores take no block out of use. -/
theorem InUse.storeHeap (hq : InUse s q m) (h : Healthy s) (hp : InUse s p n) (ho : o + 8 ≤ n) (v : ℕ) :
    InUse (s.storeHeap (p + o) v) q m := by
  obtain ⟨-, hsp, hu⟩ := h.storeHeap hp ho v
  by_cases hqp : q = p
  · subst hqp
    rcases Nat.le_total m n with hle | hle
    · exact hu.mono hle
    · exact (h.storeHeap hq (ho.trans hle) v).2.2
  · exact hsp.inUse hqp hq

/-- The fields of a block, written one after the other. -/
def Mem.fields (s : Mem) (p : ℕ) (vs : List (ℕ × ℕ)) : Mem :=
  vs.foldl (fun s v => s.storeHeap (p + v.1) v.2) s

/-- Fields inside a block leave the heap in order and all blocks in use. -/
theorem Healthy.fields (h : Healthy s) (hp : InUse s p n) (vs : List (ℕ × ℕ))
    (hvs : ∀ v ∈ vs, v.1 + 8 ≤ n) :
    Healthy (s.fields p vs) ∧ ∀ q m, InUse s q m → InUse (s.fields p vs) q m := by
  induction vs generalizing s with
  | nil => exact ⟨h, fun q m => id⟩
  | cons v vs ih =>
    obtain ⟨hv, hvs⟩ := List.forall_mem_cons.1 hvs
    obtain ⟨h', hkeep⟩ := ih (h.storeHeap hp hv v.2).1 (hp.storeHeap h hp hv v.2) hvs
    exact ⟨h', fun q m hq => hkeep q m (hq.storeHeap h hp hv v.2)⟩

theorem load_storeHeap_self (hv : v < 2 ^ 64) : load (s.storeHeap p v).heapBytes p 8 = v :=
  load_store_self hv

theorem load_storeHeap_of_disjoint (h : p + 8 ≤ q ∨ q + k ≤ p) :
    load (s.storeHeap p v).heapBytes q k = load s.heapBytes q k := load_store_of_disjoint h

/-! ## `kmalloc` and `kzalloc` -/

theorem Spent.zero (hbound : s.heapCurrentLimit < 2 ^ 64) : Spent s s 0 where
  limit := by rw [Nat.mul_zero, Nat.add_zero, wrap_of_lt hbound]
  totalPages := rfl
  freeCount := (Nat.add_zero _).le

/-- `kmalloc` spends frames, if at all, on pages above the limit. -/
theorem kmalloc_spent (size : ℕ) (hbound : s.heapCurrentLimit < 2 ^ 64) :
    Ensures (kmalloc size) s (fun _ s' => ∃ k, Spent s s' k) (fun s' => ∃ k, Spent s s' k) := by
  refine kmalloc_ensures (P := fun t => ∃ k, Spent s t k) (fun t t' ht hh => ?_) (fun n t ht => ?_)
    size ⟨0, Spent.zero hbound⟩
  · obtain ⟨k, hspent⟩ := ht
    exact ⟨k, hspent.of_heapOnly hh⟩
  · obtain ⟨k, hspent⟩ := ht
    refine (heapExpand_spent n hspent).mono (fun _ s' hs' => ?_) fun s' hs' => ?_
    · obtain ⟨j, -, hspent', -⟩ := hs'
      exact ⟨j, hspent'⟩
    · obtain ⟨j, -, hspent'⟩ := hs'
      exact ⟨j, hspent'⟩

/-- A heap with room for all frames has room for those it spends. -/
theorem Spent.room (h : Spent s s' k) (hroom : s.heapCurrentLimit + 4096 * s.pmm.freeCount < 2 ^ 64) :
    s.heapCurrentLimit ≤ s'.heapCurrentLimit ∧
      s'.heapCurrentLimit + 4096 * s'.pmm.freeCount < 2 ^ 64 := by
  have hcount := h.freeCount
  rw [h.limit, wrap_of_lt (by omega)]
  exact ⟨by omega, by omega⟩

/-- **`heap_init`** leaves a heap in order, if the frames fit behind `KERNEL_HEAP_START`. -/
theorem heapInit_healthy (hfit : kernelHeapStart + 4096 * s.pmm.freeCount < 2 ^ 64) :
    Ensures heapInit s (fun _ => Healthy) (fun _ => True) := by
  have hstart : kernelHeapStart < 2 ^ 64 := by decide
  have hspent : Ensures heapInit s
      (fun _ s' => ∃ k, Spent { s with heapCurrentLimit := kernelHeapStart, heapFreeList := 0 } s' k)
      (fun _ => True) := by
    refine ensures_modify_bind (ensures_bind ?_)
    refine (heapExpand_spent _ (Spent.zero hstart)).mono (fun r s1 h1 => ?_) fun _ _ => trivial
    obtain ⟨k, -, h1, -⟩ := h1
    refine ensures_read_bind ?_
    by_cases hzero : s1.heapCurrentLimit = kernelHeapStart
    · rw [if_pos hzero]
      exact ensures_halt trivial
    · rw [if_neg hzero]
      refine ensures_modify ⟨k, h1.of_heapOnly ?_⟩
      exact (((Mem.setSize_heapOnly ..).trans (Mem.setIsFree_heapOnly ..)).trans
        (Mem.setNext_heapOnly ..)).trans (Mem.setFreeList_heapOnly ..)
  refine ((heapInit_sound s).and hspent).mono (fun _ s' h => ?_) fun _ _ => trivial
  obtain ⟨hsound, k, hk⟩ := h
  exact ⟨⟨_, _, hsound⟩, (hk.room hfit).2⟩

/-- **What an allocation of `n` bytes gives**: a block that was not in use; all others are left
alone. -/
structure Obtained (s s' : Mem) (p n : ℕ) : Prop where
  healthy : Healthy s'
  block : InUse s' p n
  fresh : ∀ m, ¬InUse s p m
  spares : Spares ∅ s s'

theorem Healthy.kmalloc (h : Healthy s) (hpos : 0 < n) (hsmall : n + 4158 < 2 ^ 64) :
    Ensures (kmalloc n) s (fun p s' => Obtained s s' p n) (fun s' => s'.pmm.pmmAlloc = none) := by
  obtain ⟨hs, fs, hsound⟩ := h.sound
  refine (((hsound.kmalloc_allocated hpos hsmall).and (kmalloc_spent n hsound.bound)).and
    (hsound.kmalloc hpos hsmall)).mono (fun p s' hp => ?_) fun s' hs' => hs'.2
  obtain ⟨⟨hall, k, hspent⟩, -⟩ := hp
  obtain ⟨hlim, hroom⟩ := hspent.room h.room
  obtain ⟨⟨hs', fs', halloc⟩, hintact⟩ := hall hlim
  have hfresh := halloc.fresh hsound
  obtain ⟨c, hc, rfl, -, hsize, hclear, -⟩ := halloc.block
  refine ⟨⟨⟨hs', fs', halloc.sound⟩, hroom⟩, halloc.sound.inUse_iff.2 ⟨c, hc, rfl, hsize, hclear⟩,
    fun m hu => ?_, ?_⟩
  · obtain ⟨d, hd, heq, -, hlive⟩ := hsound.inUse_iff.1 hu
    exact hfresh (d, s.sizeAt d) (hsound.mem_live.2 ⟨hd, hlive, rfl⟩) heq
  · exact hsound.spares halloc.sound halloc.old fun d hd hlive _ => hintact d hd hlive

/-- `memset` of a block in use. -/
theorem Healthy.zeroHeap (h : Healthy s) (hp : InUse s p n) :
    Healthy (s.zeroHeap p n) ∧ Spares {p} s (s.zeroHeap p n) ∧ InUse (s.zeroHeap p n) p n :=
  h.within hp ⟨rfl, rfl, rfl, rfl⟩ rfl fun _ _ => if_neg (by omega)

/-- What was obtained may be written to. -/
theorem Obtained.of_spares (h : Obtained s s' p n) (hs : Healthy s'') (hu : InUse s'' p n)
    (hsp : Spares {p} s' s'') : Obtained s s'' p n := by
  refine ⟨hs, hu, h.fresh, fun q m _ hq => ?_⟩
  have hne : q ∉ ({p} : Set ℕ) := fun heq => h.fresh m (Set.mem_singleton_iff.1 heq ▸ hq)
  obtain ⟨hq', hbytes⟩ := h.spares q m (Set.notMem_empty q) hq
  obtain ⟨hq'', hbytes'⟩ := hsp q m hne hq'
  exact ⟨hq'', fun i hi => (hbytes' i hi).trans (hbytes i hi)⟩

/-- **`kzalloc`** gives a block, or the machine stops for the lack of a frame. -/
theorem Healthy.kzalloc (h : Healthy s) (hpos : 0 < n) (hsmall : n + 4158 < 2 ^ 64) :
    Ensures (kzalloc n) s (fun p s' => Obtained s s' p n) (fun s' => s'.pmm.pmmAlloc = none) := by
  refine (h.kmalloc hpos hsmall).bind fun p s1 hp => ?_
  rw [if_neg hp.block.ne_zero]
  obtain ⟨hs, hsp, hu⟩ := hp.healthy.zeroHeap hp.block
  exact ensures_modify_bind (ensures_pure (hp.of_spares hs hu hsp))

/-! ## `kfree` -/

/-- **`kfree` of a block in use** takes it out of use and leaves the others alone; a second one does
nothing. -/
theorem Healthy.kfree (h : Healthy s) (hp : InUse s p n) :
    Healthy (s.kfree p) ∧ Spares {p} s (s.kfree p) ∧ (∀ m, ¬InUse (s.kfree p) p m) ∧
      (s.kfree p).kfree p = s.kfree p := by
  obtain ⟨hs, fs, hsound⟩ := h.sound
  obtain ⟨c, hc, rfl, hn, hlive⟩ := hsound.inUse_iff.1 hp
  obtain ⟨fs', hsound'⟩ := hsound.kfree hc
  have honly := Mem.kfree_heapOnly s (c + headerSize)
  have hflag : (s.kfree (c + headerSize)).isFreeAt c = true := by
    rw [hsound.kfree_isFreeAt hc hc, if_pos rfl]
  refine ⟨⟨⟨hs, fs', hsound'⟩, ?_⟩, ?_, fun m hu => ?_, ?_⟩
  · rw [honly.heapCurrentLimit, honly.pmm]
    exact h.room
  · refine hsound.spares hsound' (fun _ => id) fun d hd _ hne => ?_
    exact hsound.kfree_intact hc hd fun heq => hne (by rw [heq]; rfl)
  · obtain ⟨d, -, heq, -, hclear⟩ := hsound'.inUse_iff.1 hu
    obtain rfl := Nat.add_right_cancel heq
    rw [hflag] at hclear
    cases hclear
  · rw [hsound'.kfree_eq hc, if_pos hflag]

end Hvos.Memory
