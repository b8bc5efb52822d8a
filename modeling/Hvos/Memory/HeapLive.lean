import Hvos.Memory.Draws
import Hvos.Memory.HeapIntegrity

/-!
# Memory/HeapLive — which heap blocks are live, and which frames the heap has cost

`Mem.live` is the set of the blocks that are not free.  `kmalloc` adds one block to it and `kfree`
takes one away, as long as the heap is not made larger (`Quiet`); once it is, frames are gone for
good (`HeapGrew`).
-/

namespace Hvos.Memory

open Bytes Blocks Prog

variable {s0 s s' : Mem} {hs fs : List ℕ} {A B C : Set (ℕ × ℕ)} {b k n : ℕ} {x : ℕ × ℕ}

/-! ## Stores to blocks -/

namespace Mem

/-- `memcpy` of `n` bytes into the heap. -/
def copyHeap (s : Mem) (ptr n : ℕ) (bytes : ℕ → UInt8) : Mem :=
  { s with heapBytes := fun a => if ptr ≤ a ∧ a < ptr + n then bytes (a - ptr) else s.heapBytes a }

/-- Store a `uint64_t` in the heap. -/
def storeHeap (s : Mem) (ptr v : ℕ) : Mem := { s with heapBytes := store s.heapBytes ptr 8 v }

/-- The bytes behind a pointer into the heap. -/
def behind (s : Mem) (ptr : ℕ) : ℕ → UInt8 := fun k => s.heapBytes (wrap (ptr + k))

end Mem

/-! ## Live blocks -/

/-- **The live blocks**: the headers of the heap that are not flagged free, with their sizes. -/
def Mem.live (s : Mem) : Set (ℕ × ℕ) :=
  {x | ∃ hs, Tiles headerSize s.sizeAt kernelHeapStart s.heapCurrentLimit hs ∧ x.1 ∈ hs ∧
    s.isFreeAt x.1 = false ∧ s.sizeAt x.1 = x.2}

theorem Layout.mem_live (h : Layout s hs fs) :
    x ∈ s.live ↔ x.1 ∈ hs ∧ s.isFreeAt x.1 = false ∧ s.sizeAt x.1 = x.2 := by
  refine ⟨?_, fun hx => ⟨hs, h.tiles, hx⟩⟩
  rintro ⟨hs', htiles, hx⟩
  rwa [htiles.unique (by decide) h.tiles] at hx

/-- Taking a block off the free list makes it live. -/
theorem Sound.live_take (h : Sound s hs fs) {prev current : ℕ} (hf : Found fs prev current)
    (hk : k ≤ s.sizeAt current) : ∃ hs' fs' n, k ≤ n ∧
      Sound (((s.unlink prev current).split current k).setIsFree current false) hs' fs' ∧
      (((s.unlink prev current).split current k).setIsFree current false).live =
        insert (current, n) s.live := by
  obtain ⟨hs', fs', ⟨hsound, hold, b, hb, hp, -, hsize, hclear, hflags⟩, hnew, hsizes⟩ :=
    h.take_new hf hk
  obtain rfl : current = b := Nat.add_right_cancel hp
  refine ⟨hs', fs', _, hsize, hsound, Set.ext fun c => ?_⟩
  obtain ⟨c, m⟩ := c
  rw [Set.mem_insert_iff, hsound.mem_live, h.mem_live, Prod.mk.injEq]
  by_cases hcur : c = current
  · subst hcur
    have hfree := (h.free_iff c (h.sub c hf.mem)).2 hf.mem
    simp [hb, hclear, hfree, eq_comm]
  · rw [or_iff_right fun hc => hcur hc.1]
    by_cases hc : c ∈ hs
    · rw [hflags c hc hcur, hsizes c hc hcur, and_iff_right (hold c hc), and_iff_right hc]
    · refine ⟨fun hc' => ?_, fun hc' => absurd hc'.1 hc⟩
      rw [hnew c hc'.1 hc] at hc'
      cases hc'.2.1

/-- A block on the free list is not live. -/
theorem Sound.not_live (h : Sound s hs fs) (hb : b ∈ fs) (n : ℕ) : (b, n) ∉ s.live := fun hlive => by
  have hfree := (h.free_iff b (h.sub b hb)).2 hb
  rw [(h.mem_live.1 hlive).2.1] at hfree
  cases hfree

/-- Freeing a block takes it out of the live ones. -/
theorem Sound.live_kfree (h : Sound s hs fs) (hb : (b, n) ∈ s.live) :
    ∃ fs', Sound (s.kfree (b + headerSize)) hs fs' ∧
      (s.kfree (b + headerSize)).live = s.live \ {(b, n)} := by
  obtain ⟨hmem, -, hsize⟩ := h.mem_live.1 hb
  obtain ⟨fs', hsound⟩ := h.kfree hmem
  refine ⟨fs', hsound, Set.ext fun c => ?_⟩
  obtain ⟨c, m⟩ := c
  rw [Set.mem_sdiff, Set.mem_singleton_iff, hsound.mem_live, h.mem_live, Prod.mk.injEq]
  by_cases hc : c ∈ hs
  · rw [h.kfree_isFreeAt hmem hc, h.kfree_sizeAt hmem hc]
    by_cases hcb : c = b
    · subst hcb
      have hm : s.sizeAt c = m → m = n := fun heq => heq.symm.trans hsize
      simpa using fun _ _ => hm
    · simp [hcb]
  · simp [hc]

/-- `s'` is `s` but for `n` bytes from `b + headerSize` on. -/
structure Wrote (s s' : Mem) (b n : ℕ) : Prop extends HeapOnly s s' where
  heapFreeList : s'.heapFreeList = s.heapFreeList
  heapBytes : ∀ x, x < b + headerSize ∨ b + headerSize + n ≤ x → s'.heapBytes x = s.heapBytes x

/-- Bytes of a block are no part of a header. -/
theorem Sound.wrote (h : Sound s hs fs) (hb : (b, n) ∈ s.live) (hw : Wrote s s' b n) :
    Sound s' hs fs ∧ s'.live = s.live := by
  obtain ⟨hmem : b ∈ hs, -, hsize : s.sizeAt b = n⟩ := h.mem_live.1 hb
  have hheader : ∀ c ∈ hs, ∀ x, c ≤ x → x < c + headerSize → s'.heapBytes x = s.heapBytes x := by
    intro c hc x hx hlt
    have hapart := h.tiles.apart hmem hc
    refine hw.heapBytes x ?_
    unfold headerSize at *
    omega
  have hsound := h.congr hw.heapCurrentLimit hw.heapFreeList hheader
  have hload : ∀ c ∈ hs, ∀ i j, i + j ≤ headerSize →
      load s'.heapBytes (c + i) j = load s.heapBytes (c + i) j :=
    fun c hc i j hij => load_congr fun x hx hlt => hheader c hc x (by omega) (by omega)
  refine ⟨hsound, Set.ext fun c => ?_⟩
  rw [hsound.mem_live, h.mem_live]
  refine and_congr_right fun hc => ?_
  have hflag : s'.isFreeAt c.1 = s.isFreeAt c.1 := by
    rw [Mem.isFreeAt, Mem.isFreeAt, hload c.1 hc 8 1 (by decide)]
  have hsizes : s'.sizeAt c.1 = s.sizeAt c.1 := hload c.1 hc 0 8 (by decide)
  rw [hflag, hsizes]

/-! ## A heap that has grown -/

/-- Since `s0` the limit has moved by `k` pages, and no fewer frames are gone. -/
structure Spent (s0 s : Mem) (k : ℕ) : Prop where
  limit : s.heapCurrentLimit = wrap (s0.heapCurrentLimit + 4096 * k)
  totalPages : s.pmm.totalPages = s0.pmm.totalPages
  freeCount : s.pmm.freeCount + k ≤ s0.pmm.freeCount

/-- **The heap has grown** by a page at least. -/
def HeapGrew (s0 s : Mem) : Prop := ∃ k, 0 < k ∧ Spent s0 s k

theorem Spent.of_heapOnly (h : Spent s0 s k) (hs : HeapOnly s s') : Spent s0 s' k where
  limit := hs.heapCurrentLimit.trans h.limit
  totalPages := by rw [hs.pmm, h.totalPages]
  freeCount := by
    rw [hs.pmm]
    exact h.freeCount

theorem HeapGrew.of_heapOnly (h : HeapGrew s0 s) (hs : HeapOnly s s') : HeapGrew s0 s' := by
  obtain ⟨k, hk, hspent⟩ := h
  exact ⟨k, hk, hspent.of_heapOnly hs⟩

/-- One round of `heap_expand` takes a frame for the page at least. -/
theorem expandPage_spent (h : Spent s0 s k) : Ensures expandPage s
      (Either (fun _ s' => Spent s0 s' k) fun s' => Spent s0 s' (k + 1)) (Spent s0 · k) := by
  refine ensures_bind (ensures_pmmAlloc (fun _ => ensures_pure h) fun g pmm ha => ?_)
  obtain ⟨hfree, -, htot, -, htest⟩ := Pmm.pmmAlloc_eq_some ha
  have hfewer : pmm.freeCount < s.pmm.freeCount :=
    Pmm.freeCount_lt htot (fun i hi => by rw [htest, hi, Bool.true_or]) hfree (by rw [htest]; simp)
  refine ensures_read_bind (ensures_read_bind (ensures_bind ?_))
  have hdraws := (mapPage_draws s.kernelPml4 s.heapCurrentLimit (g * 4096) 3).ensures
    { s with pmm := pmm }
  have hspent : ∀ s2, SameGlobals { s with pmm := pmm } s2 → DrawnMem { s with pmm := pmm } s2 →
      s2.heapCurrentLimit = s.heapCurrentLimit ∧ s2.pmm.totalPages = s0.pmm.totalPages ∧
        s2.pmm.freeCount + (k + 1) ≤ s0.pmm.freeCount := by
    intro s2 hf hd
    have hle : s2.pmm.freeCount ≤ pmm.freeCount := Pmm.freeCount_anti hd.totalPages hd.used
    have hcount := h.freeCount
    exact ⟨hf.heapCurrentLimit, (hd.totalPages.trans htot).trans h.totalPages, by omega⟩
  refine ((mapPage_frame ..).and hdraws).mono (fun _ s2 h2 => ?_) fun s2 h2 => ?_
  · obtain ⟨hlim, htotal, hcount⟩ := hspent s2 h2.1 h2.2
    refine ensures_modify_bind (ensures_pure ⟨?_, htotal, hcount⟩)
    change wrap (s2.heapCurrentLimit + 4096) = _
    rw [hlim, h.limit]
    unfold wrap
    omega
  · obtain ⟨hlim, htotal, hcount⟩ := hspent s2 h2.1.1 h2.2
    exact ⟨hlim.trans h.limit, htotal, by omega⟩

/-- A round that gives up returns -1. -/
theorem expandPage_neg : Ensures expandPage s (fun r _ => ∀ i, r = some i → i < 0) (fun _ => True) := by
  refine ensures_bind (ensures_pmmAlloc (fun _ => ensures_pure ?_) fun g pmm _ => ?_)
  · rintro i ⟨⟩
    decide
  · refine ensures_read_bind (ensures_read_bind (ensures_bind ?_))
    refine (mapPage_frame ..).mono (fun _ s2 _ => ?_) fun _ _ => trivial
    exact ensures_modify_bind (ensures_pure nofun)

/-- **`heap_expand`** spends a frame for every page it adds. -/
theorem heapExpand_spent (n : ℕ) (h : Spent s0 s k) : Ensures (heapExpand n) s
      (fun r s' => ∃ j, k ≤ j ∧ Spent s0 s' j ∧ (r < 0 ∨ j = k + expandPages n))
      (fun s' => ∃ j, k ≤ j ∧ Spent s0 s' j) := by
  have hround : ∀ i s1, i < expandPages n → Spent s0 s1 (k + i) →
      Ensures expandPage s1
        (Either (fun r s' => r < 0 ∧ ∃ j, k ≤ j ∧ Spent s0 s' j)
          fun s' => Spent s0 s' (k + (i + 1)))
        (fun s' => ∃ j, k ≤ j ∧ Spent s0 s' j) := by
    intro i s1 _ h1
    refine ((expandPage_spent h1).and expandPage_neg).mono (fun r s' hr => ?_) fun s' hs' =>
      ⟨k + i, Nat.le_add_right .., hs'.1⟩
    cases r with
    | none => exact hr.1
    | some r => exact ⟨hr.2 r rfl, k + i, Nat.le_add_right .., hr.1⟩
  refine (ensures_forRange (fun i s1 => Spent s0 s1 (k + i)) hround h).bind fun r s' hr =>
    ensures_pure ?_
  cases r with
  | none => exact ⟨k + expandPages n, Nat.le_add_right .., hr, .inr rfl⟩
  | some r =>
    obtain ⟨hneg, j, hj, hspent⟩ := hr
    exact ⟨j, hj, hspent, .inl hneg⟩

/-- A heap that grew stays so. -/
theorem HeapGrew.kmalloc (h : HeapGrew s0 s) (size : ℕ) :
    Ensures (kmalloc size) s (fun _ => HeapGrew s0) (HeapGrew s0) := by
  refine kmalloc_ensures (P := HeapGrew s0) (fun _ _ ht hh => ht.of_heapOnly hh) (fun n t ht => ?_) size h
  obtain ⟨k, hk, hspent⟩ := ht
  refine (heapExpand_spent n hspent).mono (fun _ s' hs' => ?_) fun s' hs' => ?_
  · obtain ⟨j, hj, hspent', -⟩ := hs'
    exact ⟨j, by omega, hspent'⟩
  · obtain ⟨j, hj, hspent'⟩ := hs'
    exact ⟨j, by omega, hspent'⟩

/-- The bitmap of a heap that grew is another. -/
theorem HeapGrew.bitmap_ne (h : HeapGrew s0 s) : s.pmm.bitmap ≠ s0.pmm.bitmap := by
  obtain ⟨k, hk, hspent⟩ := h
  intro heq
  have hsame : s.pmm.freeCount = s0.pmm.freeCount := by
    unfold Pmm.freeCount Pmm.bitmapTest
    rw [heq, hspent.totalPages]
  have hcount := hspent.freeCount
  omega

/-! ## Keeping account -/

/-- Frames and limit are those of `s0`, the heap is sound, and its live blocks are those of `A`. -/
structure Quiet (s0 : Mem) (A : Set (ℕ × ℕ)) (s : Mem) : Prop where
  pmm : s.pmm = s0.pmm
  limit : s.heapCurrentLimit = s0.heapCurrentLimit
  sound : ∃ hs fs, Sound s hs fs
  live : s.live = A

/-- `B` is `A` and one block more, of `size` bytes at least, whose pointer is `p`. -/
def Adds (A : Set (ℕ × ℕ)) (p size : ℕ) (B : Set (ℕ × ℕ)) : Prop :=
  ∃ b n, p = b + headerSize ∧ size ≤ n ∧ (b, n) ∉ A ∧ B = insert (b, n) A

theorem Quiet.spent (h : Quiet s0 A s) : Spent s0 s 0 where
  limit := by
    obtain ⟨hs, fs, hsound⟩ := h.sound
    rw [Nat.mul_zero, Nat.add_zero, ← h.limit, wrap_of_lt hsound.bound]
  totalPages := by rw [h.pmm]
  freeCount := by rw [h.pmm, Nat.add_zero]

/-- **An account that hangs on a condition**: `Q` where it is met, and where not, the heap has
grown. -/
def Held (s0 : Mem) (F Q : Prop) (s : Mem) : Prop := F ∧ Q ∨ ¬F ∧ HeapGrew s0 s

theorem Quiet.kmallocRounded (h : Quiet s0 A s) (hk : k ≤ 2 ^ 63 + 15) :
    Ensures (kmallocRounded k) s
      (fun p s' => Held s0 ((s.findBlock k).join ≠ none) (∃ B, Adds A p k B ∧ Quiet s0 B s') s')
      (fun _ => True) := by
  obtain ⟨hs, fs, hsound⟩ := h.sound
  refine ensures_read_bind ?_
  rcases firstFit_spec (fun b => decide (k ≤ s.sizeAt b)) 0 hsound.linked hsound.length_lt with
    hend | ⟨prev, current, hfound, hfit, hpos⟩
  · have hfind : s.findBlock k = some none := hend
    rw [hfind]
    refine ensures_read_bind (ensures_bind ?_)
    refine (heapExpand_spent _ h.spent).mono ?_ fun _ _ => trivial
    rintro r s1 ⟨j, -, hspent, hr⟩
    refine ensures_read_bind ?_
    by_cases hneg : r < 0 ∨ s1.heapCurrentLimit = s.heapCurrentLimit
    · rw [if_pos hneg]
      exact ensures_halt trivial
    · rw [if_neg hneg]
      have hj := hr.resolve_left fun hr => hneg (.inl hr)
      have hgrew : HeapGrew s0 s1 := by
        refine ⟨j, ?_, hspent⟩
        simp only [hj, expandPages, headerSize, wrap]
        omega
      refine ensures_modify_bind (ensures_pure (.inr ⟨by simp, hgrew.of_heapOnly ?_⟩))
      exact (((Mem.setSize_heapOnly ..).trans (Mem.setIsFree_heapOnly ..)).trans
        (Mem.setNext_heapOnly ..)).trans (Mem.split_heapOnly ..)
  · have hfind : s.findBlock k = some (some (prev, current)) := hfound
    rw [hfind]
    have hcur := Found.mem hpos
    have hle := (hsound.bounds (hsound.sub current hcur)).2
    have hbound := hsound.bound
    obtain ⟨hs', fs', n, hn, hsound', hlive⟩ := hsound.live_take hpos (of_decide_eq_true hfit)
    have honly := ((Mem.unlink_heapOnly s prev current).trans (Mem.split_heapOnly _ current k)).trans
      (Mem.setIsFree_heapOnly _ current false)
    refine ensures_modify_bind (ensures_pure
      (.inl ⟨by simp, _, ⟨current, n, ?_, hn, ?_, rfl⟩, ?_⟩))
    · exact wrap_of_lt (by omega)
    · rw [← h.live]
      exact hsound.not_live hcur n
    · exact ⟨honly.pmm.trans h.pmm, honly.heapCurrentLimit.trans h.limit, ⟨hs', fs', hsound'⟩,
        by rw [hlive, h.live]⟩

variable {size p : ℕ}

/-- **`kmalloc`** adds a block of the free list, or makes the heap larger. -/
theorem Quiet.kmalloc (h : Quiet s0 A s) (hpos : 0 < size) (hsize : size ≤ 2 ^ 63) :
    Ensures (kmalloc size) s
      (fun p s' => Held s0 (s.HasBlock size) (∃ B, Adds A p size B ∧ Quiet s0 B s') s')
      (fun _ => True) := by
  have hround : size ≤ wrap (size + 15) / 16 * 16 ∧ wrap (size + 15) / 16 * 16 ≤ 2 ^ 63 + 15 := by
    unfold wrap
    omega
  unfold Memory.kmalloc
  rw [if_neg (by omega)]
  refine (h.kmallocRounded hround.2).imp fun p s' hp => ?_
  refine hp.imp_left (And.imp_right ?_)
  rintro ⟨B, ⟨b, n, hb, hn, hnew⟩, hq⟩
  exact ⟨B, ⟨b, n, hb, by omega, hnew⟩, hq⟩

/-- **`kfree`** takes a block that was added away again. -/
theorem Quiet.kfree (h : Quiet s0 B s) (hadds : Adds A p size B) : Quiet s0 A (s.kfree p) := by
  obtain ⟨b, n, rfl, -, hnew, rfl⟩ := hadds
  obtain ⟨hs, fs, hsound⟩ := h.sound
  have honly := Mem.kfree_heapOnly s (b + headerSize)
  have hlive := h.live
  obtain ⟨fs', hsound', hlive'⟩ := hsound.live_kfree (hlive ▸ Set.mem_insert (b, n) A)
  refine ⟨honly.pmm.trans h.pmm, honly.heapCurrentLimit.trans h.limit, ⟨hs, fs', hsound'⟩, ?_⟩
  rw [hlive', hlive, Set.insert_sdiff_self_of_notMem hnew]

/-- Bytes of a live block are not accounted for. -/
theorem Quiet.wrote (h : Quiet s0 A s) (hb : (b, n) ∈ A) (hw : Wrote s s' b n) : Quiet s0 A s' := by
  obtain ⟨hs, fs, hsound⟩ := h.sound
  obtain ⟨hsound', hlive⟩ := hsound.wrote (h.live ▸ hb) hw
  exact ⟨hw.pmm.trans h.pmm, hw.heapCurrentLimit.trans h.limit, ⟨hs, fs, hsound'⟩,
    by rw [hlive, h.live]⟩

/-- A copy into a block that was added. -/
theorem Quiet.copyHeap (h : Quiet s0 B s) (hadds : Adds A p size B) (bytes : ℕ → UInt8) :
    Quiet s0 B (s.copyHeap p size bytes) := by
  obtain ⟨b, n, rfl, hn, -, rfl⟩ := hadds
  refine h.wrote (Set.mem_insert ..) ⟨⟨rfl, rfl, rfl, rfl⟩, rfl, fun x hx => if_neg ?_⟩
  omega

/-- A store to a field of one. -/
theorem Quiet.storeHeap (h : Quiet s0 B s) {off : ℕ} (hadds : Adds A p size B)
    (hoff : off + 8 ≤ size) (v : ℕ) : Quiet s0 B (s.storeHeap (p + off) v) := by
  obtain ⟨b, n, rfl, hn, -, rfl⟩ := hadds
  refine h.wrote (Set.mem_insert ..) ⟨⟨rfl, rfl, rfl, rfl⟩, rfl, fun x hx => if_neg ?_⟩
  omega

section Held

variable {F F' Q Q' : Prop}

/-- Inside the heap only what is accounted for changes. -/
theorem Held.of_heapOnly (h : Held s0 F Q s) (honly : HeapOnly s s') (hQ : Q → Q') :
    Held s0 F Q' s' :=
  h.imp (And.imp_right hQ) (And.imp_right (·.of_heapOnly honly))

theorem Held.congr (h : Held s0 F Q s) (hF : F ↔ F') : Held s0 F' Q s := by rwa [Held, ← hF]

/-- One `kmalloc` more. -/
theorem Held.kmalloc {Q' : ℕ → Mem → Prop} (h : Held s0 F Q s) (size : ℕ)
    (hQ : Q → Ensures (kmalloc size) s (fun p s' => Held s0 (s.HasBlock size) (Q' p s') s')
      (fun _ => True)) :
    Ensures (Memory.kmalloc size) s (fun p s' => Held s0 (F ∧ s.HasBlock size) (Q' p s') s')
      (fun _ => True) := by
  rcases h with ⟨hF, hq⟩ | ⟨hF, hgrew⟩
  · exact (hQ hq).imp fun _ _ hp => hp.congr (and_iff_right hF).symm
  · exact (hgrew.kmalloc size).mono (fun _ _ hp => .inr ⟨fun h => hF h.1, hp⟩) fun _ _ => trivial

end Held

/-- Two blocks that were added may be taken away in either order. -/
theorem Adds.comm {q m : ℕ} (h : Adds A p n B) (h' : Adds B q m C) :
    ∃ B', Adds A q m B' ∧ Adds B' p n C := by
  obtain ⟨b, i, rfl, hi, hnew, rfl⟩ := h
  obtain ⟨c, j, rfl, hj, hnew', rfl⟩ := h'
  rw [Set.mem_insert_iff, not_or] at hnew'
  refine ⟨_, ⟨c, j, rfl, hj, hnew'.2, rfl⟩, b, i, rfl, hi, ?_, Set.insert_comm ..⟩
  rw [Set.mem_insert_iff, not_or]
  exact ⟨fun heq => hnew'.1 heq.symm, hnew⟩

end Hvos.Memory
