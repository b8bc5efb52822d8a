import Hvos.Lib.Blocks
import Hvos.Lib.Bytes
import Hvos.Memory.MapPage

/-!
# Memory/Heap — `heap_expand`, `kmalloc` and `kfree` over heap bytes

The kernel heap of `heap.c` and `kmalloc.c`.  A block starts with a `heap_header_t` of 24 bytes
(`size` at 0, `is_free` at 8, `next` at 16), read and written byte by byte in `heapBytes`; pointers
and sizes are `uint64_t`, so sums and differences wrap.
-/

namespace Hvos.Memory

open Bytes Blocks Prog

/-! ## `uint64_t` -/

/-- A value modulo the width of `uint64_t`. -/
def wrap (n : ℕ) : ℕ := n % 2 ^ 64

/-- A difference of two `uint64_t`. -/
def wsub (a b : ℕ) : ℕ := wrap (a + 2 ^ 64 - b)

theorem wrap_of_lt {n : ℕ} (h : n < 2 ^ 64) : wrap n = n := Nat.mod_eq_of_lt h

theorem wsub_of_le {a b : ℕ} (h : b ≤ a) (ha : a < 2 ^ 64) : wsub a b = a - b := by
  unfold wsub wrap
  omega

/-! ## `heap_header_t` -/

/-- `KERNEL_HEAP_START`. -/
def kernelHeapStart : ℕ := 0xffffa00000000000

/-- `sizeof(heap_header_t)`. -/
def headerSize : ℕ := 24

namespace Mem

/-- `header->size`. -/
def sizeAt (s : Mem) (b : ℕ) : ℕ := load s.heapBytes b 8

/-- `header->is_free`. -/
def isFreeAt (s : Mem) (b : ℕ) : Bool := load s.heapBytes (b + 8) 1 ≠ 0

/-- `header->next`. -/
def nextAt (s : Mem) (b : ℕ) : ℕ := load s.heapBytes (b + 16) 8

/-- `header->size = v`. -/
def setSize (s : Mem) (b v : ℕ) : Mem := { s with heapBytes := store s.heapBytes b 8 v }

/-- `header->is_free = v`. -/
def setIsFree (s : Mem) (b : ℕ) (v : Bool) : Mem :=
  { s with heapBytes := store s.heapBytes (b + 8) 1 v.toNat }

/-- `header->next = v`. -/
def setNext (s : Mem) (b v : ℕ) : Mem := { s with heapBytes := store s.heapBytes (b + 16) 8 v }

/-- `heap_free_list = p`. -/
def setFreeList (s : Mem) (p : ℕ) : Mem := { s with heapFreeList := p }

/-! ## `kmalloc.c` -/

/-- The search of `kmalloc`: every block it passes has a header of its own below the limit, which
bounds their number. -/
def findBlock (s : Mem) (size : ℕ) : Option (Option (ℕ × ℕ)) :=
  firstFit s.nextAt (fun b => size ≤ s.sizeAt b) (s.heapCurrentLimit / headerSize + 1) 0
    s.heapFreeList

/-- Take the block `current` after `prev` off the free list. -/
def unlink (s : Mem) (prev current : ℕ) : Mem :=
  if prev ≠ 0 then s.setNext prev (s.nextAt current)
  else s.setFreeList (s.nextAt current)

/-- Cut what block `b` has beyond `size` off as a free block, if that is worth a header. -/
def split (s : Mem) (b size : ℕ) : Mem :=
  if s.sizeAt b ≥ wrap (size + headerSize + 16) then
    let nb := wrap (b + headerSize + size)
    let s1 := (s.setSize nb (wsub (wsub (s.sizeAt b) size) headerSize)).setIsFree nb true
    ((s1.setNext nb s1.heapFreeList).setFreeList nb).setSize b size
  else s

/-- `kfree`. -/
def kfree (s : Mem) (ptr : ℕ) : Mem :=
  if ptr = 0 then s
  else
    let header := wsub ptr headerSize
    if s.isFreeAt header then s
    else ((s.setIsFree header true).setNext header s.heapFreeList).setFreeList header

end Mem

/-- The number of pages `heap_expand` maps. -/
def expandPages (sizeNeeded : ℕ) : ℕ := wrap (sizeNeeded + headerSize + 4096 - 1) / 4096

/-- One round of `heap_expand`, with `PTE_PRESENT | PTE_WRITABLE`. -/
def expandPage : Prog Mem (Option ℤ) := do
  match ← pmmAlloc with
  | none => pure (some (-1))
  | some phys =>
    let pml4 ← Prog.read fun s => s.kernelPml4
    let limit ← Prog.read fun s => s.heapCurrentLimit
    mapPage pml4 limit (phys * 4096) 3
    Prog.modify fun s => { s with heapCurrentLimit := wrap (s.heapCurrentLimit + 4096) }
    pure none

/-- `heap_expand`: 0, or -1 when a page could not be had. -/
def heapExpand (sizeNeeded : ℕ) : Prog Mem ℤ := do
  let r ← forRange (expandPages sizeNeeded) fun _ => expandPage
  pure (r.getD 0)

/-- `kmalloc` once `size` is rounded.  The store to the new header faults, which stops the machine,
when `heap_expand` has mapped no page. -/
def kmallocRounded (size : ℕ) : Prog Mem ℕ := do
  match ← Prog.read fun s => s.findBlock size with
  | none => Prog.halt
  | some (some (prev, current)) =>
    Prog.modify fun s => ((s.unlink prev current).split current size).setIsFree current false
    pure (wrap (current + headerSize))
  | some none =>
    let oldLimit ← Prog.read fun s => s.heapCurrentLimit
    let r ← heapExpand (wrap (size + headerSize))
    let limit ← Prog.read fun s => s.heapCurrentLimit
    if r < 0 ∨ limit = oldLimit then Prog.halt
    else
      Prog.modify fun s =>
        (((s.setSize oldLimit (wsub (wsub limit oldLimit) headerSize)).setIsFree
          oldLimit false).setNext oldLimit 0).split oldLimit size
      pure (wrap (oldLimit + headerSize))

/-- `kmalloc`.  The null pointer is 0. -/
def kmalloc (size : ℕ) : Prog Mem ℕ :=
  if size = 0 then pure 0 else kmallocRounded (wrap (size + 15) / 16 * 16)

/-- A block on the free list is large enough for a request. -/
def Mem.HasBlock (s : Mem) (size : ℕ) : Prop :=
  (s.findBlock (wrap (size + 15) / 16 * 16)).join ≠ none

instance (s : Mem) (size : ℕ) : Decidable (s.HasBlock size) := inferInstanceAs (Decidable (_ ≠ _))

/-- **Room for a request**: a block on the free list, or pages that end below `2 ^ 64`. -/
def Mem.HasRoom (s : Mem) (size : ℕ) : Prop :=
  s.HasBlock size ∨ s.heapCurrentLimit +
    4096 * expandPages (wrap (wrap (size + 15) / 16 * 16 + headerSize)) < 2 ^ 64

/-- `memset` to zero of heap bytes. -/
def Mem.zeroHeap (s : Mem) (ptr n : ℕ) : Mem :=
  { s with heapBytes := fun a => if ptr ≤ a ∧ a < ptr + n then 0 else s.heapBytes a }

/-- `kzalloc`. -/
def kzalloc (size : ℕ) : Prog Mem ℕ := do
  let ptr ← kmalloc size
  if ptr = 0 then pure 0
  else
    Prog.modify fun s => s.zeroHeap ptr size
    pure ptr

/-- `heap_init`.  The store to the first header faults, which stops the machine, when not one page
could be mapped. -/
def heapInit : Prog Mem Unit := do
  Prog.modify fun s => { s with heapCurrentLimit := kernelHeapStart, heapFreeList := 0 }
  let _ ← heapExpand (1024 * 4096)
  let limit ← Prog.read fun s => s.heapCurrentLimit
  if limit = kernelHeapStart then Prog.halt
  else
    Prog.modify fun s =>
      (((s.setSize kernelHeapStart (wsub (wsub limit kernelHeapStart) headerSize)).setIsFree
        kernelHeapStart true).setNext kernelHeapStart 0).setFreeList kernelHeapStart

/-! ## What stays outside the heap -/

/-- The two memories differ in the bytes of the heap and in the head of its free list only. -/
structure HeapOnly (s s' : Mem) : Prop where
  phys : s'.phys = s.phys
  pmm : s'.pmm = s.pmm
  kernelPml4 : s'.kernelPml4 = s.kernelPml4
  heapCurrentLimit : s'.heapCurrentLimit = s.heapCurrentLimit

section HeapOnly

variable {s s' s'' : Mem}

theorem HeapOnly.refl (s : Mem) : HeapOnly s s := ⟨rfl, rfl, rfl, rfl⟩

theorem HeapOnly.trans (h : HeapOnly s s') (h' : HeapOnly s' s'') : HeapOnly s s'' where
  phys := h'.phys.trans h.phys
  pmm := h'.pmm.trans h.pmm
  kernelPml4 := h'.kernelPml4.trans h.kernelPml4
  heapCurrentLimit := h'.heapCurrentLimit.trans h.heapCurrentLimit

namespace Mem

theorem setSize_heapOnly (s : Mem) (b v : ℕ) : HeapOnly s (s.setSize b v) := ⟨rfl, rfl, rfl, rfl⟩

theorem setIsFree_heapOnly (s : Mem) (b : ℕ) (v : Bool) : HeapOnly s (s.setIsFree b v) :=
  ⟨rfl, rfl, rfl, rfl⟩

theorem setNext_heapOnly (s : Mem) (b v : ℕ) : HeapOnly s (s.setNext b v) := ⟨rfl, rfl, rfl, rfl⟩

theorem setFreeList_heapOnly (s : Mem) (v : ℕ) : HeapOnly s (s.setFreeList v) :=
  ⟨rfl, rfl, rfl, rfl⟩

theorem zeroHeap_heapOnly (s : Mem) (ptr n : ℕ) : HeapOnly s (s.zeroHeap ptr n) :=
  ⟨rfl, rfl, rfl, rfl⟩

theorem unlink_heapOnly (s : Mem) (prev current : ℕ) : HeapOnly s (s.unlink prev current) := by
  unfold unlink
  by_cases hprev : prev ≠ 0
  · rw [if_pos hprev]
    exact setNext_heapOnly ..
  · rw [if_neg hprev]
    exact setFreeList_heapOnly ..

theorem split_heapOnly (s : Mem) (b size : ℕ) : HeapOnly s (s.split b size) := by
  unfold split
  by_cases hcut : s.sizeAt b ≥ wrap (size + headerSize + 16)
  · rw [if_pos hcut]
    exact ((((setSize_heapOnly ..).trans (setIsFree_heapOnly ..)).trans (setNext_heapOnly ..)).trans
      (setFreeList_heapOnly ..)).trans (setSize_heapOnly ..)
  · rw [if_neg hcut]
    exact .refl s

theorem kfree_heapOnly (s : Mem) (ptr : ℕ) : HeapOnly s (s.kfree ptr) := by
  unfold kfree
  by_cases hnull : ptr = 0
  · rw [if_pos hnull]
    exact .refl s
  · rw [if_neg hnull]
    by_cases hfree : s.isFreeAt (wsub ptr headerSize) = true
    · simp only [if_pos hfree]
      exact .refl s
    · simp only [if_neg hfree]
      exact ((setIsFree_heapOnly ..).trans (setNext_heapOnly ..)).trans (setFreeList_heapOnly ..)

end Mem

section Rule

variable {P : Mem → Prop} (hheap : ∀ s s', P s → HeapOnly s s' → P s')
  (hexpand : ∀ n s, P s → Ensures (heapExpand n) s (fun _ => P) P)
include hheap hexpand

/-- **What survives changes inside the heap and `heap_expand` survives `kmalloc`.** -/
theorem kmalloc_ensures (size : ℕ) (hs : P s) : Ensures (kmalloc size) s (fun _ => P) P := by
  unfold kmalloc
  by_cases hsize : size = 0
  · rw [if_pos hsize]
    exact ensures_pure hs
  · rw [if_neg hsize]
    unfold kmallocRounded
    refine ensures_read_bind ?_
    rcases s.findBlock (wrap (size + 15) / 16 * 16) with _ | _ | ⟨prev, current⟩
    · exact ensures_halt hs
    · refine ensures_read_bind ((hexpand _ s hs).bind ?_)
      intro r s' hs'
      refine ensures_read_bind ?_
      by_cases hr : r < 0 ∨ s'.heapCurrentLimit = s.heapCurrentLimit
      · rw [if_pos hr]
        exact ensures_halt hs'
      · rw [if_neg hr]
        refine ensures_modify_bind (ensures_pure (hheap s' _ hs' ?_))
        exact (((Mem.setSize_heapOnly ..).trans (Mem.setIsFree_heapOnly ..)).trans
          (Mem.setNext_heapOnly ..)).trans (Mem.split_heapOnly ..)
    · refine ensures_modify_bind (ensures_pure (hheap s _ hs ?_))
      exact ((Mem.unlink_heapOnly ..).trans (Mem.split_heapOnly ..)).trans (Mem.setIsFree_heapOnly ..)

end Rule

end HeapOnly

/-! ## Fields of headers that are equal or apart -/

/-- Two headers are the same or do not overlap. -/
def Apart (b c : ℕ) : Prop := c = b ∨ b + headerSize ≤ c ∨ c + headerSize ≤ b

section Fields

variable {s : Mem} {b c v : ℕ} {w : Bool}

namespace Mem

@[simp] theorem sizeAt_setFreeList : (s.setFreeList v).sizeAt = s.sizeAt := rfl

@[simp] theorem isFreeAt_setFreeList : (s.setFreeList v).isFreeAt = s.isFreeAt := rfl

@[simp] theorem nextAt_setFreeList : (s.setFreeList v).nextAt = s.nextAt := rfl

@[simp] theorem heapFreeList_setFreeList : (s.setFreeList v).heapFreeList = v := rfl

@[simp] theorem heapFreeList_setSize : (s.setSize b v).heapFreeList = s.heapFreeList := rfl

@[simp] theorem heapFreeList_setIsFree : (s.setIsFree b w).heapFreeList = s.heapFreeList := rfl

@[simp] theorem heapFreeList_setNext : (s.setNext b v).heapFreeList = s.heapFreeList := rfl

@[simp] theorem heapCurrentLimit_setFreeList :
    (s.setFreeList v).heapCurrentLimit = s.heapCurrentLimit := rfl

@[simp] theorem heapCurrentLimit_setSize :
    (s.setSize b v).heapCurrentLimit = s.heapCurrentLimit := rfl

@[simp] theorem heapCurrentLimit_setIsFree :
    (s.setIsFree b w).heapCurrentLimit = s.heapCurrentLimit := rfl

@[simp] theorem heapCurrentLimit_setNext :
    (s.setNext b v).heapCurrentLimit = s.heapCurrentLimit := rfl

@[simp] theorem heapCurrentLimit_split :
    (s.split b v).heapCurrentLimit = s.heapCurrentLimit := by
  unfold split
  split_ifs <;> simp

section

variable (h : Apart b c)
include h

theorem sizeAt_setSize (hv : v < 2 ^ 64) :
    (s.setSize b v).sizeAt c = if c = b then v else s.sizeAt c := by
  unfold Apart headerSize at h
  by_cases hcb : c = b
  · subst hcb
    rw [if_pos rfl]
    exact load_store_self hv
  · rw [if_neg hcb]
    exact load_store_of_disjoint (by omega)

theorem sizeAt_setIsFree : (s.setIsFree b w).sizeAt c = s.sizeAt c := by
  unfold Apart headerSize at h
  exact load_store_of_disjoint (by omega)

theorem sizeAt_setNext : (s.setNext b v).sizeAt c = s.sizeAt c := by
  unfold Apart headerSize at h
  exact load_store_of_disjoint (by omega)

theorem isFreeAt_setSize : (s.setSize b v).isFreeAt c = s.isFreeAt c := by
  unfold Apart headerSize at h
  unfold isFreeAt
  rw [setSize, load_store_of_disjoint (by omega)]

theorem isFreeAt_setIsFree : (s.setIsFree b w).isFreeAt c = if c = b then w else s.isFreeAt c := by
  unfold Apart headerSize at h
  unfold isFreeAt
  by_cases hcb : c = b
  · subst hcb
    have hw : w.toNat < 256 ^ 1 := Nat.lt_of_le_of_lt (Bool.toNat_le w) (by decide)
    rw [if_pos rfl, setIsFree, load_store_self hw]
    cases w <;> rfl
  · rw [if_neg hcb, setIsFree, load_store_of_disjoint (by omega)]

theorem isFreeAt_setNext : (s.setNext b v).isFreeAt c = s.isFreeAt c := by
  unfold Apart headerSize at h
  unfold isFreeAt
  rw [setNext, load_store_of_disjoint (by omega)]

theorem nextAt_setSize : (s.setSize b v).nextAt c = s.nextAt c := by
  unfold Apart headerSize at h
  exact load_store_of_disjoint (by omega)

theorem nextAt_setIsFree : (s.setIsFree b w).nextAt c = s.nextAt c := by
  unfold Apart headerSize at h
  exact load_store_of_disjoint (by omega)

theorem nextAt_setNext (hv : v < 2 ^ 64) :
    (s.setNext b v).nextAt c = if c = b then v else s.nextAt c := by
  unfold Apart headerSize at h
  by_cases hcb : c = b
  · subst hcb
    rw [if_pos rfl]
    exact load_store_self hv
  · rw [if_neg hcb]
    exact load_store_of_disjoint (by omega)

end

end Mem

end Fields

/-! ## `heap_expand` -/

/-- What `k` rounds of `heap_expand` leave: the limit has moved by `k` pages, headers and list are
as they were. -/
structure Expanded (s s' : Mem) (k : ℕ) : Prop where
  heapBytes : s'.heapBytes = s.heapBytes
  heapFreeList : s'.heapFreeList = s.heapFreeList
  kernelPml4 : s'.kernelPml4 = s.kernelPml4
  limit : s'.heapCurrentLimit = wrap (s.heapCurrentLimit + 4096 * k)

variable {s s1 s' : Mem}

/-- One round. -/
theorem Expanded.round {s2 : Mem} {k : ℕ} (h : Expanded s s1 k) (hf : SameGlobals s1 s2) :
    Expanded s { s2 with heapCurrentLimit := wrap (s2.heapCurrentLimit + 4096) } (k + 1) where
  heapBytes := hf.heapBytes.trans h.heapBytes
  heapFreeList := hf.heapFreeList.trans h.heapFreeList
  kernelPml4 := hf.kernelPml4.trans h.kernelPml4
  limit := by
    change wrap (s2.heapCurrentLimit + 4096) = _
    rw [hf.heapCurrentLimit, h.limit]
    unfold wrap
    omega

theorem expandPage_spec {k : ℕ} (h : Expanded s s1 k) : Ensures expandPage s1
      (Either (fun r s' => r = -1 ∧ s'.pmm.pmmAlloc = none ∧ Expanded s s' k)
        fun s' => Expanded s s' (k + 1))
      (fun s' => s'.pmm.pmmAlloc = none) := by
  refine ensures_bind (ensures_pmmAlloc (fun hnone => ?_) fun g pmm _ => ?_)
  · exact ensures_pure ⟨rfl, hnone, h⟩
  · refine ensures_read_bind (ensures_read_bind (ensures_bind ?_))
    refine (mapPage_frame ..).mono (fun _ s2 hf => ?_) fun _ hnone => hnone.2
    refine ensures_modify_bind (ensures_pure ?_)
    exact h.round ⟨hf.kernelPml4, hf.heapCurrentLimit, hf.heapFreeList, hf.heapBytes⟩

/-- A limit that has not moved has moved by no page. -/
theorem Expanded.pages_eq_zero {n : ℕ} (h : Expanded s s' (expandPages n))
    (heq : s'.heapCurrentLimit = s.heapCurrentLimit) : expandPages n = 0 := by
  have hlimit := h.limit
  simp only [expandPages, headerSize, wrap] at hlimit ⊢
  omega

/-- A limit that has not wrapped has moved by whole pages, and far enough. -/
theorem Expanded.limit_eq {n : ℕ} (h : Expanded s s' (expandPages (wrap (n + headerSize))))
    (hlim : s.heapCurrentLimit < 2 ^ 64) (hn : n + 4143 < 2 ^ 64)
    (hwrap : s.heapCurrentLimit ≤ s'.heapCurrentLimit) :
    s.heapCurrentLimit + headerSize + n ≤ s'.heapCurrentLimit ∧ s'.heapCurrentLimit < 2 ^ 64 := by
  have hlimit := h.limit
  simp only [expandPages, headerSize, wrap] at hlimit ⊢
  omega

/-- **`heap_expand`** moves the limit page by page; only the lack of a frame stops the machine. -/
theorem heapExpand_spec (n : ℕ) (hlim : s.heapCurrentLimit < 2 ^ 64) :
    Ensures (heapExpand n) s
      (fun r s' => ∃ k ≤ expandPages n, Expanded s s' k ∧
        (r = -1 ∧ s'.pmm.pmmAlloc = none ∨ r = 0 ∧ k = expandPages n))
      (fun s' => s'.pmm.pmmAlloc = none) := by
  have hstart : Expanded s s 0 := ⟨rfl, rfl, rfl, (wrap_of_lt hlim).symm⟩
  have hround : ∀ i s1, i < expandPages n → Expanded s s1 i →
      Ensures expandPage s1
        (Either (fun r s' => (r = -1 ∧ s'.pmm.pmmAlloc = none) ∧ ∃ k ≤ expandPages n, Expanded s s' k)
          fun s' => Expanded s s' (i + 1))
        (fun s' => s'.pmm.pmmAlloc = none) := by
    intro i s1 hi h
    refine (expandPage_spec h).imp fun r s' hr => ?_
    cases r with
    | none => exact hr
    | some r => exact ⟨⟨hr.1, hr.2.1⟩, i, Nat.le_of_lt hi, hr.2.2⟩
  refine (ensures_forRange (fun i s1 => Expanded s s1 i) hround hstart).bind fun r s' hr =>
    ensures_pure ?_
  cases r with
  | none => exact ⟨expandPages n, Nat.le_refl _, hr, .inr ⟨rfl, rfl⟩⟩
  | some r =>
    obtain ⟨⟨rfl, hnone⟩, k, hk, hs'⟩ := hr
    exact ⟨k, hk, hs', .inl ⟨rfl, hnone⟩⟩

end Hvos.Memory
