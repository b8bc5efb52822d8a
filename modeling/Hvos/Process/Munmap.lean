import Hvos.Lib.Runs
import Hvos.Process.ElfImage
import Hvos.Process.Spaces

/-!
# Process/Munmap — `sys_free_pages` and the pointer it is given

`sys_free_pages` hands its pointer to `kfree`, whatever it points to.  The header `kfree` finds lies
24 bytes before it: in the caller's own memory, in the kernel heap, or nowhere.  No page is unmapped
and no frame is given back; the heap is left alone exactly if the pointer is null or the byte taken
for `is_free` is set (`munmapRight_iff`).
-/

namespace Hvos.Process

open Memory Prog Function

/-! ## Memory by virtual address -/

/-- Where a byte is kept. -/
inductive Place
  | heap (a : ℕ)
  | frame (f : ℕ) (o : Fin 4096)

/-- An address the processor accepts. -/
def Canonical (a : ℕ) : Prop := a < 2 ^ 47 ∨ 2 ^ 64 - 2 ^ 47 ≤ a

instance (a : ℕ) : Decidable (Canonical a) := inferInstanceAs (Decidable (_ ∨ _))

/-- Where the byte at `a` is kept, in the address space of `cr3`; none if the access faults. -/
def place (s : Mem) (cr3 a : ℕ) : Option Place :=
  if kernelHeapStart ≤ a ∧ a < s.heapCurrentLimit then some (.heap a)
  else if Canonical a then (s.walk cr3 a).map fun e => .frame e.address.val (Fin.ofNat _ a)
  else none

/-- The byte kept there. -/
def fetch (s : Mem) : Place → UInt8
  | .heap a => s.heapBytes a
  | .frame f o => s.phys f o

/-- Keep `b` there. -/
def put (s : Mem) (b : UInt8) : Place → Mem
  | .heap a => { s with heapBytes := update s.heapBytes a b }
  | .frame f o => s.setFrame f (update (s.phys f) o b)

/-- The places of `n` bytes from `a` on. -/
def places (s : Mem) (cr3 a : ℕ) : ℕ → Option (List Place)
  | 0 => some []
  | n + 1 => match place s cr3 (wrap a), places s cr3 (a + 1) n with
      | some p, some ps => some (p :: ps)
      | _, _ => none

/-- Keep a word there, its low byte first. -/
def putWord (s : Mem) : List Place → ℕ → Mem
  | [], _ => s
  | p :: ps, v => putWord (put s (UInt8.ofNat v) p) ps (v / 256)

/-! ## `sys_free_pages` -/

/-- `kfree` on any pointer.  A fault in the kernel stops the machine. -/
def kfreeAt (cr3 ptr : ℕ) : Prog Mem Unit := fun s =>
  if ptr = 0 then .done () s
  else
    let header := wsub ptr headerSize
    match place s cr3 (wrap (header + 8)) with
    | none => .halt s
    | some isFree =>
      if fetch s isFree ≠ 0 then .done () s
      else
        let s := put s 1 isFree
        match places s cr3 (header + 16) 8 with
        | none => .halt s
        | some next => .done () ((putWord s next s.heapFreeList).setFreeList header)

/-- `sys_free_pages`.  The number of pages is not used. -/
def sysFreePages (ptr : UInt64) (_pages : UInt32) (ct : Proc) : Prog Mem ℤ :=
  if ptr = 0 then pure (-1)
  else do
    kfreeAt ct.cr3 ptr.toNat
    pure 0

/-- What happens, with `munmap`. -/
inductive Act
  | event (e : Event)
  | freePages (p : ℕ) (ptr : UInt64) (pages : UInt32)

/-- One act of a process that exists, or another event; none if the machine stops. -/
def actStep : Act → Sys → Option Sys
  | .event e, st => match step e st with
      | .done _ st' => some st'
      | .halt _ => none
  | .freePages p ptr pages, st => match st.procs[p]? with
      | none => none
      | some ct => match sysFreePages ptr pages ct st.mem with
          | .done _ s => some { st with mem := s }
          | .halt _ => none

/-! ## What `munmap` is for -/

/-- `base` was returned by `sys_alloc_pages(pages)` to process `p`. -/
def Returned (st0 : Sys) (acts : List Act) (p : ℕ) (base : UInt64) (pages : UInt32) : Prop :=
  base ≠ 0 ∧ ∃ acts1 acts2 st ct ct' s', acts = acts1 ++ .event (.allocPages p pages) :: acts2 ∧
    Run actStep st0 acts1 st ∧ st.procs[p]? = some ct ∧
    sysAllocPages pages ct st.mem = .done (base.toNat, ct') s'

/-- Page `v` is one of the `n` from `base` on. -/
def InRegion (base n v : ℕ) : Prop :=
  ∃ i < n, pageNumber v = pageNumber (wrap (base + 4096 * i))

/-- The frames of the region, page by page. -/
def Mapped (s : Mem) (cr3 base : ℕ) (frames : List ℕ) : Prop :=
  ∀ i f, frames[i]? = some f →
    ∃ e, s.walk cr3 (wrap (base + 4096 * i)) = some e ∧ e.address.val = f

/-- **The blocks of the free list**, as the heap's own bytes link them. -/
inductive OnFreeList (s : Mem) : ℕ → Prop
  | head : s.heapFreeList ≠ 0 → OnFreeList s s.heapFreeList
  | next {h : ℕ} : OnFreeList s h → s.nextAt h ≠ 0 → OnFreeList s (s.nextAt h)

/-- **The blocks of the heap**, one behind the other. -/
inductive Block (s : Mem) : ℕ → Prop
  | first : kernelHeapStart < s.heapCurrentLimit → Block s kernelHeapStart
  | next {h : ℕ} : Block s h → h + headerSize + s.sizeAt h < s.heapCurrentLimit →
      Block s (h + headerSize + s.sizeAt h)

/-- A header inside the heap. -/
def InHeap (s : Mem) (h : ℕ) : Prop :=
  kernelHeapStart ≤ h ∧ h + headerSize ≤ s.heapCurrentLimit ∧ h + headerSize ≤ 2 ^ 64

/-- **The heap is left alone**: its free list stays where it was, inside the heap, and so do all
headers. -/
structure HeapKept (s s' : Mem) : Prop where
  freeList : s'.heapFreeList = s.heapFreeList
  inside : ∀ h, OnFreeList s' h → InHeap s' h
  headers : ∀ h, OnFreeList s h ∨ Block s h → ∀ x, h ≤ x → x < h + headerSize →
    s'.heapBytes x = s.heapBytes x

/-- **`munmap` undoes `mmap`**: the pages of the region, and no others, are unmapped, and their
frames, and no others, are free again. -/
structure Undone (s s' : Mem) (cr3 base : ℕ) (frames : List ℕ) : Prop where
  unmapped : ∀ v, InRegion base frames.length v → s'.walk cr3 v = none
  others : ∀ v, ¬InRegion base frames.length v → s'.walk cr3 v = s.walk cr3 v
  freed : ∀ f, s'.pmm.bitmapTest f = (s.pmm.bitmapTest f && decide (f ∉ frames))
  used : s'.pmm.usedPages = s.pmm.usedPages - UInt64.ofNat frames.length
  heap : HeapKept s s'

/-- A region that is still mapped. -/
def Live (st0 : Sys) (acts : List Act) (s : Mem) (ct : Proc) (p : ℕ) (ptr : UInt64)
    (pages : UInt32) (frames : List ℕ) : Prop :=
  Returned st0 acts p ptr pages ∧ frames.length = pages.toNat ∧ Mapped s ct.cr3 ptr.toNat frames

/-- **`sys_free_pages` does what it should**: it returns, with a live region undone, and with the
heap left alone for any other pointer. -/
def MunmapRight (st0 : Sys) (acts : List Act) (s : Mem) (ct : Proc) (p : ℕ) (ptr : UInt64)
    (pages : UInt32) : Prop :=
  ∃ r s', sysFreePages ptr pages ct s = .done r s' ∧
    (∀ frames, Live st0 acts s ct p ptr pages frames → Undone s s' ct.cr3 ptr.toNat frames) ∧
    ((¬∃ frames, Live st0 acts s ct p ptr pages frames) → HeapKept s s')

/-- The byte `kfree` takes for `is_free` is there, and set. -/
def FlagSet (s : Mem) (cr3 ptr : ℕ) : Prop :=
  ∃ isFree, place s cr3 (wrap (wsub ptr headerSize + 8)) = some isFree ∧ fetch s isFree ≠ 0

/-- **`kfree` has nothing to do.**  In the last case the header is at address 0, where a page is
mapped, and puts nothing on an empty list. -/
def Idle (s : Mem) (cr3 : ℕ) (ptr : UInt64) : Prop :=
  ptr = 0 ∨ FlagSet s cr3 ptr.toNat ∨ ptr = 24 ∧ s.heapFreeList = 0 ∧ s.walk cr3 0 ≠ none

/-! ## What `kfree` changes -/

variable {b n : ℕ}

section Kfree

variable {s s' : Mem} {cr3 ptr a : ℕ}

/-- The two memories differ in bytes only. -/
structure BytesOnly (s s' : Mem) : Prop where
  pmm : s'.pmm = s.pmm
  heapFreeList : s'.heapFreeList = s.heapFreeList
  heapCurrentLimit : s'.heapCurrentLimit = s.heapCurrentLimit

theorem BytesOnly.trans {s'' : Mem} (h : BytesOnly s s') (h' : BytesOnly s' s'') :
    BytesOnly s s'' :=
  ⟨h'.pmm.trans h.pmm, h'.heapFreeList.trans h.heapFreeList,
    h'.heapCurrentLimit.trans h.heapCurrentLimit⟩

theorem put_bytesOnly (s : Mem) (b : UInt8) (p : Place) : BytesOnly s (put s b p) := by
  cases p <;> exact ⟨rfl, rfl, rfl⟩

theorem putWord_bytesOnly (s : Mem) (ps : List Place) (v : ℕ) : BytesOnly s (putWord s ps v) := by
  induction ps generalizing s v with
  | nil => exact ⟨rfl, rfl, rfl⟩
  | cons p ps ih => exact (put_bytesOnly s _ p).trans (ih _ _)

theorem put_heapBytes {b : UInt8} {p : Place} (h : p ≠ .heap a) :
    (put s b p).heapBytes a = s.heapBytes a := by
  cases p with
  | heap x => exact update_of_ne (fun heq => h (by rw [heq])) _ _
  | frame f o => rfl

theorem putWord_heapBytes {ps : List Place} {v : ℕ} (h : .heap a ∉ ps) :
    (putWord s ps v).heapBytes a = s.heapBytes a := by
  induction ps generalizing s v with
  | nil => rfl
  | cons p ps ih =>
    obtain ⟨hp, hps⟩ := List.ne_and_not_mem_of_not_mem_cons h
    exact (ih hps).trans (put_heapBytes fun heq => hp heq.symm)

theorem place_eq_heap (h : place s cr3 a = some (.heap b)) :
    b = a ∧ kernelHeapStart ≤ a ∧ a < s.heapCurrentLimit := by
  unfold place at h
  split_ifs at h with hin hcan
  · cases h
    exact ⟨rfl, hin⟩
  · cases hw : s.walk cr3 a <;> simp [hw] at h

theorem place_of_inHeap (hlow : kernelHeapStart ≤ a) (hhigh : a < s.heapCurrentLimit) :
    place s cr3 a = some (.heap a) := if_pos ⟨hlow, hhigh⟩

theorem mem_places {ps : List Place} (h : places s cr3 a n = some ps) {p : Place} (hp : p ∈ ps) :
    ∃ k < n, place s cr3 (wrap (a + k)) = some p := by
  induction n generalizing a ps with
  | zero =>
    cases h
    cases hp
  | succ n ih =>
    unfold places at h
    split at h
    · next q qs hq hqs =>
        cases h
        rcases List.mem_cons.1 hp with rfl | hp
        · exact ⟨0, by omega, by simpa using hq⟩
        · obtain ⟨k, hk, hplace⟩ := ih hqs hp
          exact ⟨k + 1, by omega, by rwa [← Nat.add_assoc, Nat.add_right_comm]⟩
    · cases h

/-- **The three ways of `kfree`**: nothing to do, a block on the free list, or a fault. -/
theorem kfreeAt_cases (cr3 : ℕ) {ptr : ℕ} (s : Mem) (h0 : ptr ≠ 0) :
    (FlagSet s cr3 ptr ∧ kfreeAt cr3 ptr s = .done () s) ∨
      (∃ isFree next, place s cr3 (wrap (wsub ptr headerSize + 8)) = some isFree ∧
        fetch s isFree = 0 ∧
        places (put s 1 isFree) cr3 (wsub ptr headerSize + 16) 8 = some next ∧
        kfreeAt cr3 ptr s = .done ()
          ((putWord (put s 1 isFree) next s.heapFreeList).setFreeList (wsub ptr headerSize))) ∨
      ¬FlagSet s cr3 ptr ∧ ∃ t, kfreeAt cr3 ptr s = .halt t := by
  rcases hflag : place s cr3 (wrap (wsub ptr headerSize + 8)) with _ | isFree
  · refine .inr (.inr ⟨?_, s, by simp only [kfreeAt, h0, if_false, hflag]⟩)
    rintro ⟨isFree, heq, -⟩
    cases hflag.symm.trans heq
  · by_cases hset : fetch s isFree = 0
    · have hnot : ¬FlagSet s cr3 ptr := by
        rintro ⟨_, heq, hne⟩
        exact hne (Option.mem_unique hflag heq ▸ hset)
      rcases hnext : places (put s 1 isFree) cr3 (wsub ptr headerSize + 16) 8 with _ | next
      · refine .inr (.inr ⟨hnot, put s 1 isFree, ?_⟩)
        simp only [kfreeAt, h0, if_false, hflag, hset, ne_eq, not_true_eq_false, hnext]
      · refine .inr (.inl ⟨isFree, next, rfl, hset, hnext, ?_⟩)
        simp only [kfreeAt, h0, if_false, hflag, hset, ne_eq, not_true_eq_false, hnext,
          (put_bytesOnly s 1 isFree).heapFreeList]
    · refine .inl ⟨⟨isFree, hflag, hset⟩, ?_⟩
      simp only [kfreeAt, h0, if_false, hflag, hset, ne_eq, not_false_eq_true, if_true]

/-! ### In the heap -/

/-- A word kept byte by byte in the heap is a word stored there. -/
theorem putWord_heap (hlow : kernelHeapStart ≤ a) (hhigh : a + n ≤ s.heapCurrentLimit)
    (htop : a + n ≤ 2 ^ 64) : ∃ ps, places s cr3 a n = some ps ∧
      ∀ t v, putWord t ps v = { t with heapBytes := Bytes.store t.heapBytes a n v } := by
  induction n generalizing a with
  | zero => exact ⟨[], rfl, fun t v => by rw [Bytes.store_zero]; rfl⟩
  | succ n ih =>
    obtain ⟨ps, hps, hput⟩ := ih (a := a + 1) (by omega) (by omega) (by omega)
    refine ⟨.heap a :: ps, ?_, fun t v => ?_⟩
    · rw [places, wrap_of_lt (by omega), place_of_inHeap hlow (by omega), hps]
    · rw [putWord, hput, Bytes.store_succ]
      rfl

theorem isFreeAt_iff : s.isFreeAt b = true ↔ s.heapBytes (b + 8) ≠ 0 := by
  simp [Mem.isFreeAt, Bytes.load, ← UInt8.toNat_inj]

theorem put_one_heap (b : ℕ) : put s 1 (.heap (b + 8)) = s.setIsFree b true := by
  rw [Mem.setIsFree, Bytes.store_succ, Bytes.store_zero]
  rfl

/-- **On a header in the heap this is `kfree`.** -/
theorem kfreeAt_inHeap (h : InHeap s b) :
    kfreeAt cr3 (b + headerSize) s = .done () (s.kfree (b + headerSize)) := by
  obtain ⟨hlow, hhigh, htop⟩ := h
  have hsize : headerSize = 24 := rfl
  have h0 : b + headerSize ≠ 0 := by omega
  have hhdr : wsub (b + headerSize) headerSize = b := by
    unfold wsub wrap
    omega
  have hflag : place s cr3 (wrap (b + 8)) = some (.heap (b + 8)) := by
    rw [wrap_of_lt (by omega)]
    exact place_of_inHeap (by omega) (by omega)
  rw [kfreeAt, Mem.kfree, if_neg h0, if_neg h0]
  simp only [hhdr, hflag, fetch]
  by_cases hset : s.heapBytes (b + 8) = 0
  · have hfree : ¬s.isFreeAt b = true := fun h => isFreeAt_iff.1 h hset
    obtain ⟨next, hnext, hput⟩ : ∃ ps, places (s.setIsFree b true) cr3 (b + 16) 8 = some ps ∧
        ∀ t v, putWord t ps v = { t with heapBytes := Bytes.store t.heapBytes (b + 16) 8 v } :=
      putWord_heap (by omega) (by rw [Mem.heapCurrentLimit_setIsFree]; omega) (by omega)
    rw [if_neg (not_not.2 hset), if_neg hfree, put_one_heap, hnext]
    simp only [hput]
    rfl
  · rw [if_pos hset, if_pos (isFreeAt_iff.2 hset)]

/-- An empty list has no blocks. -/
theorem not_onFreeList (h : s.heapFreeList = 0) : ¬OnFreeList s b := by
  intro hb
  induction hb with
  | head hne => exact hne h
  | next _ _ ih => exact ih

theorem heapKept_refl : HeapKept s s ↔ ∀ h, OnFreeList s h → InHeap s h :=
  ⟨HeapKept.inside, fun h => ⟨rfl, h, fun _ _ _ _ _ => rfl⟩⟩

/-- A header at 0 is outside the heap. -/
theorem place_ne_heap (h : a < kernelHeapStart) : place s cr3 a ≠ some (.heap b) :=
  fun heq => absurd (place_eq_heap heq).2.1 (by omega)

/-! ### At address 0 -/

/-- The bytes of page 0 are in its frame. -/
theorem place_low (ha : a < 4096) :
    place s cr3 a = (s.walk cr3 0).map fun e => .frame e.address.val (Fin.ofNat _ a) := by
  have hout : ¬(kernelHeapStart ≤ a ∧ a < s.heapCurrentLimit) := by
    unfold kernelHeapStart
    omega
  have hwalk : s.walk cr3 a = s.walk cr3 0 := by
    obtain ⟨hupper, hlast⟩ := path_inj.2 (show pageNumber a = pageNumber 0 by
      unfold pageNumber
      omega)
    rw [Mem.walk, Mem.walk, hupper, hlast]
  rw [place, if_neg hout, if_pos (.inl (by omega)), hwalk]

theorem places_low (ha : a + n ≤ 4096) (h : s.walk cr3 0 ≠ none) :
    ∃ ps, places s cr3 a n = some ps := by
  obtain ⟨e, he⟩ := Option.ne_none_iff_exists'.1 h
  induction n generalizing a with
  | zero => exact ⟨[], rfl⟩
  | succ n ih =>
    obtain ⟨ps, hps⟩ := ih (a := a + 1) (by omega)
    rw [places, wrap_of_lt (by omega), place_low (by omega), he, hps]
    exact ⟨_, rfl⟩

/-- Byte 8 of a frame is in none of the entries that the walk of page 0 takes. -/
theorem walk_put_eight (f : ℕ) (b : UInt8) : (put s b (.frame f 8)).walk cr3 0 = s.walk cr3 0 := by
  have hentry : ∀ g, (put s b (.frame f 8)).entry g 0 = s.entry g 0 := fun g => by
    rcases eq_or_ne g f with rfl | hne
    · simp [put, Mem.entry, Page.entry, Page.word, Page.byteIn, Fin.ext_iff]
    · rw [Mem.entry, put, Mem.setFrame_phys_of_ne _ _ hne, Mem.entry]
  have hnext : ∀ g, (put s b (.frame f 8)).next g 0 = s.next g 0 := fun g => by
    rw [Mem.next, hentry, Mem.next]
  have hleaf : ∀ g, (put s b (.frame f 8)).leaf g 0 = s.leaf g 0 := fun g => by
    rw [Mem.leaf, hentry, Mem.leaf]
  have hpath : upperPath 0 ++ [ptIndex 0] = [0, 0, 0, 0] := by decide
  simp only [Mem.walk, hpath, Radix.find, hnext, hleaf]

/-- **A header at address 0** is freed exactly if a page is mapped there. -/
theorem kfreeAt_zero_iff : (∃ s', kfreeAt cr3 24 s = .done () s') ↔ s.walk cr3 0 ≠ none := by
  have hflag : place s cr3 (wrap (wsub 24 headerSize + 8)) =
      (s.walk cr3 0).map fun e => .frame e.address.val 8 := place_low (a := 8) (by decide)
  cases he : s.walk cr3 0 with
  | none =>
    rw [he] at hflag
    simp [kfreeAt, hflag]
  | some e =>
    rw [he, Option.map_some] at hflag
    obtain ⟨next, hnext⟩ : ∃ ps, places (put s 1 (.frame e.address.val 8)) cr3
        (wsub 24 headerSize + 16) 8 = some ps :=
      places_low (a := 16) (by decide) (by rw [walk_put_eight, he]; simp)
    refine iff_of_true ?_ (by simp)
    by_cases hset : fetch s (.frame e.address.val 8) = 0
    all_goals simp [kfreeAt, hflag, hset, hnext]

end Kfree

/-! ## Which calls are right -/

section Munmap

variable {s s' : Mem} {cr3 : ℕ} {ct : Proc} {ptr : UInt64} {pages : UInt32}

theorem header_eq_zero (ptr : UInt64) : wsub ptr.toNat headerSize = 0 ↔ ptr = 24 := by
  have hlt := ptr.toNat_lt
  have h24 : (24 : UInt64).toNat = 24 := rfl
  rw [← UInt64.toNat_inj, h24]
  unfold wsub wrap headerSize
  omega

/-- **A block that goes on the free list changes the heap**, unless it is no block at all. -/
theorem heapKept_of_freed {isFree : Place} {next : List Place}
    (hflag : place s cr3 (wrap (wsub ptr.toNat headerSize + 8)) = some isFree)
    (hclear : fetch s isFree = 0)
    (hnext : places (put s 1 isFree) cr3 (wsub ptr.toNat headerSize + 16) 8 = some next) :
    HeapKept s ((putWord (put s 1 isFree) next s.heapFreeList).setFreeList
      (wsub ptr.toNat headerSize)) ↔ ptr = 24 ∧ s.heapFreeList = 0 := by
  have hbytes := (put_bytesOnly s 1 isFree).trans (putWord_bytesOnly _ next s.heapFreeList)
  rw [← header_eq_zero]
  generalize wsub ptr.toNat headerSize = header at *
  constructor
  · rintro ⟨hlist, hinside, hheaders⟩
    rcases eq_or_ne header 0 with hzero | hne
    · exact ⟨hzero, hlist.symm.trans hzero⟩
    · -- The block is the head of the list already; only its flag tells.
      obtain ⟨hlow, hhigh, htop⟩ := hinside header (.head hne)
      rw [Mem.setFreeList, hbytes.heapCurrentLimit] at hhigh
      have hhead : OnFreeList s header := by
        rw [show header = s.heapFreeList from hlist] at hne ⊢
        exact .head hne
      have hkept := hheaders header (.inl hhead) (header + 8) (by omega)
        (by unfold headerSize; omega)
      unfold headerSize at hhigh htop
      have hwrap : wrap (header + 8) = header + 8 := wrap_of_lt (by omega)
      rw [hwrap, place_of_inHeap (by omega) (by omega)] at hflag
      cases hflag
      have hone : (put s 1 (.heap (header + 8))).heapBytes (header + 8) = 1 :=
        update_self ..
      have hafter : (putWord (put s 1 (.heap (header + 8))) next s.heapFreeList).heapBytes
          (header + 8) = 1 := by
        refine (putWord_heapBytes fun hmem => ?_).trans hone
        obtain ⟨k, hk, hplace⟩ := mem_places hnext hmem
        have heq := (place_eq_heap hplace).1
        rw [wrap_of_lt (by omega)] at heq
        omega
      have hzero : s.heapBytes (header + 8) = 0 := hclear
      exact absurd (hafter.symm.trans (hkept.trans hzero)) (by decide)
  · rintro ⟨rfl, hlist⟩
    refine ⟨hlist.symm, fun h hh => absurd hh (not_onFreeList rfl), fun h _ x _ _ => ?_⟩
    have hput : (put s 1 isFree).heapBytes x = s.heapBytes x := put_heapBytes fun heq =>
      place_ne_heap (by decide) (heq ▸ hflag)
    refine (putWord_heapBytes fun hmem => ?_).trans hput
    obtain ⟨k, hk, hplace⟩ := mem_places hnext hmem
    refine place_ne_heap ?_ hplace
    unfold wrap kernelHeapStart
    omega

theorem sysFreePages_done_iff (h0 : ptr ≠ 0) {r : ℤ} : sysFreePages ptr pages ct s = .done r s' ↔
      r = 0 ∧ kfreeAt ct.cr3 ptr.toNat s = .done () s' := by
  rw [sysFreePages, if_neg h0, bind_apply]
  cases kfreeAt ct.cr3 ptr.toNat s <;> simp [eq_comm]

/-- **No frame is given back.** -/
theorem sysFreePages_pmm {r : ℤ} (h : sysFreePages ptr pages ct s = .done r s') :
    s'.pmm = s.pmm := by
  by_cases h0 : ptr = 0
  · subst h0
    cases h
    rfl
  · have hk := ((sysFreePages_done_iff h0).1 h).2
    have hne : ptr.toNat ≠ 0 := fun h => h0 (UInt64.toNat_inj.1 h)
    rcases kfreeAt_cases ct.cr3 s hne with ⟨-, hk'⟩ | ⟨isFree, next, -, -, -, hk'⟩ | ⟨-, t, hk'⟩
    · cases hk.symm.trans hk'
      rfl
    · cases hk.symm.trans hk'
      exact (Mem.setFreeList_heapOnly _ _).pmm.trans
        ((put_bytesOnly s 1 isFree).trans (putWord_bytesOnly _ next s.heapFreeList)).pmm
    · cases hk.symm.trans hk'

/-- **The heap is left alone exactly if `kfree` has nothing to do.** -/
theorem heapKept_iff : (∃ r s', sysFreePages ptr pages ct s = .done r s' ∧ HeapKept s s') ↔
    (∀ h, OnFreeList s h → InHeap s h) ∧ Idle s ct.cr3 ptr := by
  by_cases h0 : ptr = 0
  · subst h0
    have hrun : sysFreePages 0 pages ct s = .done (-1) s := rfl
    simp [hrun, Idle, heapKept_refl]
  · have hne : ptr.toNat ≠ 0 := fun h => h0 (UInt64.toNat_inj.1 h)
    simp only [sysFreePages_done_iff h0, and_assoc, exists_and_left, exists_eq_left]
    rcases kfreeAt_cases ct.cr3 s hne with ⟨hset, hk⟩ | ⟨isFree, next, hflag, hclear, hnext, hk⟩ |
      ⟨hset, t, hk⟩
    · simp [hk, Idle, hset, heapKept_refl]
    · have hnot : ¬FlagSet s ct.cr3 ptr.toNat := by
        rintro ⟨_, heq, hne⟩
        exact hne (Option.mem_unique hflag heq ▸ hclear)
      simp only [hk, Outcome.done.injEq, true_and, exists_eq_left',
        heapKept_of_freed hflag hclear hnext, Idle, h0, hnot, false_or]
      constructor
      · rintro ⟨rfl, hlist⟩
        exact ⟨fun h hh => absurd hh (not_onFreeList hlist), rfl, hlist,
          kfreeAt_zero_iff.1 ⟨_, hk⟩⟩
      · rintro ⟨-, hptr, hlist, -⟩
        exact ⟨hptr, hlist⟩
    · simp only [hk, reduceCtorEq, false_and, exists_false, Idle, h0, hset, false_or, false_iff]
      rintro ⟨-, rfl, -, hmapped⟩
      obtain ⟨s', hs'⟩ := kfreeAt_zero_iff.2 hmapped
      cases hk.symm.trans hs'

/-- A successful `mmap` is of one page at least. -/
theorem Returned.pages_ne {st0 : Sys} {acts : List Act} {p : ℕ}
    (h : Returned st0 acts p ptr pages) : pages ≠ 0 := by
  rintro rfl
  obtain ⟨hne, -, -, st, ct, ct', s', -, -, -, hrun⟩ := h
  have hbase := (Prod.mk.inj (Outcome.done.inj hrun).1).1
  exact hne (UInt64.toNat_inj.1 hbase.symm)

/-- **`sys_free_pages` does what it should** exactly if there is no region to undo, the free list is
inside the heap, and `kfree` has nothing to do. -/
theorem munmapRight_iff (st0 : Sys) (acts : List Act) (s : Mem) (ct : Proc) (p : ℕ) (ptr : UInt64)
    (pages : UInt32) : MunmapRight st0 acts s ct p ptr pages ↔
      (¬∃ frames, Live st0 acts s ct p ptr pages frames) ∧
        (∀ h, OnFreeList s h → InHeap s h) ∧ Idle s ct.cr3 ptr := by
  have hiff : (∃ r s', sysFreePages ptr pages ct s = .done r s' ∧ HeapKept s s') ↔ _ := heapKept_iff
  rw [← hiff]
  constructor
  · rintro ⟨r, s', hrun, hundone, hkept⟩
    have hnone : ¬∃ frames, Live st0 acts s ct p ptr pages frames := by
      rintro ⟨frames, hlive⟩
      have hused := (hundone frames hlive).used
      rw [sysFreePages_pmm hrun, hlive.2.1] at hused
      have hlt := pages.toNat_lt
      have hsub := congrArg UInt64.toNat hused
      rw [UInt64.toNat_sub, UInt64.toNat_ofNat'] at hsub
      have hzero : pages.toNat = 0 := by omega
      exact hlive.1.pages_ne (UInt32.toNat_inj.1 hzero)
    exact ⟨hnone, r, s', hrun, hkept hnone⟩
  · rintro ⟨hnone, r, s', hrun, hkept⟩
    exact ⟨r, s', hrun, fun frames hlive => absurd ⟨frames, hlive⟩ hnone, fun _ => hkept⟩

end Munmap

/-- A heap of one page with one block, which is in use. -/
def oneBlock : Mem := { sixteenFrames with
  heapCurrentLimit := kernelHeapStart + 4096
  heapFreeList := 0
  heapBytes := Bytes.store (fun _ => 0) kernelHeapStart 8 4072 }

/-- **A process can free the kernel's own blocks.** -/
theorem oneBlock_freed : ¬MunmapRight ⟨oneBlock, [⟨1, usrHeapBase⟩]⟩ [] oneBlock ⟨1, usrHeapBase⟩ 0
      (UInt64.ofNat (kernelHeapStart + headerSize)) 1 := by
  rintro ⟨r, s', hrun, -, hkept⟩
  have hnone : ¬∃ frames, Live ⟨oneBlock, [⟨1, usrHeapBase⟩]⟩ [] oneBlock ⟨1, usrHeapBase⟩ 0
      (UInt64.ofNat (kernelHeapStart + headerSize)) 1 frames := by
    rintro ⟨frames, ⟨-, acts1, acts2, -, -, -, -, hacts, -⟩, -⟩
    simp at hacts
  obtain ⟨-, hptr | ⟨isFree, hflag, hset⟩ | ⟨hptr, -⟩⟩ := heapKept_iff.1 ⟨r, s', hrun, hkept hnone⟩
  · exact absurd hptr (by decide)
  · rw [show wrap _ = kernelHeapStart + 8 from rfl,
      place_of_inHeap (by decide) (by decide)] at hflag
    cases hflag
    exact hset (by decide)
  · exact absurd hptr (by decide)

end Hvos.Process
