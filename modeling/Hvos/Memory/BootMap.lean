import Mathlib.Data.Set.Card
import Hvos.Memory.Pmm

/-!
# Memory/BootMap — `init_bitmap`

The bitmap is carved out of the first usable entry of the bootloader's memory map that is long
enough; `memset` marks every page and the clearing loops free the pages of the usable entries, as
edited.  Every byte of the bitmap that is written is recorded in `touched`.
-/

namespace Hvos.Memory

/-! ## `init_bitmap` -/

/-- The types of `limine_memmap_entry`. -/
inductive MemmapType
  | usable
  | reserved
  | acpiReclaimable
  | acpiNvs
  | badMemory
  | bootloaderReclaimable
  | kernelAndModules
  | framebuffer
  deriving DecidableEq

/-- `limine_memmap_entry`. -/
structure MemmapEntry where
  base : ℕ
  length : ℕ
  type : MemmapType

/-- `get_highest_phys_addr`. -/
def getHighestPhysAddr (memmap : List MemmapEntry) : ℕ :=
  memmap.foldl (fun maxAddr e =>
    if e.type = .reserved then maxAddr
    else if (e.base + e.length) % 2 ^ 64 > maxAddr then (e.base + e.length) % 2 ^ 64
    else maxAddr) 0

/-- `bitmap_size`. -/
def bitmapSize (memmap : List MemmapEntry) : ℕ := getHighestPhysAddr memmap / 4096 / 8

/-- `e->base += size; e->length -= size`. -/
def MemmapEntry.cut (e : MemmapEntry) (size : ℕ) : MemmapEntry :=
  { e with base := (e.base + size) % 2 ^ 64, length := e.length - size }

/-- The first loop: where the bitmap goes, and the map with its bytes cut off. -/
def carve (size : ℕ) : List MemmapEntry → Option (ℕ × List MemmapEntry)
  | [] => none
  | e :: es =>
    if e.type = .usable ∧ size ≤ e.length then some (e.base, e.cut size :: es)
    else (carve size es).map fun r => (r.1, e :: r.2)

/-- The entry that loop stops at. -/
def carvedEntry (memmap : List MemmapEntry) : Option MemmapEntry :=
  memmap.find? fun e => e.type = .usable ∧ bitmapSize memmap ≤ e.length

/-- The bitmap with `total_pages` so far, and the bytes of it that were written. -/
structure Clearing where
  pmm : Pmm
  touched : List ℕ

/-- `bitmap_clear(i); pages++`. -/
def Clearing.clear (st : Clearing) (i : ℕ) : Clearing where
  pmm := { st.pmm.bitmapClear i with totalPages := st.pmm.totalPages + 1 }
  touched := i / 8 :: st.touched

/-- The pages that are cleared for an entry. -/
def MemmapEntry.pages (e : MemmapEntry) : List ℕ :=
  if e.type = .usable then
    (List.range ((e.length + 4095) / 4096)).map fun k => (e.base + 4096 * k) % 2 ^ 64 / 4096
  else []

/-- `memset(bitmap, 0xFF, size)`, over the bytes `ram` that lie where the bitmap goes and behind. -/
def Clearing.marked (size : ℕ) (ram : ℕ → BitVec 8) : Clearing where
  pmm := { bitmap := fun k => if k < size then 0xff else ram k, totalPages := 0, usedPages := 0 }
  touched := List.range size

/-- What `init_bitmap` leaves: the allocator, the bytes it wrote, and the bitmap's place. -/
structure BootMap where
  pmm : Pmm
  touched : List ℕ
  storage : ℕ

/-- `init_bitmap`.  Without a place for the bitmap it halts. -/
def initBitmap (memmap : List MemmapEntry) (ram : ℕ → BitVec 8) : Option BootMap :=
  let size := bitmapSize memmap
  (carve size memmap).map fun (storage, memmap') =>
    let done := memmap'.foldl (fun st e => e.pages.foldl Clearing.clear st) (.marked size ram)
    ⟨done.pmm, done.touched, storage⟩

variable {memmap es es' : List MemmapEntry} {e f : MemmapEntry} {ram : ℕ → BitVec 8} {r : BootMap}

/-- **The clearing loops** clear the bits of their pages, count them, and write their bytes. -/
theorem foldl_clear (is : List ℕ) (st : Clearing) :
    (∀ k, k ∈ (is.foldl Clearing.clear st).touched ↔ k ∈ st.touched ∨ ∃ i ∈ is, k = i / 8) ∧
      (is.foldl Clearing.clear st).pmm.totalPages = st.pmm.totalPages + is.length ∧
      ∀ j, (is.foldl Clearing.clear st).pmm.bitmapTest j = (st.pmm.bitmapTest j && !decide (j ∈ is)) := by
  induction is generalizing st with
  | nil => simp
  | cons i is ih =>
    obtain ⟨htouched, htotal, htest⟩ := ih (st.clear i)
    rw [List.foldl_cons]
    refine ⟨fun k => ?_, ?_, fun j => ?_⟩
    · rw [htouched, Clearing.clear, List.mem_cons, List.exists_mem_cons_iff, or_assoc, or_left_comm]
    · rw [htotal, List.length_cons, Clearing.clear]
      simp only
      omega
    · have hclear : (st.clear i).pmm.bitmapTest j = (st.pmm.bitmapTest j && !decide (j = i)) :=
        Pmm.bitmapTest_bitmapClear st.pmm i j
      rw [htest, hclear, Bool.and_assoc]
      simp only [List.mem_cons, Bool.decide_or, Bool.not_or]

variable {size i : ℕ}

theorem marked_bitmapTest (hi : i < 8 * size) :
    (Clearing.marked size ram).pmm.bitmapTest i = true := by
  have hbyte : (Clearing.marked size ram).pmm.bitmap (i / 8) = 0xff :=
    if_pos (show i / 8 < size by omega)
  have hones : ∀ k < 8, (0xff : BitVec 8).getLsbD k = true := by decide
  rw [Pmm.bitmapTest, hbyte]
  exact hones _ (Nat.mod_lt _ (by decide))

/-- **The first loop stops at the first usable entry that is long enough.** -/
theorem carve_eq (h : es.find? (fun e => e.type = .usable ∧ size ≤ e.length) = some e) :
    ∃ pre post, es = pre ++ e :: post ∧
      carve size es = some (e.base, pre ++ e.cut size :: post) := by
  induction es with
  | nil => cases h
  | cons f es ih =>
    by_cases hf : f.type = .usable ∧ size ≤ f.length
    · rw [List.find?_cons_of_pos (by simpa using hf)] at h
      cases h
      exact ⟨[], es, rfl, by rw [carve, if_pos hf]; rfl⟩
    · rw [List.find?_cons_of_neg (by simpa using hf)] at h
      obtain ⟨pre, post, rfl, hes⟩ := ih h
      exact ⟨f :: pre, post, rfl, by rw [carve, if_neg hf, hes]; rfl⟩

/-- **What `init_bitmap` computes**, by the list of pages it clears. -/
theorem initBitmap_spec (h : carvedEntry memmap = some e) (ram : ℕ → BitVec 8) :
    ∃ r pre post, initBitmap memmap ram = some r ∧ memmap = pre ++ e :: post ∧
      r.storage = e.base ∧
      let is := (pre ++ e.cut (bitmapSize memmap) :: post).flatMap MemmapEntry.pages
      r.pmm.totalPages = is.length ∧
        (∀ k, k ∈ r.touched ↔ k < bitmapSize memmap ∨ ∃ i ∈ is, k = i / 8) ∧
        ∀ i < 8 * bitmapSize memmap, r.pmm.bitmapTest i = false ↔ i ∈ is := by
  obtain ⟨pre, post, hbefore, hcarve⟩ := carve_eq h
  obtain ⟨htouched, htotal, htest⟩ := foldl_clear
    ((pre ++ e.cut (bitmapSize memmap) :: post).flatMap MemmapEntry.pages)
    (.marked (bitmapSize memmap) ram)
  rw [List.foldl_flatMap] at htouched htotal htest
  refine ⟨_, pre, post, by rw [initBitmap, hcarve]; rfl, hbefore, rfl, ?_, fun k => ?_,
    fun i hi => ?_⟩
  · rw [htotal]
    exact Nat.zero_add _
  · rw [htouched]
    exact or_congr_left List.mem_range
  · rw [htest, marked_bitmapTest hi, Bool.true_and, Bool.not_eq_false', decide_eq_true_iff]

/-! ## Pages of entries -/

/-- Byte `a` belongs to the entry. -/
def MemmapEntry.Has (e : MemmapEntry) (a : ℕ) : Prop := e.base ≤ a ∧ a < e.base + e.length

/-- **A memory map**: whole pages of 64-bit physical memory, and no byte in two entries. -/
structure Aligned (memmap : List MemmapEntry) : Prop where
  base : ∀ e ∈ memmap, e.base % 4096 = 0
  length : ∀ e ∈ memmap, e.length % 4096 = 0
  fits : ∀ e ∈ memmap, e.base < 2 ^ 64 ∧ e.base + e.length ≤ 2 ^ 64
  apart : memmap.Pairwise fun e f => ∀ a, e.Has a → ¬f.Has a

theorem aligned_singleton (hbase : e.base % 4096 = 0) (hlength : e.length % 4096 = 0)
    (hlt : e.base < 2 ^ 64) (hfits : e.base + e.length ≤ 2 ^ 64) : Aligned [e] where
  base := by simpa using hbase
  length := by simpa using hlength
  fits := by simpa using ⟨hlt, hfits⟩
  apart := List.pairwise_singleton ..

/-- Page `i` lies in a usable entry. -/
def UsablePage (memmap : List MemmapEntry) (i : ℕ) : Prop :=
  ∃ e ∈ memmap, e.type = .usable ∧ ∀ a, a / 4096 = i → e.Has a

/-- Some byte of page `i` belongs to a bitmap at `storage`. -/
def OnBitmap (memmap : List MemmapEntry) (storage i : ℕ) : Prop :=
  ∃ a, storage ≤ a ∧ a < storage + bitmapSize memmap ∧ a / 4096 = i

/-- Page `i` is usable, and not wholly that of a bitmap at `storage`. -/
def LeftOver (memmap : List MemmapEntry) (storage i : ℕ) : Prop :=
  UsablePage memmap i ∧ ¬(storage ≤ 4096 * i ∧ 4096 * (i + 1) ≤ storage + bitmapSize memmap)

/-- A page lies in an entry if its first byte does. -/
theorem has_page_iff (hbase : e.base % 4096 = 0) (hlength : e.length % 4096 = 0) :
    (∀ a, a / 4096 = i → e.Has a) ↔ e.Has (4096 * i) := by
  refine ⟨fun h => h _ (by omega), fun h a ha => ?_⟩
  obtain ⟨hle, hlt⟩ := h
  exact ⟨by omega, by omega⟩

/-- **The pages of an entry after `size` bytes are cut off**: the one with the last of those bytes
is among them, unless they end at its end. -/
theorem mem_pages_cut (hbase : e.base % 4096 = 0) (hlength : e.length % 4096 = 0)
    (hfits : e.base + e.length ≤ 2 ^ 64) (hsize : size ≤ e.length) : i ∈ (e.cut size).pages ↔
      e.type = .usable ∧ e.Has (4096 * i) ∧ e.base + size < 4096 * (i + 1) := by
  unfold MemmapEntry.pages MemmapEntry.cut MemmapEntry.Has
  by_cases husable : e.type = .usable
  · simp only [husable, if_true, List.mem_map, List.mem_range, true_and]
    constructor
    · rintro ⟨k, hk, rfl⟩
      omega
    · rintro ⟨⟨hle, hlt⟩, hend⟩
      exact ⟨i - (e.base + size) / 4096, by omega, by omega⟩
  · simp [husable]

theorem cut_zero (h : e.base < 2 ^ 64) : e.cut 0 = e := by
  unfold MemmapEntry.cut
  rw [Nat.add_zero, Nat.mod_eq_of_lt h, Nat.sub_zero]

theorem nodup_pages_cut (hfits : e.base + e.length ≤ 2 ^ 64) (hsize : size ≤ e.length) :
    (e.cut size).pages.Nodup := by
  unfold MemmapEntry.pages MemmapEntry.cut
  by_cases husable : e.type = .usable
  · simp only [if_pos husable]
    refine List.Nodup.map_on (fun k hk k' hk' heq => ?_) List.nodup_range
    rw [List.mem_range] at hk hk'
    omega
  · simp [husable]

/-- The pages of an entry that is not cut. -/
theorem mem_pages (hbase : e.base % 4096 = 0) (hlength : e.length % 4096 = 0)
    (hlt : e.base < 2 ^ 64) (hfits : e.base + e.length ≤ 2 ^ 64) :
    i ∈ e.pages ↔ e.type = .usable ∧ e.Has (4096 * i) := by
  rw [← cut_zero hlt, mem_pages_cut hbase hlength hfits (Nat.zero_le _), cut_zero hlt]
  refine and_congr_right fun _ => and_iff_left_of_imp fun hhas => ?_
  have hle := hhas.1
  omega

theorem Aligned.mem_pages (h : Aligned memmap) (he : e ∈ memmap) :
    i ∈ e.pages ↔ e.type = .usable ∧ e.Has (4096 * i) :=
  Memory.mem_pages (h.base e he) (h.length e he) (h.fits e he).1 (h.fits e he).2

theorem Aligned.cut_subset (h : Aligned memmap) (he : e ∈ memmap) (hsize : size ≤ e.length) :
    (e.cut size).pages ⊆ e.pages := fun i hi => by
  rw [mem_pages_cut (h.base e he) (h.length e he) (h.fits e he).2 hsize] at hi
  exact (h.mem_pages he).2 ⟨hi.1, hi.2.1⟩

theorem Aligned.usablePage_iff (h : Aligned memmap) :
    UsablePage memmap i ↔ ∃ e ∈ memmap, i ∈ e.pages := by
  refine exists_congr fun e => and_congr_right fun he => ?_
  rw [h.mem_pages he, has_page_iff (h.base e he) (h.length e he)]

/-! ## The pages that are cleared -/

/-- The map as `init_bitmap` found and left it. -/
structure Carved (memmap es' pre : List MemmapEntry) (e : MemmapEntry) (post : List MemmapEntry) :
    Prop where
  aligned : Aligned memmap
  before : memmap = pre ++ e :: post
  after : es' = pre ++ e.cut (bitmapSize memmap) :: post
  usable : e.type = .usable
  size : bitmapSize memmap ≤ e.length

variable {pre post : List MemmapEntry}

theorem Carved.mem (h : Carved memmap es' pre e post) : e ∈ memmap := by
  rw [h.before]
  simp

/-- Pages of two entries differ. -/
theorem Aligned.disjoint (h : Aligned memmap) :
    memmap.Pairwise fun e f => List.Disjoint e.pages f.pages := by
  refine h.apart.imp_of_mem fun he hf hapart i hie hif => ?_
  exact hapart _ ((h.mem_pages he).1 hie).2 ((h.mem_pages hf).1 hif).2

/-- No page is cleared twice. -/
theorem Carved.nodup (h : Carved memmap es' pre e post) :
    (es'.flatMap MemmapEntry.pages).Nodup := by
  have hsub := h.aligned.cut_subset h.mem h.size
  have hpair := h.aligned.disjoint
  rw [h.before, List.pairwise_append, List.pairwise_cons] at hpair
  obtain ⟨hpre, ⟨hhead, hpost⟩, hcross⟩ := hpair
  have hnodup : ∀ f ∈ memmap, f.pages.Nodup := fun f hf => by
    rw [← cut_zero (h.aligned.fits f hf).1]
    exact nodup_pages_cut (h.aligned.fits f hf).2 (Nat.zero_le _)
  rw [List.nodup_flatMap, h.after, List.pairwise_append, List.pairwise_cons]
  refine ⟨fun f hf => ?_, hpre, ⟨fun f hf => ?_, hpost⟩, fun f hf g hg => ?_⟩
  · rw [List.mem_append, List.mem_cons] at hf
    rcases hf with hf | rfl | hf
    · exact hnodup f (by rw [h.before]; exact List.mem_append_left _ hf)
    · exact nodup_pages_cut (h.aligned.fits e h.mem).2 h.size
    · exact hnodup f (by rw [h.before]; exact List.mem_append_right _ (List.mem_cons_of_mem _ hf))
  · exact List.disjoint_of_subset_left hsub (hhead f hf)
  · rcases List.mem_cons.1 hg with rfl | hg
    · exact List.disjoint_of_subset_right hsub (hcross f hf e List.mem_cons_self)
    · exact hcross f hf g (List.mem_cons_of_mem _ hg)

/-- **The pages cleared are the usable ones that the bitmap does not fill.** -/
theorem Carved.mem_iff (h : Carved memmap es' pre e post) :
    i ∈ es'.flatMap MemmapEntry.pages ↔ LeftOver memmap e.base i := by
  have hmem := h.mem
  have hcut := mem_pages_cut (i := i) (h.aligned.base e hmem) (h.aligned.length e hmem)
    (h.aligned.fits e hmem).2 h.size
  have hpages := h.aligned.mem_pages hmem (i := i)
  have hpair := h.aligned.disjoint
  rw [h.before, List.pairwise_append, List.pairwise_cons] at hpair
  obtain ⟨-, ⟨hhead, -⟩, hcross⟩ := hpair
  -- The bitmap lies in `e`, so a page of another entry has no byte of it.
  have hother : ∀ f, i ∈ f.pages → (f ∈ pre ∨ f ∈ post) →
      ¬(e.base ≤ 4096 * i ∧ 4096 * (i + 1) ≤ e.base + bitmapSize memmap) := by
    rintro f hi hf ⟨hle, hlt⟩
    have hsize := h.size
    have hie : i ∈ e.pages := hpages.2 ⟨h.usable, hle, by omega⟩
    rcases hf with hf | hf
    · exact hcross f hf e List.mem_cons_self hi hie
    · exact hhead f hf hie hi
  unfold LeftOver
  rw [h.aligned.usablePage_iff, h.after, List.mem_flatMap]
  constructor
  · rintro ⟨f, hf, hi⟩
    rw [List.mem_append, List.mem_cons] at hf
    rcases hf with hf | rfl | hf
    · refine ⟨⟨f, ?_, hi⟩, hother f hi (.inl hf)⟩
      rw [h.before]
      exact List.mem_append_left _ hf
    · obtain ⟨husable, hhas, hend⟩ := hcut.1 hi
      exact ⟨⟨e, hmem, hpages.2 ⟨husable, hhas⟩⟩, by omega⟩
    · refine ⟨⟨f, ?_, hi⟩, hother f hi (.inr hf)⟩
      rw [h.before]
      exact List.mem_append_right _ (List.mem_cons_of_mem _ hf)
  · rintro ⟨⟨f, hf, hi⟩, hnot⟩
    rw [h.before, List.mem_append, List.mem_cons] at hf
    rcases hf with hf | rfl | hf
    · exact ⟨f, List.mem_append_left _ hf, hi⟩
    · refine ⟨_, List.mem_append_right _ List.mem_cons_self, hcut.2 ⟨h.usable, (hpages.1 hi).2, ?_⟩⟩
      have hle := (hpages.1 hi).2.1
      omega
    · exact ⟨f, List.mem_append_right _ (List.mem_cons_of_mem _ hf), hi⟩

/-- **`init_bitmap`, by the pages that are left**: their number, the bytes written, and the bits. -/
theorem Aligned.initBitmap (h : Aligned memmap) (he : carvedEntry memmap = some e)
    (ram : ℕ → BitVec 8) :
    ∃ r es' pre post, initBitmap memmap ram = some r ∧ Carved memmap es' pre e post ∧
      r.storage = e.base ∧ r.pmm.totalPages = {i | LeftOver memmap e.base i}.ncard ∧
      (∀ k, k ∈ r.touched ↔ k < bitmapSize memmap ∨ ∃ i, LeftOver memmap e.base i ∧ k = i / 8) ∧
      ∀ i < 8 * bitmapSize memmap, r.pmm.bitmapTest i = false ↔ LeftOver memmap e.base i := by
  obtain ⟨r, pre, post, hr, hbefore, hstorage, htotal, htouched, htest⟩ := initBitmap_spec he ram
  obtain ⟨husable, hsize⟩ : e.type = .usable ∧ bitmapSize memmap ≤ e.length := by
    simpa using List.find?_some he
  have hcarved : Carved memmap _ pre e post := ⟨h, hbefore, rfl, husable, hsize⟩
  refine ⟨r, _, pre, post, hr, hcarved, hstorage, ?_, fun k => ?_, fun i hi => ?_⟩
  · rw [htotal, ← List.toFinset_card_of_nodup hcarved.nodup, ← Set.ncard_coe_finset]
    congr 1
    ext i
    simp only [Set.mem_ofPred_eq, List.coe_toFinset, hcarved.mem_iff]
  · simp only [htouched, hcarved.mem_iff]
  · rw [htest i hi, hcarved.mem_iff]

/-! ## The frame map -/

/-- **The frame map is right**: only bytes of the bitmap are written, and a page's bit is clear
exactly if the page is usable and has no byte of the bitmap. -/
structure FrameMap (memmap : List MemmapEntry) (r : BootMap) : Prop where
  inside : ∀ k ∈ r.touched, k < bitmapSize memmap
  clear : ∀ i < 8 * bitmapSize memmap,
    r.pmm.bitmapTest i = false ↔ UsablePage memmap i ∧ ¬OnBitmap memmap r.storage i

theorem Carved.onBitmap_iff (h : Carved memmap es' pre e post)
    (hsize : bitmapSize memmap % 4096 = 0) :
    OnBitmap memmap e.base i ↔ e.base ≤ 4096 * i ∧ 4096 * (i + 1) ≤ e.base + bitmapSize memmap := by
  have hbase := h.aligned.base e h.mem
  constructor
  · rintro ⟨a, hle, hlt, rfl⟩
    omega
  · rintro ⟨hle, hlt⟩
    exact ⟨4096 * i, hle, by omega, by omega⟩

/-- If the bitmap ends within a page, that page is left over. -/
theorem Carved.tail (h : Carved memmap es' pre e post) (hsize : bitmapSize memmap % 4096 ≠ 0) :
    ∃ i, LeftOver memmap e.base i ∧ OnBitmap memmap e.base i := by
  have hmem := h.mem
  have hbase := h.aligned.base e hmem
  have hlength := h.aligned.length e hmem
  have hle := h.size
  refine ⟨(e.base + bitmapSize memmap) / 4096, ⟨⟨e, hmem, h.usable, ?_⟩, by omega⟩, ?_⟩
  · rw [has_page_iff hbase hlength]
    exact ⟨by omega, by omega⟩
  · exact ⟨e.base + bitmapSize memmap - 1, by omega, by omega, by omega⟩

/-- **When the frame map is right**: the bitmap fills whole pages, and every page that is left has a
bit in it. -/
theorem frameMap_iff (h : Aligned memmap) (he : carvedEntry memmap = some e) (ram : ℕ → BitVec 8) :
    ∃ r, initBitmap memmap ram = some r ∧
      (FrameMap memmap r ↔ bitmapSize memmap % 4096 = 0 ∧
        ∀ i, UsablePage memmap i → ¬OnBitmap memmap e.base i → i < 8 * bitmapSize memmap) := by
  obtain ⟨r, es', pre, post, hr, hcarved, hstorage, -, htouched, htest⟩ := h.initBitmap he ram
  refine ⟨r, hr, ?_, ?_⟩
  · intro hmap
    have hbelow : ∀ i, LeftOver memmap e.base i → i < 8 * bitmapSize memmap := fun i hi => by
      have hlt := hmap.inside _ ((htouched _).2 (.inr ⟨i, hi, rfl⟩))
      omega
    constructor
    · by_contra hsize
      obtain ⟨i, hleft, hon⟩ := hcarved.tail hsize
      have hi := hbelow i hleft
      exact ((hmap.clear i hi).1 ((htest i hi).2 hleft)).2 (hstorage ▸ hon)
    · intro i husable hoff
      refine hbelow i ⟨husable, fun hfull => hoff ?_⟩
      exact ⟨4096 * i, hfull.1, by omega, by omega⟩
  · rintro ⟨hsize, hbelow⟩
    have hleft : ∀ i, LeftOver memmap e.base i ↔
        UsablePage memmap i ∧ ¬OnBitmap memmap e.base i := fun i => by
      rw [hcarved.onBitmap_iff hsize, LeftOver]
    refine ⟨fun k hk => ?_, fun i hi => ?_⟩
    · rcases (htouched k).1 hk with hk | ⟨i, hi, rfl⟩
      · exact hk
      · have hlt := hbelow i ((hleft i).1 hi).1 ((hleft i).1 hi).2
        omega
    · rw [htest i hi, hleft, hstorage]

/-- Seven usable pages behind page 0. -/
def sevenPages : List MemmapEntry := [⟨0x1000, 0x7000, .usable⟩]

/-- **The bitmap's own page is free**: the bitmap's one byte is the first of page 1, and the bit of
page 1 is clear. -/
theorem sevenPages_clear :
    ∃ r, initBitmap sevenPages (fun _ => 0) = some r ∧ bitmapSize sevenPages = 1 ∧
      r.storage = 0x1000 ∧ r.pmm.bitmapTest 1 = false :=
  ⟨_, rfl, by decide, by decide, by decide +kernel⟩

/-- 128 MiB of usable memory. -/
def wholePages : List MemmapEntry := [⟨0, 0x8000000, .usable⟩]

/-- Of the two maps, the one whose bitmap fills a page is right. -/
theorem frameMap_iff_wholePages :
    (∃ r, initBitmap wholePages (fun _ => 0) = some r ∧ FrameMap wholePages r) ∧
      ∃ r, initBitmap sevenPages (fun _ => 0) = some r ∧ ¬FrameMap sevenPages r := by
  have hwhole : bitmapSize wholePages = 4096 := by decide
  have hseven : bitmapSize sevenPages = 1 := by decide
  constructor
  · obtain ⟨r, hr, hiff⟩ := frameMap_iff (show Aligned wholePages from
      aligned_singleton (by decide) (by decide) (by decide) (by decide))
      (show carvedEntry wholePages = some ⟨0, 0x8000000, .usable⟩ by rfl) fun _ => 0
    refine ⟨r, hr, hiff.2 ⟨by rw [hwhole], fun i husable _ => ?_⟩⟩
    obtain ⟨e, he, -, hhas⟩ := husable
    obtain rfl := List.mem_singleton.1 he
    have hlt : 4096 * i < 0 + 0x8000000 := (hhas (4096 * i) (by omega)).2
    omega
  · obtain ⟨r, hr, hiff⟩ := frameMap_iff (show Aligned sevenPages from
      aligned_singleton (by decide) (by decide) (by decide) (by decide))
      (show carvedEntry sevenPages = some ⟨0x1000, 0x7000, .usable⟩ by rfl) fun _ => 0
    refine ⟨r, hr, fun hmap => ?_⟩
    have hsize := (hiff.1 hmap).1
    rw [hseven] at hsize
    cases hsize

/-! ## Allocating until there is none -/

/-- `pmm_alloc` returns the frames `gs` one after the other, and then `NULL`. -/
inductive Drains : Pmm → List ℕ → Prop
  | none {p : Pmm} (h : p.pmmAlloc = none) : Drains p []
  | some {p p' : Pmm} {g : ℕ} {gs : List ℕ} (h : p.pmmAlloc = some (g, p')) (hgs : Drains p' gs) :
      Drains p (g :: gs)

/-- **It returns every free frame, once.** -/
theorem Drains.spec {p : Pmm} {gs : List ℕ} (h : Drains p gs) :
    gs.Nodup ∧ ∀ i, i ∈ gs ↔ p.Free i := by
  induction h with
  | none h => exact ⟨List.nodup_nil, fun i => by simpa using Pmm.not_free_of_pmmAlloc h i⟩
  | @some p p' g gs h _ ih =>
    obtain ⟨hfree, -, htotal, -, htest⟩ := Pmm.pmmAlloc_eq_some h
    have hrest : ∀ i, p'.Free i ↔ p.Free i ∧ i ≠ g := fun i => by
      simp only [Pmm.Free, htotal, htest, Bool.or_eq_false_iff, decide_eq_false_iff_not]
      tauto
    refine ⟨List.nodup_cons.2 ⟨fun hg => ?_, ih.1⟩, fun i => ?_⟩
    · exact ((hrest g).1 ((ih.2 g).1 hg)).2 rfl
    · rw [List.mem_cons, ih.2, hrest]
      constructor
      · rintro (rfl | hi)
        · exact hfree
        · exact hi.1
      · intro hi
        by_cases hig : i = g
        · exact .inl hig
        · exact .inr ⟨hi, hig⟩

/-- It does come to an end. -/
theorem exists_drains (p : Pmm) : ∃ gs, Drains p gs := by
  generalize hn : p.freeCount = n
  induction n using Nat.strongRecOn generalizing p with
  | ind n ih =>
    cases h : p.pmmAlloc with
    | none => exact ⟨[], .none h⟩
    | some r =>
      obtain ⟨g, p'⟩ := r
      obtain ⟨hfree, -, htotal, -, htest⟩ := Pmm.pmmAlloc_eq_some h
      have hlt : p'.freeCount < p.freeCount :=
        Pmm.freeCount_lt htotal (fun i hi => by rw [htest, hi, Bool.true_or]) hfree
          (by rw [htest]; simp)
      obtain ⟨gs, hgs⟩ := ih _ (hn ▸ hlt) p' rfl
      exact ⟨g :: gs, .some h hgs⟩

/-- Every clear page of the bitmap but page 0 is returned exactly once. -/
def AllReturned (memmap : List MemmapEntry) (r : BootMap) (gs : List ℕ) : Prop :=
  ∀ i, 1 ≤ i → i < 8 * bitmapSize memmap → r.pmm.bitmapTest i = false → gs.count i = 1

/-- **When all memory is reached**: every clear page of the bitmap, page 0 apart, has an index below
the number of pages left. -/
theorem allReturned_iff (h : Aligned memmap) (he : carvedEntry memmap = some e)
    (ram : ℕ → BitVec 8) : ∃ r gs, initBitmap memmap ram = some r ∧ Drains r.pmm gs ∧
      (AllReturned memmap r gs ↔ ∀ i, 1 ≤ i → i < 8 * bitmapSize memmap →
        LeftOver memmap e.base i → i < {j | LeftOver memmap e.base j}.ncard) := by
  obtain ⟨r, -, -, -, hr, -, -, htotal, -, htest⟩ := h.initBitmap he ram
  obtain ⟨gs, hgs⟩ := exists_drains r.pmm
  obtain ⟨hnodup, hmem⟩ := hgs.spec
  refine ⟨r, gs, hr, hgs, fun hall i h1 hlt hi => ?_, fun hall i h1 hlt hclear => ?_⟩
  · have hcount := hall i h1 hlt ((htest i hlt).2 hi)
    have hfree := (hmem i).1 (List.count_pos_iff.1 (by omega))
    rw [← htotal]
    exact hfree.2.1
  · refine List.count_eq_one_of_mem hnodup ((hmem i).2 ⟨h1, ?_, hclear⟩)
    rw [htotal]
    exact hall i h1 hlt ((htest i hlt).1 hclear)

/-- **Page 7 is never returned**: seven pages are left, of which it is the last. -/
theorem sevenPages_unreachable :
    ∃ r gs, initBitmap sevenPages (fun _ => 0) = some r ∧ Drains r.pmm gs ∧
      r.pmm.bitmapTest 7 = false ∧ 7 ∉ gs := by
  obtain ⟨gs, hgs⟩ := exists_drains (((initBitmap sevenPages fun _ => 0).get (by decide)).pmm)
  refine ⟨_, gs, rfl, hgs, by decide +kernel, fun hmem => ?_⟩
  have hlt := ((hgs.spec.2 7).1 hmem).2.1
  exact absurd hlt (by decide +kernel)

/-- Eight usable pages from page 0 on. -/
def eightPages : List MemmapEntry := [⟨0, 0x8000, .usable⟩]

/-- All pages are returned if page 0 is usable too, and not if it is not. -/
theorem allReturned_iff_eightPages :
    (∃ r gs, initBitmap eightPages (fun _ => 0) = some r ∧ Drains r.pmm gs ∧
        AllReturned eightPages r gs) ∧
      ∃ r gs, initBitmap sevenPages (fun _ => 0) = some r ∧ Drains r.pmm gs ∧
        ¬AllReturned sevenPages r gs := by
  have height : Aligned eightPages := aligned_singleton (by decide) (by decide) (by decide) (by decide)
  have hseven : Aligned sevenPages := aligned_singleton (by decide) (by decide) (by decide) (by decide)
  have hfirst : carvedEntry eightPages = some ⟨0, 0x8000, .usable⟩ := rfl
  have hfirst' : carvedEntry sevenPages = some ⟨0x1000, 0x7000, .usable⟩ := rfl
  constructor
  · obtain ⟨r, gs, hr, hgs, hiff⟩ := allReturned_iff height hfirst fun _ => 0
    obtain ⟨r', -, -, -, hr', -, -, htotal, -⟩ := height.initBitmap hfirst fun _ => 0
    obtain rfl := Option.mem_unique hr hr'
    refine ⟨r, gs, hr, hgs, hiff.2 fun i _ hlt _ => ?_⟩
    obtain rfl := Option.get_of_eq_some (by decide) hr
    rw [← htotal]
    exact lt_of_lt_of_le hlt (by decide +kernel)
  · obtain ⟨r, gs, hr, hgs, hiff⟩ := allReturned_iff hseven hfirst' fun _ => 0
    obtain ⟨r', -, -, -, hr', -, -, htotal, -, htest⟩ := hseven.initBitmap hfirst' fun _ => 0
    obtain rfl := Option.mem_unique hr hr'
    refine ⟨r, gs, hr, hgs, fun hall => ?_⟩
    obtain rfl := Option.get_of_eq_some (by decide) hr
    have hlt := hiff.1 hall 7 (by decide) (by decide) ((htest 7 (by decide)).1 (by decide +kernel))
    rw [← htotal] at hlt
    exact absurd hlt (by decide +kernel)

end Hvos.Memory
