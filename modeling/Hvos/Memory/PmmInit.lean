import Hvos.Memory.BootMap

/-!
# Memory/PmmInit — `pmm_init`

Four passes: the highest address of the types that count, the first usable entry that has room for
the bitmap, the clearing of the usable pages, and the reservation of the bitmap's own.  The bitmap
has a bit for every page below `total_pages`, so the frame map is right as soon as every usable page
lies below; `entry->base + entry->length` wraps only for an entry that ends with the address space
(`pmmInit_right_iff`).
-/

namespace Hvos.Memory

/-! ## The four passes -/

/-- The types whose end counts for `max_address`. -/
def MemmapType.Counts (t : MemmapType) : Prop :=
  t = .usable ∨ t = .framebuffer ∨ t = .bootloaderReclaimable ∨ t = .kernelAndModules

instance (t : MemmapType) : Decidable t.Counts :=
  inferInstanceAs (Decidable (t = .usable ∨ t = .framebuffer ∨ t = .bootloaderReclaimable ∨
    t = .kernelAndModules))

/-- One round of the first loop. -/
def raise (maxAddress : ℕ) (e : MemmapEntry) : ℕ :=
  if e.type.Counts then
    let endAddr := (e.base + e.length) % 2 ^ 64
    if endAddr > maxAddress then endAddr else maxAddress
  else maxAddress

/-- `total_pages`. -/
def pageTotal (memmap : List MemmapEntry) : ℕ := memmap.foldl raise 0 / 4096

/-- `bitmap_size`: a bit a page, rounded up to whole pages. -/
def bitmapBytes (memmap : List MemmapEntry) : ℕ :=
  ((pageTotal memmap + 7) / 8 + 4095) / 4096 * 4096

/-- The entry the second loop stops at. -/
def bitmapEntry (memmap : List MemmapEntry) : Option MemmapEntry :=
  memmap.find? fun e => e.type = .usable ∧ bitmapBytes memmap ≤ e.length

/-- The bitmap after the `memset`, over the bytes `ram` that lie where it goes and behind. -/
def startMap (memmap : List MemmapEntry) (ram : ℕ → BitVec 8) : Pmm :=
  { (Clearing.marked (bitmapBytes memmap) ram).pmm with totalPages := pageTotal memmap }

/-- The pages reserved for a bitmap at `storage`. -/
def bitmapPages (memmap : List MemmapEntry) (storage : ℕ) : List ℕ :=
  (List.range (bitmapBytes memmap / 4096)).map fun p => (storage / 4096 + p) % 2 ^ 64

/-- `pmm_init`: the allocator, the bytes of the bitmap that were accessed, and its place.  It halts
if `bitmap_phys_addr` is 0. -/
def pmmInit (memmap : List MemmapEntry) (ram : ℕ → BitVec 8) : Option BootMap :=
  let storage := ((bitmapEntry memmap).map MemmapEntry.base).getD 0
  if storage = 0 then none
  else
    let freed := memmap.foldl (fun p e => e.pages.foldl Pmm.bitmapClear p) (startMap memmap ram)
    let done := (bitmapPages memmap storage).foldl Pmm.bitmapSet freed
    let bits := memmap.flatMap MemmapEntry.pages ++ bitmapPages memmap storage
    some ⟨done, List.range (bitmapBytes memmap) ++ bits.map (· / 8), storage⟩

variable {memmap : List MemmapEntry} {e : MemmapEntry} {ram : ℕ → BitVec 8} {r : BootMap}

/-! ## The highest address -/

theorem le_raise (m : ℕ) (e : MemmapEntry) : m ≤ raise m e := by
  unfold raise
  split_ifs
  · dsimp only
    split_ifs <;> omega
  · exact le_rfl

theorem le_foldl_raise (es : List MemmapEntry) (m : ℕ) : m ≤ es.foldl raise m := by
  induction es generalizing m with
  | nil => exact le_rfl
  | cons e es ih => exact (le_raise m e).trans (ih _)

/-- **The end of a usable entry is counted.** -/
theorem end_le_foldl_raise {es : List MemmapEntry} (he : e ∈ es) (husable : e.type = .usable)
    (m : ℕ) : (e.base + e.length) % 2 ^ 64 ≤ es.foldl raise m := by
  induction es generalizing m with
  | nil => cases he
  | cons f es ih =>
    rcases List.mem_cons.1 he with rfl | he
    · refine le_trans ?_ (le_foldl_raise es _)
      unfold raise
      rw [if_pos (.inl husable)]
      dsimp only
      split_ifs <;> omega
    · exact ih he _

/-- Every page that counts has its bit. -/
theorem pageTotal_le (memmap : List MemmapEntry) : pageTotal memmap ≤ 8 * bitmapBytes memmap := by
  unfold bitmapBytes
  omega

/-! ## The frame map -/

/-- **The usable entries are whole pages** of a 64-bit physical memory. -/
structure UsableAligned (memmap : List MemmapEntry) : Prop where
  base : ∀ e ∈ memmap, e.type = .usable → e.base % 4096 = 0
  length : ∀ e ∈ memmap, e.type = .usable → e.length % 4096 = 0
  fits : ∀ e ∈ memmap, e.type = .usable → e.base < 2 ^ 64 ∧ e.base + e.length ≤ 2 ^ 64

/-- Page `i` holds a part of the bitmap. -/
def HoldsBitmap (memmap : List MemmapEntry) (r : BootMap) (i : ℕ) : Prop :=
  r.storage ≤ 4096 * i ∧ 4096 * i < r.storage + bitmapBytes memmap

/-- Page `i` is to be handed out. -/
def Offered (memmap : List MemmapEntry) (r : BootMap) (i : ℕ) : Prop :=
  UsablePage memmap i ∧ ¬HoldsBitmap memmap r i

/-- **What `pmm_init` is for**: it writes only the bitmap, a page below `total_pages` is clear
exactly if it is usable and holds nothing of the bitmap, and these pages, page 0 apart, are what
`pmm_alloc` returns, once each. -/
structure InitRight (memmap : List MemmapEntry) (r : BootMap) : Prop where
  inside : ∀ k ∈ r.touched, k < bitmapBytes memmap
  tested : r.pmm.totalPages ≤ 8 * bitmapBytes memmap
  clear : ∀ i < r.pmm.totalPages, r.pmm.bitmapTest i = false ↔ Offered memmap r i
  drains : ∃ gs, Drains r.pmm gs ∧ gs.Nodup ∧
    ∀ i, i ∈ gs ↔ 1 ≤ i ∧ i < r.pmm.totalPages ∧ Offered memmap r i

theorem UsableAligned.mem_pages (h : UsableAligned memmap) (he : e ∈ memmap)
    (husable : e.type = .usable) {i : ℕ} : i ∈ e.pages ↔ e.Has (4096 * i) := by
  obtain ⟨hlt, hfits⟩ := h.fits e he husable
  rw [Memory.mem_pages (h.base e he husable) (h.length e he husable) hlt hfits]
  exact and_iff_right husable

/-- The pages cleared are the usable ones. -/
theorem UsableAligned.usablePage_iff (h : UsableAligned memmap) {i : ℕ} :
    UsablePage memmap i ↔ i ∈ memmap.flatMap MemmapEntry.pages := by
  rw [List.mem_flatMap]
  refine exists_congr fun e => and_congr_right fun he => ?_
  by_cases husable : e.type = .usable
  · rw [h.mem_pages he husable, has_page_iff (h.base e he husable) (h.length e he husable)]
    exact and_iff_right husable
  · simp [MemmapEntry.pages, husable]

/-- **Which pages have no bit**: those of an entry that ends with the address space, unless the
bitmap is as large as it can be. -/
theorem UsableAligned.usablePage_lt_iff (h : UsableAligned memmap) :
    (∀ i, UsablePage memmap i → i < 8 * bitmapBytes memmap) ↔
      ∀ e ∈ memmap, e.type = .usable → 0 < e.length → e.base + e.length = 2 ^ 64 →
        2 ^ 52 ≤ 8 * bitmapBytes memmap := by
  constructor
  · intro hall e he husable hpos hend
    have hlast := hall (2 ^ 52 - 1) ⟨e, he, husable, ?_⟩
    · omega
    · have hbase := h.base e he husable
      have hlength := h.length e he husable
      rw [has_page_iff hbase hlength]
      exact ⟨by omega, by omega⟩
  · rintro hall i ⟨e, he, husable, hhas⟩
    obtain ⟨hle, hlt⟩ := hhas (4096 * i) (by omega)
    have hbase := h.base e he husable
    have hlength := h.length e he husable
    obtain ⟨-, hfits⟩ := h.fits e he husable
    rcases Nat.lt_or_eq_of_le hfits with hend | hend
    · have hmax := end_le_foldl_raise he husable 0
      have htotal := pageTotal_le memmap
      rw [Nat.mod_eq_of_lt hend] at hmax
      unfold pageTotal at htotal
      omega
    · have hbits := hall e he husable (by omega) hend
      omega

/-- **What `pmm_init` computes.** -/
theorem pmmInit_spec (h : pmmInit memmap ram = some r) :
    (∃ e, bitmapEntry memmap = some e ∧ r.storage = e.base ∧ e.base ≠ 0) ∧
      r.pmm.totalPages = pageTotal memmap ∧
      (∀ k, k ∈ r.touched ↔ k < bitmapBytes memmap ∨
        ∃ i, (i ∈ memmap.flatMap MemmapEntry.pages ∨ i ∈ bitmapPages memmap r.storage) ∧
          i / 8 = k) ∧
      ∀ i < 8 * bitmapBytes memmap, r.pmm.bitmapTest i = false ↔
        i ∈ memmap.flatMap MemmapEntry.pages ∧ i ∉ bitmapPages memmap r.storage := by
  unfold pmmInit at h
  simp only [← List.foldl_flatMap] at h
  split_ifs at h with hzero
  cases h
  obtain ⟨htotal, htest⟩ := Pmm.foldl_bitmapClear (memmap.flatMap MemmapEntry.pages)
    (startMap memmap ram)
  obtain ⟨htotal', htest'⟩ := Pmm.foldl_bitmapSet
    (bitmapPages memmap (((bitmapEntry memmap).map MemmapEntry.base).getD 0))
    ((memmap.flatMap MemmapEntry.pages).foldl Pmm.bitmapClear (startMap memmap ram))
  refine ⟨?_, htotal'.trans htotal, fun k => ?_, fun i hi => ?_⟩
  · cases hentry : bitmapEntry memmap with
    | none => exact absurd (by rw [hentry]; rfl) hzero
    | some e => exact ⟨e, rfl, rfl, by simpa [hentry] using hzero⟩
  · simp only [List.mem_append, List.mem_range, List.mem_map]
  · have hmarked : (startMap memmap ram).bitmapTest i = true := marked_bitmapTest hi
    rw [htest', htest, hmarked]
    simp

/-- The pages reserved are those of the bitmap, and usable. -/
theorem UsableAligned.mem_bitmapPages (h : UsableAligned memmap) (hentry : bitmapEntry memmap = some e)
    (hr : r.storage = e.base) {i : ℕ} :
    (i ∈ bitmapPages memmap r.storage ↔ HoldsBitmap memmap r i) ∧
      (HoldsBitmap memmap r i → UsablePage memmap i) := by
  have he := List.mem_of_find?_eq_some hentry
  obtain ⟨husable, hsize⟩ : e.type = .usable ∧ bitmapBytes memmap ≤ e.length := by
    simpa using List.find?_some hentry
  have hbase := h.base e he husable
  have hlength := h.length e he husable
  obtain ⟨hlt, hfits⟩ := h.fits e he husable
  have hbytes : bitmapBytes memmap % 4096 = 0 := Nat.mul_mod_left ..
  unfold bitmapPages HoldsBitmap
  rw [hr, List.mem_map]
  refine ⟨⟨?_, ?_⟩, fun ⟨hle, hlt⟩ => ⟨e, he, husable, ?_⟩⟩
  · rintro ⟨p, hp, rfl⟩
    rw [List.mem_range] at hp
    omega
  · rintro ⟨hle, hlt⟩
    exact ⟨i - e.base / 4096, List.mem_range.2 (by omega), by omega⟩
  · rw [has_page_iff hbase hlength]
    exact ⟨hle, by omega⟩

/-- **When `pmm_init` builds a complete and safe frame map**: no usable entry ends with the address
space, where its end is computed as 0, unless the bitmap covers all of it. -/
theorem pmmInit_right_iff (h : UsableAligned memmap)
    (hfirst : ∃ e, bitmapEntry memmap = some e ∧ e.base ≠ 0) (ram : ℕ → BitVec 8) :
    ∃ r, pmmInit memmap ram = some r ∧
      (InitRight memmap r ↔ ∀ e ∈ memmap, e.type = .usable → 0 < e.length →
        e.base + e.length = 2 ^ 64 → 2 ^ 52 ≤ 8 * bitmapBytes memmap) := by
  obtain ⟨e, hentry, hne⟩ := hfirst
  obtain ⟨r, hr⟩ : ∃ r, pmmInit memmap ram = some r := by
    simp [pmmInit, hentry, hne]
  refine ⟨r, hr, ?_⟩
  obtain ⟨⟨e', hentry', hstorage, -⟩, htotal, htouched, htest⟩ := pmmInit_spec hr
  rw [← h.usablePage_lt_iff]
  have hheld := fun i => h.mem_bitmapPages (i := i) hentry' hstorage
  constructor
  · intro hright i hi
    have hbyte := hright.inside (i / 8) ((htouched _).2 (.inr ⟨i, .inl (h.usablePage_iff.1 hi), rfl⟩))
    omega
  · intro hall
    have hbelow := htotal.trans_le (pageTotal_le memmap)
    have hclear : ∀ i < r.pmm.totalPages, r.pmm.bitmapTest i = false ↔ Offered memmap r i := by
      intro i hi
      rw [htest i (by omega), ← h.usablePage_iff, (hheld i).1, Offered]
    refine ⟨fun k hk => ?_, hbelow, hclear, ?_⟩
    · rcases (htouched k).1 hk with hk | ⟨i, hi, rfl⟩
      · exact hk
      · have husable : UsablePage memmap i :=
          hi.elim h.usablePage_iff.2 fun hi => (hheld i).2 ((hheld i).1.1 hi)
        have hlt := hall i husable
        omega
    · obtain ⟨gs, hgs⟩ := exists_drains r.pmm
      refine ⟨gs, hgs, hgs.spec.1, fun i => ?_⟩
      rw [hgs.spec.2 i, Pmm.Free]
      exact and_congr_right fun _ => and_congr_right fun hi => hclear i hi

/-- Eight pages behind page 0. -/
def lowPages : List MemmapEntry := [⟨0x1000, 0x8000, .usable⟩]

/-- The same, and the last page of the address space. -/
def lowAndLastPage : List MemmapEntry := lowPages ++ [⟨2 ^ 64 - 4096, 4096, .usable⟩]

theorem lowAndLastPage_aligned : UsableAligned lowAndLastPage where
  base := by decide
  length := by decide
  fits := by decide

/-- **The last page's bit is looked for outside**: the bitmap has 4096 bytes, and byte `2^49 - 1` of
it is written. -/
theorem lowAndLastPage_outside :
    ∃ r, pmmInit lowAndLastPage (fun _ => 0) = some r ∧ bitmapBytes lowAndLastPage = 4096 ∧
      2 ^ 49 - 1 ∈ r.touched ∧ ¬InitRight lowAndLastPage r := by
  have hbytes : bitmapBytes lowAndLastPage = 4096 := by decide
  have hentry : bitmapEntry lowAndLastPage = some ⟨0x1000, 0x8000, .usable⟩ := rfl
  obtain ⟨r, hr⟩ : ∃ r, pmmInit lowAndLastPage (fun _ => 0) = some r := by simp [pmmInit, hentry]
  have hbyte : 2 ^ 49 - 1 ∈ r.touched := by
    refine ((pmmInit_spec hr).2.2.1 _).2 (.inr ⟨2 ^ 52 - 1, .inl ?_, by decide⟩)
    rw [← lowAndLastPage_aligned.usablePage_iff]
    exact ⟨_, List.mem_append_right _ (List.mem_singleton_self _), rfl,
      (has_page_iff (by decide) (by decide)).2 ⟨by decide, by decide⟩⟩
  refine ⟨r, hr, hbytes, hbyte, fun hright => ?_⟩
  have hlt := hright.inside _ hbyte
  rw [hbytes] at hlt
  omega

/-- The eight pages alone come out right. -/
theorem pmmInit_right_iff_lowPages :
    ∃ r, pmmInit lowPages (fun _ => 0) = some r ∧ InitRight lowPages r := by
  obtain ⟨r, hr, hiff⟩ := pmmInit_right_iff
    (show UsableAligned lowPages from ⟨by decide, by decide, by decide⟩)
    ⟨⟨0x1000, 0x8000, .usable⟩, rfl, by decide⟩ fun _ => 0
  refine ⟨r, hr, hiff.2 fun e he _ _ hend => ?_⟩
  obtain rfl := List.mem_singleton.1 he
  cases hend

end Hvos.Memory
