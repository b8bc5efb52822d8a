import Hvos.Memory.Pmm
import Hvos.Lib.Prog
import Hvos.Lib.Radix

/-!
# Memory/Paging — page-table entries in physical memory, and `map_page`

Physical memory is an array of 4096-byte frames; a page table is a frame read as 512 little-endian
words, and a word is read as a `page_table_entry_t` through its bit fields.  The direct map makes
`PHYS_TO_VIRT` the identity on frames, so a table pointer is a frame number.
-/

namespace Hvos.Memory

open Function

instance entries_neZero : NeZero 512 := ⟨by decide⟩

instance frameBytes_neZero : NeZero 4096 := ⟨by decide⟩

/-! ## `page_table_entry_t` -/

/-- The bit fields of `page_table_entry_t`. -/
structure Pte where
  present : Bool
  rw : Bool
  us : Bool
  pwt : Bool
  pcd : Bool
  accessed : Bool
  dirty : Bool
  pat : Bool
  global : Bool
  avlLow : Fin (2 ^ 3)
  address : Fin (2 ^ 40)
  avlHigh : Fin (2 ^ 11)
  nx : Bool
  deriving DecidableEq

namespace Pte

/-- Bit `k` of a word. -/
def bit (w k : ℕ) : Bool := w / 2 ^ k % 2 = 1

/-- The fields of the raw word. -/
def ofRaw (w : ℕ) : Pte where
  present := bit w 0
  rw := bit w 1
  us := bit w 2
  pwt := bit w 3
  pcd := bit w 4
  accessed := bit w 5
  dirty := bit w 6
  pat := bit w 7
  global := bit w 8
  avlLow := Fin.ofNat _ (w / 2 ^ 9)
  address := Fin.ofNat _ (w / 2 ^ 12)
  avlHigh := Fin.ofNat _ (w / 2 ^ 52)
  nx := bit w 63

/-- `_raw`. -/
def toRaw (e : Pte) : ℕ :=
  e.present.toNat + 2 * e.rw.toNat + 2 ^ 2 * e.us.toNat + 2 ^ 3 * e.pwt.toNat +
    2 ^ 4 * e.pcd.toNat + 2 ^ 5 * e.accessed.toNat + 2 ^ 6 * e.dirty.toNat + 2 ^ 7 * e.pat.toNat +
    2 ^ 8 * e.global.toNat + 2 ^ 9 * e.avlLow.val + 2 ^ 12 * e.address.val +
    2 ^ 52 * e.avlHigh.val + 2 ^ 63 * e.nx.toNat

theorem toRaw_lt (e : Pte) : e.toRaw < 2 ^ 64 := by
  obtain ⟨b0, b1, b2, b3, b4, b5, b6, b7, b8, l, a, h, n⟩ := e
  have := Bool.toNat_le b0
  have := Bool.toNat_le b1
  have := Bool.toNat_le b2
  have := Bool.toNat_le b3
  have := Bool.toNat_le b4
  have := Bool.toNat_le b5
  have := Bool.toNat_le b6
  have := Bool.toNat_le b7
  have := Bool.toNat_le b8
  have := Bool.toNat_le n
  simp only [toRaw]
  omega

/-- **The fields are independent**: what is written to them is read back. -/
theorem ofRaw_toRaw (e : Pte) : ofRaw e.toRaw = e := by
  obtain ⟨b0, b1, b2, b3, b4, b5, b6, b7, b8, l, a, h, n⟩ := e
  have h0 := Bool.toNat_le b0
  have h1 := Bool.toNat_le b1
  have h2 := Bool.toNat_le b2
  have h3 := Bool.toNat_le b3
  have h4 := Bool.toNat_le b4
  have h5 := Bool.toNat_le b5
  have h6 := Bool.toNat_le b6
  have h7 := Bool.toNat_le b7
  have h8 := Bool.toNat_le b8
  have hn := Bool.toNat_le n
  have hbit : ∀ (b : Bool) (m : ℕ), m = b.toNat → decide (m = 1) = b := by
    intro b m hm
    subst hm
    cases b <;> rfl
  simp only [ofRaw, bit, toRaw, Pte.mk.injEq, Fin.ext_iff, Fin.ofNat]
  refine ⟨hbit _ _ ?_, hbit _ _ ?_, hbit _ _ ?_, hbit _ _ ?_, hbit _ _ ?_, hbit _ _ ?_, hbit _ _ ?_,
    hbit _ _ ?_, hbit _ _ ?_, ?_, ?_, ?_, hbit _ _ ?_⟩
  all_goals omega

end Pte

/-! ## Frames -/

/-- The bytes of a frame. -/
abbrev Page := Fin 4096 → UInt8

namespace Page

/-- A zeroed page. -/
def zero : Page := fun _ => 0

/-- Byte `k` of word `i`. -/
def byteIn (i : Fin 512) (k : Fin 8) : Fin 4096 := ⟨8 * i.val + k.val, by omega⟩

/-- The little-endian word `i`. -/
def word (pg : Page) (i : Fin 512) : ℕ :=
  (pg (byteIn i 0)).toNat + 2 ^ 8 * (pg (byteIn i 1)).toNat + 2 ^ 16 * (pg (byteIn i 2)).toNat +
    2 ^ 24 * (pg (byteIn i 3)).toNat + 2 ^ 32 * (pg (byteIn i 4)).toNat +
    2 ^ 40 * (pg (byteIn i 5)).toNat + 2 ^ 48 * (pg (byteIn i 6)).toNat +
    2 ^ 56 * (pg (byteIn i 7)).toNat

/-- Write the little-endian word `i`. -/
def setWord (pg : Page) (i : Fin 512) (w : ℕ) : Page := fun o =>
  if o.val / 8 = i.val then UInt8.ofNat (w / 2 ^ (8 * (o.val % 8))) else pg o

theorem setWord_byteIn (pg : Page) (i j : Fin 512) (w : ℕ) (k : Fin 8) :
    pg.setWord i w (byteIn j k) =
      if j = i then UInt8.ofNat (w / 2 ^ (8 * k.val)) else pg (byteIn j k) := by
  have hdiv : (8 * j.val + k.val) / 8 = j.val := by omega
  have hmod : (8 * j.val + k.val) % 8 = k.val := by omega
  simp only [setWord, byteIn, hdiv, hmod, Fin.ext_iff]

theorem word_setWord_self (pg : Page) (i : Fin 512) {w : ℕ} (hw : w < 2 ^ 64) :
    (pg.setWord i w).word i = w := by
  simp only [word, setWord_byteIn, if_true, UInt8.toNat_ofNat', Fin.coe_ofNat_eq_mod,
    Nat.reduceMod, Nat.reduceMul, Nat.reducePow]
  omega

theorem word_setWord_of_ne (pg : Page) {i j : Fin 512} (w : ℕ) (h : j ≠ i) :
    (pg.setWord i w).word j = pg.word j := by
  simp only [word, setWord_byteIn, if_neg h]

/-- Entry `i` of a page table. -/
def entry (pg : Page) (i : Fin 512) : Pte := .ofRaw (pg.word i)

/-- Write entry `i` of a page table. -/
def setEntry (pg : Page) (i : Fin 512) (e : Pte) : Page := pg.setWord i e.toRaw

@[simp] theorem entry_setEntry_self (pg : Page) (i : Fin 512) (e : Pte) :
    (pg.setEntry i e).entry i = e := by
  rw [entry, setEntry, word_setWord_self pg i e.toRaw_lt, Pte.ofRaw_toRaw]

theorem entry_setEntry_of_ne (pg : Page) {i j : Fin 512} (e : Pte) (h : j ≠ i) :
    (pg.setEntry i e).entry j = pg.entry j := by
  rw [entry, setEntry, word_setWord_of_ne pg _ h, entry]

/-- A zeroed table has no entries. -/
theorem entry_zero (i : Fin 512) : zero.entry i = .ofRaw 0 := by
  simp [entry, word, zero]

end Page

/-! ## Memory -/

/-- The globals of the memory subsystem: physical memory, the frame allocator, the kernel's own
tables, and the kernel heap.  `heapBytes` holds the heap by virtual address; its frames are never
reached through `phys` by the code modelled here. -/
structure Mem where
  phys : ℕ → Page
  pmm : Pmm
  kernelPml4 : ℕ
  heapCurrentLimit : ℕ
  heapFreeList : ℕ
  heapBytes : ℕ → UInt8

namespace Mem

/-- Entry `i` of the table in frame `f`. -/
def entry (s : Mem) (f : ℕ) (i : Fin 512) : Pte := (s.phys f).entry i

/-- Replace a frame. -/
def setFrame (s : Mem) (f : ℕ) (pg : Page) : Mem := { s with phys := update s.phys f pg }

/-- Write entry `i` of the table in frame `f`. -/
def setEntry (s : Mem) (f : ℕ) (i : Fin 512) (e : Pte) : Mem :=
  s.setFrame f ((s.phys f).setEntry i e)

section Lemmas

variable (s : Mem) {f g : ℕ} {i j : Fin 512} (e : Pte) (pg : Page)

@[simp] theorem setFrame_phys_self : (s.setFrame f pg).phys f = pg := update_self ..

theorem setFrame_phys_of_ne (h : g ≠ f) : (s.setFrame f pg).phys g = s.phys g :=
  update_of_ne h ..

@[simp] theorem setFrame_pmm : (s.setFrame f pg).pmm = s.pmm := rfl

@[simp] theorem setEntry_pmm : (s.setEntry f i e).pmm = s.pmm := rfl

@[simp] theorem entry_setEntry_self : (s.setEntry f i e).entry f i = e := by
  simp [setEntry, entry]

theorem entry_setEntry_of_ne (h : ¬(g = f ∧ j = i)) :
    (s.setEntry f i e).entry g j = s.entry g j := by
  rcases eq_or_ne g f with rfl | hg
  · rw [entry, setEntry, setFrame_phys_self, Page.entry_setEntry_of_ne _ _ fun hj => h ⟨rfl, hj⟩]
    rfl
  · rw [entry, setEntry, setFrame_phys_of_ne s _ hg, entry]

theorem setEntry_phys_of_ne (h : g ≠ f) : (s.setEntry f i e).phys g = s.phys g :=
  setFrame_phys_of_ne s _ h

end Lemmas

end Mem

/-! ## Virtual addresses -/

/-- `pml4_index`. -/
def pml4Index (v : ℕ) : Fin 512 := Fin.ofNat _ (v / 2 ^ 39)

/-- `pdpt_index`. -/
def pdptIndex (v : ℕ) : Fin 512 := Fin.ofNat _ (v / 2 ^ 30)

/-- `pd_index`. -/
def pdIndex (v : ℕ) : Fin 512 := Fin.ofNat _ (v / 2 ^ 21)

/-- `pt_index`. -/
def ptIndex (v : ℕ) : Fin 512 := Fin.ofNat _ (v / 2 ^ 12)

/-- The 48-bit page number. -/
def pageNumber (v : ℕ) : ℕ := v / 2 ^ 12 % 2 ^ 36

/-- The tables a walk of `v` goes through, by the entry taken in each of the first three. -/
def upperPath (v : ℕ) : List (Fin 512) := [pml4Index v, pdptIndex v, pdIndex v]

/-- **The four indices are the page number.** -/
theorem path_inj {v v' : ℕ} :
    upperPath v = upperPath v' ∧ ptIndex v = ptIndex v' ↔ pageNumber v = pageNumber v' := by
  simp only [upperPath, List.cons.injEq, and_true, pml4Index, pdptIndex, pdIndex, ptIndex,
    pageNumber, Fin.ext_iff, Fin.ofNat]
  omega

namespace Mem

/-- The table an inner entry leads to. -/
def next (s : Mem) (f : ℕ) (i : Fin 512) : Option ℕ :=
  if (s.entry f i).present then some (s.entry f i).address.val else none

/-- A last-level entry. -/
def leaf (s : Mem) (f : ℕ) (i : Fin 512) : Option Pte :=
  if (s.entry f i).present then some (s.entry f i) else none

/-- **The four-level walk** of `v` from the table in frame `root`. -/
def walk (s : Mem) (root v : ℕ) : Option Pte :=
  Radix.find s.next s.leaf (upperPath v ++ [ptIndex v]) root

end Mem

/-! ## `map_page` -/

/-- `pmm_alloc`, on the machine. -/
def pmmAlloc : Prog Mem (Option ℕ) := fun s =>
  match s.pmm.pmmAlloc with
  | none => .done none s
  | some (g, pmm) => .done (some g) { s with pmm := pmm }

theorem ensures_pmmAlloc {s : Mem} {Q : Option ℕ → Mem → Prop} {H : Mem → Prop}
    (hnone : s.pmm.pmmAlloc = none → Q none s)
    (hsome : ∀ g pmm, s.pmm.pmmAlloc = some (g, pmm) → Q (some g) { s with pmm := pmm }) :
    Prog.Ensures pmmAlloc s Q H := by
  unfold Prog.Ensures pmmAlloc
  cases ha : s.pmm.pmmAlloc with
  | none => exact hnone ha
  | some r => exact hsome r.1 r.2 ha

/-- `alloc_page_table`. -/
def allocPageTable : Prog Mem (Option ℕ) := do
  match ← pmmAlloc with
  | none => pure none
  | some g =>
    Prog.modify fun s => s.setFrame g Page.zero
    pure (some g)

/-- `PTE_USER`. -/
def pteUser (flags : ℕ) : Bool := flags / 2 ^ 2 % 2 = 1

/-- The four assignments `map_page` makes to an entry: `present`, `rw`, `us` and `address`. -/
def Pte.point (e : Pte) (user : Bool) (frame : ℕ) : Pte :=
  { e with present := true, rw := true, us := user, address := Fin.ofNat _ frame }

@[simp] theorem Pte.point_present (e : Pte) (user : Bool) (frame : ℕ) :
    (e.point user frame).present = true := rfl

theorem Pte.point_address {e : Pte} {user : Bool} {frame : ℕ} (h : frame < 2 ^ 40) :
    (e.point user frame).address.val = frame := Nat.mod_eq_of_lt h

/-- One of the first three levels of `map_page`: make the table if the entry is absent, and go on to
it. -/
def nextTable (f : ℕ) (i : Fin 512) (user : Bool) : Prog Mem ℕ := do
  let e ← Prog.read fun s => s.entry f i
  if e.present then pure ()
  else
    match ← allocPageTable with
    | none => Prog.halt
    | some g => Prog.modify fun s => s.setEntry f i ((s.entry f i).point user g)
  Prog.read fun s => (s.entry f i).address.val

/-- `map_page`. -/
def mapPage (pml4 v paddr flags : ℕ) : Prog Mem Unit := do
  let pdpt ← nextTable pml4 (pml4Index v) (pteUser flags)
  let pd ← nextTable pdpt (pdptIndex v) (pteUser flags)
  let pt ← nextTable pd (pdIndex v) (pteUser flags)
  Prog.modify fun s =>
    s.setEntry pt (ptIndex v) ((s.entry pt (ptIndex v)).point (pteUser flags) (paddr / 4096))

end Hvos.Memory
