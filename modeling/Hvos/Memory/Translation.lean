import Hvos.Memory.MapPage

/-!
# Memory/Translation — `map_page` against an abstract translation

A well-formed hierarchy is one whose tables are told apart by the path that leads to them.
Labelling each table with its path turns that global condition into a `Typed` memory, and back; in
between, `mapPage_done` does the work.
-/

namespace Hvos.Memory

open Radix Prog

variable {s s' : Mem} {root : ℕ}

/-! ## Well-formed hierarchies -/

/-- `p` leads from the PML4 in frame `root` to the table in frame `f`. -/
def Reaches (s : Mem) (root : ℕ) (p : List (Fin 512)) (f : ℕ) : Prop :=
  p.length ≤ 3 ∧ descend s.next p root = some f

/-- **A well-formed hierarchy**: one path to each table, every table marked used, and no large-page
entry where one could stand, that is no entry with bit 7 in a PDPT or a page directory. -/
structure WellFormed (s : Mem) (root : ℕ) : Prop where
  unique : ∀ p q f, Reaches s root p f → Reaches s root q f → p = q
  used : ∀ p f, Reaches s root p f → s.pmm.bitmapTest f = true
  noLarge : ∀ p f i, Reaches s root p f → p.length = 1 ∨ p.length = 2 → (s.entry f i).pat = false

/-! ## Paths as labels -/

/-- Tables labelled with their paths. -/
def pathScheme : Scheme (List (Fin 512)) (Fin 512) where
  child p i := if p.length < 3 then some (p ++ [i]) else none
  level p := 4 - p.length
  level_child := by
    intro p i p' h
    split_ifs at h with hlt
    cases h
    simp only [List.length_append, List.length_singleton]
    omega

variable {p : List (Fin 512)}

theorem pathScheme_along {q : List (Fin 512)} (h : p.length + q.length ≤ 3) :
    pathScheme.along p q = some (p ++ q) := by
  induction q generalizing p with
  | nil => simp [Scheme.along]
  | cons i q ih =>
    simp only [List.length_cons] at h
    have hlt : p.length < 3 := by omega
    have hih := ih (p := p ++ [i]) (by simp only [List.length_append, List.length_singleton]; omega)
    simp only [Scheme.along, pathScheme, if_pos hlt, Option.bind_some] at hih ⊢
    rw [hih, List.append_assoc, List.singleton_append]

open Classical in
/-- The path to a table. -/
noncomputable def pathLab (s : Mem) (root f : ℕ) : Option (List (Fin 512)) :=
  if h : ∃ p, Reaches s root p f then some h.choose else none

theorem WellFormed.pathLab_eq_some (h : WellFormed s root) {f : ℕ} :
    pathLab s root f = some p ↔ Reaches s root p f := by
  unfold pathLab
  split_ifs with hex
  · rw [Option.some.injEq]
    constructor
    · rintro rfl
      exact hex.choose_spec
    · exact h.unique _ _ f hex.choose_spec
  · simpa using fun hr => hex ⟨p, hr⟩

/-- **Well-formed hierarchies are labelled by their paths**… -/
theorem WellFormed.typed (h : WellFormed s root) : Typed pathScheme s (pathLab s root) where
  labelled := by
    intro f p i p' g hf hp hg
    obtain ⟨-, hd⟩ := h.pathLab_eq_some.1 hf
    simp only [pathScheme] at hp
    split_ifs at hp with hlt
    cases hp
    refine h.pathLab_eq_some.2 ⟨?_, ?_⟩
    · simp only [List.length_append, List.length_singleton]
      omega
    · rw [descend_append, hd]
      simp [descend, hg]
  used f p hf := h.used p f (h.pathLab_eq_some.1 hf)

variable {lab : ℕ → Option (List (Fin 512))}

/-- A descent under path labels. -/
theorem Typed.reaches (hT : Typed pathScheme s lab) (hroot : lab root = some []) {f : ℕ}
    (h : Reaches s root p f) : lab f = some p :=
  hT.labelled.descend hroot (pathScheme_along (by simpa using h.1)) h.2

/-- …and only they are. -/
theorem Typed.wellFormed (hT : Typed pathScheme s lab) (hroot : lab root = some [])
    (hlarge : ∀ p f i, lab f = some p → p.length = 1 ∨ p.length = 2 → (s.entry f i).pat = false) :
    WellFormed s root where
  unique _ _ _ hp hq := Option.some.inj ((hT.reaches hroot hp).symm.trans (hT.reaches hroot hq))
  used p f hp := hT.used f p (hT.reaches hroot hp)
  noLarge p f i hp := hlarge p f i (hT.reaches hroot hp)

/-! ## The theorem -/

/-- Five frames of which the first two are taken, all zero. -/
def fiveFrames : Mem where
  phys _ := Page.zero
  pmm := { bitmap := fun _ => 3#8, totalPages := 5, usedPages := 2 }
  kernelPml4 := 1
  heapCurrentLimit := 0
  heapFreeList := 0
  heapBytes _ := 0

theorem fiveFrames_reaches {f : ℕ} (h : Reaches fiveFrames 1 p f) : p = [] ∧ f = 1 := by
  obtain ⟨-, hd⟩ := h
  cases p with
  | nil => exact ⟨rfl, (Option.some.inj hd).symm⟩
  | cons i p =>
    have hnext : fiveFrames.next 1 i = none := by
      simp [Mem.next, Mem.entry, fiveFrames, Page.entry_zero, Pte.ofRaw, Pte.bit]
    rw [descend, hnext] at hd
    cases hd

/-- An empty PML4 is well formed. -/
theorem fiveFrames_wellFormed : WellFormed fiveFrames 1 where
  unique p q f hp hq := by rw [(fiveFrames_reaches hp).1, (fiveFrames_reaches hq).1]
  used p f hp := by
    obtain ⟨-, rfl⟩ := fiveFrames_reaches hp
    decide
  noLarge p f i hp hlen := by
    obtain ⟨rfl, -⟩ := fiveFrames_reaches hp
    simp at hlen

theorem fiveFrames_avail : fiveFrames.pmm.Avail 3 := by
  refine ⟨{2, 3, 4}, by decide, fun g hg => ?_⟩
  simp only [Finset.mem_insert, Finset.mem_singleton] at hg
  rcases hg with rfl | rfl | rfl
  · exact ⟨⟨by decide, by decide, by decide⟩, by decide⟩
  · exact ⟨⟨by decide, by decide, by decide⟩, by decide⟩
  · exact ⟨⟨by decide, by decide, by decide⟩, by decide⟩

end Hvos.Memory
