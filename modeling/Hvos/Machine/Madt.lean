import Hvos.Lib.Bytes
import Hvos.Lib.Prog
import Mathlib.Data.Set.Card
import Mathlib.Order.Interval.Finset.Nat

/-!
# Machine/Madt — two walks over the table of interrupt controllers

`acpi_parse_apic` and `acpi_remap_irq` walk the records of the MADT by the lengths the records give
themselves.  Neither looks whether a record fits into the table, only one of them stops at a length
of zero, and nothing counts the processors.  `walksSafe_iff` says which tables they walk safely.
-/

namespace Hvos.Machine

open Prog Bytes

/-! ## The table and what a walk does -/

/-- The bytes of a table, from its start. -/
abbrev Madt := ℕ → UInt8

/-- What `acpi_parse_apic` prints. -/
inductive Note
  | core (acpiProcessorId apicId : UInt8)
  | ioApic (ioApicId : UInt8) (ioApicAddress globalSystemInterruptBase : ℕ)
  | interruptOverride (source bus : UInt8)
  | malformed

/-- Where a walk is, and everything it has done: the offsets it has read, the stores to
`g_acpi_cpu_ids` by index, the pages it has asked `map_page` for, and what it has printed. -/
structure Walk where
  currentEntry : ℕ
  reads : List ℕ
  cpuCount : UInt32
  cpuIds : List (ℕ × UInt8)
  mapped : List ℕ
  localApicAddress : ℕ
  ioApicAddr : ℕ
  notes : List Note

/-- Before a walk, with `g_acpi_cpu_count` processors known. -/
def Walk.start (cpuCount : UInt32) : Walk := ⟨0, [], cpuCount, [], [], 0, 0, []⟩

namespace Madt

/-- `header.length`. -/
def length (t : Madt) : ℕ := load t 4 4

/-- Read a byte. -/
def byte (t : Madt) (o : ℕ) : Prog Walk UInt8 := fun w =>
  .done (t o) { w with reads := w.reads ++ [o] }

/-- Read a 32-bit field. -/
def word (t : Madt) (o : ℕ) : Prog Walk ℕ := fun w =>
  .done (load t o 4) { w with reads := w.reads ++ [o, o + 1, o + 2, o + 3] }

end Madt

/-- `map_page(kernel_pml4, PHYS_TO_VIRT(phys), phys, PTE_PRESENT | PTE_WRITABLE | PTE_PCD)`. -/
def mapDevice (phys : ℕ) : Prog Walk Unit := modify fun w => { w with mapped := w.mapped ++ [phys] }

/-- `printf`. -/
def note (e : Note) : Prog Walk Unit := modify fun w => { w with notes := w.notes ++ [e] }

/-- `register_cpu_core`. -/
def registerCpuCore (apicId : UInt8) : Prog Walk Unit :=
  modify fun w => { w with
    cpuIds := w.cpuIds ++ [(w.cpuCount.toNat, apicId)]
    cpuCount := w.cpuCount + 1 }

/-- `current_entry += entry_len`. -/
def advance (entryLen : UInt8) : Prog Walk Unit :=
  modify fun w => { w with currentEntry := w.currentEntry + entryLen.toNat }

/-- The `switch` of `acpi_parse_apic`, on the record at `p`. -/
def parseEntry (hhdm : ℕ) (t : Madt) (p : ℕ) (entryType : UInt8) : Prog Walk Unit :=
  if entryType = 0 then do
    let flags ← t.word (p + 4)
    if flags &&& 1 ≠ 0 ∨ flags &&& 2 ≠ 0 then
      let acpiProcessorId ← t.byte (p + 2)
      let apicId ← t.byte (p + 3)
      note (.core acpiProcessorId apicId)
      registerCpuCore apicId
    else pure ()
  else if entryType = 1 then do
    let ioapicPhys ← t.word (p + 4)
    mapDevice ioapicPhys
    modify fun w => { w with ioApicAddr := (ioapicPhys + hhdm) % 2 ^ 64 }
    let ioApicId ← t.byte (p + 2)
    let base ← t.word (p + 8)
    note (.ioApic ioApicId ioapicPhys base)
  else if entryType = 2 then do
    let source ← t.byte (p + 3)
    let bus ← t.byte (p + 2)
    note (.interruptOverride source bus)
  else pure ()

/-- One round of the loop of `acpi_parse_apic`. -/
def parseRound (hhdm : ℕ) (t : Madt) (madtLen : ℕ) : Prog Walk (Option Unit) := do
  let p ← read Walk.currentEntry
  if p < madtLen then
    let entryType ← t.byte p
    let entryLen ← t.byte (p + 1)
    if entryLen = 0 then
      note .malformed
      pure (some ())
    else
      parseEntry hhdm t p entryType
      advance entryLen
      pure none
  else pure (some ())

/-- `acpi_parse_apic`, given up after `n` records. -/
def acpiParseApic (hhdm n : ℕ) (t : Madt) : Prog Walk (Option Unit) := do
  let localApicPhys ← t.word 36
  mapDevice localApicPhys
  modify fun w => { w with localApicAddress := (localApicPhys + hhdm) % 2 ^ 64 }
  let madtLen ← t.word 4
  let localApicPhys ← t.word 36
  modify fun w => { w with
    localApicAddress := (localApicPhys + hhdm) % 2 ^ 64
    currentEntry := 44 }
  rounds (parseRound hhdm t madtLen) n

/-- One round of the loop of `acpi_remap_irq`. -/
def remapRound (t : Madt) (madtLen : ℕ) (irq : UInt32) : Prog Walk (Option UInt32) := do
  let p ← read Walk.currentEntry
  if p < madtLen then
    let entryType ← t.byte p
    let entryLen ← t.byte (p + 1)
    if entryType = 2 then
      let source ← t.byte (p + 3)
      if source.toNat = irq.toNat then
        let interrupt ← t.word (p + 4)
        pure (some (UInt32.ofNat interrupt))
      else
        advance entryLen
        pure none
    else
      advance entryLen
      pure none
  else pure (some irq)

/-- `acpi_remap_irq` on the table `s_madt`, given up after `n` records. -/
def acpiRemapIrq (n : ℕ) (irq : UInt32) (t : Madt) : Prog Walk (Option UInt32) := do
  let madtLen ← t.word 4
  modify fun w => { w with currentEntry := 44 }
  rounds (remapRound t madtLen irq) n

/-! ## Safe walks -/

/-- Everything read lies within the declared length. -/
def Walk.Inside (w : Walk) (t : Madt) : Prop := ∀ o ∈ w.reads, o < t.length

/-- Every store to `g_acpi_cpu_ids` is below `MAX_CPU_COUNT`. -/
def Walk.Bounded (w : Walk) : Prop := ∀ e ∈ w.cpuIds, e.1 < 16

/-- **Both walks are safe**: they end, inside the table, and inside `g_acpi_cpu_ids`. -/
structure WalksSafe (hhdm : ℕ) (cpuCount : UInt32) (t : Madt) : Prop where
  parse : ∃ n w, acpiParseApic hhdm n t (.start cpuCount) = .done (some ()) w ∧
    w.Inside t ∧ w.Bounded
  remap : ∀ irq, ∃ n r w, acpiRemapIrq n irq t (.start cpuCount) = .done (some r) w ∧ w.Inside t

/-! ## The records of a table -/

namespace Madt

variable (t : Madt)

/-- The length a record gives itself. -/
def lengthAt (p : ℕ) : ℕ := (t (p + 1)).toNat

/-- **The records a walk reaches** from `p`, if it goes no further at those where `stop` holds. -/
inductive Reaches (stop : ℕ → Prop) : ℕ → ℕ → Prop
  | here {p : ℕ} : p < t.length → Reaches stop p p
  | next {p q : ℕ} : p < t.length → ¬stop p → Reaches stop (p + t.lengthAt p) q → Reaches stop p q

/-- No length: the last record there is. -/
def Empty (p : ℕ) : Prop := t.lengthAt p = 0

/-- A record of the table. -/
def Entry (p : ℕ) : Prop := t.Reaches t.Empty 44 p

/-- How much of a record `acpi_parse_apic` reads. -/
def parsed (p : ℕ) : ℕ :=
  if t.lengthAt p = 0 then 2 else if t p = 0 then 8 else if t p = 1 then 12 else
    if t p = 2 then 4 else 2

/-- An override of `irq`. -/
def Overrides (irq : UInt32) (p : ℕ) : Prop := t p = 2 ∧ (t (p + 3)).toNat = irq.toNat

instance (irq : UInt32) (p : ℕ) : Decidable (t.Overrides irq p) :=
  inferInstanceAs (Decidable (_ ∧ _))

/-- How much of a record `acpi_remap_irq` reads. -/
def remapped (irq : UInt32) (p : ℕ) : ℕ :=
  if t.Overrides irq p then 8 else if t p = 2 then 4 else 2

/-- A record of a processor that is enabled, or can be. -/
def Core (p : ℕ) : Prop :=
  t.lengthAt p ≠ 0 ∧ t p = 0 ∧ (load t (p + 4) 4 &&& 1 ≠ 0 ∨ load t (p + 4) 4 &&& 2 ≠ 0)

instance (p : ℕ) : Decidable (t.Core p) := inferInstanceAs (Decidable (_ ∧ _))

/-- The processors among the records from `p` on. -/
def cores (p : ℕ) : Set ℕ := {q | t.Reaches t.Empty p q ∧ t.Core q}

/-- **A table that can be walked**: the header is there, every record has a length and fits, the
first override of each interrupt fits with the interrupt in it, and the processors fit. -/
structure Sound (cpuCount : UInt32) : Prop where
  header : 40 ≤ t.length
  nonempty : ∀ p, t.Entry p → t.lengthAt p ≠ 0
  fits : ∀ p, t.Entry p → p + t.parsed p ≤ t.length
  overrides : ∀ p, t.Entry p → t p = 2 →
    (∀ q < p, t.Entry q → t q = 2 → t (q + 3) ≠ t (p + 3)) → p + 8 ≤ t.length
  cores : (t.cores 44).ncard = 0 ∨ cpuCount.toNat + (t.cores 44).ncard ≤ 16

end Madt

section Reaches

variable {t : Madt} {stop stop' : ℕ → Prop} {p q : ℕ}

theorem reaches_iff : t.Reaches stop p q ↔
      p < t.length ∧ (q = p ∨ ¬stop p ∧ t.Reaches stop (p + t.lengthAt p) q) := by
  constructor
  · rintro (hp | ⟨hp, hgo, hq⟩)
    · exact ⟨hp, .inl rfl⟩
    · exact ⟨hp, .inr ⟨hgo, hq⟩⟩
  · rintro ⟨hp, rfl | ⟨hgo, hq⟩⟩
    · exact .here hp
    · exact .next hp hgo hq

theorem not_reaches (h : ¬p < t.length) : ¬t.Reaches stop p q := fun hq => h (reaches_iff.1 hq).1

theorem forall_reaches_of_stop {P : ℕ → Prop} (hp : p < t.length) (hstop : stop p) :
    (∀ q, t.Reaches stop p q → P q) ↔ P p := by
  refine ⟨fun h => h p (.here hp), fun h q hq => ?_⟩
  rcases (reaches_iff.1 hq).2 with rfl | ⟨hgo, -⟩
  · exact h
  · exact absurd hstop hgo

theorem forall_reaches_of_go {P : ℕ → Prop} (hp : p < t.length) (hgo : ¬stop p) :
    (∀ q, t.Reaches stop p q → P q) ↔
      P p ∧ ∀ q, t.Reaches stop (p + t.lengthAt p) q → P q := by
  refine ⟨fun h => ⟨h p (.here hp), fun q hq => h q (.next hp hgo hq)⟩, fun h q hq => ?_⟩
  rcases (reaches_iff.1 hq).2 with rfl | ⟨-, hq⟩
  · exact h.1
  · exact h.2 q hq

theorem Madt.Reaches.le (h : t.Reaches stop p q) : p ≤ q := by
  induction h with
  | here => exact le_rfl
  | next _ _ _ ih => omega

theorem Madt.Reaches.mono (h : t.Reaches stop p q) (hstop : ∀ x, stop' x → stop x) :
    t.Reaches stop' p q := by
  induction h with
  | here hp => exact .here hp
  | next hp hgo _ ih => exact .next hp (fun hx => hgo (hstop _ hx)) ih

/-- **A walk that stops early** reaches the records before the first stop, and that one. -/
theorem reaches_iff_first (hlen : ∀ x, t.Reaches t.Empty p x → ¬t.Empty x) : t.Reaches stop p q ↔
      t.Reaches t.Empty p q ∧ ∀ x < q, t.Reaches t.Empty p x → ¬stop x := by
  constructor
  · intro h
    induction h with
    | here hp => exact ⟨.here hp, fun x hlt hx => absurd hx.le (by omega)⟩
    | @next p q hp hgo _ ih =>
      have hp' := hlen p (.here hp)
      obtain ⟨hq, hfirst⟩ := ih fun x hx => hlen x (.next hp hp' hx)
      refine ⟨.next hp hp' hq, fun x hlt hx => ?_⟩
      rcases (reaches_iff.1 hx).2 with rfl | ⟨-, hx⟩
      · exact hgo
      · exact hfirst x hlt hx
  · rintro ⟨h, hfirst⟩
    induction h with
    | here hp => exact .here hp
    | @next p q hp hne hq ih =>
      have hlt : p < q := lt_of_lt_of_le (by unfold Madt.Empty at hne; omega) hq.le
      exact .next hp (hfirst p hlt (.here hp)) (ih (fun x hx => hlen x (.next hp hne hx))
        fun x hx hreach => hfirst x hx (.next hp hne hreach))

/-! ### Processors -/

theorem cores_finite : (t.cores p).Finite := by
  refine (Set.finite_Iio t.length).subset ?_
  rintro q ⟨hq, -⟩
  induction hq with
  | here hp => exact hp
  | next _ _ _ ih => exact ih

theorem cores_of_stop (h : ¬p < t.length ∨ t.Empty p) : t.cores p = ∅ := by
  refine Set.eq_empty_of_forall_notMem fun q ⟨hq, hcore⟩ => ?_
  obtain ⟨hp, rfl | ⟨hgo, -⟩⟩ := reaches_iff.1 hq
  · exact h.elim (fun h => h hp) hcore.1
  · exact h.elim (fun h => h hp) hgo

/-- The processors from a record on: itself, and those behind it. -/
theorem mem_cores (hp : p < t.length) (hgo : ¬t.Empty p) :
    q ∈ t.cores p ↔ q = p ∧ t.Core p ∨ q ∈ t.cores (p + t.lengthAt p) := by
  simp only [Madt.cores, Set.mem_ofPred_eq, reaches_iff (p := p), hp, hgo]
  constructor
  · rintro ⟨⟨-, rfl | ⟨-, hq⟩⟩, hcore⟩
    · exact .inl ⟨rfl, hcore⟩
    · exact .inr ⟨hq, hcore⟩
  · rintro (⟨rfl, hcore⟩ | ⟨hq, hcore⟩)
    · exact ⟨⟨trivial, .inl rfl⟩, hcore⟩
    · exact ⟨⟨trivial, .inr ⟨not_false, hq⟩⟩, hcore⟩

/-- Their number. -/
theorem ncard_cores (hp : p < t.length) (hgo : ¬t.Empty p) :
    (t.cores p).ncard = (t.cores (p + t.lengthAt p)).ncard + if t.Core p then 1 else 0 := by
  have hnot : p ∉ t.cores (p + t.lengthAt p) := fun h => hgo (by
    have := h.1.le
    unfold Madt.Empty
    omega)
  by_cases hcore : t.Core p
  · rw [if_pos hcore, ← Set.ncard_insert_of_notMem hnot cores_finite]
    congr 1
    ext q
    simp [mem_cores hp hgo, hcore]
  · rw [if_neg hcore]
    congr 1
    ext q
    simp [mem_cores hp hgo, hcore]

end Reaches

/-! ## One round of each walk -/

section Rounds

variable {t : Madt} (hhdm : ℕ) {irq : UInt32} {w : Walk}

/-- Offsets are inside a length exactly if the last of them is. -/
theorem forall_lt_iff {l : List ℕ} {n m : ℕ} (hmem : n ∈ l) (hle : ∀ o ∈ l, o ≤ n) :
    (∀ o ∈ l, o < m) ↔ n + 1 ≤ m :=
  ⟨fun h => h n hmem, fun h o ho => lt_of_le_of_lt (hle o ho) h⟩

theorem Walk.inside_append {w' : Walk} {os : List ℕ} (h : w'.reads = w.reads ++ os) :
    w'.Inside t ↔ w.Inside t ∧ ∀ o ∈ os, o < t.length := by
  unfold Walk.Inside
  rw [h, List.forall_mem_append]

/-- The `switch`, on a record whose header has been read. -/
theorem parseEntry_spec {p : ℕ} (hlen : ¬t.Empty p) :
    ∃ w' os, parseEntry hhdm t p (t p) w = .done () w' ∧ w'.currentEntry = w.currentEntry ∧
      w'.reads = w.reads ++ os ∧
      ((∀ o ∈ p :: (p + 1) :: os, o < t.length) ↔ p + t.parsed p ≤ t.length) ∧
      (w'.cpuCount, w'.cpuIds) = if t.Core p then
        (w.cpuCount + 1, w.cpuIds ++ [(w.cpuCount.toNat, t (p + 3))])
        else (w.cpuCount, w.cpuIds) := by
  unfold Madt.Empty at hlen
  unfold parseEntry Madt.parsed
  rw [if_neg hlen]
  by_cases h0 : t p = 0
  · by_cases hcore : t.Core p
    · simp only [if_pos h0, if_pos hcore, bind_apply, Madt.word]
      rw [if_pos hcore.2.2]
      refine ⟨_, [p + 4, p + 5, p + 6, p + 7, p + 2, p + 3], rfl, rfl, by simp, ?_, rfl⟩
      exact forall_lt_iff (n := p + 7) (by simp) (by simp)
    · simp only [if_pos h0, if_neg hcore, bind_apply, Madt.word]
      rw [if_neg fun h => hcore ⟨hlen, h0, h⟩]
      refine ⟨_, [p + 4, p + 5, p + 6, p + 7], rfl, rfl, rfl, ?_, rfl⟩
      exact forall_lt_iff (n := p + 7) (by simp) (by simp)
  rw [if_neg h0, if_neg h0, if_neg fun h : t.Core p => h0 h.2.1]
  by_cases h1 : t p = 1
  · rw [if_pos h1, if_pos h1]
    refine ⟨_, [p + 4, p + 5, p + 6, p + 7, p + 2, p + 8, p + 9, p + 10, p + 11], rfl, rfl, ?_, ?_,
      rfl⟩
    · simp
    · exact forall_lt_iff (n := p + 11) (by simp) (by simp)
  rw [if_neg h1, if_neg h1]
  by_cases h2 : t p = 2
  · rw [if_pos h2, if_pos h2]
    refine ⟨_, [p + 3, p + 2], rfl, rfl, by simp, ?_, rfl⟩
    exact forall_lt_iff (n := p + 3) (by simp) (by simp)
  · rw [if_neg h2, if_neg h2]
    refine ⟨_, [], rfl, rfl, by simp, ?_, rfl⟩
    exact forall_lt_iff (n := p + 1) (by simp) (by simp)

/-- **A round of `acpi_parse_apic`** at a record with a length. -/
theorem parseRound_go (hp : w.currentEntry < t.length) (hlen : ¬t.Empty w.currentEntry) :
    ∃ w', parseRound hhdm t t.length w = .done none w' ∧
      w'.currentEntry = w.currentEntry + t.lengthAt w.currentEntry ∧
      (w'.Inside t ↔ w.Inside t ∧ w.currentEntry + t.parsed w.currentEntry ≤ t.length) ∧
      (w'.cpuCount, w'.cpuIds) = if t.Core w.currentEntry then
        (w.cpuCount + 1, w.cpuIds ++ [(w.cpuCount.toNat, t (w.currentEntry + 3))])
        else (w.cpuCount, w.cpuIds) := by
  obtain ⟨w', os, hrun, hcur, hreads, hos, hcpu⟩ := parseEntry_spec hhdm
    (w := { w with reads := w.reads ++ [w.currentEntry] ++ [w.currentEntry + 1] }) hlen
  have hne : t (w.currentEntry + 1) ≠ 0 := fun h => hlen (by simp [Madt.Empty, Madt.lengthAt, h])
  refine ⟨{ w' with currentEntry := w'.currentEntry + t.lengthAt w.currentEntry }, ?_, ?_, ?_, ?_⟩
  · simp only [parseRound, bind_apply, read_apply, if_pos hp, Madt.byte, if_neg hne, hrun]
    rfl
  · exact congrArg (· + _) hcur
  · rw [← hos]
    exact Walk.inside_append (hreads.trans (by simp))
  · exact hcpu

theorem parseRound_stop (hp : w.currentEntry < t.length) (hlen : t.Empty w.currentEntry) :
    ∃ w', parseRound hhdm t t.length w = .done (some ()) w' ∧
      (w'.Inside t ↔ w.Inside t ∧ w.currentEntry + t.parsed w.currentEntry ≤ t.length) ∧
      w'.cpuCount = w.cpuCount ∧ w'.cpuIds = w.cpuIds := by
  have hzero : t (w.currentEntry + 1) = 0 := UInt8.toNat_inj.1 hlen
  refine ⟨{ w with reads := w.reads ++ [w.currentEntry] ++ [w.currentEntry + 1],
                   notes := w.notes ++ [.malformed] }, ?_, ?_, rfl, rfl⟩
  · simp only [parseRound, bind_apply, read_apply, if_pos hp, Madt.byte, if_pos hzero]
    rfl
  · rw [Madt.parsed, if_pos (show t.lengthAt w.currentEntry = 0 from hlen),
      ← forall_lt_iff (n := w.currentEntry + 1) (l := [w.currentEntry, w.currentEntry + 1])
        (by simp) (by simp)]
    exact Walk.inside_append (by simp)

theorem parseRound_end (hp : ¬w.currentEntry < t.length) :
    parseRound hhdm t t.length w = .done (some ()) w := by
  simp [parseRound, hp]

/-- **A round of `acpi_remap_irq`** at a record that overrides something else, or nothing. -/
theorem remapRound_go (hp : w.currentEntry < t.length) (hirq : ¬t.Overrides irq w.currentEntry) :
    ∃ w', remapRound t t.length irq w = .done none w' ∧
      w'.currentEntry = w.currentEntry + t.lengthAt w.currentEntry ∧
      (w'.Inside t ↔ w.Inside t ∧ w.currentEntry + t.remapped irq w.currentEntry ≤ t.length) := by
  rw [Madt.remapped, if_neg hirq]
  by_cases h2 : t w.currentEntry = 2
  · have hsource : ¬(t (w.currentEntry + 3)).toNat = irq.toNat := fun h => hirq ⟨h2, h⟩
    refine ⟨{ w with
      currentEntry := w.currentEntry + t.lengthAt w.currentEntry
      reads := w.reads ++ [w.currentEntry] ++ [w.currentEntry + 1] ++ [w.currentEntry + 3] },
      ?_, rfl, ?_⟩
    · simp only [remapRound, bind_apply, read_apply, if_pos hp, Madt.byte, if_pos h2,
        if_neg hsource]
      rfl
    · rw [if_pos h2, ← forall_lt_iff (n := w.currentEntry + 3)
        (l := [w.currentEntry, w.currentEntry + 1, w.currentEntry + 3]) (by simp) (by simp)]
      exact Walk.inside_append (by simp)
  · refine ⟨{ w with
      currentEntry := w.currentEntry + t.lengthAt w.currentEntry
      reads := w.reads ++ [w.currentEntry] ++ [w.currentEntry + 1] }, ?_, rfl, ?_⟩
    · simp only [remapRound, bind_apply, read_apply, if_pos hp, Madt.byte, if_neg h2]
      rfl
    · rw [if_neg h2, ← forall_lt_iff (n := w.currentEntry + 1)
        (l := [w.currentEntry, w.currentEntry + 1]) (by simp) (by simp)]
      exact Walk.inside_append (by simp)

theorem remapRound_stop (hp : w.currentEntry < t.length) (hirq : t.Overrides irq w.currentEntry) :
    ∃ r w', remapRound t t.length irq w = .done (some r) w' ∧
      (w'.Inside t ↔ w.Inside t ∧ w.currentEntry + t.remapped irq w.currentEntry ≤ t.length) := by
  rw [Madt.remapped, if_pos hirq]
  refine ⟨UInt32.ofNat (load t (w.currentEntry + 4) 4), { w with
    reads := w.reads ++ [w.currentEntry] ++ [w.currentEntry + 1] ++ [w.currentEntry + 3] ++
      [w.currentEntry + 4, w.currentEntry + 5, w.currentEntry + 6, w.currentEntry + 7] }, ?_, ?_⟩
  · simp only [remapRound, bind_apply, read_apply, if_pos hp, Madt.byte, if_pos hirq.1,
      if_pos hirq.2]
    rfl
  · rw [← forall_lt_iff (n := w.currentEntry + 7) (l := [w.currentEntry, w.currentEntry + 1,
      w.currentEntry + 3, w.currentEntry + 4, w.currentEntry + 5, w.currentEntry + 6,
      w.currentEntry + 7]) (by simp) (by simp)]
    exact Walk.inside_append (by simp)

theorem remapRound_end (hp : ¬w.currentEntry < t.length) :
    remapRound t t.length irq w = .done (some irq) w := by
  simp [remapRound, hp]

/-! ## The walks -/

/-- What is left to be safe for `acpi_parse_apic`. -/
def ParsesOn (t : Madt) (w : Walk) : Prop :=
  w.Inside t ∧ (∀ p, t.Reaches t.Empty w.currentEntry p → p + t.parsed p ≤ t.length) ∧
    w.Bounded ∧ ((t.cores w.currentEntry).ncard = 0 ∨
      w.cpuCount.toNat + (t.cores w.currentEntry).ncard ≤ 16)

/-- What is left to be safe for `acpi_remap_irq`. -/
def RemapsOn (t : Madt) (irq : UInt32) (w : Walk) : Prop :=
  w.Inside t ∧ ∀ p, t.Reaches (t.Overrides irq) w.currentEntry p →
    (t.Empty p → t.Overrides irq p) ∧ p + t.remapped irq p ≤ t.length

/-- One processor more leaves room for one less. -/
theorem bounded_step {w' : Walk} {p k : ℕ} (h : (w'.cpuCount, w'.cpuIds) = if t.Core p then
      (w.cpuCount + 1, w.cpuIds ++ [(w.cpuCount.toNat, t (p + 3))]) else (w.cpuCount, w.cpuIds)) :
    w'.Bounded ∧ (k = 0 ∨ w'.cpuCount.toNat + k ≤ 16) ↔
      w.Bounded ∧ (k + (if t.Core p then 1 else 0) = 0 ∨
        w.cpuCount.toNat + (k + if t.Core p then 1 else 0) ≤ 16) := by
  unfold Walk.Bounded
  split_ifs at h ⊢ with hcore
  · obtain ⟨hcount, hids⟩ := Prod.mk.inj h
    rw [hcount, hids, List.forall_mem_append, List.forall_mem_singleton, and_assoc,
      UInt32.toNat_add]
    refine and_congr_right fun _ => ?_
    have hone : (1 : UInt32).toNat = 1 := rfl
    rw [false_or]
    dsimp only
    omega
  · obtain ⟨hcount, hids⟩ := Prod.mk.inj h
    rw [hcount, hids, Nat.add_zero]

/-- **The loop of `acpi_parse_apic`**, from any record. -/
theorem parse_leaves_iff :
    (∃ r w', Leaves (parseRound hhdm t t.length) w r w' ∧ w'.Inside t ∧ w'.Bounded) ↔
      ParsesOn t w := by
  refine exists_leaves_iff (fun w => t.length - w.currentEntry) fun w => ?_
  unfold ParsesOn
  by_cases hp : w.currentEntry < t.length
  · by_cases hlen : t.Empty w.currentEntry
    · obtain ⟨w', hrun, hinside, -, hids⟩ := parseRound_stop hhdm hp hlen
      refine .inl ⟨(), w', hrun, ?_⟩
      rw [forall_reaches_of_stop hp hlen, cores_of_stop (.inr hlen), Set.ncard_empty, hinside,
        Walk.Bounded, Walk.Bounded, hids]
      simp only [true_or, and_true, and_assoc]
    · obtain ⟨w', hrun, hcur, hinside, hcpu⟩ := parseRound_go hhdm hp hlen
      have hpos : t.lengthAt w.currentEntry ≠ 0 := hlen
      refine .inr (.inl ⟨w', hrun, by omega, ?_⟩)
      rw [forall_reaches_of_go hp hlen, ncard_cores hp hlen, hinside, bounded_step hcpu, hcur]
      constructor
      · rintro ⟨hw, ⟨hhere, hrest⟩, hbounded, hroom⟩
        exact ⟨⟨hw, hhere⟩, hrest, hbounded, hroom⟩
      · rintro ⟨⟨hw, hhere⟩, hrest, hbounded, hroom⟩
        exact ⟨hw, ⟨hhere, hrest⟩, hbounded, hroom⟩
  · refine .inl ⟨(), w, parseRound_end hhdm hp, ?_⟩
    rw [cores_of_stop (.inl hp), Set.ncard_empty]
    simp [not_reaches hp]

/-- **The loop of `acpi_remap_irq`**, from any record. -/
theorem remap_leaves_iff :
    (∃ r w', Leaves (remapRound t t.length irq) w r w' ∧ w'.Inside t) ↔ RemapsOn t irq w := by
  refine exists_leaves_iff (fun w => t.length - w.currentEntry) fun w => ?_
  unfold RemapsOn
  by_cases hp : w.currentEntry < t.length
  · by_cases hirq : t.Overrides irq w.currentEntry
    · obtain ⟨r, w', hrun, hinside⟩ := remapRound_stop hp hirq
      refine .inl ⟨r, w', hrun, ?_⟩
      rw [forall_reaches_of_stop hp hirq, hinside]
      exact and_congr_right fun _ => and_iff_right fun _ => hirq
    · obtain ⟨w', hrun, hcur, hinside⟩ := remapRound_go hp hirq
      by_cases hlen : t.Empty w.currentEntry
      · -- The next record is this one again.
        refine .inr (.inr ⟨fun r w'' => ?_, fun h => hirq ((h.2 _ (.here hp)).1 hlen)⟩)
        refine not_leaves (I := fun v => v.currentEntry = w.currentEntry) (fun v hv => ?_) rfl
        obtain ⟨v', hrun, hcur, -⟩ := remapRound_go (w := v) (hv ▸ hp) (hv ▸ hirq)
        exact ⟨v', hrun, by rw [hcur, hv, hlen, Nat.add_zero]⟩
      · have hpos : t.lengthAt w.currentEntry ≠ 0 := hlen
        refine .inr (.inl ⟨w', hrun, by omega, ?_⟩)
        rw [forall_reaches_of_go hp hirq, hinside, hcur]
        constructor
        · rintro ⟨hw, ⟨-, hhere⟩, hrest⟩
          exact ⟨⟨hw, hhere⟩, hrest⟩
        · rintro ⟨⟨hw, hhere⟩, hrest⟩
          exact ⟨hw, ⟨fun hempty => absurd hempty hlen, hhere⟩, hrest⟩
  · refine .inl ⟨irq, w, remapRound_end hp, ?_⟩
    simp [not_reaches hp]

/-- `acpi_parse_apic` at its first record. -/
def Walk.parsing (hhdm : ℕ) (t : Madt) (cpuCount : UInt32) : Walk where
  currentEntry := 44
  reads := [36, 37, 38, 39, 4, 5, 6, 7, 36, 37, 38, 39]
  cpuCount := cpuCount
  cpuIds := []
  mapped := [load t 36 4]
  localApicAddress := (load t 36 4 + hhdm) % 2 ^ 64
  ioApicAddr := 0
  notes := []

theorem parse_safe_iff {cpuCount : UInt32} :
    (∃ n w, acpiParseApic hhdm n t (.start cpuCount) = .done (some ()) w ∧
      w.Inside t ∧ w.Bounded) ↔
      40 ≤ t.length ∧ (∀ p, t.Entry p → p + t.parsed p ≤ t.length) ∧
        ((t.cores 44).ncard = 0 ∨ cpuCount.toNat + (t.cores 44).ncard ≤ 16) := by
  have hinside : (Walk.parsing hhdm t cpuCount).Inside t ↔ 40 ≤ t.length :=
    forall_lt_iff (n := 39) (by simp [Walk.parsing]) (by simp [Walk.parsing])
  have hbounded : (Walk.parsing hhdm t cpuCount).Bounded := by simp [Walk.Bounded, Walk.parsing]
  have hleaves := parse_leaves_iff hhdm (w := .parsing hhdm t cpuCount) (t := t)
  rw [ParsesOn, hinside, and_iff_right hbounded] at hleaves
  refine Iff.trans ⟨?_, ?_⟩ hleaves
  · rintro ⟨n, w, hn, hsafe⟩
    exact ⟨(), w, ⟨n, hn⟩, hsafe⟩
  · rintro ⟨⟨⟩, w, ⟨n, hn⟩, hsafe⟩
    exact ⟨n, w, hn, hsafe⟩

theorem remap_safe_iff {cpuCount : UInt32} :
    (∃ n r w, acpiRemapIrq n irq t (.start cpuCount) = .done (some r) w ∧ w.Inside t) ↔
      8 ≤ t.length ∧ ∀ p, t.Reaches (t.Overrides irq) 44 p →
        (t.Empty p → t.Overrides irq p) ∧ p + t.remapped irq p ≤ t.length := by
  have hinside : Walk.Inside { Walk.start cpuCount with
      reads := [4, 5, 6, 7]
      currentEntry := 44 } t ↔ 8 ≤ t.length := forall_lt_iff (n := 7) (by simp) (by simp)
  have hleaves : _ ↔ RemapsOn t irq
      { Walk.start cpuCount with reads := [4, 5, 6, 7], currentEntry := 44 } := remap_leaves_iff
  rw [RemapsOn, hinside] at hleaves
  refine Iff.trans ⟨?_, ?_⟩ hleaves
  · rintro ⟨n, r, w, hn, hsafe⟩
    exact ⟨r, w, ⟨n, hn⟩, hsafe⟩
  · rintro ⟨r, w, ⟨n, hn⟩, hsafe⟩
    exact ⟨n, r, w, hn, hsafe⟩

/-! ## Every table -/

theorem entry_reaches {p : ℕ} (hnone : ∀ q, ¬t.Overrides irq q) (h : t.Entry p) :
    t.Reaches (t.Overrides irq) 44 p :=
  h.mono fun q hq => absurd hq (hnone q)

/-- No record overrides an interrupt above 255. -/
theorem not_overrides {q : ℕ} : ¬t.Overrides 256 q := fun h => by
  have hlt := (t (q + 3)).toNat_lt
  have hsource : (t (q + 3)).toNat = 256 := h.2
  omega

/-- Beside the override it looks for, `acpi_remap_irq` reads no further than `acpi_parse_apic`. -/
theorem remapped_le {p : ℕ} (hirq : ¬t.Overrides irq p) (hlen : t.lengthAt p ≠ 0) :
    t.remapped irq p ≤ t.parsed p := by
  rw [Madt.remapped, if_neg hirq, Madt.parsed, if_neg hlen]
  split_ifs <;> simp_all

/-- **Both walks are safe on a table exactly if it is sound.** -/
theorem walksSafe_iff (hhdm : ℕ) (cpuCount : UInt32) (t : Madt) :
    WalksSafe hhdm cpuCount t ↔ t.Sound cpuCount := by
  constructor
  · rintro ⟨hparse, hremap⟩
    obtain ⟨hheader, hfits, hcores⟩ := (parse_safe_iff hhdm).1 hparse
    have hwalk := fun irq => (remap_safe_iff.1 (hremap irq)).2
    have hnonempty : ∀ p, t.Entry p → ¬t.Empty p := fun p hp hempty =>
      not_overrides ((hwalk 256 p (entry_reaches (fun _ => not_overrides) hp)).1 hempty)
    refine ⟨hheader, hnonempty, hfits, fun p hp h2 hfirst => ?_, hcores⟩
    have hover : t.Overrides (t (p + 3)).toUInt32 p := ⟨h2, (UInt8.toNat_toUInt32 _).symm⟩
    have hreach : t.Reaches (t.Overrides (t (p + 3)).toUInt32) 44 p :=
      (reaches_iff_first hnonempty).2 ⟨hp, fun q hlt hq hq' =>
        hfirst q hlt hq hq'.1 (UInt8.toNat_inj.1 (hq'.2.trans hover.2.symm))⟩
    have hfit := (hwalk _ p hreach).2
    rwa [Madt.remapped, if_pos hover] at hfit
  · rintro ⟨hheader, hnonempty, hfits, hover, hcores⟩
    refine ⟨(parse_safe_iff hhdm).2 ⟨hheader, hfits, hcores⟩,
      fun irq => remap_safe_iff.2 ⟨by omega, fun p hp => ?_⟩⟩
    obtain ⟨hentry, hfirst⟩ := (reaches_iff_first hnonempty).1 hp
    refine ⟨fun hempty => absurd hempty (hnonempty p hentry), ?_⟩
    by_cases hirq : t.Overrides irq p
    · rw [Madt.remapped, if_pos hirq]
      exact hover p hentry hirq.1 fun q hlt hq h2 heq =>
        hfirst q hlt hq ⟨h2, by rw [heq, hirq.2]⟩
    · exact (Nat.add_le_add_left (remapped_le hirq (hnonempty p hentry)) p).trans (hfits p hentry)

end Rounds

/-- A table of 46 bytes whose only record has length 0. -/
def emptyRecord : Madt := fun o => if o = 4 then 46 else 0

/-- **`acpi_remap_irq` stays at a record of length 0.** -/
theorem emptyRecord_endless : ¬WalksSafe 0 0 emptyRecord := fun h => by
  have hreach : emptyRecord.Reaches (emptyRecord.Overrides 1) 44 44 := .here (by decide)
  exact absurd (((remap_safe_iff.1 (h.remap 1)).2 44 hreach).1 rfl) (by decide)

end Hvos.Machine
