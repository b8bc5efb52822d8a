import Hvos.Machine.Madt

/-!
# Machine/PerCpu — tables of a row for each processor

`init_gdt`, `init_multitasking` and `init_smp_data` make a table of pointers and assign as many as
there are processors.  `get_local_tss`, `get_cpu_task_list` and `get_current_cpu_data` index it by
the id of the local APIC, which the firmware chooses.  All three are in range exactly if the ids are
the numbers below the count (`indexedInRange_iff`).
-/

namespace Hvos.Machine

open Prog Bytes

/-! ## The tables -/

/-- A block with room for so many pointers, `n` of which are assigned: `some i` is the object made
in round `i`, and `none` is what the block held before. -/
def assign (slots n : ℕ) : List (Option ℕ) :=
  (List.range n).foldl (fun table i => table.set i (some i)) (List.replicate slots none)

/-- `init_gdt`: `gdt_list`, of `sizeof(gdt_t *) * cores` bytes. -/
def initGdt (cpuCount : UInt32) : List (Option ℕ) := assign (8 * cpuCount.toNat / 8) cpuCount.toNat

/-- `init_multitasking`: `cpu_task_lists`, of `sizeof(cpu_task_list_t) * cpu_count` bytes. -/
def initMultitasking (cpuCount : UInt32) : List (Option ℕ) :=
  assign (56 * cpuCount.toNat / 8) cpuCount.toNat

/-- `init_smp_data`: `cpu_data_list`, of `sizeof(cpu_data_t) * nb_cpu` bytes. -/
def initSmpData (nbCpu : ℕ) : List (Option ℕ) := assign (16 * nbCpu / 8) nbCpu

/-- The entries that are assigned. -/
def entries (table : List (Option ℕ)) : ℕ := table.countP Option.isSome

/-- A table read at `local_apic_get_id()`: the object of that entry, if it is assigned. -/
def atLocalApicId (table : List (Option ℕ)) (apicId : UInt8) : Option ℕ :=
  (table[apicId.toNat]?).join

/-- `get_local_tss`, on the processor with this id. -/
def getLocalTss (gdtList : List (Option ℕ)) (apicId : UInt8) : Option ℕ := atLocalApicId gdtList apicId

/-- `get_cpu_task_list`. -/
def getCpuTaskList (cpuTaskLists : List (Option ℕ)) (apicId : UInt8) : Option ℕ :=
  atLocalApicId cpuTaskLists apicId

/-- `get_current_cpu_data`. -/
def getCurrentCpuData (cpuDataList : List (Option ℕ)) (apicId : UInt8) : Option ℕ :=
  atLocalApicId cpuDataList apicId

variable {slots n : ℕ} {apicId : UInt8}

theorem assign_eq (h : n ≤ slots) :
    assign slots n = (List.range n).map some ++ List.replicate (slots - n) none := by
  induction n with
  | zero => rfl
  | succ n ih =>
    have hlen : ((List.range n).map (some : ℕ → Option ℕ)).length = n := by simp
    have hrest : slots - n = slots - (n + 1) + 1 := by omega
    unfold assign at ih ⊢
    rw [List.range_succ, List.foldl_append, ih (by omega), List.foldl_cons, List.foldl_nil,
      List.set_append_right _ _ hlen.le, hlen, Nat.sub_self, hrest, List.replicate_succ,
      List.set_cons_zero]
    simp

/-- The loop assigns `n` entries. -/
theorem entries_assign (h : n ≤ slots) : entries (assign slots n) = n := by
  unfold entries
  have hall : (List.range n).countP (Option.isSome ∘ some) = (List.range n).length :=
    List.countP_eq_length.2 fun _ _ => rfl
  rw [assign_eq h, List.countP_append, List.countP_replicate, List.countP_map, hall]
  simp

/-! ## The processors a table registers -/

/-- The ids that `register_cpu_core` has stored. -/
def Walk.registered (w : Walk) : List UInt8 := w.cpuIds.map Prod.snd

/-- **Every per-processor table is indexed in range**: after `acpi_parse_apic`, for each processor
it has registered, with `cpu_count` processors reported by the boot loader as well. -/
def IndexedInRange (hhdm : ℕ) (t : Madt) : Prop :=
  ∃ n w, acpiParseApic hhdm n t (.start 0) = .done (some ()) w ∧
    ∀ apicId ∈ w.registered, apicId.toNat < entries (initGdt w.cpuCount) ∧
      apicId.toNat < entries (initMultitasking w.cpuCount) ∧
      apicId.toNat < entries (initSmpData w.registered.length)

variable {hhdm : ℕ} {t : Madt} {w : Walk}

/-- The ids of the processors from a record on. -/
def Madt.apicIds (t : Madt) (p : ℕ) : Set UInt8 := (fun q => t (q + 3)) '' t.cores p

theorem apicIds_of_stop {p : ℕ} (h : ¬p < t.length ∨ t.Empty p) : t.apicIds p = ∅ := by
  rw [Madt.apicIds, cores_of_stop h, Set.image_empty]

theorem mem_apicIds {p : ℕ} (hp : p < t.length) (hgo : ¬t.Empty p) : apicId ∈ t.apicIds p ↔
      t (p + 3) = apicId ∧ t.Core p ∨ apicId ∈ t.apicIds (p + t.lengthAt p) := by
  unfold Madt.apicIds
  simp only [Set.mem_image, mem_cores hp hgo]
  constructor
  · rintro ⟨q, ⟨rfl, hcore⟩ | hq, rfl⟩
    · exact .inl ⟨rfl, hcore⟩
    · exact .inr ⟨q, hq, rfl⟩
  · rintro (⟨rfl, hcore⟩ | ⟨q, hq, rfl⟩)
    · exact ⟨p, .inl ⟨rfl, hcore⟩, rfl⟩
    · exact ⟨q, .inr hq, rfl⟩

/-- The ids registered so far, `g_acpi_cpu_count`, and the number of stores. -/
def Walk.totals (w : Walk) : Set UInt8 × UInt32 × ℕ :=
  ({a | a ∈ w.registered}, w.cpuCount, w.registered.length)

/-- The same at the end of the walk: together with the processors ahead. -/
noncomputable def Walk.totalsAhead (t : Madt) (w : Walk) : Set UInt8 × UInt32 × ℕ :=
  ({a | a ∈ w.registered} ∪ t.apicIds w.currentEntry,
    w.cpuCount + UInt32.ofNat (t.cores w.currentEntry).ncard,
    w.registered.length + (t.cores w.currentEntry).ncard)

/-- Where a walk ends nothing is ahead. -/
theorem totalsAhead_of_stop (h : ¬w.currentEntry < t.length ∨ t.Empty w.currentEntry) :
    w.totalsAhead t = w.totals := by
  unfold Walk.totalsAhead Walk.totals
  rw [apicIds_of_stop h, cores_of_stop h, Set.ncard_empty, Set.union_empty]
  simp

/-- A round registers what was ahead. -/
theorem totalsAhead_go {w' : Walk} (hp : w.currentEntry < t.length) (hgo : ¬t.Empty w.currentEntry)
    (hcur : w'.currentEntry = w.currentEntry + t.lengthAt w.currentEntry)
    (hcpu : (w'.cpuCount, w'.cpuIds) = if t.Core w.currentEntry then
      (w.cpuCount + 1, w.cpuIds ++ [(w.cpuCount.toNat, t (w.currentEntry + 3))])
      else (w.cpuCount, w.cpuIds)) : w.totalsAhead t = w'.totalsAhead t := by
  unfold Walk.totalsAhead
  rw [hcur, ncard_cores hp hgo]
  split_ifs at hcpu ⊢ with hcore
  · obtain ⟨hcount, hids⟩ := Prod.mk.inj hcpu
    have hregistered : w'.registered = w.registered ++ [t (w.currentEntry + 3)] := by
      simp [Walk.registered, hids]
    refine Prod.ext ?_ (Prod.ext ?_ ?_)
    · ext a
      simp [mem_apicIds hp hgo, hcore, hregistered, or_assoc, eq_comm]
    · change w.cpuCount + UInt32.ofNat (_ + 1) = w'.cpuCount + _
      rw [hcount, UInt32.ofNat_add, UInt32.add_comm (UInt32.ofNat _), UInt32.add_assoc]
      rfl
    · change w.registered.length + (_ + 1) = w'.registered.length + _
      rw [hregistered, List.length_append, List.length_singleton]
      omega
  · obtain ⟨hcount, hids⟩ := Prod.mk.inj hcpu
    have hregistered : w'.registered = w.registered := by
      unfold Walk.registered
      rw [hids]
    refine Prod.ext ?_ (Prod.ext ?_ ?_)
    · ext a
      simp [mem_apicIds hp hgo, hcore, hregistered]
    · rw [hcount]
      rfl
    · rw [hregistered]
      rfl

/-- **The loop of `acpi_parse_apic` registers the processors ahead**: it ends, with the totals there
were to be. -/
theorem registers_iff (P : Set UInt8 × UInt32 × ℕ → Prop) :
    (∃ r w', Leaves (parseRound hhdm t t.length) w r w' ∧ P w'.totals) ↔ P (w.totalsAhead t) := by
  refine exists_leaves_iff (V := fun w : Walk => P (w.totalsAhead t))
    (Q := fun (_ : Unit) (w' : Walk) => P w'.totals) (fun w : Walk => t.length - w.currentEntry)
    fun w => ?_
  by_cases hp : w.currentEntry < t.length
  · by_cases hlen : t.Empty w.currentEntry
    · obtain ⟨w', hrun, -, hcount, hids⟩ := parseRound_stop hhdm hp hlen
      refine .inl ⟨(), w', hrun, ?_⟩
      rw [totalsAhead_of_stop (.inr hlen)]
      unfold Walk.totals Walk.registered
      rw [hcount, hids]
    · obtain ⟨w', hrun, hcur, -, hcpu⟩ := parseRound_go hhdm hp hlen
      have hpos : t.lengthAt w.currentEntry ≠ 0 := hlen
      refine .inr (.inl ⟨w', hrun, by omega, ?_⟩)
      rw [totalsAhead_go hp hlen hcur hcpu]
  · refine .inl ⟨(), w, parseRound_end hhdm hp, ?_⟩
    rw [totalsAhead_of_stop (.inl hp)]

/-! ## Ids in range -/

/-- **As many different ids as there are processors are all in range** exactly if they are the
numbers below the count. -/
theorem forall_lt_ncard_iff {S : Set ℕ} {f : ℕ → ℕ} (hf : Set.InjOn f S) :
    (∀ q ∈ S, f q < S.ncard) ↔ f '' S = Set.Iio S.ncard := by
  constructor
  · intro h
    refine Set.eq_of_subset_of_ncard_le ?_ ?_ (Set.finite_Iio _)
    · rintro _ ⟨q, hq, rfl⟩
      exact h q hq
    · rw [hf.ncard_image, Set.ncard_eq_toFinset_card', Set.toFinset_Iio, Nat.card_Iio]
  · intro h q hq
    have hmem : f q ∈ f '' S := Set.mem_image_of_mem f hq
    rwa [h] at hmem

theorem entries_initGdt (cpuCount : UInt32) : entries (initGdt cpuCount) = cpuCount.toNat :=
  entries_assign (by omega)

theorem entries_initMultitasking (cpuCount : UInt32) :
    entries (initMultitasking cpuCount) = cpuCount.toNat :=
  entries_assign (by omega)

theorem entries_initSmpData (nbCpu : ℕ) : entries (initSmpData nbCpu) = nbCpu :=
  entries_assign (by omega)

/-- **The tables are indexed in range exactly if** the ids of the processors are the numbers below
their count. -/
theorem indexedInRange_iff (hhdm : ℕ) {t : Madt} (hcount : (t.cores 44).ncard ≤ 16)
    (hids : Set.InjOn (fun q => t (q + 3)) (t.cores 44)) : IndexedInRange hhdm t ↔
      (fun q => (t (q + 3)).toNat) '' t.cores 44 = Set.Iio (t.cores 44).ncard := by
  have hregisters := @registers_iff hhdm t (.parsing hhdm t 0)
    fun totals => ∀ a ∈ totals.1, a.toNat < entries (initGdt totals.2.1) ∧
      a.toNat < entries (initMultitasking totals.2.1) ∧ a.toNat < entries (initSmpData totals.2.2)
  have hmeans : IndexedInRange hhdm t ↔ _ := Iff.trans ⟨?_, ?_⟩ hregisters
  · have hnat : (0 + UInt32.ofNat (t.cores 44).ncard).toNat = (t.cores 44).ncard := by
      rw [UInt32.zero_add]
      exact Nat.mod_eq_of_lt (by omega)
    have hinj : Set.InjOn (fun q => (t (q + 3)).toNat) (t.cores 44) :=
      fun p hp q hq heq => hids hp hq (UInt8.toNat_inj.1 heq)
    rw [hmeans, ← forall_lt_ncard_iff hinj]
    simp only [entries_initGdt, entries_initMultitasking, entries_initSmpData, Walk.totalsAhead,
      Walk.parsing, Walk.registered, hnat, Madt.apicIds]
    simp
  · rintro ⟨n, w, hn, hall⟩
    exact ⟨(), w, ⟨n, hn⟩, hall⟩
  · rintro ⟨⟨⟩, w, ⟨n, hn⟩, hall⟩
    exact ⟨n, w, hn, hall⟩

/-! ## Two processors -/

/-- A table of two processors with these ids. -/
def twoCores (a b : UInt8) : Madt := fun o =>
  ((List.replicate 44 0).set 4 60 ++ [0, 8, 0, a, 1, 0, 0, 0] ++ [0, 8, 1, b, 1, 0, 0, 0]).getD o 0

theorem cores_twoCores (a b : UInt8) : (twoCores a b).cores 44 = {44, 52} := by
  have hlen : (twoCores a b).length = 60 := rfl
  have hgo : ∀ p, p = 44 ∨ p = 52 → (twoCores a b).lengthAt p = 8 := by
    rintro p (rfl | rfl)
    · rfl
    · rfl
  have hflags : ∀ p, p = 44 ∨ p = 52 → load (twoCores a b) (p + 4) 4 = 1 := by
    rintro p (rfl | rfl)
    · rfl
    · rfl
  have hcore : ∀ p, p = 44 ∨ p = 52 → (twoCores a b).Core p := by
    intro p hp
    refine ⟨by rw [hgo p hp]; decide, ?_, .inl (by rw [hflags p hp]; decide)⟩
    obtain rfl | rfl := hp
    · rfl
    · rfl
  have hnext : ∀ p q, p = 44 ∨ p = 52 →
      (q ∈ (twoCores a b).cores p ↔ q = p ∨ q ∈ (twoCores a b).cores (p + 8)) := by
    intro p q hp
    have hmem := mem_cores (q := q) (show p < (twoCores a b).length by rw [hlen]; omega)
      (show ¬(twoCores a b).Empty p from (hcore p hp).1)
    rw [hmem, hgo p hp, and_iff_left (hcore p hp)]
  have hend : (twoCores a b).cores 60 = ∅ := cores_of_stop (.inl (by rw [hlen]; decide))
  ext q
  rw [hnext 44 q (by decide), hnext 52 q (by decide), hend]
  simp

/-- The ids 0 and 1 are in range. -/
theorem indexedInRange_twoCores : IndexedInRange 0 (twoCores 0 1) := by
  have hcores := cores_twoCores 0 1
  have hncard : ((twoCores 0 1).cores 44).ncard = 2 := by
    rw [hcores]
    exact Set.ncard_pair (by decide)
  refine (indexedInRange_iff 0 (by rw [hncard]; decide) ?_).2 ?_
  · rw [hcores]
    rintro p (rfl | rfl) q (rfl | rfl) heq
    · rfl
    · exact absurd heq (by decide)
    · exact absurd heq (by decide)
    · rfl
  · rw [hncard, hcores, Set.image_pair]
    ext k
    simp only [Set.mem_insert_iff, Set.mem_singleton_iff, Set.mem_Iio]
    change k = 0 ∨ k = 1 ↔ k < 2
    omega

/-- **The id 2 of two processors** is in none of the three tables. -/
theorem id_beyond_count : Ensures (acpiParseApic 0 3 (twoCores 0 2)) (.start 0)
    (fun r w => r = some () ∧ w.registered = [0, 2] ∧ w.cpuCount = 2 ∧
      entries (initGdt w.cpuCount) = 2 ∧ getLocalTss (initGdt w.cpuCount) 2 = none ∧
      getCpuTaskList (initMultitasking w.cpuCount) 2 = none ∧
      getCurrentCpuData (initSmpData w.registered.length) 2 = none) (fun _ => False) := by
  decide +kernel

end Hvos.Machine
