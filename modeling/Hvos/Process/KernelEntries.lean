import Hvos.Lib.Runs
import Hvos.Process.Isolation

/-!
# Process/KernelEntries — upper PML4 entries over process creation, heap growth and `schedule`

A new PML4 gets the kernel's upper entries, `schedule` copies those of the outgoing thread's PML4 to
the incoming one's, and `heap_expand` adds to `kernel_pml4` only.  An entry that is added while the
thread of a process runs is in that process's PML4 at no time, so the next switch loses it; as long
as no switch follows such an addition, all entries of `kernel_pml4` are in the PML4 in use.
-/

namespace Hvos.Process

open Memory Prog

/-! ## The machine -/

/-- The system, and the process whose thread runs; a kernel thread runs on `kernel_pml4`. -/
structure Cpu where
  sys : Sys
  current : Option ℕ

/-- What happens. -/
inductive Cpu.Event
  | createElf (elfBuffer : ℕ) (elf : ElfFile)
  | heapExpand (sizeNeeded : ℕ)
  | schedule (next : Option ℕ)

/-- What a program that returns leaves behind. -/
def returned : Outcome Sys Unit → Option Sys
  | .done _ st => some st
  | .halt _ => none

/-- One step, where it does not stop the machine and `schedule` finds its thread. -/
def Cpu.act : Cpu.Event → Cpu → Option Cpu
  | .createElf elfBuffer elf, c =>
    (returned (step (.createElf elfBuffer elf) c.sys)).map fun st => ⟨st, c.current⟩
  | .heapExpand sizeNeeded, c =>
    (returned (step (.heapExpand sizeNeeded) c.sys)).map fun st => ⟨st, c.current⟩
  | .schedule next, c =>
    match c.sys.cr3 c.current, c.sys.cr3 next with
    | some src, some dst => some ⟨{ c.sys with mem := copyHalf src dst c.sys.mem }, next⟩
    | _, _ => none

/-- Where an entry of `kernel_pml4` leads, if it is present. -/
def Cpu.kernelEntry (c : Cpu) (i : Fin 512) : Option ℕ := c.sys.mem.next c.sys.mem.kernelPml4 i

/-- …and an entry of the PML4 of the thread that runs. -/
def Cpu.entry (c : Cpu) (i : Fin 512) : Option ℕ :=
  (c.sys.cr3 c.current).bind fun r => c.sys.mem.next r i

/-- **Kernel-half mappings are never lost**: whatever upper entry of `kernel_pml4` is present after
a part of the run stays there, and is present in each PML4 that `schedule` then switches to. -/
def NeverLost (c : Cpu) (es : List Cpu.Event) : Prop :=
  ∀ es1 es2 es3 c1 c2, es = es1 ++ es2 ++ es3 → Run Cpu.act c es1 c1 → Run Cpu.act c1 es2 c2 →
    ∀ i : Fin 512, 256 ≤ i.val → ∀ x, c1.kernelEntry i = some x →
      c2.kernelEntry i = some x ∧
        ∀ es next, es2 = es ++ [.schedule next] → (c2.entry i).isSome = true

/-- An upper entry of `kernel_pml4` is new, and the thread of a process runs. -/
def AddsAway (c c' : Cpu) : Prop :=
  c.current ≠ none ∧ ∃ i : Fin 512, 256 ≤ i.val ∧ c.kernelEntry i = none ∧ c'.kernelEntry i ≠ none

/-- No switch follows such an addition. -/
def Orderly (c : Cpu) (es : List Cpu.Event) : Prop :=
  ∀ es1 e es2 next es3 c1 c2 c3, es = es1 ++ e :: (es2 ++ .schedule next :: es3) →
    Run Cpu.act c es1 c1 → c1.act e = some c2 → Run Cpu.act c2 (es2 ++ [.schedule next]) c3 →
      ¬AddsAway c1 c2

/-- The files lie below `2 ^ 47`. -/
def Cpu.Event.Below47 : Cpu.Event → Prop
  | .createElf _ elf => elf.Below47
  | _ => True

/-- All upper entries of `kernel_pml4`, and no others, are in the PML4 in use. -/
def Cpu.Synced (c : Cpu) : Prop := ∀ i : Fin 512, 256 ≤ i.val → c.entry i = c.kernelEntry i

/-- The system is sound, and the thread that runs is one of its threads. -/
structure Good (s0 : Mem) (c : Cpu) : Prop where
  kept : Kept s0 c.sys
  valid : (c.sys.cr3 c.current).isSome = true

variable {s0 s : Mem} {lab : ℕ → Option Label} {roots : List ℕ} {st st' : Sys} {c c' : Cpu}
  {es : List Cpu.Event}

/-! ## Steps -/

/-- **What a step other than a switch does**: `kernel_pml4` keeps its entries, and the PML4 of the
process that runs its upper half. -/
structure Grows (s0 : Mem) (c c' : Cpu) : Prop where
  good : Good s0 c'
  current : c'.current = c.current
  kernel : ∀ i x, c.kernelEntry i = some x → c'.kernelEntry i = some x
  running : c.current ≠ none → ∀ i : Fin 512, 256 ≤ i.val → c'.entry i = c.entry i

theorem returned_eq_some {o : Outcome Sys Unit} (h : returned o = some st) : o = .done () st := by
  cases o with
  | done _ st' =>
    cases h
    rfl
  | halt _ => cases h

/-- A program on the memory leaves the processes alone. -/
theorem onMem_procs {α : Type} {m : Prog Mem α} :
    Ensures (onMem m) st (fun _ st' => st'.procs = st.procs) fun _ => True := by
  unfold Ensures onMem
  cases m st.mem with
  | done a s => rfl
  | halt s => trivial

/-- Processes stay where they are, and one may be added. -/
theorem createElf_procs {elfBuffer : ℕ} {elf : ElfFile} :
    Ensures (step (.createElf elfBuffer elf)) st
      (fun _ st' => ∀ (p : ℕ) proc, st.procs[p]? = some proc → st'.procs[p]? = some proc)
      fun _ => True := by
  refine onMem_procs.bind fun res st' hst' => ?_
  cases res with
  | none => exact ensures_pure fun p proc hp => by rwa [hst']
  | some new =>
    refine ensures_modify fun p proc hp => ?_
    have hlt : p < st.procs.length := (List.getElem?_eq_some_iff.1 hp).1
    simp only [hst']
    rw [List.getElem?_append_left hlt, hp]

theorem heapExpand_procs {sizeNeeded : ℕ} : Ensures (step (.heapExpand sizeNeeded)) st
      (fun _ st' => ∀ (p : ℕ) proc, st.procs[p]? = some proc → st'.procs[p]? = some proc)
      fun _ => True :=
  onMem_procs.bind fun _ _ hst' => ensures_pure fun p proc hp => by rwa [hst']

/-- **A step of the system that is no switch.** -/
theorem Twins.grows (htwins : Twins s0 st st.mem st' st')
    (hprocs : ∀ (p : ℕ) proc, st.procs[p]? = some proc → st'.procs[p]? = some proc) {who : Option ℕ}
    (hgood : Good s0 ⟨st, who⟩) : Grows s0 ⟨st, who⟩ ⟨st', who⟩ := by
  obtain ⟨lab, roots, hsound⟩ := hgood.kept
  obtain ⟨roots', lab', hpaired⟩ := htwins.both
  have hk : st'.mem.kernelPml4 = st.mem.kernelPml4 :=
    hpaired.owned.kernel.trans hsound.owned.kernel.symm
  -- The process that runs has the same PML4 as before.
  have hproc : ∀ p, who = some p → ∃ proc, st.procs[p]? = some proc ∧ st'.procs[p]? = some proc := by
    rintro p rfl
    obtain ⟨r, hr⟩ := Option.isSome_iff_exists.1 hgood.valid
    obtain ⟨proc, hp, -⟩ := Option.map_eq_some_iff.1 hr
    exact ⟨proc, hp, hprocs p proc hp⟩
  refine ⟨⟨htwins.kept, ?_⟩, rfl, fun i x hx => ?_, fun hwho i hi => ?_⟩
  · cases who with
    | none => rfl
    | some p =>
      obtain ⟨proc, -, hp'⟩ := hproc p rfl
      simp [Sys.cr3, hp']
  · have hkernel := hpaired.kernel i x
    rw [← hsound.owned.kernel] at hkernel
    show st'.mem.next st'.mem.kernelPml4 i = some x
    rw [hk]
    exact hkernel hx
  · obtain ⟨p, rfl⟩ := Option.ne_none_iff_exists'.1 hwho
    obtain ⟨proc, hp, hp'⟩ := hproc p rfl
    have hused := hsound.owned.typed.used _ _
      (hsound.owned.root _ (hsound.mem proc (List.mem_of_getElem? hp)))
    have hhalf := hpaired.halves proc.cr3
      (hpaired.status _ ⟨proc, List.mem_of_getElem? hp', rfl⟩).1 hused i hi
    simp only [Cpu.entry, Sys.cr3, hp, hp', Option.map_some, Option.bind_some, Mem.next, hhalf]

variable {e : Cpu.Event}

/-- **Process creation and heap growth.** -/
theorem Good.grows (h : Good s0 c) (he : e.Below47) (hne : ∀ next, e ≠ .schedule next)
    (hact : c.act e = some c') : Grows s0 c c' := by
  obtain ⟨lab, roots, hsound⟩ := h.kept
  have htwins := hsound.twins (.refl _) fun _ _ => rfl
  cases e with
  | createElf elfBuffer elf =>
    obtain ⟨st', hst', rfl⟩ := Option.map_eq_some_iff.1 hact
    have hdone := returned_eq_some hst'
    exact ((htwins.createElf he elfBuffer).ensures.apply hdone).grows
      (createElf_procs.apply hdone) h
  | heapExpand sizeNeeded =>
    obtain ⟨st', hst', rfl⟩ := Option.map_eq_some_iff.1 hact
    have hdone := returned_eq_some hst'
    exact ((htwins.heapExpand sizeNeeded).ensures.apply hdone).grows
      (heapExpand_procs.apply hdone) h
  | schedule next => exact absurd rfl (hne next)

/-- **A switch**: the incoming PML4 gets the upper half of the outgoing one. -/
structure Switched (s0 : Mem) (next : Option ℕ) (c c' : Cpu) : Prop where
  good : Good s0 c'
  entry : ∀ i : Fin 512, 256 ≤ i.val → c'.entry i = c.entry i
  kernel : ∀ i : Fin 512, 256 ≤ i.val →
    c'.kernelEntry i = if next = none then c.entry i else c.kernelEntry i

variable {next : Option ℕ}

theorem Good.switched (h : Good s0 c) (hact : c.act (.schedule next) = some c') :
    Switched s0 next c c' := by
  obtain ⟨lab, roots, hsound⟩ := h.kept
  obtain ⟨src, hsrc⟩ := Option.isSome_iff_exists.1 h.valid
  obtain ⟨dst, hdst⟩ : ∃ dst, c.sys.cr3 next = some dst := by
    cases hdst : c.sys.cr3 next with
    | none => simp [Cpu.act, hsrc, hdst] at hact
    | some dst => exact ⟨dst, rfl⟩
  simp only [Cpu.act, hsrc, hdst, Option.some.injEq] at hact
  subst hact
  have hk := (copyHalf_globals src dst c.sys.mem).kernelPml4
  have hnext : Sys.cr3 { c.sys with mem := copyHalf src dst c.sys.mem } next = some dst := by
    cases next with
    | none => exact (congrArg some hk).trans hdst
    | some p => exact hdst
  refine ⟨⟨hsound.copyHalf hsrc hdst, by rw [hnext]; rfl⟩, fun i hi => ?_, fun i hi => ?_⟩
  · simp only [Cpu.entry, hnext, hsrc, Option.bind_some, Mem.next, copyHalf_entry, true_and, hi,
      if_true]
  · simp only [Cpu.kernelEntry, Cpu.entry, hk, hsrc, Option.bind_some, Mem.next, copyHalf_entry, hi,
      and_true]
    cases next with
    | none =>
      obtain rfl : c.sys.mem.kernelPml4 = dst := Option.some.inj hdst
      rw [if_pos rfl, if_pos rfl]
    | some p =>
      have hne : c.sys.mem.kernelPml4 ≠ dst := by
        rintro rfl
        obtain ⟨proc, hp, hcr3⟩ := Option.map_eq_some_iff.1 hdst
        have hroot := hsound.owned.root _ (hsound.mem proc (List.mem_of_getElem? hp))
        rw [hcr3, hsound.owned.kernelRoot] at hroot
        cases hroot
      rw [if_neg hne, if_neg (Option.some_ne_none p)]

/-! ## Runs -/

theorem Good.act (h : Good s0 c) (he : e.Below47) (hact : c.act e = some c') : Good s0 c' := by
  by_cases hsched : ∃ next, e = .schedule next
  · obtain ⟨next, rfl⟩ := hsched
    exact (h.switched hact).good
  · exact (h.grows he (fun next heq => hsched ⟨next, heq⟩) hact).good

theorem Good.run (h : Good s0 c) (hes : ∀ e ∈ es, e.Below47) (hrun : Run Cpu.act c es c') :
    Good s0 c' :=
  hrun.invariant_of_forall (C := fun e _ => e.Below47) (fun _ _ _ he h hact => h.act he hact) h
    fun es1 e es2 _ heq _ => hes e (by rw [heq]; exact List.mem_append_right _ List.mem_cons_self)

/-- Entries stay in sync unless one is added away from the kernel's PML4. -/
theorem Cpu.Synced.act (hsync : c.Synced) (h : Good s0 c) (he : e.Below47)
    (hact : c.act e = some c') (hadd : ¬AddsAway c c') : c'.Synced := by
  intro i hi
  by_cases hsched : ∃ next, e = .schedule next
  · obtain ⟨next, rfl⟩ := hsched
    have hsw := h.switched hact
    rw [hsw.entry i hi, hsw.kernel i hi, hsync i hi, ite_self]
  · have hgrows := h.grows he (fun next heq => hsched ⟨next, heq⟩) hact
    cases hcur : c.current with
    | none =>
      rw [Cpu.entry, hgrows.current, hcur]
      rfl
    | some p =>
      rw [hgrows.running (by rw [hcur]; nofun) i hi, hsync i hi]
      cases hold : c.kernelEntry i with
      | some x => exact (hgrows.kernel i x hold).symm
      | none =>
        by_contra hnew
        exact hadd ⟨by rw [hcur]; nofun, i, hi, hold, fun hnone => hnew hnone.symm⟩

variable {es1 es2 es3 : List Cpu.Event}

/-- Before a switch, an orderly run is in sync. -/
theorem Orderly.synced {c'' : Cpu} (ho : Orderly c es) (h : Good s0 c) (hsync : c.Synced)
    (hes : ∀ e ∈ es, e.Below47) (heq : es = es1 ++ .schedule next :: es2)
    (hrun : Run Cpu.act c es1 c') (hact : c'.act (.schedule next) = some c'') : c'.Synced := by
  refine (hrun.invariant_of_forall (I := fun c => Good s0 c ∧ c.Synced)
    (C := fun e c => e.Below47 ∧ ∀ c', c.act e = some c' → ¬AddsAway c c')
    (fun e c c' hC hI hact => ⟨hI.1.act hC.1 hact, hI.2.act hI.1 hC.1 hact (hC.2 c' hact)⟩)
    ⟨h, hsync⟩ fun pre e post t hes1 hpre => ?_).2
  refine ⟨hes e (by simp [heq, hes1]), fun t' ht' => ?_⟩
  rw [hes1] at hrun
  exact ho pre e post next es2 t t' c'' (by simp [heq, hes1]) hpre ht'
    ((hrun.rest hpre ht').snoc _ hact)

/-- **Orderly runs lose nothing.** -/
theorem Orderly.neverLost (ho : Orderly c es) (h : Good s0 c) (hsync : c.Synced)
    (hes : ∀ e ∈ es, e.Below47) : NeverLost c es := by
  intro es1 es2 es3 c1 c2 heq hrun1 hrun2 i hi x hx
  induction hrun2 generalizing es3 with
  | nil =>
    refine ⟨hx, fun es next hnil => ?_⟩
    simp at hnil
  | @snoc c' c'' es' e hrun' hact ih =>
    obtain ⟨hkernel, -⟩ := ih (e :: es3) (by simpa using heq)
    have hrun : Run Cpu.act c (es1 ++ es') c' := hrun1.append hrun'
    have hgood : Good s0 c' := h.run (fun e' he' => hes e' (by
      rw [heq, ← List.append_assoc es1]
      exact List.mem_append_left _ (List.mem_append_left _ he'))) hrun
    by_cases hsched : ∃ next, e = .schedule next
    · obtain ⟨next, rfl⟩ := hsched
      have hsw := hgood.switched hact
      have hc' : c'.entry i = some x := by
        rw [ho.synced h hsync hes (by simpa using heq) hrun hact i hi, hkernel]
      refine ⟨?_, fun _ _ _ => by rw [hsw.entry i hi, hc']; rfl⟩
      rw [hsw.kernel i hi, hc', hkernel, ite_self]
    · have hgrows := hgood.grows (hes e (by simp [heq])) (fun next h => hsched ⟨next, h⟩) hact
      refine ⟨hgrows.kernel i x hkernel, fun es next hlast => ?_⟩
      obtain ⟨-, hlast⟩ := List.append_inj' hlast rfl
      exact absurd ⟨next, List.singleton_inj.1 hlast⟩ hsched

/-- An entry that the PML4 in use lacks is not given to it: the kernel's PML4, which has it, is not
the one in use. -/
theorem NeverLost.entry_eq_none {c1 c2 : Cpu} {i : Fin 512} {x : ℕ} (hnl : NeverLost c es)
    (hes : ∀ e ∈ es, e.Below47) (heq : es = es1 ++ es2 ++ es3) (hrun1 : Run Cpu.act c es1 c1)
    (h : Good s0 c1) (hrun2 : Run Cpu.act c1 es2 c2) (hi : 256 ≤ i.val)
    (hx : c1.kernelEntry i = some x) (hlack : c1.entry i = none) : c2.entry i = none := by
  induction hrun2 generalizing es3 with
  | nil => exact hlack
  | @snoc c' c'' es' e hrun' hact ih =>
    have hsplit : es = es1 ++ es' ++ e :: es3 := by simpa using heq
    have hc' := ih hsplit
    have hkernel := (hnl es1 es' _ c1 c' hsplit hrun1 hrun' i hi x hx).1
    have hgood : Good s0 c' := h.run (fun e' he' => hes e' (by
      rw [hsplit]
      exact List.mem_append_left _ (List.mem_append_right _ he'))) hrun'
    by_cases hsched : ∃ next, e = .schedule next
    · obtain ⟨next, rfl⟩ := hsched
      rw [(hgood.switched hact).entry i hi, hc']
    · have hcur : c'.current ≠ none := fun hcur => by
        rw [Cpu.entry, hcur] at hc'
        exact absurd (hkernel.symm.trans hc') nofun
      have hgrows := hgood.grows (hes e (by simp [hsplit])) (fun next h => hsched ⟨next, h⟩) hact
      rw [hgrows.running hcur i hi, hc']

/-- **An addition away from the kernel's PML4 is lost** at the next switch. -/
theorem NeverLost.not_addsAway {c1 c2 c3 : Cpu} (hnl : NeverLost c es) (h : Good s0 c1)
    (hsync : c1.Synced) (hes : ∀ e ∈ es, e.Below47)
    (heq : es = es1 ++ e :: (es2 ++ .schedule next :: es3)) (hrun1 : Run Cpu.act c es1 c1)
    (hact : c1.act e = some c2) (hrun2 : Run Cpu.act c2 (es2 ++ [.schedule next]) c3) :
    ¬AddsAway c1 c2 := by
  rintro ⟨haway, i, hi, hnone, hnew⟩
  obtain ⟨x, hx⟩ := Option.ne_none_iff_exists'.1 hnew
  have he : e.Below47 := hes e (by simp [heq])
  have hlack : c2.entry i = none := by
    by_cases hsched : ∃ next, e = .schedule next
    · obtain ⟨next, rfl⟩ := hsched
      rw [(h.switched hact).entry i hi, hsync i hi, hnone]
    · have hgrows := h.grows he (fun next heq => hsched ⟨next, heq⟩) hact
      rw [hgrows.running haway i hi, hsync i hi, hnone]
  have hsplit : es = es1 ++ [e] ++ (es2 ++ [.schedule next]) ++ es3 := by simp [heq]
  have hbefore : Run Cpu.act c (es1 ++ [e]) c2 := hrun1.snoc e hact
  have hsome := (hnl _ _ _ c2 c3 hsplit hbefore hrun2 i hi x hx).2 es2 next rfl
  rw [hnl.entry_eq_none hes hsplit hbefore (h.act he hact) hrun2 hi hx hlack] at hsome
  cases hsome

/-- The table in frame `f` for the 512 frames from `512 * f` on. -/
def tableAt (f : ℕ) : Page := fun o =>
  UInt8.ofNat (((512 * f + o.val / 8) * 4096 + 3) / 2 ^ (8 * (o.val % 8)))

/-- The levels of the frames below entry 320: a table, 512 of them, `2 ^ 18`, and `2 ^ 27` pages. -/
def slotLevel (f : ℕ) : Option ℕ :=
  if f = 1 then some 3 else if f / 2 ^ 9 = 1 then some 2 else if f / 2 ^ 18 = 1 then some 1
  else if f / 2 ^ 27 = 1 then some 0 else none

/-- The heap has used up what entry 320 of `kernel_pml4`, in frame 2, covers; all of it is one free
block. -/
def fullSlot : Mem :=
  ((({ manyFrames with
        phys := fun f => if f = 2 then Page.zero.setEntry 320 (.ofRaw (4096 + 3))
          else if 0 < (slotLevel f).getD 0 then tableAt f else Page.zero
        pmm := {
          bitmap := fun b => if b = 0 then 7 else if (slotLevel (8 * b)).isSome then 255 else 0
          totalPages := 2 ^ 28
          usedPages := 3 + 512 + 262144 + 134217728 }
        kernelPml4 := 2
        heapCurrentLimit := kernelHeapStart + 2 ^ 39 }.setSize kernelHeapStart
      (2 ^ 39 - headerSize)).setIsFree kernelHeapStart true).setNext kernelHeapStart 0).setFreeList
    kernelHeapStart

variable {f k g : ℕ}

theorem slotLevel_eq (hf : slotLevel f = some k) :
    k = 3 ∧ f = 1 ∨ k = 2 ∧ f / 2 ^ 9 = 1 ∨ k = 1 ∧ f / 2 ^ 18 = 1 ∨ k = 0 ∧ f / 2 ^ 27 = 1 := by
  unfold slotLevel at hf
  split_ifs at hf with h1 h9 h18 h27 <;> cases hf
  · exact .inl ⟨rfl, h1⟩
  · exact .inr (.inl ⟨rfl, h9⟩)
  · exact .inr (.inr (.inl ⟨rfl, h18⟩))
  · exact .inr (.inr (.inr ⟨rfl, h27⟩))

theorem entry_tableAt (f : ℕ) (i : Fin 512) (hf : f < 2 ^ 20) :
    (tableAt f).entry i = .ofRaw ((512 * f + i) * 4096 + 3) := by
  have hbyte : ∀ k, tableAt f (Page.byteIn i k) =
      Page.zero.setWord i ((512 * f + i) * 4096 + 3) (Page.byteIn i k) := fun k => by
    rw [Page.setWord_byteIn, if_pos rfl]
    simp only [tableAt, Page.byteIn]
    congr 5 <;> omega
  rw [Page.entry, ← Page.word_setWord_self Page.zero i (w := (512 * f + i) * 4096 + 3) (by omega)]
  simp only [Page.word, hbyte]

theorem fullSlot_next_two {i : Fin 512} (hg : fullSlot.next 2 i = some g) : i = 320 ∧ g = 1 := by
  have hentry : fullSlot.entry 2 i = (Page.zero.setEntry 320 (.ofRaw (4096 + 3))).entry i := rfl
  rw [Mem.next, hentry] at hg
  by_cases hi : i = 320
  · rw [hi, Page.entry_setEntry_self] at hg
    exact ⟨hi, (Option.some.inj hg).symm⟩
  · rw [Page.entry_setEntry_of_ne _ _ hi, Page.entry_zero] at hg
    cases hg

theorem fullSlot_next_table {i : Fin 512} (hf : slotLevel f = some k) (hk : 0 < k) (h2 : f ≠ 2)
    (hg : fullSlot.next f i = some g) : g = 512 * f + i := by
  have hlt : f < 2 ^ 20 := by
    have := slotLevel_eq hf
    omega
  have hentry : fullSlot.entry f i = .ofRaw ((512 * f + i) * 4096 + 3) := by
    rw [← entry_tableAt f i hlt, Mem.entry]
    show Page.entry (if f = 2 then _ else if 0 < (slotLevel f).getD 0 then _ else _) i = _
    rw [if_neg h2, hf, Option.getD_some, if_pos hk]
  rw [Mem.next, hentry] at hg
  split_ifs at hg
  rw [← Option.some.inj hg]
  show ((512 * f + i) * 4096 + 3) / 2 ^ 12 % 2 ^ 40 = 512 * f + i
  omega

/-- A table of one level leads to frames of the next one. -/
theorem slotLevel_next (hf : slotLevel f = some k) (hk : 0 < k) (i : Fin 512) :
    slotLevel (512 * f + i) = some (k - 1) := by
  unfold slotLevel
  rcases slotLevel_eq hf with ⟨rfl, hf⟩ | ⟨rfl, hf⟩ | ⟨rfl, hf⟩ | ⟨rfl, -⟩
  · rw [if_neg (by omega), if_pos (by omega)]
  · rw [if_neg (by omega), if_neg (by omega), if_pos (by omega)]
  · rw [if_neg (by omega), if_neg (by omega), if_neg (by omega), if_pos (by omega)]
  · omega

/-- The levels change at whole bytes of the bitmap. -/
theorem slotLevel_byte (hf : slotLevel f = some k) (h8 : f / 8 ≠ 0) :
    slotLevel (8 * (f / 8)) = some k := by
  unfold slotLevel
  rcases slotLevel_eq hf with ⟨rfl, hf⟩ | ⟨rfl, hf⟩ | ⟨rfl, hf⟩ | ⟨rfl, hf⟩
  · omega
  · rw [if_neg (by omega), if_pos (by omega)]
  · rw [if_neg (by omega), if_neg (by omega), if_pos (by omega)]
  · rw [if_neg (by omega), if_neg (by omega), if_neg (by omega), if_pos (by omega)]

theorem fullSlot_memory : fullSlot.pmm.totalPages ≤ 2 ^ 33 := by
  show 2 ^ 28 ≤ 2 ^ 33
  decide

/-- **The frames are there**: every table and page of the heap has one of its own. -/
theorem fullSlot_boot :
    Boot fullSlot fun f => if f = 2 then some (none, 4) else (slotLevel f).map (none, ·) where
  typed := by
    refine ⟨fun f l i l' g hf hl hg => ?_, fun f l hf => ?_⟩
    · split_ifs at hf with h2
      · cases hf
        rw [h2] at hg
        obtain ⟨rfl, rfl⟩ := fullSlot_next_two hg
        exact hl
      · obtain ⟨k, hk, rfl⟩ := Option.map_eq_some_iff.1 hf
        obtain ⟨hpos, rfl⟩ : 0 < k ∧ (none, k - 1) = l' := by
          have h4 : k ≠ 4 := by
            have := slotLevel_eq hk
            omega
          simp only [ownerScheme, h4, if_false] at hl
          split_ifs at hl with hpos
          exact ⟨hpos.1, Option.some.inj hl⟩
        have hnext := slotLevel_next hk hpos i
        rw [← fullSlot_next_table hk hpos h2 hg] at hnext
        have hne : g ≠ 2 := by
          have := slotLevel_eq hnext
          omega
        rw [if_neg hne, hnext]
        rfl
    · show ((if f / 8 = 0 then 7 else if (slotLevel (8 * (f / 8))).isSome then 255 else 0) :
        BitVec 8).getLsbD (f % 8) = true
      split_ifs at hf with h2
      · rw [h2]
        rfl
      · obtain ⟨k, hk, -⟩ := Option.map_eq_some_iff.1 hf
        by_cases h8 : f / 8 = 0
        · obtain rfl : f = 1 := by
            have := slotLevel_eq hk
            omega
          rfl
        · rw [if_neg h8, slotLevel_byte hk h8, Option.isSome_some, if_pos rfl]
          exact (by decide : ∀ j < 8, (255 : BitVec 8).getLsbD j = true) _ (Nat.mod_lt _ (by decide))
  owner f o k hf := by
    split_ifs at hf
    · exact (Prod.mk.inj (Option.some.inj hf)).1.symm
    · obtain ⟨_, -, heq⟩ := Option.map_eq_some_iff.1 hf
      exact (Prod.mk.inj heq).1.symm
  root := rfl
  null := rfl
  direct i f _ hslot hf := by
    obtain ⟨g, is, hg, -⟩ := hf
    obtain ⟨rfl, -⟩ := fullSlot_next_two hg
    exact absurd (show HeapSlot 320 by decide) hslot
  start := Nat.le_add_right kernelHeapStart (2 ^ 39)
  room := room_of_memory (Nat.le_refl (kernelHeapStart + 2 ^ 39)) fullSlot_memory
  memory := fullSlot_memory

/-- A process runs while the heap grows into entry 321. -/
def heapGrowsAway : List Cpu.Event := [.createElf 0 twoSegments, .schedule (some 0), .heapExpand 0]

end Hvos.Process
