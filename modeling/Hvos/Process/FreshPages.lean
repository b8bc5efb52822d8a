import Hvos.Process.Isolation

/-!
# Process/FreshPages — what a process finds in the pages it is given

Two runs that start in memories which differ in free frames only.  What a process finds in its
lower half is the same in both iff none of its pages was free at the start: `sys_alloc_pages`, the
stack of `create_elf_process` and the stack growth of `page_fault_handler_c` map frames as
`pmm_alloc` returns them.
-/

namespace Hvos.Process

open Memory Prog

/-! ## Two runs -/

/-- The memories differ at most in what free frames hold. -/
def SameButFree (s t : Mem) : Prop :=
  Beside s t ∧ ∀ f, ¬s.pmm.Free f → t.phys f = s.phys f

/-- The byte of a process at `v`, if a page is mapped there. -/
def userByte (s : Mem) (p : Proc) (v : ℕ) : Option UInt8 :=
  (s.walk p.cr3 v).map fun e => s.phys e.address.val (Fin.ofNat _ v)

/-- The processes are the same, and so is every byte behind entries 0..255 of their PML4s. -/
def SamePages (st st' : Sys) : Prop :=
  st'.procs = st.procs ∧ ∀ p ∈ st.procs, ∀ v, (pml4Index v).val < 256 →
    userByte st'.mem p v = userByte st.mem p v

/-- **Fresh pages leak nothing.** -/
def NoLeak (st : Sys) (es : List Event) : Prop :=
  ∀ b, SameButFree st.mem b → SamePages (run es st).state (run es { st with mem := b }).state

/-- The operations that give a process pages. -/
def Event.GivesPages : Event → Prop
  | .createElf _ _ => True
  | .allocPages _ _ => True
  | .pageFault _ _ _ => True
  | _ => False

variable {s0 b s t : Mem} {lab : ℕ → Option Label} {roots : List ℕ} {watched : Set ℕ}
  {most r v : ℕ} {a m m' st st' : Sys} {e : Event} {es es1 es2 : List Event}

/-- **The two runs stay together.** -/
theorem Twins.run (h : Twins s0 a b st st') (hes : ∀ e ∈ es, e.GivesPages ∧ e.Below47) :
    Twin (run es) st st' (fun _ => Twins s0 a b) (Twins s0 a b) := by
  induction es generalizing st st' with
  | nil => exact twin_pure h
  | cons e es ih =>
    have hrest : ∀ e ∈ es, e.GivesPages ∧ e.Below47 := fun e' he' =>
      hes e' (List.mem_cons_of_mem e he')
    have hstep : Twin (step e) st st' (fun _ => Twins s0 a b) (Twins s0 a b) := by
      obtain ⟨hgives, hlow⟩ := hes e List.mem_cons_self
      cases e with
      | createElf elfBuffer elf => exact h.createElf hlow elfBuffer
      | allocPages p pages => exact h.allocPages p pages
      | pageFault p errorCode cr2 => exact h.pageFault p errorCode cr2
      | _ => cases hgives
    exact hstep.bind fun _ _ _ h' => ih h' hrest

/-- Walks through a lower half are the same in both memories. -/
theorem Paired.walk_eq (h : Paired s0 a b most roots watched lab s t) (hr : r ∈ roots)
    (hv : (pml4Index v).val < 256) : t.walk r v = s.walk r v :=
  h.owned.walk_congr (fun f l hf hl => Mem.entry_congr (h.alike.tables f l hf hl)) hr hv

/-! ## Both directions -/

/-- No page of a process was free at the start. -/
def NoneFree (a : Mem) (st : Sys) : Prop :=
  ∀ p ∈ st.procs, ∀ v e, (pml4Index v).val < 256 → st.mem.walk p.cr3 v = some e →
    ¬a.pmm.Free e.address.val

/-- Pages that were not free hold the same bytes. -/
theorem Twins.samePages (h : Twins s0 a b st st') (hnone : NoneFree a.mem st) :
    SamePages st st' := by
  obtain ⟨roots, lab, hpaired⟩ := h.both
  refine ⟨h.procs, fun p hp v hv => ?_⟩
  have hin := (hpaired.status _ ⟨p, hp, rfl⟩).1
  unfold userByte
  rw [hpaired.walk_eq hin hv]
  cases hwalk : st.mem.walk p.cr3 v with
  | none => rfl
  | some e => rw [Option.map_some, Option.map_some, hpaired.equal _ (hnone p hp v e hv hwalk)]

/-- At the start there is no such page. -/
theorem Kept.noneFree (h : Kept s0 st) : NoneFree st.mem st := by
  obtain ⟨lab, roots, hsound⟩ := h
  intro p hp v e hv hwalk
  exact hsound.owned.typed.not_free (hsound.owned.walk_low (hsound.mem p hp) hv hwalk)

/-- …and none later as long as each process maps what it mapped at the start. -/
theorem Kept.noneFree_of_settled (h : Kept s0 a) (hall : ∀ p ∈ st.procs, Settled a st.mem p.cr3) :
    NoneFree a.mem st := fun p hp v e hv hwalk => by
  obtain ⟨⟨q, hq, hcr3⟩, hwalks⟩ := hall p hp
  rw [hwalks v hv, ← hcr3] at hwalk
  exact h.noneFree q hq v e hv hwalk

/-- **A page that was free shows what its frame held**, if every byte of a free frame is another. -/
theorem Twins.noneFree (h : Twins s0 a b st st') (hkept : Kept s0 a) (hsame : SamePages st st')
    (hother : ∀ f, a.mem.pmm.Free f → ∀ i, b.phys f i ≠ a.mem.phys f i) : NoneFree a.mem st := by
  obtain ⟨roots, lab, hpaired⟩ := h.both
  refine hkept.noneFree_of_settled fun p hp => ?_
  obtain ⟨hin, hraw | hsettled⟩ := hpaired.status _ ⟨p, hp, rfl⟩
  · obtain ⟨v, e, hv, hwalk, hfree, hs, ht⟩ := hraw
    have hbyte := hsame.2 p hp v hv
    unfold userByte at hbyte
    rw [hpaired.walk_eq hin hv, hwalk, Option.map_some, Option.map_some, hs, ht] at hbyte
    exact absurd (Option.some.inj hbyte) (hother _ hfree _)
  · exact hsettled

open Classical in
/-- Memory in which every byte of a free frame is another. -/
noncomputable def otherBytes (s : Mem) : Mem :=
  { s with phys := fun f => if s.pmm.Free f then fun i => s.phys f i + 1 else s.phys f }

theorem SameButFree.refl (s : Mem) : SameButFree s s := ⟨.refl s, fun _ _ => rfl⟩

theorem sameButFree_otherBytes (s : Mem) : SameButFree s (otherBytes s) :=
  ⟨rfl, fun _ hf => if_neg hf⟩

theorem otherBytes_ne {f : ℕ} (hf : s.pmm.Free f) (i : Fin 4096) :
    (otherBytes s).phys f i ≠ s.phys f i := by
  have hbyte : (otherBytes s).phys f = fun i => s.phys f i + 1 := if_pos hf
  rw [hbyte]
  intro heq
  simp at heq

/-- The ends of two runs. -/
theorem twins_of_kept (h : Kept s0 st) (hes : ∀ e ∈ es, e.GivesPages ∧ e.Below47)
    (hb : SameButFree st.mem b) :
    Twins s0 st b (run es st).state (run es { st with mem := b }).state := by
  obtain ⟨lab, roots, hsound⟩ := h
  exact ((hsound.twins hb.1 hb.2).run hes).state

/-- One process, made at boot. -/
def oneProcess : Sys := (run [.createElf 0 twoSegments] ⟨manyFrames, []⟩).state

theorem oneProcess_kept : Kept manyFrames oneProcess := by
  refine (manyFrames_boot.kept.run fun e he => ?_).state
  rw [List.mem_singleton.1 he]
  exact twoSegments_below47

/-- A file that is not ELF is turned down before anything is mapped. -/
theorem run_notElf (st : Sys) : (run [.createElf 0 fun _ => 0] st).state = st := by
  have hmagic : ElfFile.eIdent (fun _ => 0) ≠ elfMagic := by decide
  simp [run, step, onMem, createElfProcess, loadElfBinary, hmagic, Mem.kfree, Outcome.state]

/-- `manyFrames`, with a 1 in every byte of its free frames. -/
def manyOnes : Mem :=
  { manyFrames with phys := fun f => if 2 ≤ f ∧ f < 128 then fun _ => 1 else Page.zero }

theorem sameButFree_manyOnes : SameButFree manyFrames manyOnes := by
  have hfree : ∀ f < 128, 2 ≤ f → manyFrames.pmm.bitmapTest f = false := by decide +kernel
  refine ⟨rfl, fun f hf => if_neg fun hin => hf ⟨by omega, hin.2, hfree f hin.2 hin.1⟩⟩

/-- Frames only become used. -/
theorem Twins.free (h : Twins s0 a b st st') {f : ℕ} (hf : st.mem.pmm.Free f) :
    a.mem.pmm.Free f := by
  obtain ⟨roots, lab, hpaired⟩ := h.both
  exact (hpaired.free f hf).1

theorem Twins.settled (h : Twins s0 a b st st') (hnone : NoneFree a.mem st) :
    ∀ p ∈ st.procs, Settled a st.mem p.cr3 := by
  obtain ⟨roots, lab, hpaired⟩ := h.both
  intro p hp
  refine (hpaired.status _ ⟨p, hp, rfl⟩).2.resolve_left ?_
  rintro ⟨v, e, hv, hwalk, hfree, -, -⟩
  exact hnone p hp v e hv hwalk hfree

/-- **From every point of the run on**, no process is made and none maps anything. -/
theorem settled_of_noneFree (h : Kept s0 st) (hes : ∀ e ∈ es1 ++ es2, e.GivesPages ∧ e.Below47)
    (hrun : run es1 st = .done () m) (hnone : NoneFree st.mem (run (es1 ++ es2) st).state) :
    m.spaces ⊆ (run (es1 ++ es2) st).state.spaces ∧
      ∀ p ∈ (run (es1 ++ es2) st).state.procs,
        Settled m (run (es1 ++ es2) st).state.mem p.cr3 := by
  have hes1 := fun e he => hes e (List.mem_append_left es2 he)
  have hend : run (es1 ++ es2) st = run es2 m := by rw [run_append, bind_apply, hrun]
  rw [hend] at hnone ⊢
  have hfirst := twins_of_kept h hes1 (.refl st.mem)
  rw [hrun] at hfirst
  have hkept : Kept s0 m := (h.run fun e he => (hes1 e he).2).apply hrun
  have hrest := twins_of_kept hkept (fun e he => hes e (List.mem_append_right es1 he)) (.refl m.mem)
  exact ⟨hrest.more, hrest.settled fun p hp v e hv hwalk hfree =>
    hnone p hp v e hv hwalk (hfirst.free hfree)⟩

/-- **A step that makes a process, or maps something for one, breaks it**, whatever comes before and
after. -/
theorem not_noneFree_of_step (h : Kept s0 st)
    (hes : ∀ x ∈ es1 ++ e :: es2, x.GivesPages ∧ x.Below47) (hrun : run es1 st = .done () m)
    (hstep : step e m = .done () m') {p : Proc} (hp : p ∈ m'.procs)
    (hnew : ¬Settled m m'.mem p.cr3) : ¬NoneFree st.mem (run (es1 ++ e :: es2) st).state := by
  intro hnone
  obtain ⟨-, hm⟩ := settled_of_noneFree h hes hrun hnone
  have hrun' : run (es1 ++ [e]) st = .done () m' := by
    simp only [run_append, bind_apply, hrun, run, hstep, pure_apply]
  rw [List.append_cons] at hm hes hnone
  obtain ⟨hmore, hm'⟩ := settled_of_noneFree h hes hrun' hnone
  obtain ⟨q, hq, hcr3⟩ := hmore ⟨p, hp, rfl⟩
  rw [← hcr3] at hnew
  exact hnew ⟨(hm q hq).1, fun v hv => ((hm' q hq).2 v hv).symm.trans ((hm q hq).2 v hv)⟩

/-- **A page that `sys_alloc_pages` or a stack fault maps.** -/
theorem not_noneFree_of_mapped (h : Kept s0 st)
    (hes : ∀ x ∈ es1 ++ e :: es2, x.GivesPages ∧ x.Below47) (hrun : run es1 st = .done () m)
    (hstep : step e m = .done () m') {p : Proc} (hp : p ∈ m'.procs) (hv : (pml4Index v).val < 256)
    (hmap : m'.mem.walk p.cr3 v ≠ m.mem.walk p.cr3 v) :
    ¬NoneFree st.mem (run (es1 ++ e :: es2) st).state :=
  not_noneFree_of_step h hes hrun hstep hp fun hsettled => hmap (hsettled.2 v hv)

/-- **A `create_elf_process` that succeeds.** -/
theorem not_noneFree_of_createElf (h : Kept s0 st) {elfBuffer : ℕ} {elf : ElfFile} {proc : Proc}
    (hes : ∀ e ∈ es1 ++ .createElf elfBuffer elf :: es2, e.GivesPages ∧ e.Below47)
    (hrun : run es1 st = .done () m)
    (hcreate : createElfProcess elfBuffer elf m.mem = .done (some proc) s) :
    ¬NoneFree st.mem (run (es1 ++ .createElf elfBuffer elf :: es2) st).state := by
  have hstep : step (.createElf elfBuffer elf) m = .done () ⟨s, m.procs ++ [proc]⟩ := by
    simp only [step, onMem, bind_apply, hcreate, modify_apply]
  have hkept : Kept s0 m :=
    (h.run fun e he => (hes e (List.mem_append_left _ he)).2).apply hrun
  obtain ⟨lab, roots, hsound⟩ :=
    (hkept.step (hes (.createElf elfBuffer elf) (by simp)).2).apply hstep
  refine not_noneFree_of_step h hes hrun hstep (p := proc) (by simp) ?_
  rintro ⟨⟨q, hq, hcr3⟩, -⟩
  have hdistinct := hsound.distinct
  rw [List.map_append, List.nodup_append] at hdistinct
  exact hdistinct.2.2 _ (List.mem_map_of_mem hq) _ (List.mem_singleton_self _) hcr3

end Hvos.Process
