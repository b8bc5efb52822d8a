import Hvos.Lib.Runs
import Hvos.Machine.Yield

/-!
# Machine/Gs — which GS base is active while the kernel runs

`swapgs` exchanges the active base with the hidden one, so each path into the kernel and out of it
has to decide whether to execute it:

    syscall_entry_asm    always, in and out
    pit_interrupt        in: `[rsp + 8]`, the interrupted `cs`     out: `[rsp + 128]`, the saved `cs`
    scheduler_isr_asm    in: `[rsp + 8]`, the interrupted `cs`     out: `[rsp + 8]`, the saved `rbx`
    kernel_yield         out: as `pit_interrupt`
    keyboard_interrupt   never

`Parity` is what they are meant to keep over all threads: the user's base in user mode, the kernel's
while the kernel's C code runs.  `parity_iff` says which runs do.
-/

namespace Hvos.Machine.Gs

open X86

/-! ## Bases -/

/-- The active GS base, and the one in `IA32_KERNEL_GS_BASE`. -/
@[ext] structure Bases (α : Type) where
  active : α
  hidden : α

/-- `swapgs`. -/
def Bases.swapgs {α : Type} (b : Bases α) : Bases α := ⟨b.hidden, b.active⟩

/-- `swapgs`, or a jump over it. -/
def Bases.swapgsIf {α : Type} (swap : Bool) (b : Bases α) : Bases α := if swap then b.swapgs else b

/-! ## Frames -/

/-- What an entry path leaves on the stack. -/
structure Frame where
  reg : Reg → Word
  rip : Word
  cs : Word
  rflags : Word
  rsp : Word
  ss : Word

/-- The five slots the processor pushes, lowest address first. -/
def Frame.iretSlots (f : Frame) : List Word := [f.rip, f.cs, f.rflags, f.rsp, f.ss]

/-- All twenty slots. -/
def Frame.slots (f : Frame) : List Word := restoredRegs.map f.reg ++ f.iretSlots

/-- `test qword [rsp + disp], 3` finds a bit. -/
def testSlot (slots : List Word) (disp : ℕ) : Bool := slots.getD (disp / 8) 0#64 &&& 3#64 != 0#64

theorem testSlot_iretSlots (f : Frame) : testSlot f.iretSlots 8 = (f.cs &&& 3#64 != 0#64) := rfl

theorem testSlot_slots_cs (f : Frame) : testSlot f.slots 128 = (f.cs &&& 3#64 != 0#64) := rfl

/-! ## The instructions -/

/-- The bases of a processor. -/
def cpuBases (c : Cpu) : Bases Word := ⟨c.gsBase, c.kernelGsBase⟩

/-- The entry of `pit_interrupt` and of `scheduler_isr_asm`. -/
def entryPath : List Instr :=
  [.testMem .rsp 8#64 3#64, .jz 1, .swapgs] ++ savedRegs.map .push

/-- `scheduler_isr_asm`, from the new stack pointer on. -/
def schedulerIsrExit : List Instr :=
  [.testMem .rsp 8#64 3#64, .jz 1, .swapgs] ++ restoredRegs.map .pop ++ [.sti, .iretq]

theorem getLsbD_putBit (f : Word) {i j : ℕ} (hj : j < 64) (b : Bool) :
    (putBit f i b).getLsbD j = if j = i then b else f.getLsbD j := by
  have hone : (1#64 <<< i).getLsbD j = decide (j = i) := by
    rw [BitVec.getLsbD_shiftLeft, BitVec.getLsbD_one]
    by_cases hij : j = i
    · simp [hij, hij ▸ hj]
    · have hsub : ¬(¬j < i ∧ j - i = 0) := by omega
      simpa [hij, hj] using hsub
  unfold putBit
  cases b
  · simp only [Bool.false_eq_true, if_false, BitVec.getLsbD_and, BitVec.getLsbD_not, hj, hone]
    by_cases hij : j = i <;> simp [hij]
  · simp only [if_true, BitVec.getLsbD_or, hone]
    by_cases hij : j = i <;> simp [hij]

/-- The zero flag after `test`. -/
theorem zf_testMem (c : Cpu) (base : Reg) (disp imm : Word) :
    (c.exec (.testMem base disp imm)).zf = (c.mem (c.reg base + disp) &&& imm == 0) := by
  have hsix : 6 < 64 := by decide
  simp only [Cpu.zf, Cpu.exec, testFlags, getLsbD_putBit _ hsix]
  rfl

/-- Neither a jump nor `swapgs`. -/
def keepsBases : Instr → Bool
  | .jz _ => false
  | .swapgs => false
  | _ => true

theorem cpuBases_run {is : List Instr} (h : is.all keepsBases = true) (c : Cpu) :
    cpuBases (c.run is) = cpuBases c := by
  induction is generalizing c with
  | nil => rfl
  | cons i is ih =>
    obtain ⟨hi, his⟩ := Bool.and_eq_true_iff.1 (List.all_cons ▸ h)
    cases i with
    | jz n => exact absurd hi Bool.false_ne_true
    | swapgs => exact absurd hi Bool.false_ne_true
    | _ => exact ih his _

/-- **A test of a slot in front of `swapgs`.** -/
theorem cpuBases_testSwap {is : List Instr} (h : is.all keepsBases = true) {c : Cpu} {vs : List Word}
    (hvs : StackAt c vs) {i : ℕ} (hi : i < vs.length) {disp : Word}
    (hd : disp = BitVec.ofNat 64 (8 * i)) :
    cpuBases (c.run ([.testMem .rsp disp 3#64, .jz 1, .swapgs] ++ is)) =
      (cpuBases c).swapgsIf (testSlot vs (8 * i)) := by
  set c1 := c.exec (.testMem .rsp disp 3#64)
  have hrun : c.run ([.testMem .rsp disp 3#64, .jz 1, .swapgs] ++ is) =
      if c1.zf then c1.run is else (c1.exec .swapgs).run is := rfl
  have hzf : c1.zf = !testSlot vs (8 * i) := by
    rw [zf_testMem, hvs.get hi hd, testSlot, Nat.mul_div_cancel_left i (by decide),
      List.getD_eq_getElem?_getD, List.getElem?_eq_getElem hi, Option.getD_some, bne, Bool.not_not]
    rfl
  rw [hrun, hzf]
  cases testSlot vs (8 * i)
  · exact cpuBases_run h c1
  · exact cpuBases_run h (c1.exec .swapgs)

variable {f : Frame}

theorem cpuBases_entryPath {c : Cpu} (h : StackAt c f.iretSlots) :
    cpuBases (c.run entryPath) = (cpuBases c).swapgsIf (testSlot f.iretSlots 8) :=
  cpuBases_testSwap rfl h (i := 1) (by simp [Frame.iretSlots]) rfl

theorem cpuBases_pitInterruptExit {c : Cpu} (h : StackAt c f.slots) :
    cpuBases (c.run pitInterruptExit) = (cpuBases c).swapgsIf (testSlot f.slots 128) :=
  cpuBases_testSwap rfl h (i := 16) (by simp [Frame.slots, Frame.iretSlots, restoredRegs]) rfl

theorem cpuBases_schedulerIsrExit {c : Cpu} (h : StackAt c f.slots) :
    cpuBases (c.run schedulerIsrExit) = (cpuBases c).swapgsIf (testSlot f.slots 8) :=
  cpuBases_testSwap rfl h (i := 1) (by simp [Frame.slots, Frame.iretSlots, restoredRegs]) rfl

/-! ## Threads -/

/-- Whose base it is. -/
inductive Base
  | user
  | kernel
  deriving DecidableEq

/-- What a thread executes.  `sysret` is the last instruction of `syscall_entry_asm`: its `sti` lets
interrupts in after the `swapgs` that follows it. -/
inductive Code
  | user
  | kernelThread
  | syscallHandler
  | keyboardHandler
  | sysret
  deriving DecidableEq

/-- `__USER_CS | 3` or `__KERNEL_CS`. -/
def Code.cs : Code → Word
  | .user => 0x23#64
  | _ => 0x08#64

/-- `kernel_yield` is called by C code of the kernel. -/
def Code.yields : Code → Bool
  | .user => false
  | .sysret => false
  | _ => true

/-- A thread that does not run: what it was executing, innermost first, and the frame at `k_rsp`. -/
structure Thread where
  codes : List Code
  frame : Frame

/-- `new_elf_thread`. -/
def newElfThread (rip ustack : Word) : Thread :=
  ⟨[.user], ⟨fun _ => 0#64, rip, 0x23#64, 0x202#64, ustack, 0x1b#64⟩⟩

/-- `new_kernel_thread`. -/
def newKernelThread (rip kstack : Word) : Thread :=
  ⟨[.kernelThread], ⟨fun _ => 0#64, rip, 0x08#64, 0x202#64, kstack, 0x10#64⟩⟩

/-- The processor's bases, what the current thread executes, and the other threads. -/
structure State where
  gs : Bases Base
  running : List Code
  current : ℕ
  saved : ℕ → Option Thread

/-- The code that runs. -/
def State.code (s : State) : Option Code := s.running.head?

/-- The frame of an interrupt in `c`. -/
def Frame.interrupt (f : Frame) (c : Code) : Frame := { f with cs := c.cs }

/-- The bases after the entry of `pit_interrupt` or of `scheduler_isr_asm`. -/
def State.entered (s : State) (f : Frame) : State :=
  match s.code with
  | none => s
  | some c => { s with gs := s.gs.swapgsIf (testSlot (f.interrupt c).iretSlots 8) }

/-- `current_thread->k_rsp = old_rsp`. -/
def State.suspend (s : State) (f : Frame) : State :=
  match s.code with
  | none => s
  | some c => { s with
      saved := Function.update s.saved s.current (some ⟨s.running, f.interrupt c⟩) }

/-- The way out with the frame of thread `next`, past a test of `[rsp + disp]`. -/
def State.resume (s : State) (next disp : ℕ) : Option State :=
  (s.saved next).map fun t =>
    { s with
      gs := s.gs.swapgsIf (testSlot t.frame.slots disp)
      running := t.codes
      current := next }

/-- The ways into the kernel and out of it.  An interrupt comes with the frame its entry pushes, and
a switch with the thread that `schedule` chooses. -/
inductive Event
  | syscall
  | syscallReturn
  | sysret
  | pit (f : Frame)
  | keyboard
  | keyboardReturn
  | kernelYield (f : Frame) (next : ℕ)
  | schedulerIsr (f : Frame) (next : ℕ)

/-- One event, where it can happen. -/
def step (e : Event) (s : State) : Option State :=
  match e, s.running with
  | .syscall, .user :: cs =>
    some { s with gs := s.gs.swapgs, running := .syscallHandler :: .user :: cs }
  | .syscallReturn, .syscallHandler :: cs =>
    some { s with gs := s.gs.swapgs, running := .sysret :: cs }
  | .sysret, .sysret :: cs => some { s with running := cs }
  | .pit f, c :: _ =>
    some { s with gs := (s.entered f).gs.swapgsIf (testSlot (f.interrupt c).slots 128) }
  | .keyboard, c :: cs => some { s with running := .keyboardHandler :: c :: cs }
  | .keyboardReturn, .keyboardHandler :: cs => some { s with running := cs }
  | .kernelYield f next, c :: _ => if c.yields then (s.suspend f).resume next 128 else none
  | .schedulerIsr f next, _ :: _ => ((s.entered f).suspend f).resume next 8
  | _, _ => none

/-- The active base while `schedule`, or what `pit_interrupt` calls, runs inside an event. -/
def callBase : Event → State → Option Base
  | .pit f, s => some (s.entered f).gs.active
  | .kernelYield _ _, s => some s.gs.active
  | .schedulerIsr f _, s => some (s.entered f).gs.active
  | _, _ => none

/-- The base is right between events. -/
structure Right (s : State) : Prop where
  user : s.code = some .user → s.gs.active = .user
  syscallHandler : s.code = some .syscallHandler → s.gs.active = .kernel
  keyboardHandler : s.code = some .keyboardHandler → s.gs.active = .kernel

/-- **GS parity**: the base is right at every point of the run, and inside its events. -/
def Parity (s0 : State) (es : List Event) : Prop :=
  ∀ pre post s, es = pre ++ post → Run step s0 pre s →
    Right s ∧ ∀ e rest, post = e :: rest → ∀ b, callBase e s = some b → b = .kernel

/-- The main thread runs, with threads that have not run yet. -/
structure Booted (s : State) : Prop where
  gs : s.gs = ⟨.kernel, .user⟩
  running : s.running = [.kernelThread]
  saved : ∀ i t, s.saved i = some t →
    (∃ rip ustack, t = newElfThread rip ustack) ∨ ∃ rip kstack, t = newKernelThread rip kstack

/-! ## The invariant -/

/-- The base that belongs to a code. -/
def Code.bases : Code → Bases Base
  | .user => ⟨.user, .kernel⟩
  | .sysret => ⟨.user, .kernel⟩
  | _ => ⟨.kernel, .user⟩

/-- How codes nest while every base is right: the keyboard interrupts code of the kernel only. -/
inductive Nested : List Code → Prop
  | user : Nested [.user]
  | kernelThread : Nested [.kernelThread]
  | syscallHandler : Nested [.syscallHandler, .user]
  | sysret : Nested [.sysret, .user]
  | keyboardHandler {c : Code} {cs : List Code} (h : Nested (c :: cs)) (hbase : c.bases.active = .kernel) :
      Nested (.keyboardHandler :: c :: cs)

/-- **Each code has its base**, and each thread a frame that says whether it was in user mode. -/
structure Inv (s : State) : Prop where
  running : ∃ c cs, s.running = c :: cs ∧ Nested (c :: cs) ∧ s.gs = c.bases
  saved : ∀ i t, s.saved i = some t →
    ∃ c cs, t.codes = c :: cs ∧ Nested (c :: cs) ∧ c ≠ .sysret ∧ t.frame.cs = c.cs

theorem Code.bases_active (c : Code) : c.bases.active = .kernel ↔ c.yields = true := by
  cases c <;> decide

variable {c : Code}

theorem Code.bases_of_yields (h : c.yields = true) : c.bases = ⟨.kernel, .user⟩ := by
  cases c <;> first | rfl | exact absurd h Bool.false_ne_true

theorem Code.cs_test (c : Code) : (c.cs &&& 3#64 != 0#64) = decide (c = .user) := by
  cases c <;> decide

/-- The entry paths lead to the kernel's base, but not from the last instruction of a system
call. -/
theorem Code.bases_entered (h : c ≠ .sysret) (f : Frame) :
    c.bases.swapgsIf (testSlot (f.interrupt c).iretSlots 8) = ⟨.kernel, .user⟩ := by
  rw [testSlot_iretSlots, show (f.interrupt c).cs = c.cs from rfl, c.cs_test]
  cases c with
  | sysret => exact absurd rfl h
  | _ => rfl

/-- A test of the saved `cs` leads to the base of the code that is resumed. -/
theorem Code.bases_exit (h : c ≠ .sysret) (hcs : f.cs = c.cs) :
    (Bases.mk Base.kernel Base.user).swapgsIf (testSlot f.slots 128) = c.bases := by
  rw [testSlot_slots_cs, hcs, c.cs_test]
  cases c with
  | sysret => exact absurd rfl h
  | _ => rfl

/-! ## Safe events -/

/-- The exit of `scheduler_isr_asm` takes the decision the saved `cs` asks for. -/
def Frame.Matched (f : Frame) : Prop := testSlot f.slots 8 = testSlot f.slots 128

/-- **The events that keep the bases**: no interrupt between the last `swapgs` of a system call and
its `sysret`, no keyboard interrupt in user mode, and at an exit of `scheduler_isr_asm` a frame
whose `rbx` happens to look like its `cs`. -/
def Safe : Event → State → Prop
  | .pit _, s => s.code ≠ some .sysret
  | .keyboard, s => s.code ≠ some .sysret ∧ s.code ≠ some .user
  | .schedulerIsr f next, s =>
    s.code ≠ some .sysret ∧ ∀ t, (s.suspend f).saved next = some t → t.frame.Matched
  | _, _ => True

/-- An exit of `scheduler_isr_asm` to a thread of the kernel that executes its own code. -/
def ToKernelThread : Event → State → Prop
  | .schedulerIsr f next, s => s.code ≠ some .sysret ∧
      ∃ t, (s.suspend f).saved next = some t ∧ t.codes.head? = some .kernelThread
  | _, _ => False

variable {s0 s s' : State} {e : Event} {es : List Event} {f : Frame} {next : ℕ}

/-- Threads with right frames, and the kernel's base. -/
structure Held (s : State) : Prop where
  gs : s.gs = ⟨.kernel, .user⟩
  saved : ∀ i t, s.saved i = some t →
    ∃ c cs, t.codes = c :: cs ∧ Nested (c :: cs) ∧ c ≠ .sysret ∧ t.frame.cs = c.cs

/-- **`schedule` is called** with the frame of the current thread saved. -/
theorem Inv.suspend (h : Inv s) {cs : List Code} (hc : s.running = c :: cs) (hne : c ≠ .sysret)
    {gs : Bases Base} (hgs : gs = ⟨.kernel, .user⟩) : Held ({ s with gs := gs }.suspend f) := by
  obtain ⟨c', cs', hrun, hnest, -⟩ := h.running
  obtain ⟨rfl, rfl⟩ := List.cons.inj (hc.symm.trans hrun)
  have hcode : ({ s with gs := gs } : State).code = some c := by rw [State.code, hc, List.head?_cons]
  rw [State.suspend, hcode]
  refine ⟨hgs, fun i t ht => ?_⟩
  simp only [Function.update_apply] at ht
  split_ifs at ht with hi
  · cases ht
    exact ⟨c, cs, hc, hnest, hne, rfl⟩
  · exact h.saved i t ht

/-- **A matching exit** leads to the base of the code that is resumed. -/
theorem Held.resume (h : Held s) {disp : ℕ} (hr : s.resume next disp = some s')
    (htest : ∀ t, s.saved next = some t → testSlot t.frame.slots disp = testSlot t.frame.slots 128) :
    Inv s' := by
  obtain ⟨t, ht, rfl⟩ := Option.map_eq_some_iff.1 hr
  obtain ⟨c, cs, hcodes, hnest, hne, hcs⟩ := h.saved next t ht
  refine ⟨⟨c, cs, hcodes, hnest, ?_⟩, h.saved⟩
  rw [htest t ht, h.gs]
  exact Code.bases_exit hne hcs

theorem State.entered_eq {cs : List Code} (hc : s.running = c :: cs) :
    s.entered f = { s with gs := s.gs.swapgsIf (testSlot (f.interrupt c).iretSlots 8) } := by
  rw [State.entered, State.code, hc, List.head?_cons]

/-- What is saved does not depend on the bases. -/
theorem State.suspend_saved (gs : Bases Base) :
    ({ s with gs := gs }.suspend f).saved = (s.suspend f).saved := by
  unfold State.suspend State.code
  cases s.running.head? <;> rfl

/-- The kernel's base is active after an entry path. -/
theorem Inv.entered (h : Inv s) (hne : s.code ≠ some .sysret) :
    (s.entered f).gs = ⟨.kernel, .user⟩ := by
  obtain ⟨c, cs, hrun, -, hgs⟩ := h.running
  rw [State.code, hrun, List.head?_cons] at hne
  rw [State.entered_eq hrun]
  simp only [hgs]
  exact Code.bases_entered (fun hc => hne (congrArg some hc)) f

/-- **A safe event keeps the invariant.** -/
theorem Inv.step (h : Inv s) (hsafe : Safe e s) (he : step e s = some s') : Inv s' := by
  obtain ⟨c, cs, hrun, hnest, hgs⟩ := h.running
  have hcode : s.code = some c := by rw [State.code, hrun, List.head?_cons]
  cases e with
  | syscall =>
    cases c <;> simp only [Gs.step, hrun, reduceCtorEq] at he
    cases he
    cases hnest
    exact ⟨⟨_, _, rfl, .syscallHandler, by rw [hgs]; rfl⟩, h.saved⟩
  | syscallReturn =>
    cases c <;> simp only [Gs.step, hrun, reduceCtorEq] at he
    cases he
    cases hnest
    exact ⟨⟨_, _, rfl, .sysret, by rw [hgs]; rfl⟩, h.saved⟩
  | sysret =>
    cases c <;> simp only [Gs.step, hrun, reduceCtorEq] at he
    cases he
    cases hnest
    exact ⟨⟨_, _, rfl, .user, hgs⟩, h.saved⟩
  | pit f =>
    simp only [Gs.step, hrun] at he
    cases he
    have hne : c ≠ .sysret := fun hc => hsafe (hc ▸ hcode)
    refine ⟨⟨c, cs, rfl, hnest, ?_⟩, h.saved⟩
    simp only [h.entered hsafe]
    exact Code.bases_exit hne rfl
  | keyboard =>
    simp only [Gs.step, hrun] at he
    cases he
    have hkernel : c.yields = true := by
      cases c with
      | user => exact absurd hcode hsafe.2
      | sysret => exact absurd hcode hsafe.1
      | _ => rfl
    refine ⟨⟨_, _, rfl, .keyboardHandler hnest (c.bases_active.2 hkernel), ?_⟩, h.saved⟩
    exact hgs.trans (Code.bases_of_yields hkernel)
  | keyboardReturn =>
    cases c <;> simp only [Gs.step, hrun, reduceCtorEq] at he
    cases he
    cases hnest with
    | @keyboardHandler c' cs' hnest hbase =>
      exact ⟨⟨c', cs', rfl, hnest, hgs.trans (Code.bases_of_yields (c'.bases_active.1 hbase)).symm⟩,
        h.saved⟩
  | kernelYield f next =>
    simp only [Gs.step, hrun] at he
    split_ifs at he with hyields
    have hne : c ≠ .sysret := by
      rintro rfl
      exact Bool.false_ne_true hyields
    have hheld : Held (s.suspend f) :=
      h.suspend hrun hne (hgs.trans (Code.bases_of_yields hyields))
    exact hheld.resume he fun _ _ => rfl
  | schedulerIsr f next =>
    simp only [Gs.step, hrun] at he
    have hne : c ≠ .sysret := fun hc => hsafe.1 (hc ▸ hcode)
    have hentered := h.entered (f := f) hsafe.1
    rw [State.entered_eq hrun] at he hentered
    refine (h.suspend hrun hne hentered).resume he fun t ht => hsafe.2 t ?_
    rwa [State.suspend_saved] at ht

theorem Inv.right (h : Inv s) : Right s := by
  obtain ⟨c, cs, hrun, -, hgs⟩ := h.running
  have hcode : s.code = some c := by rw [State.code, hrun, List.head?_cons]
  refine ⟨fun hc => ?_, fun hc => ?_, fun hc => ?_⟩
  all_goals
    obtain rfl := Option.mem_unique hcode hc
    rw [hgs]
    rfl

/-- The base inside such events is the kernel's. -/
theorem Inv.callBase (h : Inv s) (hok : Safe e s ∨ ToKernelThread e s)
    (he : Gs.step e s = some s') {b : Base} (hb : Gs.callBase e s = some b) : b = .kernel := by
  obtain ⟨c, cs, hrun, -, hgs⟩ := h.running
  cases e with
  | pit f =>
    cases hb
    rw [h.entered (hok.resolve_right id)]
  | schedulerIsr f next =>
    cases hb
    rw [h.entered (hok.elim And.left And.left)]
  | kernelYield f next =>
    cases hb
    simp only [Gs.step, hrun] at he
    split_ifs at he with hyields
    rw [hgs, Code.bases_of_yields hyields]
  | _ => cases hb

/-- The code of a resumed thread. -/
theorem State.resume_code {disp : ℕ} (hr : s.resume next disp = some s') {t : Thread}
    (ht : s.saved next = some t) : s'.code = t.codes.head? := by
  obtain ⟨t', ht', rfl⟩ := Option.map_eq_some_iff.1 hr
  obtain rfl := Option.mem_unique ht ht'
  rfl

/-- A thread of the kernel may run its own code with either base. -/
theorem ToKernelThread.right (h : ToKernelThread e s) (he : step e s = some s') : Right s' := by
  cases e with
  | schedulerIsr f next =>
    obtain ⟨-, t, ht, hcode⟩ := h
    have hs' : s'.code = some .kernelThread := by
      cases hrun : s.running with
      | nil => simp only [step, hrun, reduceCtorEq] at he
      | cons c cs =>
        simp only [step, hrun] at he
        rw [State.entered_eq hrun] at he
        rw [← State.suspend_saved] at ht
        exact (State.resume_code he ht).trans hcode
    exact ⟨fun hc => by simp [hs'] at hc, fun hc => by simp [hs'] at hc, fun hc => by simp [hs'] at hc⟩
  | _ => exact h.elim

/-! ## Unsafe events -/

/-- A thread of the kernel has got the user's base: nothing is wrong until the kernel is entered
again. -/
structure Astray (s : State) : Prop where
  code : s.code = some .kernelThread
  gs : s.gs.active = .user

/-- A wrong base shows at an event, or behind it. -/
def Shows (e : Event) (s s' : State) : Prop := (∃ b, callBase e s = some b ∧ b ≠ .kernel) ∨ ¬Right s'

/-- **An exit with the wrong decision** shows, unless it leads to a thread of the kernel. -/
theorem Held.astray (h : Held s) {disp : ℕ} (hr : s.resume next disp = some s') {t : Thread}
    (ht : s.saved next = some t)
    (htest : testSlot t.frame.slots disp ≠ testSlot t.frame.slots 128) : ¬Right s' ∨ Astray s' := by
  obtain ⟨t', ht', rfl⟩ := Option.map_eq_some_iff.1 hr
  obtain rfl := Option.mem_unique ht ht'
  obtain ⟨c, cs, hcodes, -, hne, hcs⟩ := h.saved next t ht
  have hexit := Code.bases_exit hne hcs
  have hwrong : testSlot t.frame.slots disp = !testSlot t.frame.slots 128 := by
    revert htest
    cases testSlot t.frame.slots disp <;> cases testSlot t.frame.slots 128 <;> simp
  have hgs : (Bases.mk Base.kernel Base.user).swapgsIf (testSlot t.frame.slots disp) =
      c.bases.swapgs := by
    rw [hwrong, ← hexit]
    cases testSlot t.frame.slots 128 <;> rfl
  have hcode : ∀ {c'}, t.codes.head? = some c' ↔ c = c' := by
    intro c'
    rw [hcodes, List.head?_cons, Option.some.injEq]
  simp only [h.gs, hgs]
  cases c with
  | user => exact .inl fun hright => nomatch hright.user (hcode.2 rfl)
  | kernelThread => exact .inr ⟨hcode.2 rfl, rfl⟩
  | syscallHandler => exact .inl fun hright => nomatch hright.syscallHandler (hcode.2 rfl)
  | keyboardHandler => exact .inl fun hright => nomatch hright.keyboardHandler (hcode.2 rfl)
  | sysret => exact absurd rfl hne

/-- **An unsafe event shows**, or leaves a thread of the kernel astray. -/
theorem Inv.shows (h : Inv s) (hsafe : ¬Safe e s) (he : Gs.step e s = some s') :
    Shows e s s' ∨ Astray s' ∧ ToKernelThread e s := by
  obtain ⟨c, cs, hrun, -, hgs⟩ := h.running
  have hcode : s.code = some c := by rw [State.code, hrun, List.head?_cons]
  have hsysret : s.code = some .sysret → ∀ f, (s.entered f).gs.active ≠ .kernel := by
    intro hc f
    obtain rfl := Option.mem_unique hcode hc
    rw [State.entered_eq hrun]
    simp only [hgs, testSlot_iretSlots, show (f.interrupt .sysret).cs = Code.sysret.cs from rfl,
      Code.cs_test]
    decide
  cases e with
  | pit f =>
    have hc : s.code = some .sysret := not_not.1 hsafe
    exact .inl (.inl ⟨_, rfl, hsysret hc f⟩)
  | keyboard =>
    have hcase : c = .sysret ∨ c = .user := by
      simp only [Safe, hcode, ne_eq, Option.some.injEq] at hsafe
      tauto
    simp only [Gs.step, hrun] at he
    cases he
    refine .inl (.inr fun hright => ?_)
    have hactive := hright.keyboardHandler rfl
    simp only [hgs] at hactive
    rcases hcase with rfl | rfl <;> cases hactive
  | schedulerIsr f next =>
    by_cases hc : s.code = some .sysret
    · exact .inl (.inl ⟨_, rfl, hsysret hc f⟩)
    · simp only [Gs.step, hrun] at he
      have hne : c ≠ .sysret := fun hc' => hc (hc' ▸ hcode)
      have hentered := h.entered (f := f) hc
      rw [State.entered_eq hrun] at he hentered
      obtain ⟨t, ht, htest⟩ : ∃ t, (s.suspend f).saved next = some t ∧ ¬t.frame.Matched := by
        simpa [Safe, hc] using hsafe
      have ht' := ht
      rw [← State.suspend_saved] at ht'
      refine ((h.suspend hrun hne hentered).astray he ht' htest).imp .inr fun hstray => ?_
      exact ⟨hstray, hc, t, ht, (State.resume_code he ht').symm.trans hstray.code⟩
  | _ => exact absurd trivial hsafe

/-- **A thread that is astray shows at the next event.** -/
theorem Astray.shows (h : Astray s) (he : step e s = some s') : Shows e s s' := by
  obtain ⟨cs, hrun⟩ : ∃ cs, s.running = .kernelThread :: cs := by
    have hcode := h.code
    unfold State.code at hcode
    cases hr : s.running with
    | nil => rw [hr] at hcode; cases hcode
    | cons c cs =>
      rw [hr] at hcode
      cases hcode
      exact ⟨cs, rfl⟩
  have hentered : ∀ f, (s.entered f).gs = s.gs := fun f => by
    rw [State.entered_eq hrun]
    simp only [testSlot_iretSlots, Code.cs_test,
      show (f.interrupt .kernelThread).cs = Code.kernelThread.cs from rfl]
    rfl
  have huser : s.gs.active ≠ .kernel := by
    rw [h.gs]
    decide
  cases e with
  | pit f => exact .inl ⟨_, rfl, by rwa [hentered]⟩
  | schedulerIsr f next => exact .inl ⟨_, rfl, by rwa [hentered]⟩
  | kernelYield f next => exact .inl ⟨_, rfl, huser⟩
  | keyboard =>
    simp only [step, hrun] at he
    cases he
    exact .inr fun hright => huser (hright.keyboardHandler rfl)
  | _ => simp only [step, hrun, reduceCtorEq] at he

/-! ## Runs -/

theorem Booted.inv (h : Booted s) : Inv s where
  running := ⟨_, _, h.running, .kernelThread, h.gs⟩
  saved i t ht := by
    rcases h.saved i t ht with ⟨rip, ustack, rfl⟩ | ⟨rip, kstack, rfl⟩
    · exact ⟨_, _, rfl, .user, by decide, rfl⟩
    · exact ⟨_, _, rfl, .kernelThread, by decide, rfl⟩

variable {pre post : List Event}

theorem Parity.not_shows (h : Parity s0 es) (hes : es = pre ++ e :: post) (hrun : Run step s0 pre s)
    (he : step e s = some s') : ¬Shows e s s' := by
  rintro (⟨b, hb, hne⟩ | hwrong)
  · exact hne ((h pre _ s hes hrun).2 e post rfl b hb)
  · exact hwrong (h (pre ++ [e]) post s' (by rw [hes]; simp) (hrun.snoc e he)).1

/-- While nothing shows, the invariant holds or a thread is astray. -/
theorem Parity.inv (h : Parity s0 es) (hboot : Booted s0) (hrun : Run step s0 pre s) :
    ∀ {post}, es = pre ++ post → Inv s ∨ Astray s := by
  induction hrun with
  | nil => exact fun _ => .inl hboot.inv
  | @snoc s s' pre e hrun he ih =>
    intro post hes
    have hes' : es = pre ++ e :: post := by rw [hes]; simp
    have hnot := h.not_shows hes' hrun he
    rcases ih hes' with hinv | hstray
    · by_cases hsafe : Safe e s
      · exact .inl (hinv.step hsafe he)
      · exact .inr ((hinv.shows hsafe he).resolve_left hnot).1
    · exact absurd (hstray.shows he) hnot

/-- Where the parity holds, every event is safe, or is the last one and leads to a kernel thread. -/
theorem Parity.safe {e : Event} {s : State} (hparity : Parity s0 es) (hboot : Booted s0)
    (h : Run step s0 es s') (hes : es = pre ++ e :: post) (hrun : Run step s0 pre s) :
    Safe e s ∨ post = [] ∧ ToKernelThread e s := by
  obtain ⟨s1, he, hpost⟩ := (hes ▸ h).enabled hrun
  have hnot := hparity.not_shows hes hrun he
  have hinv : Inv s := (hparity.inv hboot hrun hes).resolve_right fun hstray => hnot (hstray.shows he)
  by_cases hsafe : Safe e s
  · exact .inl hsafe
  · obtain ⟨hstray, hto⟩ := (hinv.shows hsafe he).resolve_left hnot
    refine .inr ⟨?_, hto⟩
    cases post with
    | nil => rfl
    | cons e' post =>
      have hes' : es = (pre ++ [e]) ++ e' :: post := by rw [hes]; simp
      have hrun' := hrun.snoc e he
      obtain ⟨s2, he', -⟩ := (hes' ▸ h).enabled hrun'
      exact absurd (hstray.shows he') (hparity.not_shows hes' hrun' he')

section Conversely

variable (hboot : Booted s0)
  (hcond : ∀ pre e post s, es = pre ++ e :: post → Run step s0 pre s →
    Safe e s ∨ post = [] ∧ ToKernelThread e s)

include hboot hcond

/-- Every event with another one behind it is safe, so the invariant holds before the last one. -/
theorem inv_of_safe {s : State} (hes : es = pre ++ post) (hpost : post ≠ [])
    (hrun : Run step s0 pre s) : Inv s := by
  refine hrun.invariant_of_forall (C := Safe) (fun e t t' hsafe hinv he => hinv.step hsafe he)
    hboot.inv fun es1 e es2 t hpre ht => ?_
  refine (hcond es1 e (es2 ++ post) t (by rw [hes, hpre]; simp) ht).resolve_right fun hlast => ?_
  exact hpost (List.append_eq_nil_iff.1 hlast.1).2

/-- …and the last one keeps the parity all the same. -/
theorem parity_of_safe (h : Run step s0 es s') : Parity s0 es := by
  intro pre post s hes hrun
  cases post with
  | cons e rest =>
    have hs := inv_of_safe hboot hcond hes (List.cons_ne_nil e rest) hrun
    refine ⟨hs.right, fun e' rest' heq b hb => ?_⟩
    obtain ⟨rfl, rfl⟩ := List.cons.inj heq
    obtain ⟨s1, he, -⟩ := (hes ▸ h).enabled hrun
    exact hs.callBase ((hcond pre e rest s hes hrun).imp_right And.right) he hb
  | nil =>
    refine ⟨?_, fun e rest heq => by cases heq⟩
    cases hrun with
    | nil => exact hboot.inv.right
    | @snoc s1 _ pre' e hrun' he =>
      have hes' : es = pre' ++ e :: [] := by rw [hes]; simp
      have hs := inv_of_safe hboot hcond hes' (List.cons_ne_nil e []) hrun'
      rcases hcond pre' e [] s1 hes' hrun' with hsafe | ⟨-, hto⟩
      · exact (hs.step hsafe he).right
      · exact hto.right he

end Conversely

/-- The main thread, and the first thread of a program. -/
def mainAndElf : State where
  gs := ⟨.kernel, .user⟩
  running := [.kernelThread]
  current := 0
  saved i := if i = 1 then some (newElfThread 0x400000#64 0x7ffffffff000#64) else none

/-- Registers that are all zero. -/
def zeroFrame : Frame := ⟨fun _ => 0#64, 0#64, 0#64, 0#64, 0#64, 0#64⟩

theorem mainAndElf_booted : Booted mainAndElf where
  gs := rfl
  running := rfl
  saved i t ht := by
    simp only [mainAndElf] at ht
    split_ifs at ht
    exact .inl ⟨_, _, (Option.some.inj ht).symm⟩

end Hvos.Machine.Gs
