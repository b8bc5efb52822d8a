import Hvos.Lib.X86Sys
import Hvos.Machine.Gs

/-!
# Machine/Interrupts — interrupts are invisible, and a new thread starts clean

The handlers of `interrupt.asm` that return: `pit_interrupt`, `keyboard_interrupt` and
`pagefault_interrupt`.  Each pushes the fifteen general registers on the frame of the processor,
calls C code, pops them and leaves with `iretq`; they differ in the error code and in `swapgs`.
Whatever was interrupted finds all of its state again (`interrupt_transparent`).

The same exit path is how a thread first runs: `new_elf_thread` and `new_kernel_thread` write the
frame it pops (`newThread_starts_clean`).
-/

namespace Hvos.Machine

open X86

/-! ## The handlers -/

/-- The interrupts whose handlers return. -/
inductive Irq
  | timer
  | keyboard
  | pageFault (error : Word)

/-- The error code the processor pushes. -/
def Irq.error : Irq → Option Word
  | .pageFault e => some e
  | .timer | .keyboard => none

/-- The handler up to its first call. -/
def Irq.entry : Irq → List Op
  | .timer => [.cli, .block Gs.entryPath]
  | .keyboard => [.block (savedRegs.map .push)]
  | .pageFault _ => [.block (savedRegs.map .push), .block [.mov .rdi .rsp]]

/-- The handler behind its last call. -/
def Irq.exit : Irq → List Op
  | .timer => [.block pitInterruptExit]
  | .keyboard => [.block (restoredRegs.map .pop), .block [.iretq]]
  | .pageFault _ => [.block (restoredRegs.map .pop), .addReg .rsp 8#64, .block [.iretq]]

/-- **The C code a handler calls**, entered in `e` and back in `w`: the stack pointer is where it
was, the `n` slots of the frame are as they were, and so are the two bases. -/
structure Back (e w : Cpu) (n : ℕ) : Prop where
  rsp : w.reg .rsp = e.reg .rsp
  kept : ∀ i < n, w.slot i = e.slot i
  bases : Gs.cpuBases w = Gs.cpuBases e

variable {w d : Cpu} {vs : List Word} {e c : Cpu}

theorem Back.stack (h : Back e w vs.length) (hvs : StackAt e vs) : StackAt w vs :=
  hvs.congr h.kept

/-- **Nothing but memory differs.** -/
structure Untouched (c f : Cpu) : Prop where
  reg : f.reg = c.reg
  seg : f.seg = c.seg
  rip : f.rip = c.rip
  rflags : f.rflags = c.rflags
  bases : Gs.cpuBases f = Gs.cpuBases c

/-! ## Registers off the frame -/

theorem cpuBases_of_control (h : SameControl c d) : Gs.cpuBases d = Gs.cpuBases c := by
  rw [Gs.cpuBases, Gs.cpuBases, h.gsBase, h.kernelGsBase]

theorem mem_restoredRegs {r : Reg} (hr : r ≠ .rsp) : r ∈ restoredRegs := by
  revert hr
  cases r <;> decide

/-- The fifteen pops, from a stack that holds a register file. -/
theorem run_restore {reg : Reg → Word} (h : StackAt d (restoredRegs.map reg ++ vs)) :
    StackAt (d.run (restoredRegs.map .pop)) vs ∧
      (∀ r, r ≠ .rsp → (d.run (restoredRegs.map .pop)).reg r = reg r) ∧
      SameControl d (d.run (restoredRegs.map .pop)) := by
  have hpop := run_pop restoredRegs (by decide) (by decide) (by simp) h
  refine ⟨hpop.stack, fun r hr => ?_, hpop.control⟩
  obtain ⟨i, hi, rfl⟩ := List.getElem_of_mem (mem_restoredRegs hr)
  rw [hpop.popped i hi (by simpa using hi), List.getElem_map]

/-- The fifteen pushes. -/
theorem run_save (h : StackAt d vs) (hlen : vs.length < 2 ^ 59) :
    StackAt (d.run (savedRegs.map .push)) (restoredRegs.map d.reg ++ vs) ∧
      SameControl d (d.run (savedRegs.map .push)) := by
  have hfit : savedRegs.length + vs.length < 2 ^ 60 := by
    simp only [savedRegs, List.length_cons, List.length_nil]
    omega
  have hpush := run_push savedRegs (by decide) h hfit
  exact ⟨hpush.stack, hpush.control⟩

/-- **The state a frame stands for**, with the bases `b`. -/
structure Resumes (f : Gs.Frame) (b : Gs.Bases Word) (e : Cpu) : Prop where
  reg : ∀ r, r ≠ .rsp → e.reg r = f.reg r
  rsp : e.reg .rsp = f.rsp
  rip : e.rip = f.rip
  rflags : e.rflags = f.rflags
  cs : e.seg .cs = f.cs.setWidth 16
  ss : e.seg .ss = f.ss.setWidth 16
  bases : Gs.cpuBases e = b

/-- `iretq`, with the fifteen registers back. -/
theorem resumes_iret {f : Gs.Frame} (h : StackAt d f.iretSlots)
    (hreg : ∀ r, r ≠ .rsp → d.reg r = f.reg r) : Resumes f (Gs.cpuBases d) d.iret := by
  obtain ⟨hrip, hcs, hflags, hregs, hss⟩ := StackAt.iret h
  refine ⟨fun r hr => ?_, ?_, hrip, hflags, hcs, hss, rfl⟩
  · rw [hregs, Function.update_of_ne hr, hreg r hr]
  · rw [hregs, Function.update_self]

/-- A test of a slot in front of `swapgs` changes no register and no memory. -/
theorem run_testSwap (is : List Instr) (disp : Word) (c : Cpu) :
    ∃ c' : Cpu, c.run ([.testMem .rsp disp 3#64, .jz 1, .swapgs] ++ is) = c'.run is ∧
      c'.reg = c.reg ∧ c'.mem = c.mem := by
  set c1 := c.exec (.testMem .rsp disp 3#64)
  have hrun : c.run ([.testMem .rsp disp 3#64, .jz 1, .swapgs] ++ is) =
      if c1.zf then c1.run is else (c1.exec .swapgs).run is := rfl
  by_cases hz : c1.zf = true
  · exact ⟨c1, by rw [hrun, if_pos hz], rfl, rfl⟩
  · exact ⟨c1.exec .swapgs, by rw [hrun, if_neg hz], rfl, rfl⟩

/-- The same stack under the same stack pointer. -/
theorem stackAt_of_eq (h : StackAt c vs) (hreg : d.reg = c.reg) (hmem : d.mem = c.mem) :
    StackAt d vs :=
  h.congr fun i _ => by rw [Cpu.slot, Cpu.slot, hreg, hmem]

/-- **`pit_interrupt_exit` resumes the frame at the stack pointer**, and exchanges the bases if it
is one of user mode. -/
theorem resumes_pitInterruptExit {f : Gs.Frame} (h : StackAt w f.slots) :
    Resumes f ((Gs.cpuBases w).swapgsIf (f.cs &&& 3#64 != 0#64)) (w.run pitInterruptExit) := by
  have hbases := Gs.cpuBases_pitInterruptExit h
  rw [Gs.testSlot_slots_cs] at hbases
  obtain ⟨d, hd, hreg, hmem⟩ := run_testSwap (restoredRegs.map .pop ++ [.sti, .iretq]) 128#64 w
  have hrun : w.run pitInterruptExit = ((d.run (restoredRegs.map .pop)).exec .sti).iret := by
    have hexit : w.run pitInterruptExit = d.run (restoredRegs.map .pop ++ [.sti, .iretq]) := hd
    rw [hexit, Cpu.run_append _ _ rfl]
    rfl
  obtain ⟨hrest, hregs, -⟩ := run_restore (stackAt_of_eq h hreg hmem)
  rw [hrun] at hbases ⊢
  -- from here on the fifteen pops are one state
  generalize d.run (restoredRegs.map .pop) = p at hrest hregs hbases ⊢
  have hresumes := resumes_iret (stackAt_of_eq hrest rfl rfl : StackAt (p.exec .sti) _) hregs
  exact { hresumes with bases := hbases }

/-! ## Transparency -/

/-- The twenty slots that are on the stack while the C code runs, and perhaps an error code. -/
def Irq.slots (v : Irq) (c : Cpu) : List Word :=
  restoredRegs.map c.reg ++ (v.error.toList ++ c.iretSlots)

/-- The interrupted state as a frame. -/
def frameOf (c : Cpu) : Gs.Frame where
  reg := c.reg
  rip := c.rip
  cs := (c.seg .cs).setWidth 64
  rflags := c.rflags
  rsp := c.reg .rsp
  ss := (c.seg .ss).setWidth 64

theorem Resumes.untouched (h : Resumes (frameOf c) (Gs.cpuBases c) e) : Untouched c e := by
  refine ⟨funext fun r => ?_, funext fun s => ?_, h.rip, h.rflags, h.bases⟩
  · by_cases hr : r = .rsp
    · rw [hr, h.rsp]
      rfl
    · exact h.reg r hr
  · cases s with
    | cs => rw [h.cs, frameOf, BitVec.setWidth_setWidth_of_le _ (by decide), BitVec.setWidth_eq]
    | ss => rw [h.ss, frameOf, BitVec.setWidth_setWidth_of_le _ (by decide), BitVec.setWidth_eq]

section Transparent

variable (g : Gate) (rsp0 : Word) (v : Irq) (c : Cpu)

/-- The state in which the handler calls its C code. -/
def atHandler : Cpu := (c.deliver g rsp0 v.error).runOps v.entry

/-- **The frame the C code is called on.** -/
theorem stackAt_atHandler : StackAt (atHandler g rsp0 v c) (v.slots c) := by
  have hstack := stackAt_deliver g rsp0 v.error c
  have hshort : (v.error.toList ++ c.iretSlots).length < 2 ^ 59 := by
    cases v <;> simp [Irq.error, Cpu.iretSlots]
  have hmap : restoredRegs.map (c.deliver g rsp0 v.error).reg = restoredRegs.map c.reg :=
    List.map_congr_left fun r hr =>
      deliver_reg g rsp0 v.error c (by rintro rfl; revert hr; decide)
  have hsaved := (run_save hstack hshort).1
  rw [hmap] at hsaved
  cases v with
  | timer =>
    obtain ⟨d, hd, hreg, hmem⟩ :=
      run_testSwap (savedRegs.map .push) 8#64 ((c.deliver g rsp0 none).execOp .cli)
    have hsave := (run_save (stackAt_of_eq hstack hreg hmem) hshort).1
    rw [hreg, show ((c.deliver g rsp0 none).execOp .cli).reg = (c.deliver g rsp0 none).reg from rfl]
      at hsave
    have hrun : atHandler g rsp0 .timer c = d.run (savedRegs.map .push) := hd
    rw [hrun, Irq.slots, ← hmap]
    exact hsave
  | keyboard => exact hsaved
  | pageFault e => exact hsaved.setReg (by decide) _

/-- The bases while the C code runs: exchanged by `pit_interrupt`, if it came from user mode. -/
theorem cpuBases_atHandler : Gs.cpuBases (atHandler g rsp0 v c) =
    match v with
    | .timer => (Gs.cpuBases c).swapgsIf ((c.seg .cs).setWidth 64 &&& 3#64 != 0#64)
    | _ => Gs.cpuBases c := by
  have hframed := cpuBases_of_control (onto_framed rsp0 v.error c).control
  have hbases : Gs.cpuBases (c.deliver g rsp0 v.error) = Gs.cpuBases c := hframed
  cases v with
  | timer =>
    have hstack : StackAt ((c.deliver g rsp0 none).execOp .cli) (frameOf c).iretSlots :=
      stackAt_of_eq (stackAt_deliver g rsp0 none c) rfl rfl
    have hentry := Gs.cpuBases_entryPath hstack
    have hcli : Gs.cpuBases ((c.deliver g rsp0 none).execOp .cli) =
        Gs.cpuBases (c.deliver g rsp0 none) := rfl
    rw [hcli, show c.deliver g rsp0 none = c.deliver g rsp0 Irq.timer.error from rfl, hbases]
      at hentry
    exact hentry
  | keyboard => exact (Gs.cpuBases_run rfl _).trans hbases
  | pageFault e => exact (Gs.cpuBases_run rfl _).trans hbases

variable {g rsp0 v c}

/-- **An interrupt is invisible to what it interrupts**: in user mode or in the kernel, whatever the
handler's C code does that comes back to its frame, the interrupted code goes on with every
register, its flags, its segments, its stack pointer, both bases and the instruction it was at. -/
theorem interrupt_transparent {w : Cpu}
    (h : Back (atHandler g rsp0 v c) w (v.slots c).length) : Untouched c (w.runOps v.exit) := by
  have hstack := h.stack (stackAt_atHandler g rsp0 v c)
  have hbases := h.bases.trans (cpuBases_atHandler g rsp0 v c)
  have hpop : Gs.cpuBases (w.run (restoredRegs.map .pop)) = Gs.cpuBases w := Gs.cpuBases_run rfl w
  obtain ⟨hrest, hregs, -⟩ := run_restore hstack
  refine Resumes.untouched ?_
  cases v with
  | timer =>
    have hexit := resumes_pitInterruptExit (f := frameOf c) hstack
    have hswap : ∀ b (x : Gs.Bases Word), (x.swapgsIf b).swapgsIf b = x := by
      intro b x
      cases b <;> rfl
    rw [hbases, frameOf, hswap] at hexit
    exact hexit
  | keyboard =>
    have hrun : w.runOps Irq.keyboard.exit = (w.run (restoredRegs.map .pop)).iret := rfl
    have hkeep := hpop.trans hbases
    rw [hrun]
    generalize w.run (restoredRegs.map .pop) = p at hrest hregs hkeep ⊢
    exact { resumes_iret (f := frameOf c) hrest hregs with bases := hkeep }
  | pageFault e =>
    have hrun : w.runOps (Irq.pageFault e).exit =
        ((w.run (restoredRegs.map .pop)).execOp (.addReg .rsp 8#64)).iret := rfl
    have hkeep := hpop.trans hbases
    rw [hrun]
    generalize w.run (restoredRegs.map .pop) = p at hrest hregs hkeep ⊢
    have hdrop : StackAt (p.execOp (.addReg .rsp 8#64)) (frameOf c).iretSlots := hrest.addRsp
    have hiret := resumes_iret hdrop fun r hr => (Cpu.setReg_of_ne _ hr _).trans (hregs r hr)
    exact { hiret with bases := hkeep }

end Transparent

/-- A user program with interrupts on. -/
def userAtWork : Cpu where
  reg := fun r => if r = .rsp then 0x7ffffff0ff8#64 else 7#64
  seg := fun s => match s with
    | .cs => 0x23#16
    | .ss => 0x1B#16
  rip := 0x400123#64
  rflags := 0x202#64
  gsBase := 0#64
  kernelGsBase := 0xffffa00000001000#64
  mem := fun _ => 0#64

/-- The timer interrupts it, and the C code does nothing. -/
theorem interrupt_transparent_userAtWork : userAtWork.user = true ∧ Untouched userAtWork
      ((atHandler ⟨0x08#16, 0xffffffff80001000#64⟩ 0xffffa00000008000#64 .timer
        userAtWork).runOps Irq.timer.exit) :=
  ⟨by decide, interrupt_transparent ⟨rfl, fun _ _ => rfl, rfl⟩⟩

/-! ## New threads -/

/-- The two kinds of threads the kernel makes, by the arguments of `new_elf_thread` and
`new_kernel_thread` but the kernel stack. -/
inductive NewThread
  | elf (rip ustack : Word)
  | kernel (rip : Word)

/-- The `new_task_kernel_stack_t` they fill in, after its `memset` to zero. -/
def NewThread.frame (kstack : Word) : NewThread → Gs.Frame
  | .elf rip ustack => ⟨fun _ => 0#64, rip, 0x23#64, 0x202#64, ustack, 0x1B#64⟩
  | .kernel rip => ⟨fun _ => 0#64, rip, 0x08#64, 0x202#64, kstack, 0x10#64⟩

/-- The thread runs in user mode. -/
def NewThread.user : NewThread → Bool
  | .elf .. => true
  | .kernel _ => false

/-- `new_elf_thread` and `new_kernel_thread`: the stores to the kernel stack, and `k_rsp`. -/
def newThread (t : NewThread) (kstack : Word) (c : Cpu) : Cpu × Word :=
  ({ c with mem := storeSlots c.mem (kstack - 160#64) (t.frame kstack).slots }, kstack - 160#64)

/-- **The scheduler turns to a thread that has not run yet**: `schedule`, called by whatever thread,
returns its `k_rsp` in `w`, and nobody has written to its frame. -/
structure FirstRun (t : NewThread) (kstack : Word) (c w : Cpu) : Prop where
  pointer : w.reg .rax = (newThread t kstack c).2
  kept : ∀ i < 20, w.mem ((newThread t kstack c).2 + BitVec.ofNat 64 (8 * i)) =
    (newThread t kstack c).1.mem ((newThread t kstack c).2 + BitVec.ofNat 64 (8 * i))

theorem FirstRun.stack {t : NewThread} {kstack : Word} (h : FirstRun t kstack c w) :
    StackAt (w.setReg .rsp (w.reg .rax)) (t.frame kstack).slots := by
  have hlen : (t.frame kstack).slots.length = 20 := by
    simp [Gs.Frame.slots, Gs.Frame.iretSlots, restoredRegs]
  intro i hi
  rw [Cpu.slot, Cpu.setReg_self, h.pointer]
  refine (h.kept i (by omega)).trans ?_
  exact storeSlots_get c.mem _ (by omega) _ i hi

/-- **A new thread starts clean**: whatever the thread before it left in the processor, it begins at
its entry point with its own stack pointer, the segments and bases of its mode, `rflags = 0x202`,
and zero in every other general register. -/
theorem newThread_starts_clean {t : NewThread} {kstack : Word} {c w : Cpu}
    (h : FirstRun t kstack c w) : (∀ r, r ≠ .rsp → (resume w).reg r = 0#64) ∧
      Resumes (t.frame kstack) ((Gs.cpuBases w).swapgsIf t.user) (resume w) := by
  have hresumes : Resumes (t.frame kstack) _ (resume w) := resumes_pitInterruptExit h.stack
  have huser : ((t.frame kstack).cs &&& 3#64 != 0#64) = t.user := by
    cases t with
    | elf => exact (by decide : (0x23#64 &&& 3#64 != 0#64) = true)
    | kernel => exact (by decide : (0x08#64 &&& 3#64 != 0#64) = false)
  rw [huser] at hresumes
  refine ⟨fun r hr => (hresumes.reg r hr).trans ?_, hresumes⟩
  cases t <;> rfl

/-- The first run of a program, right after its thread was made. -/
theorem newThread_starts_clean_elf :
    ∃ w, FirstRun (.elf 0x400000#64 0x7ffffff1000#64) 0xffffa00000008000#64 userAtWork w ∧
      ∀ r, r ≠ .rsp → (resume w).reg r = 0#64 := by
  have hfirst : FirstRun (.elf 0x400000#64 0x7ffffff1000#64) 0xffffa00000008000#64 userAtWork
      ((newThread (.elf 0x400000#64 0x7ffffff1000#64) 0xffffa00000008000#64 userAtWork).1.setReg .rax
        (0xffffa00000008000#64 - 160#64)) :=
    ⟨Cpu.setReg_self .., fun _ _ => rfl⟩
  exact ⟨_, hfirst, (newThread_starts_clean hfirst).1⟩

end Hvos.Machine
