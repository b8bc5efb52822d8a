import Hvos.Lib.X86

/-!
# Machine/Yield — `kernel_yield` and the frame it hands to the scheduler

`kernel_yield` builds an interrupt frame by hand, `schedule` stores its address, and
`pit_interrupt_exit` consumes it with fifteen pops and an `iretq`:

    rax rbx rcx rdx rsi rdi rbp r8 … r15 │ rip cs rflags rsp ss │ return address

The two routines agree slot by slot (`atSchedule_stack`, `resume_spec`).  They do not agree with a
`ret`: the saved stack pointer is the one *at* the return address, not the one past it, so every
yield leaves the caller's stack eight bytes lower (`resume_rsp`, `Yields.rsp_eq`).
-/

namespace Hvos.Machine

open Function

open X86

/-! ## The routines -/

/-- The registers an entry path pushes, in the order it pushes them. -/
def savedRegs : List Reg :=
  [.r15, .r14, .r13, .r12, .r11, .r10, .r9, .r8, .rbp, .rdi, .rsi, .rdx, .rcx, .rbx, .rax]

/-- The registers an exit path pops, in the order it pops them. -/
def restoredRegs : List Reg :=
  [.rax, .rbx, .rcx, .rdx, .rsi, .rdi, .rbp, .r8, .r9, .r10, .r11, .r12, .r13, .r14, .r15]

/-- The five slots of the interrupt frame `kernel_yield` builds, `ss` first and `rip` last. -/
def pushFrame : List Instr :=
  [.movSeg .rax .ss, .push .rax,
   .push .rsp, .addMem .rsp 0#64 8#64,
   .pushfq,
   .movSeg .rax .cs, .push .rax,
   .load .rax .rsp 32#64, .push .rax]

/-- `kernel_yield`, up to its `call schedule`. -/
def kernelYieldSave : List Instr :=
  pushFrame ++ savedRegs.map .push ++ [.mov .rdi .rsp]

/-- `pit_interrupt_exit`. -/
def pitInterruptExit : List Instr :=
  [.testMem .rsp 128#64 3#64, .jz 1, .swapgs] ++ restoredRegs.map .pop ++ [.sti, .iretq]

/-- `kernel_yield`, from the return of `schedule` on: switch stacks, then leave through
`pit_interrupt_exit`. -/
def kernelYieldSwitch : List Instr := .mov .rsp .rax :: pitInterruptExit

/-- The state in which `kernel_yield`, entered in `c`, calls `schedule`. -/
def atSchedule (c : Cpu) : Cpu := c.run kernelYieldSave

/-- The state in which the thread continues once `schedule` has returned in `w`. -/
def resume (w : Cpu) : Cpu := w.run kernelYieldSwitch

/-! ## Handing back, and an ordinary return -/

/-- **The thread that yielded in `c` is handed back in `w`.**  `schedule` returns the pointer it was
given, and whatever ran meanwhile left the saved frame and the return address above it alone. -/
structure HandedBack (c w : Cpu) : Prop where
  pointer : w.reg .rax = (atSchedule c).reg .rdi
  kept : ∀ i < 21, w.mem ((atSchedule c).reg .rdi + BitVec.ofNat 64 (8 * i))
    = (atSchedule c).mem ((atSchedule c).reg .rdi + BitVec.ofNat 64 (8 * i))

/-- The registers a call preserves. -/
def calleeSaved : List Reg := [.rbx, .rbp, .r12, .r13, .r14, .r15]

/-- `c'` is what an ordinary `ret` leaves of the callee's entry state `c`. -/
structure OrdinaryReturn (c c' : Cpu) : Prop where
  rip : c'.rip = c.mem (c.reg .rsp)
  rsp : c'.reg .rsp = c.reg .rsp + 8#64
  callee : ∀ r ∈ calleeSaved, c'.reg r = c.reg r
  flags : c'.rflags = c.rflags

/-! ## The saved frame -/

/-- The flags `kernel_yield` saves: those its own `add` leaves. -/
def savedFlags (c : Cpu) : Word :=
  flagsImage (addFlags c.rflags (c.reg .rsp - 8#64) 8#64)

/-- The five frame slots, lowest address first. -/
def frameSlots (c : Cpu) : List Word :=
  [c.mem (c.reg .rsp), (c.seg .cs).setWidth 64, savedFlags c, c.reg .rsp, (c.seg .ss).setWidth 64]

/-- A state reached from `c` while the frame is being built: `vs` on the stack, and nothing moved
but the stack pointer and `rax`. -/
structure Built (c c' : Cpu) (vs : List Word) : Prop where
  stack : StackAt c' vs
  reg : ∀ r, r ≠ .rsp → r ≠ .rax → c'.reg r = c.reg r
  seg : c'.seg = c.seg
  rsp : c'.reg .rsp = c.reg .rsp + 8#64 - BitVec.ofNat 64 (8 * vs.length)

namespace Built

variable {c c' : Cpu} {vs : List Word}

/-- At entry the stack holds the return address. -/
theorem entry (c : Cpu) : Built c c [c.mem (c.reg .rsp)] := by
  refine ⟨fun i hi => ?_, fun _ _ _ => rfl, rfl, by simp⟩
  obtain rfl : i = 0 := by simpa using hi
  simp [Cpu.slot]

theorem pushVal (h : Built c c' vs) (hlen : vs.length < 2 ^ 60) (v : Word) :
    Built c (c'.pushVal v) (v :: vs) := by
  refine ⟨h.stack.pushVal hlen v, fun r hr hra => ?_, h.seg, ?_⟩
  · rw [Cpu.pushVal_of_ne _ hr, h.reg r hr hra]
  · rw [Cpu.pushVal_rsp, h.rsp, List.length_cons]
    bv_omega

theorem setRax (h : Built c c' vs) (v : Word) : Built c (c'.setReg .rax v) vs := by
  refine ⟨h.stack.setReg (by decide) v, fun r hr hra => ?_, h.seg, ?_⟩
  · rw [Cpu.setReg_of_ne _ hra, h.reg r hr hra]
  · rw [Cpu.setReg_of_ne _ (by decide), h.rsp]

variable {v ip cs fl sp ss : Word}

theorem addTop (h : Built c c' (v :: vs)) (hlen : vs.length < 2 ^ 60) (imm : Word) :
    Built c (c'.exec (.addMem .rsp 0#64 imm)) ((v + imm) :: vs) :=
  ⟨h.stack.addTop hlen imm, h.reg, h.seg, h.rsp⟩

end Built

variable {c' w c : Cpu}

/-- The flags at the `pushfq`, two pushes and an `add` after entry. -/
theorem flags_addTop {vs : List Word} (h : StackAt c' (v :: vs)) (imm : Word) :
    (c'.exec (.addMem .rsp 0#64 imm)).rflags = addFlags c'.rflags v imm := by
  simp only [Cpu.exec, BitVec.add_zero, h.head]

/-- **Building the frame by hand.**  Five slots above the return address, and only `rax` and the
stack pointer moved. -/
theorem built_pushFrame (c : Cpu) :
    Built c (c.run pushFrame) (frameSlots c ++ [c.mem (c.reg .rsp)]) := by
  -- the state after each instruction, with the stack it leaves
  let c1 := c.exec (.movSeg .rax .ss)
  let c2 := c1.exec (.push .rax)
  let c3 := c2.exec (.push .rsp)
  let c4 := c3.exec (.addMem .rsp 0#64 8#64)
  let c5 := c4.exec .pushfq
  let c6 := c5.exec (.movSeg .rax .cs)
  let c7 := c6.exec (.push .rax)
  let c8 := c7.exec (.load .rax .rsp 32#64)
  have h1 : Built c c1 _ := (Built.entry c).setRax ((c.seg .ss).setWidth 64)
  have hss : c1.reg .rax = (c.seg .ss).setWidth 64 := Cpu.setReg_self ..
  have h2 : Built c c2 _ := h1.pushVal (by simp) (c1.reg .rax)
  have h3 : Built c c3 _ := h2.pushVal (by simp) (c2.reg .rsp)
  have h4 : Built c c4 _ := h3.addTop (by simp) 8#64
  have hsp : c2.reg .rsp = c.reg .rsp - 8#64 := by
    rw [h2.rsp]
    simp only [List.length_cons, List.length_nil]
    bv_omega
  have hfl : flagsImage c4.rflags = savedFlags c := by
    rw [savedFlags, flags_addTop h3.stack, hsp]
    rfl
  have h5 : Built c c5 _ := h4.pushVal (by simp) (flagsImage c4.rflags)
  have h6 : Built c c6 _ := h5.setRax ((c5.seg .cs).setWidth 64)
  have hcs : c6.reg .rax = (c.seg .cs).setWidth 64 := by
    rw [← congrFun h5.seg]
    exact Cpu.setReg_self ..
  have h7 : Built c c7 _ := h6.pushVal (by simp) (c6.reg .rax)
  have hret : c7.mem (c7.reg .rsp + 32#64) = c.mem (c.reg .rsp) :=
    h7.stack.get (i := 4) (by simp) rfl
  have h8 : Built c c8 _ := h7.setRax (c7.mem (c7.reg .rsp + 32#64))
  have hra : c8.reg .rax = c.mem (c.reg .rsp) := by
    rw [← hret]
    exact Cpu.setReg_self ..
  have h9 := h8.pushVal (by simp) (c8.reg .rax)
  rw [hra, hcs, hfl, hss, hsp, BitVec.sub_add_cancel] at h9
  have hrun : c.run pushFrame = c8.pushVal (c8.reg .rax) := rfl
  rw [hrun, hra]
  exact h9

/-- The save path is the frame, fifteen pushes and the pointer. -/
theorem atSchedule_eq (c : Cpu) : atSchedule c =
    (Cpu.run (savedRegs.map .push) (c.run pushFrame)).exec (.mov .rdi .rsp) := by
  rw [atSchedule, kernelYieldSave, Cpu.run_append _ _ rfl, Cpu.run_append _ _ rfl]
  rfl

/-- **The frame `schedule` is given**: the fifteen registers, the five slots `iretq` takes, and the
return address above them. -/
theorem atSchedule_stack (c : Cpu) :
    StackAt (atSchedule c) ((restoredRegs.map (c.run pushFrame).reg)
      ++ (frameSlots c ++ [c.mem (c.reg .rsp)])) := by
  have hB := built_pushFrame c
  have hP := run_push savedRegs (by decide) hB.stack (by simp [savedRegs, frameSlots])
  rw [atSchedule_eq]
  exact hP.stack.setReg (by decide) _

/-- The pointer `schedule` is given is the stack pointer. -/
theorem atSchedule_rdi (c : Cpu) : (atSchedule c).reg .rdi = (atSchedule c).reg .rsp := by
  rw [atSchedule, kernelYieldSave, Cpu.run_append _ _ rfl]
  rfl

/-! ## Leaving through `pit_interrupt_exit` -/

/-- **The exit path, past its `gs` test**: fifteen pops, `sti`, `iretq`, from a state that has the
new stack pointer and otherwise the registers and memory `schedule` returned in. -/
theorem resume_eq (w : Cpu) : ∃ c : Cpu, c.reg = (w.setReg .rsp (w.reg .rax)).reg ∧ c.mem = w.mem
    ∧ resume w = ((c.run (restoredRegs.map .pop)).exec .sti).iret := by
  set c1 := w.setReg .rsp (w.reg .rax)
  set c2 := c1.exec (.testMem .rsp 128#64 3#64)
  have htail : ∀ c : Cpu, c.run (restoredRegs.map .pop ++ [.sti, .iretq])
      = ((c.run (restoredRegs.map .pop)).exec .sti).iret := fun c =>
    Cpu.run_append _ _ rfl c
  have hrun : resume w = if c2.zf then c2.run (restoredRegs.map .pop ++ [.sti, .iretq])
      else (c2.exec .swapgs).run (restoredRegs.map .pop ++ [.sti, .iretq]) := rfl
  by_cases hz : c2.zf = true
  · exact ⟨c2, rfl, rfl, by rw [hrun, if_pos hz, htail]⟩
  · exact ⟨c2.exec .swapgs, rfl, rfl, by rw [hrun, if_neg hz, htail]⟩

/-- The last two instructions, on the five slots at the stack pointer. -/
theorem iret_sti {d : Cpu} {vs : List Word} (h : StackAt d (ip :: cs :: fl :: sp :: ss :: vs)) :
    (d.exec .sti).iret.rip = ip ∧ (d.exec .sti).iret.rflags = fl
      ∧ (d.exec .sti).iret.reg = update d.reg .rsp sp := by
  have h0 : d.slot 0 = ip := h 0 (by simp)
  have h2 : d.slot 2 = fl := h 2 (by simp)
  have h3 : d.slot 3 = sp := h 3 (by simp)
  exact ⟨h0, h2, congrArg (update d.reg .rsp) h3⟩

/-- **`pit_interrupt_exit` unwinds a saved frame**: fifteen registers, then the five slots of
`iretq`. -/
theorem resume_spec {ws vs : List Word} (hws : ws.length = restoredRegs.length)
    (h : StackAt (w.setReg .rsp (w.reg .rax)) (ws ++ (ip :: cs :: fl :: sp :: ss :: vs))) :
    (resume w).rip = ip ∧ (resume w).rflags = fl ∧ (resume w).reg .rsp = sp
      ∧ ∀ i (hi : i < restoredRegs.length) (hw : i < ws.length),
        (resume w).reg restoredRegs[i] = ws[i] := by
  obtain ⟨c, hreg, hmem, hres⟩ := resume_eq w
  have hc : StackAt c (ws ++ (ip :: cs :: fl :: sp :: ss :: vs)) :=
    h.congr fun i _ => by rw [Cpu.slot, Cpu.slot, hreg, hmem]; rfl
  have hP := run_pop restoredRegs (by decide) (by decide) hws hc
  obtain ⟨hip, hfl, hr⟩ := iret_sti hP.stack
  rw [hres]
  refine ⟨hip, hfl, ?_, fun i hi hw => ?_⟩
  · rw [hr, update_self]
  · have hne : restoredRegs[i] ≠ .rsp := fun he => absurd (he ▸ List.getElem_mem hi) (by decide)
    rw [hr, update_of_ne hne]
    exact hP.popped i hi hw

/-! ## A yield is not a call -/

/-- The stack a handed-back thread finds at its saved pointer is the one it left there. -/
theorem HandedBack.stack (h : HandedBack c w) :
    StackAt (w.setReg .rsp (w.reg .rax)) (restoredRegs.map (c.run pushFrame).reg
      ++ (frameSlots c ++ [c.mem (c.reg .rsp)])) := by
  refine (atSchedule_stack c).congr fun i hi => ?_
  have hi' : i < 21 := by simpa [restoredRegs, frameSlots] using hi
  have hsp : (w.setReg .rsp (w.reg .rax)).reg .rsp = (atSchedule c).reg .rdi := by
    rw [Cpu.setReg_self, h.pointer]
  rw [Cpu.slot, Cpu.slot, hsp, ← atSchedule_rdi]
  exact h.kept i hi'

/-- **Where a yield comes back**: at the return address, with the stack pointer it was *entered*
with — the slot of the return address is not released. -/
theorem resume_handedBack (h : HandedBack c w) :
    (resume w).rip = c.mem (c.reg .rsp) ∧ (resume w).rflags = savedFlags c
      ∧ (resume w).reg .rsp = c.reg .rsp ∧ ∀ r ∈ calleeSaved, (resume w).reg r = c.reg r := by
  obtain ⟨hip, hfl, hsp, hregs⟩ := resume_spec (by simp) h.stack
  refine ⟨hip, hfl, hsp, fun r hr => ?_⟩
  have hmem : r ∈ restoredRegs := by revert hr; cases r <;> decide
  have hne : r ≠ .rsp ∧ r ≠ .rax := by revert hr; cases r <;> decide
  obtain ⟨i, hi, rfl⟩ := List.getElem_of_mem hmem
  rw [hregs i hi (by simpa using hi), List.getElem_map]
  exact (built_pushFrame c).reg _ hne.1 hne.2

/-- `n` calls to `kernel_yield` in a row: each pushes a return address, yields, and is handed
back. -/
inductive Yields : ℕ → Cpu → Cpu → Prop
  | zero (c : Cpu) : Yields 0 c c
  | succ {n : ℕ} {c c' w : Cpu} (ra : Word) (h : Yields n c c')
      (hw : HandedBack (c'.pushVal ra) w) : Yields (n + 1) c (resume w)

/-- **Each yield of a loop costs its caller one stack slot.** -/
theorem Yields.rsp_eq {n : ℕ} (h : Yields n c c') :
    c'.reg .rsp = c.reg .rsp - BitVec.ofNat 64 (8 * n) := by
  induction h with
  | zero c => simp
  | succ ra _ hw ih =>
    rw [(resume_handedBack hw).2.2.1, Cpu.pushVal_rsp, ih]
    bv_omega

/-- **`kernel_yield` never returns as a call does**: not from any state, whatever ran meanwhile, and
no loop of yields keeps its stack pointer. -/
theorem kernelYield_never_ordinary (c : Cpu) :
    (∀ w : Cpu, HandedBack c w → ¬ OrdinaryReturn c (resume w))
      ∧ ∀ (n : ℕ) (c' : Cpu), 0 < n → n < 2 ^ 61 → Yields n c c' →
        c'.reg .rsp ≠ c.reg .rsp := by
  refine ⟨fun w h hret => ?_, fun n c' h0 hn hy heq => ?_⟩
  · have hsp := hret.rsp
    rw [(resume_handedBack h).2.2.1] at hsp
    bv_omega
  · rw [hy.rsp_eq] at heq
    bv_omega

/-- An idle thread about to yield: a kernel stack pointer, kernel segments, interrupts on. -/
def idleAtYield : Cpu where
  reg := fun r => if r = .rsp then 0xffffa00000003ff8#64 else 0#64
  seg := fun s => match s with
    | .cs => 0x08#16
    | .ss => 0x10#16
  rip := 0#64
  rflags := 0x202#64
  gsBase := 0#64
  kernelGsBase := 0#64
  mem := fun _ => 0xffffffff80001234#64

/-- The same thread handed back at once: `schedule` returns the pointer it was given. -/
def idleBack : Cpu := (atSchedule idleAtYield).setReg .rax ((atSchedule idleAtYield).reg .rdi)

theorem handedBack_idleBack : HandedBack idleAtYield idleBack :=
  ⟨Cpu.setReg_self .., fun _ _ => rfl⟩

/-- The yield of the idle loop comes back with the stack pointer it was entered with. -/
theorem idleBack_not_ordinary :
    HandedBack idleAtYield idleBack ∧ ¬ OrdinaryReturn idleAtYield (resume idleBack) := by
  refine ⟨handedBack_idleBack, fun hret => ?_⟩
  have hsp := hret.rsp
  rw [(resume_handedBack handedBack_idleBack).2.2.1] at hsp
  exact absurd hsp (by decide)

/-- The hypotheses of `kernelYield_never_ordinary` are met by the idle thread. -/
theorem kernelYield_never_ordinary_idle :
    HandedBack idleAtYield idleBack ∧ ¬ OrdinaryReturn idleAtYield (resume idleBack) :=
  ⟨handedBack_idleBack, (kernelYield_never_ordinary idleAtYield).1 _ handedBack_idleBack⟩

end Hvos.Machine
