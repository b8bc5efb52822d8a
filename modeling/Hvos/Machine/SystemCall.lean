import Hvos.Machine.Interrupts

/-!
# Machine/SystemCall — `syscall_entry_asm` gives the program its state back

A program executes `syscall`; `syscall_entry_asm` changes to the kernel stack of the thread, builds
the `pt_regs_t` that `syscall_handler` is given, and leaves with `sysret`:

    rax rbx rcx rdx rsi rdi rbp r8 … r15 │ orig_ax │ rip cs rflags rsp ss

The stack pointer comes back from `rbp`, which the C code keeps, so it does not matter where the
stack pointer is when `syscall_handler` returns — a thread that has yielded in between comes back
lower (`Machine/Yield`).
-/

namespace Hvos.Machine

open Function

open X86

/-! ## The path -/

/-- The registers `init_syscall` sets, for the address of `syscall_entry_asm`. -/
def syscallMsrs (entry : Word) : Msrs where
  star := ((0x20#64 - 16#64) &&& 0xFFF8#64) <<< 48 ||| (0x08#64 &&& 0xFFF8#64) <<< 32
  lstar := entry
  sfmask := 0xFFFFFFFFFFFFFFFD#64

/-- `syscall_entry_asm`: to the kernel's base and the thread's kernel stack. -/
def syscallSwitch : List Op :=
  [.cli, .block [.swapgs], .storeGs 0#64 .rsp, .loadGs .rsp 8#64]

/-- The six slots below the registers. -/
def syscallFrame : List Op :=
  [.pushImm 0x1B#64, .pushGs 0#64, .block [.push .r11], .pushImm 0x23#64, .block [.push .rcx],
    .block [.push .rax]]

/-- `syscall_entry_asm`, up to its call. -/
def syscallEntry : List Op :=
  syscallSwitch ++ syscallFrame ++
    [.block (savedRegs.map .push), .block [.mov .rbp .rsp, .mov .rdi .rbp]]

/-- Behind its call: the registers, `rcx`, `r11` and the stack pointer off the frame. -/
def syscallRestore : List Op :=
  [.addReg .rsp 8#64, .block [.pop .rcx], .addReg .rsp 8#64, .block [.pop .r11], .block [.pop .rsp],
    .block [.sti, .swapgs]]

/-- `syscall_entry_asm`, behind its call and up to `sysret`. -/
def syscallExit : List Op :=
  [.block [.mov .rsp .rbp], .block (restoredRegs.map .pop)] ++ syscallRestore

/-- The state in which `syscall_handler` is called for a program that executes `syscall` in `c`. -/
def atSyscall (entry : Word) (c : Cpu) : Cpu := (c.syscall (syscallMsrs entry)).runOps syscallEntry

/-- The state in which the program goes on, once `syscall_handler` has returned in `w`. -/
def afterSyscall (entry : Word) (w : Cpu) : Cpu := (w.runOps syscallExit).sysret (syscallMsrs entry)

/-! ## The frame -/

/-- The registers behind `syscall`. -/
def syscallRegs (c : Cpu) : Reg → Word :=
  update (update c.reg .rcx c.rip) .r11 c.rflags

/-- **The `pt_regs_t`**: the registers, the number of the call, and what `sysret` goes back to. -/
def ptRegs (c : Cpu) : List Word :=
  restoredRegs.map (syscallRegs c) ++
    [c.reg .rax, c.rip, 0x23#64, c.rflags, c.reg .rsp, 0x1B#64]

/-- The kernel stack does not begin right above the word that `syscall_entry_asm` keeps the user's
stack pointer in. -/
def ScratchApart (c : Cpu) : Prop := c.mem (c.kernelGsBase + 8#64) - 8#64 ≠ c.kernelGsBase

/-- Behind the change of stacks. -/
def onKernelStack (entry : Word) (c : Cpu) : Cpu :=
  (c.syscall (syscallMsrs entry)).runOps syscallSwitch

theorem onKernelStack_spec (entry : Word) (c : Cpu) :
    (∀ r, r ≠ .rsp → (onKernelStack entry c).reg r = syscallRegs c r) ∧
      (onKernelStack entry c).reg .rsp = c.mem (c.kernelGsBase + 8#64) ∧
      (onKernelStack entry c).mem = update c.mem c.kernelGsBase (c.reg .rsp) ∧
      Gs.cpuBases (onKernelStack entry c) = (Gs.cpuBases c).swapgs := by
  have hne : c.kernelGsBase + 8#64 ≠ c.kernelGsBase := by bv_omega
  have hmem : (onKernelStack entry c).mem =
      update c.mem (c.kernelGsBase + 0#64) (syscallRegs c .rsp) := rfl
  rw [BitVec.add_zero] at hmem
  refine ⟨fun r hr => Cpu.setReg_of_ne _ hr _, ?_, hmem, rfl⟩
  refine (Cpu.setReg_self ..).trans ?_
  exact (congrFun hmem _).trans (update_of_ne hne ..)

/-- The six slots, from a state `k` on the kernel stack. -/
theorem onto_syscallFrame {c k : Cpu} (hgs : k.gsBase = c.kernelGsBase)
    (hmem : k.mem = update c.mem c.kernelGsBase (c.reg .rsp))
    (hne : c.kernelGsBase ≠ k.reg .rsp - 8#64) : Onto k (k.runOps syscallFrame)
      [k.reg .rax, k.reg .rcx, 0x23#64, k.reg .r11, c.reg .rsp, 0x1B#64] := by
  let k1 := k.pushVal 0x1B#64
  let k2 := k1.pushVal (k1.mem (k1.gsBase + 0#64))
  let k3 := k2.pushVal (k2.reg .r11)
  let k4 := k3.pushVal 0x23#64
  let k5 := k4.pushVal (k4.reg .rcx)
  have h1 : Onto k k1 _ := (Onto.start k).pushVal (by simp) 0x1B#64
  have hscratch : k1.mem (k1.gsBase + 0#64) = c.reg .rsp := by
    have hbase : k1.gsBase + 0#64 = c.kernelGsBase := (BitVec.add_zero _).trans hgs
    rw [hbase]
    refine (update_of_ne hne ..).trans ?_
    rw [hmem, update_self]
  have h2 : Onto k k2 _ := h1.pushVal (by simp) (k1.mem (k1.gsBase + 0#64))
  have h3 : Onto k k3 _ := h2.pushVal (by simp) (k2.reg .r11)
  have h4 : Onto k k4 _ := h3.pushVal (by simp) 0x23#64
  have h5 : Onto k k5 _ := h4.pushVal (by simp) (k4.reg .rcx)
  have h6 := h5.pushVal (by simp) (k5.reg .rax)
  rw [h5.reg .rax (by decide), h4.reg .rcx (by decide), h2.reg .r11 (by decide), hscratch] at h6
  have hrun : k.runOps syscallFrame = k5.pushVal (k5.reg .rax) := rfl
  rw [hrun, h5.reg .rax (by decide)]
  exact h6

/-- **The frame `syscall_handler` is given**, at `rsp`, `rbp` and `rdi`. -/
theorem stackAt_atSyscall (entry : Word) {c : Cpu} (hapart : ScratchApart c) :
    StackAt (atSyscall entry c) (ptRegs c) ∧
      (atSyscall entry c).reg .rbp = (atSyscall entry c).reg .rsp ∧
      (atSyscall entry c).reg .rdi = (atSyscall entry c).reg .rsp ∧
      Gs.cpuBases (atSyscall entry c) = (Gs.cpuBases c).swapgs := by
  obtain ⟨hreg, hrsp, hmem, hbases⟩ := onKernelStack_spec entry c
  have hsplit : atSyscall entry c = (((onKernelStack entry c).runOps syscallFrame).run
      (savedRegs.map .push)).run [.mov .rbp .rsp, .mov .rdi .rbp] := by
    rw [atSyscall, syscallEntry, Cpu.runOps_append, Cpu.runOps_append]
    rfl
  generalize onKernelStack entry c = k at hreg hrsp hmem hbases hsplit
  have honto := onto_syscallFrame (congrArg Gs.Bases.active hbases) hmem
    (by rw [hrsp]; exact fun h => hapart h.symm)
  generalize k.runOps syscallFrame = d at honto hsplit
  obtain ⟨hstack, hcontrol⟩ := run_save honto.stack (by simp)
  generalize d.run (savedRegs.map .push) = e at hstack hcontrol hsplit
  have hframe : restoredRegs.map d.reg ++ [k.reg .rax, k.reg .rcx, 0x23#64, k.reg .r11, c.reg .rsp,
      0x1B#64] = ptRegs c := by
    have hmap : restoredRegs.map d.reg = restoredRegs.map (syscallRegs c) :=
      List.map_congr_left fun r hr => by
        have hne : r ≠ .rsp := by rintro rfl; revert hr; decide
        rw [honto.reg r hne, hreg r hne]
    rw [hmap, hreg .rax (by decide), hreg .rcx (by decide), hreg .r11 (by decide)]
    rfl
  rw [hframe] at hstack
  have hlast : atSyscall entry c = (e.setReg .rbp (e.reg .rsp)).setReg .rdi (e.reg .rsp) := hsplit
  rw [hlast]
  refine ⟨(hstack.setReg (by decide) _).setReg (by decide) _, rfl, rfl, ?_⟩
  exact (cpuBases_of_control (honto.control.trans hcontrol)).trans hbases

/-! ## The way back -/

/-- **`syscall_handler`**, called in `e` and back in `w`: `rbp` is as it was, of the frame at most
`rax` has changed, and the bases are as they were. -/
structure Handled (e w : Cpu) : Prop where
  rbp : w.reg .rbp = e.reg .rbp
  kept : ∀ i < 21, i ≠ 0 → w.mem (e.reg .rbp + BitVec.ofNat 64 (8 * i)) =
    e.mem (e.reg .rbp + BitVec.ofNat 64 (8 * i))
  bases : Gs.cpuBases w = Gs.cpuBases e

/-- `frame->rax`. -/
def frameRax (w : Cpu) : Word := w.mem (w.reg .rbp)

/-- **The program goes on behind its `syscall`**: all but `rax`, `rcx` and `r11` is as it was. -/
structure BackInUser (c f : Cpu) (ret : Word) : Prop where
  reg : ∀ r, r ≠ .rax → r ≠ .rcx → r ≠ .r11 → f.reg r = c.reg r
  rax : f.reg .rax = ret
  rcx : f.reg .rcx = c.rip
  r11 : f.reg .r11 = c.rflags
  rip : f.rip = c.rip
  rflags : f.rflags = Cpu.sysretFlags c.rflags
  cs : f.seg .cs = 0x23#16
  ss : f.seg .ss = 0x1B#16
  bases : Gs.cpuBases f = Gs.cpuBases c

/-- The frame `syscall_entry_asm` takes off the stack. -/
theorem Handled.stack {entry : Word} {c w : Cpu} (hapart : ScratchApart c)
    (h : Handled (atSyscall entry c) w) : StackAt (w.setReg .rsp (w.reg .rbp))
      (restoredRegs.map (update (syscallRegs c) .rax (frameRax w)) ++
        [c.reg .rax, c.rip, 0x23#64, c.rflags, c.reg .rsp, 0x1B#64]) := by
  obtain ⟨hstack, hrbp, -, -⟩ := stackAt_atSyscall entry hapart
  have hrest : ∀ r ∈ restoredRegs.tail, update (syscallRegs c) .rax (frameRax w) r =
      syscallRegs c r := fun r hr =>
    update_of_ne (by rintro rfl; revert hr; decide) ..
  have htail : restoredRegs.map (update (syscallRegs c) .rax (frameRax w)) =
      frameRax w :: restoredRegs.tail.map (syscallRegs c) := by
    rw [← List.map_congr_left hrest]
    rfl
  have hhead : ptRegs c = syscallRegs c .rax :: (restoredRegs.tail.map (syscallRegs c) ++
      [c.reg .rax, c.rip, 0x23#64, c.rflags, c.reg .rsp, 0x1B#64]) := rfl
  rw [hhead] at hstack
  rw [htail, List.cons_append]
  intro i hi
  rw [Cpu.slot, Cpu.setReg_self]
  rcases i with _ | i
  · simp [frameRax, Cpu.setReg]
  · have hlt : i + 1 < 21 := by simpa [restoredRegs] using hi
    have hold := hstack (i + 1) hi
    rw [Cpu.slot, ← hrbp] at hold
    rw [List.getElem_cons_succ] at hold ⊢
    rw [h.rbp]
    exact (h.kept (i + 1) hlt (by omega)).trans hold

/-- A slot dropped, and the next one popped. -/
def dropPop (r : Reg) (d : Cpu) : Cpu := (d.execOp (.addReg .rsp 8#64)).exec (.pop r)

theorem dropPop_spec {d : Cpu} {u v : Word} {vs : List Word} {r : Reg} (hr : r ≠ .rsp)
    (h : StackAt d (u :: v :: vs)) : StackAt (dropPop r d) vs ∧ (dropPop r d).reg r = v ∧
      (∀ q, q ≠ .rsp → q ≠ r → (dropPop r d).reg q = d.reg q) ∧
      Gs.cpuBases (dropPop r d) = Gs.cpuBases d := by
  have hdrop := h.addRsp
  refine ⟨hdrop.pop hr, (Cpu.setReg_self ..).trans hdrop.head, fun q hq hqr => ?_, rfl⟩
  exact (Cpu.setReg_of_ne _ hqr _).trans ((Cpu.setReg_of_ne _ hq _).trans (Cpu.setReg_of_ne _ hq _))

/-- The instructions between the fifteen pops and `sysret`. -/
theorem syscallRestore_spec {d : Cpu} {ax ip cs fl sp ss : Word}
    (h : StackAt d [ax, ip, cs, fl, sp, ss]) :
    (∀ r, r ≠ .rsp → r ≠ .rcx → r ≠ .r11 → (d.runOps syscallRestore).reg r = d.reg r) ∧
      (d.runOps syscallRestore).reg .rcx = ip ∧ (d.runOps syscallRestore).reg .r11 = fl ∧
      (d.runOps syscallRestore).reg .rsp = sp ∧
      Gs.cpuBases (d.runOps syscallRestore) = (Gs.cpuBases d).swapgs := by
  have hrun : d.runOps syscallRestore =
      (((dropPop .r11 (dropPop .rcx d)).exec (.pop .rsp)).exec .sti).exec .swapgs := rfl
  obtain ⟨h1, hcx, hothers1, hbases1⟩ := dropPop_spec (r := .rcx) (by decide) h
  generalize dropPop .rcx d = d1 at hrun h1 hcx hothers1 hbases1
  obtain ⟨h2, h11, hothers2, hbases2⟩ := dropPop_spec (r := .r11) (by decide) h1
  generalize dropPop .r11 d1 = d2 at hrun h2 h11 hothers2 hbases2
  have hreg : (d.runOps syscallRestore).reg = (d2.exec (.pop .rsp)).reg := by
    rw [hrun]
    rfl
  have hbases : Gs.cpuBases (d.runOps syscallRestore) = (Gs.cpuBases d2).swapgs := by
    rw [hrun]
    rfl
  have hpop : ∀ r, r ≠ .rsp → (d2.exec (.pop .rsp)).reg r = d2.reg r := fun r hr =>
    (Cpu.setReg_of_ne _ hr _).trans (Cpu.setReg_of_ne _ hr _)
  rw [hreg, hbases, hbases2, hbases1]
  refine ⟨fun r hsp hcx h11 => ?_, ?_, ?_, (Cpu.setReg_self ..).trans h2.head, rfl⟩
  · rw [hpop r hsp, hothers2 r hsp h11, hothers1 r hsp hcx]
  · rw [hpop _ (by decide), hothers2 _ (by decide) (by decide), hcx]
  · rw [hpop _ (by decide), h11]

/-- `MSR_STAR` sends `sysret` to the segments the frame names. -/
theorem sysret_segs {entry : Word} {f : Cpu} : (f.sysret (syscallMsrs entry)).seg .cs = 0x23#16 ∧
      (f.sysret (syscallMsrs entry)).seg .ss = 0x1B#16 := by
  have hstar : ((syscallMsrs 0#64).star >>> 48).setWidth 16 = 0x10#16 := by decide
  exact ⟨congrArg (fun s : BitVec 16 => s + 16#16 ||| 3#16) hstar,
    congrArg (fun s : BitVec 16 => s + 8#16 ||| 3#16) hstar⟩

/-- **A system call gives the program its state back.**  From any state of the program at `syscall`,
`syscall_handler` is given a frame with all of its registers, the number of the call, and what
`sysret` will go back to; and whatever it does that keeps `rbp` and the frame but `frame->rax`,
wherever it leaves the stack pointer, the program goes on behind its `syscall` with `frame->rax` in
`rax`, its own stack pointer, flags, segments and bases, and every other register but `rcx` and
`r11` as it was. -/
theorem systemCall_gives_back (entry : Word) {c w : Cpu} (hapart : ScratchApart c)
    (h : Handled (atSyscall entry c) w) : StackAt (atSyscall entry c) (ptRegs c) ∧
      (atSyscall entry c).reg .rdi = (atSyscall entry c).reg .rsp ∧
      BackInUser c (afterSyscall entry w) (frameRax w) := by
  obtain ⟨hframe, -, hrdi, hkernel⟩ := stackAt_atSyscall entry hapart
  obtain ⟨hrest, hregs, hcontrol⟩ := run_restore (h.stack hapart)
  have hrun : afterSyscall entry w = (((w.setReg .rsp (w.reg .rbp)).run
      (restoredRegs.map .pop)).runOps syscallRestore).sysret (syscallMsrs entry) := by
    rw [afterSyscall, syscallExit, Cpu.runOps_append]
    rfl
  have hpopped : Gs.cpuBases ((w.setReg .rsp (w.reg .rbp)).run (restoredRegs.map .pop)) =
      Gs.cpuBases w := (cpuBases_of_control hcontrol :)
  generalize (w.setReg .rsp (w.reg .rbp)).run (restoredRegs.map .pop) = d at hrest hregs hrun hpopped
  obtain ⟨hothers, hcx, h11, hsp, hbases⟩ := syscallRestore_spec hrest
  generalize d.runOps syscallRestore = f at hothers hcx h11 hsp hbases hrun
  refine ⟨hframe, hrdi, ?_⟩
  rw [hrun]
  refine
    { reg := fun r hax hrcx hr11 => ?_
      rax := ?_
      rcx := hcx
      r11 := h11
      rip := hcx
      rflags := congrArg Cpu.sysretFlags h11
      cs := sysret_segs.1
      ss := sysret_segs.2
      bases := ?_ }
  · show f.reg r = c.reg r
    by_cases hrsp : r = .rsp
    · rw [hrsp, hsp]
    · rw [hothers r hrsp hrcx hr11, hregs r hrsp, update_of_ne hax, syscallRegs,
        update_of_ne hr11, update_of_ne hrcx]
  · show f.reg .rax = frameRax w
    rw [hothers _ (by decide) (by decide) (by decide), hregs _ (by decide), update_self]
  · show Gs.cpuBases f = Gs.cpuBases c
    rw [hbases, hpopped, h.bases, hkernel]
    rfl

/-- The user program of `Machine/Interrupts` makes a system call that leaves the frame alone. -/
theorem systemCall_gives_back_userAtWork : ScratchApart userAtWork ∧ BackInUser userAtWork
      (afterSyscall 0xffffffff80002000#64 (atSyscall 0xffffffff80002000#64 userAtWork)) 7#64 := by
  have hapart : ScratchApart userAtWork := by unfold ScratchApart; decide
  have hback := (systemCall_gives_back 0xffffffff80002000#64 hapart ⟨rfl, fun _ _ _ => rfl, rfl⟩).2.2
  have hrax : frameRax (atSyscall 0xffffffff80002000#64 userAtWork) = 7#64 := by
    obtain ⟨hstack, hrbp, -⟩ := stackAt_atSyscall 0xffffffff80002000#64 hapart
    rw [frameRax, hrbp]
    exact hstack.head
  rw [hrax] at hback
  exact ⟨hapart, hback⟩

end Hvos.Machine
