import Hvos.Machine.Yield
import Hvos.Sched.Consistency

/-!
# Sched/YieldCalls — the ways into the scheduler

`kernel_yield` fills `rdi` and leaves `rsi` as it is, and `schedule` does nothing if it finds a `1`
there: the decision depends on what the caller has left in `rsi` (`kernelYield_same_iff`).

`SC_YIELD` enters no scheduler at all: its software interrupt is the timer's, which counts a tick
and charges the caller for it (`scYield_yields_iff`).
-/

namespace Hvos.Sched.TaskList

open Function

open X86 Machine

/-! ## `kernel_yield` -/

/-- The registers a call may change. -/
def callerSaved : List Reg := [.rax, .rcx, .rdx, .rsi, .rdi, .r8, .r9, .r10, .r11]

/-- **Two processors that differ in caller-saved registers only.** -/
structure SameButScratch (c c' : Cpu) : Prop where
  reg : ∀ r, r ∉ callerSaved → c'.reg r = c.reg r
  seg : c'.seg = c.seg
  rip : c'.rip = c.rip
  rflags : c'.rflags = c.rflags
  gsBase : c'.gsBase = c.gsBase
  kernelGsBase : c'.kernelGsBase = c.kernelGsBase
  mem : c'.mem = c.mem

/-- `kernel_yield`, up to its switch of stacks: `schedule` takes its arguments from `rdi` and
`rsi`. -/
def kernelYield (c : Cpu) (s : TaskList) : Option (UInt64 × TaskList) :=
  s.schedule (.ofBitVec ((atSchedule c).reg .rdi)) (.ofBitVec ((atSchedule c).reg .rsi))

/-- **A scheduling decision**: the frame that is switched to, the current thread, and the thread
states. -/
structure Decision where
  frame : UInt64
  currentThread : Option ℕ
  state : ℕ → TaskState

/-- What a return of `schedule` decides. -/
def decision (r : UInt64 × TaskList) : Decision :=
  ⟨r.1, r.2.currentThread, fun t => (r.2.thr t).state⟩

/-- **`schedule` would change nothing**: no thread is current, or none is `READY` and the current
one is kept, as the idle thread or as one of two. -/
def Stays (s : TaskList) : Prop :=
  ∀ cur, s.currentThread = some cur → (∀ t ∈ s.threadList, (s.thr t).state ≠ .ready) ∧
    ((s.thr cur).name = "IDLE_THREAD" ∨ s.threadList.length = 2)

/-- The registers at the call of `schedule`: those of the caller but for `rax`, `rdi` and the stack
pointer, which is twenty slots lower. -/
theorem atSchedule_reg (c : Cpu) : (atSchedule c).reg .rdi = c.reg .rsp - 160#64 ∧
    (atSchedule c).reg .rsi = c.reg .rsi := by
  have hB := built_pushFrame c
  have hP := run_push savedRegs (by decide) hB.stack (by simp [savedRegs, frameSlots])
  rw [atSchedule_rdi, atSchedule_eq]
  constructor
  · rw [Cpu.exec, Cpu.setReg_of_ne _ (by decide), hP.rsp, hB.rsp]
    simp only [savedRegs, frameSlots, List.length_cons, List.length_nil, List.length_append]
    bv_omega
  · rw [Cpu.exec, Cpu.setReg_of_ne _ (by decide), hP.reg _ (by decide),
      hB.reg _ (by decide) (by decide)]

/-! ## What `schedule` makes of `from` -/

section Schedule

variable {s : TaskList} {rsp src : UInt64}

theorem schedule_one (s : TaskList) (rsp : UInt64) : s.schedule rsp 1 = some (rsp, s) := if_pos rfl

/-- Any other value is as good as 0. -/
theorem schedule_of_ne (hsrc : src ≠ 1) : s.schedule rsp src = s.schedule rsp 0 := by
  simp only [schedule, if_neg hsrc, if_neg zero_src_ne]

/-- A switch to another thread is a decision to switch. -/
theorem decision_switchTo_ne {cur next : ℕ} (hne : cur ≠ next) {r : UInt64 × TaskList}
    (hcur : r.2.currentThread = some cur) : decision (s.switchTo cur next) ≠ decision r := by
  intro heq
  have hcurrent := congrArg Decision.currentThread heq
  rw [decision, decision, (switchTo_rest s hne).2.2.1, hcur] at hcurrent
  exact hne (Option.some.inj hcurrent).symm

/-- A thread that was `READY` does not stay so once it is switched to. -/
theorem decision_switchTo_ready {cur next : ℕ} (hready : (s.thr next).state = .ready)
    (hcur : s.currentThread = some cur) : decision (s.switchTo cur next) ≠ decision (rsp, s) := by
  rcases eq_or_ne cur next with rfl | hne
  · intro heq
    have hstate := congrFun (congrArg Decision.state heq) cur
    simp only [decision, switchTo, if_true, setState, modThread_self, hready] at hstate
    cases hstate
  · exact decision_switchTo_ne hne hcur

/-- **`schedule` decides nothing exactly if it has nothing to do.** -/
theorem decision_schedule_iff :
    (s.schedule rsp 0).map decision = some (decision (rsp, s)) ↔ s.Stays := by
  cases hcur : s.currentThread with
  | none =>
    simp only [schedule, if_neg zero_src_ne, hcur, Option.map_some, Stays, true_iff]
    rintro cur ⟨⟩
  | some cur =>
    set s0 := s.modThread cur fun th => { th with kRsp := rsp } with hs0
    have hthr : ∀ t, (s0.thr t).state = (s.thr t).state ∧ (s0.thr t).name = (s.thr t).name := by
      intro t
      rcases eq_or_ne t cur with rfl | ht
      · simp [hs0]
      · rw [hs0, modThread_of_ne s _ ht]
        exact ⟨rfl, rfl⟩
    have hkept : decision (rsp, s0) = decision (rsp, s) := by
      simp only [decision, hthr]
      rfl
    have hstays : s.Stays ↔ (∀ t ∈ s0.threadList, (s0.thr t).state ≠ .ready) ∧
        ((s0.thr cur).name = "IDLE_THREAD" ∨ s0.threadList.length = 2) := by
      simp only [hthr]
      exact ⟨fun h => h cur hcur, fun h c hc => Option.mem_unique hcur hc ▸ h⟩
    rw [hstays, ← hkept]
    simp only [schedule, if_neg zero_src_ne, hcur, ← hs0]
    cases hnext : s0.getNextThread with
    | some next =>
      obtain ⟨hmem, hready⟩ := getLowestRuntime_ready hnext
      refine iff_of_false (fun heq => ?_) fun h => h.1 next hmem hready
      exact decision_switchTo_ready hready hcur (Option.some.inj heq)
    | none =>
      have hnone : ∀ t ∈ s0.threadList, (s0.thr t).state ≠ .ready := fun t ht =>
        not_ready_of_getLowestRuntime hnext ht
      simp only
      split_ifs with hidle htwo
      · exact iff_of_true rfl ⟨hnone, .inl hidle⟩
      · exact iff_of_true rfl ⟨hnone, .inr htwo⟩
      · refine iff_of_false ?_ fun h => h.2.elim hidle htwo
        cases hfind : s0.findIdleThread with
        | none => simp
        | some next =>
          have hname := List.find?_some hfind
          have hne : cur ≠ next := fun heq => hidle (heq ▸ by simpa using hname)
          exact fun heq => decision_switchTo_ne hne hcur (Option.some.inj heq)

end Schedule

/-- **The decision of `kernel_yield` is the same from two register files exactly if** the `rsi` of
both is 1 or that of neither, or there is nothing to decide. -/
theorem kernelYield_same_iff {c c' : Cpu} (h : SameButScratch c c') (s : TaskList) :
    (kernelYield c s).map decision = (kernelYield c' s).map decision ↔
      (c.reg .rsi = 1#64 ↔ c'.reg .rsi = 1#64) ∨ s.Stays := by
  have hone : ∀ w : Word, UInt64.ofBitVec w = 1 ↔ w = 1#64 := fun w =>
    ⟨fun heq => congrArg UInt64.toBitVec heq, fun heq => congrArg UInt64.ofBitVec heq⟩
  obtain ⟨hrdi, hrsi⟩ := atSchedule_reg c
  obtain ⟨hrdi', hrsi'⟩ := atSchedule_reg c'
  rw [h.reg .rsp (by decide)] at hrdi'
  simp only [kernelYield, hrdi, hrsi, hrdi', hrsi']
  generalize UInt64.ofBitVec (c.reg .rsp - 160#64) = rsp
  by_cases h1 : c.reg .rsi = 1#64 <;> by_cases h2 : c'.reg .rsi = 1#64
  · rw [h1, h2]
    exact iff_of_true rfl (.inl Iff.rfl)
  · rw [(hone _).2 h1, schedule_one, schedule_of_ne fun heq => h2 ((hone _).1 heq),
      Option.map_some, eq_comm, decision_schedule_iff]
    simp [h1, h2]
  · rw [(hone _).2 h2, schedule_one, schedule_of_ne fun heq => h1 ((hone _).1 heq),
      Option.map_some, decision_schedule_iff]
    simp [h1, h2]
  · rw [schedule_of_ne fun heq => h1 ((hone _).1 heq), schedule_of_ne fun heq => h2 ((hone _).1 heq)]
    simp [h1, h2]

/-- The idle thread about to yield, with a 1 left in `rsi`. -/
def idleWithOne : Cpu := idleAtYield.setReg .rsi 1#64

theorem sameButScratch_idle : SameButScratch idleAtYield idleWithOne := by
  refine ⟨fun r hr => Cpu.setReg_of_ne _ ?_ _, rfl, rfl, rfl, rfl, rfl, rfl⟩
  rintro rfl
  exact hr (by decide)

/-- **A 1 left in `rsi` keeps the caller on**: else the yield goes to the idle thread. -/
theorem kernelYield_leftover : SameButScratch idleAtYield idleWithOne ∧
    ((kernelYield idleAtYield (initMultitasking zeroBoot)).map decision).map
      Decision.currentThread = some (some idleTid) ∧
    ((kernelYield idleWithOne (initMultitasking zeroBoot)).map decision).map
      Decision.currentThread = some (some mainTid) :=
  ⟨sameButScratch_idle, by decide, by decide⟩

theorem kernelYield_same_iff_idle :
    (kernelYield idleAtYield (initMultitasking zeroBoot)).map decision ≠
      (kernelYield idleWithOne (initMultitasking zeroBoot)).map decision := by
  intro hsame
  rcases (kernelYield_same_iff sameButScratch_idle _).1 hsame with hone | hstays
  · exact absurd hone (by decide)
  · exact absurd (hstays mainTid rfl) (by decide)

/-! ## `SC_YIELD` -/

/-- The handlers `intr.c` and `idt.c` put into the interrupt table. -/
inductive Handler
  | exceptionHandler (vector : ℕ)
  | defaultExceptionHandler
  | defaultInterruptHandler
  | pitInterrupt
  | keyboardInterrupt
  | spuriousInterrupt
  | schedulerIsrAsm
  | genericExeptionHandler
  | pagefaultInterrupt
  | gpfExc
  deriving DecidableEq

/-- `idt_init`: the handler of each vector. -/
def idtInit (vector : ℕ) : Handler :=
  if vector < 20 then .exceptionHandler vector
  else if vector < 32 then .defaultExceptionHandler
  else .defaultInterruptHandler

/-- `intr_init`: `INT_TIMER`, `INT_KBD`, `INT_SPURIOUS` and `INT_SCHEDULER`, the exceptions below
`INT_GP`, then `INT_PAGE_FAULT` and `INT_GP`. -/
def intrInit : ℕ → Handler :=
  let idt := update idtInit 0x20 .pitInterrupt
  let idt := update idt 0x21 .keyboardInterrupt
  let idt := update idt 0xFF .spuriousInterrupt
  let idt := update idt 0x30 .schedulerIsrAsm
  let idt := fun vector => if vector < 0xD then .genericExeptionHandler else idt vector
  let idt := update idt 0xE .pagefaultInterrupt
  update idt 0xD .gpfExc

/-- The scheduler's world, and `g_pit_ticks`. -/
structure Clocked where
  gPitTicks : UInt64
  tasks : TaskList

/-- `pit_interrupt`: the scheduler is commented out. -/
def Clocked.pitInterrupt (w : Clocked) : Clocked :=
  ⟨w.gPitTicks + 1, w.tasks.updateCurrThread.updateSleepingQueue⟩

/-- What the two handlers do that touch the scheduler. -/
def Handler.run (rsp : UInt64) (w : Clocked) : Handler → Option Clocked
  | .pitInterrupt => some w.pitInterrupt
  | .schedulerIsrAsm => (w.tasks.schedule rsp 0).map fun r => { w with tasks := r.2 }
  | _ => none

/-- The `SC_YIELD` branch of `syscall_handler`: `int $0x20`. -/
def scYield (rsp : UInt64) (w : Clocked) : Option Clocked := (intrInit 0x20).run rsp w

/-- **The system call does what `kernel_yield` does from the registers `c`**, and neither counts nor
charges a tick. -/
structure YieldsAs (rsp : UInt64) (c : Cpu) (w w' : Clocked) : Prop where
  handled : scYield rsp w = some w'
  decided : ∃ r, kernelYield c w.tasks = some r ∧ w'.tasks.currentThread = r.2.currentThread ∧
    ∀ t, (w'.tasks.thr t).state = (r.2.thr t).state
  ticks : w'.gPitTicks = w.gPitTicks
  vruntime : ∀ t, (w'.tasks.thr t).vruntime = (w.tasks.thr t).vruntime
  queue : w'.tasks.sleepingQueue = w.tasks.sleepingQueue

/-- **`SC_YIELD` is a tick of the clock.** -/
theorem scYield_eq (rsp : UInt64) (w : Clocked) : scYield rsp w = some w.pitInterrupt := rfl

theorem pitInterrupt_gPitTicks (w : Clocked) : w.pitInterrupt.gPitTicks ≠ w.gPitTicks := by
  simp [Clocked.pitInterrupt]

/-- **The system call is a yield in no state**, from no registers. -/
theorem scYield_yields_iff (S : Set (UInt64 × Cpu × Clocked)) :
    (∀ x ∈ S, ∃ w', YieldsAs x.1 x.2.1 x.2.2 w') ↔ S = ∅ := by
  constructor
  · intro h
    refine Set.eq_empty_of_forall_notMem fun x hx => ?_
    obtain ⟨w', hw'⟩ := h x hx
    obtain rfl : x.2.2.pitInterrupt = w' :=
      Option.some.inj ((scYield_eq x.1 x.2.2).symm.trans hw'.handled)
    exact pitInterrupt_gPitTicks x.2.2 hw'.ticks
  · rintro rfl x hx
    exact hx.elim

/-- **After boot**: the system call counts a tick, charges the main thread for it, and goes on with
it; `kernel_yield` would have gone to the idle thread. -/
theorem scYield_after_boot : (scYield 0 ⟨0, initMultitasking zeroBoot⟩).map (fun w => (w.gPitTicks,
      (w.tasks.thr mainTid).vruntime, w.tasks.currentThread)) = some (1, 1, some mainTid) ∧
    (kernelYield idleAtYield (initMultitasking zeroBoot)).map (fun r => r.2.currentThread) =
      some (some idleTid) := by
  decide

end Hvos.Sched.TaskList
