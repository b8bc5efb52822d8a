import Hvos.Drivers.Keyboard
import Hvos.Lib.Runs
import Mathlib.Data.UInt

/-!
# Sched/State — threads, processes and the scheduler, as one state machine

The boot CPU's `cpu_task_list_t`, the objects its lists point to, and every function that writes a
thread state.  A pointer to a thread is its `tid`, a pointer to a process its `pid`: both are
handed out by counters that only grow.

An event is one atomic step: a system call up to its `kernel_yield`, an interrupt, a return of
`schedule`.  A thread that gave up the CPU inside a kernel call remembers where in `Cont`, so that
`resume` can run the rest of the call once the thread is current again.
-/

namespace Hvos.Sched

open Drivers Function

/-! ## Objects -/

/-- `task_state.h`. -/
inductive TaskState
  | new | ready | running | waiting | dead | sleeping
  deriving DecidableEq, Repr

/-- What a `block_channel` can point to: nothing, `console_read`, or any other address. -/
inductive Channel
  | null | console | other (addr : ℕ)
  deriving DecidableEq, Repr

/-- Where a thread stands inside the kernel: in no blocking call, or past the `kernel_yield` of
`sys_waitpid`, of one of the two loops of `console_read`, or of `kusleep`. -/
inductive Cont
  | user | waitpid (child : ℕ) | consoleGate | consoleLoop | sleep
  deriving DecidableEq, Repr

/-- `thread_t`, with the saved position `cont` its kernel stack stands for. -/
structure Thread where
  name : String
  state : TaskState
  kRsp : UInt64
  kernelStackBase : UInt64
  vruntime : UInt64
  sleepTicks : UInt64
  blockChannel : Channel
  process : ℕ
  cont : Cont

/-- `process_t`, less its heap end and file table. -/
structure Process where
  cr3 : UInt64
  parent : Option ℕ
  exitCode : ℤ
  isWaiting : Bool
  waitTargetPid : ℕ
  primary : Option ℕ

/-- `delta_queue_entry_t`. -/
structure DeltaEntry where
  tid : ℕ
  delta : UInt64
  deriving DecidableEq, Repr

/-- The scheduler's world on the boot CPU. -/
structure TaskList where
  thr : ℕ → Thread
  proc : ℕ → Process
  threadList : List ℕ
  processList : List ℕ
  currentThread : Option ℕ
  sleepingQueue : List DeltaEntry
  tssRsp0 : UInt64
  stackTop : UInt64
  cr3 : UInt64
  nextTid : ℕ
  nextPid : ℕ
  consoleReadOwner : Option ℕ
  kdb : Kdb

namespace TaskList

variable (s : TaskList)

/-- Assign through a thread pointer. -/
def modThread (t : ℕ) (f : Thread → Thread) : TaskList :=
  { s with thr := update s.thr t (f (s.thr t)) }

/-- Assign through a process pointer. -/
def modProc (p : ℕ) (f : Process → Process) : TaskList :=
  { s with proc := update s.proc p (f (s.proc p)) }

/-- `t->state = st`. -/
def setState (t : ℕ) (st : TaskState) : TaskList := s.modThread t fun th => { th with state := st }

/-! ## Choosing and switching -/

/-- One round of the loop of `get_lowest_runtime`. -/
def lowerRuntime (next : Option ℕ) (t : ℕ) : Option ℕ :=
  if (s.thr t).state = .ready then
    match next with
    | none => some t
    | some n => if (s.thr t).vruntime < (s.thr n).vruntime then some t else some n
  else next

/-- `get_lowest_runtime`: the first `READY` thread of least `vruntime`. -/
def getLowestRuntime : Option ℕ := s.threadList.foldl s.lowerRuntime none

/-- `get_next_thread`, in the CFS build. -/
def getNextThread : Option ℕ := s.getLowestRuntime

/-- `find_idle_thread`. -/
def findIdleThread : Option ℕ := s.threadList.find? fun t => (s.thr t).name == "IDLE_THREAD"

/-- The second half of `schedule`: stay, or make `next` current and load its stack and its
address space.  The copy of the kernel half of the page tables is not part of this state. -/
def switchTo (cur next : ℕ) : UInt64 × TaskList :=
  if cur = next then
    ((s.thr cur).kRsp, s.setState cur .running)
  else
    let s1 := if (s.thr cur).state = .running then s.setState cur .ready else s
    let s2 := s1.setState next .running
    let base := (s2.thr next).kernelStackBase
    let s3 := { s2 with currentThread := some next, tssRsp0 := base, stackTop := base }
    let curCr3 := (s3.proc (s3.thr cur).process).cr3
    let nextCr3 := (s3.proc (s3.thr next).process).cr3
    ((s3.thr next).kRsp, if curCr3 ≠ nextCr3 then { s3 with cr3 := nextCr3 } else s3)

/-- `schedule(old_rsp, from)`: the stack pointer it returns and the state it leaves, or nothing
where it would dereference a null `next_thread`. -/
def schedule (oldRsp src : UInt64) : Option (UInt64 × TaskList) :=
  if src = 1 then some (oldRsp, s)
  else match s.currentThread with
    | none => some (oldRsp, s)
    | some cur =>
      let s := s.modThread cur fun th => { th with kRsp := oldRsp }
      match s.getNextThread with
      | some next => some (s.switchTo cur next)
      | none =>
        if (s.thr cur).name = "IDLE_THREAD" then some (oldRsp, s)
        else if s.threadList.length = 2 then some (oldRsp, s)
        else match s.findIdleThread with
          | some next => some (s.switchTo cur next)
          | none => none

/-! ## Waking -/

/-- `t` is blocked on `ch`. -/
def waitsOn (t : ℕ) (ch : Channel) : Bool :=
  (s.thr t).state = .waiting && (s.thr t).blockChannel = ch

/-- Make a blocked thread ready and clear its channel. -/
def wake (t : ℕ) : TaskList :=
  s.modThread t fun th => { th with state := .ready, blockChannel := .null }

/-- `notify_wait_channel`: wake the first thread of the list that is blocked on `ch`. -/
def notifyWaitChannel (ch : Channel) : TaskList :=
  if ch = .null then s
  else match s.threadList.find? fun t => s.waitsOn t ch with
    | some t => s.wake t
    | none => s

/-- The loop at the end of `console_read`: wake every thread blocked on `ch`. -/
def wakeEach (ch : Channel) : List ℕ → TaskList → TaskList
  | [], s => s
  | t :: ts, s => wakeEach ch ts (if s.waitsOn t ch then s.wake t else s)

/-- The loop of `update_sleeping_queue`: every listed thread with this `tid` becomes ready. -/
def readyTid (tid : ℕ) : List ℕ → TaskList → TaskList
  | [], s => s
  | t :: ts, s => readyTid tid ts (if t = tid then s.setState t .ready else s)

/-- `update_sleeping_queue`. -/
def updateSleepingQueue : TaskList :=
  match s.sleepingQueue with
  | [] => s
  | top :: rest =>
    if top.delta = 0 then { readyTid top.tid s.threadList s with sleepingQueue := rest }
    else { s with sleepingQueue := { top with delta := top.delta - 1 } :: rest }

/-- `update_curr_thread`. -/
def updateCurrThread : TaskList :=
  match s.currentThread with
  | none => s
  | some cur => s.modThread cur fun th =>
    { th with
      vruntime := th.vruntime + 1
      sleepTicks := if 0 < th.sleepTicks then th.sleepTicks - 1 else th.sleepTicks }

/-- `get_total_delta`. -/
def getTotalDelta : UInt64 := (s.sleepingQueue.map DeltaEntry.delta).sum

/-! ## System calls, up to their `kernel_yield` -/

/-- `process_by_pid`. -/
def processByPid (pid : ℕ) : Option ℕ := s.processList.find? fun p => p == pid

/-- `sys_exit`, on the current thread `cur`. -/
def sysExit (cur : ℕ) (code : ℤ) : TaskList :=
  let me := (s.thr cur).process
  let s := (s.modProc me fun p => { p with exitCode := code }).setState cur .dead
  match (s.proc me).parent with
  | none => s
  | some par =>
    if (s.proc par).isWaiting ∧ (s.proc par).waitTargetPid = me then
      let s := s.modProc par fun p => { p with isWaiting := false }
      match (s.proc par).primary with
      | none => s
      | some t => s.setState t .ready
    else s

/-- The blocking branch of `sys_waitpid`. -/
def waitFor (cur pid : ℕ) : TaskList :=
  (s.modProc (s.thr cur).process fun p => { p with isWaiting := true, waitTargetPid := pid }).modThread
    cur fun th => { th with state := .waiting, cont := .waitpid pid }

/-- The primary thread of a process has exited. -/
def finished (pid : ℕ) : Bool :=
  match (s.proc pid).primary with
  | none => false
  | some t => (s.thr t).state = .dead

/-- `kusleep`. -/
def kusleep (cur : ℕ) (ms : UInt64) : TaskList :=
  let s := s.modThread cur fun th => { th with state := .sleeping, cont := .sleep }
  { s with sleepingQueue := ⟨cur, ms - s.getTotalDelta⟩ :: s.sleepingQueue }

/-- Block on the console. -/
def consoleBlock (cur : ℕ) (at' : Cont) : TaskList :=
  s.modThread cur fun th =>
    { th with blockChannel := .console, state := .waiting, cont := at' }

/-- One round of the second loop of `console_read`: block when the ring gives `0`, else deliver the
character, release the console and wake every other reader.  `true` where it yields. -/
def consoleLoop (cur : ℕ) : TaskList × Bool :=
  let (c, kdb) := s.kdb.getChar
  let s := { s with kdb := kdb }
  if c = 0 then (s.consoleBlock cur .consoleLoop, true)
  else
    let s := { s with consoleReadOwner := none }
    let s := wakeEach .console s.threadList s
    (s.modThread cur fun th => { th with cont := .user }, false)

/-- `console_read` from its first loop on. -/
def consoleRead (cur : ℕ) : TaskList × Bool :=
  if s.consoleReadOwner ≠ none ∧ s.consoleReadOwner ≠ some cur then
    (s.consoleBlock cur .consoleGate, true)
  else
    let s := { s with consoleReadOwner := some cur }
    s.consoleLoop cur

/-! ## Creating a process -/

/-- What `create_elf_process` found for the new process: its address space, its kernel stack, and
the leftover bytes of the heap block that become the thread's name. -/
structure NewProc where
  cr3 : UInt64
  kernelStackTop : UInt64
  name : String
  sleepTicks : UInt64

/-- `create_elf_process`, from `new_elf_process` on. -/
def newElfProcess (cur : ℕ) (n : NewProc) : TaskList :=
  { s with
    thr := update s.thr s.nextTid
      { name := n.name
        state := .ready
        kRsp := n.kernelStackTop - 160
        kernelStackBase := n.kernelStackTop
        vruntime := 0
        sleepTicks := n.sleepTicks
        blockChannel := .null
        process := s.nextPid
        cont := .user }
    proc := update s.proc s.nextPid
      { cr3 := n.cr3
        parent := some (s.thr cur).process
        exitCode := 0
        isWaiting := false
        waitTargetPid := 0
        primary := some s.nextTid }
    threadList := s.nextTid :: s.threadList
    processList := s.nextPid :: s.processList
    nextTid := s.nextTid + 1
    nextPid := s.nextPid + 1 }

/-! ## Events -/

/-- The registers `schedule` is entered with: the saved stack pointer, and a `from` that
`kernel_yield` leaves to chance and that is not the timer's `1`. -/
structure Yield where
  rsp : UInt64
  src : UInt64
  src_ne : src ≠ 1

theorem zero_src_ne : (0 : UInt64) ≠ 1 := by decide

/-- One atomic step of the kernel. -/
inductive Event
  /-- `schedule`, entered by whatever thread is current. -/
  | yield (y : Yield)
  /-- `create_elf_process` by the current thread; it may fail. -/
  | spawn (n : Option NewProc)
  | exit (code : ℤ) (y : Yield)
  | waitpid (pid : ℕ) (y : Yield)
  | consoleRead (y : Yield)
  | kusleep (ms : UInt64) (y : Yield)
  /-- The current thread is past the `kernel_yield` of a kernel call and runs the rest of it. -/
  | resume (y : Yield)
  | notify (ch : Channel)
  /-- `append_to_input_buffer`. -/
  | key (c : UInt8)
  /-- `pit_interrupt`. -/
  | tick

/-- The thread `idle_loop` runs on, the second one made. -/
def idleTid : ℕ := 1

/-- The thread `kmain` runs on, the first one made. -/
def mainTid : ℕ := 0

/-- The process of the two kernel threads. -/
def kernelPid : ℕ := 0

/-- The current thread, when it is at a point of its own code where it may make a kernel call:
`idle_loop` only yields. -/
def caller : Option ℕ :=
  match s.currentThread with
  | none => none
  | some cur => if (s.thr cur).cont = .user ∧ cur ≠ idleTid then some cur else none

/-- The same for a system call: the kernel's own threads make none. -/
def userCaller : Option ℕ :=
  match s.caller with
  | none => none
  | some cur => if (s.thr cur).process ≠ kernelPid then some cur else none

/-- The effect of an event up to the `schedule` it enters, if it enters one; nothing where the event
cannot happen. -/
def prepare (e : Event) (s : TaskList) : Option (TaskList × Option Yield) :=
  match e with
  | .yield y => some (s, some y)
  | .spawn n => s.caller.map fun cur =>
    match n with
    | none => (s, none)
    | some n => (s.newElfProcess cur n, none)
  | .exit code y => s.userCaller.map fun cur => (s.sysExit cur code, some y)
  | .waitpid pid y => s.caller.map fun cur =>
    match s.processByPid pid with
    | none => (s, none)
    | some child => if s.finished child then (s, none) else (s.waitFor cur pid, some y)
  | .consoleRead y => s.userCaller.map fun cur =>
    let r := s.consoleRead cur
    (r.1, if r.2 then some y else none)
  | .kusleep ms y => s.caller.map fun cur => (s.kusleep cur ms, some y)
  | .resume y => s.currentThread.bind fun cur =>
    match (s.thr cur).cont with
    | .user => none
    | .waitpid _ | .sleep => some (s.modThread cur fun th => { th with cont := .user }, none)
    | .consoleGate =>
      let r := s.consoleRead cur
      some (r.1, if r.2 then some y else none)
    | .consoleLoop =>
      let r := s.consoleLoop cur
      some (r.1, if r.2 then some y else none)
  | .notify ch => some (s.notifyWaitChannel ch, none)
  | .key c => some ({ s with kdb := s.kdb.append c }.notifyWaitChannel .console, none)
  | .tick => some (s.updateCurrThread.updateSleepingQueue, none)

/-- One event, with the return of the `schedule` it enters. -/
def step (e : Event) (s : TaskList) : Option TaskList :=
  match prepare e s with
  | none => none
  | some (s, none) => some s
  | some (s, some y) => (s.schedule y.rsp y.src).map Prod.snd

/-! ## Boot -/

/-- What `init_multitasking` finds: two kernel stacks, the kernel's address space, and the heap
bytes that `new_thread` leaves in the fields nobody sets. -/
structure Boot where
  kernelStackTop : UInt64
  idleStackTop : UInt64
  kernelCr3 : UInt64
  mainKRsp : UInt64
  mainChannel : Channel
  mainSleepTicks : UInt64
  idleSleepTicks : UInt64

/-- `init_multitasking`, after `tss_set_kernel_stack`. -/
def initMultitasking (b : Boot) : TaskList where
  thr := fun t =>
    if t = idleTid then
      { name := "IDLE_THREAD", state := .ready, kRsp := b.idleStackTop - 160,
        kernelStackBase := b.idleStackTop, vruntime := 0, sleepTicks := b.idleSleepTicks,
        blockChannel := .null, process := kernelPid, cont := .user }
    else
      { name := "MAIN_THREAD", state := .running, kRsp := b.mainKRsp,
        kernelStackBase := b.kernelStackTop, vruntime := 0, sleepTicks := b.mainSleepTicks,
        blockChannel := b.mainChannel, process := kernelPid, cont := .user }
  proc := fun _ =>
    { cr3 := b.kernelCr3, parent := none, exitCode := 0, isWaiting := false, waitTargetPid := 0,
      primary := some mainTid }
  threadList := [idleTid, mainTid]
  processList := [kernelPid]
  currentThread := some mainTid
  sleepingQueue := []
  tssRsp0 := b.kernelStackTop
  stackTop := b.kernelStackTop
  cr3 := b.kernelCr3
  nextTid := 2
  nextPid := 1
  consoleReadOwner := none
  kdb := .empty

end TaskList

end Hvos.Sched
