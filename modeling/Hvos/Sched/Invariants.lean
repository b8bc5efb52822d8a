import Hvos.Sched.State

/-!
# Sched/Invariants — what every reachable scheduler state satisfies

Thread states are written from seven places with no central transition function, so the invariant is
stated thread by thread: `Tame s t` ties the state of `t` to where it stands in the kernel, to its
block channel, to its process's wait flag and to the sleep queue.  `Core` collects that with the
shape of the lists and the CPU registers; it holds between any two atomic steps *and* at every call
of `schedule`.  What distinguishes the two is only whether the current thread is runnable.
-/

namespace Hvos.Sched.TaskList

open Function

/-! ## Assignments through pointers -/

section Assign

variable (s : TaskList) {t u p q : ℕ} (f : Thread → Thread) (g : Process → Process)

@[simp] theorem modThread_self : (s.modThread t f).thr t = f (s.thr t) :=
  update_self ..

theorem modThread_of_ne (h : u ≠ t) : (s.modThread t f).thr u = s.thr u :=
  update_of_ne h ..

@[simp] theorem modThread_proc : (s.modThread t f).proc = s.proc := rfl
@[simp] theorem modThread_threadList : (s.modThread t f).threadList = s.threadList := rfl
@[simp] theorem modThread_processList : (s.modThread t f).processList = s.processList := rfl
@[simp] theorem modThread_currentThread :
    (s.modThread t f).currentThread = s.currentThread := rfl
@[simp] theorem modThread_sleepingQueue :
    (s.modThread t f).sleepingQueue = s.sleepingQueue := rfl

@[simp] theorem modProc_self : (s.modProc p g).proc p = g (s.proc p) :=
  update_self ..

theorem modProc_of_ne (h : q ≠ p) : (s.modProc p g).proc q = s.proc q :=
  update_of_ne h ..

@[simp] theorem modProc_thr : (s.modProc p g).thr = s.thr := rfl
@[simp] theorem modProc_threadList : (s.modProc p g).threadList = s.threadList := rfl
@[simp] theorem modProc_processList : (s.modProc p g).processList = s.processList := rfl
@[simp] theorem modProc_currentThread : (s.modProc p g).currentThread = s.currentThread := rfl
@[simp] theorem modProc_sleepingQueue : (s.modProc p g).sleepingQueue = s.sleepingQueue := rfl

end Assign

/-! ## The shape of the lists -/

/-- Lists, identifiers and the pointers between threads and processes. -/
structure Shape (s : TaskList) : Prop where
  nodup : s.threadList.Nodup
  tid_lt : ∀ t ∈ s.threadList, t < s.nextTid
  pid_lt : ∀ p ∈ s.processList, p < s.nextPid
  idle_mem : idleTid ∈ s.threadList
  main_mem : mainTid ∈ s.threadList
  idle_process : (s.thr idleTid).process = kernelPid
  main_process : (s.thr mainTid).process = kernelPid
  idle_name : (s.thr idleTid).name = "IDLE_THREAD"
  process_mem : ∀ t ∈ s.threadList, (s.thr t).process ∈ s.processList
  primary : ∀ t ∈ s.threadList, t ≠ idleTid → (s.proc (s.thr t).process).primary = some t
  owner : ∀ p ∈ s.processList, ∃ t ∈ s.threadList, t ≠ idleTid ∧ (s.thr t).process = p
  parent_mem : ∀ p ∈ s.processList, ∀ q, (s.proc p).parent = some q → q ∈ s.processList

/-- Nothing the shape speaks of differs. -/
structure SameShape (s s' : TaskList) : Prop where
  threadList : s'.threadList = s.threadList
  processList : s'.processList = s.processList
  nextTid : s'.nextTid = s.nextTid
  nextPid : s'.nextPid = s.nextPid
  name : ∀ t, (s'.thr t).name = (s.thr t).name
  process : ∀ t, (s'.thr t).process = (s.thr t).process
  base : ∀ t, (s'.thr t).kernelStackBase = (s.thr t).kernelStackBase
  primary : ∀ p, (s'.proc p).primary = (s.proc p).primary
  parent : ∀ p, (s'.proc p).parent = (s.proc p).parent
  cr3 : ∀ p, (s'.proc p).cr3 = (s.proc p).cr3

namespace SameShape

theorem refl (s : TaskList) : SameShape s s :=
  ⟨rfl, rfl, rfl, rfl, fun _ => rfl, fun _ => rfl, fun _ => rfl, fun _ => rfl, fun _ => rfl,
    fun _ => rfl⟩

variable {s s' : TaskList}

theorem trans {s'' : TaskList} (h : SameShape s s') (h' : SameShape s' s'') : SameShape s s'' :=
  ⟨h'.threadList.trans h.threadList, h'.processList.trans h.processList,
    h'.nextTid.trans h.nextTid, h'.nextPid.trans h.nextPid,
    fun t => (h'.name t).trans (h.name t), fun t => (h'.process t).trans (h.process t),
    fun t => (h'.base t).trans (h.base t), fun p => (h'.primary p).trans (h.primary p),
    fun p => (h'.parent p).trans (h.parent p), fun p => (h'.cr3 p).trans (h.cr3 p)⟩

theorem shape (h : SameShape s s') (hs : Shape s) : Shape s' where
  nodup := h.threadList ▸ hs.nodup
  tid_lt := by rw [h.threadList, h.nextTid]; exact hs.tid_lt
  pid_lt := by rw [h.processList, h.nextPid]; exact hs.pid_lt
  idle_mem := h.threadList ▸ hs.idle_mem
  main_mem := h.threadList ▸ hs.main_mem
  idle_process := (h.process _).trans hs.idle_process
  main_process := (h.process _).trans hs.main_process
  idle_name := (h.name _).trans hs.idle_name
  process_mem := by
    rw [h.threadList, h.processList]
    exact fun t ht => (h.process t).symm ▸ hs.process_mem t ht
  primary := by
    rw [h.threadList]
    exact fun t ht hi => by rw [h.primary, h.process]; exact hs.primary t ht hi
  owner := by
    rw [h.threadList, h.processList]
    intro p hp
    obtain ⟨t, ht, hi, rfl⟩ := hs.owner p hp
    exact ⟨t, ht, hi, h.process t⟩
  parent_mem := by
    rw [h.processList]
    exact fun p hp q hq => hs.parent_mem p hp q ((h.parent p).symm.trans hq)

/-- An assignment through a thread pointer that keeps the name, the process and the stack base. -/
theorem modThread (s : TaskList) (t : ℕ) {f : Thread → Thread}
    (hf : ∀ th, (f th).name = th.name ∧ (f th).process = th.process ∧
      (f th).kernelStackBase = th.kernelStackBase) : SameShape s (s.modThread t f) := by
  refine ⟨rfl, rfl, rfl, rfl, fun u => ?_, fun u => ?_, fun u => ?_, fun _ => rfl, fun _ => rfl,
    fun _ => rfl⟩
  all_goals
    rcases eq_or_ne u t with rfl | hu
    · simp only [modThread_self, hf]
    · rw [modThread_of_ne s _ hu]

/-- An assignment to a process's exit code or wait fields. -/
theorem modProc (s : TaskList) (p : ℕ) {f : Process → Process}
    (hf : ∀ q, (f q).primary = q.primary ∧ (f q).parent = q.parent ∧ (f q).cr3 = q.cr3) :
    SameShape s (s.modProc p f) := by
  refine ⟨rfl, rfl, rfl, rfl, fun _ => rfl, fun _ => rfl, fun _ => rfl, fun q => ?_, fun q => ?_,
    fun q => ?_⟩
  all_goals
    rcases eq_or_ne q p with rfl | hq
    · simp only [modProc_self, hf]
    · rw [modProc_of_ne s _ hq]

end SameShape

/-- **What every event but a spawn leaves alone**, up to the `schedule` it enters: the shape, the
CPU, and every saved stack pointer. -/
structure Quiet (s s' : TaskList) : Prop extends SameShape s s' where
  currentThread : s'.currentThread = s.currentThread
  tssRsp0 : s'.tssRsp0 = s.tssRsp0
  stackTop : s'.stackTop = s.stackTop
  cr3Reg : s'.cr3 = s.cr3
  kRsp : ∀ t, (s'.thr t).kRsp = (s.thr t).kRsp

namespace Quiet

theorem refl (s : TaskList) : Quiet s s := ⟨.refl s, rfl, rfl, rfl, rfl, fun _ => rfl⟩

theorem trans {s'' : TaskList} (h : Quiet s s') (h' : Quiet s' s'') : Quiet s s'' :=
  ⟨h.toSameShape.trans h'.toSameShape, h'.currentThread.trans h.currentThread,
    h'.tssRsp0.trans h.tssRsp0, h'.stackTop.trans h.stackTop, h'.cr3Reg.trans h.cr3Reg,
    fun t => (h'.kRsp t).trans (h.kRsp t)⟩

theorem modThread (s : TaskList) (t : ℕ) {f : Thread → Thread}
    (hf : ∀ th, (f th).name = th.name ∧ (f th).process = th.process ∧
      (f th).kernelStackBase = th.kernelStackBase ∧ (f th).kRsp = th.kRsp) :
    Quiet s (s.modThread t f) := by
  have hs : SameShape s (s.modThread t f) :=
    .modThread s t fun th => ⟨(hf th).1, (hf th).2.1, (hf th).2.2.1⟩
  refine ⟨hs, rfl, rfl, rfl, rfl, fun u => ?_⟩
  rcases eq_or_ne u t with rfl | hu
  · rw [modThread_self, (hf _).2.2.2]
  · rw [modThread_of_ne s _ hu]

theorem modProc (s : TaskList) (p : ℕ) {f : Process → Process}
    (hf : ∀ q, (f q).primary = q.primary ∧ (f q).parent = q.parent ∧ (f q).cr3 = q.cr3) :
    Quiet s (s.modProc p f) :=
  ⟨.modProc s p hf, rfl, rfl, rfl, rfl, fun _ => rfl⟩

/-- The sleep queue, the keyboard ring and the console's owner are not looked at. -/
theorem rest (s : TaskList) (q : List DeltaEntry) (k : Drivers.Kdb) (o : Option ℕ) :
    Quiet s { s with sleepingQueue := q, kdb := k, consoleReadOwner := o } :=
  ⟨⟨rfl, rfl, rfl, rfl, fun _ => rfl, fun _ => rfl, fun _ => rfl, fun _ => rfl, fun _ => rfl,
    fun _ => rfl⟩, rfl, rfl, rfl, rfl, fun _ => rfl⟩

end Quiet

/-- Two threads of one process, neither the idle thread, are the same thread. -/
theorem Shape.process_inj (h : Shape s) {t u : ℕ} (ht : t ∈ s.threadList) (hu : u ∈ s.threadList)
    (hti : t ≠ idleTid) (hui : u ≠ idleTid) (heq : (s.thr t).process = (s.thr u).process) :
    t = u := by
  have h1 := h.primary t ht hti
  rw [heq, h.primary u hu hui] at h1
  exact (Option.some.inj h1).symm

/-! ## One thread -/

/-- `RUNNING` or `READY`. -/
def Runnable (st : TaskState) : Prop := st = .running ∨ st = .ready

/-- What the kernel's wake-ups look at in one thread. -/
structure View where
  state : TaskState
  channel : Channel
  cont : Cont
  isWaiting : Bool
  waitTargetPid : ℕ
  naps : ℕ

/-- The view of `t`, with the wait fields of its process and its entries in the sleep queue. -/
def view (s : TaskList) (t : ℕ) : View where
  state := (s.thr t).state
  channel := (s.thr t).blockChannel
  cont := (s.thr t).cont
  isWaiting := (s.proc (s.thr t).process).isWaiting
  waitTargetPid := (s.proc (s.thr t).process).waitTargetPid
  naps := (s.sleepingQueue.map DeltaEntry.tid).count t

/-- **The wake-up discipline.**  Wherever a thread stands in the kernel, at most one of the three
wake-ups (a child's exit, its channel, the sleep queue) can reach it, and none can when it is
runnable or dead. -/
def View.Tame (v : View) : Prop :=
  match v.cont with
  | .user =>
    v.channel = .null ∧ v.isWaiting = false ∧ v.naps = 0 ∧ (Runnable v.state ∨ v.state = .dead)
  | .waitpid c =>
    v.channel = .null ∧ v.naps = 0 ∧
      (v.state = .waiting ∧ v.isWaiting = true ∧ v.waitTargetPid = c ∨
        Runnable v.state ∧ v.isWaiting = false)
  | .consoleGate | .consoleLoop =>
    v.isWaiting = false ∧ v.naps = 0 ∧
      (v.state = .waiting ∧ v.channel = .console ∨ Runnable v.state ∧ v.channel = .null)
  | .sleep =>
    v.channel = .null ∧ v.isWaiting = false ∧
      (v.state = .sleeping ∧ v.naps = 1 ∨ Runnable v.state ∧ v.naps = 0)

namespace View.Tame

variable {v : View}

/-- A dead thread is out of every wake-up's reach. -/
theorem of_dead (h : v.Tame) (hd : v.state = .dead) :
    v.cont = .user ∧ v.channel = .null ∧ v.isWaiting = false ∧ v.naps = 0 := by
  unfold View.Tame at h
  cases hc : v.cont <;> simp_all [Runnable]

/-- A runnable thread is out of every wake-up's reach. -/
theorem of_runnable (h : v.Tame) (hr : Runnable v.state) :
    v.channel = .null ∧ v.isWaiting = false ∧ v.naps = 0 := by
  unfold View.Tame at h
  cases hc : v.cont <;> rcases hr with hr | hr <;> simp_all [Runnable]

/-- The process of a thread waits exactly when the thread is blocked in `sys_waitpid`. -/
theorem of_isWaiting (h : v.Tame) (hw : v.isWaiting = true) :
    v.cont = .waitpid v.waitTargetPid ∧ v.state = .waiting ∧ v.channel = .null ∧ v.naps = 0 := by
  unfold View.Tame at h
  cases hc : v.cont <;> simp_all [Runnable]

/-- A thread blocked on a channel is blocked in `console_read`. -/
theorem of_channel (h : v.Tame) (hs : v.state = .waiting) (hc : v.channel ≠ .null) :
    (v.cont = .consoleGate ∨ v.cont = .consoleLoop) ∧ v.isWaiting = false ∧ v.naps = 0 := by
  unfold View.Tame at h
  cases hc : v.cont <;> simp_all [Runnable]

/-- A thread in the sleep queue is asleep, and is in it once. -/
theorem of_naps (h : v.Tame) (hn : v.naps ≠ 0) :
    v.cont = .sleep ∧ v.state = .sleeping ∧ v.channel = .null ∧ v.isWaiting = false ∧
      v.naps = 1 := by
  unfold View.Tame at h
  cases hc : v.cont <;> simp_all [Runnable]

/-- A runnable thread that nothing can wake is tame wherever it stands. -/
theorem mk_runnable (hs : Runnable v.state) (hc : v.channel = .null) (hw : v.isWaiting = false)
    (hn : v.naps = 0) : v.Tame := by
  unfold View.Tame
  cases v.cont <;> simp [hs, hc, hw, hn]

/-- The state may move between `RUNNING` and `READY`. -/
theorem congr_state (h : v.Tame) {st : TaskState}
    (hst : st = v.state ∨ Runnable v.state ∧ Runnable st) : View.Tame { v with state := st } := by
  rcases hst with rfl | ⟨hr, hr'⟩
  · exact h
  · obtain ⟨hc, hw, hn⟩ := h.of_runnable hr
    exact mk_runnable hr' hc hw hn

end View.Tame

/-! ## The invariant -/

/-- **What holds at every event and at every call of `schedule`.** -/
structure Core (b : Boot) (s : TaskList) : Prop where
  shape : Shape s
  current : ∃ c ∈ s.threadList, s.currentThread = some c
  running : ∀ t ∈ s.threadList, (s.thr t).state = .running → s.currentThread = some t
  idle_runnable : Runnable (s.thr idleTid).state
  idle_cont : (s.thr idleTid).cont = .user
  main_alive : (s.thr mainTid).state ≠ .dead
  /-- The main thread makes no system call, so it never reads the console. -/
  main_cont : (s.thr mainTid).cont ≠ .consoleGate ∧ (s.thr mainTid).cont ≠ .consoleLoop
  registers : ∀ c, s.currentThread = some c →
    s.tssRsp0 = (s.thr c).kernelStackBase ∧ s.stackTop = (s.thr c).kernelStackBase ∧
      s.cr3 = (s.proc (s.thr c).process).cr3
  napping : ∀ e ∈ s.sleepingQueue, e.tid ∈ s.threadList
  /-- The main thread is only covered if the heap block of its `thread_t` held a null channel. -/
  tame : ∀ t ∈ s.threadList, t ≠ idleTid → (t = mainTid → b.mainChannel = .null) →
    (s.view t).Tame

/-- Between two events the current thread is runnable. -/
def CurrentRunnable (s : TaskList) : Prop :=
  ∀ c, s.currentThread = some c → Runnable (s.thr c).state

/-- What an event may do to thread `t`. -/
structure Moves (b : Boot) (s s' : TaskList) (t : ℕ) : Prop where
  running : (s'.thr t).state = .running → (s.thr t).state = .running
  idle : t = idleTid → Runnable (s'.thr t).state ∧ (s'.thr t).cont = .user
  main : t = mainTid → (s'.thr t).state ≠ .dead ∧
    (s'.thr t).cont ≠ .consoleGate ∧ (s'.thr t).cont ≠ .consoleLoop
  tame : t ≠ idleTid → (t = mainTid → b.mainChannel = .null) → (s'.view t).Tame

/-- **The rule for every event that makes no thread**: check each thread. -/
theorem Core.update {b : Boot} (h : Core b s) (hs : Quiet s s')
    (hq : ∀ e ∈ s'.sleepingQueue, e.tid ∈ s.threadList) (hm : ∀ t ∈ s.threadList, Moves b s s' t) :
    Core b s' where
  shape := hs.shape h.shape
  current := by rw [hs.threadList, hs.currentThread]; exact h.current
  running := by
    rw [hs.threadList, hs.currentThread]
    exact fun t ht hr => h.running t ht ((hm t ht).running hr)
  idle_runnable := ((hm _ h.shape.idle_mem).idle rfl).1
  idle_cont := ((hm _ h.shape.idle_mem).idle rfl).2
  main_alive := ((hm _ h.shape.main_mem).main rfl).1
  main_cont := ((hm _ h.shape.main_mem).main rfl).2
  registers := by
    intro c hcur
    rw [hs.tssRsp0, hs.stackTop, hs.cr3Reg, hs.base, hs.process, hs.cr3]
    exact h.registers c (hs.currentThread ▸ hcur)
  napping := by rw [hs.threadList]; exact hq
  tame := by rw [hs.threadList]; exact fun t ht => (hm t ht).tame

/-- A thread whose view the event leaves alone. -/
theorem Core.moves_of_view {b : Boot} (h : Core b s) {t : ℕ} (ht : t ∈ s.threadList)
    (hst : (s'.thr t).state = (s.thr t).state) (hcont : (s'.thr t).cont = (s.thr t).cont)
    (hv : t ≠ idleTid → s'.view t = s.view t) :
    Moves b s s' t where
  running := by rw [hst]; exact id
  idle := by
    rintro rfl
    rw [hst, hcont]
    exact ⟨h.idle_runnable, h.idle_cont⟩
  main := by
    rintro rfl
    rw [hst, hcont]
    exact ⟨h.main_alive, h.main_cont⟩
  tame := by
    intro hi hmain
    rw [hv hi]
    exact h.tame t ht hi hmain

/-- The invariant reads neither the keyboard ring nor the console's owner. -/
theorem Core.of_console {b : Boot} (h : Core b s) (k : Drivers.Kdb) (o : Option ℕ) :
    Core b { s with kdb := k, consoleReadOwner := o } :=
  h.update (.rest s _ k o) h.napping fun _ ht => h.moves_of_view ht rfl rfl fun _ => rfl

end Hvos.Sched.TaskList
