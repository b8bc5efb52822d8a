import Hvos.Sched.Invariants

/-!
# Sched/Events — the kernel functions that write a thread state, one by one

For each of them: what it leaves alone (`quiet_…`), that it keeps `Core`, and, where it does not
block its caller, that the current thread stays runnable.
-/

namespace Hvos.Sched.TaskList

variable {b : Boot} {s : TaskList}

/-! ## What the kernel's functions leave alone -/

/-- The part of `sys_exit` that concerns the caller alone. -/
def die (s : TaskList) (cur : ℕ) (code : ℤ) : TaskList :=
  (s.modProc (s.thr cur).process fun p => { p with exitCode := code }).setState cur .dead

/-- The part of `sys_exit` that wakes the parent `par`, by way of its primary thread `t`. -/
def wakeParent (s : TaskList) (par t : ℕ) : TaskList :=
  (s.modProc par fun p => { p with isWaiting := false }).setState t .ready

theorem quiet_die (s : TaskList) (cur : ℕ) (code : ℤ) : Quiet s (s.die cur code) := by
  unfold die setState
  exact .trans (.modProc s _ fun _ => by simp) (.modThread _ cur fun _ => by simp)

theorem quiet_wakeParent (s : TaskList) (par t : ℕ) : Quiet s (s.wakeParent par t) := by
  unfold wakeParent setState
  exact .trans (.modProc s _ fun _ => by simp) (.modThread _ t fun _ => by simp)

theorem quiet_sysExit (s : TaskList) (cur : ℕ) (code : ℤ) : Quiet s (s.sysExit cur code) := by
  unfold sysExit
  simp only
  split
  · exact quiet_die s cur code
  · split_ifs
    · split
      · exact (quiet_die s cur code).trans (.modProc _ _ fun _ => by simp)
      · exact (quiet_die s cur code).trans (quiet_wakeParent _ _ _)
    · exact quiet_die s cur code

theorem quiet_waitFor (s : TaskList) (cur pid : ℕ) : Quiet s (s.waitFor cur pid) := by
  unfold waitFor
  exact .trans (.modProc s _ fun _ => by simp) (.modThread _ cur fun _ => by simp)

theorem quiet_kusleep (s : TaskList) (cur : ℕ) (ms : UInt64) : Quiet s (s.kusleep cur ms) := by
  unfold kusleep
  exact .trans (.modThread s cur fun _ => by simp) (.rest _ _ _ _)

theorem quiet_wake (s : TaskList) (t : ℕ) : Quiet s (s.wake t) := .modThread s t fun _ => by simp

theorem quiet_notifyWaitChannel (s : TaskList) (ch : Channel) :
    Quiet s (s.notifyWaitChannel ch) := by
  unfold notifyWaitChannel
  split_ifs
  · exact .refl s
  · split
    · exact quiet_wake s _
    · exact .refl s

variable {ch : Channel}

/-- The first thread blocked on a channel is woken. -/
theorem notifyWaitChannel_eq (s : TaskList) (h : ch ≠ .null) :
    s.notifyWaitChannel ch = (s.threadList.find? fun t => s.waitsOn t ch).elim s s.wake := by
  rw [notifyWaitChannel, if_neg h]
  cases s.threadList.find? fun t => s.waitsOn t ch with
  | none => rfl
  | some t => rfl

theorem quiet_wakeEach (ch : Channel) (ts : List ℕ) (s : TaskList) :
    Quiet s (wakeEach ch ts s) := by
  induction ts generalizing s with
  | nil => exact .refl s
  | cons t ts ih =>
    rw [wakeEach]
    split_ifs
    · exact (quiet_wake s t).trans (ih _)
    · exact ih s

theorem quiet_consoleBlock (s : TaskList) (cur : ℕ) (k : Cont) : Quiet s (s.consoleBlock cur k) :=
  .modThread s cur fun _ => by simp

theorem quiet_toUser (s : TaskList) (cur : ℕ) :
    Quiet s (s.modThread cur fun th => { th with cont := .user }) :=
  .modThread s cur fun _ => by simp

theorem quiet_consoleLoop (s : TaskList) (cur : ℕ) : Quiet s (s.consoleLoop cur).1 := by
  unfold consoleLoop
  simp only
  split_ifs
  · exact .trans (.rest s _ _ _) (quiet_consoleBlock _ cur _)
  · exact .trans (.rest s _ _ _) ((quiet_wakeEach _ _ _).trans (quiet_toUser _ cur))

theorem quiet_consoleRead (s : TaskList) (cur : ℕ) : Quiet s (s.consoleRead cur).1 := by
  unfold consoleRead
  split_ifs
  · exact quiet_consoleBlock s cur _
  · exact .trans (.rest s _ _ _) (quiet_consoleLoop _ cur)

/-- The loop of `update_sleeping_queue` writes one thread, if it is listed. -/
theorem readyTid_eq (tid : ℕ) (ts : List ℕ) (s : TaskList) :
    readyTid tid ts s = if tid ∈ ts then s.setState tid .ready else s := by
  induction ts generalizing s with
  | nil => simp [readyTid]
  | cons t ts ih =>
    rw [readyTid, ih]
    rcases eq_or_ne t tid with rfl | hne
    · have htwice : (s.setState t .ready).setState t .ready = s.setState t .ready := by
        simp [setState, modThread]
      simp [htwice]
    · simp [hne, hne.symm]

theorem quiet_updateSleepingQueue (s : TaskList) : Quiet s s.updateSleepingQueue := by
  unfold updateSleepingQueue
  split
  · exact .refl s
  · split_ifs
    · rw [readyTid_eq]
      split_ifs
      · exact .trans (.modThread s _ fun _ => by simp) (.rest _ _ _ _)
      · exact .rest s _ _ _
    · exact .rest s _ _ _

theorem quiet_updateCurrThread (s : TaskList) : Quiet s s.updateCurrThread := by
  unfold updateCurrThread
  split
  · exact .refl s
  · exact .modThread s _ fun _ => by simp

/-! ## Wake-ups -/

variable {t u : ℕ}

/-- The view after an assignment to another thread. -/
theorem view_modThread_of_ne (f : Thread → Thread) (h : u ≠ t) :
    (s.modThread t f).view u = s.view u := by
  simp only [view, modThread_of_ne s f h, modThread_proc, modThread_sleepingQueue]

/-- An assignment to another thread does not move this one. -/
theorem Core.moves_modThread_of_ne (h : Core b s) (f : Thread → Thread) (hu : u ∈ s.threadList)
    (hne : u ≠ t) : Moves b s (s.modThread t f) u :=
  h.moves_of_view hu (by rw [modThread_of_ne s f hne]) (by rw [modThread_of_ne s f hne])
    fun _ => view_modThread_of_ne f hne

/-- **A channel wake-up.** -/
theorem Core.wake (h : Core b s) (hch : ch ≠ .null) (hw : s.waitsOn t ch = true) :
    Core b (s.wake t) := by
  obtain ⟨hst, hbc⟩ : (s.thr t).state = .waiting ∧ (s.thr t).blockChannel = ch := by
    simpa [waitsOn] using hw
  refine h.update (.modThread s t fun _ => by simp) h.napping fun u hu => ?_
  rcases eq_or_ne u t with rfl | hne
  · refine ⟨by simp [TaskList.wake], ?_, ?_, fun hi hmain => ?_⟩
    · rintro rfl
      have := h.idle_runnable
      rw [hst] at this
      simp [Runnable] at this
    · rintro rfl
      simpa [TaskList.wake] using h.main_cont
    · obtain ⟨-, hiw, hn⟩ := (h.tame u hu hi hmain).of_channel hst (fun h => hch (hbc ▸ h))
      refine View.Tame.mk_runnable (.inr ?_) ?_ ?_ hn
      · simp [view, TaskList.wake]
      · simp [view, TaskList.wake]
      · simpa [view, TaskList.wake] using hiw
  · exact h.moves_modThread_of_ne _ hu hne

/-- A wake-up leaves a runnable thread runnable. -/
theorem CurrentRunnable.wake (h : CurrentRunnable s) (t : ℕ) : CurrentRunnable (s.wake t) := by
  intro c hc
  rcases eq_or_ne c t with rfl | hne
  · exact .inr (by simp [TaskList.wake])
  · rw [TaskList.wake, modThread_of_ne s _ hne]
    exact h c hc

theorem Core.notifyWaitChannel (h : Core b s) (ch : Channel) : Core b (s.notifyWaitChannel ch) := by
  unfold TaskList.notifyWaitChannel
  split_ifs with hch
  · exact h
  · split
    · next t ht => exact h.wake hch (List.find?_some (p := fun t => s.waitsOn t ch) ht)
    · exact h

theorem CurrentRunnable.notifyWaitChannel (h : CurrentRunnable s) (ch : Channel) :
    CurrentRunnable (s.notifyWaitChannel ch) := by
  unfold TaskList.notifyWaitChannel
  split_ifs
  · exact h
  · split
    · exact h.wake _
    · exact h

/-- **The loop of `console_read` that wakes every reader**, by induction on the list. -/
theorem Core.wakeEach (hch : ch ≠ .null) (ts : List ℕ) (h : Core b s) :
    Core b (wakeEach ch ts s) := by
  induction ts generalizing s with
  | nil => exact h
  | cons t ts ih =>
    rw [TaskList.wakeEach]
    split_ifs with hw
    · exact ih (h.wake hch hw)
    · exact ih h

/-- The loop of `console_read` keeps everything but the state and channel of blocked threads. -/
theorem wakeEach_thr_of_runnable (ch : Channel) (ts : List ℕ) {c : ℕ}
    (h : Runnable (s.thr c).state) : (wakeEach ch ts s).thr c = s.thr c := by
  induction ts generalizing s with
  | nil => rfl
  | cons t ts ih =>
    rw [TaskList.wakeEach]
    split_ifs with hw
    · have hne : c ≠ t := by
        rintro rfl
        rcases h with h | h <;> simp [waitsOn, h] at hw
      have hthr : (s.wake t).thr c = s.thr c := modThread_of_ne s _ hne
      rw [ih (by rwa [hthr]), hthr]
    · exact ih h

/-- **The head of the sleep queue wakes up.** -/
theorem Core.popSleeping (h : Core b s) {top : DeltaEntry} {rest : List DeltaEntry}
    (hq : s.sleepingQueue = top :: rest) :
    Core b { s.setState top.tid .ready with sleepingQueue := rest } := by
  have hcount : ∀ u, (s.view u).naps =
      (rest.map DeltaEntry.tid).count u + if top.tid = u then 1 else 0 := by
    intro u
    simp [view, hq, List.count_cons]
  refine h.update (.trans (.modThread s _ fun _ => by simp) (.rest _ rest _ _)) (fun e he =>
    h.napping e (hq ▸ List.mem_cons_of_mem _ he)) fun u hu => ?_
  rcases eq_or_ne u top.tid with rfl | hne
  · refine ⟨by simp [setState], ?_, ?_, fun hi hmain => ?_⟩
    · intro hi
      exact ⟨.inr (by simp [setState]), by simpa [setState, hi] using h.idle_cont⟩
    · intro hm
      simpa [setState, hm] using h.main_cont
    · obtain ⟨-, -, hch, hw, hn⟩ := (h.tame _ hu hi hmain).of_naps (by simp [hcount])
      have hrest : (rest.map DeltaEntry.tid).count top.tid = 0 := by simpa [hcount] using hn
      exact .mk_runnable (.inr (by simp [view, setState])) (by simpa [view, setState] using hch)
        (by simpa [view, setState] using hw) hrest
  · have hthr : (s.setState top.tid .ready).thr u = s.thr u := modThread_of_ne s _ hne
    refine h.moves_of_view hu (congrArg _ hthr) (congrArg _ hthr) fun _ => ?_
    have hn : (s.view u).naps = (rest.map DeltaEntry.tid).count u := by
      rw [hcount, if_neg hne.symm, Nat.add_zero]
    have hproc : (s.setState top.tid .ready).proc = s.proc := rfl
    simpa [view, hthr, hproc] using hn.symm

/-- **A tick of the sleep queue.** -/
theorem Core.updateSleepingQueue (h : Core b s) : Core b s.updateSleepingQueue := by
  unfold TaskList.updateSleepingQueue
  split
  · exact h
  · next top rest hq =>
    have htop : top.tid ∈ s.threadList := h.napping top (hq ▸ List.mem_cons_self)
    split_ifs with hd
    · rw [readyTid_eq, if_pos htop]
      exact h.popSleeping hq
    · refine h.update (.rest s _ _ _) ?_ fun u hu => h.moves_of_view hu rfl rfl fun _ => by simp [view, hq]
      have hnap := h.napping
      rw [hq] at hnap
      simpa using hnap

theorem CurrentRunnable.updateSleepingQueue (h : CurrentRunnable s) :
    CurrentRunnable s.updateSleepingQueue := by
  unfold TaskList.updateSleepingQueue
  split
  · exact h
  · next top rest _ =>
    split_ifs
    · intro c hc
      rw [readyTid_eq] at hc ⊢
      split_ifs at hc ⊢ with htop
      · rcases eq_or_ne c top.tid with rfl | hne
        · exact .inr (by simp [setState])
        · simpa [setState, modThread_of_ne s _ hne] using h c hc
      · exact h c hc
    · exact h

theorem Core.updateCurrThread (h : Core b s) : Core b s.updateCurrThread := by
  unfold TaskList.updateCurrThread
  split
  · exact h
  · next cur _ =>
    refine h.update (.modThread s cur fun _ => by simp) h.napping fun u hu => ?_
    rcases eq_or_ne u cur with rfl | hne
    · exact h.moves_of_view hu (by simp) (by simp) fun _ => by simp [view]
    · exact h.moves_modThread_of_ne _ hu hne

theorem CurrentRunnable.updateCurrThread (h : CurrentRunnable s) :
    CurrentRunnable s.updateCurrThread := by
  unfold TaskList.updateCurrThread
  split
  · exact h
  · next cur hcur =>
    intro c hc
    obtain rfl : cur = c := Option.mem_unique hcur hc
    simpa using h cur hcur

/-! ## System calls -/

/-- The current thread is at a kernel call: it is listed, not the idle thread, and in user code. -/
structure Calls (s : TaskList) (cur : ℕ) : Prop where
  mem : cur ∈ s.threadList
  current : s.currentThread = some cur
  ne_idle : cur ≠ idleTid
  cont : (s.thr cur).cont = .user

variable {cur : ℕ}

theorem calls_of_caller (h : Core b s) (hc : s.caller = some cur) : Calls s cur := by
  obtain ⟨c, hmem, hcur⟩ := h.current
  unfold caller at hc
  rw [hcur] at hc
  simp only at hc
  split_ifs at hc with hu
  cases hc
  exact ⟨hmem, hcur, hu.2, hu.1⟩

/-- A thread that makes a system call is not the main thread either. -/
theorem calls_of_userCaller (h : Core b s) (hc : s.userCaller = some cur) :
    Calls s cur ∧ cur ≠ mainTid := by
  unfold userCaller at hc
  split at hc
  · cases hc
  · next c hcaller =>
    split_ifs at hc with hk
    cases hc
    exact ⟨calls_of_caller h hcaller, fun hm => hk (hm ▸ h.shape.main_process)⟩

/-- **The blocking branch of `sys_waitpid`.** -/
theorem Core.waitFor (h : Core b s) (hr : CurrentRunnable s) (hc : Calls s cur) (pid : ℕ) :
    Core b (s.waitFor cur pid) := by
  refine h.update (quiet_waitFor s cur pid) h.napping fun u hu => ?_
  unfold TaskList.waitFor
  rcases eq_or_ne u cur with rfl | hne
  · refine ⟨by simp, fun hi => absurd hi hc.ne_idle, by simp, fun hi hmain => ?_⟩
    obtain ⟨hch, -, hn⟩ := (h.tame u hu hi hmain).of_runnable (hr u hc.current)
    unfold View.Tame
    simpa [view] using And.intro hch (by simpa [view] using hn)
  · refine h.moves_of_view hu (by rw [modThread_of_ne _ _ hne]; rfl)
      (by rw [modThread_of_ne _ _ hne]; rfl) fun hi => ?_
    have hp : (s.thr u).process ≠ (s.thr cur).process :=
      fun heq => hne (h.shape.process_inj hu hc.mem hi hc.ne_idle heq)
    rw [view_modThread_of_ne _ hne]
    simp [view, modProc_of_ne s _ hp]

/-- **`kusleep`.** -/
theorem Core.kusleep (h : Core b s) (hr : CurrentRunnable s) (hc : Calls s cur) (ms : UInt64) :
    Core b (s.kusleep cur ms) := by
  refine h.update (quiet_kusleep s cur ms) ?_ fun u hu => ?_
  · intro e he
    rcases List.mem_cons.1 he with rfl | he
    · exact hc.mem
    · exact h.napping e he
  unfold TaskList.kusleep
  rcases eq_or_ne u cur with rfl | hne
  · refine ⟨by simp, fun hi => absurd hi hc.ne_idle, by simp, fun hi hmain => ?_⟩
    obtain ⟨hch, hw, hn⟩ := (h.tame u hu hi hmain).of_runnable (hr u hc.current)
    have hn' : (s.sleepingQueue.map DeltaEntry.tid).count u = 0 := hn
    unfold View.Tame
    simpa [view, List.count_cons, hn'] using And.intro hch hw
  · refine h.moves_of_view hu (by simp [modThread_of_ne s _ hne])
      (by simp [modThread_of_ne s _ hne]) fun _ => ?_
    simp [view, modThread_of_ne s _ hne, hne.symm]

/-- **Blocking on the console.** -/
theorem Core.consoleBlock (h : Core b s) (hr : CurrentRunnable s)
    (hcur : s.currentThread = some cur) (hi : cur ≠ idleTid) (hm : cur ≠ mainTid) {k : Cont}
    (hk : k = .consoleGate ∨ k = .consoleLoop) : Core b (s.consoleBlock cur k) := by
  refine h.update (.modThread s cur fun _ => by simp) h.napping fun u hu => ?_
  rcases eq_or_ne u cur with rfl | hne
  · refine ⟨by simp [TaskList.consoleBlock], fun hi' => absurd hi' hi,
      fun hm' => absurd hm' hm, fun hi hmain => ?_⟩
    obtain ⟨-, hw, hn⟩ := (h.tame u hu hi hmain).of_runnable (hr u hcur)
    have hw' : (s.proc (s.thr u).process).isWaiting = false := hw
    have hn' : (s.sleepingQueue.map DeltaEntry.tid).count u = 0 := hn
    unfold View.Tame
    rcases hk with rfl | rfl <;> simp only [view, TaskList.consoleBlock, modThread_self,
      modThread_proc, modThread_sleepingQueue, hw', hn', and_self, true_or]
  · exact h.moves_modThread_of_ne _ hu hne

/-- A runnable current thread goes back to its own code. -/
theorem Core.toUser (h : Core b s) (hr : CurrentRunnable s) (hcur : s.currentThread = some cur) :
    Core b (s.modThread cur fun th => { th with cont := .user }) := by
  refine h.update (.modThread s cur fun _ => by simp) h.napping fun u hu => ?_
  rcases eq_or_ne u cur with rfl | hne
  · refine ⟨by simp, ?_, ?_, fun hi hmain => ?_⟩
    · intro _
      exact ⟨by simpa using hr u hcur, by simp⟩
    · rintro rfl
      simpa using h.main_alive
    · obtain ⟨hch, hw, hn⟩ := (h.tame u hu hi hmain).of_runnable (hr u hcur)
      exact .mk_runnable (by simpa [view] using hr u hcur) (by simpa [view] using hch)
        (by simpa [view] using hw) (by simpa [view] using hn)
  · exact h.moves_modThread_of_ne _ hu hne

theorem CurrentRunnable.toUser (hr : CurrentRunnable s) (cur : ℕ) :
    CurrentRunnable (s.modThread cur fun th => { th with cont := .user }) := by
  intro c hc
  rcases eq_or_ne c cur with rfl | hne
  · simpa using hr c hc
  · rw [modThread_of_ne s _ hne]
    exact hr c hc

/-- **The second loop of `console_read`.** -/
theorem Core.consoleLoop (h : Core b s) (hr : CurrentRunnable s) (hcur : s.currentThread = some cur)
    (hi : cur ≠ idleTid) (hm : cur ≠ mainTid) :
    Core b (s.consoleLoop cur).1 ∧
      ((s.consoleLoop cur).2 = false → CurrentRunnable (s.consoleLoop cur).1) := by
  unfold TaskList.consoleLoop
  set s1 : TaskList := { s with kdb := s.kdb.getChar.2 }
  set s2 : TaskList := { s1 with consoleReadOwner := none }
  have h1 : Core b s1 := h.of_console _ _
  have h2 : Core b (TaskList.wakeEach .console s2.threadList s2) :=
    (h.of_console _ _ : Core b s2).wakeEach (by simp) _
  have hr2 : CurrentRunnable (TaskList.wakeEach .console s2.threadList s2) := by
    intro c hc
    rw [(quiet_wakeEach _ _ _).currentThread] at hc
    have hrc : Runnable (s2.thr c).state := hr c hc
    rwa [wakeEach_thr_of_runnable _ _ hrc]
  have hcur2 : (TaskList.wakeEach .console s2.threadList s2).currentThread = some cur := by
    rw [(quiet_wakeEach _ _ _).currentThread]
    exact hcur
  simp only
  split_ifs with hc
  · exact ⟨h1.consoleBlock hr hcur hi hm (.inr rfl), by simp⟩
  · exact ⟨h2.toUser hr2 hcur2, fun _ => hr2.toUser cur⟩

/-- **`console_read`**, from its first loop on. -/
theorem Core.consoleRead (h : Core b s) (hr : CurrentRunnable s) (hcur : s.currentThread = some cur)
    (hi : cur ≠ idleTid) (hm : cur ≠ mainTid) :
    Core b (s.consoleRead cur).1 ∧
      ((s.consoleRead cur).2 = false → CurrentRunnable (s.consoleRead cur).1) := by
  unfold TaskList.consoleRead
  split_ifs with ho
  · exact ⟨h.consoleBlock hr hcur hi hm (.inl rfl), by simp⟩
  · exact Core.consoleLoop (h.of_console s.kdb (some cur)) hr hcur hi hm

theorem die_thr_of_ne (s : TaskList) (code : ℤ) (h : u ≠ cur) :
    (s.die cur code).thr u = s.thr u := by
  rw [die, setState, modThread_of_ne _ _ h, modProc_thr]

theorem wakeParent_thr_of_ne (s : TaskList) (par : ℕ) (h : u ≠ t) :
    (s.wakeParent par t).thr u = s.thr u := by
  rw [wakeParent, setState, modThread_of_ne _ _ h, modProc_thr]

theorem wakeParent_proc_of_ne (s : TaskList) {par p : ℕ} (t : ℕ) (h : p ≠ par) :
    (s.wakeParent par t).proc p = s.proc p := by
  rw [wakeParent, setState, modThread_proc, modProc_of_ne _ _ h]

@[simp] theorem die_proc_isWaiting (s : TaskList) (cur : ℕ) (code : ℤ) (p : ℕ) :
    ((s.die cur code).proc p).isWaiting = (s.proc p).isWaiting := by
  rcases eq_or_ne p (s.thr cur).process with rfl | hp
  · simp [die, setState]
  · simp [die, setState, modProc_of_ne s _ hp]

@[simp] theorem die_proc_waitTargetPid (s : TaskList) (cur : ℕ) (code : ℤ) (p : ℕ) :
    ((s.die cur code).proc p).waitTargetPid = (s.proc p).waitTargetPid := by
  rcases eq_or_ne p (s.thr cur).process with rfl | hp
  · simp [die, setState]
  · simp [die, setState, modProc_of_ne s _ hp]

/-- The parent of `cur`'s process is `p`, and it waits for that process. -/
abbrev ParentWaits (s : TaskList) (cur p : ℕ) : Prop :=
  (s.proc (s.thr cur).process).parent = some p ∧ (s.proc p).isWaiting = true ∧
    (s.proc p).waitTargetPid = (s.thr cur).process

/-- **`sys_exit` is a death, then perhaps one wake-up**: of a parent that waits for this process. -/
theorem sysExit_cases (h : Core b s) (hmem : cur ∈ s.threadList) (code : ℤ) :
    s.sysExit cur code = s.die cur code ∧ (∀ par, ¬s.ParentWaits cur par) ∨
      ∃ t ∈ s.threadList, t ≠ idleTid ∧ s.ParentWaits cur (s.thr t).process ∧
        s.sysExit cur code = (s.die cur code).wakeParent (s.thr t).process t := by
  have hdie := quiet_die s cur code
  have hfold : (s.modProc (s.thr cur).process fun p => { p with exitCode := code }).setState cur
      .dead = s.die cur code := rfl
  cases hpar : (s.proc (s.thr cur).process).parent with
  | none =>
    have hexit : s.sysExit cur code = s.die cur code := by
      simp only [sysExit, hfold, hdie.parent, hpar]
    exact .inl ⟨hexit, fun _ hp => nomatch hpar.symm.trans hp.1⟩
  | some par =>
    have hp := h.shape.parent_mem _ (h.shape.process_mem _ hmem) _ hpar
    obtain ⟨t, ht, hi, rfl⟩ := h.shape.owner par hp
    have hexit : s.sysExit cur code =
        if (s.proc (s.thr t).process).isWaiting ∧
            (s.proc (s.thr t).process).waitTargetPid = (s.thr cur).process then
          (s.die cur code).wakeParent (s.thr t).process t
        else s.die cur code := by
      simp only [sysExit, hfold, hdie.parent, hpar, die_proc_isWaiting,
        die_proc_waitTargetPid, modProc_self, hdie.primary, h.shape.primary t ht hi, wakeParent]
    split_ifs at hexit with hw
    · exact .inr ⟨t, ht, hi, ⟨hpar, hw⟩, hexit⟩
    · refine .inl ⟨hexit, fun par hp => hw ?_⟩
      obtain rfl := Option.mem_unique hpar hp.1
      exact hp.2

/-- The caller's death. -/
theorem Core.die (h : Core b s) (hr : CurrentRunnable s) (hc : Calls s cur) (hm : cur ≠ mainTid)
    (code : ℤ) : Core b (s.die cur code) := by
  refine h.update (quiet_die s cur code) h.napping fun u hu => ?_
  rcases eq_or_ne u cur with rfl | hne
  · refine ⟨by simp [TaskList.die, setState], fun hi => absurd hi hc.ne_idle,
      fun hm' => absurd hm' hm, fun hi hmain => ?_⟩
    obtain ⟨hch, hw, hn⟩ := (h.tame u hu hi hmain).of_runnable (hr u hc.current)
    have hcont : ((s.die u code).view u).cont = .user := by
      simpa [view, TaskList.die, setState] using hc.cont
    unfold View.Tame
    rw [hcont]
    exact ⟨by simpa [view, TaskList.die, setState] using hch,
      by simpa [view, TaskList.die, setState] using hw, hn,
      .inr (by simp [view, TaskList.die, setState])⟩
  · have hthr : (s.die cur code).thr u = s.thr u := die_thr_of_ne s code hne
    refine h.moves_of_view hu (congrArg _ hthr) (congrArg _ hthr) fun _ => ?_
    simp only [view, hthr, die_proc_isWaiting, die_proc_waitTargetPid]
    rfl

/-- The wake-up of a waiting process. -/
theorem Core.wakeParent (h : Core b s) (ht : t ∈ s.threadList) (hi : t ≠ idleTid)
    (hw : (s.proc (s.thr t).process).isWaiting = true) :
    Core b (s.wakeParent (s.thr t).process t) := by
  refine h.update (quiet_wakeParent s _ t) h.napping fun u hu => ?_
  rcases eq_or_ne u t with rfl | hne
  · refine ⟨by simp [TaskList.wakeParent, setState], fun hi' => absurd hi' hi,
      fun hm => ?_, fun _ hmain => ?_⟩
    · subst hm
      simpa [TaskList.wakeParent, setState] using h.main_cont
    obtain ⟨-, -, hch, hn⟩ := (h.tame u hu hi hmain).of_isWaiting hw
    exact .mk_runnable (.inr (by simp [view, TaskList.wakeParent, setState]))
      (by simpa [view, TaskList.wakeParent, setState] using hch)
      (by simp [view, TaskList.wakeParent, setState]) hn
  · have hthr := wakeParent_thr_of_ne s (s.thr t).process hne
    refine h.moves_of_view hu (congrArg _ hthr) (congrArg _ hthr) fun hiu => ?_
    have hp : (s.thr u).process ≠ (s.thr t).process :=
      fun heq => hne (h.shape.process_inj hu ht hiu hi heq)
    have hproc := wakeParent_proc_of_ne s t hp
    simp only [view, hthr, hproc]
    rfl

/-- **`sys_exit`**: the caller dies, and a parent it wakes was blocked on it. -/
theorem Core.sysExit (h : Core b s) (hr : CurrentRunnable s) (hc : Calls s cur) (hm : cur ≠ mainTid)
    (code : ℤ) : Core b (s.sysExit cur code) := by
  have hdie := h.die hr hc hm code
  rcases sysExit_cases h hc.mem code with ⟨heq, -⟩ | ⟨t, ht, hi, hw, heq⟩
  · rw [heq]
    exact hdie
  · rw [heq, ← (quiet_die s cur code).process t]
    refine hdie.wakeParent ht hi ?_
    rw [(quiet_die s cur code).process t, die_proc_isWaiting]
    exact hw.2.1

/-! ## A new process -/

section NewProcess

variable (h : Shape s) (cur : ℕ) (n : NewProc)

include h in
theorem newElfProcess_thr (ht : t ∈ s.threadList) : (s.newElfProcess cur n).thr t = s.thr t :=
  Function.update_of_ne (Nat.ne_of_lt (h.tid_lt t ht)) ..

include h in
theorem newElfProcess_proc {p : ℕ} (hp : p ∈ s.processList) :
    (s.newElfProcess cur n).proc p = s.proc p :=
  Function.update_of_ne (Nat.ne_of_lt (h.pid_lt p hp)) ..

theorem newElfProcess_thr_new : (s.newElfProcess cur n).thr s.nextTid =
    { name := n.name, state := .ready, kRsp := n.kernelStackTop - 160,
      kernelStackBase := n.kernelStackTop, vruntime := 0, sleepTicks := n.sleepTicks,
      blockChannel := .null, process := s.nextPid, cont := .user } := by
  simp [newElfProcess]

theorem newElfProcess_proc_new : (s.newElfProcess cur n).proc s.nextPid =
    { cr3 := n.cr3, parent := some (s.thr cur).process, exitCode := 0, isWaiting := false,
      waitTargetPid := 0, primary := some s.nextTid } := by
  simp [newElfProcess]

include h in
theorem Shape.newElfProcess (hcur : cur ∈ s.threadList) : Shape (s.newElfProcess cur n) := by
  have hthr := fun t (ht : t ∈ s.threadList) => newElfProcess_thr h cur n ht
  have hproc := fun p (hp : p ∈ s.processList) => newElfProcess_proc h cur n hp
  have hnew := newElfProcess_thr_new (s := s) cur n
  have hnewp := newElfProcess_proc_new (s := s) cur n
  refine ⟨?_, ?_, ?_, List.mem_cons_of_mem _ h.idle_mem, List.mem_cons_of_mem _ h.main_mem, ?_, ?_,
    ?_, ?_, ?_, ?_, ?_⟩
  · exact List.nodup_cons.2 ⟨fun hm => Nat.lt_irrefl _ (h.tid_lt _ hm), h.nodup⟩
  · rintro t (_ | ⟨_, ht⟩)
    · exact Nat.lt_succ_self _
    · exact Nat.lt_succ_of_lt (h.tid_lt t ht)
  · rintro p (_ | ⟨_, hp⟩)
    · exact Nat.lt_succ_self _
    · exact Nat.lt_succ_of_lt (h.pid_lt p hp)
  · rw [hthr _ h.idle_mem]
    exact h.idle_process
  · rw [hthr _ h.main_mem]
    exact h.main_process
  · rw [hthr _ h.idle_mem]
    exact h.idle_name
  · rintro t (_ | ⟨_, ht⟩)
    · rw [hnew]
      exact List.mem_cons_self
    · rw [hthr t ht]
      exact List.mem_cons_of_mem _ (h.process_mem t ht)
  · rintro t (_ | ⟨_, ht⟩) hi
    · rw [hnew, hnewp]
    · rw [hthr t ht, hproc _ (h.process_mem t ht)]
      exact h.primary t ht hi
  · rintro p (_ | ⟨_, hp⟩)
    · exact ⟨s.nextTid, List.mem_cons_self, (Nat.ne_of_lt (h.tid_lt _ h.idle_mem)).symm, by
        rw [hnew]⟩
    · obtain ⟨t, ht, hi, rfl⟩ := h.owner p hp
      exact ⟨t, List.mem_cons_of_mem _ ht, hi, by rw [hthr t ht]⟩
  · rintro p (_ | ⟨_, hp⟩) q hq
    · rw [hnewp] at hq
      cases hq
      exact List.mem_cons_of_mem _ (h.process_mem _ hcur)
    · rw [hproc p hp] at hq
      exact List.mem_cons_of_mem _ (h.parent_mem p hp q hq)

end NewProcess

/-- **`create_elf_process`** adds a thread and a process that nothing yet points to. -/
theorem Core.newElfProcess (h : Core b s) (hcur : cur ∈ s.threadList) (n : NewProc) :
    Core b (s.newElfProcess cur n) := by
  have hthr := fun t (ht : t ∈ s.threadList) => newElfProcess_thr h.shape cur n ht
  have hproc := fun p (hp : p ∈ s.processList) => newElfProcess_proc h.shape cur n hp
  have hview : ∀ t ∈ s.threadList, (s.newElfProcess cur n).view t = s.view t := by
    intro t ht
    simp only [view, hthr t ht, hproc _ (h.shape.process_mem t ht)]
    rfl
  have hnew := newElfProcess_thr_new (s := s) cur n
  have hfresh : s.nextTid ∉ s.threadList := fun hm => Nat.lt_irrefl _ (h.shape.tid_lt _ hm)
  refine ⟨h.shape.newElfProcess cur n hcur, ?_, ?_, ?_, ?_, ?_, ?_, ?_, ?_, ?_⟩
  · obtain ⟨c, hc, heq⟩ := h.current
    exact ⟨c, List.mem_cons_of_mem _ hc, heq⟩
  · rintro t (_ | ⟨_, ht⟩) hr
    · rw [hnew] at hr
      cases hr
    · exact h.running t ht (hthr t ht ▸ hr)
  · rw [hthr _ h.shape.idle_mem]
    exact h.idle_runnable
  · rw [hthr _ h.shape.idle_mem]
    exact h.idle_cont
  · rw [hthr _ h.shape.main_mem]
    exact h.main_alive
  · rw [hthr _ h.shape.main_mem]
    exact h.main_cont
  · intro c hc
    have hcm : c ∈ s.threadList := by
      obtain ⟨c', hc', heq⟩ := h.current
      exact Option.mem_unique heq hc ▸ hc'
    rw [hthr c hcm, hproc _ (h.shape.process_mem c hcm)]
    exact h.registers c hc
  · exact fun e he => List.mem_cons_of_mem _ (h.napping e he)
  · rintro t (_ | ⟨_, ht⟩) hi hmain
    · have hnaps : (s.sleepingQueue.map DeltaEntry.tid).count s.nextTid = 0 := by
        refine List.count_eq_zero.2 fun hm => ?_
        obtain ⟨e, he, heq⟩ := List.mem_map.1 hm
        exact hfresh (heq ▸ h.napping e he)
      refine .mk_runnable ?_ ?_ ?_ hnaps
      · exact .inr (by simp only [view, hnew])
      · simp only [view, hnew]
      · simp only [view, hnew, newElfProcess_proc_new]
    · rw [hview t ht]
      exact h.tame t ht hi hmain

theorem CurrentRunnable.newElfProcess (hr : CurrentRunnable s) (h : Core b s) (cur : ℕ)
    (n : NewProc) : CurrentRunnable (s.newElfProcess cur n) := by
  intro c hc
  obtain ⟨c', hc', heq⟩ := h.current
  obtain rfl : c' = c := Option.mem_unique heq hc
  rw [newElfProcess_thr h.shape cur n hc']
  exact hr c' hc

end Hvos.Sched.TaskList
