import Hvos.Sched.Events

/-!
# Sched/Kinds — everything an event can do, said once

`Effect` inverts `prepare`.  `Effect.core`: whatever the event, `Core` still holds at the call of
`schedule` it enters (where the caller may have gone to sleep) or at the event's end (where the
current thread is still runnable).  `Effect.kinds`: only three kinds of event touch a process or
decide over life and death — a spawn, an exit, a blocking `sys_waitpid`; all others are `Steady`.
-/

namespace Hvos.Sched.TaskList

variable {b : Boot} {s : TaskList}

/-! ## Every event -/

/-- **Everything an event can do** before the `schedule` it enters. -/
inductive Effect (s : TaskList) : Event → TaskList → Option Yield → Prop
  | yield (y : Yield) : Effect s (.yield y) s (some y)
  | spawnFails {cur : ℕ} (h : s.caller = some cur) : Effect s (.spawn none) s none
  | spawns {cur : ℕ} (h : s.caller = some cur) (n : NewProc) :
      Effect s (.spawn (some n)) (s.newElfProcess cur n) none
  | exits {cur : ℕ} (h : s.userCaller = some cur) (code : ℤ) (y : Yield) :
      Effect s (.exit code y) (s.sysExit cur code) (some y)
  | waitpidReturns {cur : ℕ} (h : s.caller = some cur) (pid : ℕ) (y : Yield) :
      Effect s (.waitpid pid y) s none
  | waits {cur : ℕ} (h : s.caller = some cur) {pid : ℕ} (hp : pid ∈ s.processList)
      (hf : s.finished pid = false) (y : Yield) :
      Effect s (.waitpid pid y) (s.waitFor cur pid) (some y)
  | reads {cur : ℕ} (h : s.userCaller = some cur) (y : Yield) :
      Effect s (.consoleRead y) (s.consoleRead cur).1
        (if (s.consoleRead cur).2 then some y else none)
  | sleeps {cur : ℕ} (h : s.caller = some cur) (ms : UInt64) (y : Yield) :
      Effect s (.kusleep ms y) (s.kusleep cur ms) (some y)
  | returns {cur : ℕ} (h : s.currentThread = some cur)
      (hu : (s.thr cur).cont = .sleep ∨ ∃ c, (s.thr cur).cont = .waitpid c) (y : Yield) :
      Effect s (.resume y) (s.modThread cur fun th => { th with cont := .user }) none
  | readsOn {cur : ℕ} (h : s.currentThread = some cur) (hc : (s.thr cur).cont = .consoleGate)
      (y : Yield) :
      Effect s (.resume y) (s.consoleRead cur).1 (if (s.consoleRead cur).2 then some y else none)
  | loopsOn {cur : ℕ} (h : s.currentThread = some cur) (hc : (s.thr cur).cont = .consoleLoop)
      (y : Yield) :
      Effect s (.resume y) (s.consoleLoop cur).1 (if (s.consoleLoop cur).2 then some y else none)
  | notify (ch : Channel) : Effect s (.notify ch) (s.notifyWaitChannel ch) none
  | key (c : UInt8) :
      Effect s (.key c) ({ s with kdb := s.kdb.append c }.notifyWaitChannel .console) none
  | tick : Effect s .tick s.updateCurrThread.updateSleepingQueue none

theorem processByPid_eq_some {pid child : ℕ} (h : s.processByPid pid = some child) :
    child = pid ∧ pid ∈ s.processList := by
  have heq : child = pid := by simpa using List.find?_some h
  exact ⟨heq, heq ▸ List.mem_of_find?_eq_some h⟩

variable {e : Event} {s1 : TaskList} {y : Option Yield}

theorem effect_of_prepare (h : prepare e s = some (s1, y)) : Effect s e s1 y := by
  cases e with
  | yield y' =>
    cases h
    exact .yield _
  | spawn n =>
    obtain ⟨cur, hc, heq⟩ := Option.map_eq_some_iff.1 h
    cases n with
    | none => cases heq; exact .spawnFails hc
    | some n => cases heq; exact .spawns hc n
  | exit code y' =>
    obtain ⟨cur, hc, heq⟩ := Option.map_eq_some_iff.1 h
    cases heq
    exact .exits hc code y'
  | waitpid pid y' =>
    obtain ⟨cur, hc, heq⟩ := Option.map_eq_some_iff.1 h
    cases hp : s.processByPid pid with
    | none =>
      rw [hp] at heq
      cases heq
      exact .waitpidReturns hc pid y'
    | some child =>
      obtain ⟨rfl, hmem⟩ := processByPid_eq_some hp
      simp only [hp] at heq
      split_ifs at heq with hf
      · cases heq
        exact .waitpidReturns hc _ y'
      · cases heq
        exact .waits hc hmem (Bool.eq_false_iff.2 hf) y'
  | consoleRead y' =>
    obtain ⟨cur, hc, heq⟩ := Option.map_eq_some_iff.1 h
    cases heq
    exact .reads hc y'
  | kusleep ms y' =>
    obtain ⟨cur, hc, heq⟩ := Option.map_eq_some_iff.1 h
    cases heq
    exact .sleeps hc ms y'
  | resume y' =>
    obtain ⟨cur, hc, heq⟩ := Option.bind_eq_some_iff.1 h
    cases hk : (s.thr cur).cont with
    | user => simp [hk] at heq
    | waitpid c =>
      simp only [hk] at heq
      cases heq
      exact .returns hc (.inr ⟨c, hk⟩) y'
    | consoleGate =>
      simp only [hk] at heq
      cases heq
      exact .readsOn hc hk y'
    | consoleLoop =>
      simp only [hk] at heq
      cases heq
      exact .loopsOn hc hk y'
    | sleep =>
      simp only [hk] at heq
      cases heq
      exact .returns hc (.inl hk) y'
  | notify ch => cases h; exact .notify ch
  | key c => cases h; exact .key c
  | tick => cases h; exact .tick

/-- **Every event is quiet, but for a spawn.** -/
theorem Effect.quiet (he : Effect s e s1 y) :
    Quiet s s1 ∨ ∃ cur n, s.caller = some cur ∧ s1 = s.newElfProcess cur n ∧ y = none := by
  cases he with
  | spawns hc n => exact .inr ⟨_, n, hc, rfl, rfl⟩
  | yield | spawnFails | waitpidReturns => exact .inl (.refl s)
  | exits hc code y => exact .inl (quiet_sysExit s _ code)
  | waits => exact .inl (quiet_waitFor s _ _)
  | reads | readsOn => exact .inl (quiet_consoleRead s _)
  | sleeps => exact .inl (quiet_kusleep s _ _)
  | returns => exact .inl (quiet_toUser s _)
  | loopsOn => exact .inl (quiet_consoleLoop s _)
  | notify ch => exact .inl (quiet_notifyWaitChannel s ch)
  | key c => exact .inl (.trans (.rest s _ _ _) (quiet_notifyWaitChannel _ _))
  | tick => exact .inl ((quiet_updateCurrThread s).trans (quiet_updateSleepingQueue _))

/-- A thread inside `console_read` is neither of the kernel's two. -/
theorem reader_of_cont (h : Core b s) {cur : ℕ}
    (hk : (s.thr cur).cont = .consoleGate ∨ (s.thr cur).cont = .consoleLoop) :
    cur ≠ idleTid ∧ cur ≠ mainTid := by
  constructor
  · rintro rfl
    simp [h.idle_cont] at hk
  · rintro rfl
    exact hk.elim h.main_cont.1 h.main_cont.2

/-- **Every event keeps the invariant** up to the `schedule` it enters; if it enters none, the
current thread is still runnable. -/
theorem Effect.core (he : Effect s e s1 y) (h : Core b s) (hr : CurrentRunnable s) :
    Core b s1 ∧ (y = none → CurrentRunnable s1) := by
  have hreads : ∀ {cur}, (s.thr cur).cont = .consoleGate ∨ (s.thr cur).cont = .consoleLoop →
      cur ≠ idleTid ∧ cur ≠ mainTid := fun hk => reader_of_cont h hk
  cases he with
  | yield y => exact ⟨h, fun hn => by cases hn⟩
  | spawnFails _ => exact ⟨h, fun _ => hr⟩
  | spawns hc n => exact ⟨h.newElfProcess (calls_of_caller h hc).mem n, fun _ =>
    hr.newElfProcess h _ n⟩
  | exits hc code y =>
    obtain ⟨hcalls, hm⟩ := calls_of_userCaller h hc
    exact ⟨h.sysExit hr hcalls hm code, fun hn => by cases hn⟩
  | waitpidReturns _ pid y => exact ⟨h, fun _ => hr⟩
  | waits hc hp hf y => exact ⟨h.waitFor hr (calls_of_caller h hc) _, fun hn => by cases hn⟩
  | reads hc y =>
    obtain ⟨hcalls, hm⟩ := calls_of_userCaller h hc
    obtain ⟨h1, hr1⟩ := h.consoleRead hr hcalls.current hcalls.ne_idle hm
    exact ⟨h1, fun hn => hr1 (by simpa using hn)⟩
  | sleeps hc ms y => exact ⟨h.kusleep hr (calls_of_caller h hc) ms, fun hn => by cases hn⟩
  | returns hc hu y => exact ⟨h.toUser hr hc, fun _ => hr.toUser _⟩
  | readsOn hc hk y =>
    obtain ⟨h1, hr1⟩ := h.consoleRead hr hc (hreads (.inl hk)).1 (hreads (.inl hk)).2
    exact ⟨h1, fun hn => hr1 (by simpa using hn)⟩
  | loopsOn hc hk y =>
    obtain ⟨h1, hr1⟩ := h.consoleLoop hr hc (hreads (.inr hk)).1 (hreads (.inr hk)).2
    exact ⟨h1, fun hn => hr1 (by simpa using hn)⟩
  | notify ch => exact ⟨h.notifyWaitChannel ch, fun _ => hr.notifyWaitChannel ch⟩
  | key c =>
    have hr' : CurrentRunnable { s with kdb := s.kdb.append c } := hr
    exact ⟨(h.of_console _ _).notifyWaitChannel _, fun _ => hr'.notifyWaitChannel _⟩
  | tick =>
    exact ⟨h.updateCurrThread.updateSleepingQueue, fun _ =>
      hr.updateCurrThread.updateSleepingQueue⟩

/-! ## Deaths and waits -/

/-- **Nobody dies, nobody comes back, nobody starts or stops to wait for a child.** -/
structure Steady (s s' : TaskList) : Prop where
  shape : SameShape s s'
  proc : s'.proc = s.proc
  dead : ∀ t ∈ s.threadList, (s'.thr t).state = .dead ↔ (s.thr t).state = .dead
  cont : ∀ t ∈ s.threadList, ∀ c, (s'.thr t).cont = .waitpid c → (s.thr t).cont = .waitpid c
  waiting : ∀ t ∈ s.threadList, t ≠ idleTid → (s.proc (s.thr t).process).isWaiting = true →
    (s'.thr t).state = .waiting → (s.thr t).state = .waiting

namespace Steady

theorem refl (s : TaskList) : Steady s s :=
  ⟨.refl s, rfl, fun _ _ => Iff.rfl, fun _ _ _ => id, fun _ _ _ _ => id⟩

theorem trans {s s' s'' : TaskList} (h : Steady s s') (h' : Steady s' s'') : Steady s s'' := by
  have hmem : ∀ t ∈ s.threadList, t ∈ s'.threadList := fun t ht => h.shape.threadList ▸ ht
  refine ⟨h.shape.trans h'.shape, h'.proc.trans h.proc,
    fun t ht => (h'.dead t (hmem t ht)).trans (h.dead t ht),
    fun t ht c hc => h.cont t ht c (h'.cont t (hmem t ht) c hc), fun t ht hi hw hst => ?_⟩
  refine h.waiting t ht hi hw (h'.waiting t (hmem t ht) hi ?_ hst)
  rw [h.proc, h.shape.process]
  exact hw

/-- An assignment to one thread. -/
theorem modThread {t : ℕ} {f : Thread → Thread} (hq : SameShape s (s.modThread t f))
    (hd : t ∈ s.threadList → ((f (s.thr t)).state = .dead ↔ (s.thr t).state = .dead))
    (hc : ∀ c, (f (s.thr t)).cont = .waitpid c → (s.thr t).cont = .waitpid c)
    (hw : (s.proc (s.thr t).process).isWaiting = true → (f (s.thr t)).state = .waiting →
      (s.thr t).state = .waiting) : Steady s (s.modThread t f) := by
  have hthr : ∀ {P : Thread → Prop} (u : ℕ), (u = t → P (f (s.thr t))) → (u ≠ t → P (s.thr u)) →
      P ((s.modThread t f).thr u) := by
    intro P u heq hne
    by_cases hu : u = t
    · subst hu
      rw [modThread_self]
      exact heq rfl
    · rw [modThread_of_ne s f hu]
      exact hne hu
  refine ⟨hq, rfl, fun u hu => ?_, fun u hu c => ?_, fun u hu hi => ?_⟩
  · exact hthr (P := fun th => th.state = .dead ↔ (s.thr u).state = .dead) u
      (fun heq => heq ▸ hd (heq ▸ hu)) fun _ => Iff.rfl
  · exact hthr (P := fun th => th.cont = .waitpid c → (s.thr u).cont = .waitpid c) u
      (fun heq => heq ▸ hc c) fun _ => id
  · intro hw'
    exact hthr (P := fun th => th.state = .waiting → (s.thr u).state = .waiting) u
      (fun heq => by subst heq; exact hw hw') fun _ => id

theorem rest (s : TaskList) (q : List DeltaEntry) (k : Drivers.Kdb) (o : Option ℕ) :
    Steady s { s with sleepingQueue := q, kdb := k, consoleReadOwner := o } :=
  ⟨(Quiet.rest s q k o).toSameShape, rfl, fun _ _ => Iff.rfl, fun _ _ _ => id, fun _ _ _ _ => id⟩

theorem wake {t : ℕ} {ch : Channel} (hw : s.waitsOn t ch = true) : Steady s (s.wake t) := by
  have hst : (s.thr t).state = .waiting := by
    simp only [waitsOn, Bool.and_eq_true, decide_eq_true_eq] at hw
    exact hw.1
  exact modThread (quiet_wake s t).toSameShape (fun _ => by simp [hst]) (fun _ => id) fun _ _ => hst

theorem notifyWaitChannel (s : TaskList) (ch : Channel) : Steady s (s.notifyWaitChannel ch) := by
  unfold TaskList.notifyWaitChannel
  split_ifs
  · exact refl s
  · split
    · next t ht => exact wake (List.find?_some (p := fun t => s.waitsOn t ch) ht)
    · exact refl s

theorem wakeEach (ch : Channel) (ts : List ℕ) (s : TaskList) : Steady s (wakeEach ch ts s) := by
  induction ts generalizing s with
  | nil => exact refl s
  | cons t ts ih =>
    rw [TaskList.wakeEach]
    split_ifs with hw
    · exact (wake hw).trans (ih _)
    · exact ih s

theorem toUser (s : TaskList) (cur : ℕ) :
    Steady s (s.modThread cur fun th => { th with cont := .user }) :=
  modThread (quiet_toUser s cur).toSameShape (fun _ => Iff.rfl) (fun c hc => by cases hc) fun _ => id

theorem not_dead {cur : ℕ} (hr : CurrentRunnable s) (hcur : s.currentThread = some cur) :
    (s.thr cur).state ≠ .dead := by
  rcases hr cur hcur with h | h <;> simp [h]

theorem kusleep {cur : ℕ} (hr : CurrentRunnable s) (hcur : s.currentThread = some cur)
    (ms : UInt64) : Steady s (s.kusleep cur ms) := by
  unfold TaskList.kusleep
  refine trans (modThread (.modThread s cur fun _ => by simp) (fun _ => by simp [not_dead hr hcur]) ?_ ?_)
    (rest _ _ _ _)
  · intro c hc
    cases hc
  · intro _ hst
    cases hst

/-- A thread that is about to read the console. -/
structure Reads (b : Boot) (s : TaskList) (cur : ℕ) : Prop where
  core : Core b s
  runnable : CurrentRunnable s
  current : s.currentThread = some cur
  ne_idle : cur ≠ idleTid
  ne_main : cur ≠ mainTid

section Current

variable {cur : ℕ} (hr : Reads b s cur)

include hr

theorem Reads.isWaiting : (s.proc (s.thr cur).process).isWaiting = false := by
  obtain ⟨c, hmem, hc⟩ := hr.core.current
  obtain rfl : c = cur := Option.mem_unique hc hr.current
  exact ((hr.core.tame c hmem hr.ne_idle fun hm => absurd hm hr.ne_main).of_runnable
    (hr.runnable c hc)).2.1

theorem Reads.of_console (k : Drivers.Kdb) (o : Option ℕ) :
    Reads b { s with kdb := k, consoleReadOwner := o } cur :=
  ⟨hr.core.of_console k o, hr.runnable, hr.current, hr.ne_idle, hr.ne_main⟩

theorem consoleBlock {k : Cont} (hk : k = .consoleGate ∨ k = .consoleLoop) :
    Steady s (s.consoleBlock cur k) := by
  refine modThread (quiet_consoleBlock s cur k).toSameShape
    (fun _ => by simp [not_dead hr.runnable hr.current]) ?_ fun hw => ?_
  · intro c hc
    rcases hk with rfl | rfl <;> cases hc
  · exact absurd hw (by simp [hr.isWaiting])

theorem consoleLoop : Steady s (s.consoleLoop cur).1 := by
  unfold TaskList.consoleLoop
  simp only
  split_ifs
  · exact trans (rest s _ _ _) (consoleBlock (hr.of_console _ _) (.inr rfl))
  · exact trans (rest s _ _ _) ((wakeEach _ _ _).trans (toUser _ cur))

theorem consoleRead : Steady s (s.consoleRead cur).1 := by
  unfold TaskList.consoleRead
  split_ifs
  · exact consoleBlock hr (.inl rfl)
  · exact trans (rest s _ _ (some cur)) (consoleLoop (hr.of_console _ _))

end Current

theorem updateCurrThread (s : TaskList) : Steady s s.updateCurrThread := by
  unfold TaskList.updateCurrThread
  split
  · exact refl s
  · exact modThread (.modThread s _ fun _ => by simp) (fun _ => Iff.rfl) (fun _ => id) fun _ => id

/-- The sleep queue holds no dead thread. -/
theorem updateSleepingQueue (h : Core b s) : Steady s s.updateSleepingQueue := by
  unfold TaskList.updateSleepingQueue
  split
  · exact refl s
  · next top rest' hq =>
    split_ifs
    · rw [readyTid_eq]
      split_ifs with hmem
      · refine trans (modThread (.modThread s _ fun _ => by simp) (fun _ => ?_) (fun _ => id)
          fun _ hst => by cases hst) (rest _ _ _ _)
        have hnot : (s.thr top.tid).state ≠ .dead := by
          intro hd
          have hi : top.tid ≠ idleTid := by
            intro hi
            have := h.idle_runnable
            rw [← hi, hd] at this
            simp [Runnable] at this
          have hm : top.tid ≠ mainTid := fun hm => h.main_alive (hm ▸ hd)
          have hn := ((h.tame _ hmem hi fun hm' => absurd hm' hm).of_dead hd).2.2.2
          simp [view, hq] at hn
        simp [hnot]
      · exact rest s _ _ _
    · exact rest s _ _ _

end Steady

/-- **The four kinds of event**: steady ones, a spawn, an exit, and a wait for a child. -/
theorem Effect.kinds (he : Effect s e s1 y) (h : Core b s) (hr : CurrentRunnable s) :
    (∀ code y', e ≠ .exit code y') ∧ Steady s s1 ∨
      (∃ cur n, s.caller = some cur ∧ e = .spawn (some n) ∧ s1 = s.newElfProcess cur n) ∨
      (∃ cur code y', s.userCaller = some cur ∧ e = .exit code y' ∧ s1 = s.sysExit cur code) ∨
      ∃ cur pid y', s.caller = some cur ∧ e = .waitpid pid y' ∧ pid ∈ s.processList ∧
        s.finished pid = false ∧ s1 = s.waitFor cur pid := by
  cases he with
  | yield | spawnFails | waitpidReturns => exact .inl ⟨nofun, .refl s⟩
  | spawns hc n => exact .inr (.inl ⟨_, n, hc, rfl, rfl⟩)
  | exits hc code y => exact .inr (.inr (.inl ⟨_, code, y, hc, rfl, rfl⟩))
  | waits hc hp hf y => exact .inr (.inr (.inr ⟨_, _, y, hc, rfl, hp, hf, rfl⟩))
  | reads hc y =>
    obtain ⟨hcalls, hm⟩ := calls_of_userCaller h hc
    exact .inl ⟨nofun, .consoleRead ⟨h, hr, hcalls.current, hcalls.ne_idle, hm⟩⟩
  | sleeps hc ms y => exact .inl ⟨nofun, .kusleep hr (calls_of_caller h hc).current ms⟩
  | returns hc hu y => exact .inl ⟨nofun, .toUser s _⟩
  | readsOn hc hk y =>
    obtain ⟨hi, hm⟩ := reader_of_cont h (.inl hk)
    exact .inl ⟨nofun, .consoleRead ⟨h, hr, hc, hi, hm⟩⟩
  | loopsOn hc hk y =>
    obtain ⟨hi, hm⟩ := reader_of_cont h (.inr hk)
    exact .inl ⟨nofun, .consoleLoop ⟨h, hr, hc, hi, hm⟩⟩
  | notify ch => exact .inl ⟨nofun, .notifyWaitChannel s ch⟩
  | key c => exact .inl ⟨nofun, .trans (.rest s _ _ _) (.notifyWaitChannel _ _)⟩
  | tick =>
    exact .inl ⟨nofun,
      (Steady.updateCurrThread s).trans (.updateSleepingQueue h.updateCurrThread)⟩

end Hvos.Sched.TaskList
