import Hvos.Sched.Consistency

/-!
# Sched/Console — `console_read` under any interleaving

A thread past the gate of `console_read` runs rounds of the second loop, one per event (`round`);
everything else the kernel does leaves the ring, `console_read_owner` and the threads in that loop
alone (`Aside`), but for the key that appends a character.  From this inversion (`console_cases`):

* `console_in_order` — one thread past the gate, and what was read and what is still in the ring
  are what was typed;
* `key_wakes_owner_iff` — a key reaches the owner unless a later thread stands at the gate;
* `sleepsEmpty_iff_nulLast` — the owner sleeps on a ring that is not empty whenever it reads a `0`
  with a character behind it.
-/

namespace Hvos.Sched.TaskList

open Drivers

variable {b : Boot} {s s' s'' : TaskList} {e : Event}

/-! ## Away from the console -/

/-- **Nothing happens at the console**: the ring and its owner stay, and no thread comes into the
second loop. -/
structure Aside (s s' : TaskList) : Prop where
  kdb : s'.kdb = s.kdb
  owner : s'.consoleReadOwner = s.consoleReadOwner
  inLoop : ∀ t, (s'.thr t).cont = .consoleLoop → (s.thr t).cont = .consoleLoop

namespace Aside

theorem refl (s : TaskList) : Aside s s := ⟨rfl, rfl, fun _ => id⟩

theorem trans (h : Aside s s') (h' : Aside s' s'') : Aside s s'' :=
  ⟨h'.kdb.trans h.kdb, h'.owner.trans h.owner, fun t ht => h.inLoop t (h'.inLoop t ht)⟩

theorem modThread (s : TaskList) (t : ℕ) {f : Thread → Thread}
    (hf : ∀ th, (f th).cont = .consoleLoop → th.cont = .consoleLoop) :
    Aside s (s.modThread t f) := by
  refine ⟨rfl, rfl, fun u hu => ?_⟩
  rcases eq_or_ne u t with rfl | hne
  · rw [modThread_self] at hu
    exact hf _ hu
  · rwa [modThread_of_ne s f hne] at hu

theorem modProc (s : TaskList) (p : ℕ) (f : Process → Process) : Aside s (s.modProc p f) :=
  ⟨rfl, rfl, fun _ => id⟩

theorem setState (s : TaskList) (t : ℕ) (st : TaskState) : Aside s (s.setState t st) :=
  .modThread s t fun _ => id

theorem wake (s : TaskList) (t : ℕ) : Aside s (s.wake t) := .modThread s t fun _ => id

theorem sysExit (s : TaskList) (cur : ℕ) (code : ℤ) : Aside s (s.sysExit cur code) := by
  have hdie : Aside s (s.die cur code) := (modProc s _ _).trans (setState _ cur _)
  unfold TaskList.sysExit
  simp only
  split
  · exact hdie
  · split_ifs
    · split
      · exact hdie.trans (modProc _ _ _)
      · exact hdie.trans ((modProc _ _ _).trans (setState _ _ _))
    · exact hdie

theorem waitFor (s : TaskList) (cur pid : ℕ) : Aside s (s.waitFor cur pid) :=
  (modProc s _ _).trans (.modThread _ cur fun _ h => nomatch h)

theorem kusleep (s : TaskList) (cur : ℕ) (ms : UInt64) : Aside s (s.kusleep cur ms) :=
  (modThread s cur (f := fun th => { th with state := .sleeping, cont := .sleep })
    fun _ h => nomatch h).trans ⟨rfl, rfl, fun _ => id⟩

theorem newElfProcess (s : TaskList) (cur : ℕ) (n : NewProc) : Aside s (s.newElfProcess cur n) := by
  refine ⟨rfl, rfl, fun t ht => ?_⟩
  rcases eq_or_ne t s.nextTid with rfl | hne
  · simp [TaskList.newElfProcess] at ht
  · simpa [TaskList.newElfProcess, hne] using ht

theorem notifyWaitChannel (s : TaskList) (ch : Channel) : Aside s (s.notifyWaitChannel ch) := by
  unfold TaskList.notifyWaitChannel
  split_ifs
  · exact refl s
  · split
    · exact wake s _
    · exact refl s

theorem wakeEach (ch : Channel) (ts : List ℕ) (s : TaskList) : Aside s (wakeEach ch ts s) := by
  induction ts generalizing s with
  | nil => exact refl s
  | cons t ts ih =>
    rw [TaskList.wakeEach]
    split_ifs
    · exact (wake s t).trans (ih _)
    · exact ih s

theorem tick (s : TaskList) : Aside s s.updateCurrThread.updateSleepingQueue := by
  have hcurr : Aside s s.updateCurrThread := by
    unfold updateCurrThread
    split
    · exact refl s
    · exact .modThread s _ fun _ => id
  refine hcurr.trans ?_
  unfold updateSleepingQueue
  split
  · exact refl _
  · split_ifs
    · rw [readyTid_eq]
      split_ifs
      · exact (setState _ _ .ready).trans ⟨rfl, rfl, fun _ => id⟩
      · exact ⟨rfl, rfl, fun _ => id⟩
    · exact ⟨rfl, rfl, fun _ => id⟩

theorem switchTo (s : TaskList) (c n : ℕ) : Aside s (s.switchTo c n).2 := by
  rcases eq_or_ne c n with rfl | hcn
  · simpa [TaskList.switchTo] using setState s c .running
  · refine ⟨?_, ?_, fun t ht => ?_⟩
    · simp only [TaskList.switchTo, if_neg hcn]
      split_ifs <;> rfl
    · simp only [TaskList.switchTo, if_neg hcn]
      split_ifs <;> rfl
    · rwa [switchTo_thr s hcn] at ht

theorem schedule {rsp src ret : UInt64} (h : s.schedule rsp src = some (ret, s')) : Aside s s' := by
  have hswitch : ∀ {s0 c n}, some (TaskList.switchTo s0 c n) = some (ret, s') → Aside s0 s' := by
    intro s0 c n heq
    simpa [Option.some.inj heq] using switchTo s0 c n
  have hstay : ∀ {r s0}, some (r, s0) = some (ret, s') → s' = s0 := fun heq =>
    (Prod.mk.inj (Option.some.inj heq)).2.symm
  unfold TaskList.schedule at h
  split_ifs at h
  · exact hstay h ▸ refl s
  · split at h
    · exact hstay h ▸ refl s
    · next cur _ =>
      have hsave : Aside s (s.modThread cur fun th => { th with kRsp := rsp }) :=
        .modThread s cur fun _ => id
      simp only at h
      split at h
      · exact hsave.trans (hswitch h)
      · split_ifs at h
        · exact hstay h ▸ hsave
        · exact hstay h ▸ hsave
        · split at h
          · exact hsave.trans (hswitch h)
          · cases h

end Aside

/-! ## One round of the second loop -/

/-- Past the gate of `console_read`, if it is open to `cur`: the console is its own. -/
def pastGate (s : TaskList) (cur : ℕ) : Option (ℕ × TaskList) :=
  if s.consoleReadOwner ≠ none ∧ s.consoleReadOwner ≠ some cur then none
  else some (cur, { s with consoleReadOwner := some cur })

/-- The thread that runs a round of the second loop at `e`, and the state the round starts in. -/
def round (e : Event) (s : TaskList) : Option (ℕ × TaskList) :=
  match e with
  | .consoleRead _ => s.userCaller.bind s.pastGate
  | .resume _ => s.currentThread.bind fun cur =>
    match (s.thr cur).cont with
    | .consoleGate => s.pastGate cur
    | .consoleLoop => some (cur, s)
    | _ => none
  | _ => none

variable {cur : ℕ}

/-- The caller of a system call is the current thread. -/
theorem current_of_userCaller (h : s.userCaller = some cur) : s.currentThread = some cur := by
  unfold userCaller caller at h
  cases hc : s.currentThread with
  | none => simp [hc] at h
  | some c =>
    simp only [hc] at h
    split at h
    · cases h
    · next heq =>
      split_ifs at heq h
      cases heq
      exact h

/-- A round starts as the current thread: having passed the gate, or in the loop since before. -/
theorem round_cases {s0 : TaskList} (h : round e s = some (cur, s0)) :
    s.currentThread = some cur ∧
      ((s.consoleReadOwner = none ∨ s.consoleReadOwner = some cur) ∧
          s0 = { s with consoleReadOwner := some cur } ∨
        (s.thr cur).cont = .consoleLoop ∧ s0 = s) := by
  have hgate : ∀ {c}, s.pastGate c = some (cur, s0) → c = cur ∧
      (s.consoleReadOwner = none ∨ s.consoleReadOwner = some cur) ∧
        s0 = { s with consoleReadOwner := some cur } := by
    intro c hc
    unfold pastGate at hc
    split_ifs at hc with hclosed
    cases hc
    exact ⟨rfl, by tauto, rfl⟩
  cases e with
  | consoleRead y =>
    obtain ⟨c, hc, hp⟩ := Option.bind_eq_some_iff.1 h
    obtain ⟨rfl, hopen⟩ := hgate hp
    exact ⟨current_of_userCaller hc, .inl hopen⟩
  | resume y =>
    obtain ⟨c, hc, hp⟩ := Option.bind_eq_some_iff.1 h
    split at hp
    · obtain ⟨rfl, hopen⟩ := hgate hp
      exact ⟨hc, .inl hopen⟩
    · next hk =>
      cases hp
      exact ⟨hc, .inr ⟨hk, rfl⟩⟩
    · cases hp
  | yield | spawn | exit | waitpid | kusleep | notify | key | tick => cases h

/-- `console_read` is a round, or the gate is closed. -/
theorem consoleRead_cases (s : TaskList) (cur : ℕ) :
    (∃ s0, s.pastGate cur = some (cur, s0) ∧ (s.consoleRead cur).1 = (s0.consoleLoop cur).1) ∨
      s.pastGate cur = none ∧ (s.consoleRead cur).1 = s.consoleBlock cur .consoleGate := by
  unfold pastGate TaskList.consoleRead
  split_ifs
  · exact .inr ⟨rfl, rfl⟩
  · exact .inl ⟨_, rfl, rfl⟩

/-- **Everything an event can do at the console**, up to the `schedule` it enters. -/
theorem prepare_console {s1 : TaskList} {y : Option Yield} (h : prepare e s = some (s1, y)) :
    (∃ cur s0, round e s = some (cur, s0) ∧ s1 = (s0.consoleLoop cur).1) ∨
      (∃ c, e = .key c ∧ Aside { s with kdb := s.kdb.append c } s1) ∨
      round e s = none ∧ (∀ c, e ≠ .key c) ∧ Aside s s1 := by
  cases effect_of_prepare h with
  | yield | spawnFails | waitpidReturns => exact .inr (.inr ⟨rfl, by simp, .refl s⟩)
  | spawns => exact .inr (.inr ⟨rfl, by simp, .newElfProcess s _ _⟩)
  | exits => exact .inr (.inr ⟨rfl, by simp, .sysExit s _ _⟩)
  | waits => exact .inr (.inr ⟨rfl, by simp, .waitFor s _ _⟩)
  | sleeps => exact .inr (.inr ⟨rfl, by simp, .kusleep s _ _⟩)
  | notify => exact .inr (.inr ⟨rfl, by simp, .notifyWaitChannel s _⟩)
  | tick => exact .inr (.inr ⟨rfl, by simp, .tick s⟩)
  | key c => exact .inr (.inl ⟨c, rfl, .notifyWaitChannel _ _⟩)
  | @reads cur hc y' =>
    rcases consoleRead_cases s cur with ⟨s0, hp, heq⟩ | ⟨hp, heq⟩
    · exact .inl ⟨cur, s0, by simp [round, hc, hp], heq⟩
    · refine .inr (.inr ⟨by simp [round, hc, hp], by simp, ?_⟩)
      rw [heq]
      exact .modThread s cur fun _ h => nomatch h
  | @readsOn cur hc hk y' =>
    rcases consoleRead_cases s cur with ⟨s0, hp, heq⟩ | ⟨hp, heq⟩
    · exact .inl ⟨cur, s0, by simp [round, hc, hk, hp], heq⟩
    · refine .inr (.inr ⟨by simp [round, hc, hk, hp], by simp, ?_⟩)
      rw [heq]
      exact .modThread s cur fun _ h => nomatch h
  | @loopsOn cur hc hk y' => exact .inl ⟨cur, s, by simp [round, hc, hk], rfl⟩
  | @returns cur hc hu y' =>
    refine .inr (.inr ⟨?_, by simp, .modThread s cur fun _ h => nomatch h⟩)
    rcases hu with hk | ⟨c, hk⟩ <;> simp [round, hc, hk]

/-- **Everything a step can do at the console.** -/
theorem console_cases (h : step e s = some s') :
    (∃ cur s0, round e s = some (cur, s0) ∧ Aside (s0.consoleLoop cur).1 s') ∨
      (∃ c, e = .key c ∧ Aside { s with kdb := s.kdb.append c } s') ∨
      round e s = none ∧ (∀ c, e ≠ .key c) ∧ Aside s s' := by
  obtain ⟨s1, y, hp, hs⟩ : ∃ s1 y, prepare e s = some (s1, y) ∧ Aside s1 s' := by
    rcases step_cases h with hp | ⟨s1, y, ret, hp, hs⟩
    · exact ⟨s', none, hp, .refl s'⟩
    · exact ⟨s1, some y, hp, .schedule hs⟩
  rcases prepare_console hp with ⟨cur, s0, hr, rfl⟩ | ⟨c, rfl, hk⟩ | ⟨hr, hk, ha⟩
  · exact .inl ⟨cur, s0, hr, hs⟩
  · exact .inr (.inl ⟨c, rfl, hk.trans hs⟩)
  · exact .inr (.inr ⟨hr, hk, ha.trans hs⟩)

/-- A round that reads a `0` goes to sleep. -/
theorem consoleLoop_of_zero (h : s.kdb.getChar.1 = 0) :
    (s.consoleLoop cur).1 = { s with kdb := s.kdb.getChar.2 }.consoleBlock cur .consoleLoop := by
  simp [consoleLoop, h]

/-- A round that reads a character releases the console and leaves. -/
theorem consoleLoop_of_ne (h : s.kdb.getChar.1 ≠ 0) : (s.consoleLoop cur).1 =
      (wakeEach .console s.threadList
        { s with kdb := s.kdb.getChar.2, consoleReadOwner := none }).modThread cur
          fun th => { th with cont := .user } := by
  simp [consoleLoop, h]

theorem consoleLoop_kdb (s : TaskList) (cur : ℕ) : (s.consoleLoop cur).1.kdb = s.kdb.getChar.2 := by
  by_cases h : s.kdb.getChar.1 = 0
  · rw [consoleLoop_of_zero h]
    rfl
  · rw [consoleLoop_of_ne h]
    exact (Aside.wakeEach .console s.threadList _).kdb

/-! ## One thread past the gate -/

/-- **The gate**: a thread in the second loop owns the console. -/
def Gate (s : TaskList) : Prop := ∀ t, (s.thr t).cont = .consoleLoop → s.consoleReadOwner = some t

theorem Gate.aside (h : Gate s) (ha : Aside s s') : Gate s' := fun t ht => by
  rw [ha.owner]
  exact h t (ha.inLoop t ht)

theorem gate_init (b : Boot) : Gate (initMultitasking b) := by
  intro t ht
  simp only [initMultitasking] at ht
  split_ifs at ht

/-- Where a round starts, the console belongs to the thread that runs it, and the ring is as the
event found it. -/
theorem Gate.round (h : Gate s) {s0 : TaskList} (hr : round e s = some (cur, s0)) :
    Gate s0 ∧ s0.consoleReadOwner = some cur ∧ s0.kdb = s.kdb := by
  obtain ⟨-, ⟨hopen, rfl⟩ | ⟨hk, rfl⟩⟩ := round_cases hr
  · refine ⟨fun t ht => ?_, rfl, rfl⟩
    have hown : s.consoleReadOwner = some t := h t ht
    rcases hopen with hnone | hcur
    · rw [hnone] at hown
      cases hown
    · exact hcur.symm.trans hown
  · exact ⟨h, h cur hk, rfl⟩

/-- **A round keeps the gate.** -/
theorem Gate.consoleLoop (h : Gate s) (howner : s.consoleReadOwner = some cur) :
    Gate (s.consoleLoop cur).1 := by
  have honly : ∀ t, (s.thr t).cont = .consoleLoop → t = cur := fun t ht =>
    Option.some.inj ((h t ht).symm.trans howner)
  by_cases hc : s.kdb.getChar.1 = 0
  · rw [consoleLoop_of_zero hc]
    intro t ht
    rcases eq_or_ne t cur with rfl | hne
    · exact howner
    · rw [consoleBlock, modThread_of_ne _ _ hne] at ht
      exact absurd (honly t ht) hne
  · rw [consoleLoop_of_ne hc]
    intro t ht
    rcases eq_or_ne t cur with rfl | hne
    · simp at ht
    · rw [modThread_of_ne _ _ hne] at ht
      have hin := (Aside.wakeEach _ _ _).inLoop t ht
      exact absurd (honly t hin) hne

/-- **Every step keeps the gate.** -/
theorem Gate.step (h : Gate s) (he : step e s = some s') : Gate s' := by
  rcases console_cases he with ⟨cur, s0, hr, ha⟩ | ⟨c, rfl, ha⟩ | ⟨-, -, ha⟩
  · obtain ⟨h0, howner, -⟩ := h.round hr
    exact (h0.consoleLoop howner).aside ha
  · exact Gate.aside (s := { s with kdb := s.kdb.append c }) h ha
  · exact h.aside ha

/-- **Every step keeps the gate and a sane ring.** -/
theorem gate_sane_step (h : Gate s ∧ s.kdb.Sane) (he : TaskList.step e s = some s') :
    Gate s' ∧ s'.kdb.Sane := by
  refine ⟨h.1.step he, ?_⟩
  rcases console_cases he with ⟨cur, s0, hr, ha⟩ | ⟨c, rfl, ha⟩ | ⟨hr, hk, ha⟩
  · obtain ⟨-, -, hkdb⟩ := h.1.round hr
    rw [ha.kdb, consoleLoop_kdb, hkdb]
    exact h.2.getChar
  · rw [ha.kdb]
    exact h.2.append c
  · rw [ha.kdb]
    exact h.2

theorem gate_sane_of_run {es : List Event} (h : Run step (initMultitasking b) es s) :
    Gate s ∧ s.kdb.Sane :=
  h.invariant (I := fun s => Gate s ∧ s.kdb.Sane) (fun _ _ _ hi he => gate_sane_step hi he)
    ⟨gate_init b, Kdb.sane_empty⟩

/-! ## What goes in comes out -/

/-- The character `console_read` stores in `*buf` before it returns `1`, where `e` takes it
there. -/
def returns (e : Event) (s : TaskList) : List UInt8 :=
  match round e s with
  | none => []
  | some (_, s0) => [s0.kdb.getChar.1].filter (· ≠ 0)

/-- The character, if it is not `0`, that `append_to_input_buffer` finds room for. -/
def accepts (e : Event) (s : TaskList) : List UInt8 :=
  match e with
  | .key c => if c ≠ 0 ∧ s.kdb.occupancy < kdbBufferSize then [c] else []
  | _ => []

/-- The kernel, with all that `console_read` returned to any thread and all that was accepted from
the keyboard, in order. -/
structure Logged where
  tasks : TaskList
  returned : List UInt8
  accepted : List UInt8

/-- One event, written down. -/
def Logged.step (e : Event) (l : Logged) : Option Logged :=
  (TaskList.step e l.tasks).map fun s' =>
    { tasks := s'
      returned := l.returned ++ returns e l.tasks
      accepted := l.accepted ++ accepts e l.tasks }

/-- Nothing typed, nothing read. -/
def Logged.init (b : Boot) : Logged := ⟨initMultitasking b, [], []⟩

/-- The invariant behind the order: what was read and what can still be read is what was typed. -/
structure InOrder (l : Logged) : Prop where
  gate : Gate l.tasks
  sane : l.tasks.kdb.Sane
  log : l.returned ++ l.tasks.kdb.pending = l.accepted

theorem inOrder_init (b : Boot) : InOrder (.init b) :=
  ⟨gate_init b, Kdb.sane_empty, rfl⟩

/-- **Every step keeps the order.** -/
theorem InOrder.step {l l' : Logged} (h : InOrder l) (he : Logged.step e l = some l') :
    InOrder l' := by
  obtain ⟨s', hs, rfl⟩ := Option.map_eq_some_iff.1 he
  obtain ⟨hgate, hsane⟩ := gate_sane_step ⟨h.gate, h.sane⟩ hs
  refine ⟨hgate, hsane, ?_⟩
  rcases console_cases hs with ⟨cur, s0, hr, ha⟩ | ⟨c, rfl, ha⟩ | ⟨hr, hk, ha⟩
  · obtain ⟨-, -, hkdb⟩ := h.gate.round hr
    have hacc : accepts e l.tasks = [] := by
      cases e with
      | key c => cases hr
      | _ => rfl
    simp only [ha.kdb, consoleLoop_kdb, returns, hr, hkdb, hacc, List.append_nil]
    rw [List.append_assoc, ← h.sane.pending_getChar, h.log]
  · have hret : returns (.key c) l.tasks = [] := rfl
    simp only [ha.kdb, hret, List.append_nil, h.sane.pending_append]
    rw [← List.append_assoc, h.log]
    rfl
  · have hacc : accepts e l.tasks = [] := by
      cases e with
      | key c => exact absurd rfl (hk c)
      | _ => rfl
    simp only [ha.kdb, returns, hr, hacc, List.append_nil]
    exact h.log

/-- **Console input is delivered in order, once.**  Whatever the threads and the keyboard do, at
most one thread is past the gate, and the characters returned so far, followed by the non-zero
characters in the ring, are the non-zero characters the ring had room for. -/
theorem console_in_order {es : List Event} {l : Logged} (h : Run Logged.step (Logged.init b) es l) :
    (∀ t u, (l.tasks.thr t).cont = .consoleLoop → (l.tasks.thr u).cont = .consoleLoop → t = u) ∧
      l.returned ++ l.tasks.kdb.contents.filter (· ≠ 0) = l.accepted := by
  have hI : InOrder l := h.invariant (fun _ _ _ hi he => hi.step he) (inOrder_init b)
  exact ⟨fun t u ht hu => Option.some.inj ((hI.gate t ht).symm.trans (hI.gate u hu)), hI.log⟩

/-- A process types two characters and reads one. -/
theorem console_in_order_readOne : ∃ l, Run Logged.step (Logged.init zeroBoot)
        [.spawn (some firstProc), .yield ⟨0x8f00, 0, by decide⟩, .key 97, .key 98,
          .consoleRead ⟨0xaf00, 0, by decide⟩] l ∧
      l.returned = [97] ∧ l.accepted = [97, 98] ∧
      l.returned ++ l.tasks.kdb.contents.filter (· ≠ 0) = l.accepted := by
  have hrun : Run Logged.step (Logged.init zeroBoot)
      [.spawn (some firstProc), .yield ⟨0x8f00, 0, by decide⟩, .key 97, .key 98,
        .consoleRead ⟨0xaf00, 0, by decide⟩] _ := .of_exec rfl
  exact ⟨_, hrun, rfl, rfl, (console_in_order hrun).2⟩

/-! ## Which reader a key wakes -/

/-- The thread list is newest first, and the owner of the console is in it. -/
structure Ranked (s : TaskList) : Prop where
  newest : s.threadList.Pairwise (· > ·)
  owner_mem : ∀ o, s.consoleReadOwner = some o → o ∈ s.threadList

theorem ranked_init (b : Boot) : Ranked (initMultitasking b) :=
  ⟨by simp [initMultitasking, idleTid, mainTid], fun _ h => nomatch h⟩

/-- A step leaves the thread list alone, or puts a new thread at its head. -/
theorem Good.threadList_cases (h : Good b s) (he : step e s = some s') :
    s'.threadList = s.threadList ∨ s'.threadList = s.nextTid :: s.threadList := by
  obtain ⟨s1, y, hp, hl⟩ : ∃ s1 y, prepare e s = some (s1, y) ∧
      s'.threadList = s1.threadList := by
    rcases (h.step_cases he).2 with hp | ⟨s1, y, ret, c, n, hp, -, -, hs⟩
    · exact ⟨s', none, hp, rfl⟩
    · exact ⟨s1, some y, hp, hs.shape.threadList⟩
  rw [hl]
  rcases (effect_of_prepare hp).quiet with hq | ⟨cur, n, -, rfl, -⟩
  · exact .inl hq.threadList
  · exact .inr rfl

/-- After a round the console is its thread's, or nobody's. -/
theorem consoleLoop_owner (h : s.consoleReadOwner = some cur) (o : ℕ)
    (ho : (s.consoleLoop cur).1.consoleReadOwner = some o) : o = cur := by
  by_cases hc : s.kdb.getChar.1 = 0
  · rw [consoleLoop_of_zero hc] at ho
    exact Option.mem_unique ho h
  · rw [consoleLoop_of_ne hc] at ho
    have hnone := ho.symm.trans (Aside.wakeEach .console s.threadList _).owner
    cases hnone

/-- **Every step keeps the ranks.** -/
theorem Ranked.step (h : Ranked s) (hg : Good b s) (hgate : Gate s) (he : step e s = some s') :
    Ranked s' := by
  have hmem : ∀ {t}, t ∈ s.threadList → t ∈ s'.threadList := by
    intro t ht
    rcases hg.threadList_cases he with heq | heq <;> simp [heq, ht]
  refine ⟨?_, fun o ho => hmem ?_⟩
  · rcases hg.threadList_cases he with heq | heq
    · rw [heq]
      exact h.newest
    · rw [heq, List.pairwise_cons]
      exact ⟨hg.core.shape.tid_lt, h.newest⟩
  · rcases console_cases he with ⟨cur, s0, hr, ha⟩ | ⟨c, rfl, ha⟩ | ⟨-, -, ha⟩
    · obtain ⟨-, howner, -⟩ := hgate.round hr
      obtain rfl := consoleLoop_owner howner o (ha.owner ▸ ho)
      obtain ⟨c, hmem, hc⟩ := hg.core.current
      obtain rfl := Option.some.inj (hc.symm.trans (round_cases hr).1)
      exact hmem
    · exact h.owner_mem o (ha.owner ▸ ho)
    · exact h.owner_mem o (ha.owner ▸ ho)

theorem ranked_of_run {es : List Event} (h : Run step (initMultitasking b) es s) : Ranked s :=
  (h.invariant (I := fun s => Good b s ∧ Gate s ∧ Ranked s)
    (fun _ _ _ hi he =>
      ⟨(hi.1.step_cases he).1, hi.2.1.step he, hi.2.2.step hi.1 hi.2.1 he⟩)
    ⟨good_init b, gate_init b, ranked_init b⟩).2.2

/-- **The first hit in a list that is newest first** is the newest hit. -/
theorem find?_eq_some_iff_newest {p : ℕ → Bool} {ts : List ℕ} {o : ℕ}
    (h : ts.Pairwise (· > ·)) (ho : o ∈ ts) (hp : p o = true) :
    ts.find? p = some o ↔ ∀ t ∈ ts, o < t → p t = false := by
  rw [List.find?_eq_some_iff_append]
  constructor
  · rintro ⟨-, newer, older, rfl, hnot⟩ t ht hlt
    rcases List.mem_append.1 ht with hnew | hold
    · simpa using hnot t hnew
    · rcases List.mem_cons.1 hold with rfl | hold
      · omega
      · have hgt := (List.pairwise_cons.1 (List.pairwise_append.1 h).2.1).1 t hold
        omega
  · intro hnew
    obtain ⟨newer, older, rfl⟩ := List.append_of_mem ho
    refine ⟨hp, newer, older, rfl, fun t ht => ?_⟩
    have hgt := (List.pairwise_append.1 h).2.2 t ht o List.mem_cons_self
    simp [hnew t (List.mem_append_left _ ht) hgt]

/-- **Whom a key wakes.**  In every reachable state in which the owner of the console is blocked on
it, a key makes the owner `READY` exactly when no thread made later than the owner is blocked on the
console with it. -/
theorem key_wakes_owner_iff {es : List Event} {o : ℕ} {c : UInt8}
    (h : Run step (initMultitasking b) es s) (howner : s.consoleReadOwner = some o)
    (hblocked : s.waitsOn o .console = true) (hkey : step (.key c) s = some s') :
    (s'.thr o).state = .ready ↔ ∀ t ∈ s.threadList, o < t → s.waitsOn t .console = false := by
  have hr := ranked_of_run h
  have ho := hr.owner_mem o howner
  rw [← find?_eq_some_iff_newest hr.newest ho hblocked]
  obtain ⟨hwait, -⟩ : (s.thr o).state = .waiting ∧ (s.thr o).blockChannel = .console := by
    simpa [waitsOn] using hblocked
  have hstep : step (.key c) s =
      some ({ s with kdb := s.kdb.append c }.notifyWaitChannel .console) := rfl
  obtain rfl := Option.mem_unique hstep hkey
  have hfind : ∀ r, s.threadList.find? (fun t => s.waitsOn t .console) = r →
      { s with kdb := s.kdb.append c }.notifyWaitChannel .console =
        r.elim { s with kdb := s.kdb.append c } { s with kdb := s.kdb.append c }.wake := by
    rintro r rfl
    exact notifyWaitChannel_eq _ (by decide)
  cases hf : s.threadList.find? fun t => s.waitsOn t .console with
  | none => simp [hfind _ hf, hwait]
  | some t =>
    rw [hfind _ hf, Option.elim_some]
    rcases eq_or_ne o t with rfl | hne
    · simp [wake]
    · simp [wake, modThread_of_ne _ _ hne, hwait, hne.symm]

/-- Two processes are made; the first one owns the console and waits for a key, and the second one
waits at the gate. -/
def twoReaders : List Event :=
  [.spawn (some firstProc), .spawn (some ⟨0x6000, 0xc000, "", 0⟩), .yield ⟨0x8f00, 0, zero_src_ne⟩,
    .yield ⟨0xbf00, 0, zero_src_ne⟩, .consoleRead ⟨0xaf00, 0, zero_src_ne⟩,
    .consoleRead ⟨0xbf00, 0, zero_src_ne⟩]

/-- A key then wakes the second one, and the owner sleeps on. -/
theorem twoReaders_owner_sleeps :
    ∃ s s', Run step (initMultitasking zeroBoot) twoReaders s ∧ s.consoleReadOwner = some 2 ∧
      s.waitsOn 2 .console = true ∧ s.kdb.occupancy < kdbBufferSize ∧
      step (.key 97) s = some s' ∧ (s'.thr 2).state = .waiting ∧ (s'.thr 3).state = .ready := by
  have hrun : Run step (initMultitasking zeroBoot) twoReaders _ := .of_exec rfl
  exact ⟨_, _, hrun, rfl, rfl, by decide, rfl, rfl, rfl⟩

/-- It was made later. -/
theorem key_wakes_owner_iff_twoReaders : ∃ s, Run step (initMultitasking zeroBoot) twoReaders s ∧
      ¬∀ t ∈ s.threadList, 2 < t → s.waitsOn t .console = false := by
  have hrun : Run step (initMultitasking zeroBoot) twoReaders _ := .of_exec rfl
  refine ⟨_, hrun, fun hnone => ?_⟩
  have hready := (key_wakes_owner_iff (o := 2) (c := 97) hrun rfl rfl rfl).2 hnone
  exact absurd hready (by decide)

/-! ## What the owner sleeps on -/

/-- If the thread of a round at `e` sets itself `WAITING`, the ring is empty. -/
def SleepsEmpty (e : Event) (s : TaskList) : Prop :=
  ∀ cur s0, round e s = some (cur, s0) → ((s0.consoleLoop cur).1.thr cur).state = .waiting →
    (s0.consoleLoop cur).1.kdb.occupancy = 0

/-- If a round at `e` takes a `0` from the ring, it is the last character there. -/
def NulLast (e : Event) (s : TaskList) : Prop :=
  ∀ cur s0, round e s = some (cur, s0) → ∀ rest, s0.kdb.contents = 0 :: rest → rest = []

/-- A round makes its thread wait exactly if it reads a `0`. -/
theorem consoleLoop_waiting_iff (h : Runnable (s.thr cur).state) :
    ((s.consoleLoop cur).1.thr cur).state = .waiting ↔ s.kdb.getChar.1 = 0 := by
  by_cases hc : s.kdb.getChar.1 = 0
  · simp [consoleLoop_of_zero hc, consoleBlock, hc]
  · have hthr := wakeEach_thr_of_runnable
      (s := { s with kdb := s.kdb.getChar.2, consoleReadOwner := none }) .console s.threadList h
    have hrun : (s.thr cur).state ≠ .waiting := by rcases h with h | h <;> simp [h]
    simp [consoleLoop_of_ne hc, hthr, hc, hrun]

/-- **One round**: the sleeper leaves an empty ring exactly if no `0` was taken from before another
character. -/
theorem sleepsEmpty_iff (hg : Good b s) (hgate : Gate s) (hs : s.kdb.Sane) :
    SleepsEmpty e s ↔ NulLast e s := by
  refine forall_congr' fun cur => forall_congr' fun s0 => imp_congr_right fun hr => ?_
  obtain ⟨-, -, hkdb⟩ := hgate.round hr
  have hthr : s0.thr = s.thr := by
    rcases (round_cases hr).2 with ⟨-, rfl⟩ | ⟨-, rfl⟩ <;> rfl
  have hrun : Runnable (s0.thr cur).state := by
    rw [hthr]
    exact hg.current cur (round_cases hr).1
  rw [consoleLoop_waiting_iff hrun, consoleLoop_kdb, hkdb, ← Kdb.length_contents,
    List.length_eq_zero_iff]
  by_cases hpos : 0 < s.kdb.occupancy
  · rw [hs.contents_getChar hpos]
    constructor
    · rintro hz rest heq
      obtain ⟨hc, rfl⟩ := List.cons_eq_cons.1 heq
      exact hz hc
    · intro hnul hc
      exact hnul _ (by rw [hc])
  · have hempty : s.kdb.contents = [] := by
      rw [← List.length_eq_zero_iff, Kdb.length_contents]
      omega
    simp [Kdb.getChar_of_empty hpos, hempty]

/-- **When `console_read` sleeps only on an empty ring.**  Over any run: whenever the owner of the
console sets itself `WAITING` the ring is empty, exactly if every `0` that `console_read` takes from
the ring is the last character there. -/
theorem sleepsEmpty_iff_nulLast (b : Boot) (es : List Event) :
    (∀ es1 e es2 s, es = es1 ++ e :: es2 → Run step (initMultitasking b) es1 s →
        SleepsEmpty e s) ↔
      ∀ es1 e es2 s, es = es1 ++ e :: es2 → Run step (initMultitasking b) es1 s → NulLast e s := by
  have hround : ∀ {es1 e s}, Run step (initMultitasking b) es1 s →
      (SleepsEmpty e s ↔ NulLast e s) := by
    intro es1 e s hrun
    obtain ⟨hgate, hsane⟩ := gate_sane_of_run hrun
    exact sleepsEmpty_iff (good_of_run hrun) hgate hsane
  refine forall₄_congr fun es1 e es2 s => imp_congr_right fun _ => ?_
  exact forall_congr' fun hrun => hround hrun

/-- A key without a character, a key with one, and a process that reads. -/
def nulFirst : List Event :=
  [.spawn (some firstProc), .yield ⟨0x8f00, 0, by decide⟩, .key 0, .key 97]

/-- The reader sleeps in front of the character. -/
theorem nulFirst_sleeps : ∃ s cur s0, Run step (initMultitasking zeroBoot) nulFirst s ∧
      round (.consoleRead ⟨0xaf00, 0, by decide⟩) s = some (cur, s0) ∧
      ((s0.consoleLoop cur).1.thr cur).state = .waiting ∧
      (s0.consoleLoop cur).1.kdb.occupancy = 1 := by
  have hrun : Run step (initMultitasking zeroBoot) nulFirst _ := .of_exec rfl
  exact ⟨_, _, _, hrun, rfl, rfl, rfl⟩

end Hvos.Sched.TaskList
