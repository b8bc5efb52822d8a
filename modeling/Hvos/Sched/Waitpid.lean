import Hvos.Sched.Consistency

/-!
# Sched/Waitpid — exits, and who hears of them

`sys_waitpid` looks a process up by pid and sleeps until somebody sets it `READY`; `sys_exit` wakes
its *parent*, and only if the parent waits for this very process.  The first half shows that a
waiter is never woken for another reason, so the code it returns is the code its target exited with.
The second half shows when an exit is lost: exactly when a process that waits for the exiting one is
not its parent.
-/

namespace Hvos.Sched.TaskList

variable {b : Boot} {s s' s1 : TaskList}

/-! ## One exit -/

/-- A process has finished when its primary thread is dead. -/
theorem finished_iff (h : Shape s) {t : ℕ} (ht : t ∈ s.threadList) (hi : t ≠ idleTid) :
    s.finished (s.thr t).process = true ↔ (s.thr t).state = .dead := by
  simp [finished, h.primary t ht hi]

variable {p cur : ℕ}

section Exit

variable (h : Core b s) (hr : CurrentRunnable s) {cur : ℕ} (hc : s.userCaller = some cur) (code : ℤ)

include h hc

theorem sysExit_cont (t : ℕ) : ((s.sysExit cur code).thr t).cont = (s.thr t).cont := by
  have hdie : ∀ t, ((s.die cur code).thr t).cont = (s.thr t).cont := by
    intro t
    rcases eq_or_ne t cur with rfl | hne
    · simp [die, setState]
    · rw [die_thr_of_ne s code hne]
  rcases sysExit_cases h (calls_of_userCaller h hc).1.mem code with
    ⟨heq, -⟩ | ⟨u, -, -, -, heq⟩
  · rw [heq, hdie]
  · rw [heq]
    rcases eq_or_ne t u with rfl | hne
    · simpa [wakeParent, setState] using hdie t
    · rw [wakeParent_thr_of_ne _ _ hne, hdie]

/-- What an exit writes to the processes: its own code, and its waiting parent's flag. -/
theorem sysExit_proc (p : ℕ) : ((s.sysExit cur code).proc p).exitCode =
        (if p = (s.thr cur).process then code else (s.proc p).exitCode) ∧
      ((s.sysExit cur code).proc p).waitTargetPid = (s.proc p).waitTargetPid ∧
      (((s.sysExit cur code).proc p).isWaiting = true ↔ (s.proc p).isWaiting = true ∧
        ¬((s.proc (s.thr cur).process).parent = some p ∧
          (s.proc p).waitTargetPid = (s.thr cur).process)) := by
  have hcode : ((s.die cur code).proc p).exitCode =
      if p = (s.thr cur).process then code else (s.proc p).exitCode := by
    split_ifs with hp
    · subst hp
      simp [die, setState]
    · simp [die, setState, modProc_of_ne s _ hp]
  rcases sysExit_cases h (calls_of_userCaller h hc).1.mem code with
    ⟨heq, hnone⟩ | ⟨u, -, -, ⟨hpar, hw, htgt⟩, heq⟩
  · rw [heq]
    refine ⟨hcode, die_proc_waitTargetPid .., ?_⟩
    rw [die_proc_isWaiting]
    exact ⟨fun hw => ⟨hw, fun hp => hnone p ⟨hp.1, hw, hp.2⟩⟩, And.left⟩
  · rw [heq]
    rcases eq_or_ne p (s.thr u).process with rfl | hne
    · refine ⟨?_, ?_, ?_⟩
      · simpa [wakeParent, setState] using hcode
      · simp [wakeParent, setState]
      · simp [wakeParent, setState, hpar, htgt]
    · rw [wakeParent_proc_of_ne _ u hne]
      refine ⟨hcode, die_proc_waitTargetPid .., ?_⟩
      rw [die_proc_isWaiting]
      refine ⟨fun hw => ⟨hw, fun hp => hne ?_⟩, And.left⟩
      exact (Option.mem_unique hpar hp.1).symm

include hr

/-- What an exit writes to the threads: the caller dies, and the thread of a waiting parent that
waits for it is woken. -/
theorem sysExit_state {t : ℕ} (ht : t ∈ s.threadList) (hi : t ≠ idleTid) :
    ((s.sysExit cur code).thr t).state =
      if t = cur then .dead
      else if s.ParentWaits cur (s.thr t).process then .ready
      else (s.thr t).state := by
  obtain ⟨hcalls, hm⟩ := calls_of_userCaller h hc
  have hdie : ((s.die cur code).thr t).state = if t = cur then .dead else (s.thr t).state := by
    split_ifs with htc
    · subst htc
      simp [die, setState]
    · rw [die_thr_of_ne s code htc]
  rcases sysExit_cases h hcalls.mem code with ⟨heq, hnone⟩ | ⟨u, hu, hui, hwaits, heq⟩
  · rw [heq, hdie]
    split_ifs with htc hp
    · rfl
    · exact absurd hp (hnone _)
    · rfl
  · have hne : cur ≠ u := by
      rintro rfl
      have hnot := ((h.tame cur hu hui fun hm' => absurd hm' hm).of_runnable
        (hr cur hcalls.current)).2.1
      exact Bool.noConfusion (hnot.symm.trans hwaits.2.1)
    rw [heq]
    rcases eq_or_ne t u with rfl | htu
    · rw [if_neg (Ne.symm hne), if_pos hwaits]
      simp [wakeParent, setState]
    · rw [wakeParent_thr_of_ne _ _ htu, hdie]
      have hnot : ¬s.ParentWaits cur (s.thr t).process := fun hp =>
        htu (h.shape.process_inj ht hu hi hui (Option.mem_unique hp.1 hwaits.1))
      rw [if_neg hnot]

/-- **An exit finishes the caller's process and no other.** -/
theorem sysExit_finished (hp : p ∈ s.processList) : (s.sysExit cur code).finished p = true ↔
      s.finished p = true ∨ p = (s.thr cur).process := by
  obtain ⟨hcalls, hm⟩ := calls_of_userCaller h hc
  have hq := quiet_sysExit s cur code
  obtain ⟨t, ht, hi, rfl⟩ := h.shape.owner p hp
  rw [finished_iff h.shape ht hi, ← hq.process t,
    finished_iff (hq.shape h.shape) (hq.threadList ▸ ht) hi, sysExit_state h hr hc code ht hi,
    hq.process t]
  constructor
  · intro hd
    split_ifs at hd with htc
    · exact .inr (htc ▸ rfl)
    · exact .inl hd
  · rintro (hd | heq)
    · have hw := ((h.tame_of_dead ht hd).2.2.of_dead hd).2.2.1
      have hnot : ¬s.ParentWaits cur (s.thr t).process := fun hp =>
        Bool.noConfusion (hw.symm.trans hp.2.1)
      rw [if_neg hnot]
      split_ifs
      · rfl
      · exact hd
    · rw [if_pos (h.shape.process_inj ht hcalls.mem hi hcalls.ne_idle heq)]

end Exit

/-! ## Events that finish nobody -/

theorem Steady.finished (hs : Steady s s') (h : Shape s) (hp : p ∈ s.processList) :
    s'.finished p = s.finished p := by
  obtain ⟨t, ht, hi, rfl⟩ := h.owner p hp
  have ht' : t ∈ s'.threadList := hs.shape.threadList ▸ ht
  have hiff := finished_iff (hs.shape.shape h) ht' hi
  rw [hs.shape.process] at hiff
  rw [Bool.eq_iff_iff, hiff, finished_iff h ht hi]
  exact hs.dead t ht

theorem newElfProcess_finished (h : Shape s) (cur : ℕ) (n : NewProc) (hp : p ∈ s.processList) :
    (s.newElfProcess cur n).finished p = s.finished p := by
  obtain ⟨t, ht, hi, rfl⟩ := h.owner p hp
  unfold finished
  rw [newElfProcess_proc h cur n hp, h.primary t ht hi]
  simp only [newElfProcess_thr h cur n ht]

theorem newElfProcess_not_finished (s : TaskList) (cur : ℕ) (n : NewProc) :
    (s.newElfProcess cur n).finished s.nextPid = false := by
  simp [finished, newElfProcess_proc_new, newElfProcess_thr_new]

theorem waitFor_finished (h : Core b s) (hr : CurrentRunnable s) (hc : s.caller = some cur)
    (pid : ℕ) (hp : p ∈ s.processList) : (s.waitFor cur pid).finished p = s.finished p := by
  have hcalls := calls_of_caller h hc
  have hq := quiet_waitFor s cur pid
  obtain ⟨t, ht, hi, rfl⟩ := h.shape.owner p hp
  have hiff := finished_iff (hq.shape h.shape) (hq.threadList ▸ ht) hi
  rw [hq.process] at hiff
  rw [Bool.eq_iff_iff, hiff, finished_iff h.shape ht hi]
  rcases eq_or_ne t cur with rfl | hne
  · have hnot := Steady.not_dead hr hcalls.current
    simp [waitFor, hnot]
  · rw [waitFor, modThread_of_ne _ _ hne, modProc_thr]

/-! ## The code a waiter returns -/

/-- **The return value of `sys_waitpid`**, with the process it found: at once if that has finished,
else when the caller runs on after its `kernel_yield`. -/
def returned (e : Event) (s : TaskList) : Option (ℕ × ℤ) :=
  match e with
  | .waitpid pid _ => s.caller.bind fun _ => (s.processByPid pid).bind fun child =>
    if s.finished child then some (child, (s.proc child).exitCode) else none
  | .resume _ => s.currentThread.bind fun cur =>
    match (s.thr cur).cont with
    | .waitpid c => some (c, (s.proc c).exitCode)
    | _ => none
  | _ => none

/-- In the run `es`, process `p` called `sys_exit` with `code`. -/
def ExitedWith (b : Boot) (es : List Event) (p : ℕ) (code : ℤ) : Prop :=
  ∃ es1 es2 y t cur, es = es1 ++ .exit code y :: es2 ∧ Run step (initMultitasking b) es1 t ∧
    t.userCaller = some cur ∧ (t.thr cur).process = p

variable {es : List Event}

theorem exitedWith_snoc (h : Run step (initMultitasking b) es s) (e : Event) (p : ℕ) (code : ℤ) :
    ExitedWith b (es ++ [e]) p code ↔ ExitedWith b es p code ∨
      ∃ y cur, e = .exit code y ∧ s.userCaller = some cur ∧ (s.thr cur).process = p := by
  constructor
  · rintro ⟨es1, es2, y, t, cur, heq, ht, hc, hp⟩
    rcases List.eq_nil_or_concat es2 with rfl | ⟨es3, e', rfl⟩
    · obtain ⟨rfl, he⟩ := List.append_inj' heq rfl
      obtain rfl := ht.det h
      exact .inr ⟨y, cur, List.singleton_inj.1 he, hc, hp⟩
    · rw [List.concat_eq_append, ← List.cons_append, ← List.append_assoc] at heq
      obtain ⟨rfl, -⟩ := List.append_inj' heq rfl
      exact .inl ⟨es1, es3, y, t, cur, rfl, ht, hc, hp⟩
  · rintro (⟨es1, es2, y, t, cur, rfl, ht, hc, hp⟩ | ⟨y, cur, rfl, hc, hp⟩)
    · exact ⟨es1, es2 ++ [e], y, t, cur, by simp, ht, hc, hp⟩
    · exact ⟨es, [], y, s, cur, rfl, h, hc, hp⟩

/-- **Every finished process has exited once, with the code it keeps; every waiter that has been
woken waited for a finished process.** -/
structure Told (b : Boot) (es : List Event) (s : TaskList) : Prop where
  codes : ∀ p ∈ s.processList, s.finished p = true → ExitedWith b es p (s.proc p).exitCode
  exited : ∀ p code, ExitedWith b es p code →
    p ∈ s.processList ∧ s.finished p = true ∧ (s.proc p).exitCode = code
  waiters : ∀ t ∈ s.threadList, ∀ c, (s.thr t).cont = .waitpid c → c ∈ s.processList ∧
    ((s.proc (s.thr t).process).isWaiting = false → s.finished c = true)

theorem Told.steady (h : Told b es s) (hs : Steady s s') (hsh : Shape s) :
    Told b es s' where
  codes := by
    rw [hs.shape.processList, hs.proc]
    intro p hp hf
    exact h.codes p hp (hs.finished hsh hp ▸ hf)
  exited := by
    rw [hs.shape.processList, hs.proc]
    intro p code hx
    obtain ⟨hp, hf, hcode⟩ := h.exited p code hx
    exact ⟨hp, (hs.finished hsh hp).symm ▸ hf, hcode⟩
  waiters := by
    rw [hs.shape.threadList, hs.shape.processList, hs.proc]
    intro t ht c hk
    rw [hs.shape.process]
    obtain ⟨hc, hf⟩ := h.waiters t ht c (hs.cont t ht c hk)
    exact ⟨hc, fun hw => (hs.finished hsh hc).symm ▸ hf hw⟩

/-- An event that is no exit adds no exit. -/
theorem Told.snoc (h : Told b es s) (hrun : Run step (initMultitasking b) es s) {e : Event}
    (he : ∀ code y, e ≠ .exit code y) : Told b (es ++ [e]) s := by
  have hiff : ∀ p code, ExitedWith b (es ++ [e]) p code ↔ ExitedWith b es p code := by
    intro p code
    rw [exitedWith_snoc hrun, or_iff_left]
    rintro ⟨y, cur, heq, -⟩
    exact he code y heq
  refine ⟨fun p hp hf => (hiff _ _).2 (h.codes p hp hf), fun p code hx => ?_, h.waiters⟩
  exact h.exited p code ((hiff _ _).1 hx)

theorem Told.newElfProcess (h : Told b es s) (hsh : Shape s) (cur : ℕ) (n : NewProc) :
    Told b es (s.newElfProcess cur n) where
  codes := by
    rintro p (_ | ⟨_, hp⟩) hf
    · rw [newElfProcess_not_finished] at hf
      cases hf
    · rw [newElfProcess_finished hsh cur n hp] at hf
      rw [newElfProcess_proc hsh cur n hp]
      exact h.codes p hp hf
  exited p code hx := by
    obtain ⟨hp, hf, hcode⟩ := h.exited p code hx
    rw [newElfProcess_finished hsh cur n hp, newElfProcess_proc hsh cur n hp]
    exact ⟨List.mem_cons_of_mem _ hp, hf, hcode⟩
  waiters := by
    rintro t (_ | ⟨_, ht⟩) c hk
    · rw [newElfProcess_thr_new] at hk
      cases hk
    · rw [newElfProcess_thr hsh cur n ht] at hk ⊢
      rw [newElfProcess_proc hsh cur n (hsh.process_mem t ht)]
      obtain ⟨hc, hf⟩ := h.waiters t ht c hk
      rw [newElfProcess_finished hsh cur n hc]
      exact ⟨List.mem_cons_of_mem _ hc, hf⟩

theorem Told.waitFor (h : Told b es s) (hcore : Core b s) (hr : CurrentRunnable s)
    (hc : s.caller = some cur) {pid : ℕ} (hpid : pid ∈ s.processList) :
    Told b es (s.waitFor cur pid) := by
  have hcalls := calls_of_caller hcore hc
  have hq := quiet_waitFor s cur pid
  have hcode : ∀ p, ((s.waitFor cur pid).proc p).exitCode = (s.proc p).exitCode := by
    intro p
    rcases eq_or_ne p (s.thr cur).process with rfl | hne
    · simp [TaskList.waitFor]
    · simp [TaskList.waitFor, modProc_of_ne s _ hne]
  refine ⟨fun p hp hf => ?_, fun p code hx => ?_, fun t ht c hk => ?_⟩
  · rw [hq.processList] at hp
    rw [hcode]
    exact h.codes p hp (waitFor_finished hcore hr hc pid hp ▸ hf)
  · obtain ⟨hp, hf, hv⟩ := h.exited p code hx
    rw [hq.processList, waitFor_finished hcore hr hc pid hp, hcode]
    exact ⟨hp, hf, hv⟩
  · rw [hq.threadList] at ht
    rw [hq.processList, hq.process]
    rcases eq_or_ne t cur with rfl | hne
    · have hkc : pid = c := by simpa [TaskList.waitFor] using hk
      refine ⟨hkc ▸ hpid, fun hw => ?_⟩
      simp [TaskList.waitFor] at hw
    · rw [TaskList.waitFor, modThread_of_ne _ _ hne, modProc_thr] at hk
      obtain ⟨hcm, hf⟩ := h.waiters t ht c hk
      refine ⟨hcm, fun hw => ?_⟩
      rw [waitFor_finished hcore hr hc pid hcm]
      apply hf
      by_cases hp : (s.thr t).process = (s.thr cur).process
      · rw [hp] at hw
        simp [TaskList.waitFor] at hw
      · simpa [TaskList.waitFor, modProc_of_ne s _ hp] using hw

/-- **An exit tells its waiting parent the truth.** -/
theorem Told.sysExit (hb : b.mainChannel = .null) (h : Told b es s)
    (hrun : Run step (initMultitasking b) es s) (hcore : Core b s) (hr : CurrentRunnable s)
    (hc : s.userCaller = some cur) (code : ℤ) (y : Yield) :
    Told b (es ++ [.exit code y]) (s.sysExit cur code) := by
  obtain ⟨hcalls, hm⟩ := calls_of_userCaller hcore hc
  have hq := quiet_sysExit s cur code
  have hfin := fun p (hp : p ∈ s.processList) => sysExit_finished hcore hr hc code hp
  have hme := hcore.shape.process_mem cur hcalls.mem
  -- The caller runs, so it has not exited before.
  have hfirst : ∀ v, ¬ExitedWith b es (s.thr cur).process v := by
    intro v hx
    have hd := (finished_iff hcore.shape hcalls.mem hcalls.ne_idle).1 (h.exited _ v hx).2.1
    exact Steady.not_dead hr hcalls.current hd
  refine ⟨fun p hp hf => ?_, fun p v hx => ?_, fun t ht c hk => ?_⟩
  · rw [hq.processList] at hp
    rw [exitedWith_snoc hrun, (sysExit_proc hcore hc code p).1]
    split_ifs with heq
    · exact .inr ⟨y, cur, rfl, hc, heq.symm⟩
    · rcases (hfin p hp).1 hf with hf | hf
      · exact .inl (h.codes p hp hf)
      · exact absurd hf heq
  · rw [hq.processList, (sysExit_proc hcore hc code p).1]
    rcases (exitedWith_snoc hrun _ p v).1 hx with hx | ⟨y', cur', heq, hc', rfl⟩
    · obtain ⟨hp, hf, hv⟩ := h.exited p v hx
      refine ⟨hp, (hfin p hp).2 (.inl hf), ?_⟩
      have hne : p ≠ (s.thr cur).process := by
        rintro rfl
        exact hfirst v hx
      rw [if_neg hne]
      exact hv
    · obtain rfl := Option.mem_unique hc hc'
      obtain ⟨rfl, rfl⟩ := Event.exit.inj heq
      exact ⟨hme, (hfin _ hme).2 (.inr rfl), if_pos rfl⟩
  · rw [hq.threadList] at ht
    rw [sysExit_cont hcore hc] at hk
    rw [hq.processList, hq.process]
    obtain ⟨hcm, hf⟩ := h.waiters t ht c hk
    refine ⟨hcm, fun hw => (hfin c hcm).2 ?_⟩
    by_cases hw' : (s.proc (s.thr t).process).isWaiting = true
    · have hnot : ¬((s.sysExit cur code).proc (s.thr t).process).isWaiting = true := by simp [hw]
      rw [(sysExit_proc hcore hc code _).2.2] at hnot
      have htgt : (s.proc (s.thr t).process).waitTargetPid = (s.thr cur).process := by
        by_contra hne
        exact hnot ⟨hw', fun hp => hne hp.2⟩
      have hi : t ≠ idleTid := by
        rintro rfl
        rw [hcore.idle_cont] at hk
        cases hk
      have hcont := ((hcore.tame t ht hi fun _ => hb).of_isWaiting hw').1
      have hkc : Cont.waitpid c = .waitpid (s.thr cur).process := by
        rw [← htgt, ← hk]
        exact hcont
      exact .inr (Cont.waitpid.inj hkc)
    · exact .inl (hf (Bool.eq_false_iff.2 hw'))

/-- **Every run keeps waiters told the truth.** -/
theorem told_of_run (hb : b.mainChannel = .null) (h : Run step (initMultitasking b) es s) :
    Told b es s := by
  refine Run.history (I := fun es s => Told b es s) ?_ ?_ h
  · intro e es s s' hrun htold he
    have hg := good_of_run hrun
    have heffect : ∀ {s1 y}, prepare e s = some (s1, y) → Told b (es ++ [e]) s1 := by
      intro s1 y hp
      rcases (effect_of_prepare hp).kinds hg.core hg.current with ⟨hne, hs⟩ | ⟨cur, n, hc, rfl, rfl⟩ |
        ⟨cur, code, y', hc, rfl, rfl⟩ | ⟨cur, pid, y', hc, rfl, hpid, -, rfl⟩
      · exact (htold.snoc hrun hne).steady hs hg.core.shape
      · exact (htold.snoc hrun (by simp)).newElfProcess hg.core.shape cur n
      · exact htold.sysExit hb hrun hg.core hg.current hc code y'
      · exact (htold.snoc hrun (by simp)).waitFor hg.core hg.current hc hpid
    rcases (hg.step_cases he).2 with hp | ⟨s1, y, ret, c, n, hp, hcore, -, hs⟩
    · exact heffect hp
    · exact (heffect hp).steady hs.steady hcore.shape
  · refine ⟨fun p hp hf => ?_, ?_, ?_⟩
    · simp [finished, initMultitasking, mainTid, idleTid] at hf
    · rintro p code ⟨es1, es2, y, t, cur, heq, -⟩
      simp at heq
    · intro t ht c hk
      simp only [initMultitasking] at hk
      split_ifs at hk

/-- **What `sys_waitpid` returns.**  In every run of a kernel whose first thread found a null block
channel, whenever `sys_waitpid` returns after finding process `c`, the primary thread of `c` is
dead, `c` has called `sys_exit` with the value returned, and with no other. -/
theorem waitpid_returns_exitCode {b : Boot} (hb : b.mainChannel = .null) {es : List Event}
    {s : TaskList} (h : Run step (initMultitasking b) es s) {e : Event} {c : ℕ} {v : ℤ}
    (hret : returned e s = some (c, v)) :
    (∃ t, (s.proc c).primary = some t ∧ (s.thr t).state = .dead) ∧
      ExitedWith b es c v ∧ ∀ v', ExitedWith b es c v' → v' = v := by
  have hg := good_of_run h
  have htold := told_of_run hb h
  have key : c ∈ s.processList ∧ s.finished c = true ∧ v = (s.proc c).exitCode := by
    unfold returned at hret
    split at hret
    · obtain ⟨cur, -, hfound⟩ := Option.bind_eq_some_iff.1 hret
      obtain ⟨child, hp, hval⟩ := Option.bind_eq_some_iff.1 hfound
      obtain ⟨rfl, hmem⟩ := processByPid_eq_some hp
      split_ifs at hval with hf
      cases hval
      exact ⟨hmem, hf, rfl⟩
    · obtain ⟨cur, hcur, hval⟩ := Option.bind_eq_some_iff.1 hret
      split at hval
      · next c' hk =>
        obtain ⟨rfl, rfl⟩ := Prod.mk.inj (Option.some.inj hval)
        obtain ⟨cur', hmem, hcur'⟩ := hg.core.current
        obtain rfl := Option.mem_unique hcur' hcur
        have hi : cur' ≠ idleTid := by
          rintro rfl
          rw [hg.core.idle_cont] at hk
          cases hk
        obtain ⟨hcm, hf⟩ := htold.waiters cur' hmem c' hk
        have htame := hg.core.tame cur' hmem hi fun _ => hb
        exact ⟨hcm, hf (htame.of_runnable (hg.current cur' hcur)).2.1, rfl⟩
      · cases hval
    · cases hret
  obtain ⟨hmem, hf, rfl⟩ := key
  refine ⟨?_, htold.codes c hmem hf, fun v' hx => ((htold.exited c v' hx).2.2).symm⟩
  obtain ⟨t, ht, hi, rfl⟩ := hg.core.shape.owner c hmem
  exact ⟨t, hg.core.shape.primary t ht hi, (finished_iff hg.core.shape ht hi).1 hf⟩

/-- The main thread waits for its first child, which exits with 7. -/
theorem waitpid_returns_exitCode_seven : ∃ s, Run step (initMultitasking zeroBoot)
        [.spawn (some firstProc), .waitpid 1 ⟨0x8f00, 0, by decide⟩,
          .exit 7 ⟨0xaf00, 0, by decide⟩, .yield ⟨0x9f00, 0, by decide⟩] s ∧
      returned (.resume ⟨0x8f00, 0, by decide⟩) s = some (1, 7) ∧
      ∃ t, (s.proc 1).primary = some t ∧ (s.thr t).state = .dead := by
  have hrun : Run step (initMultitasking zeroBoot)
      [.spawn (some firstProc), .waitpid 1 ⟨0x8f00, 0, by decide⟩,
        .exit 7 ⟨0xaf00, 0, by decide⟩, .yield ⟨0x9f00, 0, by decide⟩] _ := .of_exec rfl
  refine ⟨_, hrun, rfl, ?_⟩
  exact (waitpid_returns_exitCode rfl hrun (e := .resume ⟨0x8f00, 0, by decide⟩) (v := 7) rfl).1

/-! ## Lost exits -/

/-- **A lost exit**: a process is blocked in `sys_waitpid` on a process that has finished. -/
def LostExit (s : TaskList) : Prop :=
  ∃ p ∈ s.processList, ∃ t, (s.proc p).primary = some t ∧ (s.proc p).isWaiting = true ∧
    (s.thr t).state = .waiting ∧ s.finished (s.proc p).waitTargetPid = true

/-- **An exit is heard**: if `e` is an exit, every process that is blocked in `sys_waitpid` on the
exiting one is its parent. -/
def Heard (e : Event) (s : TaskList) : Prop :=
  ∀ code y cur, e = .exit code y → s.userCaller = some cur →
    ∀ p ∈ s.processList, ∀ t, (s.proc p).primary = some t → (s.proc p).isWaiting = true →
      (s.thr t).state = .waiting → (s.proc p).waitTargetPid = (s.thr cur).process →
      (s.proc (s.thr cur).process).parent = some p

/-- Every process blocked in `sys_waitpid` waits for one that has not finished. -/
def Awaits (s : TaskList) : Prop :=
  ∀ t ∈ s.threadList, t ≠ idleTid → (s.proc (s.thr t).process).isWaiting = true →
    (s.thr t).state = .waiting → (s.proc (s.thr t).process).waitTargetPid ∈ s.processList ∧
      s.finished (s.proc (s.thr t).process).waitTargetPid = false

theorem Awaits.not_lostExit (h : Awaits s) (hs : Shape s) : ¬LostExit s := by
  rintro ⟨p, hp, t, hprim, hw, hst, hf⟩
  obtain ⟨u, hu, hi, rfl⟩ := hs.owner p hp
  obtain rfl := Option.some.inj ((hs.primary u hu hi).symm.trans hprim)
  rw [(h u hu hi hw hst).2] at hf
  cases hf

theorem Awaits.steady (h : Awaits s) (hs : Steady s s') (hsh : Shape s) : Awaits s' := by
  unfold Awaits
  rw [hs.shape.threadList, hs.shape.processList, hs.proc]
  intro t ht hi hw hst
  rw [hs.shape.process] at hw ⊢
  obtain ⟨hmem, hf⟩ := h t ht hi hw (hs.waiting t ht hi hw hst)
  exact ⟨hmem, (hs.finished hsh hmem).trans hf⟩

theorem Awaits.newElfProcess (h : Awaits s) (hsh : Shape s) (cur : ℕ) (n : NewProc) :
    Awaits (s.newElfProcess cur n) := by
  rintro t (_ | ⟨_, ht⟩) hi hw hst
  · rw [newElfProcess_thr_new] at hst
    cases hst
  · rw [newElfProcess_thr hsh cur n ht] at hw hst ⊢
    rw [newElfProcess_proc hsh cur n (hsh.process_mem t ht)] at hw ⊢
    obtain ⟨hmem, hf⟩ := h t ht hi hw hst
    exact ⟨List.mem_cons_of_mem _ hmem, (newElfProcess_finished hsh cur n hmem).trans hf⟩

theorem Awaits.waitFor (h : Awaits s) (hcore : Core b s) (hr : CurrentRunnable s)
    (hc : s.caller = some cur) {pid : ℕ} (hpid : pid ∈ s.processList)
    (hf : s.finished pid = false) : Awaits (s.waitFor cur pid) := by
  have hcalls := calls_of_caller hcore hc
  have hq := quiet_waitFor s cur pid
  unfold Awaits
  rw [hq.threadList, hq.processList]
  intro t ht hi hw hst
  rw [hq.process] at hw ⊢
  rcases eq_or_ne t cur with rfl | hne
  · have htgt : ((s.waitFor t pid).proc (s.thr t).process).waitTargetPid = pid := by
      simp [TaskList.waitFor]
    rw [htgt, waitFor_finished hcore hr hc pid hpid]
    exact ⟨hpid, hf⟩
  · have hp : (s.thr t).process ≠ (s.thr cur).process := fun heq =>
      hne (hcore.shape.process_inj ht hcalls.mem hi hcalls.ne_idle heq)
    have hproc : (s.waitFor cur pid).proc (s.thr t).process = s.proc (s.thr t).process := by
      rw [TaskList.waitFor, modThread_proc, modProc_of_ne s _ hp]
    rw [hproc] at hw ⊢
    rw [TaskList.waitFor, modThread_of_ne _ _ hne, modProc_thr] at hst
    obtain ⟨hmem, hf'⟩ := h t ht hi hw hst
    exact ⟨hmem, (waitFor_finished hcore hr hc pid hmem).trans hf'⟩

/-- An exit that is heard leaves nobody waiting for it. -/
theorem Awaits.sysExit (h : Awaits s) (hcore : Core b s) (hr : CurrentRunnable s)
    (hc : s.userCaller = some cur) {code : ℤ} {y : Yield} (hheard : Heard (.exit code y) s) :
    Awaits (s.sysExit cur code) := by
  have hq := quiet_sysExit s cur code
  unfold Awaits
  rw [hq.threadList, hq.processList]
  intro t ht hi hw hst
  rw [hq.process] at hw ⊢
  obtain ⟨-, htgt, hwait⟩ := sysExit_proc hcore hc code (s.thr t).process
  obtain ⟨hw0, hnot⟩ := hwait.1 hw
  have hst0 : (s.thr t).state = .waiting := by
    rw [sysExit_state hcore hr hc code ht hi] at hst
    split_ifs at hst
    exact hst
  obtain ⟨hmem, hf⟩ := h t ht hi hw0 hst0
  rw [htgt]
  refine ⟨hmem, Bool.eq_false_iff.2 fun hf' => ?_⟩
  rcases (sysExit_finished hcore hr hc code hmem).1 hf' with hf' | hme
  · rw [hf] at hf'
    cases hf'
  · exact hnot ⟨hheard code y cur rfl hc _ (hcore.shape.process_mem t ht) t
      (hcore.shape.primary t ht hi) hw0 hst0 hme, hme⟩

/-- **A step whose exit is heard keeps everyone waiting for the living.** -/
theorem Awaits.step {e : Event} (h : Awaits s) (hg : Good b s) (hheard : Heard e s)
    (he : TaskList.step e s = some s') : Awaits s' := by
  have heffect : ∀ {s1 y}, prepare e s = some (s1, y) → Awaits s1 := by
    intro s1 y hp
    rcases (effect_of_prepare hp).kinds hg.core hg.current with ⟨-, hs⟩ | ⟨cur, n, hc, rfl, rfl⟩ |
      ⟨cur, code, y', hc, rfl, rfl⟩ | ⟨cur, pid, y', hc, rfl, hpid, hf, rfl⟩
    · exact h.steady hs hg.core.shape
    · exact h.newElfProcess hg.core.shape cur n
    · exact h.sysExit hg.core hg.current hc hheard
    · exact h.waitFor hg.core hg.current hc hpid hf
  rcases (hg.step_cases he).2 with hp | ⟨s1, y, ret, c, n, hp, hcore, -, hs⟩
  · exact heffect hp
  · exact (heffect hp).steady hs.steady hcore.shape

/-- **A step whose exit is not heard loses it.** -/
theorem lostExit_of_not_heard {e : Event} (hg : Good b s) (hnot : ¬Heard e s)
    (he : step e s = some s') : LostExit s' := by
  simp only [Heard, not_forall] at hnot
  obtain ⟨code, y, cur, rfl, hc, p, hp, t, hprim, hw, hst, htgt, hpar⟩ := hnot
  obtain ⟨u, hu, hi, rfl⟩ := hg.core.shape.owner p hp
  obtain rfl := Option.some.inj ((hg.core.shape.primary u hu hi).symm.trans hprim)
  obtain ⟨hcalls, -⟩ := calls_of_userCaller hg.core hc
  have hme := hg.core.shape.process_mem cur hcalls.mem
  have hne : u ≠ cur := by
    rintro rfl
    rcases hg.current u hcalls.current with hr | hr <;> rw [hst] at hr <;> cases hr
  have hprep : prepare (.exit code y) s = some (s.sysExit cur code, some y) := by
    simp [prepare, hc]
  obtain ⟨s1, y', ret, c, n, hp', hcore, -, hs⟩ : ∃ s1 y' ret c n,
      prepare (.exit code y) s = some (s1, some y') ∧ Core b s1 ∧
        s1.currentThread = some c ∧ Scheduled s1 y'.rsp ret s' c n := by
    rcases (hg.step_cases he).2 with hp' | hp'
    · rw [hprep] at hp'
      cases hp'
    · exact hp'
  obtain ⟨rfl, -⟩ := Prod.mk.inj (Option.mem_unique hprep hp')
  have hq := quiet_sysExit s cur code
  obtain ⟨-, htgt1, hwait⟩ := sysExit_proc hg.core hc code (s.thr u).process
  have hst1 : ((s.sysExit cur code).thr u).state = .waiting := by
    rw [sysExit_state hg.core hg.current hc code hu hi, if_neg hne, if_neg (fun hp => hpar hp.1)]
    exact hst
  refine ⟨(s.thr u).process, ?_, u, ?_, ?_, ?_, ?_⟩
  · rw [hs.shape.processList, hq.processList]
    exact hp
  · rw [hs.shape.primary, hq.primary]
    exact hprim
  · rw [hs.proc]
    exact hwait.2 ⟨hw, fun hp => hpar hp.1⟩
  · rcases hs.state u with heq | ⟨hr, -⟩
    · exact heq.trans hst1
    · rcases hr with hr | hr <;> rw [hst1] at hr <;> cases hr
  · rw [hs.proc, htgt1, htgt, hs.steady.finished hcore.shape (hq.processList ▸ hme)]
    exact (sysExit_finished hg.core hg.current hc code hme).2 (.inr rfl)

/-- **No exit is lost in a run exactly if every exit in it is heard.** -/
theorem no_lostExit_iff_heard {b : Boot} {es : List Event} {s : TaskList}
    (h : Run step (initMultitasking b) es s) :
    (∀ es1 es2 t, es = es1 ++ es2 → Run step (initMultitasking b) es1 t → ¬LostExit t) ↔
      ∀ es1 e es2 t, es = es1 ++ e :: es2 → Run step (initMultitasking b) es1 t → Heard e t := by
  constructor
  · rintro hno es1 e es2 t rfl ht
    obtain ⟨t', he, -⟩ := h.enabled ht
    by_contra hnot
    exact hno (es1 ++ [e]) es2 t' (by simp) (ht.snoc e he)
      (lostExit_of_not_heard (good_of_run ht) hnot he)
  · rintro hheard es1 es2 t rfl ht
    have hI : Good b t ∧ Awaits t := by
      refine ht.invariant_of_forall (I := fun s => Good b s ∧ Awaits s) (C := Heard)
        (fun e s s' hC hi he => ⟨(hi.1.step_cases he).1, hi.2.step hi.1 hC he⟩) ⟨good_init b, ?_⟩
        fun es3 e es4 t' heq hrun => ?_
      · intro t _ _ hw
        cases hw
      · exact hheard es3 e (es4 ++ es2) t' (by rw [heq]; simp) hrun
    exact hI.2.not_lostExit hI.1.core.shape

/-- Two processes are made, and the first waits for its sibling, which exits. -/
def siblings : List Event :=
  [.spawn (some firstProc), .spawn (some ⟨0x6000, 0xc000, "", 0⟩),
    .waitpid 1 ⟨0x8f00, 0, zero_src_ne⟩, .yield ⟨0xbf00, 0, zero_src_ne⟩,
    .waitpid 2 ⟨0xaf00, 0, zero_src_ne⟩, .exit 5 ⟨0xbf00, 0, zero_src_ne⟩]

/-- The sibling's exit wakes nobody: its parent is the main process. -/
theorem lostExit_siblings : ∃ s, Run step (initMultitasking zeroBoot) siblings s ∧ LostExit s := by
  have hrun : Run step (initMultitasking zeroBoot) siblings _ := .of_exec rfl
  exact ⟨_, hrun, 1, by decide, 2, rfl, rfl, rfl, rfl⟩

/-- So some exit of that run is not heard. -/
theorem siblings_not_heard : ¬∀ es1 e es2 t, siblings = es1 ++ e :: es2 →
      Run step (initMultitasking zeroBoot) es1 t → Heard e t := by
  have hrun : Run step (initMultitasking zeroBoot) siblings _ := .of_exec rfl
  intro hheard
  refine (no_lostExit_iff_heard hrun).2 hheard siblings [] _ (by simp) hrun ?_
  exact ⟨1, by decide, 2, rfl, rfl, rfl, rfl⟩

end Hvos.Sched.TaskList
