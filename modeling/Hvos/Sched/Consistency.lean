import Hvos.Lib.Least
import Hvos.Sched.Kinds

/-!
# Sched/Consistency — after every return of `schedule` the machine agrees with the task list

`schedule_spec` says everything `schedule` does from a state that satisfies `Core`: it always finds
a thread (the idle thread is `READY` whenever it is not current, so the fallback branches are dead
code), and it hands the CPU over completely.  `Core.step` then makes `Core` an invariant of all
runs.
-/

namespace Hvos.Sched.TaskList

open Least Function

variable {b : Boot} {s s' : TaskList}

/-! ## What `get_lowest_runtime` finds -/

/-- The loop of `get_lowest_runtime` keeps a running minimum. -/
theorem lowerRuntime_eq (s : TaskList) :
    s.lowerRuntime = pick (fun t => (s.thr t).state = .ready) fun t => (s.thr t).vruntime.toNat := by
  funext next t
  unfold lowerRuntime pick
  simp only [UInt64.lt_iff_toNat_lt]
  cases next with
  | none => rfl
  | some n => rfl

variable {n t c : ℕ}

theorem getLowestRuntime_firstLeast (h : s.getLowestRuntime = some n) :
    FirstLeast (fun t => (s.thr t).state = .ready) (fun t => (s.thr t).vruntime.toNat)
      s.threadList n := by
  unfold getLowestRuntime at h
  rw [lowerRuntime_eq] at h
  exact firstLeast_of_foldl h

/-- The thread `get_lowest_runtime` returns is listed and `READY`. -/
theorem getLowestRuntime_ready (h : s.getLowestRuntime = some n) :
    n ∈ s.threadList ∧ (s.thr n).state = .ready :=
  ⟨(getLowestRuntime_firstLeast h).mem, (getLowestRuntime_firstLeast h).holds⟩

/-- It returns nothing only if no listed thread is `READY`. -/
theorem not_ready_of_getLowestRuntime (h : s.getLowestRuntime = none) (ht : t ∈ s.threadList) :
    (s.thr t).state ≠ .ready := by
  unfold getLowestRuntime at h
  rw [lowerRuntime_eq, foldl_pick_eq_none] at h
  exact h t ht

/-! ## What `schedule` does -/

/-- **A return of `schedule`**: the caller `c` entered it with `rsp`, and `n` holds the CPU. -/
structure Scheduled (s : TaskList) (rsp ret : UInt64) (s' : TaskList) (c n : ℕ) : Prop where
  shape : SameShape s s'
  proc : s'.proc = s.proc
  queue : s'.sleepingQueue = s.sleepingQueue
  mem : n ∈ s.threadList
  current : s'.currentThread = some n
  registers : s'.tssRsp0 = (s.thr n).kernelStackBase ∧
    s'.stackTop = (s.thr n).kernelStackBase ∧ s'.cr3 = (s.proc (s.thr n).process).cr3
  /-- Whoever holds the CPU could have. -/
  chosen : Runnable (s.thr n).state
  running : (s'.thr n).state = .running
  state : ∀ t, (s'.thr t).state = (s.thr t).state ∨
    Runnable (s.thr t).state ∧ Runnable (s'.thr t).state
  only : ∀ t ∈ s.threadList, (s'.thr t).state = .running → t = n
  view : ∀ t, s'.view t = { s.view t with state := (s'.thr t).state }
  saved : (s'.thr c).kRsp = rsp
  kRsp : ∀ t, t ≠ c → (s'.thr t).kRsp = (s.thr t).kRsp
  returned : ret = (s'.thr n).kRsp

/-- Staying: the caller is the thread of least runtime, or the idle thread with nothing to run. -/
theorem scheduled_stay (h : Core b s) (hc : s.currentThread = some c) (hmem : c ∈ s.threadList)
    (hr : Runnable (s.thr c).state) (rsp : UInt64) : Scheduled s rsp rsp
      (s.modThread c fun th => { th with kRsp := rsp, state := .running }) c c where
  shape := .modThread s c fun _ => by simp
  proc := rfl
  queue := rfl
  mem := hmem
  current := hc
  registers := h.registers c hc
  chosen := hr
  running := by simp
  state t := by
    rcases eq_or_ne t c with rfl | hne
    · exact .inr ⟨hr, .inl (by simp)⟩
    · exact .inl (by rw [modThread_of_ne s _ hne])
  only t ht hrun := by
    by_contra hne
    rw [modThread_of_ne s _ hne] at hrun
    exact hne (Option.some.inj ((h.running t ht hrun).symm.trans hc))
  view t := by
    rcases eq_or_ne t c with rfl | hne
    · simp [TaskList.view]
    · rw [view_modThread_of_ne _ hne, modThread_of_ne s _ hne]
      rfl
  saved := by simp
  kRsp t hne := by rw [modThread_of_ne s _ hne]
  returned := by simp

/-- The thread fields after a switch from `c` to `n`. -/
theorem switchTo_thr (s : TaskList) (hcn : c ≠ n) (t : ℕ) : (s.switchTo c n).2.thr t =
      { s.thr t with
        state := if t = n then .running
          else if t = c ∧ (s.thr c).state = .running then .ready else (s.thr t).state } := by
  have hthr : (s.switchTo c n).2.thr =
      ((if (s.thr c).state = .running then s.setState c .ready else s).setState n .running).thr := by
    simp only [switchTo, if_neg hcn]
    split_ifs <;> rfl
  rw [hthr]
  by_cases hrun : (s.thr c).state = .running
  · rw [if_pos hrun]
    rcases eq_or_ne t n with rfl | htn
    · simp [setState, modThread_of_ne s _ hcn.symm]
    · rw [setState, modThread_of_ne _ _ htn]
      rcases eq_or_ne t c with rfl | htc
      · simp [setState, htn, hrun]
      · simp [setState, modThread_of_ne s _ htc, htn, htc]
  · rw [if_neg hrun]
    rcases eq_or_ne t n with rfl | htn
    · simp [setState]
    · simp [setState, modThread_of_ne s _ htn, htn, hrun]

/-- What else a switch writes. -/
theorem switchTo_rest (s : TaskList) (hcn : c ≠ n) :
    let s' := (s.switchTo c n).2
    s'.proc = s.proc ∧ s'.sleepingQueue = s.sleepingQueue ∧ s'.currentThread = some n ∧
      s'.threadList = s.threadList ∧ s'.processList = s.processList ∧ s'.nextTid = s.nextTid ∧
      s'.nextPid = s.nextPid := by
  simp only [switchTo, if_neg hcn]
  split_ifs <;> exact ⟨rfl, rfl, rfl, rfl, rfl, rfl, rfl⟩

/-- The registers a switch loads: `CR3` is written only if it differs, which comes to the same. -/
theorem switchTo_registers (s : TaskList) (hcn : c ≠ n)
    (hcr3 : s.cr3 = (s.proc (s.thr c).process).cr3) :
    let s' := (s.switchTo c n).2
    s'.tssRsp0 = (s.thr n).kernelStackBase ∧ s'.stackTop = (s.thr n).kernelStackBase ∧
      s'.cr3 = (s.proc (s.thr n).process).cr3 ∧ (s.switchTo c n).1 = (s.thr n).kRsp := by
  set s2 := (if (s.thr c).state = .running then s.setState c .ready else s).setState n .running
    with hs2
  have hsame : SameShape s s2 := by
    rw [hs2]
    split_ifs
    · exact .trans (.modThread s c fun _ => by simp) (.modThread _ n fun _ => by simp)
    · exact .modThread s n fun _ => by simp
  have hrsp : (s2.thr n).kRsp = (s.thr n).kRsp := by
    rw [hs2]
    split_ifs <;> simp [setState, modThread_of_ne s _ hcn.symm]
  have hold : s2.cr3 = s.cr3 := by
    rw [hs2]
    split_ifs <;> rfl
  have hbase := hsame.base n
  have hcur : (s2.proc (s2.thr c).process).cr3 = (s.proc (s.thr c).process).cr3 := by
    rw [hsame.process, hsame.cr3]
  have hnext : (s2.proc (s2.thr n).process).cr3 = (s.proc (s.thr n).process).cr3 := by
    rw [hsame.process, hsame.cr3]
  let s3 : TaskList :=
    { s2 with
      currentThread := some n
      tssRsp0 := (s2.thr n).kernelStackBase
      stackTop := (s2.thr n).kernelStackBase }
  have hsw : s.switchTo c n = ((s2.thr n).kRsp,
      if (s2.proc (s2.thr c).process).cr3 ≠ (s2.proc (s2.thr n).process).cr3 then
        { s3 with cr3 := (s2.proc (s2.thr n).process).cr3 } else s3) := by
    rw [switchTo, if_neg hcn]
  rw [hsw]
  by_cases hne : (s2.proc (s2.thr c).process).cr3 = (s2.proc (s2.thr n).process).cr3
  · rw [if_neg (not_not.2 hne)]
    rw [hcur, hnext] at hne
    exact ⟨hbase, hbase, (hold.trans hcr3).trans hne, hrsp⟩
  · rw [if_pos hne]
    exact ⟨hbase, hbase, hnext, hrsp⟩

/-- Switching: `READY` thread `n` takes over. -/
theorem scheduled_switch (h : Core b s) (hc : s.currentThread = some c) (hcn : c ≠ n)
    (hmem : n ∈ s.threadList) (hr : (s.thr n).state = .ready) (rsp : UInt64) :
    Scheduled s rsp ((s.modThread c fun th => { th with kRsp := rsp }).switchTo c n).1
      ((s.modThread c fun th => { th with kRsp := rsp }).switchTo c n).2 c n := by
  set s0 := s.modThread c fun th => { th with kRsp := rsp } with hs0
  have h0 : SameShape s s0 := .modThread s c fun _ => by simp
  have hother : ∀ t, t ≠ c → s0.thr t = s.thr t := fun t ht => modThread_of_ne s _ ht
  have hstate0 : ∀ t, (s0.thr t).state = (s.thr t).state := by
    intro t
    rcases eq_or_ne t c with rfl | ht
    · simp [hs0]
    · rw [hother t ht]
  have hview0 : ∀ t, s0.view t = s.view t := by
    intro t
    rcases eq_or_ne t c with rfl | ht
    · simp [view, hs0]
    · exact view_modThread_of_ne _ ht
  have hthr := switchTo_thr s0 hcn
  obtain ⟨hproc, hqueue, hcur, htl, hpl, hnt, hnp⟩ := switchTo_rest s0 hcn
  obtain ⟨htss, hstack, hcr3, hret⟩ := switchTo_registers s0 hcn
    (by rw [h0.process, h0.cr3]; exact (h.registers c hc).2.2)
  set s' := (s0.switchTo c n).2
  have hstate : ∀ t, (s'.thr t).state = if t = n then .running
      else if t = c ∧ (s.thr c).state = .running then .ready else (s.thr t).state := by
    intro t
    rw [hthr, hstate0, hstate0]
  have hrun : (s'.thr n).state = .running := by rw [hstate, if_pos rfl]
  refine
    { shape := h0.trans ⟨htl, hpl, hnt, hnp, fun t => by rw [hthr], fun t => by rw [hthr],
        fun t => by rw [hthr], fun p => by rw [hproc], fun p => by rw [hproc],
        fun p => by rw [hproc]⟩
      proc := hproc
      queue := hqueue
      mem := hmem
      current := hcur
      registers := ?_
      chosen := .inr hr
      running := hrun
      state := fun t => ?_
      only := fun t ht ht' => ?_
      view := fun t => ?_
      saved := ?_
      kRsp := fun t ht => ?_
      returned := ?_ }
  · rw [htss, hstack, hcr3, h0.base, h0.process, h0.cr3]
    exact ⟨rfl, rfl, rfl⟩
  · rw [hstate]
    split_ifs with htn htc
    · exact .inr ⟨.inr (htn ▸ hr), .inl rfl⟩
    · exact .inr ⟨.inl (htc.1 ▸ htc.2), .inr rfl⟩
    · exact .inl rfl
  · rw [hstate] at ht'
    split_ifs at ht' with htn htc
    · exact htn
    · have htc' := Option.some.inj ((h.running t ht ht').symm.trans hc)
      exact absurd ⟨htc', htc' ▸ ht'⟩ htc
  · have hv : s'.view t = { s0.view t with state := (s'.thr t).state } := by
      simp only [view, hthr, hproc, hqueue]
    rw [hv, hview0]
  · rw [hthr, hs0]
    simp
  · rw [hthr, hother t ht]
  · rw [hret, hthr]

/-- **`schedule` from a state of the invariant**: it always finds a thread, and hands the CPU over
completely. -/
theorem schedule_spec (h : Core b s) (rsp : UInt64) {src : UInt64} (hsrc : src ≠ 1) :
    ∃ c n ret s', s.currentThread = some c ∧ s.schedule rsp src = some (ret, s') ∧
      Scheduled s rsp ret s' c n := by
  obtain ⟨c, hmem, hc⟩ := h.current
  set s0 := s.modThread c fun th => { th with kRsp := rsp } with hs0
  have hstate0 : ∀ t, (s0.thr t).state = (s.thr t).state := by
    intro t
    rcases eq_or_ne t c with rfl | ht
    · simp [hs0]
    · rw [hs0, modThread_of_ne s _ ht]
  have hname : (s0.thr c).name = (s.thr c).name := by rw [hs0, modThread_self]
  cases hnext : s0.getNextThread with
  | some n =>
    obtain ⟨hn, hready⟩ := getLowestRuntime_ready hnext
    have hsched : s.schedule rsp src = some (s0.switchTo c n) := by
      simp only [schedule, if_neg hsrc, hc]
      rw [← hs0, hnext]
    rcases eq_or_ne c n with rfl | hcn
    · refine ⟨c, c, rsp, _, hc, ?_, scheduled_stay h hc hmem (.inr (hstate0 c ▸ hready)) rsp⟩
      rw [hsched]
      simp [switchTo, hs0, setState, modThread]
    · exact ⟨c, n, _, _, hc, hsched, scheduled_switch h hc hcn hn (hstate0 n ▸ hready) rsp⟩
  | none =>
    -- The idle thread is not `READY`, so it is `RUNNING`, so it is the caller.
    have hidle : (s.thr idleTid).state = .running := by
      rcases h.idle_runnable with hr | hr
      · exact hr
      · exact absurd ((hstate0 _).trans hr)
          (not_ready_of_getLowestRuntime hnext h.shape.idle_mem)
    obtain rfl : idleTid = c :=
      Option.some.inj ((h.running _ h.shape.idle_mem hidle).symm.trans hc)
    have hstay := scheduled_stay h hc hmem (.inl hidle) rsp
    have hsame : (s.modThread idleTid fun th => { th with kRsp := rsp, state := .running }) =
        s0 := by
      have : ({ s.thr idleTid with kRsp := rsp, state := .running } : Thread) =
          { s.thr idleTid with kRsp := rsp } := by rw [← hidle]
      simp only [hs0, modThread, this]
    refine ⟨idleTid, idleTid, rsp, s0, hc, ?_, hsame ▸ hstay⟩
    simp only [schedule, if_neg hsrc, hc]
    rw [← hs0, hnext]
    simp [hname, h.shape.idle_name]

/-- **`schedule` is steady.** -/
theorem Scheduled.steady {rsp ret : UInt64} (hs : Scheduled s rsp ret s' c n) : Steady s s' := by
  refine ⟨hs.shape, hs.proc, fun t _ => ?_, fun t _ k hk => ?_, fun t _ _ _ hst => ?_⟩
  · rcases hs.state t with heq | ⟨hr, hr'⟩
    · rw [heq]
    · constructor <;> intro hd
      · rcases hr' with hr' | hr' <;> rw [hd] at hr' <;> cases hr'
      · rcases hr with hr | hr <;> rw [hd] at hr <;> cases hr
  · exact (congrArg View.cont (hs.view t)).symm.trans hk
  · rcases hs.state t with heq | ⟨-, hr'⟩
    · exact heq.symm.trans hst
    · rcases hr' with hr' | hr' <;> rw [hst] at hr' <;> cases hr'

/-- **`schedule` keeps the invariant**, and leaves a runnable thread current. -/
theorem Scheduled.core {rsp ret : UInt64} (hs : Scheduled s rsp ret s' c n) (h : Core b s) :
    Core b s' ∧ CurrentRunnable s' := by
  have hrunnable : ∀ t, Runnable (s.thr t).state → Runnable (s'.thr t).state := by
    intro t ht
    rcases hs.state t with heq | ⟨-, hr⟩
    · exact heq ▸ ht
    · exact hr
  refine ⟨⟨hs.shape.shape h.shape, ?_, ?_, hrunnable _ h.idle_runnable, ?_, ?_, ?_, ?_, ?_, ?_⟩, ?_⟩
  · exact ⟨n, hs.shape.threadList ▸ hs.mem, hs.current⟩
  · rw [hs.shape.threadList]
    intro t ht hr
    rw [hs.only t ht hr]
    exact hs.current
  · exact (congrArg View.cont (hs.view idleTid)).trans h.idle_cont
  · rcases hs.state mainTid with heq | ⟨-, hr⟩
    · exact heq ▸ h.main_alive
    · rcases hr with hr | hr <;> simp [hr]
  · have hcont := congrArg View.cont (hs.view mainTid)
    exact ⟨fun hk => h.main_cont.1 (hcont.symm.trans hk),
      fun hk => h.main_cont.2 (hcont.symm.trans hk)⟩
  · intro c' hc'
    obtain rfl : n = c' := Option.mem_unique hs.current hc'
    rw [hs.shape.base, hs.shape.process, hs.shape.cr3]
    exact hs.registers
  · rw [hs.queue, hs.shape.threadList]
    exact h.napping
  · rw [hs.shape.threadList]
    intro t ht hi hmain
    rw [hs.view t]
    exact (h.tame t ht hi hmain).congr_state (hs.state t)
  · intro c' hc'
    obtain rfl : n = c' := Option.mem_unique hs.current hc'
    exact .inl hs.running

/-! ## Runs -/

/-- The invariant between two events. -/
structure Good (b : Boot) (s : TaskList) : Prop where
  core : Core b s
  current : CurrentRunnable s

theorem good_init (b : Boot) : Good b (initMultitasking b) := by
  have hmem : ∀ {t}, t ∈ (initMultitasking b).threadList ↔ t = idleTid ∨ t = mainTid := by
    simp [initMultitasking]
  refine ⟨⟨⟨?_, ?_, ?_, ?_, ?_, rfl, rfl, rfl, ?_, ?_, ?_, ?_⟩, ?_, ?_, .inr rfl, rfl, ?_, ?_, ?_,
    ?_, ?_⟩, ?_⟩
  · simp [initMultitasking, idleTid, mainTid]
  · intro t ht
    rcases hmem.1 ht with rfl | rfl <;> simp [initMultitasking, idleTid, mainTid]
  · simp [initMultitasking, kernelPid]
  · exact hmem.2 (.inl rfl)
  · exact hmem.2 (.inr rfl)
  · intro t ht
    rcases hmem.1 ht with rfl | rfl <;> exact List.mem_cons_self
  · intro t ht hi
    rcases hmem.1 ht with rfl | rfl
    · exact absurd rfl hi
    · rfl
  · intro p hp
    exact ⟨mainTid, hmem.2 (.inr rfl), by decide, (List.mem_singleton.1 hp).symm⟩
  · intro p _ q hq
    cases hq
  · exact ⟨mainTid, hmem.2 (.inr rfl), rfl⟩
  · intro t ht hr
    rcases hmem.1 ht with rfl | rfl
    · cases hr
    · rfl
  · intro hd
    cases hd
  · constructor <;> intro hk <;> cases hk
  · intro c hc
    cases hc
    exact ⟨rfl, rfl, rfl⟩
  · intro e he
    cases he
  · intro t ht hi hmain
    rcases hmem.1 ht with rfl | rfl
    · exact absurd rfl hi
    · exact .mk_runnable (.inl rfl) (hmain rfl) rfl rfl
  · intro c hc
    cases hc
    exact .inl rfl

variable {e : Event}

/-- A step ends where its event does, or with the return of the `schedule` it enters. -/
theorem step_cases (h : step e s = some s') : prepare e s = some (s', none) ∨
      ∃ s1 y ret, prepare e s = some (s1, some y) ∧
        s1.schedule y.rsp y.src = some (ret, s') := by
  unfold step at h
  split at h
  · cases h
  · next s1 hp =>
    cases h
    exact .inl hp
  · next s1 y hp =>
    obtain ⟨⟨ret, s2⟩, hs, rfl⟩ := Option.map_eq_some_iff.1 h
    exact .inr ⟨s1, y, ret, hp, hs⟩

/-- **Every step keeps the invariant**, and what a `schedule` in it does is `Scheduled`. -/
theorem Good.step_cases (h : Good b s) (he : step e s = some s') : Good b s' ∧
      (prepare e s = some (s', none) ∨
        ∃ s1 y ret c n, prepare e s = some (s1, some y) ∧ Core b s1 ∧
          s1.currentThread = some c ∧ Scheduled s1 y.rsp ret s' c n) := by
  rcases TaskList.step_cases he with hp | ⟨s1, y, ret, hp, hs⟩
  · obtain ⟨hcore, hr⟩ := (effect_of_prepare hp).core h.core h.current
    exact ⟨⟨hcore, hr rfl⟩, .inl hp⟩
  · obtain ⟨hcore, -⟩ := (effect_of_prepare hp).core h.core h.current
    obtain ⟨c, n, ret', s'', hc, hs', hspec⟩ := schedule_spec hcore y.rsp y.src_ne
    obtain ⟨rfl, rfl⟩ := Prod.mk.inj (Option.mem_unique hs hs')
    obtain ⟨hcore', hr'⟩ := hspec.core hcore
    exact ⟨⟨hcore', hr'⟩, .inr ⟨s1, y, ret, c, n, hp, hcore, hc, hspec⟩⟩

/-- **Every run from `init_multitasking` keeps the invariant.** -/
theorem good_of_run {es : List Event} (h : Run step (initMultitasking b) es s) : Good b s :=
  h.invariant (fun _ _ _ hg he => (hg.step_cases he).1) (good_init b)

/-! ## The dead stay dead -/

/-- A dead thread is neither of the kernel's two. -/
theorem Core.tame_of_dead (h : Core b s) (ht : t ∈ s.threadList) (hd : (s.thr t).state = .dead) :
    t ≠ idleTid ∧ t ≠ mainTid ∧ (s.view t).Tame := by
  have hi : t ≠ idleTid := by
    rintro rfl
    rcases h.idle_runnable with hr | hr <;> rw [hd] at hr <;> cases hr
  have hm : t ≠ mainTid := fun hm => h.main_alive (hm ▸ hd)
  exact ⟨hi, hm, h.tame t ht hi fun hm' => absurd hm' hm⟩

/-- **No event brings a dead thread back** before its `schedule`. -/
theorem Effect.dead {s1 : TaskList} {y : Option Yield} (he : Effect s e s1 y) (h : Good b s)
    (ht : t ∈ s.threadList) (hd : (s.thr t).state = .dead) :
    t ∈ s1.threadList ∧ (s1.thr t).state = .dead := by
  have hcur : ∀ {cur}, s.currentThread = some cur → t ≠ cur := by
    rintro cur hc rfl
    rcases h.current t hc with hr | hr <;> rw [hd] at hr <;> cases hr
  rcases he.kinds h.core h.current with ⟨-, hs⟩ | ⟨cur, n, hc, -, rfl⟩ |
    ⟨cur, code, y', hc, -, rfl⟩ | ⟨cur, pid, y', hc, -, -, -, rfl⟩
  · exact ⟨hs.shape.threadList ▸ ht, (hs.dead t ht).2 hd⟩
  · refine ⟨List.mem_cons_of_mem _ ht, ?_⟩
    rw [newElfProcess_thr h.core.shape cur n ht]
    exact hd
  · refine ⟨(quiet_sysExit s cur code).threadList ▸ ht, ?_⟩
    obtain ⟨hcalls, -⟩ := calls_of_userCaller h.core hc
    have hdie : ((s.die cur code).thr t).state = .dead := by
      rw [die_thr_of_ne s code (hcur hcalls.current)]
      exact hd
    rcases sysExit_cases h.core hcalls.mem code with ⟨heq, -⟩ | ⟨u, -, -, ⟨-, hw, -⟩, heq⟩
    · rw [heq]
      exact hdie
    · have hne : t ≠ u := by
        rintro rfl
        have hnot := ((h.core.tame_of_dead ht hd).2.2.of_dead hd).2.2.1
        exact Bool.noConfusion (hnot.symm.trans hw)
      rw [heq, wakeParent_thr_of_ne _ _ hne]
      exact hdie
  · refine ⟨ht, ?_⟩
    have hne := hcur (calls_of_caller h.core hc).current
    rw [waitFor, modThread_of_ne _ _ hne, modProc_thr]
    exact hd

/-- **A dead thread stays dead over every step.** -/
theorem Good.step_dead (h : Good b s) (he : TaskList.step e s = some s') (ht : t ∈ s.threadList)
    (hd : (s.thr t).state = .dead) : t ∈ s'.threadList ∧ (s'.thr t).state = .dead := by
  rcases (h.step_cases he).2 with hp | ⟨s1, y, ret, c, n, hp, -, -, hs⟩
  · exact (effect_of_prepare hp).dead h ht hd
  · obtain ⟨ht1, hd1⟩ := (effect_of_prepare hp).dead h ht hd
    exact ⟨hs.shape.threadList ▸ ht1, (hs.steady.dead t ht1).2 hd1⟩

/-! ## What the kernel should have saved -/

/-- The kernel with a ledger beside it: for each thread, the stack pointer it was last switched out
with, or the one it was made with. -/
structure Watched where
  tasks : TaskList
  saved : ℕ → UInt64

/-- The ledger's entry for an event that led from `s` to `s'`. -/
def record (e : Event) (s s' : TaskList) (saved : ℕ → UInt64) : ℕ → UInt64 :=
  match prepare e s with
  | some (s1, some y) =>
    match s1.currentThread with
    | some c => if s'.currentThread = some c then saved else update saved c y.rsp
    | none => saved
  | some (s1, none) =>
    if s.nextTid < s1.nextTid then
      update saved s.nextTid (s1.thr s.nextTid).kRsp
    else saved
  | none => saved

/-- One event, entered in the ledger. -/
def Watched.step (e : Event) (w : Watched) : Option Watched :=
  (TaskList.step e w.tasks).map fun s' => ⟨s', record e w.tasks s' w.saved⟩

/-- Boot, with the threads' initial stack pointers. -/
def Watched.init (b : Boot) : Watched :=
  ⟨initMultitasking b, fun t => ((initMultitasking b).thr t).kRsp⟩

/-- The ledger agrees with every thread that is not running. -/
def Watched.Agrees (w : Watched) : Prop :=
  ∀ t ∈ w.tasks.threadList, w.tasks.currentThread ≠ some t → (w.tasks.thr t).kRsp = w.saved t

/-- **The ledger stays right over every step.** -/
theorem Watched.Agrees.step {w w' : Watched} (hg : Good b w.tasks) (hw : w.Agrees)
    (he : w.step e = some w') : Good b w'.tasks ∧ w'.Agrees := by
  obtain ⟨s', hs', rfl⟩ := Option.map_eq_some_iff.1 he
  obtain ⟨hg', hcases⟩ := hg.step_cases hs'
  refine ⟨hg', ?_⟩
  rcases hcases with hp | ⟨s1, y, ret, c, n, hp, hcore, hc, hs⟩
  · have hrec : record e w.tasks s' w.saved = if w.tasks.nextTid < s'.nextTid then
        update w.saved w.tasks.nextTid (s'.thr w.tasks.nextTid).kRsp else w.saved := by
      simp only [record, hp]
    intro t ht hne
    simp only at ht hne
    simp only [hrec]
    rcases (effect_of_prepare hp).quiet with hq | ⟨cur, n, -, rfl, -⟩
    · rw [if_neg (by rw [hq.nextTid]; exact Nat.lt_irrefl _), hq.kRsp]
      exact hw t (hq.threadList ▸ ht) (hq.currentThread ▸ hne)
    · have hlt : w.tasks.nextTid < (w.tasks.newElfProcess cur n).nextTid := Nat.lt_succ_self _
      rw [if_pos hlt]
      rcases List.mem_cons.1 ht with rfl | ht
      · rw [update_self]
      · rw [update_of_ne (Nat.ne_of_lt (hg.core.shape.tid_lt t ht)),
          newElfProcess_thr hg.core.shape cur n ht]
        exact hw t ht hne
  · obtain hq | ⟨-, -, -, -, hy⟩ := (effect_of_prepare hp).quiet
    swap
    · cases hy
    have hrec : record e w.tasks s' w.saved =
        if s'.currentThread = some c then w.saved else update w.saved c y.rsp := by
      simp only [record, hp, hc]
    intro t ht hne
    simp only at ht hne
    simp only [hrec]
    rcases eq_or_ne t c with rfl | htc
    · rw [if_neg hne, update_self]
      exact hs.saved
    · have hold : (s'.thr t).kRsp = w.saved t := by
        rw [hs.kRsp t htc, hq.kRsp]
        refine hw t (hq.threadList ▸ hs.shape.threadList ▸ ht) fun hcur => htc ?_
        exact Option.some.inj (hcur.symm.trans (hq.currentThread.symm.trans hc))
      split_ifs
      · exact hold
      · rw [update_of_ne htc]
        exact hold

theorem Watched.good_of_run {es : List Event} {w : Watched}
    (h : Run Watched.step (Watched.init b) es w) : Good b w.tasks ∧ w.Agrees :=
  h.invariant (I := fun w => Good b w.tasks ∧ w.Agrees)
    (fun _ _ _ hi he => hi.2.step hi.1 he) ⟨good_init b, fun _ _ _ => rfl⟩

/-! ## Consistency -/

/-- **The machine agrees with the task list**: one thread runs, it is the current one, the CPU has
its stack and its address space, and every other thread's stack pointer is the one on the ledger. -/
structure Consistent (s : TaskList) (saved : ℕ → UInt64) : Prop where
  running : ∃ c ∈ s.threadList, s.currentThread = some c ∧
    ∀ t ∈ s.threadList, (s.thr t).state = .running ↔ t = c
  registers : ∀ c, s.currentThread = some c →
    s.tssRsp0 = (s.thr c).kernelStackBase ∧ s.stackTop = (s.thr c).kernelStackBase ∧
      s.cr3 = (s.proc (s.thr c).process).cr3
  saved : ∀ t ∈ s.threadList, s.currentThread ≠ some t → (s.thr t).kRsp = saved t

/-- **Every return of `schedule`, in every run.**  It finds a thread; the machine then agrees with
the task list; and a caller that had blocked or exited does not get its own stack pointer back.  In
any state of a run, a thread that is dead stays dead and is never current again. -/
theorem schedule_consistent {b : Boot} {es : List Event} {w : Watched}
    (h : Run Watched.step (Watched.init b) es w) :
    (∀ e s1 y, prepare e w.tasks = some (s1, some y) →
      ∃ ret s', s1.schedule y.rsp y.src = some (ret, s') ∧
        Consistent s' (record e w.tasks s' w.saved) ∧
        ∀ c, s1.currentThread = some c →
          (s1.thr c).state ∈ [TaskState.dead, .waiting, .sleeping] →
          ∃ n, n ≠ c ∧ s'.currentThread = some n ∧ ret = (s1.thr n).kRsp) ∧
    ∀ t ∈ w.tasks.threadList, (w.tasks.thr t).state = .dead →
      ∀ es' w', Run Watched.step w es' w' →
        (w'.tasks.thr t).state = .dead ∧ w'.tasks.currentThread ≠ some t := by
  obtain ⟨hg, hagree⟩ := Watched.good_of_run h
  constructor
  · intro e s1 y hp
    have hcore := ((effect_of_prepare hp).core hg.core hg.current).1
    obtain ⟨c, n, ret, s', hc, hs, hspec⟩ := schedule_spec hcore y.rsp y.src_ne
    have hstep : w.step e = some ⟨s', record e w.tasks s' w.saved⟩ := by
      simp only [Watched.step, TaskList.step, hp, hs, Option.map_some]
    obtain ⟨hg', hagree'⟩ := hagree.step hg hstep
    refine ⟨ret, s', hs, ⟨?_, hg'.core.registers, hagree'⟩, ?_⟩
    · refine ⟨n, hspec.shape.threadList ▸ hspec.mem, hspec.current, fun t ht => ?_⟩
      refine ⟨hspec.only t (hspec.shape.threadList ▸ ht), ?_⟩
      rintro rfl
      exact hspec.running
    · intro c' hc' hst
      obtain rfl : c = c' := Option.mem_unique hc hc'
      have hne : n ≠ c := by
        rintro rfl
        rcases hspec.chosen with hr | hr <;> simp [hr] at hst
      exact ⟨n, hne, hspec.current, by rw [hspec.returned, hspec.kRsp n hne]⟩
  · intro t ht hd es' w' hrun
    have hI := hrun.invariant
      (I := fun w => Good b w.tasks ∧ t ∈ w.tasks.threadList ∧ (w.tasks.thr t).state = .dead)
      (fun e v v' hi he => by
        obtain ⟨s', hs', rfl⟩ := Option.map_eq_some_iff.1 he
        exact ⟨(hi.1.step_cases hs').1, hi.1.step_dead hs' hi.2.1 hi.2.2⟩)
      ⟨hg, ht, hd⟩
    refine ⟨hI.2.2, fun hcur => ?_⟩
    rcases hI.1.current t hcur with hr | hr <;> rw [hI.2.2] at hr <;> cases hr

/-- A boot that found a zeroed heap. -/
def zeroBoot : Boot := ⟨0x9000, 0xa000, 0x1000, 0, .null, 0, 0⟩

/-- A first user process. -/
def firstProc : NewProc := ⟨0x5000, 0xb000, "", 0⟩

/-- A first process is made, scheduled and exits. -/
theorem schedule_consistent_firstExit : ∃ w, Run Watched.step (Watched.init zeroBoot)
        [.spawn (some firstProc), .yield ⟨0x8f00, 0, by decide⟩,
          .exit 0 ⟨0xaf00, 0, by decide⟩] w ∧
      2 ∈ w.tasks.threadList ∧ (w.tasks.thr 2).state = .dead ∧
      ∀ es' w', Run Watched.step w es' w' →
        (w'.tasks.thr 2).state = .dead ∧ w'.tasks.currentThread ≠ some 2 := by
  have hrun : Run Watched.step (Watched.init zeroBoot)
      [.spawn (some firstProc), .yield ⟨0x8f00, 0, by decide⟩,
        .exit 0 ⟨0xaf00, 0, by decide⟩] _ := .of_exec rfl
  exact ⟨_, hrun, List.mem_cons_self, rfl,
    (schedule_consistent hrun).2 2 List.mem_cons_self rfl⟩

end Hvos.Sched.TaskList
