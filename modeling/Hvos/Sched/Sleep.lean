import Hvos.Sched.Events
import Mathlib.Data.List.Induction

/-!
# Sched/Sleep — when `kusleep` wakes its caller

`kusleep` pushes its entry at the head of the sleeping queue and `update_sleeping_queue` only looks
at the head, so the queue is a stack of countdowns.  Its `work`, the ticks until it is empty, goes
down by one with every tick and up by `delta + 1` with every push; the time each sleeper is woken
follows by accounting.
-/

namespace Hvos.Sched

open TaskList

/-! ## Calls and ticks -/

/-- A call of `kusleep` by a thread, or a timer tick. -/
inductive SleepEvent
  | kusleep (tid : ℕ) (ms : UInt64)
  | tick
  deriving DecidableEq

/-- One event. -/
def TaskList.sleepStep (s : TaskList) : SleepEvent → TaskList
  | .kusleep t ms => s.kusleep t ms
  | .tick => s.updateSleepingQueue

/-- A sequence of them. -/
def TaskList.sleepRun (s : TaskList) (σ : List SleepEvent) : TaskList := σ.foldl sleepStep s

/-- The number of ticks. -/
def ticks (σ : List SleepEvent) : ℕ := σ.count .tick

/-- The threads that call `kusleep`, in order. -/
def sleepers (σ : List SleepEvent) : List ℕ :=
  σ.filterMap fun
    | .kusleep t _ => some t
    | .tick => none

/-- **Every sleeper is woken in time**: let `t` call `kusleep(ms)`, and let `ρ` be what happens
then.  Up to its `ms`-th tick `t` is not ready; and if `ρ` is all of its sleep, the tick that ends
it is not later than `ms + 1 + k`, for the `k` entries that it found or that came during `ρ`. -/
def Timely (s : TaskList) (σ : List SleepEvent) : Prop :=
  ∀ σ1 t ms ρ rest, σ = σ1 ++ .kusleep t ms :: (ρ ++ rest) →
    (ticks ρ ≤ ms.toNat → ((s.sleepRun (σ1 ++ .kusleep t ms :: ρ)).thr t).state ≠ .ready) ∧
    (((s.sleepRun (σ1 ++ .kusleep t ms :: ρ)).thr t).state ≠ .ready →
      (∀ e rest', rest = e :: rest' →
        ((s.sleepRun (σ1 ++ .kusleep t ms :: (ρ ++ [e]))).thr t).state = .ready) →
      ticks ρ + 1 ≤ ms.toNat + 1 + ((s.sleepRun σ1).sleepingQueue.length + (sleepers ρ).length))

/-- **Sleeps do not overlap**: every call finds the queue empty, or asks for no time at all while
nobody has any left. -/
def Spaced (s : TaskList) (σ : List SleepEvent) : Prop :=
  ∀ σ1 t ms σ2, σ = σ1 ++ .kusleep t ms :: σ2 →
    (s.sleepRun σ1).sleepingQueue = [] ∨
      ms = 0 ∧ ∀ e ∈ (s.sleepRun σ1).sleepingQueue, e.delta = 0

/-! ## The queue alone -/

/-- `get_total_delta`, of a queue. -/
def totalDelta (q : List DeltaEntry) : UInt64 := (q.map DeltaEntry.delta).sum

/-- `update_sleeping_queue`, on the queue. -/
def tickQueue : List DeltaEntry → List DeltaEntry
  | [] => []
  | top :: rest => if top.delta = 0 then rest else { top with delta := top.delta - 1 } :: rest

/-- One event, on the queue. -/
def queueStep (q : List DeltaEntry) : SleepEvent → List DeltaEntry
  | .kusleep t ms => ⟨t, ms - totalDelta q⟩ :: q
  | .tick => tickQueue q

/-- A sequence of them, on the queue. -/
def queueRun (q : List DeltaEntry) (σ : List SleepEvent) : List DeltaEntry := σ.foldl queueStep q

/-- The threads in a queue. -/
def tids (q : List DeltaEntry) : List ℕ := q.map DeltaEntry.tid

/-- The ticks until the queue is empty. -/
def work (q : List DeltaEntry) : ℕ := (q.map fun e => e.delta.toNat + 1).sum

/-- The time that the entries pushed by `σ` get. -/
def extra (q : List DeltaEntry) : List SleepEvent → ℕ
  | [] => 0
  | .kusleep t ms :: σ =>
    (ms - totalDelta q).toNat + extra (queueStep q (.kusleep t ms)) σ
  | .tick :: σ => extra (queueStep q .tick) σ

section Lists

variable (σ σ' : List SleepEvent) (q : List DeltaEntry)

@[simp] theorem ticks_append : ticks (σ ++ σ') = ticks σ + ticks σ' := List.count_append

@[simp] theorem ticks_nil : ticks [] = 0 := rfl

@[simp] theorem ticks_tick : ticks (.tick :: σ) = ticks σ + 1 := List.count_cons_self

@[simp] theorem ticks_kusleep (t : ℕ) (ms : UInt64) : ticks (.kusleep t ms :: σ) = ticks σ :=
  List.count_cons_of_ne (by simp)

@[simp] theorem sleepers_append : sleepers (σ ++ σ') = sleepers σ ++ sleepers σ' :=
  List.filterMap_append

@[simp] theorem sleepers_nil : sleepers [] = [] := rfl

@[simp] theorem sleepers_tick : sleepers (.tick :: σ) = sleepers σ := rfl

@[simp] theorem sleepers_kusleep (t : ℕ) (ms : UInt64) :
    sleepers (.kusleep t ms :: σ) = t :: sleepers σ := rfl

@[simp] theorem queueRun_append : queueRun q (σ ++ σ') = queueRun (queueRun q σ) σ' :=
  List.foldl_append

@[simp] theorem queueRun_nil : queueRun q [] = q := rfl

@[simp] theorem queueRun_cons (e : SleepEvent) : queueRun q (e :: σ) = queueRun (queueStep q e) σ := rfl

@[simp] theorem tids_cons (e : DeltaEntry) : tids (e :: q) = e.tid :: tids q := rfl

@[simp] theorem tids_append (q' : List DeltaEntry) : tids (q ++ q') = tids q ++ tids q' :=
  List.map_append

@[simp] theorem work_cons (e : DeltaEntry) : work (e :: q) = e.delta.toNat + 1 + work q :=
  List.sum_cons

@[simp] theorem work_nil : work [] = 0 := rfl

@[simp] theorem sleepers_replicate (m : ℕ) : sleepers (List.replicate m .tick) = [] := by
  induction m with
  | zero => rfl
  | succ m ih => rw [List.replicate_succ, sleepers_tick, ih]

theorem extra_append : extra q (σ ++ σ') = extra q σ + extra (queueRun q σ) σ' := by
  induction σ generalizing q with
  | nil => exact (Nat.zero_add _).symm
  | cons e σ ih =>
    cases e with
    | kusleep t ms => rw [List.cons_append, extra, extra, ih, Nat.add_assoc, queueRun_cons]
    | tick => rw [List.cons_append, extra, extra, ih, queueRun_cons]

end Lists

theorem sleepStep_queue (s : TaskList) (e : SleepEvent) :
    (s.sleepStep e).sleepingQueue = queueStep s.sleepingQueue e := by
  cases e with
  | kusleep t ms => rfl
  | tick =>
    simp only [sleepStep, updateSleepingQueue, queueStep, tickQueue]
    cases hq : s.sleepingQueue with
    | nil => exact hq
    | cons top rest =>
      simp only
      split_ifs <;> rfl

theorem sleepRun_queue (s : TaskList) (σ : List SleepEvent) :
    (s.sleepRun σ).sleepingQueue = queueRun s.sleepingQueue σ := by
  induction σ generalizing s with
  | nil => rfl
  | cons e σ ih =>
    rw [queueRun_cons, ← sleepStep_queue]
    exact ih (s.sleepStep e)

/-! ## Ticks -/

variable {d r : UInt64}

theorem toNat_sub_one (h : d ≠ 0) : (d - 1).toNat + 1 = d.toNat := by
  have hpos : d.toNat ≠ 0 := fun h0 => h (UInt64.toNat_inj.1 h0)
  have hle : (1 : UInt64) ≤ d := UInt64.le_iff_toNat_le.2 (by simp; omega)
  rw [UInt64.toNat_sub_of_le _ _ hle]
  simp
  omega

/-- A tick does one tick's work. -/
theorem work_tickQueue (e : DeltaEntry) (q : List DeltaEntry) :
    work (tickQueue (e :: q)) + 1 = work (e :: q) := by
  rw [tickQueue]
  by_cases h0 : e.delta = 0
  · rw [if_pos h0, work_cons, h0]
    simp
    omega
  · have hsub := toNat_sub_one h0
    rw [if_neg h0, work_cons, work_cons]
    simp only
    omega

theorem tickQueue_append (e : DeltaEntry) (q q' : List DeltaEntry) :
    tickQueue (e :: q ++ q') = tickQueue (e :: q) ++ q' := by
  rw [List.cons_append, tickQueue, tickQueue]
  split_ifs <;> rfl

theorem tids_tickQueue (q : List DeltaEntry) : (tids (tickQueue q)).Sublist (tids q) := by
  cases q with
  | nil => exact List.Sublist.refl _
  | cons e q =>
    rw [tickQueue]
    split_ifs
    · exact List.sublist_cons_self _ _
    · exact List.Sublist.refl _

/-! ## Sleepers in the queue -/

variable {q : List DeltaEntry} {t b m : ℕ}

/-- Who is in the queue and did not come was there. -/
theorem mem_tids_of_queueStep {e : SleepEvent} (hnew : t ∉ sleepers [e])
    (hin : t ∈ tids (queueStep q e)) : t ∈ tids q := by
  cases e with
  | kusleep u ms =>
    have hne : t ≠ u := by simpa using hnew
    simpa [queueStep, hne] using hin
  | tick => exact (tids_tickQueue _).subset hin

variable {ρ : List SleepEvent}

theorem mem_tids_of_queueRun (hnew : t ∉ sleepers ρ) (hin : t ∈ tids (queueRun q ρ)) :
    t ∈ tids q := by
  induction ρ generalizing q with
  | nil => exact hin
  | cons e ρ ih =>
    rw [← List.singleton_append, sleepers_append, List.mem_append, not_or] at hnew
    exact mem_tids_of_queueStep hnew.1 (ih hnew.2 hin)

/-- **A sleeper's entry stays where it is** while it sleeps, and what was pushed above it since,
what is left of its own time and the ticks so far make up its time and that of the entries
pushed. -/
theorem queueRun_tracked {base : List DeltaEntry} (hbase : t ∉ tids base) (hnew : t ∉ sleepers ρ)
    (hin : t ∈ tids (queueRun (⟨t, d⟩ :: base) ρ)) :
    ∃ up r, queueRun (⟨t, d⟩ :: base) ρ = up ++ ⟨t, r⟩ :: base ∧
      work up + r.toNat + ticks ρ = d.toNat + (sleepers ρ).length + extra (⟨t, d⟩ :: base) ρ := by
  induction ρ using List.reverseRecOn with
  | nil => exact ⟨[], d, rfl, by simp [extra]⟩
  | append_singleton ρ e ih =>
    simp only [sleepers_append, List.mem_append, not_or] at hnew
    simp only [queueRun_append, queueRun_cons, queueRun_nil] at hin ⊢
    have hstill : t ∈ tids (queueRun (⟨t, d⟩ :: base) ρ) := mem_tids_of_queueStep hnew.2 hin
    obtain ⟨up, r, hq, hwork⟩ := ih hnew.1 hstill
    rw [extra_append, hq]
    rw [hq] at hin
    cases e with
    | kusleep u ms =>
      refine ⟨⟨u, ms - totalDelta (up ++ ⟨t, r⟩ :: base)⟩ :: up, r, rfl, ?_⟩
      simp only [work_cons, ticks_append, ticks_kusleep, ticks_nil, sleepers_append,
        sleepers_kusleep, sleepers_nil, List.length_append, List.length_singleton, extra]
      omega
    | tick =>
      simp only [ticks_append, ticks_tick, ticks_nil, sleepers_append, sleepers_tick, sleepers_nil,
        List.append_nil, extra, queueStep] at hin ⊢
      cases up with
      | nil =>
        by_cases hr : r = 0
        · simp [tickQueue, hr, hbase] at hin
        · have hsub := toNat_sub_one hr
          refine ⟨[], r - 1, by simp [tickQueue, hr], ?_⟩
          simp only [work_nil] at hwork ⊢
          omega
      | cons u up =>
        have htick := work_tickQueue u up
        exact ⟨tickQueue (u :: up), r, tickQueue_append .., by omega⟩

theorem totalDelta_of_zero (h : ∀ e ∈ q, e.delta = 0) : totalDelta q = 0 := by
  induction q with
  | nil => rfl
  | cons e q ih =>
    rw [totalDelta, List.map_cons, List.sum_cons, h e List.mem_cons_self, UInt64.zero_add]
    exact ih fun e' he' => h e' (List.mem_cons_of_mem e he')

/-! ## Sleeps that do not overlap -/

/-- `Spaced`, for the queue. -/
def SpacedQueue (q : List DeltaEntry) (σ : List SleepEvent) : Prop :=
  ∀ σ1 t ms σ2, σ = σ1 ++ .kusleep t ms :: σ2 →
    queueRun q σ1 = [] ∨ ms = 0 ∧ ∀ e ∈ queueRun q σ1, e.delta = 0

/-- The time asked for is the time entered. -/
theorem SpacedQueue.delta {σ σ1 σ2 : List SleepEvent} {ms : UInt64} (h : SpacedQueue q σ)
    (hσ : σ = σ1 ++ .kusleep t ms :: σ2) : ms - totalDelta (queueRun q σ1) = ms := by
  have hzero : totalDelta (queueRun q σ1) = 0 := by
    rcases h σ1 t ms σ2 hσ with hnil | ⟨-, hall⟩
    · rw [hnil]
      rfl
    · exact totalDelta_of_zero hall
  rw [hzero, UInt64.sub_zero]

/-- Entries pushed while somebody sleeps get no time. -/
theorem SpacedQueue.extra_eq_zero (h : SpacedQueue q ρ)
    (hbusy : ∀ ρ1 ρ2, ρ = ρ1 ++ ρ2 → queueRun q ρ1 ≠ []) : extra q ρ = 0 := by
  induction ρ generalizing q with
  | nil => rfl
  | cons e ρ ih =>
    have hrest : extra (queueStep q e) ρ = 0 := by
      refine ih (fun σ1 t ms σ2 hσ => ?_) fun ρ1 ρ2 hρ => ?_
      · exact h (e :: σ1) t ms σ2 (by rw [hσ, List.cons_append])
      · exact hbusy (e :: ρ1) ρ2 (by rw [hρ, List.cons_append])
    cases e with
    | tick => exact hrest
    | kusleep t ms =>
      have hdelta := h.delta (show .kusleep t ms :: ρ = [] ++ .kusleep t ms :: ρ from rfl)
      obtain ⟨rfl, -⟩ := (h [] t ms ρ rfl).resolve_left (hbusy [] _ rfl)
      rw [extra, hrest, show (0 : UInt64) - totalDelta q = 0 from hdelta]
      rfl

variable {q : List DeltaEntry} {ρ σ : List SleepEvent} {t : ℕ} {ms : UInt64}

/-- Within its time a sleeper stays in the queue. -/
theorem mem_tids_of_ticks_le (hq : t ∉ tids q) (hnew : t ∉ sleepers ρ) (hle : ticks ρ ≤ ms.toNat) :
    t ∈ tids (queueRun (⟨t, ms⟩ :: q) ρ) := by
  induction ρ using List.reverseRecOn with
  | nil => exact List.mem_cons_self
  | append_singleton ρ e ih =>
    rw [sleepers_append, List.mem_append, not_or] at hnew
    rw [ticks_append] at hle
    have hin := ih hnew.1 (by omega)
    obtain ⟨up, r, hrun, hwork⟩ := queueRun_tracked hq hnew.1 hin
    rw [queueRun_append, hrun, queueRun_cons, queueRun_nil]
    cases e with
    | kusleep u ms' => simp [queueStep]
    | tick =>
      rw [ticks_tick, ticks_nil] at hle
      rw [queueStep]
      cases up with
      | nil =>
        have hr : r ≠ 0 := by
          rintro rfl
          simp at hwork
          omega
        simp [tickQueue, hr]
      | cons u up =>
        rw [tickQueue_append]
        simp

/-- **A sleeper's last tick**, when the entries above it get no time. -/
theorem ticks_le_of_mem_tids (hq : t ∉ tids q) (hnew : t ∉ sleepers ρ)
    (hin : t ∈ tids (queueRun (⟨t, ms⟩ :: q) ρ)) (hspaced : SpacedQueue (⟨t, ms⟩ :: q) ρ) :
    ticks ρ ≤ ms.toNat + (sleepers ρ).length := by
  have hextra := hspaced.extra_eq_zero fun ρ1 ρ2 hρ hnil => by
    rw [hρ, queueRun_append] at hin
    rw [hρ, sleepers_append, List.mem_append, not_or] at hnew
    have hmem := mem_tids_of_queueRun hnew.2 hin
    rw [hnil] at hmem
    cases hmem
  obtain ⟨up, r, -, hwork⟩ := queueRun_tracked hq hnew hin
  omega

/-! ## Sleeps that overlap -/

/-- `Timely`, for the queue: `t` sleeps while it is in the queue. -/
def TimelyQueue (σ : List SleepEvent) : Prop :=
  ∀ σ1 t ms ρ rest, σ = σ1 ++ .kusleep t ms :: (ρ ++ rest) →
    (ticks ρ ≤ ms.toNat → t ∈ tids (queueRun [] (σ1 ++ .kusleep t ms :: ρ))) ∧
    (t ∈ tids (queueRun [] (σ1 ++ .kusleep t ms :: ρ)) →
      (∀ e rest', rest = e :: rest' →
        t ∉ tids (queueRun [] (σ1 ++ .kusleep t ms :: (ρ ++ [e])))) →
      ticks ρ + 1 ≤ ms.toNat + 1 + ((queueRun [] σ1).length + (sleepers ρ).length))

/-- The entry at the bottom was pushed on the empty queue. -/
theorem bottom_pushed {up : List DeltaEntry} (h : queueRun [] σ = up ++ [⟨b, r⟩]) :
    ∃ α ms β, σ = α ++ .kusleep b ms :: β ∧ queueRun [] α = [] := by
  induction σ using List.reverseRecOn generalizing up r with
  | nil => simp at h
  | append_singleton σ e ih =>
    rw [queueRun_append, queueRun_cons, queueRun_nil] at h
    have hbelow : ∀ up r, queueRun [] σ = up ++ [⟨b, r⟩] →
        ∃ α ms β, σ ++ [e] = α ++ .kusleep b ms :: β ∧ queueRun [] α = [] := fun up r hq => by
      obtain ⟨α, ms, β, rfl, hα⟩ := ih hq
      exact ⟨α, ms, β ++ [e], by simp, hα⟩
    cases e with
    | kusleep u ms =>
      rw [queueStep] at h
      cases up with
      | nil =>
        obtain ⟨hhead, hnil⟩ := List.cons_eq_cons.1 h
        obtain ⟨rfl, -⟩ := DeltaEntry.mk.inj hhead
        exact ⟨σ, ms, [], rfl, hnil⟩
      | cons u' up => exact hbelow up r (List.cons_eq_cons.1 h).2
    | tick =>
      rw [queueStep] at h
      cases hq : queueRun [] σ with
      | nil => simp [hq, tickQueue] at h
      | cons top rest =>
        rw [hq, tickQueue] at h
        split_ifs at h with h0
        · exact hbelow (top :: up) r (by rw [hq, h, List.cons_append])
        · cases up with
          | nil =>
            obtain ⟨hhead, hnil⟩ := List.cons_eq_cons.1 h
            obtain ⟨rfl, -⟩ := DeltaEntry.mk.inj hhead
            exact hbelow [] top.delta (by rw [hq, hnil]; rfl)
          | cons u up =>
            obtain ⟨-, hrest⟩ := List.cons_eq_cons.1 h
            exact hbelow (top :: up) r (by rw [hq, hrest]; rfl)

/-- The bottom entry stays, or the queue is it alone, without time left, and this is a tick. -/
theorem queueStep_bottom (up : List DeltaEntry) (b : ℕ) (r : UInt64) (e : SleepEvent) :
    (∃ up' r', queueStep (up ++ [⟨b, r⟩]) e = up' ++ [⟨b, r'⟩]) ∨
      up = [] ∧ r = 0 ∧ queueStep (up ++ [⟨b, r⟩]) e = [] := by
  cases e with
  | kusleep t ms => exact .inl ⟨_ :: up, r, rfl⟩
  | tick =>
    rw [queueStep]
    cases up with
    | nil =>
      by_cases hr : r = 0
      · exact .inr ⟨rfl, hr, by simp [tickQueue, hr]⟩
      · exact .inl ⟨[], r - 1, by simp [tickQueue, hr]⟩
    | cons u up => exact .inl ⟨_, r, tickQueue_append ..⟩

/-- Ticks alone bring the bottom entry to its last one. -/
theorem queueRun_ticks {up : List DeltaEntry} (hwork : work (up ++ [⟨b, r⟩]) = m + 1) :
    queueRun (up ++ [⟨b, r⟩]) (List.replicate m .tick) = [⟨b, 0⟩] := by
  induction m generalizing up r with
  | zero =>
    cases up with
    | nil =>
      have hr : r.toNat = 0 := by simpa using hwork
      rw [show r = 0 from UInt64.toNat_inj.1 hr]
      rfl
    | cons u up =>
      rw [List.cons_append, work_cons] at hwork
      have hpos : work (up ++ [⟨b, r⟩]) ≠ 0 := by simp [work]
      omega
  | succ m ih =>
    have hstep : work (queueStep (up ++ [⟨b, r⟩]) .tick) = m + 1 := by
      cases up with
      | nil =>
        have htick := work_tickQueue ⟨b, r⟩ []
        rw [List.nil_append] at hwork ⊢
        rw [queueStep]
        omega
      | cons u up =>
        have htick := work_tickQueue u (up ++ [⟨b, r⟩])
        rw [List.cons_append] at hwork ⊢
        rw [queueStep]
        omega
    rw [List.replicate_succ, queueRun_cons]
    rcases queueStep_bottom up b r .tick with ⟨up', r', hq⟩ | ⟨-, -, hq⟩
    · rw [hq] at hstep ⊢
      exact ih hstep
    · rw [hq, work_nil] at hstep
      omega

/-- **The bottom entry's sleep comes to an end**, with one tick's work left before its last tick. -/
theorem exists_whole_sleep (up : List DeltaEntry) (b : ℕ) (r : UInt64) (σ : List SleepEvent) :
    ∃ m ρ rest, σ ++ List.replicate m .tick = ρ ++ rest ∧
      queueRun (up ++ [⟨b, r⟩]) ρ = [⟨b, 0⟩] ∧
      ∀ e rest', rest = e :: rest' → queueRun (up ++ [⟨b, r⟩]) (ρ ++ [e]) = [] := by
  induction σ generalizing up r with
  | nil =>
    obtain ⟨m, hm⟩ : ∃ m, work (up ++ [⟨b, r⟩]) = m + 1 :=
      Nat.exists_eq_succ_of_ne_zero (by simp [work])
    exact ⟨m, List.replicate m .tick, [], by simp, queueRun_ticks hm, fun e rest' h => by cases h⟩
  | cons e σ ih =>
    rcases queueStep_bottom up b r e with ⟨up', r', hq⟩ | ⟨rfl, rfl, hq⟩
    · obtain ⟨m, ρ, rest, hσ, hlast, hend⟩ := ih up' r'
      rw [← hq] at hlast hend
      exact ⟨m, e :: ρ, rest, by rw [List.cons_append, hσ, List.cons_append], hlast, hend⟩
    · refine ⟨0, [], e :: σ, by simp, rfl, fun e' rest' h => ?_⟩
      obtain ⟨rfl, -⟩ := List.cons_eq_cons.1 h
      exact hq

section Overlap

variable {σ1 σ2 : List SleepEvent} (htimely : ∀ m, TimelyQueue (σ ++ List.replicate m .tick))
  (hdistinct : (sleepers σ).Nodup)
include htimely hdistinct

/-- **An entry that is pushed on others gets no time**, or the bottom one would wake too late. -/
theorem delta_eq_zero (hσ : σ = σ1 ++ .kusleep t ms :: σ2) (hbusy : queueRun [] σ1 ≠ []) :
    ms - totalDelta (queueRun [] σ1) = 0 := by
  obtain ⟨up, ⟨b, r⟩, hq⟩ := (List.eq_nil_or_concat (queueRun [] σ1)).resolve_left hbusy
  rw [List.concat_eq_append] at hq
  obtain ⟨α, msb, β, rfl, hα⟩ := bottom_pushed hq
  obtain ⟨m, ρ, rest, hrest, hlast, hend⟩ :=
    exists_whole_sleep (⟨t, ms - totalDelta (up ++ [⟨b, r⟩])⟩ :: up) b r σ2
  -- The bottom entry's sleep is `β`, the push, and `ρ`.
  have hrun : ∀ ρ, queueRun [] (α ++ .kusleep b msb :: (β ++ .kusleep t ms :: ρ)) =
      queueRun (⟨t, ms - totalDelta (up ++ [⟨b, r⟩])⟩ :: up ++ [⟨b, r⟩]) ρ := fun ρ => by
    rw [← List.cons_append, ← List.append_assoc, queueRun_append, hq]
    rfl
  have hall : σ ++ List.replicate m .tick =
      α ++ .kusleep b msb :: ((β ++ .kusleep t ms :: ρ) ++ rest) := by
    rw [hσ]
    simp only [List.append_assoc, List.cons_append, hrest]
  have hnew : b ∉ sleepers (β ++ .kusleep t ms :: ρ) := by
    have hnodup : (sleepers (σ ++ List.replicate m .tick)).Nodup := by simpa using hdistinct
    rw [hall, sleepers_append, sleepers_kusleep, sleepers_append (β ++ _)] at hnodup
    have hb := (List.nodup_cons.1 (List.nodup_append.1 hnodup).2.1).1
    exact fun hin => hb (List.mem_append_left _ hin)
  have hin : b ∈ tids (queueRun [] (α ++ .kusleep b msb :: (β ++ .kusleep t ms :: ρ))) := by
    rw [hrun, hlast]
    exact List.mem_cons_self
  have hbound := (htimely m α b msb (β ++ .kusleep t ms :: ρ) rest hall).2 hin fun e rest' he => by
    rw [List.append_assoc, List.cons_append, hrun, hend e rest' he]
    exact List.not_mem_nil
  rw [hα, List.length_nil] at hbound
  have hstart : queueRun [] (α ++ .kusleep b msb :: (β ++ .kusleep t ms :: ρ)) =
      queueRun (⟨b, msb⟩ :: []) (β ++ .kusleep t ms :: ρ) := by
    rw [queueRun_append, hα, queueRun_cons, queueStep, show totalDelta [] = 0 from rfl,
      UInt64.sub_zero]
  rw [hstart] at hin
  obtain ⟨up', r', hq', hwork⟩ := queueRun_tracked (by simp [tids]) hnew hin
  have hextra : extra (⟨b, msb⟩ :: []) (β ++ .kusleep t ms :: ρ) = 0 := by
    rw [← hstart, hrun, hlast] at hq'
    obtain ⟨rfl, hr⟩ : up' = [] ∧ r' = 0 := by
      cases up' with
      | nil => exact ⟨rfl, by simpa [eq_comm] using hq'⟩
      | cons u up' => simp at hq'
    rw [hr, work_nil] at hwork
    simp only [UInt64.toNat_zero] at hwork
    omega
  have hmid : queueRun (⟨b, msb⟩ :: []) β = up ++ [⟨b, r⟩] := by
    rw [← hq, queueRun_append, hα, queueRun_cons, queueStep, show totalDelta [] = 0 from rfl,
      UInt64.sub_zero]
  rw [extra_append, extra, hmid] at hextra
  rw [hq]
  exact UInt64.toNat_inj.1 (show _ = 0 by omega)

theorem totalDelta_of_push (hσ : σ = σ1 ++ .kusleep t ms :: σ2) (hbusy : queueRun [] σ1 ≠ []) :
    totalDelta (queueRun [] σ1) = ms := by
  have hzero := delta_eq_zero htimely hdistinct hσ hbusy
  rw [← UInt64.sub_add_cancel ms (totalDelta (queueRun [] σ1)), hzero, UInt64.zero_add]

/-- Only the bottom entry ever has time left. -/
theorem above_zero (hσ : σ = σ1 ++ σ2) : ∀ e ∈ (queueRun [] σ1).dropLast, e.delta = 0 := by
  induction σ1 using List.reverseRecOn generalizing σ2 with
  | nil => simp
  | append_singleton σ1 e ih =>
    rw [List.append_assoc] at hσ
    have hold := ih hσ
    rw [queueRun_append, queueRun_cons, queueRun_nil]
    cases hq : queueRun [] σ1 with
    | nil => cases e <;> simp [queueStep, tickQueue]
    | cons top rest =>
      rw [hq] at hold
      cases e with
      | kusleep u ms' =>
        have hzero := delta_eq_zero htimely hdistinct hσ (by simp [hq])
        rw [queueStep, ← hq, hzero, hq, List.dropLast_cons_of_ne_nil (List.cons_ne_nil _ _)]
        simpa using hold
      | tick =>
        rw [queueStep, tickQueue]
        cases rest with
        | nil => split_ifs <;> simp
        | cons e' rest =>
          rw [List.dropLast_cons_of_ne_nil (List.cons_ne_nil _ _)] at hold
          rw [if_pos (hold top List.mem_cons_self)]
          exact fun e he => hold e (List.mem_cons_of_mem top he)

/-- A call that finds somebody asleep and is followed by a tick: its entry is popped there. -/
theorem ms_eq_zero_of_tick (m : ℕ) (rest : List SleepEvent) (hσ : σ = σ1 ++ .kusleep t ms :: σ2)
    (hbusy : queueRun [] σ1 ≠ [])
    (htick : σ ++ List.replicate m .tick = σ1 ++ .kusleep t ms :: ([.tick] ++ rest)) : ms = 0 := by
  have hnew : t ∉ tids (queueRun [] σ1) := fun hin => by
    have hnodup := hdistinct
    rw [hσ, sleepers_append, sleepers_kusleep] at hnodup
    have hcaller : t ∈ sleepers σ1 := by
      by_contra hnot
      cases mem_tids_of_queueRun hnot hin
    exact (List.nodup_append.1 hnodup).2.2 t hcaller t List.mem_cons_self rfl
  have hawake : t ∉ tids (queueRun [] (σ1 ++ .kusleep t ms :: [.tick])) := by
    rw [queueRun_append, queueRun_cons, queueStep, delta_eq_zero htimely hdistinct hσ hbusy]
    simpa [queueStep, tickQueue] using hnew
  have hlate := mt (htimely m σ1 t ms [.tick] rest htick).1 hawake
  rw [ticks_tick, ticks_nil] at hlate
  exact UInt64.toNat_inj.1 (show _ = 0 by omega)

/-- **A call that finds somebody asleep asks for no time**: its own entry gets none, so it is ready
after the first tick, unless others come first, and those ask for the same. -/
theorem ms_eq_zero (hσ : σ = σ1 ++ .kusleep t ms :: σ2) (hbusy : queueRun [] σ1 ≠ []) : ms = 0 := by
  induction σ2 generalizing σ1 t ms with
  | nil =>
    refine ms_eq_zero_of_tick htimely hdistinct 1 [] hσ hbusy ?_
    rw [hσ, List.append_assoc]
    rfl
  | cons e σ2 ih =>
    cases e with
    | tick =>
      refine ms_eq_zero_of_tick htimely hdistinct 0 σ2 hσ hbusy ?_
      rw [hσ, List.replicate_zero, List.append_nil]
      rfl
    | kusleep u ms' =>
      have hσ' : σ = (σ1 ++ [.kusleep t ms]) ++ .kusleep u ms' :: σ2 := by
        rw [hσ, List.append_assoc, List.singleton_append]
      have hpush : queueRun [] (σ1 ++ [.kusleep t ms]) = ⟨t, 0⟩ :: queueRun [] σ1 := by
        rw [queueRun_append, queueRun_cons, queueRun_nil, queueStep,
          delta_eq_zero htimely hdistinct hσ hbusy]
      have hbusy' : queueRun [] (σ1 ++ [.kusleep t ms]) ≠ [] := by simp [hpush]
      have hsame := totalDelta_of_push htimely hdistinct hσ' hbusy'
      rw [hpush, totalDelta, List.map_cons, List.sum_cons, UInt64.zero_add] at hsame
      rw [← totalDelta_of_push htimely hdistinct hσ hbusy, totalDelta, hsame]
      exact ih hσ' hbusy'

theorem spacedQueue_of_timely : SpacedQueue [] σ := by
  intro σ1 t ms σ2 hσ
  by_cases hbusy : queueRun [] σ1 = []
  · exact .inl hbusy
  · have hms := ms_eq_zero htimely hdistinct hσ hbusy
    have htotal := totalDelta_of_push htimely hdistinct hσ hbusy
    have habove := above_zero htimely hdistinct hσ
    obtain ⟨up, b, hq⟩ := (List.eq_nil_or_concat (queueRun [] σ1)).resolve_left hbusy
    rw [List.concat_eq_append] at hq
    rw [hq, List.dropLast_concat] at habove
    rw [hq, hms, totalDelta, List.map_append, List.sum_append] at htotal
    rw [show (up.map DeltaEntry.delta).sum = 0 from totalDelta_of_zero habove] at htotal
    have hb : b.delta = 0 := by simpa using htotal
    refine .inr ⟨hms, fun e he => ?_⟩
    rw [hq, List.mem_append, List.mem_singleton] at he
    rcases he with he | rfl
    · exact habove e he
    · exact hb

end Overlap

theorem timelyQueue_of_spaced (hspaced : SpacedQueue [] σ) (hdistinct : (sleepers σ).Nodup) :
    TimelyQueue σ := by
  intro σ1 t ms ρ rest hσ
  rw [hσ, sleepers_append, sleepers_kusleep, sleepers_append] at hdistinct
  obtain ⟨-, htail, hcross⟩ := List.nodup_append.1 hdistinct
  have hnew : t ∉ sleepers ρ := fun hin =>
    (List.nodup_cons.1 htail).1 (List.mem_append_left _ hin)
  have hq : t ∉ tids (queueRun [] σ1) := fun hin => by
    have hnot : t ∉ sleepers σ1 := fun hmem => hcross t hmem t List.mem_cons_self rfl
    cases mem_tids_of_queueRun hnot hin
  have hrun : ∀ ρ, queueRun [] (σ1 ++ .kusleep t ms :: ρ) = queueRun (⟨t, ms⟩ :: queueRun [] σ1) ρ :=
    fun ρ => by rw [queueRun_append, queueRun_cons, queueStep, hspaced.delta hσ]
  refine ⟨fun hle => ?_, fun hin _ => ?_⟩
  · rw [hrun]
    exact mem_tids_of_ticks_le hq hnew hle
  · rw [hrun] at hin
    have hle := ticks_le_of_mem_tids hq hnew hin fun ρ1 u ms' ρ2 hρ => by
      rw [← hrun]
      refine hspaced _ u ms' (ρ2 ++ rest) ?_
      rw [hσ, hρ]
      simp
    omega

/-! ## Threads -/

/-- A tick makes ready who leaves the queue. -/
theorem updateSleepingQueue_state {s : TaskList} (hnodup : (tids s.sleepingQueue).Nodup)
    (hlist : ∀ t ∈ tids s.sleepingQueue, t ∈ s.threadList) (t : ℕ) :
    (s.updateSleepingQueue.thr t).state =
      if t ∈ tids s.sleepingQueue ∧ t ∉ tids (tickQueue s.sleepingQueue) then .ready
      else (s.thr t).state := by
  simp only [updateSleepingQueue]
  cases hq : s.sleepingQueue with
  | nil => simp [tids]
  | cons top rest =>
    rw [hq] at hnodup hlist
    simp only [tickQueue]
    by_cases h0 : top.delta = 0
    · simp only [if_pos h0, readyTid_eq, if_pos (hlist _ List.mem_cons_self)]
      rcases eq_or_ne t top.tid with rfl | hne
      · rw [if_pos ⟨List.mem_cons_self, (List.nodup_cons.1 hnodup).1⟩]
        simp [setState]
      · rw [if_neg (by simp [hne])]
        exact congrArg Thread.state (modThread_of_ne s _ hne)
    · simp only [if_neg h0]
      rw [if_neg (fun h => h.2 h.1)]

/-- **Who called `kusleep` sleeps while it is in the queue, and is ready after.** -/
theorem sleepRun_state {s : TaskList} (hempty : s.sleepingQueue = []) (hdistinct : (sleepers σ).Nodup)
    (hlist : ∀ t ∈ sleepers σ, t ∈ s.threadList) :
    (s.sleepRun σ).threadList = s.threadList ∧ (tids (queueRun [] σ)).Nodup ∧
      ∀ t ∈ sleepers σ,
        ((s.sleepRun σ).thr t).state = if t ∈ tids (queueRun [] σ) then .sleeping else .ready := by
  induction σ using List.reverseRecOn with
  | nil => exact ⟨rfl, List.nodup_nil, fun t ht => by cases ht⟩
  | append_singleton σ e ih =>
    rw [sleepers_append] at hdistinct hlist
    obtain ⟨hold, -, hcross⟩ := List.nodup_append.1 hdistinct
    obtain ⟨hthreads, hnodup, hstate⟩ := ih hold fun t ht => hlist t (List.mem_append_left _ ht)
    have hrun : s.sleepRun (σ ++ [e]) = (s.sleepRun σ).sleepStep e := List.foldl_concat ..
    have hqueue : (s.sleepRun σ).sleepingQueue = queueRun [] σ := by rw [sleepRun_queue, hempty]
    have hcallers : ∀ t ∈ tids (queueRun [] σ), t ∈ sleepers σ := fun t ht => by
      by_contra hnot
      cases mem_tids_of_queueRun hnot ht
    rw [hrun, queueRun_append, queueRun_cons, queueRun_nil, sleepers_append]
    cases e with
    | kusleep u ms =>
      have hu : u ∉ sleepers σ := fun hmem => hcross u hmem u List.mem_cons_self rfl
      refine ⟨hthreads, List.nodup_cons.2 ⟨fun hin => hu (hcallers u hin), hnodup⟩, fun t ht => ?_⟩
      rcases eq_or_ne t u with rfl | hne
      · simp [sleepStep, TaskList.kusleep, queueStep]
      · have ht' : t ∈ sleepers σ := by simpa [hne] using ht
        have hthr : ((s.sleepRun σ).sleepStep (.kusleep u ms)).thr t = (s.sleepRun σ).thr t :=
          Function.update_of_ne hne _ _
        rw [hthr, hstate t ht']
        simp [queueStep, hne]
    | tick =>
      rw [sleepers_tick, sleepers_nil, List.append_nil]
      refine ⟨?_, hnodup.sublist (tids_tickQueue _), ?_⟩
      · rw [← hthreads]
        exact (quiet_updateSleepingQueue _).threadList
      · intro t ht
        have htick := updateSleepingQueue_state (s := s.sleepRun σ) (by rwa [hqueue]) (fun u hu => by
          rw [hthreads]
          exact hlist u (List.mem_append_left _ (hcallers u (hqueue ▸ hu)))) t
        rw [hqueue, hstate t ht] at htick
        rw [sleepStep, queueStep, htick]
        by_cases hin : t ∈ tids (tickQueue (queueRun [] σ))
        · simp [hin, (tids_tickQueue _).subset hin]
        · simp [hin]

section Threads

variable {s : TaskList} (hempty : s.sleepingQueue = []) (hdistinct : (sleepers σ).Nodup)
  (hlist : ∀ t ∈ sleepers σ, t ∈ s.threadList)
include hempty hdistinct hlist

/-- At any point of a sequence, a thread that has called `kusleep` is ready if it is not in the
queue. -/
theorem ready_iff {τ τ' : List SleepEvent} (hσ : σ = τ ++ τ') (ht : t ∈ sleepers τ) :
    ((s.sleepRun τ).thr t).state = .ready ↔ t ∉ tids (queueRun [] τ) := by
  rw [hσ, sleepers_append] at hdistinct hlist
  have hstate := (sleepRun_state hempty (List.nodup_append.1 hdistinct).1 fun u hu =>
    hlist u (List.mem_append_left _ hu)).2.2 t ht
  rw [hstate]
  split_ifs with hin <;> simp [hin]

theorem timely_iff_queue : Timely s σ ↔ TimelyQueue σ := by
  refine forall₅_congr fun σ1 t ms ρ rest => forall_congr' fun hσ => ?_
  have hready : ∀ ρ1 ρ2, ρ ++ rest = ρ1 ++ ρ2 →
      (((s.sleepRun (σ1 ++ .kusleep t ms :: ρ1)).thr t).state = .ready ↔
        t ∉ tids (queueRun [] (σ1 ++ .kusleep t ms :: ρ1))) := fun ρ1 ρ2 hρ => by
    have hcut : σ = (σ1 ++ .kusleep t ms :: ρ1) ++ ρ2 := by
      rw [hσ, hρ]
      simp
    exact ready_iff hempty hdistinct hlist hcut (by simp)
  rw [Ne, hready ρ rest rfl, not_not, sleepRun_queue, hempty]
  refine and_congr_right fun _ => imp_congr_right fun _ => imp_congr_left ?_
  refine forall₃_congr fun e rest' he => hready (ρ ++ [e]) rest' ?_
  rw [he, List.append_assoc, List.singleton_append]

end Threads

/-- Appended ticks call nobody. -/
theorem split_before_ticks {σ1 σ2 : List SleepEvent}
    (h : σ ++ List.replicate m .tick = σ1 ++ .kusleep t ms :: σ2) :
    ∃ σ2', σ = σ1 ++ .kusleep t ms :: σ2' := by
  rcases List.append_eq_append_iff.1 h with ⟨τ, rfl, htail⟩ | ⟨τ, rfl, htail⟩
  · have hmem : SleepEvent.kusleep t ms ∈ List.replicate m SleepEvent.tick := by
      rw [htail]
      simp
    cases List.eq_of_mem_replicate hmem
  · cases τ with
    | nil =>
      have hmem : SleepEvent.kusleep t ms ∈ List.replicate m SleepEvent.tick := by
        rw [← List.nil_append (List.replicate m _), ← htail]
        simp
      cases List.eq_of_mem_replicate hmem
    | cons e τ =>
      obtain ⟨rfl, -⟩ := List.cons_eq_cons.1 htail
      exact ⟨τ, rfl⟩

/-- **Sleepers are woken in time, whatever ticks follow, exactly if sleeps do not overlap.** -/
theorem timely_iff_spaced {s : TaskList} (hempty : s.sleepingQueue = [])
    (hdistinct : (sleepers σ).Nodup) (hlist : ∀ t ∈ sleepers σ, t ∈ s.threadList) :
    (∀ m, Timely s (σ ++ List.replicate m .tick)) ↔ Spaced s σ := by
  have hall : ∀ m, Timely s (σ ++ List.replicate m .tick) ↔
      TimelyQueue (σ ++ List.replicate m .tick) := fun m =>
    timely_iff_queue hempty (by simpa using hdistinct) (by simpa using hlist)
  have hqueue : Spaced s σ ↔ SpacedQueue [] σ := by
    simp only [Spaced, SpacedQueue, sleepRun_queue, hempty]
  simp only [hall, hqueue]
  refine ⟨fun h => spacedQueue_of_timely h hdistinct, fun h m => ?_⟩
  refine timelyQueue_of_spaced (fun σ1 t ms σ2 hσ => ?_) (by simpa using hdistinct)
  obtain ⟨σ2', hσ'⟩ := split_before_ticks hσ
  exact h σ1 t ms σ2' hσ'

/-! ## Two sleepers -/

/-- The boot CPU with two processes, of threads 2 and 3. -/
def twoThreads : TaskList :=
  let boot := initMultitasking ⟨0, 0, 0, 0, .null, 0, 0⟩
  (boot.newElfProcess mainTid ⟨0, 0, "", 0⟩).newElfProcess mainTid ⟨0, 0, "", 0⟩

/-- **The shorter sleep waits for ever**: thread 2 sleeps for 10 and then thread 3 for 5; its delta
wraps to `2 ^ 64 - 5`, and after 7 ticks it is not ready. -/
theorem twoThreads_late :
    ¬Timely twoThreads (.kusleep 2 10 :: .kusleep 3 5 :: List.replicate 7 .tick) := by
  intro h
  have hlate := (h [.kusleep 2 10] 3 5 (List.replicate 7 .tick) [] rfl).2 (by decide) fun _ _ he => by
    cases he
  exact absurd hlate (by decide)

/-- One sleeper is woken in time, two are not. -/
theorem timely_iff_spaced_twoThreads :
    (∀ m, Timely twoThreads ([.kusleep 2 10] ++ List.replicate m .tick)) ∧
      ¬∀ m, Timely twoThreads ([.kusleep 2 10, .kusleep 3 5] ++ List.replicate m .tick) := by
  refine ⟨(timely_iff_spaced rfl (by decide) (by decide)).2 ?_, fun h => ?_⟩
  · intro σ1 t ms σ2 hσ
    cases σ1 with
    | nil => exact .inl rfl
    | cons e σ1 => simp at hσ
  · have hspaced := (timely_iff_spaced rfl (by decide) (by decide)).1 h [.kusleep 2 10] 3 5 [] rfl
    revert hspaced
    decide

end Hvos.Sched
