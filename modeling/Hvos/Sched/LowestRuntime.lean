import Hvos.Data.LinkedList
import Hvos.Process.ThreadChain
import Hvos.Sched.Consistency

/-!
# Sched/LowestRuntime — `get_lowest_runtime` on heap bytes

`cfs.c` asks `list_get_at` for one place of the thread list after the other and keeps a running
minimum. It returns the first `READY` thread of least `vruntime`, or the null pointer if there is
none, and writes nothing (`lowest_is_first_least`).  What `Sched/State` computes from the list of
threads is what is computed here from the bytes (`getLowestRuntime_shows`).
-/

namespace Hvos.Sched

open Memory Bytes Data Prog Least
open Hvos.Process (threadTid)

/-! ## `cfs.c` -/

/-- `STATE_READY`. -/
def stateReady : ℕ := 1

/-- `thread->state`. -/
@[irreducible] def threadState (s : Mem) (t : ℕ) : ℕ := load s.heapBytes (t + 24) 4

/-- `thread->vruntime`. -/
@[irreducible] def threadVruntime (s : Mem) (t : ℕ) : ℕ := load s.heapBytes (t + 56) 8

/-- `cpu->thread_list`. -/
@[irreducible] def cpuThreadList (s : Mem) (cpu : ℕ) : ℕ := load s.heapBytes (cpu + 24) 8

/-- The body of the loop of `get_lowest_runtime`: the new `next`. -/
def lower (s : Mem) (next t : ℕ) : ℕ :=
  if threadState s t = stateReady then
    if next = 0 then t
    else if threadVruntime s t < threadVruntime s next then t
    else next
  else next

/-- The loop of `get_lowest_runtime`, with so many rounds to go.  It writes nothing, so `count`
stays. -/
def lowestFrom (list : ℕ) : ℕ → ℕ → ℕ → Prog Mem ℕ
  | 0, _, next => pure next
  | k + 1, i, next => do
    let t ← Prog.read fun s => listGetAt s list i
    if t = 0 then Prog.halt
    else
      let next ← Prog.read fun s => lower s next t
      lowestFrom list k (i + 1) next

/-- `get_lowest_runtime`, for what `get_cpu_task_list` returned. -/
def getLowestRuntime (cpu : ℕ) : Prog Mem ℕ := do
  let threadList ← Prog.read fun s => cpuThreadList s cpu
  if threadList = 0 then pure 0
  else
    let count ← Prog.read fun s => listCount s threadList
    if count = 0 then pure 0 else lowestFrom threadList count 0 0

/-! ## The loop -/

variable {s : Mem} {cpu l k i : ℕ} {ps ts : List ℕ}

/-- **The threads of a CPU** are those of its list.  There are none without a list. -/
def Threads (s : Mem) (cpu : ℕ) (ts : List ℕ) : Prop :=
  0 ∉ ts ∧ (cpuThreadList s cpu = 0 ∧ ts = [] ∨ ∃ ps, IsList s (cpuThreadList s cpu) ps ts)

/-- The running minimum, with the null pointer for nothing. -/
theorem foldl_lower (hts : 0 ∉ ts) {next : Option ℕ} (hnext : next ≠ some 0) :
    ts.foldl (lower s) (next.getD 0) =
      (ts.foldl (pick (fun t => threadState s t = stateReady) (threadVruntime s)) next).getD 0 := by
  induction ts generalizing next with
  | nil => rfl
  | cons t ts ih =>
    obtain ⟨ht, hts⟩ : 0 ≠ t ∧ 0 ∉ ts := by simpa using hts
    have hround : lower s (next.getD 0) t =
        (pick (fun t => threadState s t = stateReady) (threadVruntime s) next t).getD 0 := by
      unfold lower pick
      cases next with
      | none => simp [apply_ite (Option.getD · 0)]
      | some n =>
        have hn : n ≠ 0 := fun heq => hnext (congrArg some heq)
        simp [hn, apply_ite (Option.getD · 0)]
    rw [List.foldl_cons, List.foldl_cons, hround]
    refine ih hts fun hzero => ?_
    rcases mem_of_pick hzero with heq | hmem
    · exact ht heq
    · exact hnext hmem

/-- **The loop** looks at every thread from `i` on. -/
theorem lowestFrom_eq (h : IsList s l ps ts) (hts : 0 ∉ ts) (hk : i + k = ts.length) (next : ℕ) :
    lowestFrom l k i next s = .done ((ts.drop i).foldl (lower s) next) s := by
  induction k generalizing i next with
  | zero =>
    rw [lowestFrom, List.drop_eq_nil_of_le (by omega)]
    rfl
  | succ k ih =>
    have hi : i < ts.length := by omega
    have ht : ts[i] ≠ 0 := fun heq => hts (heq ▸ List.getElem_mem hi)
    simp only [lowestFrom, bind_apply, read_apply, h.getAt, List.getD_eq_getElem _ _ hi, if_neg ht]
    rw [ih (by omega), List.drop_eq_getElem_cons hi, List.foldl_cons]

/-- **`get_lowest_runtime`** computes the running minimum over the list and writes nothing. -/
theorem getLowestRuntime_eq (h : Threads s cpu ts) : getLowestRuntime cpu s =
    .done ((ts.foldl (pick (fun t => threadState s t = stateReady) (threadVruntime s)) none).getD 0)
      s := by
  obtain ⟨hts, ⟨hnull, rfl⟩ | ⟨ps, hl⟩⟩ := h
  · simp [getLowestRuntime, bind_apply, hnull]
  · simp only [getLowestRuntime, bind_apply, read_apply, if_neg hl.header.ne_zero, hl.count_eq]
    split_ifs with hcount
    · rw [List.length_eq_zero_iff.1 hcount]
      rfl
    · rw [lowestFrom_eq hl hts (by omega), List.drop_zero]
      have hnone : (none : Option ℕ) ≠ some 0 := by simp
      exact congrArg (Outcome.done · s) (foldl_lower hts hnone)

/-! ## What it returns -/

/-- **CFS picks the minimum**: the null pointer exactly if no thread is `READY`, and otherwise the
first `READY` thread of least `vruntime`.  Memory is left as it was. -/
theorem lowest_is_first_least (h : Threads s cpu ts) : Ensures (getLowestRuntime cpu) s
      (fun r s' => s' = s ∧ (r = 0 ↔ ∀ t ∈ ts, threadState s t ≠ stateReady) ∧
        (r ≠ 0 → FirstLeast (fun t => threadState s t = stateReady) (threadVruntime s) ts r))
      (fun _ => False) := by
  refine ensures_of_done (getLowestRuntime_eq h) ⟨rfl, ?_, ?_⟩
  · rw [← foldl_pick_eq_none (f := threadVruntime s)]
    cases hfold : ts.foldl (pick (fun t => threadState s t = stateReady) (threadVruntime s)) none with
    | none => simp
    | some m =>
      have hm : m ≠ 0 := fun heq => h.1 (heq ▸ (firstLeast_of_foldl hfold).mem)
      simp [hm]
  · cases hfold : ts.foldl (pick (fun t => threadState s t = stateReady) (threadVruntime s)) none with
    | none => exact fun hne => absurd rfl hne
    | some m => exact fun _ => firstLeast_of_foldl hfold

/-- A CPU with two threads that are `READY`, of which the one pushed first has run less. -/
def twoReady : Prog Mem (ℕ × ℕ × ℕ × ℕ) := do
  heapInit
  let t ← kzalloc 96
  let u ← kzalloc 96
  let cpu ← kzalloc 56
  Prog.modify fun s => (s.storeHeap (t + 24) stateReady).storeHeap (t + 56) 3
  Prog.modify fun s => (s.storeHeap (u + 24) stateReady).storeHeap (u + 56) 5
  let list ← initList
  Prog.modify fun s => s.storeHeap (cpu + 24) list
  listPush list t
  listPush list u
  pure (cpu, list, t, u)

theorem twoReady_list : Ensures twoReady sixFrames
    (fun r s => ∃ ps, IsList s r.2.1 ps [r.2.2.2, r.2.2.1]) (fun _ => True) := by
  refine (heapInit_healthy (by decide +kernel)).bind fun _ s0 hs0 => ?_
  refine (hs0.kzalloc (by decide) (by decide)).bind_true fun t s1 ht => ?_
  refine (ht.healthy.kzalloc (by decide) (by decide)).bind_true fun u s2 hu => ?_
  refine (hu.healthy.kzalloc (by decide) (by decide)).bind_true fun cpu s3 hcpu => ?_
  have hu3 := hcpu.spares.inUse (Set.notMem_empty u) hu.block
  have ht3 := hcpu.spares.inUse (Set.notMem_empty t) (hu.spares.inUse (Set.notMem_empty t) ht.block)
  refine ensures_modify_bind (ensures_modify_bind ?_)
  obtain ⟨hs4, hkeep4⟩ := hcpu.healthy.fields ht3 [(24, stateReady), (56, 3)] (by simp)
  obtain ⟨hs5, hkeep5⟩ := hs4.fields (hkeep4 u 96 hu3) [(24, stateReady), (56, 5)] (by simp)
  have hcpu5 := hkeep5 cpu 56 (hkeep4 cpu 56 hcpu.block)
  refine (initList_spec hs5).bind_true fun l s6 hl => ?_
  obtain ⟨hlist, hl⟩ := hl
  have hcpu6 := hl.spares.inUse (Set.notMem_empty cpu) hcpu5
  obtain ⟨hs7, hsp7, -⟩ := hl.healthy.storeHeap (o := 24) hcpu6 (by decide) l
  have hne : l ≠ cpu := fun heq => hl.fresh 56 (heq ▸ hcpu5)
  refine ensures_modify_bind ?_
  have hlist7 := hlist.spares hsp7 (by simpa using hne)
  refine (hlist7.push hs7 (ht3.lt hcpu.healthy)).bind_true fun _ s8 h8 => ?_
  obtain ⟨p, hlist8, hs8, -⟩ := h8
  refine (hlist8.push hs8 (hu3.lt hcpu.healthy)).bind_true fun _ s9 h9 => ?_
  obtain ⟨q, hlist9, -⟩ := h9
  exact ensures_pure ⟨[q, p], hlist9⟩

theorem twoReady_fields : Ensures twoReady sixFrames
    (fun r s => cpuThreadList s r.1 = r.2.1 ∧ r.2.2.1 ≠ 0 ∧ r.2.2.2 ≠ 0 ∧
      threadState s r.2.2.1 = stateReady ∧ threadState s r.2.2.2 = stateReady ∧
      threadVruntime s r.2.2.1 = 3 ∧ threadVruntime s r.2.2.2 = 5) (fun _ => False) := by
  decide +kernel

/-- The thread behind is taken. -/
theorem lowest_of_twoReady : ∃ s cpu t u, Threads s cpu [u, t] ∧
    Ensures (getLowestRuntime cpu) s (fun r s' => s' = s ∧ r = t) (fun _ => False) := by
  obtain ⟨⟨cpu, l, t, u⟩, s, hrun, hcpu, ht, hu, hst, hsu, hvt, hvu⟩ := twoReady_fields.done
  obtain ⟨ps, hlist⟩ := twoReady_list.apply hrun
  dsimp only at hlist hcpu ht hu hst hsu hvt hvu
  have hthreads : Threads s cpu [u, t] := by
    refine ⟨by simp [ht.symm, hu.symm], .inr ⟨ps, ?_⟩⟩
    rwa [hcpu]
  refine ⟨s, cpu, t, u, hthreads, (lowest_is_first_least hthreads).imp fun r s' hr => ?_⟩
  obtain ⟨rfl, hnull, hleast⟩ := hr
  have hne : r ≠ 0 := fun heq => hnull.1 heq t (by simp) hst
  have hr := hleast hne
  refine ⟨rfl, (by simpa using hr.mem : r = u ∨ r = t).resolve_left ?_⟩
  rintro rfl
  rcases hr.lt_or_idxOf_le (a := t) (by simp) hst with hlt | ⟨heq, -⟩
  · omega
  · omega

/-- **The bytes show the task list**: the same threads in the same order, each under its `tid`, of
which the same are `READY`, with the same `vruntime`. -/
structure Shows (s : Mem) (ts : List ℕ) (T : TaskList) : Prop where
  threadList : T.threadList = ts.map (threadTid s)
  ready : ∀ t ∈ ts, (T.thr (threadTid s t)).state = .ready ↔ threadState s t = stateReady
  vruntime : ∀ t ∈ ts, (T.thr (threadTid s t)).vruntime.toNat = threadVruntime s t

/-- **`get_lowest_runtime` on bytes and on task lists** return the same thread. -/
theorem getLowestRuntime_shows {T : TaskList} (h : Threads s cpu ts) (hT : Shows s ts T) :
    Ensures (getLowestRuntime cpu) s
      (fun r s' => s' = s ∧ T.getLowestRuntime = if r = 0 then none else some (threadTid s r))
      (fun _ => False) := by
  refine ensures_of_done (getLowestRuntime_eq h) ⟨rfl, ?_⟩
  unfold TaskList.getLowestRuntime
  rw [T.lowerRuntime_eq, hT.threadList]
  have hmap := foldl_pick_map (q := fun t => (T.thr t).state = .ready)
    (v := fun t => (T.thr t).vruntime.toNat) (g := threadTid s) hT.ready hT.vruntime
    (fun b (hb : b ∈ none) => absurd hb (by simp))
  refine hmap.trans ?_
  cases hfold : ts.foldl (pick (fun t => threadState s t = stateReady) (threadVruntime s)) none with
  | none => rfl
  | some m =>
    have hm : m ≠ 0 := fun heq => h.1 (heq ▸ (firstLeast_of_foldl hfold).mem)
    simp [hm]

end Hvos.Sched
