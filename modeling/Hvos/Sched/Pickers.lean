import Hvos.Lib.Rotation
import Hvos.Sched.Consistency

/-!
# Sched/Pickers — round robin and CFS, the two ways to choose the next thread

`get_next_thread_rr` walks around the thread list from `next_id`, passes the idle thread, and takes
the first `READY` one: it chooses by turns (`Lib/Rotation`), so that a `READY` thread is taken
before any thread is taken twice.  Its loop counts in 32 bits: around a list of `2 ^ 32` threads
none of which can run, it never ends (`rr_fair_iff`).

`get_lowest_runtime` takes the first `READY` thread of least `vruntime`, and the idle thread
competes (`picks_busy_iff`).
-/

namespace Hvos.Sched.TaskList

open Rotation

/-! ## Round robin -/

/-- `list_get_at`. -/
def listGetAt (l : List ℕ) (at' : ℕ) : Option ℕ :=
  if at' ≥ l.length then none else (List.tail^[at'] l).head?

/-- The loop of `get_next_thread_rr`: the thread it returns, and `next_id`.  Nothing after so many
rounds if it is still in the loop. -/
def rrScan (s : TaskList) : ℕ → ℕ → ℕ → Option (Option ℕ × ℕ)
  | 0, _, _ => none
  | fuel + 1, checked, nextId =>
    if checked < s.threadList.length then
      let nextId := if nextId ≥ s.threadList.length then 0 else nextId
      match listGetAt s.threadList nextId with
      | none => none
      | some candidate =>
        if (s.thr candidate).name = "IDLE_THREAD" then
          rrScan s fuel ((checked + 1) % 2 ^ 32) (nextId + 1)
        else if (s.thr candidate).state = .ready then some (some candidate, nextId + 1)
        else rrScan s fuel ((checked + 1) % 2 ^ 32) (nextId + 1)
    else some (none, nextId)

/-- `get_next_thread_rr`, after so many rounds. -/
def getNextThreadRr (s : TaskList) (fuel nextId : ℕ) : Option (Option ℕ × ℕ) :=
  if s.threadList.length = 0 then some (none, nextId) else s.rrScan fuel 0 nextId

/-- **A call of `get_next_thread_rr` with this `next_id` returns**, with this thread and the next
`next_id`. -/
def RrReturns (s : TaskList) (nextId : ℕ) (r : Option ℕ × ℕ) : Prop :=
  ∃ fuel, s.getNextThreadRr fuel nextId = some r

/-- **The thread can run, and is not the idle one.** -/
def Eligible (s : TaskList) (t : ℕ) : Prop :=
  (s.thr t).name ≠ "IDLE_THREAD" ∧ (s.thr t).state = .ready

instance decidableEligible (s : TaskList) (t : ℕ) : Decidable (s.Eligible t) :=
  inferInstanceAs (Decidable (_ ∧ _))

/-- The same of a place of the list. -/
def EligibleAt (s : TaskList) (i : ℕ) : Prop := ∃ t, s.threadList[i]? = some t ∧ s.Eligible t

variable {s : TaskList} {fuel checked nextId i t : ℕ}

theorem listGetAt_eq (l : List ℕ) (i : ℕ) : listGetAt l i = l[i]? := by
  unfold listGetAt
  split_ifs with hlen
  · exact (List.getElem?_eq_none hlen).symm
  · rw [List.tail_iterate, List.head?_drop]

section Loop

variable (hcount : checked < s.threadList.length)
include hcount

/-- The loop looks at one place. -/
theorem rrScan_step : ∃ t, s.threadList[place s.threadList.length nextId]? = some t ∧
    s.rrScan (fuel + 1) checked nextId =
      if s.Eligible t then some (some t, place s.threadList.length nextId + 1)
      else s.rrScan fuel ((checked + 1) % 2 ^ 32) (place s.threadList.length nextId + 1) := by
  have hplace := place_lt (n := s.threadList.length) (c := nextId) (by omega)
  have hnext : (if nextId ≥ s.threadList.length then 0 else nextId) =
      place s.threadList.length nextId := by
    unfold place
    split_ifs <;> omega
  refine ⟨_, List.getElem?_eq_getElem hplace, ?_⟩
  rw [rrScan, if_pos hcount]
  simp only [hnext, listGetAt_eq, List.getElem?_eq_getElem hplace]
  split_ifs with hidle hcan hready hcan hcan
  · exact absurd hidle hcan.1
  · rfl
  · rfl
  · exact absurd ⟨hidle, hready⟩ hcan
  · exact absurd hcan.2 hready
  · rfl

/-- **A hit.** -/
theorem rrScan_hit (h : s.threadList[place s.threadList.length nextId]? = some t)
    (ht : s.Eligible t) :
    s.rrScan (fuel + 1) checked nextId = some (some t, place s.threadList.length nextId + 1) := by
  obtain ⟨u, hu, hstep⟩ := @rrScan_step s fuel checked nextId hcount
  obtain rfl : t = u := Option.mem_unique h hu
  rw [hstep, if_pos ht]

/-- **A miss.** -/
theorem rrScan_miss (h : ¬s.EligibleAt (place s.threadList.length nextId)) :
    s.rrScan (fuel + 1) checked nextId =
      s.rrScan fuel ((checked + 1) % 2 ^ 32) (place s.threadList.length nextId + 1) := by
  obtain ⟨u, hu, hstep⟩ := @rrScan_step s fuel checked nextId hcount
  rw [hstep, if_neg fun hu' => h ⟨u, hu, hu'⟩]

end Loop

/-- The places passed by misses alone. -/
theorem rrScan_walk {k : ℕ} (hk : k ≤ s.threadList.length)
    (hmiss : ∀ j < s.threadList.length, ahead s.threadList.length nextId j < k → ¬s.EligibleAt j) :
    s.rrScan (fuel + k) 0 nextId =
      s.rrScan fuel (k % 2 ^ 32) (walk s.threadList.length nextId k) := by
  induction k generalizing fuel with
  | zero => rfl
  | succ k ih =>
    have hcount : k % 2 ^ 32 < s.threadList.length := (Nat.mod_le ..).trans_lt hk
    have hplace := place_lt (n := s.threadList.length)
      (c := walk s.threadList.length nextId k) (by omega)
    have hat : ¬s.EligibleAt (place s.threadList.length (walk s.threadList.length nextId k)) :=
      hmiss _ hplace (by rw [ahead_walk hk]; exact Nat.lt_succ_self k)
    rw [show fuel + (k + 1) = fuel + 1 + k by omega,
      ih (by omega) fun j hj hlt => hmiss j hj (by omega), rrScan_miss hcount hat,
      Nat.mod_add_mod]
    rfl

/-- **A thread that can run is found**, the first from `next_id` on. -/
theorem rrReturns_of_first (h : First s.threadList.length s.EligibleAt nextId i) :
    ∃ t, s.threadList[i]? = some t ∧ s.Eligible t ∧ s.RrReturns nextId (some t, i + 1) := by
  obtain ⟨t, hi, ht⟩ := h.suitable
  refine ⟨t, hi, ht, 1 + ahead s.threadList.length nextId i, ?_⟩
  have hpos : s.threadList.length ≠ 0 := by have := h.lt; omega
  have hahead := ahead_lt (c := nextId) h.lt
  have hwalk : place s.threadList.length (walk s.threadList.length nextId
      (ahead s.threadList.length nextId i)) = i :=
    ahead_inj (place_lt (by omega)) h.lt (ahead_walk hahead)
  rw [getNextThreadRr, if_neg hpos, rrScan_walk hahead.le,
    rrScan_hit (t := t) ((Nat.mod_le ..).trans_lt hahead) (by rw [hwalk, hi]) ht, hwalk]
  exact fun j hj hlt hat => absurd (h.least j hj hat) (not_le.2 hlt)

section

variable (hnone : ∀ i < s.threadList.length, ¬s.EligibleAt i)
include hnone

/-- **If no thread can run, a short list is walked once around.** -/
theorem rrReturns_null (hshort : s.threadList.length < 2 ^ 32) :
    ∃ id, s.RrReturns nextId (none, id) := by
  by_cases hpos : s.threadList.length = 0
  · exact ⟨nextId, 0, if_pos hpos⟩
  refine ⟨walk s.threadList.length nextId s.threadList.length, 1 + s.threadList.length, ?_⟩
  rw [getNextThreadRr, if_neg hpos, rrScan_walk le_rfl fun j hj _ => hnone j hj,
    Nat.mod_eq_of_lt hshort, rrScan, if_neg (lt_irrefl _)]

/-- **A long list is walked for ever.** -/
theorem rrScan_endless (hlong : 2 ^ 32 ≤ s.threadList.length) (hchecked : checked < 2 ^ 32) :
    s.rrScan fuel checked nextId = none := by
  induction fuel generalizing checked nextId with
  | zero => rfl
  | succ fuel ih =>
    rw [rrScan_miss (hchecked.trans_le hlong) (hnone _ (place_lt (by omega)))]
    exact ih (Nat.mod_lt _ (by decide))

theorem not_rrReturns (hlong : 2 ^ 32 ≤ s.threadList.length) (r : Option ℕ × ℕ) :
    ¬s.RrReturns nextId r := by
  rintro ⟨fuel, hr⟩
  rw [getNextThreadRr, if_neg (by omega), rrScan_endless hnone hlong (by decide)] at hr
  cases hr

end

/-- More rounds change nothing. -/
theorem rrScan_mono {r : Option ℕ × ℕ} {more : ℕ} (h : s.rrScan fuel checked nextId = some r)
    (hle : fuel ≤ more) : s.rrScan more checked nextId = some r := by
  induction fuel generalizing checked nextId more with
  | zero => cases h
  | succ fuel ih =>
    obtain ⟨more, rfl⟩ : ∃ k, more = k + 1 := ⟨more - 1, by omega⟩
    by_cases hcount : checked < s.threadList.length
    · obtain ⟨t, ht, hstep⟩ := @rrScan_step s fuel checked nextId hcount
      obtain ⟨u, hu, hstep'⟩ := @rrScan_step s more checked nextId hcount
      obtain rfl : t = u := Option.mem_unique ht hu
      rw [hstep] at h
      rw [hstep']
      split_ifs at h ⊢
      · exact h
      · exact ih h (by omega)
    · rw [rrScan, if_neg hcount] at h ⊢
      exact h

/-- **A call returns in one way.** -/
theorem RrReturns.unique {r r' : Option ℕ × ℕ} (h : s.RrReturns nextId r)
    (h' : s.RrReturns nextId r') : r = r' := by
  obtain ⟨fuel, hr⟩ := h
  obtain ⟨fuel', hr'⟩ := h'
  unfold getNextThreadRr at hr hr'
  split_ifs at hr hr'
  · exact Option.mem_unique hr hr'
  · have hmax := rrScan_mono hr (le_max_left fuel fuel')
    have hmax' := rrScan_mono hr' (le_max_right fuel fuel')
    exact Option.mem_unique hmax hmax'

/-! ## Calls in a row -/

/-- **Calls of `get_next_thread_rr` in a row**: call `k` finds the thread states `ss k`, which may
have changed since the last one. -/
structure RrRun (ss : ℕ → TaskList) (start len : ℕ) where
  nextId : ℕ → ℕ
  picked : ℕ → Option ℕ
  starts : nextId 0 = start
  returns : ∀ k < len, (ss k).RrReturns (nextId k) (picked k, nextId (k + 1))

/-- **Between two selections of the same thread, every other thread that could run at all calls
since has been selected.** -/
def RrRun.Fair {ss : ℕ → TaskList} {start len : ℕ} (run : RrRun ss start len) : Prop :=
  ∀ a b t u, a < b → b < len → run.picked a = some t → run.picked b = some t →
    u ∈ (ss a).threadList → u ≠ t → (∀ k, a < k → k ≤ b → (ss k).Eligible u) →
    ∃ k, a < k ∧ k < b ∧ run.picked k = some u

/-- **Each call returns `NULL` exactly if no thread can run, and else one that can.** -/
def RrRun.Right {ss : ℕ → TaskList} {start len : ℕ} (run : RrRun ss start len) : Prop :=
  ∀ k < len, (run.picked k = none ↔ ∀ t ∈ (ss k).threadList, ¬(ss k).Eligible t) ∧
    ∀ t, run.picked k = some t → t ∈ (ss k).threadList ∧ (ss k).Eligible t

/-- A place that suits is a thread that can run. -/
theorem exists_eligibleAt : (∃ i < s.threadList.length, s.EligibleAt i) ↔
    ∃ t ∈ s.threadList, s.Eligible t := by
  constructor
  · rintro ⟨i, -, t, hi, ht⟩
    exact ⟨t, List.mem_of_getElem? hi, ht⟩
  · rintro ⟨t, hmem, ht⟩
    obtain ⟨i, hi⟩ := List.getElem?_of_mem hmem
    exact ⟨i, (List.getElem?_eq_some_iff.1 hi).1, t, hi, ht⟩

/-- **What a call returns.** -/
theorem RrReturns.spec {r : Option ℕ} {id : ℕ} (h : s.RrReturns nextId (r, id)) :
    (∃ i t, First s.threadList.length s.EligibleAt nextId i ∧ s.threadList[i]? = some t ∧
      s.Eligible t ∧ r = some t ∧ id = i + 1) ∨
      r = none ∧ ∀ i < s.threadList.length, ¬s.EligibleAt i := by
  by_cases hsome : ∃ i < s.threadList.length, s.EligibleAt i
  · obtain ⟨i, hfirst⟩ := exists_first (c := nextId) hsome
    obtain ⟨t, hi, ht, hreturns⟩ := rrReturns_of_first hfirst
    obtain ⟨rfl, rfl⟩ := Prod.mk.inj (h.unique hreturns)
    exact .inl ⟨i, t, hfirst, hi, ht, rfl, rfl⟩
  · have hnone : ∀ i < s.threadList.length, ¬s.EligibleAt i := fun i hi hat => hsome ⟨i, hi, hat⟩
    rcases Nat.lt_or_ge s.threadList.length (2 ^ 32) with hshort | hlong
    · obtain ⟨id', hreturns⟩ := @rrReturns_null s nextId hnone hshort
      obtain ⟨rfl, rfl⟩ := Prod.mk.inj (h.unique hreturns)
      exact .inr ⟨rfl, hnone⟩
    · exact absurd h (not_rrReturns hnone hlong _)

/-- A call returns exactly if a thread can run or the list is short. -/
theorem exists_rrReturns (s : TaskList) (nextId : ℕ) : (∃ r, s.RrReturns nextId r) ↔
    s.threadList.length < 2 ^ 32 ∨ ∃ t ∈ s.threadList, s.Eligible t := by
  rw [← exists_eligibleAt]
  by_cases hsome : ∃ i < s.threadList.length, s.EligibleAt i
  · obtain ⟨i, hfirst⟩ := exists_first (c := nextId) hsome
    obtain ⟨t, -, -, hreturns⟩ := rrReturns_of_first hfirst
    exact iff_of_true ⟨_, hreturns⟩ (.inr hsome)
  · have hnone : ∀ i < s.threadList.length, ¬s.EligibleAt i := fun i hi hat => hsome ⟨i, hi, hat⟩
    constructor
    · rintro ⟨r, hr⟩
      by_contra hlong
      exact not_rrReturns hnone (not_lt.1 fun hlt => hlong (.inl hlt)) r hr
    · rintro (hshort | hat)
      · obtain ⟨id, hreturns⟩ := @rrReturns_null s nextId hnone hshort
        exact ⟨_, hreturns⟩
      · exact absurd hat hsome

section Runs

variable {L : List ℕ} {ss : ℕ → TaskList} {start len : ℕ}

theorem RrRun.right (run : RrRun ss start len) : run.Right := by
  intro k hk
  have hnone : (∀ t ∈ (ss k).threadList, ¬(ss k).Eligible t) ↔
      ¬∃ i < (ss k).threadList.length, (ss k).EligibleAt i := by
    rw [exists_eligibleAt]
    push Not
    rfl
  rw [hnone]
  rcases (run.returns k hk).spec with ⟨i, t, hfirst, hi, ht, hpicked, -⟩ | ⟨hpicked, hall⟩
  · rw [hpicked]
    refine ⟨iff_of_false (by simp) (not_not.2 ⟨i, hfirst.lt, hfirst.suitable⟩), fun u hu => ?_⟩
    cases hu
    exact ⟨List.mem_of_getElem? hi, ht⟩
  · rw [hpicked]
    refine ⟨iff_of_true rfl ?_, by simp⟩
    rintro ⟨i, hi, hat⟩
    exact hall i hi hat

/-- The place of the thread a call picked. -/
def RrRun.taken (run : RrRun ss start len) (k : ℕ) : Option ℕ :=
  (run.picked k).map (ss k).threadList.idxOf

/-- **The calls choose by turns.** -/
theorem RrRun.turns (run : RrRun ss start len) (hnodup : L.Nodup) (hL : ∀ k, (ss k).threadList = L) :
    Turns L.length (fun k => (ss k).EligibleAt) run.nextId run.taken len := by
  refine ⟨fun k hk i htaken => ?_, fun k hk htaken => ?_⟩
  · rcases (run.returns k hk).spec with ⟨j, t, hfirst, hj, -, hpicked, hid⟩ | ⟨hpicked, -⟩
    · rw [hL] at hfirst hj
      obtain ⟨hlt, rfl⟩ := List.getElem?_eq_some_iff.1 hj
      rw [taken, hpicked, Option.map_some, hL, hnodup.idxOf_getElem] at htaken
      cases htaken
      exact ⟨hfirst, hid⟩
    · rw [taken, hpicked] at htaken
      cases htaken
  · rcases (run.returns k hk).spec with ⟨j, t, -, -, -, hpicked, -⟩ | ⟨-, hall⟩
    · rw [taken, hpicked] at htaken
      cases htaken
    · rw [hL] at hall
      exact hall

theorem RrRun.fair (run : RrRun ss start len) (hnodup : L.Nodup)
    (hL : ∀ k, (ss k).threadList = L) : run.Fair := by
  intro a b t u hab hb ha hb' hu hne heligible
  rw [hL] at hu
  have ht : t ∈ L := hL a ▸ (run.right a (hab.trans hb)).2 t ha |>.1
  have htaken : ∀ k v, run.picked k = some v → run.taken k = some (L.idxOf v) := by
    intro k v hv
    rw [RrRun.taken, hv, Option.map_some, hL]
  have hplace : L[L.idxOf u]? = some u := List.getElem?_idxOf hu
  obtain ⟨k, hak, hkb, hk⟩ := (run.turns hnodup hL).fair hab hb (htaken a t ha) (htaken b t hb')
    (List.idxOf_lt_length_iff.2 hu) (fun heq => hne (List.idxOf_inj hu |>.1 heq))
    fun k hak hkb => ⟨u, hL k ▸ hplace, heligible k hak hkb⟩
  refine ⟨k, hak, hkb, ?_⟩
  rw [RrRun.taken, Option.map_eq_some_iff] at hk
  obtain ⟨v, hv, hidx⟩ := hk
  have hvL : v ∈ L := hL k ▸ ((run.right k (hkb.trans hb)).2 v hv).1
  rw [hv, (List.idxOf_inj hvL).1 (hL k ▸ hidx)]

/-- Calls that return make a run. -/
theorem nonempty_rrRun (h : ∀ k < len, ∀ id, ∃ r, (ss k).RrReturns id r) :
    Nonempty (RrRun ss start len) := by
  have hreturns : ∀ k id, ∃ r, k < len → (ss k).RrReturns id r := by
    intro k id
    by_cases hk : k < len
    · obtain ⟨r, hr⟩ := h k hk id
      exact ⟨r, fun _ => hr⟩
    · exact ⟨(none, 0), fun hlt => absurd hlt hk⟩
  choose call hcall using hreturns
  let nextId : ℕ → ℕ := fun k => Nat.rec start (fun k id => (call k id).2) k
  exact ⟨⟨nextId, fun k => (call k (nextId k)).1, rfl, fun k hk => hcall k (nextId k) hk⟩⟩

/-- **Round robin is fair and right exactly if every call ends**: if the list has fewer than `2 ^
32` threads, or at every call some thread can run. -/
theorem rr_fair_iff (hnodup : L.Nodup) (hL : ∀ k, (ss k).threadList = L) (start len : ℕ) :
    (Nonempty (RrRun ss start len) ∧ ∀ run : RrRun ss start len, run.Fair ∧ run.Right) ↔
      L.length < 2 ^ 32 ∨ ∀ k < len, ∃ t ∈ L, (ss k).Eligible t := by
  constructor
  · rintro ⟨⟨run⟩, -⟩
    by_contra hends
    push Not at hends
    obtain ⟨hlong, k, hk, hnone⟩ := hends
    rcases (exists_rrReturns (ss k) _).1 ⟨_, run.returns k hk⟩ with hshort | ⟨t, ht, hcan⟩
    · rw [hL] at hshort
      omega
    · exact hnone t (hL k ▸ ht) hcan
  · intro hends
    refine ⟨nonempty_rrRun fun k hk id => (exists_rrReturns _ _).2 ?_,
      fun run => ⟨run.fair hnodup hL, run.right⟩⟩
    rw [hL]
    exact hends.imp_right fun hcan => hcan k hk

end Runs

/-! ## The two pickers and the idle thread -/

/-- `SCH_ALG`: the algorithm `get_next_thread` is built with. -/
inductive SchAlg
  | rr
  | cfs
  deriving DecidableEq

/-- **`get_next_thread` returns `t`**, built with one of the algorithms. -/
def Picks (s : TaskList) (nextId : ℕ) : SchAlg → ℕ → Prop
  | .rr, t => ∃ id, s.RrReturns nextId (some t, id)
  | .cfs, t => s.getLowestRuntime = some t

/-- `t` comes before `u` for `get_lowest_runtime`: less `vruntime`, or the same and listed first. -/
def Leads (s : TaskList) (t u : ℕ) : Prop :=
  (s.thr t).vruntime < (s.thr u).vruntime ∨
    (s.thr t).vruntime = (s.thr u).vruntime ∧ s.threadList.idxOf t < s.threadList.idxOf u

/-- **`get_lowest_runtime` takes the first thread of least `vruntime`.** -/
theorem getLowestRuntime_least {m u : ℕ} (h : s.getLowestRuntime = some m) (hu : u ∈ s.threadList)
    (hready : (s.thr u).state = .ready) : (s.thr m).vruntime < (s.thr u).vruntime ∨
      (s.thr m).vruntime = (s.thr u).vruntime ∧
        s.threadList.idxOf m ≤ s.threadList.idxOf u := by
  rw [UInt64.lt_iff_toNat_lt, ← UInt64.toNat_inj]
  exact (getLowestRuntime_firstLeast h).lt_or_idxOf_le hu hready

/-- **The idle thread runs only when nothing else can, with both algorithms, exactly if** some
thread that can run comes before every idle thread that is `READY`. -/
theorem picks_busy_iff (hbusy : ∃ t ∈ s.threadList, s.Eligible t) (nextId : ℕ) :
    (∀ alg, ∃ t ∈ s.threadList, s.Picks nextId alg t ∧ s.Eligible t) ↔
      ∃ t ∈ s.threadList, s.Eligible t ∧ ∀ u ∈ s.threadList, (s.thr u).name = "IDLE_THREAD" →
        (s.thr u).state = .ready → s.Leads t u := by
  constructor
  · intro h
    obtain ⟨t, ht, hpick, hcan⟩ := h .cfs
    refine ⟨t, ht, hcan, fun u hu hidle hready => ?_⟩
    rcases getLowestRuntime_least hpick hu hready with hlt | ⟨heq, hle⟩
    · exact .inl hlt
    · refine .inr ⟨heq, lt_of_le_of_ne hle fun hidx => hcan.1 ?_⟩
      rw [(List.idxOf_inj ht).1 hidx, hidle]
  · rintro ⟨t, ht, hcan, hleads⟩ alg
    cases alg with
    | rr =>
      obtain ⟨i, hfirst⟩ := exists_first (c := nextId) (exists_eligibleAt.2 hbusy)
      obtain ⟨u, hi, hu, hreturns⟩ := rrReturns_of_first hfirst
      exact ⟨u, List.mem_of_getElem? hi, ⟨_, hreturns⟩, hu⟩
    | cfs =>
      cases hpick : s.getLowestRuntime with
      | none => exact absurd hcan.2 (not_ready_of_getLowestRuntime hpick ht)
      | some m =>
        obtain ⟨hm, hready⟩ := getLowestRuntime_ready hpick
        refine ⟨m, hm, hpick, fun hidle => ?_, hready⟩
        rcases hleads m hm hidle hready with hlt | ⟨heq, hidx⟩
        · rcases getLowestRuntime_least hpick ht hcan.2 with hlt' | ⟨heq', -⟩
          · exact absurd hlt (UInt64.lt_asymm hlt')
          · exact absurd (heq' ▸ hlt) (UInt64.lt_irrefl _)
        · rcases getLowestRuntime_least hpick ht hcan.2 with hlt' | ⟨-, hle⟩
          · exact absurd (heq ▸ hlt') (UInt64.lt_irrefl _)
          · exact absurd hidx (not_lt.2 hle)

/-- A new process, once the clock has ticked for its thread. -/
def tickedOnce : TaskList :=
  ((initMultitasking zeroBoot).newElfProcess mainTid ⟨0x2000, 0xb000, "", 0⟩).modThread 2
    fun th => { th with vruntime := 1 }

theorem eligible_tickedOnce : tickedOnce.Eligible 2 := by decide

/-- **The idle thread goes first**: it has never been charged for a tick. -/
theorem idle_goes_first : tickedOnce.Eligible 2 ∧ 2 ∈ tickedOnce.threadList ∧
    tickedOnce.getLowestRuntime = some 1 ∧ (tickedOnce.thr 1).name = "IDLE_THREAD" := by
  decide

/-- The same after a switch to the idle thread, which is then `RUNNING`. -/
def idleRuns : TaskList := (tickedOnce.switchTo mainTid idleTid).2

/-- Both algorithms now take a thread that can run. -/
theorem picks_busy_iff_idleRuns :
    (∃ t ∈ idleRuns.threadList, idleRuns.Picks 0 .rr t ∧ idleRuns.Eligible t) ∧
      ∃ t ∈ idleRuns.threadList, idleRuns.Picks 0 .cfs t ∧ idleRuns.Eligible t := by
  have hpicks := (picks_busy_iff (s := idleRuns) ⟨2, by decide, by decide⟩ 0).2
    ⟨2, by decide, by decide, by unfold Leads; decide⟩
  exact ⟨hpicks .rr, hpicks .cfs⟩

/-- So many threads, all waiting. -/
def crowd (n : ℕ) : TaskList :=
  { initMultitasking zeroBoot with
    threadList := List.range n
    thr := fun _ => { (initMultitasking zeroBoot).thr mainTid with state := .waiting } }

theorem length_crowd (n : ℕ) : (crowd n).threadList.length = n := List.length_range

theorem not_eligible_crowd (n t : ℕ) : ¬(crowd n).Eligible t := by
  rintro ⟨-, hready⟩
  cases hready

/-- **`2 ^ 32` threads, none of which can run**: the call does not return. -/
theorem crowd_never_returns : (∀ t ∈ (crowd (2 ^ 32)).threadList, ¬(crowd (2 ^ 32)).Eligible t) ∧
    ∀ r, ¬(crowd (2 ^ 32)).RrReturns 0 r := by
  refine ⟨fun t _ => not_eligible_crowd _ t, not_rrReturns ?_ ?_⟩
  · rintro i - ⟨t, -, ht⟩
    exact not_eligible_crowd _ t ht
  · exact (length_crowd (2 ^ 32)).ge

/-- Two new processes, each with a thread that can run. -/
def twoProcs : TaskList :=
  ((initMultitasking zeroBoot).newElfProcess mainTid firstProc).newElfProcess mainTid firstProc

/-- **Four calls take the two threads by turns.** -/
theorem rr_fair_iff_twoProcs : twoProcs.Eligible 2 ∧ twoProcs.Eligible 3 ∧
    Nonempty (RrRun (fun _ => twoProcs) 0 4) ∧
      ∀ run : RrRun (fun _ => twoProcs) 0 4, run.Fair ∧ run.Right := by
  have hends : twoProcs.threadList.length < 2 ^ 32 := by decide
  exact ⟨by decide, by decide, (rr_fair_iff (by decide) (fun _ => rfl) 0 4).2 (.inl hends)⟩

end Hvos.Sched.TaskList
