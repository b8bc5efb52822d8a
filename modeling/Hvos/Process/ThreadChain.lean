import Hvos.Memory.HeapFields

/-!
# Process/ThreadChain — unlinking a thread from its process

`remove_thread_from_process` walks the chain `primary`, `next`, … with a pointer to the thread
before, and writes only through that one.  So it unlinks every thread but the primary one, which has
none before it: `process->primary` is never assigned, and after `free_thread` it points to a freed
block (`unlinks_iff`).
-/

namespace Hvos.Process

open Memory Bytes Blocks Prog

/-! ## `thread_t` and `process_t` -/

/-- `thread->tid`. -/
@[irreducible] def threadTid (s : Mem) (t : ℕ) : ℕ := load s.heapBytes t 8

/-- `thread->process`. -/
@[irreducible] def threadProcess (s : Mem) (t : ℕ) : ℕ := load s.heapBytes (t + 80) 8

/-- `thread->next`. -/
@[irreducible] def threadNext (s : Mem) (t : ℕ) : ℕ := load s.heapBytes (t + 88) 8

/-- `process->primary`. -/
@[irreducible] def processPrimary (s : Mem) (p : ℕ) : ℕ := load s.heapBytes (p + 304) 8

/-- `thread->next = v`. -/
def setThreadNext (s : Mem) (t v : ℕ) : Mem := s.storeHeap (t + 88) v

/-! ## `thread.c` -/

/-- The loop of `remove_thread_from_process`: the pointers `prev`, `head` and `next` it is left
with. Nothing after so many threads if it is still in the loop. -/
def chase (s : Mem) (tid : ℕ) : ℕ → ℕ → ℕ → ℕ → Option (ℕ × ℕ × ℕ)
  | 0, _, _, _ => none
  | fuel + 1, prev, head, next =>
    if threadNext s head ≠ 0 ∧ threadTid s head ≠ tid then
      chase s tid fuel head next (threadNext s next)
    else some (prev, head, next)

/-- `remove_thread_from_process`.  The null pointer is not to be read through. -/
def removeThreadFromProcess (t : ℕ) : Prog Mem Unit := do
  let process ← Prog.read fun s => threadProcess s t
  if process = 0 then pure ()
  else
    let primary ← Prog.read fun s => processPrimary s process
    if primary = 0 then Prog.halt
    else
      let tid ← Prog.read fun s => threadTid s t
      match ← Prog.read fun s => chase s tid (blockLimit s) 0 primary (threadNext s primary) with
      | none => Prog.halt
      | some (prev, head, next) =>
        let found ← Prog.read fun s => threadTid s head
        if found ≠ tid then pure ()
        else if next ≠ 0 ∧ prev ≠ 0 then
          Prog.modify fun s => setThreadNext s prev (threadNext s head)
        else if prev ≠ 0 then Prog.modify fun s => setThreadNext s prev 0
        else pure ()

/-- `free_thread`. -/
def freeThread (t : ℕ) : Prog Mem Unit := do
  removeThreadFromProcess t
  Prog.modify fun s => s.kfree t

/-! ## Chains of threads -/

variable {s s' : Mem} {A : Set ℕ} {proc t u b k prev head : ℕ} {ts as cs : List ℕ}

/-- **The threads `ts` of the process `proc`**, in the order of its chain: each in a block of its
own, with a `tid` of its own. -/
structure ThreadChain (s : Mem) (proc : ℕ) (ts : List ℕ) : Prop where
  process : Memory.InUse s proc 312
  threads : ∀ t ∈ ts, Memory.InUse s t 96
  owner : ∀ t ∈ ts, threadProcess s t = proc
  linked : Linked (threadNext s) (processPrimary s proc) ts
  tids : (ts.map (threadTid s)).Nodup
  apart : proc ∉ ts

theorem ThreadChain.nodup (h : ThreadChain s proc ts) : ts.Nodup := List.Nodup.of_map _ h.tids

section Fields

variable (h : Spares A s s') (ht : t ∉ A) (hu : Memory.InUse s t 96)
include h ht hu

theorem threadTid_spares : threadTid s' t = threadTid s t := by
  unfold threadTid
  exact h.load (o := 0) ht hu (by decide)

theorem threadProcess_spares : threadProcess s' t = threadProcess s t := by
  unfold threadProcess
  exact h.load ht hu (by decide)

theorem threadNext_spares : threadNext s' t = threadNext s t := by
  unfold threadNext
  exact h.load ht hu (by decide)

end Fields

theorem processPrimary_spares (h : Spares A s s') (hp : proc ∉ A) (hu : Memory.InUse s proc 312) :
    processPrimary s' proc = processPrimary s proc := by
  unfold processPrimary
  exact h.load hp hu (by decide)

/-- What leaves the blocks of a chain alone leaves the chain alone. -/
theorem ThreadChain.spares (h : ThreadChain s proc ts) (hsp : Spares A s s')
    (hA : ∀ q ∈ proc :: ts, q ∉ A) : ThreadChain s' proc ts := by
  obtain ⟨hproc, hts⟩ := List.forall_mem_cons.1 hA
  have htids : ts.map (threadTid s') = ts.map (threadTid s) :=
    List.map_congr_left fun t ht => threadTid_spares hsp (hts t ht) (h.threads t ht)
  refine ⟨hsp.inUse hproc h.process, fun t ht => hsp.inUse (hts t ht) (h.threads t ht),
    fun t ht => ?_, ?_, htids ▸ h.tids, h.apart⟩
  · rw [threadProcess_spares hsp (hts t ht) (h.threads t ht), h.owner t ht]
  · rw [processPrimary_spares hsp hproc h.process]
    exact h.linked.congr fun t ht => threadNext_spares hsp (hts t ht) (h.threads t ht)

theorem threadNext_lt (s : Mem) (t : ℕ) : threadNext s t < 2 ^ 64 := by
  unfold threadNext
  exact load_lt

/-- `thread->next = v` for a thread. -/
theorem setThreadNext_spec {v : ℕ} (hs : Healthy s) (hb : Memory.InUse s b 96) (hv : v < 2 ^ 64) :
    Healthy (setThreadNext s b v) ∧ Spares {b} s (setThreadNext s b v) ∧
      Memory.InUse (setThreadNext s b v) b 96 ∧ threadNext (setThreadNext s b v) b = v ∧
      threadTid (setThreadNext s b v) b = threadTid s b ∧
      threadProcess (setThreadNext s b v) b = threadProcess s b := by
  obtain ⟨hs', hsp, hu⟩ := hs.storeHeap (o := 88) hb (by decide) v
  unfold threadNext threadTid threadProcess
  exact ⟨hs', hsp, hu, load_storeHeap_self hv, load_storeHeap_of_disjoint (.inr (by omega)),
    load_storeHeap_of_disjoint (.inr le_rfl)⟩

/-! ## The walk -/

/-- **The loop stops at the thread it looks for**, with the one in front of it. -/
theorem chase_eq (h : Linked (threadNext s) head (as ++ t :: cs))
    (htid : ∀ a ∈ as, threadTid s a ≠ threadTid s t) (hk : as.length < k) :
    chase s (threadTid s t) k prev head (threadNext s head) =
      some (as.getLast?.getD prev, t, threadNext s t) := by
  induction as generalizing head prev k with
  | nil =>
    obtain ⟨k, rfl⟩ : ∃ j, k = j + 1 := ⟨k - 1, by simp at hk; omega⟩
    obtain ⟨rfl, -⟩ := h
    rw [chase, if_neg (by simp)]
    rfl
  | cons a as ih =>
    obtain ⟨k, rfl⟩ : ∃ j, k = j + 1 := ⟨k - 1, by simp at hk; omega⟩
    obtain ⟨rfl, -, h⟩ := h
    have hnext : threadNext s head ≠ 0 := by
      cases as with
      | nil =>
        obtain ⟨heq, hne, -⟩ := h
        rwa [heq]
      | cons c as =>
        obtain ⟨heq, hne, -⟩ := h
        rwa [heq]
    rw [chase, if_pos ⟨hnext, htid head List.mem_cons_self⟩,
      ih h (fun a ha => htid a (List.mem_cons_of_mem _ ha)) (by simpa using hk),
      List.getLast?_cons, Option.getD_some]

/-- The thread before is found by its place. -/
theorem ThreadChain.tid_ne (h : ThreadChain s proc (as ++ t :: cs)) :
    ∀ a ∈ as, threadTid s a ≠ threadTid s t := by
  intro a ha heq
  have htids := h.tids
  rw [List.map_append, List.map_cons, List.nodup_middle, List.nodup_cons, ← heq] at htids
  exact htids.1 (List.mem_append_left _ (List.mem_map_of_mem ha))

/-- **`remove_thread_from_process`** of a thread behind `as`: the thread in front of it, if there is
one, gets its `next`. -/
theorem ThreadChain.remove_eq (h : ThreadChain s proc (as ++ t :: cs)) (hs : Healthy s) :
    removeThreadFromProcess t s = .done ()
      (if as.getLast?.getD 0 ≠ 0 then setThreadNext s (as.getLast?.getD 0) (threadNext s t)
        else s) := by
  have hmem : t ∈ as ++ t :: cs := by simp
  have hlen := (hs.length_lt h.nodup h.threads).1
  have hproc : proc ≠ 0 := h.process.ne_zero
  have hprimary : processPrimary s proc ≠ 0 := by
    have hlinked := h.linked
    cases as with
    | nil =>
      obtain ⟨heq, hne, -⟩ := hlinked
      rwa [heq]
    | cons a as =>
      obtain ⟨heq, hne, -⟩ := hlinked
      rwa [heq]
  have hchase : chase s (threadTid s t) (blockLimit s) 0 (processPrimary s proc)
      (threadNext s (processPrimary s proc)) = some (as.getLast?.getD 0, t, threadNext s t) :=
    chase_eq h.linked h.tid_ne (by simp at hlen; omega)
  simp only [removeThreadFromProcess, bind_apply, read_apply, h.owner t hmem, if_neg hproc,
    if_neg hprimary, hchase, ne_eq, not_true_eq_false, if_false]
  by_cases hprev : as.getLast?.getD 0 = 0
  · simp [hprev]
  · by_cases hnext : threadNext s t = 0
    · simp [hprev, hnext]
    · simp [hprev, hnext]

/-! ## When a thread is unlinked -/

/-- **The thread is unlinked**: `remove_thread_from_process` leaves the chain without it, in the
same order, and so does `free_thread`, after which its block is not in use and those of the others
are. -/
def Unlinks (s : Mem) (proc : ℕ) (ts : List ℕ) (t : ℕ) : Prop :=
  Ensures (removeThreadFromProcess t) s
      (fun _ s' => Linked (threadNext s') (processPrimary s' proc) (ts.erase t)) (fun _ => False) ∧
    Ensures (freeThread t) s
      (fun _ s' => Linked (threadNext s') (processPrimary s' proc) (ts.erase t) ∧
        (∀ m, ¬Memory.InUse s' t m) ∧ ∀ u ∈ ts.erase t, u ≠ t ∧ Memory.InUse s' u 96) (fun _ => False)

/-- The first thread stays in the chain. -/
theorem ThreadChain.not_unlinks (h : ThreadChain s proc (t :: cs)) (hs : Healthy s) :
    ¬Unlinks s proc (t :: cs) t := by
  rintro ⟨hremove, -⟩
  have hlinked := hremove.apply ((show ThreadChain s proc ([] ++ t :: cs) from h).remove_eq hs)
  rw [if_neg (by simp), List.erase_cons_head] at hlinked
  have heq := congrArg List.length (h.linked.unique hlinked)
  simp at heq

/-- **A thread is cut out** by the `next` of the one in front of it. -/
theorem ThreadChain.cut (h : ThreadChain s proc (as ++ b :: t :: cs)) (hs : Healthy s) :
    Healthy (setThreadNext s b (threadNext s t)) ∧
      ThreadChain (setThreadNext s b (threadNext s t)) proc (as ++ b :: cs) ∧
      Memory.InUse (setThreadNext s b (threadNext s t)) t 96 ∧ t ∉ as ++ b :: cs := by
  obtain ⟨hs', hsp, hu, hnext, htid, hprocess⟩ :=
    setThreadNext_spec hs (h.threads b (by simp)) (threadNext_lt s t)
  generalize setThreadNext s b (threadNext s t) = s1 at hs' hsp hu hnext htid hprocess ⊢
  have hsub : (as ++ b :: cs).Sublist (as ++ b :: t :: cs) :=
    List.Sublist.append_left ((List.sublist_cons_self t cs).cons_cons b) as
  have hnodup := h.nodup
  rw [List.append_cons, List.nodup_middle, List.nodup_cons, ← List.append_cons] at hnodup
  have hproc : proc ≠ b := fun heq => h.apart (by simp [heq])
  have hfields : ∀ u ∈ as ++ b :: cs, Memory.InUse s1 u 96 ∧ threadTid s1 u = threadTid s u ∧
      threadProcess s1 u = threadProcess s u := by
    intro u hmem
    by_cases hub : u = b
    · rw [hub]
      exact ⟨hu, htid, hprocess⟩
    · have hin := h.threads u (hsub.subset hmem)
      exact ⟨hsp.inUse hub hin, threadTid_spares hsp hub hin, threadProcess_spares hsp hub hin⟩
  refine ⟨hs', ⟨hsp.inUse hproc h.process, fun u hu => (hfields u hu).1, fun u hu => ?_, ?_, ?_,
    fun hmem => h.apart (hsub.subset hmem)⟩, ?_, hnodup.1⟩
  · rw [(hfields u hu).2.2, h.owner u (hsub.subset hu)]
  · rw [processPrimary_spares hsp hproc h.process]
    refine h.linked.unlink (fun u hu => ?_) hnext
    have hrest := hnodup.2
    rw [List.nodup_middle, List.nodup_cons] at hrest
    have hub : u ∉ ({b} : Set ℕ) := fun heq => hrest.1 (Set.mem_singleton_iff.1 heq ▸ hu)
    have hmem : u ∈ as ++ b :: cs := ((List.sublist_cons_self b cs).append_left as).subset hu
    exact threadNext_spares hsp hub (h.threads u (hsub.subset hmem))
  · rw [List.map_congr_left fun u hu => (hfields u hu).2.1]
    exact h.tids.sublist (hsub.map _)
  · refine hsp.inUse (fun htb => hnodup.1 ?_) (h.threads t (by simp))
    simp [Set.mem_singleton_iff.1 htb]

theorem erase_behind (h : t ∉ as ++ b :: cs) : (as ++ b :: t :: cs).erase t = as ++ b :: cs := by
  simp only [List.mem_append, List.mem_cons, not_or] at h
  rw [List.erase_append_right _ h.1, List.erase_cons_tail (by simpa using Ne.symm h.2.1),
    List.erase_cons_head]

/-- Every other thread is unlinked. -/
theorem ThreadChain.unlinks (h : ThreadChain s proc (as ++ b :: t :: cs)) (hs : Healthy s) :
    Unlinks s proc (as ++ b :: t :: cs) t := by
  have hremove := (show ThreadChain s proc ((as ++ [b]) ++ t :: cs) by simpa using h).remove_eq hs
  simp only [List.getLast?_append, List.getLast?_singleton, Option.some_or, Option.getD_some,
    if_pos (h.threads b (by simp)).ne_zero] at hremove
  obtain ⟨hs1, h1, ht, hout⟩ := h.cut hs
  unfold Unlinks
  rw [erase_behind hout]
  refine ⟨ensures_of_done hremove h1.linked,
    ensures_bind (ensures_of_done hremove (ensures_modify ?_))⟩
  obtain ⟨-, hsp2, hfree, -⟩ := hs1.kfree ht
  have hne : ∀ u ∈ as ++ b :: cs, u ≠ t := fun u hu heq => hout (heq ▸ hu)
  have hproc : proc ≠ t := fun heq => h.apart (by simp [heq])
  have h2 := h1.spares hsp2 (List.forall_mem_cons.2 ⟨hproc, hne⟩)
  exact ⟨h2.linked, hfree, fun u hu => ⟨hne u hu, h2.threads u hu⟩⟩

/-- **A thread is unlinked exactly if it is not the primary one.** -/
theorem unlinks_iff (hs : Healthy s) (h : ThreadChain s proc ts) (ht : t ∈ ts) :
    Unlinks s proc ts t ↔ t ≠ processPrimary s proc := by
  obtain ⟨as, cs, rfl⟩ := List.append_of_mem ht
  rcases List.eq_nil_or_concat as with rfl | ⟨as, b, rfl⟩
  · exact iff_of_false (h.not_unlinks hs) fun hne => hne h.linked.1.symm
  · rw [List.concat_eq_append, List.append_assoc, List.singleton_append] at h ⊢
    refine iff_of_true (h.unlinks hs) fun heq => ?_
    have hnodup := h.nodup
    rw [List.append_cons, List.nodup_middle, List.nodup_cons, ← List.append_cons] at hnodup
    have hhead : processPrimary s proc ∈ as ++ b :: cs := by
      have hlinked := h.linked
      cases as with
      | nil =>
        obtain ⟨hb, -⟩ := hlinked
        simp [hb]
      | cons a as =>
        obtain ⟨ha, -⟩ := hlinked
        simp [ha]
    exact hnodup.1 (heq ▸ hhead)

/-! ## A process with two threads -/

/-- The fields of a thread: `tid`, `process` and `next`. -/
def Mem.thread (s : Mem) (t tid proc next : ℕ) : Mem :=
  ((s.storeHeap (t + 0) tid).storeHeap (t + 80) proc).storeHeap (t + 88) next

/-- A process with a primary thread, of `tid` 1, and another, of `tid` 2. -/
def twoThreads : Prog Mem (ℕ × ℕ × ℕ) := do
  heapInit
  let proc ← kzalloc 312
  let t ← kzalloc 96
  let u ← kzalloc 96
  Prog.modify fun s =>
    Mem.thread (Mem.thread (s.storeHeap (proc + 304) t) t 1 proc u) u 2 proc 0
  pure (proc, t, u)

theorem twoThreads_blocks : Ensures twoThreads sixFrames
    (fun r s => Healthy s ∧ Memory.InUse s r.1 312 ∧ Memory.InUse s r.2.1 96 ∧
      Memory.InUse s r.2.2 96) (fun _ => True) := by
  refine (heapInit_healthy (by decide +kernel)).bind fun _ s0 hs0 => ?_
  refine (hs0.kzalloc (by decide) (by decide)).bind_true fun p s1 hp => ?_
  refine (hp.healthy.kzalloc (by decide) (by decide)).bind_true fun t s2 ht => ?_
  refine (ht.healthy.kzalloc (by decide) (by decide)).bind_true fun u s3 hu => ?_
  refine ensures_modify_bind (ensures_pure ?_)
  have ht3 := hu.spares.inUse (Set.notMem_empty t) ht.block
  have hp3 := hu.spares.inUse (Set.notMem_empty p) (ht.spares.inUse (Set.notMem_empty p) hp.block)
  obtain ⟨hs4, hkeep4⟩ := hu.healthy.fields hp3 [(304, t)] (by simp)
  obtain ⟨hs5, hkeep5⟩ := hs4.fields (hkeep4 t 96 ht3) [(0, 1), (80, p), (88, u)] (by simp)
  obtain ⟨hs6, hkeep6⟩ := hs5.fields (hkeep5 u 96 (hkeep4 u 96 hu.block)) [(0, 2), (80, p), (88, 0)]
    (by simp)
  exact ⟨hs6, hkeep6 p _ (hkeep5 p _ (hkeep4 p _ hp3)), hkeep6 t _ (hkeep5 t _ (hkeep4 t _ ht3)),
    hkeep6 u _ (hkeep5 u _ (hkeep4 u _ hu.block))⟩

theorem twoThreads_fields : Ensures twoThreads sixFrames
    (fun r s => processPrimary s r.1 = r.2.1 ∧ threadNext s r.2.1 = r.2.2 ∧ threadNext s r.2.2 = 0 ∧
      threadProcess s r.2.1 = r.1 ∧ threadProcess s r.2.2 = r.1 ∧
      threadTid s r.2.1 = 1 ∧ threadTid s r.2.2 = 2 ∧ r.1 ≠ r.2.1 ∧ r.1 ≠ r.2.2)
    (fun _ => False) := by
  decide +kernel

/-- The second thread can be freed. -/
theorem unlinks_iff_second : ∃ s proc t u, Healthy s ∧ ThreadChain s proc [t, u] ∧
    Unlinks s proc [t, u] u := by
  obtain ⟨⟨proc, t, u⟩, s, hrun, hfields⟩ := twoThreads_fields.done
  obtain ⟨hs, hp, ht, hu⟩ := twoThreads_blocks.apply hrun
  obtain ⟨hprimary, hnext, hend, hpt, hpu, htid, huid, hne, hne'⟩ := hfields
  dsimp only at hp ht hu hprimary hnext hend hpt hpu htid huid hne hne'
  have hchain : ThreadChain s proc [t, u] := by
    refine ⟨hp, ?_, ?_, ⟨hprimary, ht.ne_zero, hnext, hu.ne_zero, hend⟩, ?_, ?_⟩
    · simp [ht, hu]
    · simp [hpt, hpu]
    · simp [htid, huid]
    · simp [hne, hne']
  refine ⟨s, proc, t, u, hs, hchain, (unlinks_iff hs hchain (by simp)).2 ?_⟩
  rintro rfl
  rw [hprimary, htid] at huid
  exact absurd huid (by decide)

/-- **The primary thread is freed and stays in the chain.** -/
theorem freed_primary : Ensures (do
      let r ← twoThreads
      freeThread r.2.1
      pure r) sixFrames
    (fun r s => processPrimary s r.1 = r.2.1 ∧ s.isFreeAt (r.2.1 - headerSize) = true)
    (fun _ => False) := by
  decide +kernel

end Hvos.Process
