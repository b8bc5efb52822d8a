import Hvos.Process.KernelStack

/-!
# Process/FrameBudget — what processes are given is never given back

No function of `Process/Spaces` frees a frame.  So each process there is stands for six pages of
user stack, six of kernel stack and the pages of its heap, all taken from the frames that were free
at first (`frames_accounted`): that bounds the number of processes ever created.
-/

namespace Hvos.Process

open Memory Prog

/-- The frames `pmm_alloc` may still return. -/
def frames (s : Mem) : ℕ := s.pmm.freeCount

theorem frames_anti {s s' : Mem} (h : DrawnMem s s') : frames s' ≤ frames s :=
  Pmm.freeCount_anti h.totalPages h.used

theorem frames_lt {s : Mem} {g : ℕ} {pmm : Pmm} (ha : s.pmm.pmmAlloc = some (g, pmm)) :
    pmm.freeCount < frames s := by
  obtain ⟨hfree, -, htot, -, htest⟩ := Pmm.pmmAlloc_eq_some ha
  exact Pmm.freeCount_lt htot (fun i hi => by rw [htest, hi, Bool.true_or]) hfree (by simp [htest])

/-! ## What the parts take -/

theorem mapUserPage_takes (pml4 v : ℕ) (s : Mem) :
    Ensures (mapUserPage pml4 v) s (fun r s' => r = none → frames s' < frames s) fun _ => True := by
  refine ensures_bind (ensures_pmmAlloc (fun _ => ensures_pure fun h => by cases h) fun g pmm ha => ?_)
  refine (((mapPage_draws pml4 v (g * 4096) 7).ensures _).mono (fun _ s' hs' => ?_)
    fun _ _ => trivial).bind fun _ s' hs' => ensures_pure fun _ => hs'
  exact (frames_anti hs').trans_lt (frames_lt ha)

/-- **A loop that maps `n` pages** takes as many frames. -/
theorem mapUserPages_takes (pml4 : ℕ) (v : ℕ → ℕ) (n : ℕ) (s : Mem) :
    Ensures (forRange n fun i => mapUserPage pml4 (v i)) s
      (Either (fun _ _ => True) fun s' => frames s' + n ≤ frames s) fun _ => True := by
  refine ensures_forRange (fun i s' => frames s' + i ≤ frames s) (fun i s' _ hs' => ?_) (Nat.le_refl _)
  refine (mapUserPage_takes pml4 (v i) s').imp fun r t ht => ?_
  cases r with
  | some r => trivial
  | none =>
    have hlt := ht rfl
    show frames t + (i + 1) ≤ frames s
    omega

theorem allocFrames_takes (n : ℕ) (s : Mem) :
    Ensures (allocFrames n) s (fun r s' => r ≠ none → frames s' + n ≤ frames s) fun _ => True := by
  induction n generalizing s with
  | zero => exact ensures_pure fun _ => Nat.le_refl _
  | succ n ih =>
    refine ensures_bind (ensures_pmmAlloc (fun _ => ensures_pure (absurd rfl)) fun g pmm ha => ?_)
    have hlt := frames_lt ha
    refine (ih { s with pmm := pmm }).bind fun r s' hr => ?_
    cases r with
    | none => exact ensures_pure (absurd rfl)
    | some ks =>
      have hle := hr (by simp)
      refine ensures_pure fun _ => ?_
      change frames s' + n ≤ pmm.freeCount at hle
      omega

/-- **A process** takes twelve for its two stacks. -/
theorem createElfProcess_takes (elfBuffer : ℕ) (elf : ElfFile) (s : Mem) :
    Ensures (createElfProcess elfBuffer elf) s
      (fun r s' => ∀ proc, r = some proc → proc.heapEnd = usrHeapBase ∧ frames s' + 12 ≤ frames s)
      fun _ => True := by
  refine (((loadElfBinary_draws elfBuffer elf).ensures s).mono (fun _ s1 h1 => frames_anti h1)
    fun _ _ => trivial).bind fun loaded s1 h1 => ?_
  split_ifs with hzero
  · exact ensures_pure fun _ h => by cases h
  · refine (mapUserPages_takes _ _ 6 s1).bind fun r s2 h2 => ?_
    cases r with
    | some r => exact ensures_pure fun _ h => by cases h
    | none =>
      refine (allocFrames_takes 6 s2).bind fun kPages s3 h3 => ?_
      cases kPages with
      | none => exact ensures_pure fun _ h => by cases h
      | some kPages =>
        have hleft := h3 (by simp)
        refine (((newElfProcess_draws _ _).ensures s3).mono (fun _ s4 h4 => frames_anti h4)
          fun _ _ => trivial).bind fun _ s4 h4 => ensures_pure fun proc hproc => ?_
        cases hproc
        change frames s2 + 6 ≤ frames s1 at h2
        exact ⟨rfl, by omega⟩

/-! ## Runs -/

/-- What a process stands for: its two stacks and the pages of its heap. -/
def Proc.standsFor (p : Proc) : ℕ := 12 + (p.heapEnd - usrHeapBase) / 4096

/-- What all processes stand for, and what is left. -/
def Sys.accounted (st : Sys) : ℕ := (st.procs.map Proc.standsFor).sum + frames st.mem

theorem sysAllocPages_draws (pages : UInt32) (ct : Proc) :
    Along DrawnMem (sysAllocPages pages ct) := by
  refine along_ite (fun _ => along_pure _) fun _ => ?_
  refine (along_forRange (fun i => mapUserPage_draws _ _) _).bind fun r => ?_
  cases r <;> exact along_pure _

/-- **`sys_alloc_pages`** takes a frame for each page it adds to the heap. -/
theorem sysAllocPages_takes (pages : UInt32) (ct : Proc) (s : Mem) :
    Ensures (sysAllocPages pages ct) s
      (fun r s' => frames s' ≤ frames s → r.2.standsFor + frames s' ≤ ct.standsFor + frames s)
      fun _ => True := by
  unfold sysAllocPages
  split_ifs with hzero
  · exact ensures_pure fun h => Nat.add_le_add_left h _
  · refine (mapUserPages_takes _ _ _ s).bind fun r s' h' => ?_
    cases r with
    | some r => exact ensures_pure fun h => Nat.add_le_add_left h _
    | none =>
      refine ensures_pure fun _ => ?_
      change frames s' + pages.toNat ≤ frames s at h'
      have hmod := Nat.mod_le (pages.toNat * 4096) (2 ^ 32)
      have hwrap := Nat.mod_le (ct.heapEnd + pages.toNat * 4096 % 2 ^ 32) (2 ^ 64)
      simp only [Proc.standsFor, wrap]
      omega

/-- No more is accounted for than before. -/
def Loses (st st' : Sys) : Prop := st'.accounted ≤ st.accounted

instance : IsPreorder Sys Loses where
  refl _ := Nat.le_refl _
  trans _ _ _ h h' := Nat.le_trans h' h

theorem onMem_loses {α : Type} {m : Prog Mem α} (h : Along DrawnMem m) : Along Loses (onMem m) := by
  intro st
  have hst := frames_anti (h st.mem)
  unfold onMem
  cases hm : m st.mem <;> rw [hm] at hst <;> exact Nat.add_le_add_left hst _

/-- …when what comes next depends on the result. -/
theorem onMem_bind_loses {α : Type} {m : Prog Mem α} {f : α → Prog Sys Unit} (h : Along DrawnMem m)
    {st : Sys} (hf : ∀ a s, m st.mem = .done a s → frames s ≤ frames st.mem →
      Loses st (f a { st with mem := s }).state) : Loses st ((onMem m >>= f) st).state := by
  have hst := frames_anti (h st.mem)
  rw [bind_apply, onMem]
  cases hm : m st.mem with
  | halt s => exact Nat.add_le_add_left (by rwa [hm] at hst) _
  | done a s => exact hf a s hm (by rwa [hm] at hst)

theorem standsFor_set {procs : List Proc} {p : ℕ} {ct : Proc} (h : procs[p]? = some ct) (new : Proc) :
    ((procs.set p new).map Proc.standsFor).sum + ct.standsFor =
      (procs.map Proc.standsFor).sum + new.standsFor := by
  induction procs generalizing p with
  | nil => cases h
  | cons q procs ih =>
    cases p with
    | zero =>
      obtain rfl : q = ct := Option.some.inj h
      simp only [List.set_cons_zero, List.map_cons, List.sum_cons]
      omega
    | succ p =>
      have hrest := ih (by simpa using h)
      simp only [List.set_cons_succ, List.map_cons, List.sum_cons]
      omega

/-- **Every event** keeps the account. -/
theorem step_loses (e : Event) : Along Loses (step e) := by
  cases e with
  | createElf elfBuffer elf =>
    intro st
    refine onMem_bind_loses (createElfProcess_draws elfBuffer elf) fun r s hm hle => ?_
    cases r with
    | none => exact Nat.add_le_add_left hle _
    | some proc =>
      obtain ⟨hend, hless⟩ := (createElfProcess_takes elfBuffer elf st.mem).apply hm proc rfl
      have hproc : proc.standsFor = 12 := by rw [Proc.standsFor, hend, Nat.sub_self]
      show ((st.procs ++ [proc]).map Proc.standsFor).sum + frames s ≤ _
      rw [List.map_append, List.sum_append, List.map_singleton, List.sum_singleton, hproc,
        Sys.accounted]
      omega
  | allocPages p pages =>
    intro st
    simp only [step, bind_apply, read_apply]
    cases hp : st.procs[p]? with
    | none => exact Nat.le_refl _
    | some ct =>
      refine onMem_bind_loses (sysAllocPages_draws pages ct) fun r s hm hle => ?_
      have htakes := (sysAllocPages_takes pages ct st.mem).apply hm hle
      have hset := standsFor_set hp r.2
      show ((st.procs.set p r.2).map Proc.standsFor).sum + frames s ≤ _
      rw [Sys.accounted]
      omega
  | pageFault p errorCode cr2 =>
    refine (along_read _).bind fun ct => ?_
    cases ct with
    | none => exact along_pure _
    | some ct =>
      refine onMem_loses (along_ite (fun _ => (mapUserPage_draws _ _).bind fun r => ?_)
        fun _ => along_halt)
      cases r with
      | none => exact along_pure _
      | some r => exact along_halt
  | store p v b =>
    refine (along_read _).bind fun ct => ?_
    cases ct with
    | none => exact along_pure _
    | some ct =>
      refine onMem_loses (modify_draws fun s => ?_)
      unfold userStore
      split <;> [rfl; (split_ifs <;> rfl)]
  | heapExpand n => exact (onMem_loses (heapExpand_draws n)).bind fun _ => along_pure _
  | kmalloc n => exact (onMem_loses (kmalloc_draws n)).bind fun _ => along_pure _
  | kfree ptr => exact onMem_loses (modify_draws fun s => (s.kfree_heapOnly ptr).pmm)
  | switch current next =>
    refine (along_read _).bind fun src => (along_read _).bind fun dst => ?_
    cases src <;> cases dst
    case some.some src dst => exact onMem_loses (modify_draws fun s => copyHalf_pmm _ _ s)
    all_goals exact along_pure _

/-- **What processes are given is never given back**: however a run goes on or stops, twelve frames
for each process ever created and one for each page of its heap, together with those still free, are
no more than were free at first. -/
theorem frames_accounted (es : List Event) (s : Mem) :
    (((run es ⟨s, []⟩).state.procs.map fun p => 12 + (p.heapEnd - usrHeapBase) / 4096).sum +
        (run es ⟨s, []⟩).state.mem.pmm.freeCount ≤ s.pmm.freeCount) ∧
      12 * (run es ⟨s, []⟩).state.procs.length ≤ s.pmm.freeCount := by
  have hrun : ∀ es, Along Loses (run es) := by
    intro es
    induction es with
    | nil => exact along_pure _
    | cons e es ih => exact (step_loses e).bind fun _ => ih
  have h : (run es ⟨s, []⟩).state.accounted ≤ 0 + frames s := hrun es ⟨s, []⟩
  rw [Nat.zero_add, Sys.accounted] at h
  generalize (run es ⟨s, []⟩).state = st at h ⊢
  have hcount : 12 * st.procs.length ≤ (st.procs.map Proc.standsFor).sum := by
    induction st.procs with
    | nil => exact Nat.le_refl 0
    | cons q procs ih =>
      have hq : 12 ≤ q.standsFor := Nat.le_add_right 12 _
      simp only [List.length_cons, List.map_cons, List.sum_cons]
      omega
  refine ⟨h, hcount.trans ((Nat.le_add_right _ _).trans h)⟩

end Hvos.Process
