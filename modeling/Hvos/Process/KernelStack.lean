import Hvos.Memory.Draws
import Hvos.Process.ElfImage
import Hvos.Process.Spaces

/-!
# Process/KernelStack — the four pages below `kernel_stack_top`

`create_elf_process` takes six frames one by one, makes the end of the fourth the top of the kernel
stack, and reaches the pages below it through the direct map.  Since frames are drawn from below,
those pages are frames of this call exactly when the four lowest free frames at that point are
adjacent; with a hole among them the stack runs into a frame that something else uses.
-/

namespace Hvos.Process

open Memory Prog

/-! ## `kernel_stack_top` -/

/-- `PHYS_TO_VIRT`. -/
def physToVirt (hhdmOffset phys : ℕ) : ℕ := phys + hhdmOffset

/-- The frame behind an address of the direct map. -/
def directFrame (hhdmOffset v : ℕ) : ℕ := (v - hhdmOffset) / 4096

/-- `create_elf_process` up to the user stack: the entry point and the PML4. -/
def loadUserSpace (elfBuffer : ℕ) (elf : ElfFile) : Prog Mem (Option (ℕ × ℕ)) := do
  let loaded ← loadElfBinary elfBuffer elf
  if loaded.1 = 0 then pure none
  else
    let pml4 := loaded.2.getD 0
    match ← forRange 6 fun i => mapUserPage pml4 (usrStackBase - 4096 * i) with
    | some _ => pure none
    | none => pure (some (loaded.1, pml4))

/-- The rest of it: the process, and its `kernel_stack_top`. -/
def addKernelStack (hhdmOffset rip pml4 : ℕ) : Prog Mem (Option (Proc × ℕ)) := do
  match ← allocFrames 6 with
  | none => pure none
  | some kPages =>
    let kernelStackTop := physToVirt hhdmOffset (kPages.getD 3 0 * 4096) + 4096
    newElfProcess rip (kPages.getD 3 0)
    pure (some ({ cr3 := pml4, heapEnd := usrHeapBase }, kernelStackTop))

/-- `create_elf_process`, with the `kernel_stack_top` it passes on. -/
def createElfProcessTop (hhdmOffset elfBuffer : ℕ) (elf : ElfFile) :
    Prog Mem (Option (Proc × ℕ)) := do
  match ← loadUserSpace elfBuffer elf with
  | none => pure none
  | some (rip, pml4) => addKernelStack hhdmOffset rip pml4

/-- Without the top it is `create_elf_process`. -/
theorem createElfProcess_eq (hhdmOffset elfBuffer : ℕ) (elf : ElfFile) :
    createElfProcess elfBuffer elf =
      createElfProcessTop hhdmOffset elfBuffer elf >>= fun r => pure (r.map Prod.fst) := by
  funext s
  simp only [createElfProcess, createElfProcessTop, loadUserSpace, bind_apply]
  cases loadElfBinary elfBuffer elf s with
  | halt t => rfl
  | done loaded t =>
    by_cases hzero : loaded.1 = 0
    · simp [hzero]
    · simp only [if_neg hzero, bind_apply]
      cases forRange 6 (fun i => mapUserPage (loaded.2.getD 0) (usrStackBase - 4096 * i)) t with
      | halt t => rfl
      | done r t =>
        cases r with
        | some _ => rfl
        | none =>
          simp only [pure_apply, addKernelStack, bind_apply]
          cases allocFrames 6 t with
          | halt t => rfl
          | done kPages t =>
            cases kPages with
            | none => rfl
            | some kPages =>
              simp only [bind_apply]
              cases newElfProcess loaded.1 (kPages.getD 3 0) t <;> rfl

/-- The call that leads from `s` to `s'` has allocated frame `f`. -/
def AllocatedIn (s s' : Mem) (f : ℕ) : Prop :=
  s.pmm.bitmapTest f = false ∧ s'.pmm.bitmapTest f = true

/-- **The process owns its kernel stack**: the four pages below the top are frames of this call. -/
def OwnsStack (hhdmOffset : ℕ) (s s' : Mem) (kernelStackTop : ℕ) : Prop :=
  ∀ d, 1 ≤ d → d ≤ 4 → AllocatedIn s s' (directFrame hhdmOffset (kernelStackTop - d * 4096))

/-- The four lowest free frames are adjacent. -/
def FourAdjacent (p : Pmm) : Prop := ∃ k, (∀ j, p.Free j → k ≤ j) ∧ ∀ d < 4, p.Free (k + d)

variable {hhdmOffset k : ℕ}

theorem directFrame_top {d : ℕ} (hd : d ≤ k + 1) :
    directFrame hhdmOffset (physToVirt hhdmOffset (k * 4096) + 4096 - d * 4096) = k + 1 - d := by
  unfold directFrame physToVirt
  omega

/-! ## Every part of the call draws -/

theorem mapUserPage_draws (pml4 v : ℕ) : Along DrawnMem (mapUserPage pml4 v) := by
  refine pmmAlloc_draws.bind fun g => ?_
  cases g with
  | none => exact along_pure _
  | some g => exact (mapPage_draws _ _ _ _).bind fun _ => along_pure _

theorem loadPage_draws (elf : ElfFile) (pml4 : ℕ) (ph : ProgramHeader) (i : ℕ) :
    Along DrawnMem (loadPage elf pml4 ph i) := by
  refine pmmAlloc_draws.bind fun g => ?_
  cases g with
  | none => exact along_pure _
  | some g =>
    refine (mapPage_draws _ _ _ _).bind fun _ => ?_
    exact Along.bind (modify_draws fun _ => rfl) fun _ => along_pure _

theorem newPml4_draws : Along DrawnMem newPml4 := by
  refine pmmAlloc_draws.bind fun g => ?_
  refine Along.bind (modify_draws fun s => ?_) fun _ => along_pure _
  rw [copyHalf_pmm]
  rfl

theorem loadElfBinary_draws (elfBuffer : ℕ) (elf : ElfFile) :
    Along DrawnMem (loadElfBinary elfBuffer elf) := by
  refine along_ite (fun _ => ?_) fun _ => ?_
  · exact Along.bind (modify_draws fun s => (s.kfree_heapOnly elfBuffer).pmm) fun _ => along_pure _
  · refine newPml4_draws.bind fun pml4 => (along_forRange (fun i => ?_) _).bind fun r => ?_
    · refine along_ite (fun _ => along_pure _) fun _ => ?_
      exact along_forRange (loadPage_draws elf pml4 _) _
    · cases r <;> exact along_pure _

theorem loadUserSpace_draws (elfBuffer : ℕ) (elf : ElfFile) :
    Along DrawnMem (loadUserSpace elfBuffer elf) := by
  refine (loadElfBinary_draws elfBuffer elf).bind fun loaded => ?_
  refine along_ite (fun _ => along_pure _) fun _ => ?_
  refine (along_forRange (fun i => mapUserPage_draws _ _) _).bind fun r => ?_
  cases r <;> exact along_pure _

theorem newElfProcess_draws (rip kstack : ℕ) : Along DrawnMem (newElfProcess rip kstack) := by
  refine (kzalloc_draws 312).bind fun _ => (kzalloc_draws 40).bind fun _ => ?_
  refine (kzalloc_draws 40).bind fun _ => (kzalloc_draws 40).bind fun _ => ?_
  refine (kmalloc_draws 96).bind fun _ => Along.bind (modify_draws fun _ => rfl) fun _ => ?_
  exact (kzalloc_draws 16).bind fun _ => (kzalloc_draws 16).bind fun _ => along_pure _

theorem allocFrames_draws (n : ℕ) : Along DrawnMem (allocFrames n) := by
  induction n with
  | zero => exact along_pure _
  | succ n ih =>
    refine pmmAlloc_draws.bind fun g => ?_
    cases g with
    | none => exact along_pure _
    | some g =>
      refine ih.bind fun gs => ?_
      cases gs <;> exact along_pure _

theorem createElfProcess_draws (elfBuffer : ℕ) (elf : ElfFile) :
    Along DrawnMem (createElfProcess elfBuffer elf) := by
  rw [createElfProcess_eq 0]
  refine Along.bind ((loadUserSpace_draws elfBuffer elf).bind fun u => ?_) fun _ => along_pure _
  cases u with
  | none => exact along_pure _
  | some u =>
    refine (allocFrames_draws 6).bind fun kPages => ?_
    cases kPages with
    | none => exact along_pure _
    | some kPages => exact (newElfProcess_draws _ _).bind fun _ => along_pure _

/-! ## The frames of the loop -/

/-- **The frames `ks` have been taken**, in rising order, and no other. -/
structure TookFrames (p p' : Pmm) (ks : List ℕ) : Prop where
  drawn : p.Drawn p'
  sorted : ks.Pairwise (· < ·)
  free : ∀ k ∈ ks, p.Free k
  used : ∀ f, p'.bitmapTest f = true ↔ p.bitmapTest f = true ∨ f ∈ ks

theorem TookFrames.nil (p : Pmm) : TookFrames p p [] where
  drawn := .refl p
  sorted := .nil
  free _ hk := (nomatch hk)
  used _ := by simp

variable {ks : List ℕ} {p p1 p' p0 : Pmm}

theorem TookFrames.cons (ha : p.pmmAlloc = some (k, p1)) (h : TookFrames p1 p' ks) :
    TookFrames p p' (k :: ks) := by
  have hdrawn := Pmm.Drawn.pmmAlloc ha
  obtain ⟨hfree, -, -, -, htest⟩ := Pmm.pmmAlloc_eq_some ha
  refine ⟨hdrawn.trans h.drawn, List.pairwise_cons.2 ⟨fun g hg => ?_, h.sorted⟩, fun g hg => ?_,
    fun f => ?_⟩
  · exact hdrawn.below k g hfree.2.2 (by simp [htest]) (h.free g hg)
  · rcases List.mem_cons.1 hg with rfl | hg
    · exact hfree
    · exact hdrawn.free (h.free g hg)
  · rw [h.used, htest, List.mem_cons, Bool.or_eq_true, decide_eq_true_iff, or_assoc]

theorem allocFrames_took (n : ℕ) (s : Mem) : Ensures (allocFrames n) s
      (fun r s' => ∀ ks, r = some ks → ks.length = n ∧ TookFrames s.pmm s'.pmm ks)
      (fun _ => False) := by
  induction n generalizing s with
  | zero =>
    refine ensures_pure fun ks hks => ?_
    cases hks
    exact ⟨rfl, .nil _⟩
  | succ n ih =>
    refine ensures_bind (ensures_pmmAlloc (fun _ => ?_) fun k pmm ha => ?_)
    · exact ensures_pure fun ks hks => (nomatch hks)
    · refine (ih { s with pmm := pmm }).bind fun r s' hr => ?_
      cases r with
      | none => exact ensures_pure fun ks hks => (nomatch hks)
      | some ks =>
        obtain ⟨hlen, htook⟩ := hr ks rfl
        refine ensures_pure fun ks' hks' => ?_
        cases hks'
        exact ⟨congrArg (· + 1) hlen, htook.cons ha⟩

/-- A free frame below one that was taken was taken too. -/
theorem TookFrames.mem_of_lt {f : ℕ} (h : TookFrames p p' ks) (hk : k ∈ ks) (hf : p.Free f)
    (hlt : f < k) : f ∈ ks := by
  by_contra hnot
  have hclear : p'.bitmapTest f = false := by
    rw [← Bool.not_eq_true, h.used]
    simp [hf.2.2, hnot]
  have hfree : p'.Free f := ⟨hf.1, h.drawn.totalPages ▸ hf.2.1, hclear⟩
  have hgt := h.drawn.below k f (h.free k hk).2.2 ((h.used k).2 (.inr hk)) hfree
  omega

/-- **Between two frames of the loop, whatever was free before the call is taken by the loop**: what
the call took earlier lies below the first. -/
theorem TookFrames.mem_of_between {k0 f : ℕ} (h : TookFrames p p' ks) (hbefore : p0.Drawn p)
    (hk0 : k0 ∈ ks) (hk : k ∈ ks) (hlo : k0 ≤ f) (hhi : f ≤ k) (hclear : p0.bitmapTest f = false) :
    f ∈ ks := by
  have hp : p.bitmapTest f = false := by
    by_contra hset
    have hlt := hbefore.below f k0 hclear (by simpa using hset) (h.free k0 hk0)
    omega
  have hfree : p.Free f := by
    refine ⟨hlo.trans' (h.free k0 hk0).1, ?_, hp⟩
    exact lt_of_le_of_lt hhi (h.free k hk).2.1
  rcases Nat.eq_or_lt_of_le hhi with rfl | hlt
  · exact hk
  · exact h.mem_of_lt hk hfree hlt

theorem exists_four_cons (h : 4 ≤ ks.length) :
    ∃ k0 k1 k2 k3 rest, ks = k0 :: k1 :: k2 :: k3 :: rest := by
  match ks, h with
  | k0 :: k1 :: k2 :: k3 :: rest, _ => exact ⟨k0, k1, k2, k3, rest, rfl⟩

/-- **The pages below the fourth frame are frames of the call iff the first four frames are
adjacent.** -/
theorem TookFrames.below_iff {k0 k1 k2 k3 : ℕ} (h : TookFrames p p' (k0 :: k1 :: k2 :: k3 :: ks))
    (hbefore : p0.Drawn p) (hafter : p'.Drawn p1) :
    (∀ d < 4, p0.bitmapTest (k3 - d) = false ∧ p1.bitmapTest (k3 - d) = true) ↔ FourAdjacent p := by
  have hsort := h.sorted
  simp only [List.pairwise_cons, List.mem_cons, forall_eq_or_imp] at hsort
  obtain ⟨⟨h01, h02, h03, -⟩, ⟨h12, h13, -⟩, ⟨h23, -⟩, hrest, -⟩ := hsort
  have hfirst : k0 ∈ k0 :: k1 :: k2 :: k3 :: ks := by simp
  have hfourth : k3 ∈ k0 :: k1 :: k2 :: k3 :: ks := by simp
  have hone := (h.free k0 hfirst).1
  -- Of the frames up to `k3`, the loop took the first four.
  have hmem : ∀ f, f ∈ k0 :: k1 :: k2 :: k3 :: ks → f ≤ k3 →
      f = k0 ∨ f = k1 ∨ f = k2 ∨ f = k3 := by
    intro f hf hle
    simp only [List.mem_cons] at hf
    rcases hf with hf | hf | hf | hf | hf
    · exact .inl hf
    · exact .inr (.inl hf)
    · exact .inr (.inr (.inl hf))
    · exact .inr (.inr (.inr hf))
    · have hgt := hrest f hf
      omega
  have hlow : ∀ j, p.Free j → k0 ≤ j := by
    intro j hj
    by_contra hlt
    have hin := h.mem_of_lt hfirst hj (by omega)
    have hcase := hmem j hin (by omega)
    omega
  constructor
  · intro hall
    have hin : ∀ d < 4, k3 - d ∈ k0 :: k1 :: k2 :: k3 :: ks := fun d hd =>
      h.mem_of_between hbefore hfirst hfourth (by omega) (by omega) (hall d hd).1
    have hcase1 := hmem _ (hin 1 (by decide)) (by omega)
    have hcase2 := hmem _ (hin 2 (by decide)) (by omega)
    have hcase3 := hmem _ (hin 3 (by decide)) (by omega)
    refine ⟨k0, hlow, fun d hd => ?_⟩
    have hfree := h.free _ (hin (3 - d) (by omega))
    rwa [show k3 - (3 - d) = k0 + d by omega] at hfree
  · rintro ⟨k, hk, hfree⟩
    have hk0 : k = k0 := Nat.le_antisymm (hk k0 (h.free k0 hfirst)) (hlow k (hfree 0 (by decide)))
    subst hk0
    have hin : ∀ d < 4, k + d < k3 → k + d = k ∨ k + d = k1 ∨ k + d = k2 ∨ k + d = k3 :=
      fun d hd hlt => hmem _ (h.mem_of_lt hfourth (hfree d hd) hlt) (by omega)
    have hin1 := hin 1 (by decide)
    have hin2 := hin 2 (by decide)
    have hin3 := hin 3 (by decide)
    intro d hd
    have hmine : k3 - d ∈ k :: k1 :: k2 :: k3 :: ks := by
      simp only [List.mem_cons]
      omega
    refine ⟨?_, hafter.used _ ((h.used _).2 (.inr hmine))⟩
    exact (hbefore.free (h.free _ hmine)).2.2

/-! ## The theorem -/

/-- The frame of the pages below the top. -/
theorem ownsStack_iff {s s' : Mem} (hk : 3 ≤ k) :
    OwnsStack hhdmOffset s s' (physToVirt hhdmOffset (k * 4096) + 4096) ↔
      ∀ d < 4, s.pmm.bitmapTest (k - d) = false ∧ s'.pmm.bitmapTest (k - d) = true := by
  have hframe : ∀ d < 4, directFrame hhdmOffset
      (physToVirt hhdmOffset (k * 4096) + 4096 - (d + 1) * 4096) = k - d := fun d hd => by
    rw [directFrame_top (by omega)]
    omega
  constructor
  · intro hall d hd
    have hd' := hall (d + 1) (by omega) (by omega)
    rwa [hframe d hd] at hd'
  · intro hall d h1 h4
    obtain ⟨d, rfl⟩ : ∃ c, d = c + 1 := ⟨d - 1, by omega⟩
    rw [hframe d (by omega)]
    exact hall d (by omega)

/-- **The kernel stack**, from where it is taken. -/
theorem addKernelStack_iff {rip pml4 kernelStackTop : ℕ} {s t s' : Mem} {proc : Proc}
    (hbefore : DrawnMem s t)
    (h : addKernelStack hhdmOffset rip pml4 t = .done (some (proc, kernelStackTop)) s') :
    OwnsStack hhdmOffset s s' kernelStackTop ↔ FourAdjacent t.pmm := by
  obtain ⟨r, t1, hframes, h⟩ := done_of_bind h
  cases r with
  | none => cases h
  | some ks =>
    obtain ⟨_, t2, hnew, h⟩ := done_of_bind h
    obtain ⟨hlen, htook⟩ := (allocFrames_took 6 t).apply hframes ks rfl
    obtain ⟨k0, k1, k2, k3, rest, rfl⟩ := exists_four_cons (by omega : 4 ≤ ks.length)
    cases h
    have hsort := htook.sorted
    simp only [List.pairwise_cons, List.mem_cons, forall_eq_or_imp] at hsort
    refine (ownsStack_iff (k := k3) (by omega)).trans ?_
    exact htook.below_iff hbefore ((newElfProcess_draws _ _).done hnew)

/-- **A process owns its kernel stack iff the four lowest frames that are free when the stack is
taken are adjacent.** -/
theorem ownsStack_iff_adjacent {hhdmOffset elfBuffer kernelStackTop : ℕ} {elf : ElfFile} {s s' : Mem}
    {proc : Proc}
    (h : createElfProcessTop hhdmOffset elfBuffer elf s = .done (some (proc, kernelStackTop)) s') :
    OwnsStack hhdmOffset s s' kernelStackTop ↔
      ∃ u t, loadUserSpace elfBuffer elf s = .done (some u) t ∧ FourAdjacent t.pmm := by
  obtain ⟨u, t, hload, h⟩ := done_of_bind h
  cases u with
  | none => cases h
  | some u =>
    refine (addKernelStack_iff ((loadUserSpace_draws elfBuffer elf).done hload) h).trans ?_
    refine ⟨fun hadj => ⟨u, t, hload, hadj⟩, ?_⟩
    rintro ⟨u', t', hload', hadj⟩
    cases hload.symm.trans hload'
    exact hadj

/-- The kernel's PML4 in frame 1 and 128 frames, of which `holes` gives those in use among the
frames 16..23. -/
def framesBut (holes : BitVec 8) : Mem :=
  { sixteenFrames with
    pmm := { bitmap := Function.update (Function.update (fun _ => 0) 0 3) 2 holes
             totalPages := 128
             usedPages := 2 } }

/-- The `kernel_stack_top` of a call that made a process. -/
def topOf : Outcome Mem (Option (Proc × ℕ)) → Option ℕ
  | .done (some (_, kernelStackTop)) _ => some kernelStackTop
  | _ => none

theorem done_of_topOf {o : Outcome Mem (Option (Proc × ℕ))} {kernelStackTop : ℕ}
    (h : topOf o = some kernelStackTop) : ∃ proc s', o = .done (some (proc, kernelStackTop)) s' := by
  match o, h with
  | .done (some (proc, _)) s', rfl => exact ⟨proc, s', rfl⟩

/-- Where the boot loader puts the direct map. -/
def directMap : ℕ := 0xffff800000000000

theorem loadUserSpace_clean : Ensures (loadUserSpace 0 twoSegments) (framesBut 0)
    (fun u t => u.isSome = true ∧ (∀ j < 18, ¬t.pmm.Free j) ∧ ∀ d < 4, t.pmm.Free (18 + d))
    (fun _ => False) := by
  unfold Pmm.Free
  decide +kernel

theorem ownsStack_iff_adjacent_clean : ∃ proc s',
    createElfProcessTop directMap 0 twoSegments (framesBut 0) =
        .done (some (proc, directMap + 22 * 4096)) s' ∧
      OwnsStack directMap (framesBut 0) s' (directMap + 22 * 4096) := by
  have htop : topOf (createElfProcessTop directMap 0 twoSegments (framesBut 0)) =
      some (directMap + 22 * 4096) := by decide +kernel
  obtain ⟨proc, s', hrun⟩ := done_of_topOf htop
  obtain ⟨_ | u, t, hdone, hsome, hlow, hfree⟩ := loadUserSpace_clean.done
  · cases hsome
  · exact ⟨proc, s', hrun, (ownsStack_iff_adjacent hrun).2
      ⟨u, t, hdone, 18, fun j hj => not_lt.1 fun hlt => hlow j hlt hj, hfree⟩⟩

/-- **Frame 20 belongs to someone else**: the loop gets frames 18, 19, 21 and 22, and the third page
of the stack below its top is frame 20. -/
theorem stack_over_foreign_frame : ∃ proc s',
    createElfProcessTop directMap 0 twoSegments (framesBut 16) =
        .done (some (proc, directMap + 23 * 4096)) s' ∧
      (framesBut 16).pmm.bitmapTest 20 = true ∧
        ¬OwnsStack directMap (framesBut 16) s' (directMap + 23 * 4096) := by
  have htop : topOf (createElfProcessTop directMap 0 twoSegments (framesBut 16)) =
      some (directMap + 23 * 4096) := by decide +kernel
  obtain ⟨proc, s', hrun⟩ := done_of_topOf htop
  have hforeign : (framesBut 16).pmm.bitmapTest 20 = true := by decide
  refine ⟨proc, s', hrun, hforeign, fun howns => ?_⟩
  have hfree : (framesBut 16).pmm.bitmapTest 20 = false := (howns 3 (by decide) (by decide)).1
  rw [hforeign] at hfree
  cases hfree

end Hvos.Process
