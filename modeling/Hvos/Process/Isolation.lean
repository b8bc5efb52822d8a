import Hvos.Process.TwinRuns

/-!
# Process/Isolation — no frame belongs to two address spaces

What is reached through the lower half of a process's PML4 carries that process's label, so it is
reached from no other process, backs no byte of the kernel heap and is no table of the kernel.  This
holds at every point of every run, since each event keeps the labels.
-/

namespace Hvos.Process

open Memory Radix Prog

/-! ## What is reached -/

/-- `f` is a table behind the lower half of the PML4 in frame `r`… -/
def UserTable (s : Mem) (r f : ℕ) : Prop := ∃ i : Fin 512, i.val < 256 ∧ TableBelow s r i f

/-- …or a page mapped there. -/
def UserPage (s : Mem) (r f : ℕ) : Prop :=
  ∃ i : Fin 512, i.val < 256 ∧ ∃ g is pt j e, s.next r i = some g ∧ is.length = 2 ∧
    descend (Mem.sub s) is g = some pt ∧ s.leaf pt j = some e ∧ e.address.val = f

/-- The frames reached through entries 0..255. -/
def UserFrame (s : Mem) (r f : ℕ) : Prop := UserTable s r f ∨ UserPage s r f

/-- The PML4s: the kernel's, and one for each process. -/
def Sys.Root (st : Sys) (r : ℕ) : Prop := r = st.mem.kernelPml4 ∨ ∃ p ∈ st.procs, r = p.cr3

/-- `f` is a PML4, or a table behind the upper half of one. -/
def KernelTable (st : Sys) (f : ℕ) : Prop :=
  ∃ r, st.Root r ∧ (f = r ∨ ∃ i : Fin 512, 256 ≤ i.val ∧ TableBelow st.mem r i f)

/-- `f` backs an address of the kernel heap, in some address space. -/
def HeapFrame (st : Sys) (f : ℕ) : Prop :=
  ∃ r, st.Root r ∧ ∃ v e, kernelHeapStart ≤ v ∧ v < st.mem.heapCurrentLimit ∧
    st.mem.walk r v = some e ∧ e.address.val = f

/-- **Isolation.**  No large page is mapped in a lower half, so the tables and pages above are all
that is reached there. -/
structure Isolated (st : Sys) : Prop where
  users : ∀ (i j : ℕ) p q, st.procs[i]? = some p → st.procs[j]? = some q → i ≠ j →
    ∀ f, UserFrame st.mem p.cr3 f → ¬UserFrame st.mem q.cr3 f
  heap : ∀ p ∈ st.procs, ∀ f, UserFrame st.mem p.cr3 f → ¬HeapFrame st f
  kernel : ∀ p ∈ st.procs, ∀ f, UserFrame st.mem p.cr3 f → ¬KernelTable st f
  pages : ∀ p ∈ st.procs, ∀ f, ¬(UserTable st.mem p.cr3 f ∧ UserPage st.mem p.cr3 f)
  noLarge : ∀ p ∈ st.procs, ∀ (i : Fin 512) g is f j, i.val < 256 → st.mem.next p.cr3 i = some g →
    is.length ≤ 1 → descend (Mem.sub st.mem) is g = some f → (st.mem.entry f j).pat = false

/-! ## Runs -/

variable {s0 s s' : Mem} {lab : ℕ → Option Label} {roots : List ℕ} {st : Sys}

/-- **The invariant of a run**: frames are owned, processes have PML4s of their own, and no process
can grow beyond `2 ^ 47` with the frames that are left. -/
structure Sound (s0 : Mem) (lab : ℕ → Option Label) (roots : List ℕ) (st : Sys) : Prop where
  owned : Owned s0 st.mem lab roots
  distinct : (st.procs.map Proc.cr3).Nodup
  mem : ∀ p ∈ st.procs, p.cr3 ∈ roots
  room : ∀ p ∈ st.procs, p.heapEnd + 4096 * st.mem.pmm.freeCount ≤ 2 ^ 47

/-- Some labels do. -/
def Kept (s0 : Mem) (st : Sys) : Prop := ∃ lab roots, Sound s0 lab roots st

/-- A system is a start for two runs, with any memory that differs in free frames only. -/
theorem Sound.twins (h : Sound s0 lab roots st) {b : Mem} (hbeside : Beside st.mem b)
    (hequal : ∀ f, ¬st.mem.pmm.Free f → b.phys f = st.mem.phys f) :
    Twins s0 st b st { st with mem := b } := by
  refine ⟨rfl, h.distinct, ⟨roots, lab, h.owned.paired hbeside hequal ?_⟩, h.room, fun _ => id⟩
  rintro r ⟨p, hp, rfl⟩
  exact h.mem p hp

/-- …and each of the two keeps the invariant. -/
theorem Twins.kept {b : Mem} {a st' : Sys} (h : Twins s0 a b st st') : Kept s0 st := by
  obtain ⟨roots, lab, hpaired⟩ := h.both
  exact ⟨lab, roots, hpaired.owned, h.distinct, fun p hp => (hpaired.status _ ⟨p, hp, rfl⟩).1,
    h.room⟩

/-- One run is two from one state. -/
theorem Sound.of_twin (h : Sound s0 lab roots st) {m : Prog Sys Unit}
    (hm : Twins s0 st st.mem st st →
      Twin m st st (fun _ => Twins s0 st st.mem) (Twins s0 st st.mem)) :
    Ensures m st (fun _ => Kept s0) (Kept s0) :=
  (hm (h.twins (.refl _) fun _ _ => rfl)).ensures.mono (fun _ _ => Twins.kept) fun _ => Twins.kept

/-- A change of memory that keeps labels and the bitmap. -/
theorem Sound.setMem (h : Sound s0 lab roots st) (howned : Owned s0 s lab roots)
    (hpmm : s.pmm = st.mem.pmm) : Kept s0 { st with mem := s } := by
  refine ⟨lab, roots, howned, h.distinct, h.mem, fun p hp => ?_⟩
  rw [hpmm]
  exact h.room p hp

/-- A process writes to its own pages. -/
theorem Owned.userStore (h : Owned s0 s lab roots) {current : Proc} (hr : current.cr3 ∈ roots)
    (v : ℕ) (b : UInt8) :
    Owned s0 (userStore v b current s) lab roots ∧ (userStore v b current s).pmm = s.pmm := by
  unfold Process.userStore
  cases hwalk : s.walk current.cr3 v with
  | none => exact ⟨h, rfl⟩
  | some e =>
    by_cases hslot : (pml4Index v).val < 256
    · simp only [if_pos hslot]
      exact ⟨h.setFrame (h.walk_low hr hslot hwalk) _, rfl⟩
    · simp only [if_neg hslot, and_true]
      exact h

variable {r f g : ℕ}

/-- The PML4 of a thread is the kernel's or that of a process. -/
theorem Sound.cr3 (h : Sound s0 lab roots st) {who : Option ℕ} (hr : st.cr3 who = some r) :
    r = st.mem.kernelPml4 ∨ r ∈ roots := by
  cases who with
  | none => exact .inl (Option.some.inj hr).symm
  | some p =>
    obtain ⟨proc, hproc, rfl⟩ := Option.map_eq_some_iff.1 hr
    exact .inr (h.mem proc (List.mem_of_getElem? hproc))

/-- A switch copies the upper half of one PML4 to another. -/
theorem Sound.copyHalf (h : Sound s0 lab roots st) {current next : Option ℕ} {src dst : ℕ}
    (hsrc : st.cr3 current = some src) (hdst : st.cr3 next = some dst) :
    Kept s0 { st with mem := copyHalf src dst st.mem } :=
  h.setMem (h.owned.copyHalf (h.cr3 hsrc) (h.cr3 hdst)) (copyHalf_pmm src dst st.mem)

theorem Sound.switch (h : Sound s0 lab roots st) (current next : Option ℕ) :
    Ensures (step (.switch current next)) st (fun _ => Kept s0) (Kept s0) := by
  refine ensures_read_bind (ensures_read_bind ?_)
  cases hsrc : st.cr3 current with
  | none => exact ensures_pure ⟨lab, roots, h⟩
  | some src =>
    cases hdst : st.cr3 next with
    | none => exact ensures_pure ⟨lab, roots, h⟩
    | some dst => exact h.copyHalf hsrc hdst

/-- **One event keeps the invariant.** -/
theorem Kept.step (h : Kept s0 st) {e : Event} (he : e.Below47) :
    Ensures (step e) st (fun _ => Kept s0) (Kept s0) := by
  obtain ⟨lab, roots, h⟩ := h
  cases e with
  | createElf elfBuffer elf => exact h.of_twin fun ht => ht.createElf he elfBuffer
  | allocPages p pages => exact h.of_twin fun ht => ht.allocPages p pages
  | pageFault p errorCode cr2 => exact h.of_twin fun ht => ht.pageFault p errorCode cr2
  | store p v b =>
    refine ensures_read_bind ?_
    cases hp : st.procs[p]? with
    | none => exact ensures_pure ⟨lab, roots, h⟩
    | some current =>
      obtain ⟨howned, hpmm⟩ := h.owned.userStore (h.mem _ (List.mem_of_getElem? hp)) v b
      exact h.setMem howned hpmm
  | heapExpand sizeNeeded => exact h.of_twin fun ht => ht.heapExpand sizeNeeded
  | kmalloc size => exact h.of_twin fun ht => ht.kmalloc size
  | kfree ptr =>
    have honly := st.mem.kfree_heapOnly ptr
    exact h.setMem (h.owned.heapOnly honly) honly.pmm
  | switch current next => exact h.switch current next

/-- **A run keeps it.** -/
theorem Kept.run {es : List Event} (h : Kept s0 st) (hes : ∀ e ∈ es, e.Below47) :
    Ensures (run es) st (fun _ => Kept s0) (Kept s0) := by
  induction es generalizing st with
  | nil => exact ensures_pure h
  | cons e es ih =>
    refine (h.step (hes e List.mem_cons_self)).bind fun _ st' h' => ?_
    exact ih h' fun e' he' => hes e' (List.mem_cons_of_mem e he')

/-! ## Isolation from labels -/

variable {is : List (Fin 512)}

theorem Mem.descend_sub (h : descend (Mem.sub s) is f = some g) : descend s.next is f = some g := by
  induction is generalizing f with
  | nil => exact h
  | cons i is ih =>
    rw [descend] at h ⊢
    obtain ⟨x, hx, hrest⟩ := Option.bind_eq_some_iff.1 h
    unfold Mem.sub at hx
    split_ifs at hx
    rw [hx, Option.bind_some]
    exact ih hrest

section

variable (h : Owned s0 s lab roots)
include h

/-- A table behind a slot carries the slot's owner. -/
theorem Owned.below {i : Fin 512} {o o' : Option ℕ} (hr : lab r = some (o, 4))
    (hslot : ownerScheme.child (o, 4) i = some (o', 3)) (hg : s.next r i = some g)
    (hlen : is.length ≤ 2) (hf : descend (Mem.sub s) is g = some f) :
    lab f = some (o', 3 - is.length) := by
  have hlab := h.typed.labelled r _ i _ g hr hslot hg
  have halong := ownerScheme_along o' is (k := 3 - is.length) (by omega)
  rw [Nat.add_sub_of_le (by omega)] at halong
  exact h.typed.labelled.descend hlab halong (Mem.descend_sub hf)

theorem Owned.userTable (hr : r ∈ roots) (hf : UserTable s r f) :
    ∃ k, 1 ≤ k ∧ k ≤ 3 ∧ lab f = some (some r, k) := by
  obtain ⟨i, hi, g, is, hg, hlen, hd⟩ := hf
  exact ⟨3 - is.length, by omega, by omega,
    h.below (h.root r hr) (ownerScheme_user r hi) hg hlen hd⟩

theorem Owned.userPage (hr : r ∈ roots) (hf : UserPage s r f) : lab f = some (some r, 0) := by
  obtain ⟨i, hi, g, is, pt, j, e, hg, hlen, hd, hleaf, rfl⟩ := hf
  have hpt := h.below (h.root r hr) (ownerScheme_user r hi) hg (by omega) hd
  rw [hlen] at hpt
  exact h.typed.labelled pt _ j _ _ hpt (ownerScheme_inner _ j (by decide)) (Mem.next_of_leaf hleaf)

/-- **What a process reaches is labelled with it.** -/
theorem Owned.userFrame (hr : r ∈ roots) (hf : UserFrame s r f) :
    ∃ k, k ≤ 3 ∧ lab f = some (some r, k) := by
  rcases hf with hf | hf
  · obtain ⟨k, -, hk, hlab⟩ := h.userTable hr hf
    exact ⟨k, hk, hlab⟩
  · exact ⟨0, by omega, h.userPage hr hf⟩

/-- Behind the slots of the direct map there is what was there in the beginning. -/
theorem Owned.direct_descend {i : Fin 512} (hi : 256 ≤ i.val) (hheap : ¬HeapSlot i)
    {js : List (Fin 512)} {x : ℕ} (hg : s0.next s0.kernelPml4 i = some g)
    (hx : descend (Mem.sub s0) is g = some x) (hlen : is.length + js.length ≤ 2)
    (hf : descend (Mem.sub s) js x = some f) : descend (Mem.sub s0) (is ++ js) g = some f := by
  induction js generalizing is x with
  | nil =>
    rw [List.append_nil]
    exact hx.trans hf
  | cons j js ih =>
    simp only [List.length_cons] at hlen
    have hphys := (h.direct i x hi hheap ⟨g, is, hg, by omega, hx⟩).2.2
    have hentry : s.entry x j = s0.entry x j := by rw [Mem.entry, hphys, Mem.entry]
    have hsub : Mem.sub s x j = Mem.sub s0 x j := by
      rw [Mem.sub, Mem.sub, Mem.next, Mem.next, hentry]
    rw [descend, hsub] at hf
    obtain ⟨y, hy, hrest⟩ := Option.bind_eq_some_iff.1 hf
    have hy' : descend (Mem.sub s0) (is ++ [j]) g = some y := by
      rw [descend_append, hx, Option.bind_some, descend, hy, Option.bind_some, descend]
    have hall := ih hy' (by simp only [List.length_append, List.length_singleton]; omega) hrest
    rwa [List.append_assoc, List.singleton_append] at hall

end

section

variable (h : Sound s0 lab roots st)
include h

theorem Sound.root (hr : st.Root r) : r = st.mem.kernelPml4 ∨ r ∈ roots := by
  rcases hr with rfl | ⟨p, hp, rfl⟩
  · exact .inl rfl
  · exact .inr (h.mem p hp)

/-- A table of the kernel carries no label of a process, or is a PML4. -/
theorem Sound.kernelTable {k : ℕ} (hf : KernelTable st f) (hlab : lab f = some (some r, k)) :
    k = 4 := by
  obtain ⟨root, hroot, hcase⟩ := hf
  obtain ⟨o, ho⟩ := h.owned.pml4 (h.root hroot)
  rcases hcase with rfl | ⟨i, hi, g, is, hg, hlen, hd⟩
  · exact (Prod.mk.inj (Option.mem_unique hlab ho)).2
  · by_cases hheap : HeapSlot i
    · have hnone := h.owned.below ho (ownerScheme_heap o hheap) hg hlen hd
      rw [hlab] at hnone
      cases hnone
    · have hentry := h.owned.upper root (h.root hroot) i hi hheap
      have hg0 : s0.next s0.kernelPml4 i = some g := by
        rw [Mem.next, ← hentry]
        exact hg
      have hhere : descend (Mem.sub s0) [] g = some g := rfl
      have hbelow := h.owned.direct_descend hi hheap hg0 hhere (by simpa using hlen) hd
      have hnone := (h.owned.direct i f hi hheap ⟨g, is, hg0, hlen, hbelow⟩).2.1
      rw [hlab] at hnone
      cases hnone

/-- A page of the heap is the kernel's. -/
theorem Sound.heapFrame (hf : HeapFrame st f) : lab f = some (none, 0) := by
  obtain ⟨root, hroot, v, e, hstart, hlimit, hwalk, rfl⟩ := hf
  obtain ⟨o, ho⟩ := h.owned.pml4 (h.root hroot)
  have hslot : HeapSlot (pml4Index v) := by
    have hroom := h.owned.room
    simp only [kernelHeapStart, heapTop] at hstart hroom
    show 320 ≤ v / 2 ^ 39 % 512 ∧ v / 2 ^ 39 % 512 < 511
    omega
  exact h.owned.walk ho (ownerScheme_heap o hslot) hwalk

/-- **Labels isolate.** -/
theorem Sound.isolated : Isolated st where
  users i j p q hi hj hne f hp hq := by
    obtain ⟨k, -, hlab⟩ := h.owned.userFrame (h.mem p (List.mem_of_getElem? hi)) hp
    obtain ⟨k', -, hlab'⟩ := h.owned.userFrame (h.mem q (List.mem_of_getElem? hj)) hq
    have hsame : p.cr3 = q.cr3 := by
      simpa using congrArg Prod.fst (Option.mem_unique hlab hlab')
    have hcr3 : ∀ {n : ℕ} {proc : Proc}, st.procs[n]? = some proc →
        (st.procs.map Proc.cr3)[n]? = some proc.cr3 := fun hn => by
      rw [List.getElem?_map, hn, Option.map_some]
    refine hne ((List.getElem?_inj ?_ h.distinct).1 ((hcr3 hi).trans ?_))
    · exact (List.getElem?_eq_some_iff.1 (hcr3 hi)).1
    · rw [hsame, hcr3 hj]
  heap p hp f hf hheap := by
    obtain ⟨k, -, hlab⟩ := h.owned.userFrame (h.mem p hp) hf
    rw [h.heapFrame hheap] at hlab
    cases hlab
  kernel p hp f hf hkernel := by
    obtain ⟨k, hk, hlab⟩ := h.owned.userFrame (h.mem p hp) hf
    have hfour := h.kernelTable hkernel hlab
    omega
  pages p hp f hf := by
    obtain ⟨k, hk, -, hlab⟩ := h.owned.userTable (h.mem p hp) hf.1
    rw [h.owned.userPage (h.mem p hp) hf.2] at hlab
    cases hlab
    omega
  noLarge p hp i g is f j hi hg hlen hd := by
    have hlab := h.owned.below (h.owned.root _ (h.mem p hp)) (ownerScheme_user _ hi) hg (by omega) hd
    exact h.owned.small f _ _ j hlab (by omega) (by omega)

end

/-! ## From boot on -/

/-- **Before the first process**: every frame that the kernel's tables use is marked, and `lab`
gives the heap's tables and pages, if there are any yet, their level.  Physical memory fits the
direct map, which ends where the heap starts, and the heap's limit is as far as the frames it
took. -/
structure Boot (s : Mem) (lab : ℕ → Option Label) : Prop where
  typed : Typed ownerScheme s lab
  owner : ∀ f o k, lab f = some (o, k) → o = none
  root : lab s.kernelPml4 = some (none, 4)
  null : lab 0 = none
  direct : ∀ (i : Fin 512) f, 256 ≤ i.val → ¬HeapSlot i → TableBelow s s.kernelPml4 i f →
    s.pmm.bitmapTest f = true ∧ f ≠ 0 ∧ lab f = none
  start : kernelHeapStart ≤ s.heapCurrentLimit
  room : s.heapCurrentLimit + 4096 * s.pmm.freeCount ≤ heapTop
  memory : s.pmm.totalPages ≤ 2 ^ 33

theorem Boot.kept (h : Boot s lab) : Kept s ⟨s, []⟩ := by
  refine ⟨lab, [], ?_, List.nodup_nil, fun _ => (nomatch ·), fun _ => (nomatch ·)⟩
  exact
    { typed := h.typed
      kernel := rfl
      kernelRoot := h.root
      root := fun r hr => by cases hr
      null := h.null
      small := fun f o k i hf => by cases h.owner f _ k hf
      upper := fun r hr i _ _ => by
        obtain rfl := hr.resolve_right List.not_mem_nil
        rfl
      direct := fun i f hi hheap hf => by
        obtain ⟨hused, h0, hnone⟩ := h.direct i f hi hheap hf
        exact ⟨⟨hused, h0⟩, hnone, rfl⟩
      start := h.start
      room := h.room
      memory := h.memory }

/-- Beside the memory the direct map may show, there is room for a heap of 512 GiB. -/
theorem room_of_memory (hlimit : s.heapCurrentLimit ≤ kernelHeapStart + 2 ^ 39)
    (hmem : s.pmm.totalPages ≤ 2 ^ 33) : s.heapCurrentLimit + 4096 * s.pmm.freeCount ≤ heapTop := by
  have hfew := s.pmm.freeCount_le
  unfold kernelHeapStart at hlimit
  unfold heapTop
  omega

/-- The kernel's PML4 in frame 1 of `n`, and the frames above it free. -/
def plainFrames (n : ℕ) : Mem :=
  { sixteenFrames with pmm := { sixteenFrames.pmm with totalPages := n } }

theorem plainFrames_next (n : ℕ) (i : Fin 512) : (plainFrames n).next 1 i = none := by
  rw [Mem.next, show (plainFrames n).entry 1 i = .ofRaw 0 from Page.entry_zero i]
  rfl

theorem plainFrames_boot {n : ℕ} (hn : n ≤ 2 ^ 33) :
    Boot (plainFrames n) fun f => if f = 1 then some (none, 4) else none where
  typed := by
    refine ⟨fun f l i l' g hf hl hg => ?_, fun f l hf => ?_⟩
    · split_ifs at hf with hf1
      rw [hf1, plainFrames_next] at hg
      cases hg
    · split_ifs at hf with hf1
      rw [hf1]
      show sixteenFrames.pmm.bitmapTest 1 = true
      decide
  owner f o k hf := by
    split_ifs at hf
    exact (Prod.mk.inj (Option.some.inj hf)).1.symm
  root := rfl
  null := rfl
  direct i f _ _ hf := by
    obtain ⟨g, is, hg, -⟩ := hf
    rw [show (plainFrames n).kernelPml4 = 1 from rfl, plainFrames_next] at hg
    cases hg
  start := Nat.le_refl _
  room := room_of_memory (Nat.le_add_right ..) hn
  memory := hn

/-- 126 free frames. -/
def manyFrames : Mem := { sixteenFrames with pmm := { sixteenFrames.pmm with totalPages := 128 } }

/-- Two processes, of which one asks for memory and the other grows its stack. -/
def twoProcesses : List Event :=
  [.createElf 0 twoSegments, .createElf 0 twoSegments, .allocPages 0 2,
    .pageFault 1 6 (usrStackBase - 6 * 4096), .heapExpand 4096, .switch (some 0) (some 1)]

theorem manyFrames_boot : Boot manyFrames fun f => if f = 1 then some (none, 4) else none :=
  plainFrames_boot (n := 128) (by decide)

theorem twoSegments_below47 : twoSegments.Below47 := by
  unfold ElfFile.Below47
  decide +kernel

end Hvos.Process
