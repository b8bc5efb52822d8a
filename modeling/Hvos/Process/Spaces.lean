import Hvos.Process.Elf

/-!
# Process/Spaces — the operations that build and change address spaces

`create_elf_process`, `sys_alloc_pages`, the stack growth of `page_fault_handler_c` and the switch
inside `schedule`, with the fields of `process_t` they use.  A run is a list of events; it ends
where an event halts the machine.
-/

namespace Hvos.Process

open Memory Prog

/-- `USR_STACK_BASE`. -/
def usrStackBase : ℕ := 0x7ffffffff000

/-- `USR_HEAP_BASE`. -/
def usrHeapBase : ℕ := 0x10000000

/-- `cr3`, as a frame number, and `heap_end`. -/
structure Proc where
  cr3 : ℕ
  heapEnd : ℕ

/-- A frame from `pmm_alloc`, mapped at `v` with `PTE_PRESENT | PTE_WRITABLE | PTE_USER`; a result
when there is none. -/
def mapUserPage (pml4 v : ℕ) : Prog Mem (Option Unit) := do
  match ← pmmAlloc with
  | none => pure (some ())
  | some frame =>
    mapPage pml4 v (frame * 4096) 7
    pure none

/-! ## `create_elf_process` -/

/-- `n` frames, if there are as many. -/
def allocFrames : ℕ → Prog Mem (Option (List ℕ))
  | 0 => pure (some [])
  | n + 1 => do
    match ← pmmAlloc with
    | none => pure none
    | some frame =>
      match ← allocFrames n with
      | none => pure none
      | some frames => pure (some (frame :: frames))

/-- The `new_task_kernel_stack_t` at the end of a page: `rip`, `cs`, `rflags`, `usermode_rsp` and
`usermode_ss` above fifteen zero registers. -/
def newTaskKernelStack (rip ustack : ℕ) (pg : Page) : Page :=
  (((((memzero pg (4096 - 160) 160).setWord 507 rip).setWord 508 (4 * 8 + 3)).setWord 509 0x202).setWord
    510 ustack).setWord 511 (3 * 8 + 3)

/-- `new_elf_process` for the kernel stack in frame `kstack`: a `process_t`, its three console
files, a `thread_t`, and a node in each of the two lists. -/
def newElfProcess (rip kstack : ℕ) : Prog Mem Unit := do
  let _ ← kzalloc 312
  let _ ← kzalloc 40
  let _ ← kzalloc 40
  let _ ← kzalloc 40
  let _ ← kmalloc 96
  Prog.modify fun s => s.setFrame kstack (newTaskKernelStack rip usrStackBase (s.phys kstack))
  let _ ← kzalloc 16
  let _ ← kzalloc 16
  pure ()

/-- `create_elf_process`. -/
def createElfProcess (elfBuffer : ℕ) (elf : ElfFile) : Prog Mem (Option Proc) := do
  let loaded ← loadElfBinary elfBuffer elf
  if loaded.1 = 0 then pure none
  else
    let pml4 := loaded.2.getD 0
    match ← forRange 6 fun i => mapUserPage pml4 (usrStackBase - 4096 * i) with
    | some _ => pure none
    | none =>
      match ← allocFrames 6 with
      | none => pure none
      | some kPages =>
        newElfProcess loaded.1 (kPages.getD 3 0)
        pure (some { cr3 := pml4, heapEnd := usrHeapBase })

/-! ## Pages for a process -/

/-- `sys_alloc_pages`, with the process as it is left.  `pages * PAGE_SIZE` is a `uint32_t`. -/
def sysAllocPages (pages : UInt32) (ct : Proc) : Prog Mem (ℕ × Proc) :=
  if pages = 0 then pure (0, ct)
  else do
    match ← forRange pages.toNat fun i => mapUserPage ct.cr3 (wrap (ct.heapEnd + 4096 * i)) with
    | some _ => pure (0, ct)
    | none =>
      pure (ct.heapEnd, { ct with heapEnd := wrap (ct.heapEnd + pages.toNat * 4096 % 2 ^ 32) })

/-- `page_fault_handler_c`: a new stack page for a user access to a page that is not present, in the
sixteen pages below `USR_STACK_BASE`; any other fault stops the machine. -/
def pageFaultHandler (errorCode cr2 : ℕ) (current : Proc) : Prog Mem Unit :=
  if Pte.bit errorCode 2 = true ∧ Pte.bit errorCode 0 = false ∧ cr2 < usrStackBase ∧
      usrStackBase - 16 * 4096 ≤ cr2 then do
    match ← mapUserPage current.cr3 (cr2 / 4096 * 4096) with
    | some _ => Prog.halt
    | none => pure ()
  else Prog.halt

/-! ## Runs -/

/-- The memory, and the processes created so far. -/
structure Sys where
  mem : Mem
  procs : List Proc

/-- A program on the memory. -/
def onMem {α : Type} (m : Prog Mem α) : Prog Sys α := fun st =>
  match m st.mem with
  | .done a s => .done a { st with mem := s }
  | .halt s => .halt { st with mem := s }

/-- The PML4 of a process, or the kernel's for a kernel thread. -/
def Sys.cr3 (st : Sys) : Option ℕ → Option ℕ
  | none => some st.mem.kernelPml4
  | some p => st.procs[p]?.map Proc.cr3

/-- Process `p` writes to its memory. -/
def userStore (v : ℕ) (b : UInt8) (current : Proc) (s : Mem) : Mem :=
  match s.walk current.cr3 v with
  | none => s
  | some e =>
    if (pml4Index v).val < 256 then
      s.setFrame e.address.val (Function.update (s.phys e.address.val) (Fin.ofNat _ v) b)
    else s

/-- What happens to address spaces. -/
inductive Event
  | createElf (elfBuffer : ℕ) (elf : ElfFile)
  | allocPages (p : ℕ) (pages : UInt32)
  | pageFault (p errorCode cr2 : ℕ)
  | store (p v : ℕ) (b : UInt8)
  | heapExpand (sizeNeeded : ℕ)
  | kmalloc (size : ℕ)
  | kfree (ptr : ℕ)
  | switch (current next : Option ℕ)

/-- One event.  Those of a process that does not exist do nothing. -/
def step : Event → Prog Sys Unit
  | .createElf elfBuffer elf => do
    match ← onMem (createElfProcess elfBuffer elf) with
    | none => pure ()
    | some proc => Prog.modify fun st => { st with procs := st.procs ++ [proc] }
  | .allocPages p pages => do
    match ← Prog.read fun st => st.procs[p]? with
    | none => pure ()
    | some ct =>
      let r ← onMem (sysAllocPages pages ct)
      Prog.modify fun st => { st with procs := st.procs.set p r.2 }
  | .pageFault p errorCode cr2 => do
    match ← Prog.read fun st => st.procs[p]? with
    | none => pure ()
    | some current => onMem (pageFaultHandler errorCode cr2 current)
  | .store p v b => do
    match ← Prog.read fun st => st.procs[p]? with
    | none => pure ()
    | some current => onMem (Prog.modify (userStore v b current))
  | .heapExpand sizeNeeded => do
    let _ ← onMem (heapExpand sizeNeeded)
    pure ()
  | .kmalloc size => do
    let _ ← onMem (kmalloc size)
    pure ()
  | .kfree ptr => onMem (Prog.modify fun s => s.kfree ptr)
  | .switch current next => do
    match ← Prog.read fun st => st.cr3 current, ← Prog.read fun st => st.cr3 next with
    | some src, some dst => onMem (Prog.modify (copyHalf src dst))
    | _, _ => pure ()

/-- A run. -/
def run : List Event → Prog Sys Unit
  | [] => pure ()
  | e :: es => do
    step e
    run es

theorem run_append (es es' : List Event) : run (es ++ es') = run es >>= fun _ => run es' := by
  induction es with
  | nil => rfl
  | cons e es ih =>
    show (step e >>= fun _ => run (es ++ es')) = (step e >>= fun _ => run es) >>= fun _ => run es'
    rw [ih, Prog.bind_assoc]

/-- A file whose segments lie below `2 ^ 47`. -/
def ElfFile.Below47 (elf : ElfFile) : Prop :=
  ∀ j < elf.ePhnum, (elf.pheader j).pType = ptLoad →
    (elf.pheader j).pVaddr + (elf.pheader j).pMemsz ≤ 2 ^ 47

/-- The files of the events are such. -/
def Event.Below47 : Event → Prop
  | .createElf _ elf => elf.Below47
  | _ => True

end Hvos.Process
