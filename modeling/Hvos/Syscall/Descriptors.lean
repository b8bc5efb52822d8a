import Hvos.Lib.Noted
import Hvos.Syscall.Structure

/-!
# Syscall/Descriptors — which descriptors `sys_read` and `sys_write` survive

`sys_write` looks at the descriptor before it looks at the table; `sys_read` follows
`file_table[fd]` to its flags first, and checks afterwards, against `MAX_FD`.  The two calls are
given once more with every index into the table and every entry they follow noted; without the notes
they are the calls of `Syscall/Handler` (`sysReadNoted_run`, `sysWriteNoted_run`).
-/

namespace Hvos.Syscall

open Prog Fs Memory Noted

/-! ## The calls, with what they do to the table -/

/-- An access by way of a descriptor. -/
inductive TableAccess
  | index (fd : ℕ)
  | follow (filp : Ptr)

/-- Within the table, and not through `NULL`. -/
def TableAccess.Legal : TableAccess → Prop
  | .index fd => fd < maxFilesPerProcess
  | .follow filp => filp ≠ 0

/-- `get_current_process()->file_table[fd]`. -/
def slotNoted (fd : ℕ) : Noted Sys TableAccess Ptr := do
  note [.index fd]
  lift (slot fd)

/-- A use of the `file_t` behind an entry. -/
def followed {α : Type} (filp : Ptr) (m : Prog Sys α) : Noted Sys TableAccess α := do
  note [.follow filp]
  lift m

variable (K : Kmalloc)

/-- `sys_read`. -/
def sysReadNoted (key : UInt8) (fd buffer size : ℕ) : Noted Sys TableAccess ℤ := do
  if buffer = 0 ∨ size = 0 then pure (-1)
  else do
    let filp ← slotNoted fd
    let f ← followed filp (onFs (handleAt filp))
    let mode ← followed filp (accessMode f)
    if mode = 1 then pure (-9)
    else if fd ≥ maxFd then pure (-1)
    else do
      note [.index fd]
      if filp = 0 then pure (-1)
      else do
        note [.index fd]
        followed filp (vfsRead K key filp buffer size)

/-- `sys_write`. -/
def sysWriteNoted (fd buffer size : ℕ) : Noted Sys TableAccess ℤ := do
  if fd ≥ maxFilesPerProcess then pure (-9)
  else do
    let filp ← slotNoted fd
    if filp = 0 then pure (-9)
    else do
      let f ← followed filp (onFs (handleAt filp))
      if f.fOps = .null then pure (-9)
      else do
        let mode ← followed filp (accessMode f)
        if mode = 0 then pure (-9)
        else if f.fOps = .console then followed filp (consoleWrite buffer size)
        else followed filp (ramfsWriteFrom K filp buffer size)

variable {K} {s : Sys} {fd buffer size : ℕ}

@[simp] theorem run_slotNoted (fd : ℕ) : (slotNoted fd).run = slot fd := by
  rw [slotNoted, run_bind, run_note, run_lift]
  rfl

@[simp] theorem run_followed {α : Type} (filp : Ptr) (m : Prog Sys α) :
    (followed filp m).run = m := by
  rw [followed, run_bind, run_note, run_lift]
  rfl

theorem sysReadNoted_run (key : UInt8) :
    (sysReadNoted K key fd buffer size).run = sysRead K key fd buffer size := by
  have hlate : ∀ filp : Ptr, (if fd ≥ maxFd then pure (-1)
      else (pure () : Prog Sys Unit) >>= fun _ => if filp = 0 then pure (-1)
        else (pure () : Prog Sys Unit) >>= fun _ => vfsRead K key filp buffer size) =
      if fd ≥ maxFd ∨ filp = 0 then pure (-1) else vfsRead K key filp buffer size := by
    intro filp
    by_cases hfd : fd ≥ maxFd
    · rw [if_pos hfd, if_pos (.inl hfd)]
    · rw [if_neg hfd]
      by_cases hz : filp = 0
      · rw [if_pos (show fd ≥ maxFd ∨ filp = 0 from .inr hz)]
        exact if_pos hz
      · rw [if_neg (show ¬(fd ≥ maxFd ∨ filp = 0) from not_or.2 ⟨hfd, hz⟩)]
        exact if_neg hz
  simp only [sysReadNoted, sysRead, run_ite, run_bind, run_pure, run_slotNoted, run_followed,
    run_note, hlate]

theorem sysWriteNoted_run : (sysWriteNoted K fd buffer size).run = sysWrite K fd buffer size := by
  simp only [sysWriteNoted, sysWrite, run_ite, run_bind, run_pure, run_slotNoted, run_followed]

/-! ## Any descriptor -/

/-- The descriptor is not one of the table, has no file, or has one opened with access mode
`mode`. -/
def BadDescriptor (s : Sys) (fd : ℕ) (mode : UInt32) : Prop :=
  maxFilesPerProcess ≤ fd ∨ s.fileTable s.pid fd = 0 ∨
    ∃ f flags, Opened s (s.fileTable s.pid fd) f ∧ f.fFlags = some flags ∧ flags &&& 3 = mode

/-- **Both calls survive the descriptor**: what they do to the table is legal, and a descriptor that
is no good (for `sys_read` one that is `O_WRONLY`, for `sys_write` one that is `O_RDONLY`) gives a
negative error and leaves everything as it was. -/
structure DescriptorSafe (K : Kmalloc) (key : UInt8) (fd buffer size : ℕ) (s : Sys) : Prop where
  read : AllNotes TableAccess.Legal (sysReadNoted K key fd buffer size) s
  write : AllNotes TableAccess.Legal (sysWriteNoted K fd buffer size) s
  readError : BadDescriptor s fd 1 →
    Ensures (sysRead K key fd buffer size) s (fun e s' => e < 0 ∧ s' = s) fun _ => False
  writeError : BadDescriptor s fd 0 →
    Ensures (sysWrite K fd buffer size) s (fun e s' => e < 0 ∧ s' = s) fun _ => False

theorem allNotes_followed {α : Type} {filp : Ptr} {m : Prog Sys α} (h : filp ≠ 0) :
    AllNotes TableAccess.Legal (followed filp m) s := by
  refine allNotes_bind.2 ⟨(allNotes_note _).2 ?_, fun _ _ _ => allNotes_lift m⟩
  simpa [TableAccess.Legal] using h

/-- The first accesses of `sys_read`. -/
theorem allNotes_slotNoted {α : Type} {f : Ptr → Noted Sys TableAccess α} :
    AllNotes TableAccess.Legal (slotNoted fd >>= f) s ↔
      fd < maxFilesPerProcess ∧ AllNotes TableAccess.Legal (f (s.fileTable s.pid fd)) s := by
  have hslot : AllNotes TableAccess.Legal (slotNoted fd) s ↔ fd < maxFilesPerProcess := by
    rw [slotNoted, allNotes_bind, allNotes_note]
    simp [TableAccess.Legal]
  rw [allNotes_bind, hslot, run_slotNoted]
  refine and_congr_right fun _ => ⟨fun h => h _ s rfl, fun h a s' heq => ?_⟩
  cases heq
  exact h

/-- **`sys_write` checks before it looks.** -/
theorem allNotes_sysWrite : AllNotes TableAccess.Legal (sysWriteNoted K fd buffer size) s := by
  unfold sysWriteNoted
  by_cases hfd : fd ≥ maxFilesPerProcess
  · rw [if_pos hfd]
    exact allNotes_pure _
  rw [if_neg hfd, allNotes_slotNoted]
  refine ⟨Nat.not_le.1 hfd, ?_⟩
  by_cases hz : s.fileTable s.pid fd = 0
  · rw [if_pos hz]
    exact allNotes_pure _
  rw [if_neg hz]
  refine allNotes_bind.2 ⟨allNotes_followed hz, fun f s' _ => ?_⟩
  by_cases hops : f.fOps = .null
  · rw [if_pos hops]
    exact allNotes_pure _
  rw [if_neg hops]
  refine allNotes_bind.2 ⟨allNotes_followed hz, fun mode s'' _ => ?_⟩
  split_ifs
  · exact allNotes_pure _
  · exact allNotes_followed hz
  · exact allNotes_followed hz

/-- **`sys_read` looks before it checks.** -/
theorem allNotes_sysRead_iff {key : UInt8} (hbuffer : buffer ≠ 0) :
    AllNotes TableAccess.Legal (sysReadNoted K key fd buffer size) s ↔
      size = 0 ∨ fd < maxFilesPerProcess ∧ s.fileTable s.pid fd ≠ 0 := by
  unfold sysReadNoted
  by_cases hsize : size = 0
  · rw [if_pos (.inr hsize)]
    exact iff_of_true (allNotes_pure _) (.inl hsize)
  rw [if_neg (not_or.2 ⟨hbuffer, hsize⟩), allNotes_slotNoted, or_iff_right hsize]
  refine and_congr_right fun hfd => ⟨fun h hz => ?_, fun hz => ?_⟩
  · have hfirst := (allNotes_bind.1 h).1
    rw [followed, allNotes_bind, allNotes_note] at hfirst
    exact hfirst.1 _ (List.mem_singleton_self _) hz
  · refine allNotes_bind.2 ⟨allNotes_followed hz, fun f s' _ => ?_⟩
    refine allNotes_bind.2 ⟨allNotes_followed hz, fun mode s'' _ => ?_⟩
    have hindex : ∀ t : Sys, AllNotes TableAccess.Legal (note [.index fd]) t := fun t => by
      simpa [TableAccess.Legal] using hfd
    split_ifs
    · exact allNotes_pure _
    · exact allNotes_pure _
    · refine allNotes_bind.2 ⟨hindex _, fun _ t _ => allNotes_bind.2 ⟨hindex _, fun _ u _ => ?_⟩⟩
      exact allNotes_followed hz

/-- **Which descriptors are safe**: with something to read, those that have a file. -/
theorem descriptorSafe_iff {key : UInt8} (hbuffer : buffer ≠ 0) :
    DescriptorSafe K key fd buffer size s ↔
      size = 0 ∨ fd < maxFilesPerProcess ∧ s.fileTable s.pid fd ≠ 0 := by
  refine ⟨fun h => (allNotes_sysRead_iff hbuffer).1 h.read, fun h => ⟨?_, ?_, fun hbad => ?_, ?_⟩⟩
  · exact (allNotes_sysRead_iff hbuffer).2 h
  · exact allNotes_sysWrite
  · refine sysRead_fails key (.inr ?_)
    rcases h with hsize | ⟨hfd, hz⟩
    · exact .inl hsize
    · obtain ⟨f, flags, hf, hflags, hmode⟩ := (hbad.resolve_left (Nat.not_le.2 hfd)).resolve_left hz
      exact .inr ⟨f, flags, hf, hflags, .inl hmode⟩
  · rintro (hfd | hz | ⟨f, flags, hf, hflags, hmode⟩)
    · exact sysWrite_fails (.inl hfd)
    · exact sysWrite_fails (.inr (.inl hz))
    · exact sysWrite_fails (.inr (.inr ⟨f, hf, .inr ⟨flags, hflags, .inl hmode⟩⟩))

/-- **Descriptor 3 of a new process** is followed to `NULL` by `sys_read`, and descriptor 32 is
looked for behind the table. -/
theorem newProcess_unsafe : sysRead .endless 97 3 4096 1 newProcess = .halt newProcess ∧
      ¬DescriptorSafe .endless 97 3 4096 1 newProcess ∧
      ¬DescriptorSafe .endless 97 32 4096 1 newProcess := by
  refine ⟨rfl, fun h => ?_, fun h => ?_⟩
  · exact (((allNotes_sysRead_iff (by decide)).1 h.read).resolve_left (by decide)).2 rfl
  · exact absurd (((allNotes_sysRead_iff (by decide)).1 h.read).resolve_left (by decide)).1 (by decide)

/-- The console, and a descriptor without a file. -/
theorem descriptorSafe_iff_newProcess :
    DescriptorSafe .endless 97 0 4096 1 newProcess ∧
      ¬DescriptorSafe .endless 97 3 4096 1 newProcess :=
  ⟨(descriptorSafe_iff (by decide)).2 (.inr ⟨by decide, by decide⟩), fun h =>
    absurd ((descriptorSafe_iff (by decide)).1 h) (by simp [newProcess])⟩

end Hvos.Syscall
