import Hvos.Syscall.Open

/-!
# Syscall/Usable — what a process can do with the descriptors it is given

`sys_open` and `sys_write` count 32 slots, `sys_read` only 16 descriptors.  So every descriptor that
is opened is a new one and good for writing, and one opened for reading is good for reading exactly
if it is below `MAX_FD` (`usable_iff`).
-/

namespace Hvos.Syscall

open Prog Fs Memory Function

/-! ## The checks before the operation -/

/-- `sys_read`, up to the read operation of the file: the open file and its operations, or the error
that is returned without it. -/
def readGate (fd buffer size : ℕ) : Prog Sys (Except ℤ (Ptr × FileOps)) := do
  if buffer = 0 ∨ size = 0 then pure (.error (-1))
  else do
    let filp ← slot fd
    let f ← onFs (handleAt filp)
    let mode ← accessMode f
    if mode = 1 then pure (.error (-9))
    else if fd ≥ maxFd ∨ filp = 0 then pure (.error (-1))
    else do
      let f ← onFs (handleAt filp)
      if f.fOps = .null then pure (.error (-1)) else pure (.ok (filp, f.fOps))

/-- `sys_write`, up to the write operation of the file. -/
def writeGate (fd : ℕ) : Prog Sys (Except ℤ (Ptr × FileOps)) := do
  if fd ≥ maxFilesPerProcess then pure (.error (-9))
  else do
    let filp ← slot fd
    if filp = 0 then pure (.error (-9))
    else do
      let f ← onFs (handleAt filp)
      if f.fOps = .null then pure (.error (-9))
      else do
        let mode ← accessMode f
        if mode = 0 then pure (.error (-9)) else pure (.ok (filp, f.fOps))

/-- The error, or the operation. -/
def afterGate (op : Ptr → FileOps → Prog Sys ℤ) : Except ℤ (Ptr × FileOps) → Prog Sys ℤ
  | .error e => pure e
  | .ok r => op r.1 r.2

variable {K : Kmalloc} {s : Sys} {fd buffer size : ℕ}

/-- The read operations. -/
def readOp (K : Kmalloc) (key : UInt8) (buffer size : ℕ) (filp : Ptr) : FileOps → Prog Sys ℤ
  | .null => pure (-1)
  | .console => consoleRead K key buffer
  | .ramfs => ramfsRead K filp buffer size

/-- The write operations. -/
def writeOp (K : Kmalloc) (buffer size : ℕ) (filp : Ptr) : FileOps → Prog Sys ℤ
  | .null => pure (-9)
  | .console => consoleWrite buffer size
  | .ramfs => ramfsWriteFrom K filp buffer size

theorem sysRead_eq (key : UInt8) : sysRead K key fd buffer size =
    readGate fd buffer size >>= afterGate (readOp K key buffer size) := by
  unfold sysRead readGate
  split_ifs
  · rfl
  simp only [bind_assoc]
  refine congrArg _ (funext fun filp => congrArg _ (funext fun f => congrArg _
    (funext fun mode => ?_)))
  split_ifs
  · rfl
  · rfl
  rw [bind_assoc, vfsRead]
  refine congrArg _ (funext fun g => ?_)
  cases hops : g.fOps with
  | null => rfl
  | ramfs => rfl
  | console => rfl

theorem sysWrite_eq : sysWrite K fd buffer size =
    writeGate fd >>= afterGate (writeOp K buffer size) := by
  unfold sysWrite writeGate
  split_ifs
  · rfl
  rw [bind_assoc]
  refine congrArg _ (funext fun filp => ?_)
  split_ifs
  · rfl
  rw [bind_assoc]
  refine congrArg _ (funext fun f => ?_)
  cases hops : f.fOps with
  | null => rfl
  | ramfs =>
    simp only [bind_assoc, reduceCtorEq, if_false]
    refine congrArg _ (funext fun mode => ?_)
    split_ifs <;> rfl
  | console =>
    simp only [bind_assoc, reduceCtorEq, if_false, if_true]
    refine congrArg _ (funext fun mode => ?_)
    split_ifs <;> rfl

/-- **`sys_read` reaches the read operation of the file**, if there is something to read. -/
def ReadAccepted (s : Sys) (fd : ℕ) : Prop :=
  ∀ buffer size, buffer ≠ 0 → size ≠ 0 →
    ∃ filp ops, readGate fd buffer size s = .done (.ok (filp, ops)) s

/-- **`sys_write` reaches the write operation of the file.** -/
def WriteAccepted (s : Sys) (fd : ℕ) : Prop :=
  ∃ filp ops, writeGate fd s = .done (.ok (filp, ops)) s

/-- Opened for reading: `O_RDONLY` or `O_RDWR`. -/
def ForReading (flags : UInt32) : Prop := flags &&& 3 = 0 ∨ flags &&& 3 = 2

/-- Opened for writing: `O_WRONLY` or `O_RDWR`. -/
def ForWriting (flags : UInt32) : Prop := flags &&& 3 = 1 ∨ flags &&& 3 = 2

/-! ## Open slots -/

/-- The slot of a file of the ramfs, opened with these flags. -/
structure OpenSlot (s : Sys) (fd : ℕ) (flags : UInt32) : Prop where
  lt : fd < maxFilesPerProcess
  ne_zero : s.fileTable s.pid fd ≠ 0
  file : ∃ f, s.fs.heap.get (s.fileTable s.pid fd) = some (.handle f) ∧ f.fOps = .ramfs ∧
    f.fFlags = some flags

theorem onFs_handleAt {filp : Ptr} {f : File} (h : s.fs.heap.get filp = some (.handle f)) :
    onFs (handleAt filp) s = .done f s := by
  have hf : handleAt filp s.fs = .done f s.fs := fetch_of_get h rfl
  simp only [onFs, hf]

namespace OpenSlot

variable {flags : UInt32}

/-- **`sys_read` wants a descriptor below `MAX_FD`.** -/
theorem readAccepted_iff (h : OpenSlot s fd flags) (hread : ForReading flags) :
    ReadAccepted s fd ↔ fd < maxFd := by
  obtain ⟨f, hf, hops, hflags⟩ := h.file
  have hmode : flags &&& 3 ≠ 1 := by
    intro hone
    rcases hread with h0 | h2
    · exact absurd (h0.symm.trans hone) (by decide)
    · exact absurd (h2.symm.trans hone) (by decide)
  have hgate : ∀ {buffer size}, buffer ≠ 0 → size ≠ 0 → readGate fd buffer size s =
      if fd ≥ maxFd then .done (.error (-1)) s
      else .done (.ok (s.fileTable s.pid fd, .ramfs)) s := by
    intro buffer size hbuffer hsize
    simp only [readGate, if_neg (not_or.2 ⟨hbuffer, hsize⟩), bind_apply, slot, read_apply,
      onFs_handleAt hf, accessMode, hflags, pure_apply, if_neg hmode, h.ne_zero, or_false]
    split_ifs
    · rfl
    · simp only [bind_apply, onFs_handleAt hf, hops, reduceCtorEq, if_false, pure_apply]
  refine ⟨fun hall => ?_, fun hlt buffer size hbuffer hsize => ?_⟩
  · obtain ⟨filp, ops, hdone⟩ := hall 1 1 one_ne_zero one_ne_zero
    by_contra hge
    rw [hgate one_ne_zero one_ne_zero, if_pos (not_lt.1 hge)] at hdone
    cases hdone
  · exact ⟨_, _, by rw [hgate hbuffer hsize, if_neg (not_le.2 hlt)]⟩

/-- **`sys_write` takes them all.** -/
theorem writeAccepted (h : OpenSlot s fd flags) (hwrite : ForWriting flags) :
    WriteAccepted s fd := by
  obtain ⟨f, hf, hops, hflags⟩ := h.file
  have hmode : flags &&& 3 ≠ 0 := by
    intro hzero
    rcases hwrite with h1 | h2
    · exact absurd (h1.symm.trans hzero) (by decide)
    · exact absurd (h2.symm.trans hzero) (by decide)
  refine ⟨s.fileTable s.pid fd, .ramfs, ?_⟩
  simp only [writeGate, if_neg (not_le.2 h.lt), bind_apply, slot, read_apply, if_neg h.ne_zero,
    onFs_handleAt hf, hops, reduceCtorEq, if_false, accessMode, hflags, pure_apply, if_neg hmode]

end OpenSlot

/-! ## One call -/

variable {N : Nodes} {s' : Sys} {flags : UInt32}

theorem Taken.openSlot (h : Taken N s flags fd s') (hpid : s'.pid = s.pid) :
    OpenSlot s' fd flags := by
  obtain ⟨filp, n, -, hne, -, htable, hget⟩ := h.table
  have hslot : s'.fileTable s'.pid fd = filp := by rw [hpid, htable, update_self, update_self]
  exact ⟨h.lt, by rwa [hslot], ⟨n.dentry, 0, .ramfs, some flags⟩, by rw [hslot, hget, update_self],
    rfl, rfl⟩

/-- **No slot in use is overwritten.** -/
theorem Taken.kept (h : Taken N s flags fd s') {pid i : ℕ} (hi : s.fileTable pid i ≠ 0) :
    s'.fileTable pid i = s.fileTable pid i := by
  obtain ⟨filp, n, -, -, -, htable, -⟩ := h.table
  rw [htable]
  by_cases hpid : pid = s.pid
  · subst hpid
    have hne : i ≠ fd := by
      rintro rfl
      exact hi h.free
    rw [update_self, update_of_ne hne]
  · rw [update_of_ne hpid]

/-- What was open before the call is open after it. -/
theorem OpenSlot.taken {flags' : UInt32} {i : ℕ} (h : OpenSlot s i flags)
    (htaken : Taken N s flags' fd s') (hpid : s'.pid = s.pid) : OpenSlot s' i flags := by
  obtain ⟨f, hf, hops, hflags⟩ := h.file
  have hslot : s'.fileTable s'.pid i = s.fileTable s.pid i := by
    rw [hpid]
    exact htaken.kept h.ne_zero
  obtain ⟨filp, n, -, -, hfree, -, hget⟩ := htaken.table
  have hne : s.fileTable s.pid i ≠ filp := by
    intro heq
    rw [heq, hfree] at hf
    cases hf
  exact ⟨h.lt, by rw [hslot]; exact h.ne_zero, f, by rw [hslot, hget, update_of_ne hne, hf], hops,
    hflags⟩

theorem OpenSlot.failed {r : ℤ} {i : ℕ} (h : OpenSlot s i flags) (hfailed : Failed s r s')
    (hpid : s'.pid = s.pid) : OpenSlot s' i flags := by
  refine ⟨h.lt, ?_, ?_⟩
  · rw [hpid, hfailed.table]
    exact h.ne_zero
  · rw [hpid, hfailed.table, hfailed.get]
    exact h.file

/-! ## A process that opens files -/

/-- A call of `sys_open`: what is in user memory by then, and the arguments. -/
structure OpenArgs where
  mem : ℕ → UInt8
  path : ℕ
  flags : UInt32

/-- A call that has returned. -/
structure OpenCall where
  before : Sys
  flags : UInt32
  fd : ℤ
  after : Sys

/-- The system, and the calls so far. -/
structure Opening where
  sys : Sys
  calls : List OpenCall

/-- **One more call**, if it returns. -/
def openStep (K : Kmalloc) (e : OpenArgs) (w : Opening) : Option Opening :=
  match sysOpen K e.path e.flags { w.sys with mem := e.mem } with
  | .done fd sys => some ⟨sys, w.calls ++ [⟨w.sys, e.flags, fd, sys⟩]⟩
  | .halt _ => none

/-- **Every opened descriptor is usable.** -/
structure Usable (w : Opening) : Prop where
  distinct : w.calls.Pairwise fun c d => 0 ≤ c.fd → 0 ≤ d.fd → c.fd ≠ d.fd
  kept : ∀ c ∈ w.calls, ∀ pid fd, c.before.fileTable pid fd ≠ 0 →
    c.after.fileTable pid fd = c.before.fileTable pid fd
  full : ∀ c ∈ w.calls, c.fd = -24 → TableFull c.before
  read : ∀ c ∈ w.calls, 0 ≤ c.fd → ForReading c.flags → ReadAccepted w.sys c.fd.toNat
  write : ∀ c ∈ w.calls, 0 ≤ c.fd → ForWriting c.flags → WriteAccepted w.sys c.fd.toNat

/-- **What the calls leave behind**: every descriptor that was returned has its slot. -/
structure Opens (N : Nodes) (w : Opening) : Prop where
  holds : Holds N w.sys.fs
  distinct : w.calls.Pairwise fun c d => 0 ≤ c.fd → 0 ≤ d.fd → c.fd ≠ d.fd
  call : ∀ c ∈ w.calls, Failed c.before c.fd c.after ∨
    ∃ fd : ℕ, c.fd = fd ∧ Taken N c.before c.flags fd c.after ∧ OpenSlot w.sys fd c.flags

/-- A descriptor that was returned has a slot. -/
theorem Opens.slot {w : Opening} (h : Opens N w) {c : OpenCall} (hc : c ∈ w.calls) (hge : 0 ≤ c.fd) :
    ∃ fd : ℕ, c.fd = fd ∧ Taken N c.before c.flags fd c.after ∧ OpenSlot w.sys fd c.flags :=
  (h.call c hc).resolve_left fun hfailed => absurd hge (not_le.2 hfailed.neg)

/-- **One call.** -/
theorem Opens.step {w w' : Opening} {e : OpenArgs} (h : Opens N w) (he : openStep K e w = some w') :
    Opens N w' := by
  have hcases := sysOpen_cases (K := K) (s := { w.sys with mem := e.mem }) h.holds e.path e.flags
  unfold openStep at he
  unfold Ensures at hcases
  cases hopen : sysOpen K e.path e.flags { w.sys with mem := e.mem } with
  | halt t =>
    rw [hopen] at he
    cases he
  | done r sys =>
    rw [hopen] at he hcases
    cases he
    obtain ⟨hholds, hpid, hend⟩ := hcases
    -- What the call did, in terms of the state without the new user memory.
    have hend : Failed w.sys r sys ∨ ∃ fd : ℕ, r = fd ∧ Taken N w.sys e.flags fd sys := by
      rcases hend with ⟨hneg, hfull, htable, hget⟩ | ⟨fd, hr, hlt, hfree, hfirst, hnew⟩
      · exact .inl ⟨hneg, hfull, htable, hget⟩
      · exact .inr ⟨fd, hr, hlt, hfree, hfirst, hnew⟩
    have hold : ∀ {i flags}, OpenSlot w.sys i flags → OpenSlot sys i flags := by
      intro i flags hslot
      rcases hend with hfailed | ⟨fd, -, htaken⟩
      · exact hslot.failed hfailed hpid
      · exact hslot.taken htaken hpid
    refine ⟨hholds, ?_, ?_⟩
    · rw [List.pairwise_append]
      refine ⟨h.distinct, List.pairwise_singleton .., fun c hc d hd hge hge' heq => ?_⟩
      obtain rfl := List.mem_singleton.1 hd
      obtain ⟨fd, hfd, -, hslot⟩ := h.slot hc hge
      rcases hend with hfailed | ⟨fd', hr, htaken⟩
      · exact absurd hge' (not_le.2 hfailed.neg)
      have hsame : fd = fd' := Int.ofNat.inj (hfd.symm.trans (heq.trans hr))
      exact hslot.ne_zero (hsame ▸ htaken.free)
    · intro c hc
      rcases List.mem_append.1 hc with hc | hc
      · rcases h.call c hc with hfailed | ⟨fd, hfd, htaken, hslot⟩
        · exact .inl hfailed
        · exact .inr ⟨fd, hfd, htaken, hold hslot⟩
      · obtain rfl := List.mem_singleton.1 hc
        rcases hend with hfailed | ⟨fd, hr, htaken⟩
        · exact .inl hfailed
        · exact .inr ⟨fd, hr, htaken, htaken.openSlot hpid⟩

theorem Opens.run {w : Opening} {es : List OpenArgs} (h : Holds N s.fs)
    (run : Run (openStep K) ⟨s, []⟩ es w) : Opens N w :=
  run.invariant (fun _ _ _ hI he => hI.step he) ⟨h, .nil, by simp⟩

/-- **Where descriptors are usable**: where every file that was opened for reading found a slot
among the first `MAX_FD`.  For every file system, every process on it and every sequence of
calls. -/
theorem usable_iff {w : Opening} {es : List OpenArgs} (h : Holds N s.fs)
    (run : Run (openStep K) ⟨s, []⟩ es w) :
    Usable w ↔ ∀ c ∈ w.calls, 0 ≤ c.fd → ForReading c.flags →
      ∃ fd < maxFd, c.before.fileTable c.before.pid fd = 0 := by
  have hI := Opens.run h run
  constructor
  · intro husable c hc hge hread
    obtain ⟨fd, hfd, htaken, hslot⟩ := hI.slot hc hge
    have haccepted := husable.read c hc hge hread
    rw [hfd, Int.toNat_natCast, hslot.readAccepted_iff hread] at haccepted
    exact ⟨fd, haccepted, htaken.free⟩
  · intro hroom
    refine ⟨hI.distinct, fun c hc pid i hi => ?_, fun c hc hr => ?_, fun c hc hge hread => ?_,
      fun c hc hge hwrite => ?_⟩
    · rcases hI.call c hc with hfailed | ⟨fd, -, htaken, -⟩
      · rw [hfailed.table]
      · exact htaken.kept hi
    · rcases hI.call c hc with hfailed | ⟨fd, hfd, -⟩
      · exact hfailed.full hr
      · omega
    · obtain ⟨fd, hfd, htaken, hslot⟩ := hI.slot hc hge
      obtain ⟨i, hi, hfree⟩ := hroom c hc hge hread
      rw [hfd, Int.toNat_natCast, hslot.readAccepted_iff hread]
      by_contra hlt
      exact htaken.first i (hi.trans_le (not_lt.1 hlt)) hfree
    · obtain ⟨fd, hfd, -, hslot⟩ := hI.slot hc hge
      rw [hfd, Int.toNat_natCast]
      exact hslot.writeAccepted hwrite

/-- `open("//f", O_RDONLY)`, in the process of `oneFileSys`. -/
def openOneFile : OpenArgs := ⟨oneFileSys.mem, 0x1000, 0⟩

/-- Two of them. -/
theorem usable_iff_twice :
    ∃ w, Run (openStep .endless) ⟨oneFileSys, []⟩ [openOneFile, openOneFile] w ∧
      w.calls.map (·.fd) = [3, 4] ∧ Usable w := by
  obtain ⟨N, h⟩ := oneFileSys_holds
  have hexec : (Run.exec (openStep .endless) [openOneFile, openOneFile] ⟨oneFileSys, []⟩).map
      (fun w => (w.calls.map (·.fd), w.calls.map fun c => c.before.fileTable c.before.pid 4)) =
      some ([3, 4], [0, 0]) := by decide +kernel
  obtain ⟨w, hw, hcalls⟩ := Option.map_eq_some_iff.1 hexec
  obtain ⟨hfds, hfree⟩ := Prod.mk.inj hcalls
  refine ⟨w, .of_exec hw, hfds, (usable_iff h (.of_exec hw)).2 fun c hc _ _ => ⟨4, by decide, ?_⟩⟩
  have hmem := List.mem_map_of_mem (f := fun c : OpenCall => c.before.fileTable c.before.pid 4) hc
  rw [hfree] at hmem
  simpa using hmem

/-- **The fourteenth is descriptor 16, and cannot be read.** -/
theorem fourteenth_unusable : (∃ N, Holds N oneFileSys.fs) ∧
      ∃ w, Run (openStep .endless) ⟨oneFileSys, []⟩ (List.replicate 14 openOneFile) w ∧
        ¬Usable w := by
  refine ⟨oneFileSys_holds, ?_⟩
  obtain ⟨N, h⟩ := oneFileSys_holds
  have hexec : (Run.exec (openStep .endless) (List.replicate 14 openOneFile) ⟨oneFileSys, []⟩).map
      (fun w => w.calls.map fun c => (c.fd, c.flags)) =
      some ((List.range 14).map fun i => (Int.ofNat (i + 3), 0)) := by decide +kernel
  obtain ⟨w, hw, hcalls⟩ := Option.map_eq_some_iff.1 hexec
  refine ⟨w, .of_exec hw, fun husable => ?_⟩
  have hmem : ((16 : ℤ), (0 : UInt32)) ∈ w.calls.map fun c => (c.fd, c.flags) := by
    rw [hcalls]
    decide
  obtain ⟨c, hc, heq⟩ := List.mem_map.1 hmem
  obtain ⟨hfd, hflags⟩ := Prod.mk.inj heq
  have hread : ForReading c.flags := by
    rw [hflags]
    exact .inl (by decide)
  have haccepted := husable.read c hc (by omega) hread
  obtain ⟨fd, hfd', -, hslot⟩ := (Opens.run h (.of_exec hw)).slot hc (by omega)
  rw [hfd', Int.toNat_natCast, hslot.readAccepted_iff hread] at haccepted
  unfold maxFd at haccepted
  omega

end Hvos.Syscall
