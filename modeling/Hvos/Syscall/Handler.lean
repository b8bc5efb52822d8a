import Hvos.Fs.Vfs

/-!
# Syscall/Handler — the system calls that take a pointer

`syscall_handler` for `SC_READ`, `SC_WRITE`, `SC_OPEN`, `SC_EXECVE`, `SC_UPRINT` and `SC_TIME`, over
the file system, the file tables of the processes and the memory a pointer leads to.  `touched`
records every address a call uses through its pointer argument.
-/

namespace Hvos.Syscall

open Prog Fs Memory

/-! ## The kernel as a system call sees it -/

/-- The file system, `file_table` of each process, whose turn it is, and what a load from an address
gives in its address space.  What stands behind the 32 slots of a table is whatever it is. -/
structure Sys where
  fs : FsState
  fileTable : ℕ → ℕ → Ptr
  pid : ℕ
  mem : ℕ → UInt8
  touched : List ℕ

/-- What a call gets from elsewhere: the character `console_read` waits for, `dttots(now())`, and
what `execute_elf` makes of a path. -/
structure Outside where
  key : UInt8
  time : ℕ
  load : CString → ℤ

/-- The registers of `pt_regs_t` that are used. -/
structure Frame where
  origAx : UInt64
  rdi : UInt64
  rsi : UInt64
  rdx : UInt64
  rax : UInt64

/-- A call into the file system. -/
def onFs {α : Type} (m : Prog FsState α) : Prog Sys α := fun s =>
  match m s.fs with
  | .done a fs => .done a { s with fs }
  | .halt fs => .halt { s with fs }

/-! ## Through a pointer -/

/-- The addresses of `n` bytes from `p` on; they wrap. -/
def bytesFrom (p n : ℕ) : List ℕ := (List.range n).map fun k => wrap (p + k)

/-- Use these addresses. -/
def touch (addresses : List ℕ) : Prog Sys Unit :=
  Prog.modify fun s => { s with touched := s.touched ++ addresses }

/-- Load `n` bytes. -/
def loadBytes (p n : ℕ) : Prog Sys (ℕ → UInt8) := do
  touch (bytesFrom p n)
  Prog.read fun s k => s.mem (wrap (p + k))

/-- The distance to the first `NUL`, from `k` on and within `n` bytes. -/
def strlenFrom (mem : ℕ → UInt8) (p : ℕ) : ℕ → ℕ → Option ℕ
  | 0, _ => none
  | n + 1, k => if mem (wrap (p + k)) = 0 then some k else strlenFrom mem p n (k + 1)

/-- The bytes of a string, its `NUL` among them; all there are if it has none. -/
def stringSize (mem : ℕ → UInt8) (p : ℕ) : ℕ :=
  ((strlenFrom mem p (2 ^ 64) 0).map (· + 1)).getD (2 ^ 64)

/-- Load a string to its end. -/
def loadString (p : ℕ) : Prog Sys CString := do
  let mem ← Prog.read fun s => s.mem
  touch (bytesFrom p (stringSize mem p))
  match strlenFrom mem p (2 ^ 64) 0 with
  | none => Prog.halt
  | some n => pure ((List.range n).map fun k => mem (wrap (p + k)))

variable (K : Kmalloc)

/-- Store `n` bytes.  Above user space they may land on the objects of the kernel. -/
def storeBytes (p : ℕ) (src : ℕ → UInt8) (n : ℕ) : Prog Sys Unit := do
  touch (bytesFrom p n)
  Prog.modify fun s => { s with
    mem := fun a => if wsub a p < n then src (wsub a p) else s.mem a
    fs := { s.fs with heap := clobberRange K s.fs.heap p src n } }

/-! ## Open files -/

/-- `MAX_FILES_PER_PROCESS`. -/
def maxFilesPerProcess : ℕ := 32

/-- `MAX_FD`. -/
def maxFd : ℕ := 16

/-- `get_current_process()->file_table[fd]`. -/
def slot (fd : ℕ) : Prog Sys Ptr := Prog.read fun s => s.fileTable s.pid fd

/-- `f_flags & 3` of an open file; flags that were never set are not looked at. -/
def accessMode (f : File) : Prog Sys UInt32 :=
  match f.fFlags with
  | none => Prog.halt
  | some flags => pure (flags &&& 3)

/-- `f_pos += count`. -/
def advance (filp count : ℕ) : Prog Sys Unit := do
  let f ← onFs (handleAt filp)
  onFs (store filp (.handle { f with fPos := wrap (f.fPos + count) }))

/-- A `uint64_t` as `int64_t`. -/
def signed (n : ℕ) : ℤ := if n < 2 ^ 63 then n else n - 2 ^ 64

/-- How many bytes `ramfs_read` copies when there is something to read: the rest of the file is
added to a size that goes past it. -/
def readSize (iSize offset size : ℕ) : ℕ :=
  if wrap (offset + size) > iSize then wrap (size + (iSize - offset)) else size

/-- `ramfs_read`, with `f_pos` as its offset.  The copy starts at the beginning of the file. -/
def ramfsRead (filp buffer size : ℕ) : Prog Sys ℤ := do
  let f ← onFs (handleAt filp)
  let d ← onFs (dentryAt f.fDentry)
  let inode ← onFs (inodeAt d.dInode)
  if inode.iPrivate = 0 then pure 0
  else do
    let fdata ← onFs (fileAt inode.iPrivate)
    if fdata.buffer = 0 ∨ f.fPos ≥ inode.iSize then pure 0
    else do
      let count := readSize inode.iSize f.fPos size
      let content ← onFs (bytesAt K fdata.buffer)
      storeBytes K buffer content count
      advance filp count
      pure (signed count)

/-- `console_read`, once there is a character. -/
def consoleRead (key : UInt8) (buffer : ℕ) : Prog Sys ℤ := do
  storeBytes K buffer (fun _ => key) 1
  pure 1

/-- `vfs_read` on an open file. -/
def vfsRead (key : UInt8) (filp buffer size : ℕ) : Prog Sys ℤ := do
  let f ← onFs (handleAt filp)
  match f.fOps with
  | .null => pure (-1)
  | .console => consoleRead K key buffer
  | .ramfs => ramfsRead K filp buffer size

/-- `console_write`. -/
def consoleWrite (buffer count : ℕ) : Prog Sys ℤ := do
  touch (bytesFrom buffer count)
  pure count

/-- `ramfs_write` from a pointer, with `f_pos` as its offset: the bytes are loaded by its `memcpy`,
which it does not reach without private data. -/
def ramfsWriteFrom (filp buffer size : ℕ) : Prog Sys ℤ := do
  let f ← onFs (handleAt filp)
  let src ← Prog.read fun s k => s.mem (wrap (buffer + k))
  let r ← onFs (ramfsWrite K filp src size f.fPos)
  if r.1 < 0 then pure r.1
  else do
    touch (bytesFrom buffer size)
    advance filp size
    pure r.1

/-! ## The calls -/

/-- `sys_open`. -/
def sysOpen (path : ℕ) (flags : UInt32) : Prog Sys ℤ := do
  let root ← Prog.read fun s => s.fs.rootDentry
  if root = 0 ∨ path = 0 then pure (-1)
  else do
    let c ← loadBytes path 1
    let path := if c 0 = slash then wrap (path + 1) else path
    let fd ← Prog.read fun s =>
      (List.range maxFilesPerProcess).find? fun i => s.fileTable s.pid i = 0
    match fd with
    | none => pure (-24)
    | some fd => do
      let str ← loadString path
      let dentry ← onFs (vfsLookup K (some str))
      if dentry = 0 then pure (-2)
      else do
        let d ← onFs (dentryAt dentry)
        if d.dInode = 0 then pure (-2)
        else do
          let inode ← onFs (inodeAt d.dInode)
          let file ← onFs (kmalloc K 40
            (.handle ⟨dentry, 0, if inode.iOps then .ramfs else .null, some flags⟩))
          Prog.modify fun s => { s with
            fileTable := Function.update s.fileTable s.pid
              (Function.update (s.fileTable s.pid) fd file) }
          pure fd

/-- `sys_read`: the slot is followed before the descriptor is looked at. -/
def sysRead (key : UInt8) (fd buffer size : ℕ) : Prog Sys ℤ := do
  if buffer = 0 ∨ size = 0 then pure (-1)
  else do
    let filp ← slot fd
    let f ← onFs (handleAt filp)
    let mode ← accessMode f
    if mode = 1 then pure (-9)
    else if fd ≥ maxFd ∨ filp = 0 then pure (-1)
    else vfsRead K key filp buffer size

/-- `sys_write`. -/
def sysWrite (fd buffer size : ℕ) : Prog Sys ℤ := do
  if fd ≥ maxFilesPerProcess then pure (-9)
  else do
    let filp ← slot fd
    if filp = 0 then pure (-9)
    else do
      let f ← onFs (handleAt filp)
      if f.fOps = .null then pure (-9)
      else do
        let mode ← accessMode f
        if mode = 0 then pure (-9)
        else if f.fOps = .console then consoleWrite buffer size
        else ramfsWriteFrom K filp buffer size

/-- `sys_print`. -/
def sysPrint (str : ℕ) : Prog Sys Unit := do
  let _ ← loadString str

/-- `sys_exec`: `execute_elf` reads the path to its end, to open it or to print it. -/
def sysExec (load : CString → ℤ) (path : ℕ) : Prog Sys ℤ := do
  if path = 0 then pure (-22)
  else do
    let str ← loadString path
    pure (load str)

/-- `sys_time`. -/
def sysTime (time ptr : ℕ) : Prog Sys ℤ := do
  storeBytes K ptr (fun k => UInt8.ofNat (time / 256 ^ k)) 8
  pure 0

/-! ## `syscall_handler` -/

/-- The calls with a pointer argument. -/
inductive Sysno
  | read | write | openFile | execve | uprint | time
  deriving DecidableEq, Repr

/-- `SC_READ`, `SC_WRITE`, `SC_OPEN`, `SC_EXECVE`, `SC_UPRINT`, `SC_TIME`. -/
def Sysno.number : Sysno → UInt64
  | .read => 0
  | .write => 1
  | .openFile => 2
  | .execve => 59
  | .uprint => 99
  | .time => 201

/-- The call of a frame, if it is one of these. -/
def Frame.sysno (frame : Frame) : Option Sysno :=
  [Sysno.read, .write, .openFile, .execve, .uprint, .time].find? (·.number = frame.origAx)

namespace Frame

variable (frame : Frame)

/-- `(int)frame->rdi`, as `unsigned int`. -/
def fd : ℕ := frame.rdi.toNat % 2 ^ 32

/-- `(uint32_t)frame->rdx`. -/
def size : ℕ := frame.rdx.toNat % 2 ^ 32

end Frame

/-- `syscall_handler`: the value of `frame->rax` at the end.  `SC_UPRINT` leaves it as it was. -/
def syscallHandler (out : Outside) (frame : Frame) : Prog Sys ℤ :=
  match frame.sysno with
  | some .uprint => do
    sysPrint frame.rdi.toNat
    pure (signed frame.rax.toNat)
  | some .read => sysRead K out.key frame.fd frame.rsi.toNat frame.size
  | some .write => sysWrite K frame.fd frame.rsi.toNat frame.size
  | some .openFile => sysOpen K frame.rdi.toNat frame.rsi.toUInt32
  | some .execve => sysExec out.load frame.rdi.toNat
  | some .time => sysTime K out.time frame.rdi.toNat
  | none => pure (signed frame.rax.toNat)

end Hvos.Syscall
