import Hvos.Syscall.Handler

/-!
# Syscall/Pointers — where the calls follow a pointer

A call is `Guarded` if it stays below `USER_SPACE_END` with its pointer, and rejects a range that
does not.  No handler checks its pointer, so a call is guarded exactly where it has another reason
to return an error, or where the range it is given, and the one it uses, are in user space.
-/

namespace Hvos.Syscall

open Prog Fs Memory

/-! ## Ranges -/

/-- All of these addresses are below `USER_SPACE_END`. -/
def Below (addresses : List ℕ) : Prop := ∀ a ∈ addresses, a < userSpaceEnd

theorem below_nil : Below [] := by simp [Below]

theorem below_append {l l' : List ℕ} : Below (l ++ l') ↔ Below l ∧ Below l' := by
  simp [Below, or_imp, forall_and]

variable {p n : ℕ}

theorem below_bytesFrom : Below (bytesFrom p n) ↔ ∀ k < n, wrap (p + k) < userSpaceEnd := by
  simp [Below, bytesFrom]

/-- User space has less than `2 ^ 63` bytes. -/
theorem Below.lt (h : Below (bytesFrom p n)) : n < 2 ^ 63 := by
  rw [below_bytesFrom] at h
  by_contra hn
  have hp := h 0 (by omega)
  have hend := h (userSpaceEnd - wrap p) (by unfold userSpaceEnd; omega)
  unfold wrap userSpaceEnd at *
  omega

/-! ### Strings -/

variable {mem : ℕ → UInt8}

theorem strlenFrom_some {k m : ℕ} (h : strlenFrom mem p n k = some m) :
    k ≤ m ∧ mem (wrap (p + m)) = 0 ∧ ∀ j, k ≤ j → j < m → mem (wrap (p + j)) ≠ 0 := by
  induction n generalizing k with
  | zero => cases h
  | succ n ih =>
    rw [strlenFrom] at h
    split_ifs at h with hz
    · cases h
      exact ⟨le_rfl, hz, fun j hkj hjk => by omega⟩
    · obtain ⟨hle, hm, hbefore⟩ := ih h
      refine ⟨by omega, hm, fun j hkj hjm => ?_⟩
      rcases Nat.eq_or_lt_of_le hkj with rfl | hlt
      · exact hz
      · exact hbefore j hlt hjm

theorem strlenFrom_none {k : ℕ} (h : strlenFrom mem p n k = none) :
    ∀ j < n, mem (wrap (p + (k + j))) ≠ 0 := by
  induction n generalizing k with
  | zero => simp
  | succ n ih =>
    rw [strlenFrom] at h
    split_ifs at h with hz
    intro j hj
    cases j with
    | zero => exact hz
    | succ j =>
      have := ih h j (by omega)
      rwa [Nat.add_assoc, Nat.add_comm 1 j] at this

/-- **A string is in user space** if there is a `NUL` and everything up to it is. -/
theorem below_string : Below (bytesFrom p (stringSize mem p)) ↔
      ∃ n, mem (wrap (p + n)) = 0 ∧ ∀ j ≤ n, wrap (p + j) < userSpaceEnd := by
  unfold stringSize
  cases hlen : strlenFrom mem p (2 ^ 64) 0 with
  | none =>
    have hnul := strlenFrom_none hlen
    constructor
    · intro h
      exact absurd h.lt (by simp)
    · rintro ⟨n, hn, -⟩
      have hall := hnul (wrap n) (Nat.mod_lt _ (by decide))
      have heq : wrap (p + (0 + wrap n)) = wrap (p + n) := by
        unfold wrap
        omega
      rw [heq] at hall
      exact absurd hn hall
  | some m =>
    obtain ⟨-, hm, hbefore⟩ := strlenFrom_some hlen
    simp only [Option.map_some, Option.getD_some, below_bytesFrom]
    constructor
    · exact fun h => ⟨m, hm, fun j hj => h j (by omega)⟩
    · rintro ⟨n, hn, hall⟩ k hk
      refine hall k ?_
      by_contra hkn
      exact hbefore n (Nat.zero_le n) (by omega) hn

/-- A string in user space, from its first byte on. -/
theorem below_string_step (hp : p < 2 ^ 64) :
    Below (bytesFrom p (stringSize mem p)) ↔ p < userSpaceEnd ∧
      (mem p = 0 ∨ Below (bytesFrom (wrap (p + 1)) (stringSize mem (wrap (p + 1))))) := by
  have hfirst : wrap (p + 0) = p := wrap_of_lt hp
  have hnext : ∀ j, wrap (wrap (p + 1) + j) = wrap (p + (j + 1)) := by
    intro j
    unfold wrap
    omega
  rw [below_string, below_string]
  constructor
  · rintro ⟨n, hn, hall⟩
    refine ⟨hfirst ▸ hall 0 (Nat.zero_le n), ?_⟩
    cases n with
    | zero => exact .inl (hfirst ▸ hn)
    | succ n =>
      refine .inr ⟨n, by rw [hnext, hn], fun j hj => ?_⟩
      rw [hnext]
      exact hall (j + 1) (by omega)
  · rintro ⟨hlt, hz | ⟨n, hn, hall⟩⟩
    · refine ⟨0, by rw [hfirst, hz], fun j hj => ?_⟩
      rw [Nat.le_zero.1 hj, hfirst]
      exact hlt
    · refine ⟨n + 1, by rw [← hnext, hn], fun j hj => ?_⟩
      cases j with
      | zero => rwa [hfirst]
      | succ j =>
        rw [← hnext]
        exact hall j (by omega)

/-! ## The property, and when it holds -/

/-- The range a call is given. -/
def given (frame : Frame) (mem : ℕ → UInt8) : List ℕ :=
  match frame.sysno with
  | some .read | some .write => bytesFrom frame.rsi.toNat frame.size
  | some .openFile | some .execve | some .uprint =>
    bytesFrom frame.rdi.toNat (stringSize mem frame.rdi.toNat)
  | some .time => bytesFrom frame.rdi.toNat 8
  | none => []

/-- A call that begins. -/
def Sys.start (s : Sys) : Sys := { s with touched := [] }

/-- Memory, open files and file tables are the same. -/
structure Unchanged (s s' : Sys) : Prop where
  mem : s'.mem = s.mem
  objects : s'.fs.heap.get = s.fs.heap.get
  fileTable : s'.fileTable = s.fileTable

/-- **The property**: what is used through the pointer is below `USER_SPACE_END`, and a range that
is not is rejected. -/
structure Guarded (K : Kmalloc) (out : Outside) (frame : Frame) (s : Sys) : Prop where
  below : Below (syscallHandler K out frame s.start).state.touched
  rejects : ¬Below (given frame s.mem) →
    ∃ e s', syscallHandler K out frame s.start = .done e s' ∧ e < 0 ∧ Unchanged s s'

/-- The open file at `filp`. -/
def Opened (s : Sys) (filp : Ptr) (f : File) : Prop := handleAt filp s.fs = .done f s.fs

/-- The inode of an open file. -/
def OpenInode (s : Sys) (f : File) (i : Inode) : Prop :=
  ∃ d, dentryAt f.fDentry s.fs = .done d s.fs ∧ inodeAt d.dInode s.fs = .done i s.fs

/-- `sys_read` returns an error of its own. -/
def ReadFails (s : Sys) (fd buffer size : ℕ) : Prop :=
  buffer = 0 ∨ size = 0 ∨ ∃ f flags, Opened s (s.fileTable s.pid fd) f ∧ f.fFlags = some flags ∧
    (flags &&& 3 = 1 ∨ maxFd ≤ fd ∨ s.fileTable s.pid fd = 0 ∨ f.fOps = .null)

/-- `sys_read` stores `n` bytes: one from the console, those of `ramfs_read` from a file. -/
def Stores (s : Sys) (fd size n : ℕ) : Prop :=
  ∃ f, Opened s (s.fileTable s.pid fd) f ∧ f.fFlags ≠ none ∧
    (f.fOps = .console ∧ n = 1 ∨
      f.fOps = .ramfs ∧ ∃ i g, OpenInode s f i ∧ i.iPrivate ≠ 0 ∧
        fileAt i.iPrivate s.fs = .done g s.fs ∧ g.buffer ≠ 0 ∧ f.fPos < i.iSize ∧
        n = readSize i.iSize f.fPos size)

/-- `sys_write` returns an error of its own. -/
def WriteFails (s : Sys) (fd : ℕ) : Prop :=
  maxFilesPerProcess ≤ fd ∨ s.fileTable s.pid fd = 0 ∨
    ∃ f, Opened s (s.fileTable s.pid fd) f ∧
      (f.fOps = .null ∨ ∃ flags, f.fFlags = some flags ∧
        (flags &&& 3 = 0 ∨ f.fOps = .ramfs ∧ ∃ i, OpenInode s f i ∧ i.iPrivate = 0))

/-- There is no free slot. -/
def TableFull (s : Sys) : Prop := ∀ fd < maxFilesPerProcess, s.fileTable s.pid fd ≠ 0

/-- **When a call is guarded.** -/
def Harmless (frame : Frame) (s : Sys) : Prop :=
  match frame.sysno with
  | some .read => ReadFails s frame.fd frame.rsi.toNat frame.size ∨
      Below (given frame s.mem) ∧
        ∀ n, Stores s frame.fd frame.size n → Below (bytesFrom frame.rsi.toNat n)
  | some .write => WriteFails s frame.fd ∨ Below (given frame s.mem)
  | some .openFile => s.fs.rootDentry = 0 ∨ frame.rdi = 0 ∨
      TableFull s ∧ frame.rdi.toNat < userSpaceEnd ∨ Below (given frame s.mem)
  | some .execve => frame.rdi = 0 ∨ Below (given frame s.mem)
  | some .uprint | some .time => Below (given frame s.mem)
  | none => True

/-! ## Rules -/

variable {H : Sys → Prop}

section Rules

variable {K : Kmalloc} {α : Type} {s : Sys}

theorem ensures_onFs {m : Prog FsState α} {Q : α → Sys → Prop}
    (h : Ensures m s.fs (fun a fs => Q a { s with fs }) (fun fs => H { s with fs })) :
    Ensures (onFs m) s Q H := by
  unfold Ensures onFs at *
  cases hm : m s.fs with
  | done a fs =>
    rw [hm] at h
    exact h
  | halt fs =>
    rw [hm] at h
    exact h

/-- A fetch finds its object or stops, and changes nothing. -/
theorem ensures_fetch_cases {kind : Obj → Option α} {p : Ptr} {fs : FsState}
    {Q : α → FsState → Prop} {H : FsState → Prop} (hdone : ∀ a, fetch kind p fs = .done a fs → Q a fs)
    (hhalt : (∀ a, fetch kind p fs ≠ .done a fs) → H fs) : Ensures (fetch kind p) fs Q H := by
  unfold Ensures
  cases hk : (fs.heap.get p).bind kind with
  | none =>
    have hf : fetch kind p fs = .halt fs := by simp [fetch, hk]
    rw [hf]
    exact hhalt fun a ha => nomatch hf.symm.trans ha
  | some a =>
    have hf : fetch kind p fs = .done a fs := by simp [fetch, hk]
    rw [hf]
    exact hdone a hf

theorem ensures_onFs_fetch {kind : Obj → Option α} {p : Ptr} {Q : α → Sys → Prop}
    (hdone : ∀ a, fetch kind p s.fs = .done a s.fs → Q a s)
    (hhalt : (∀ a, fetch kind p s.fs ≠ .done a s.fs) → H s) : Ensures (onFs (fetch kind p)) s Q H :=
  ensures_onFs (ensures_fetch_cases hdone hhalt)

/-- The file system does not use the pointer. -/
theorem touched_onFs (m : Prog FsState α) :
    Ensures (onFs m) s (fun _ s' => s'.touched = s.touched) (fun s' => s'.touched = s.touched) := by
  refine ensures_onFs ?_
  unfold Ensures
  cases m s.fs <;> rfl

theorem touched_advance (filp count : ℕ) :
    Ensures (advance filp count) s (fun _ s' => s'.touched = s.touched)
      (fun s' => s'.touched = s.touched) :=
  (touched_onFs _).bind fun _ _ h => (touched_onFs _).mono (fun _ _ h' => h'.trans h)
    fun _ h' => h'.trans h

theorem touched_storeBytes (p : ℕ) (src : ℕ → UInt8) (n : ℕ) :
    Ensures (storeBytes K p src n) s (fun _ s' => s'.touched = s.touched ++ bytesFrom p n) H :=
  ensures_modify_bind (ensures_modify rfl)

theorem touched_loadString (p : ℕ) : Ensures (loadString p) s
      (fun _ s' => s'.touched = s.touched ++ bytesFrom p (stringSize s.mem p))
      (fun s' => s'.touched = s.touched ++ bytesFrom p (stringSize s.mem p)) := by
  unfold loadString
  refine ensures_read_bind (ensures_modify_bind ?_)
  cases strlenFrom s.mem p (2 ^ 64) 0 with
  | none => exact ensures_halt rfl
  | some n => exact ensures_pure rfl

theorem onFs_done {m : Prog FsState α} {a : α} (h : m s.fs = .done a s.fs) :
    onFs m s = .done a s := by
  simp [onFs, h]

end Rules

section Calls

variable {K : Kmalloc} {s : Sys} {fd buffer size : ℕ} {f g : File}

theorem Opened.unique {filp : Ptr} (hf : Opened s filp f) (hg : Opened s filp g) : f = g := by
  cases hf.symm.trans hg
  rfl

theorem OpenInode.unique {i j : Inode} (hi : OpenInode s f i) (hj : OpenInode s f j) : i = j := by
  obtain ⟨d, hd, hi⟩ := hi
  obtain ⟨e, he, hj⟩ := hj
  cases hd.symm.trans he
  cases hi.symm.trans hj
  rfl

/-! ## `sys_read` -/

theorem sysRead_fails (key : UInt8) (h : ReadFails s fd buffer size) :
    Ensures (sysRead K key fd buffer size) s (fun e s' => e < 0 ∧ s' = s) fun _ => False := by
  unfold sysRead
  by_cases hz : buffer = 0 ∨ size = 0
  · rw [if_pos hz]
    exact ensures_pure ⟨by decide, rfl⟩
  obtain ⟨f, flags, hf, hflags, hwhy⟩ := (h.resolve_left fun hb => hz (.inl hb)).resolve_left
    fun hs => hz (.inr hs)
  rw [if_neg hz]
  refine ensures_read_bind (ensures_bind (ensures_of_done (onFs_done hf) ?_))
  unfold accessMode
  rw [hflags]
  refine ensures_bind (ensures_pure ?_)
  split_ifs with hmode hfd
  · exact ensures_pure ⟨by decide, rfl⟩
  · exact ensures_pure ⟨by decide, rfl⟩
  · obtain ⟨hmax, hzero⟩ := not_or.1 hfd
    have hnull := ((hwhy.resolve_left hmode).resolve_left hmax).resolve_left hzero
    refine ensures_bind (ensures_of_done (onFs_done hf) ?_)
    rw [hnull]
    exact ensures_pure ⟨by decide, rfl⟩

/-- What a `sys_read` without an error of its own leaves: nothing was stored, or what was. -/
def ReadEnd (s : Sys) (fd buffer size : ℕ) (e : ℤ) (s' : Sys) : Prop :=
  (∀ n, ¬Stores s fd size n) ∧ e = 0 ∧ s' = s ∨
    ∃ n, Stores s fd size n ∧ s'.touched = s.touched ++ bytesFrom buffer n ∧ (e < 0 → 2 ^ 63 ≤ n)

theorem ramfsRead_runs (hf : Opened s (s.fileTable s.pid fd) f) (hflags : f.fFlags ≠ none)
    (hops : f.fOps = .ramfs) :
    Ensures (ramfsRead K (s.fileTable s.pid fd) buffer size) s (ReadEnd s fd buffer size)
      (ReadEnd s fd buffer size 0) := by
  -- The branches in which nothing is stored.
  have hidle : (∀ i g, OpenInode s f i → i.iPrivate ≠ 0 → fileAt i.iPrivate s.fs = .done g s.fs →
      ¬(g.buffer ≠ 0 ∧ f.fPos < i.iSize)) → ReadEnd s fd buffer size 0 s := by
    refine fun hno => .inl ⟨fun n hn => ?_, rfl, rfl⟩
    obtain ⟨f', hf', -, ⟨hcon, -⟩ | ⟨-, i, g, hi, hpriv, hg, hbuf, hpos, -⟩⟩ := hn
    · obtain rfl := hf.unique hf'
      rw [hops] at hcon
      cases hcon
    · obtain rfl := hf.unique hf'
      exact hno i g hi hpriv hg ⟨hbuf, hpos⟩
  unfold ramfsRead
  refine ensures_bind (ensures_of_done (onFs_done hf) (ensures_bind (ensures_onFs_fetch
    (fun d hd => ensures_bind (ensures_onFs_fetch (fun i hi => ?_) fun hno => ?_)) fun hno => ?_)))
  · have hinode : OpenInode s f i := ⟨d, hd, hi⟩
    by_cases hpriv : i.iPrivate = 0
    · rw [if_pos hpriv]
      exact ensures_pure (hidle fun j g hj hne _ => absurd (hinode.unique hj ▸ hpriv) hne)
    rw [if_neg hpriv]
    refine ensures_bind (ensures_onFs_fetch (fun g hg => ?_) fun hno => ?_)
    · by_cases hstop : g.buffer = 0 ∨ f.fPos ≥ i.iSize
      · rw [if_pos hstop]
        refine ensures_pure (hidle fun j g' hj _ hg' hgo => ?_)
        obtain rfl := hinode.unique hj
        cases hg.symm.trans hg'
        exact hstop.elim hgo.1 fun hge => absurd hgo.2 (not_lt.2 hge)
      rw [if_neg hstop]
      obtain ⟨hbuf, hpos⟩ := not_or.1 hstop
      set n := readSize i.iSize f.fPos size with hn
      have hstores : Stores s fd size n :=
        ⟨f, hf, hflags, .inr ⟨hops, i, g, hinode, hpriv, hg, hbuf, not_le.1 hpos, hn⟩⟩
      refine ensures_bind (ensures_onFs (ensures_read ((touched_storeBytes _ _ _).bind
        fun _ s1 h1 => ensures_bind ((touched_advance _ _).mono (fun _ s2 h2 => ?_)
          fun s2 h2 => ?_))))
      · refine ensures_pure (.inr ⟨n, hstores, h2.trans h1, fun hneg => ?_⟩)
        unfold signed at hneg
        split_ifs at hneg <;> omega
      · exact .inr ⟨n, hstores, h2.trans h1, fun hneg => absurd hneg (by decide)⟩
    · exact hidle fun j g' hj _ hg' => absurd (hinode.unique hj ▸ hg') (hno g')
  · refine hidle fun j g' ⟨d', hd', hj⟩ _ _ => ?_
    cases hd.symm.trans hd'
    exact absurd hj (hno j)
  · exact hidle fun j g' ⟨d', hd', _⟩ _ _ => absurd hd' (hno d')

theorem sysRead_runs (key : UInt8) (h : ¬ReadFails s fd buffer size) :
    Ensures (sysRead K key fd buffer size) s (ReadEnd s fd buffer size)
      (ReadEnd s fd buffer size 0) := by
  have hz : ¬(buffer = 0 ∨ size = 0) := fun hz => h (hz.imp_right .inl)
  unfold sysRead
  rw [if_neg hz]
  refine ensures_read_bind (ensures_bind (ensures_onFs_fetch (fun f hf => ?_) fun hno =>
    .inl ⟨fun n ⟨f, hf, _⟩ => hno f hf, rfl, rfl⟩))
  have hopened : Opened s (s.fileTable s.pid fd) f := hf
  unfold accessMode
  cases hflags : f.fFlags with
  | none =>
    refine ensures_bind (ensures_halt (.inl ⟨fun n ⟨f', hf', hset, _⟩ => hset ?_, rfl, rfl⟩))
    rw [← hopened.unique hf', hflags]
  | some flags =>
    refine ensures_bind (ensures_pure ?_)
    have hwhy : ¬(flags &&& 3 = 1 ∨ maxFd ≤ fd ∨ s.fileTable s.pid fd = 0 ∨ f.fOps = .null) :=
      fun hwhy => h (.inr (.inr ⟨f, flags, hopened, hflags, hwhy⟩))
    simp only [not_or] at hwhy
    obtain ⟨hmode, hmax, hzero, hnull⟩ := hwhy
    rw [if_neg hmode, if_neg (not_or.2 ⟨hmax, hzero⟩)]
    refine ensures_bind (ensures_of_done (onFs_done hf) ?_)
    cases hops : f.fOps with
    | null => exact absurd hops hnull
    | console =>
      refine (touched_storeBytes _ _ _).bind fun _ s1 h1 => ensures_pure (.inr ⟨1, ?_, h1, ?_⟩)
      · exact ⟨f, hopened, by simp [hflags], .inl ⟨hops, rfl⟩⟩
      · exact fun hneg => absurd hneg (by decide)
    | ramfs => exact ramfsRead_runs hopened (by simp [hflags]) hops

/-! ## `sys_write` -/

/-- Without private data `ramfs_write` returns `-1` and does nothing. -/
theorem ramfsWrite_null {filp : Ptr} {i : Inode} (hf : Opened s filp f) (hi : OpenInode s f i)
    (hz : i.iPrivate = 0) (src : ℕ → UInt8) (n offset : ℕ) {H : FsState → Prop} :
    Ensures (ramfsWrite K filp src n offset) s.fs (fun r fs => r.1 = -1 ∧ fs = s.fs) H := by
  obtain ⟨d, hd, hi⟩ := hi
  unfold ramfsWrite
  refine ensures_bind (ensures_of_done hf (ensures_bind (ensures_of_done hd
    (ensures_bind (ensures_of_done hi ?_)))))
  rw [if_pos hz]
  exact ensures_pure ⟨rfl, rfl⟩

theorem sysWrite_fails (h : WriteFails s fd) :
    Ensures (sysWrite K fd buffer size) s (fun e s' => e < 0 ∧ s' = s) fun _ => False := by
  unfold sysWrite
  by_cases hmax : fd ≥ maxFilesPerProcess
  · rw [if_pos hmax]
    exact ensures_pure ⟨by decide, rfl⟩
  rw [if_neg hmax]
  refine ensures_read_bind ?_
  by_cases hzero : s.fileTable s.pid fd = 0
  · rw [if_pos hzero]
    exact ensures_pure ⟨by decide, rfl⟩
  rw [if_neg hzero]
  obtain ⟨f, hf, hwhy⟩ := (h.resolve_left hmax).resolve_left hzero
  refine ensures_bind (ensures_of_done (onFs_done hf) ?_)
  by_cases hnull : f.fOps = .null
  · rw [if_pos hnull]
    exact ensures_pure ⟨by decide, rfl⟩
  obtain ⟨flags, hflags, hwhy⟩ := hwhy.resolve_left hnull
  unfold accessMode
  rw [if_neg hnull, hflags]
  refine ensures_bind (ensures_pure ?_)
  by_cases hmode : flags &&& 3 = 0
  · rw [if_pos hmode]
    exact ensures_pure ⟨by decide, rfl⟩
  obtain ⟨hops, i, hi, hpriv⟩ := hwhy.resolve_left hmode
  rw [if_neg hmode, if_neg (by simp [hops])]
  refine ensures_bind (ensures_of_done (onFs_done hf) (ensures_read_bind
    (ensures_bind (ensures_onFs ((ramfsWrite_null hf hi hpriv _ _ _).imp ?_)))))
  rintro r fs ⟨hr, rfl⟩
  rw [hr, if_pos (by decide)]
  exact ensures_pure ⟨by decide, rfl⟩

/-- A program that is not looked into. -/
theorem ensures_trivial {σ α : Type} (m : Prog σ α) (s : σ) :
    Ensures m s (fun _ _ => True) fun _ => True := by
  unfold Ensures
  cases m s <;> trivial

/-- With private data `ramfs_write` returns the size, if it returns. -/
theorem ramfsWrite_nonneg {filp : Ptr} (hf : Opened s filp f)
    (hpriv : ∀ i, OpenInode s f i → i.iPrivate ≠ 0) (src : ℕ → UInt8) (n offset : ℕ) :
    Ensures (ramfsWrite K filp src n offset) s.fs (fun r _ => 0 ≤ r.1) fun _ => True := by
  have hcopy : ∀ ino inode g (fs : FsState), Ensures (copyIn K ino inode g src n offset) fs
      (fun r _ => 0 ≤ r.1) fun _ => True := by
    intro ino inode g fs
    unfold copyIn
    refine (ensures_trivial _ fs).bind fun _ fs' _ => ?_
    dsimp only
    split_ifs
    · exact (ensures_trivial _ fs').bind fun _ _ _ => ensures_pure (Int.natCast_nonneg n)
    · exact ensures_pure (Int.natCast_nonneg n)
  unfold ramfsWrite
  refine ensures_bind (ensures_of_done hf (ensures_bind (ensures_fetch_cases (fun d hd =>
    ensures_bind (ensures_fetch_cases (fun i hi => ?_) fun _ => trivial)) fun _ => trivial)))
  rw [if_neg (hpriv i ⟨d, hd, hi⟩)]
  refine ensures_bind (ensures_fetch_cases (fun g _ => ?_) fun _ => trivial)
  dsimp only
  split_ifs
  · exact (ensures_trivial _ _).bind fun g' fs' _ => hcopy _ _ g' fs'
  · exact ensures_bind (ensures_pure (hcopy _ _ g s.fs))

/-- What a `sys_write` without an error of its own leaves. -/
theorem sysWrite_runs (h : ¬WriteFails s fd) (buffer size : ℕ) :
    Ensures (sysWrite K fd buffer size) s
      (fun e s' => 0 ≤ e ∧ s'.touched = s.touched ++ bytesFrom buffer size)
      (fun s' => s'.touched = s.touched ∨ s'.touched = s.touched ++ bytesFrom buffer size) := by
  simp only [WriteFails, not_or, not_exists, not_and] at h
  obtain ⟨hmax, hzero, hwhy⟩ := h
  unfold sysWrite
  rw [if_neg hmax]
  refine ensures_read_bind ?_
  rw [if_neg hzero]
  refine ensures_bind (ensures_onFs_fetch (fun f hf => ?_) fun _ => .inl rfl)
  obtain ⟨hnull, hwhy⟩ := hwhy f hf
  rw [if_neg hnull]
  unfold accessMode
  cases hflags : f.fFlags with
  | none => exact ensures_bind (ensures_halt (.inl rfl))
  | some flags =>
    obtain ⟨hmode, hpriv⟩ := hwhy flags hflags
    refine ensures_bind (ensures_pure ?_)
    rw [if_neg hmode]
    by_cases hcon : f.fOps = .console
    · rw [if_pos hcon]
      exact ensures_modify_bind (ensures_pure ⟨Int.natCast_nonneg size, rfl⟩)
    have hops : f.fOps = .ramfs := by
      cases ho : f.fOps with
      | null => exact absurd ho hnull
      | console => exact absurd ho hcon
      | ramfs => rfl
    rw [if_neg hcon]
    refine ensures_bind (ensures_of_done (onFs_done hf) (ensures_read_bind
      (ensures_bind (ensures_onFs ((ramfsWrite_nonneg hf (hpriv hops) _ _ _).mono ?_
        fun _ _ => .inl rfl)))))
    intro r fs hr
    rw [if_neg (not_lt.2 hr)]
    refine ensures_modify_bind (ensures_bind ((touched_advance _ _).mono
      (fun _ s2 h2 => ensures_pure ⟨hr, h2⟩) fun s2 h2 => .inr h2))

/-! ## `sys_open` -/

/-- Without a free slot only the first byte is read. -/
theorem sysOpen_full (path : ℕ) (flags : UInt32) (hroot : s.fs.rootDentry ≠ 0) (hpath : path ≠ 0)
    (hfull : TableFull s) : Ensures (sysOpen K path flags) s
      (fun e s' => e < 0 ∧ s' = { s with touched := s.touched ++ bytesFrom path 1 })
      fun _ => False := by
  have hfd : (List.range maxFilesPerProcess).find? (fun i => s.fileTable s.pid i = 0) = none :=
    List.find?_eq_none.2 fun fd hlt => by simpa using hfull fd (List.mem_range.1 hlt)
  unfold sysOpen
  refine ensures_read_bind ?_
  rw [if_neg (not_or.2 ⟨hroot, hpath⟩)]
  refine ensures_bind (ensures_modify_bind (ensures_read (ensures_read_bind ?_)))
  rw [hfd]
  exact ensures_pure ⟨by decide, rfl⟩

/-- `sys_open` reads its path to the end, unless there is no free slot. -/
theorem sysOpen_runs (path : ℕ) (flags : UInt32) (hroot : s.fs.rootDentry ≠ 0) (hpath : path ≠ 0)
    (hfull : ¬TableFull s) :
    let next := if s.mem (wrap (path + 0)) = slash then wrap (path + 1) else path
    let touched := s.touched ++ bytesFrom path 1 ++ bytesFrom next (stringSize s.mem next)
    Ensures (sysOpen K path flags) s (fun _ s' => s'.touched = touched)
      fun s' => s'.touched = touched := by
  intro next touched
  unfold sysOpen
  refine ensures_read_bind ?_
  rw [if_neg (not_or.2 ⟨hroot, hpath⟩)]
  refine ensures_bind (ensures_modify_bind (ensures_read (ensures_read_bind ?_)))
  cases hfd : (List.range maxFilesPerProcess).find? fun i => s.fileTable s.pid i = 0 with
  | none =>
    refine absurd (fun fd hlt hz => ?_) hfull
    exact absurd hz (by simpa using List.find?_eq_none.1 hfd fd (List.mem_range.2 hlt))
  | some fd =>
    dsimp only
    refine (touched_loadString next).bind fun str s1 h1 => ?_
    -- From here on only the file system is at work.
    refine (touched_onFs _).mono (fun p s2 h2 => h2.trans h1) (fun s2 h2 => h2.trans h1)
      |>.bind fun dentry s2 h2 => ?_
    split_ifs
    · exact ensures_pure h2
    refine (touched_onFs _).mono (fun p s3 h3 => h3.trans h2) (fun s3 h3 => h3.trans h2)
      |>.bind fun d s3 h3 => ?_
    split_ifs
    · exact ensures_pure h3
    refine (touched_onFs _).mono (fun p s4 h4 => h4.trans h3) (fun s4 h4 => h4.trans h3)
      |>.bind fun inode s4 h4 => ?_
    refine (touched_onFs _).mono (fun p s5 h5 => h5.trans h4) (fun s5 h5 => h5.trans h4)
      |>.bind fun file s5 h5 => ?_
    exact ensures_modify_bind (ensures_pure h5)

theorem Stores.unique {m : ℕ} (hn : Stores s fd size n) (hm : Stores s fd size m) : n = m := by
  obtain ⟨f, hf, -, hn⟩ := hn
  obtain ⟨f', hf', -, hm⟩ := hm
  obtain rfl := hf.unique hf'
  rcases hn with ⟨hops, rfl⟩ | ⟨hops, i, g, hi, -, -, -, -, rfl⟩ <;>
    rcases hm with ⟨hops', rfl⟩ | ⟨hops', j, g', hj, -, -, -, -, rfl⟩
  · rfl
  · exact absurd (hops.symm.trans hops') (by decide)
  · exact absurd (hops.symm.trans hops') (by decide)
  · rw [hi.unique hj]

end Calls

/-! ## Every call -/

section Guarded

variable {K : Kmalloc} {out : Outside} {frame : Frame} {s : Sys}

/-- A call that fails at once is guarded. -/
theorem Guarded.of_fails (h : Ensures (syscallHandler K out frame) s.start
    (fun e s' => e < 0 ∧ Unchanged s s' ∧ Below s'.touched) fun _ => False) :
    Guarded K out frame s := by
  obtain ⟨e, s', hrun, he, hs, hbelow⟩ := h.done
  exact ⟨by rw [hrun]; exact hbelow, fun _ => ⟨e, s', hrun, he, hs⟩⟩

/-- A call that uses these addresses, the given range among them. -/
theorem guarded_iff_of_touched {l : List ℕ} (h : Ensures (syscallHandler K out frame) s.start
    (fun _ s' => s'.touched = l) fun s' => s'.touched = l) (hgiven : Below l → Below (given frame s.mem)) :
    Guarded K out frame s ↔ Below l := by
  have hl : (syscallHandler K out frame s.start).state.touched = l := h.state
  refine ⟨fun hg => hl ▸ hg.below, fun hb => ⟨hl ▸ hb, fun hbad => absurd (hgiven hb) hbad⟩⟩

theorem guarded_read (h : frame.sysno = some .read) :
    Guarded K out frame s ↔ ReadFails s frame.fd frame.rsi.toNat frame.size ∨
      Below (given frame s.mem) ∧
        ∀ n, Stores s frame.fd frame.size n → Below (bytesFrom frame.rsi.toNat n) := by
  have hcall : syscallHandler K out frame =
      sysRead K out.key frame.fd frame.rsi.toNat frame.size := by
    simp only [syscallHandler, h]
  by_cases hfail : ReadFails s frame.fd frame.rsi.toNat frame.size
  · refine ⟨fun _ => .inl hfail, fun _ => .of_fails ?_⟩
    rw [hcall]
    refine (sysRead_fails (s := s.start) out.key hfail).imp ?_
    rintro e s' ⟨he, rfl⟩
    exact ⟨he, ⟨rfl, rfl, rfl⟩, below_nil⟩
  have hruns := sysRead_runs (K := K) (s := s.start) out.key hfail
  rw [← hcall] at hruns
  constructor
  · intro hg
    have hstored : ∀ n, Stores s frame.fd frame.size n → Below (bytesFrom frame.rsi.toNat n) := by
      intro n hn
      have htouched : (syscallHandler K out frame s.start).state.touched =
          bytesFrom frame.rsi.toNat n := by
        have hend : ∀ {e s'}, ReadEnd s.start frame.fd frame.rsi.toNat frame.size e s' →
            s'.touched = bytesFrom frame.rsi.toNat n := by
          rintro e s' (⟨hno, -⟩ | ⟨m, hm, ht, -⟩)
          · exact absurd hn (hno n)
          · rw [ht, Stores.unique hn hm]
            rfl
        exact (hruns.mono (fun _ _ => hend) fun _ => hend).state
      exact htouched ▸ hg.below
    refine .inr ⟨by_contra fun hbad => ?_, hstored⟩
    obtain ⟨e, s', hrun, he, -⟩ := hg.rejects hbad
    unfold Ensures at hruns
    rw [hrun] at hruns
    rcases hruns with ⟨-, rfl, -⟩ | ⟨n, hn, -, hbig⟩
    · exact absurd he (by decide)
    · exact absurd (hstored n hn).lt (not_lt.2 (hbig he))
  · rintro (hf | ⟨hgiven, hstored⟩)
    · exact absurd hf hfail
    refine ⟨?_, fun hbad => absurd hgiven hbad⟩
    have hend : ∀ {e s'}, ReadEnd s.start frame.fd frame.rsi.toNat frame.size e s' →
        Below s'.touched := by
      rintro e s' (⟨-, -, rfl⟩ | ⟨n, hn, ht, -⟩)
      · exact below_nil
      · rw [ht]
        exact hstored n hn
    exact (hruns.mono (fun _ _ => hend) fun _ => hend).state

theorem guarded_write (h : frame.sysno = some .write) :
    Guarded K out frame s ↔ WriteFails s frame.fd ∨ Below (given frame s.mem) := by
  have hcall : syscallHandler K out frame = sysWrite K frame.fd frame.rsi.toNat frame.size := by
    simp only [syscallHandler, h]
  have hrange : given frame s.mem = bytesFrom frame.rsi.toNat frame.size := by
    simp only [given, h]
  by_cases hfail : WriteFails s frame.fd
  · refine ⟨fun _ => .inl hfail, fun _ => .of_fails ?_⟩
    rw [hcall]
    refine (sysWrite_fails (s := s.start) hfail).imp ?_
    rintro e s' ⟨he, rfl⟩
    exact ⟨he, ⟨rfl, rfl, rfl⟩, below_nil⟩
  have hruns := sysWrite_runs (K := K) (s := s.start) hfail frame.rsi.toNat frame.size
  rw [← hcall] at hruns
  constructor
  · refine fun hg => .inr (by_contra fun hbad => ?_)
    obtain ⟨e, s', hrun, he, -⟩ := hg.rejects hbad
    unfold Ensures at hruns
    rw [hrun] at hruns
    exact absurd he (not_lt.2 hruns.1)
  · rintro (hf | hgiven)
    · exact absurd hf hfail
    refine ⟨?_, fun hbad => absurd hgiven hbad⟩
    rw [hrange] at hgiven
    refine Ensures.state (P := fun s' => Below s'.touched)
      (hruns.mono (fun _ s' h' => ?_) fun s' h' => ?_)
    · rw [h'.2]
      exact hgiven
    · rcases h' with h' | h' <;> rw [h']
      · exact below_nil
      · exact hgiven

theorem guarded_open (h : frame.sysno = some .openFile) :
    Guarded K out frame s ↔ s.fs.rootDentry = 0 ∨ frame.rdi = 0 ∨
      TableFull s ∧ frame.rdi.toNat < userSpaceEnd ∨ Below (given frame s.mem) := by
  have hcall : syscallHandler K out frame = sysOpen K frame.rdi.toNat frame.rsi.toUInt32 := by
    simp only [syscallHandler, h]
  have hrange : given frame s.mem = bytesFrom frame.rdi.toNat (stringSize s.mem frame.rdi.toNat) := by
    simp only [given, h]
  have hlt : frame.rdi.toNat < 2 ^ 64 := frame.rdi.toNat_lt
  have hfirst : wrap (frame.rdi.toNat + 0) = frame.rdi.toNat := wrap_of_lt hlt
  have hbyte : bytesFrom frame.rdi.toNat 1 = [frame.rdi.toNat] := by
    simp [bytesFrom, wrap_of_lt hlt]
  by_cases hnull : s.fs.rootDentry = 0 ∨ frame.rdi = 0
  · refine ⟨fun _ => hnull.imp_right .inl, fun _ => .of_fails ?_⟩
    have hnull' : s.fs.rootDentry = 0 ∨ frame.rdi.toNat = 0 :=
      hnull.imp_right fun hz => by simp [hz]
    rw [hcall]
    refine ensures_read_bind ?_
    rw [show s.start.fs.rootDentry = s.fs.rootDentry from rfl, if_pos hnull']
    exact ensures_pure ⟨by decide, ⟨rfl, rfl, rfl⟩, below_nil⟩
  obtain ⟨hroot, hpath⟩ := not_or.1 hnull
  have hpath' : frame.rdi.toNat ≠ 0 := fun hz => hpath (UInt64.toNat_inj.1 hz)
  by_cases hfull : TableFull s
  · have hrun := sysOpen_full (K := K) (s := s.start) frame.rdi.toNat frame.rsi.toUInt32 hroot
      hpath' hfull
    rw [← hcall] at hrun
    have huser : Guarded K out frame s ↔ frame.rdi.toNat < userSpaceEnd := by
      constructor
      · intro hg
        obtain ⟨e, s', hdone, -, rfl⟩ := hrun.done
        refine hg.below _ ?_
        rw [hdone, Outcome.state, hbyte]
        simp
      · refine fun hp => .of_fails (hrun.imp ?_)
        rintro e s' ⟨he, rfl⟩
        refine ⟨he, ⟨rfl, rfl, rfl⟩, ?_⟩
        rw [hbyte]
        simpa [Below, Sys.start] using hp
    rw [huser, hrange, below_string_step hlt]
    tauto
  · have hrun := sysOpen_runs (K := K) (s := s.start) frame.rdi.toNat frame.rsi.toUInt32 hroot
      hpath' hfull
    have hmem : s.start.mem = s.mem := rfl
    rw [← hcall, hfirst, hmem] at hrun
    have huses : Below (s.start.touched ++ bytesFrom frame.rdi.toNat 1 ++ bytesFrom
        (if s.mem frame.rdi.toNat = slash then wrap (frame.rdi.toNat + 1) else frame.rdi.toNat)
        (stringSize s.mem (if s.mem frame.rdi.toNat = slash then wrap (frame.rdi.toNat + 1)
          else frame.rdi.toNat))) ↔ Below (given frame s.mem) := by
      have hone : Below (s.start.touched ++ bytesFrom frame.rdi.toNat 1) ↔
          frame.rdi.toNat < userSpaceEnd := by
        rw [hbyte]
        simp [Below, Sys.start]
      rw [below_append, hone, hrange]
      split_ifs with hslash
      · have hne : s.mem frame.rdi.toNat ≠ 0 := by
          rw [hslash]
          decide
        rw [below_string_step hlt]
        tauto
      · rw [below_string_step hlt]
        tauto
    rw [guarded_iff_of_touched hrun huses.1, huses]
    tauto

theorem guarded_execve (h : frame.sysno = some .execve) :
    Guarded K out frame s ↔ frame.rdi = 0 ∨ Below (given frame s.mem) := by
  have hcall : syscallHandler K out frame = sysExec out.load frame.rdi.toNat := by
    simp only [syscallHandler, h]
  have hrange : given frame s.mem = bytesFrom frame.rdi.toNat (stringSize s.mem frame.rdi.toNat) := by
    simp only [given, h]
  by_cases hnull : frame.rdi = 0
  · refine ⟨fun _ => .inl hnull, fun _ => .of_fails ?_⟩
    rw [hcall, sysExec, if_pos (by simp [hnull])]
    exact ensures_pure ⟨by decide, ⟨rfl, rfl, rfl⟩, below_nil⟩
  have hpath : frame.rdi.toNat ≠ 0 := fun hz => hnull (UInt64.toNat_inj.1 hz)
  rw [guarded_iff_of_touched (s := s) (l := given frame s.mem) ?_ id]
  · tauto
  · rw [hcall, sysExec, if_neg hpath, hrange]
    exact (touched_loadString _).bind fun _ _ ht => ensures_pure ht

theorem guarded_uprint (h : frame.sysno = some .uprint) :
    Guarded K out frame s ↔ Below (given frame s.mem) := by
  refine guarded_iff_of_touched ?_ id
  have hrange : given frame s.mem = bytesFrom frame.rdi.toNat (stringSize s.mem frame.rdi.toNat) := by
    simp only [given, h]
  simp only [syscallHandler, h, hrange]
  exact ((touched_loadString _).bind fun _ _ ht => ensures_pure ht).bind fun _ _ ht =>
    ensures_pure ht

theorem guarded_time (h : frame.sysno = some .time) :
    Guarded K out frame s ↔ Below (given frame s.mem) := by
  refine guarded_iff_of_touched ?_ id
  have hrange : given frame s.mem = bytesFrom frame.rdi.toNat 8 := by
    simp only [given, h]
  simp only [syscallHandler, h, hrange]
  exact (touched_storeBytes _ _ _).bind fun _ _ ht => ensures_pure ht

/-- **Exactly the harmless calls are guarded.** -/
theorem guarded_iff_harmless (K : Kmalloc) (out : Outside) (frame : Frame) (s : Sys) :
    Guarded K out frame s ↔ Harmless frame s := by
  unfold Harmless
  cases h : frame.sysno with
  | none =>
    refine iff_of_true ⟨?_, fun hbad => absurd ?_ hbad⟩ trivial
    · simp only [syscallHandler, h]
      exact below_nil
    · simp only [given, h]
      exact below_nil
  | some n =>
    cases n with
    | read => exact guarded_read h
    | write => exact guarded_write h
    | openFile => exact guarded_open h
    | execve => exact guarded_execve h
    | uprint => exact guarded_uprint h
    | time => exact guarded_time h

/-- `SC_TIME` with an address of the kernel. -/
def kernelTime : Frame := ⟨201, 0xFFFFFFFF80000000, 0, 0, 0⟩

/-- A kernel before it has a file system. -/
def idle : Sys := ⟨⟨.empty, 0, 100⟩, fun _ _ => 0, 0, fun _ => 0, []⟩

/-- `sys_time` stores eight bytes there and returns `0`. -/
theorem kernelTime_stores : ¬Guarded .endless ⟨0, 0, fun _ => 0⟩ kernelTime idle ∧
      ∃ s, syscallHandler .endless ⟨0, 0, fun _ => 0⟩ kernelTime idle.start = .done 0 s ∧
        s.touched = bytesFrom 0xFFFFFFFF80000000 8 := by
  refine ⟨fun hg => ?_, _, rfl, rfl⟩
  have hlt : 0xFFFFFFFF80000000 < userSpaceEnd :=
    hg.below _ (show _ ∈ bytesFrom 0xFFFFFFFF80000000 8 by decide)
  exact absurd hlt (by decide)

end Guarded

end Hvos.Syscall
