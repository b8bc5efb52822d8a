import Hvos.Fs.Splice
import Hvos.Syscall.Structure

/-!
# Syscall/Slices — what `ramfs_read` returns

A read should give the bytes of the file from its position on, as many as were asked for and are
there.  `ramfs_read` copies from the beginning of the file, and where the end comes before the bytes
asked for, it takes more of them, not fewer.  Reading a file in chunks gives its bytes exactly if
every chunk is a repetition of its beginning (`readChunks_iff_allRepeat`).
-/

namespace Hvos.Syscall

open Prog Fs Memory Function

/-! ## The property -/

/-- How many bytes there are to read: those of `[pos, min (pos + size) iSize)`. -/
def sliceSize (iSize pos size : ℕ) : ℕ := min (pos + size) iSize - pos

/-- **A read of a slice** of the file with size `iSize` and these bytes, through the open file `f`:
the number of bytes is returned, they and no others are in memory, the position moves on by as many,
and nothing else changes. -/
def ReadsSlice (K : Kmalloc) (s : Sys) (filp : Ptr) (f : File) (buffer size iSize : ℕ)
    (byte : ℕ → UInt8) : Prop :=
  ∃ s', ramfsRead K filp buffer size s = .done (sliceSize iSize f.fPos size) s' ∧
    (∀ a, s'.mem a = if wsub a buffer < sliceSize iSize f.fPos size
      then byte (f.fPos + wsub a buffer) else s.mem a) ∧
    s'.fs.heap.get = update s.fs.heap.get filp
      (some (.handle { f with fPos := f.fPos + sliceSize iSize f.fPos size }))

/-- **When a read is right**: there is nothing left to read, or all the bytes asked for are there
and are the ones the file begins with. -/
def Repeats (pos size iSize : ℕ) (byte : ℕ → UInt8) : Prop :=
  iSize ≤ pos ∨ pos + size ≤ iSize ∧ size < 2 ^ 63 ∧ ∀ k < size, byte k = byte (pos + k)

/-- Read chunk after chunk, each of a size to a buffer, and put the bytes together. -/
def readChunks (K : Kmalloc) (filp : Ptr) : List (ℕ × ℕ) → Prog Sys (List UInt8)
  | [] => pure []
  | (buffer, size) :: cs => do
    let r ← ramfsRead K filp buffer size
    let chunk ← Prog.read fun s => (List.range r.toNat).map fun k => s.mem (buffer + k)
    let rest ← readChunks K filp cs
    pure (chunk ++ rest)

/-- `n` bytes from `pos` on. -/
def slice (byte : ℕ → UInt8) (pos n : ℕ) : List UInt8 := (List.range n).map fun k => byte (pos + k)

/-- **Every chunk repeats the beginning of the file**, or there is nothing left of it. -/
def AllRepeat (iSize : ℕ) (byte : ℕ → UInt8) : ℕ → List ℕ → Prop
  | _, [] => True
  | pos, size :: sizes =>
    Repeats pos size iSize byte ∧ AllRepeat iSize byte (pos + sliceSize iSize pos size) sizes

/-! ## The read -/

variable {pos size buffer : ℕ}

section Read

variable {K : Kmalloc} {N : Nodes} {m : Node} {s : Sys} {filp : Ptr} {f : File} {iSize : ℕ}
  {fdata : FileData} {byte : ℕ → UInt8}

/-- The end of a read that copies `n` bytes: those of the buffer of the file, from its first one. -/
structure Copied (K : Kmalloc) (s : Sys) (filp : Ptr) (f : File) (buffer n capacity : ℕ)
    (byte : ℕ → UInt8) (s' : Sys) : Prop where
  stored : ∀ a, wsub a buffer < n → wsub a buffer < capacity → s'.mem a = byte (wsub a buffer)
  kept : ∀ a, ¬wsub a buffer < n → s'.mem a = s.mem a
  root : s'.fs.rootDentry = s.fs.rootDentry
  moved : Clear K buffer n → s'.fs.heap.get = update s.fs.heap.get filp
    (some (.handle { f with fPos := wrap (f.fPos + n) }))

/-- The position moves on, unless there is no open file any more. -/
theorem advance_end (filp n : ℕ) (r : ℤ) : Ensures (do advance filp n; pure r) s
      (fun r' s' => r' = r ∧ s'.mem = s.mem ∧ s'.fs.rootDentry = s.fs.rootDentry ∧
        ∀ f, s.fs.heap.get filp = some (.handle f) → s'.fs.heap.get = update s.fs.heap.get filp
          (some (.handle { f with fPos := wrap (f.fPos + n) })))
      (fun _ => ∀ f, s.fs.heap.get filp ≠ some (.handle f)) := by
  refine ensures_bind (ensures_bind (ensures_onFs_fetch (fun g hg => ?_) fun hno f hf => ?_))
  · refine ensures_onFs (ensures_modify (ensures_pure ⟨rfl, rfl, rfl, fun f hf => ?_⟩))
    obtain rfl := (opened_iff.2 hf).unique hg
    exact Heap.get_set ..
  · exact hno f (opened_iff.2 hf)

theorem wsub_add (buffer : ℕ) {k : ℕ} (hk : k < 2 ^ 64) : wsub (buffer + k) buffer = k := by
  unfold wsub wrap
  omega

/-- Within the file, as many bytes are copied as there should be. -/
theorem readSize_of_le (hlt : pos + size < 2 ^ 64) (hin : pos + size ≤ iSize) :
    readSize iSize pos size = size := by
  rw [readSize, wrap_of_lt hlt, if_neg (not_lt.2 hin)]

theorem sliceSize_of_le (hin : pos + size ≤ iSize) : sliceSize iSize pos size = size := by
  rw [sliceSize, min_eq_left hin, Nat.add_sub_cancel_left]

theorem sliceSize_of_ge (hend : iSize ≤ pos) (size : ℕ) : sliceSize iSize pos size = 0 := by
  unfold sliceSize
  omega

/-- Reading past the end: the wrong number of bytes. -/
theorem signed_readSize_ne (hlt : pos + size < 2 ^ 64) (hpos : pos < iSize)
    (hpast : iSize < pos + size) :
    signed (readSize iSize pos size) ≠ (sliceSize iSize pos size : ℤ) := by
  unfold signed readSize sliceSize
  rw [wrap_of_lt hlt, if_pos hpast, min_eq_right hpast.le]
  unfold wrap
  split_ifs <;> omega

theorem slice_add (byte : ℕ → UInt8) (pos n k : ℕ) :
    slice byte pos (n + k) = slice byte pos n ++ slice byte (pos + n) k := by
  simp [slice, List.range_add, Nat.add_assoc, comp_def]

theorem slice_inj {byte byte' : ℕ → UInt8} {pos' n : ℕ} :
    slice byte pos n = slice byte' pos' n ↔ ∀ k < n, byte (pos + k) = byte' (pos' + k) := by
  simp [slice]

/-- What is there of two chunks. -/
theorem sliceSize_add (iSize pos n k : ℕ) : sliceSize iSize pos (n + k) =
      sliceSize iSize pos n + sliceSize iSize (pos + sliceSize iSize pos n) k := by
  unfold sliceSize
  omega

section Open

variable (h : Holds N s.fs) (hm : m ∈ N) (hb : m.body = .file iSize fdata byte)
  (hf : s.fs.heap.get filp = some (.handle f)) (hd : f.fDentry = m.dentry)
include h hm hb hf hd

/-- **`ramfs_read` through a file of the tree.** -/
theorem ramfsRead_spec (buffer size : ℕ) : Ensures (ramfsRead K filp buffer size) s
      (fun r s' => iSize ≤ f.fPos ∧ r = 0 ∧ s' = s ∨
        f.fPos < iSize ∧ r = signed (readSize iSize f.fPos size) ∧
          Copied K s filp f buffer (readSize iSize f.fPos size) fdata.capacity byte s')
      (fun _ => f.fPos < iSize ∧ ¬Clear K buffer (readSize iSize f.fPos size)) := by
  obtain ⟨hinode, hdata, hbuffer⟩ := h.file_placed hm hb
  obtain ⟨-, hsize, hcap⟩ := h.file_sound hm hb
  unfold ramfsRead
  refine ensures_bind (ensures_onFs (ensures_handleAt hf (ensures_bind (ensures_onFs
    (ensures_dentryAt (hd ▸ (h.placed m hm).dentry) (ensures_bind (ensures_onFs
      (ensures_inodeAt hinode ?_))))))))
  rw [if_neg (h.wf.ptr_ne_zero hm m.data_mem)]
  refine ensures_bind (ensures_onFs (ensures_fileAt hdata ?_))
  split_ifs with hstop
  · refine ensures_pure (.inl ⟨?_, rfl, rfl⟩)
    rcases hstop with hz | hge
    · have := hcap hz
      omega
    · exact hge
  obtain ⟨hbuf, hpos⟩ := not_or.1 hstop
  have hlt : f.fPos < iSize := not_le.1 hpos
  refine ensures_bind (ensures_onFs (ensures_bytesAt (hbuffer hbuf) fun c hc => ?_))
  refine ensures_bind (ensures_modify_bind (ensures_modify ?_))
  refine (advance_end _ _ _).mono ?_ fun _ hno => ⟨hlt, fun hclear => hno f ?_⟩
  · rintro r s' ⟨rfl, hmem, hroot, hmoved⟩
    refine .inr ⟨hlt, rfl, fun a ha hle => ?_, fun a ha => ?_, hroot, fun hclear => ?_⟩
    · rw [hmem]
      exact (if_pos ha).trans (hc _ hle)
    · rw [hmem]
      exact if_neg ha
    · have hheap := hclear.clobberRange s.fs.heap c
      rw [hmoved f (by rw [hheap, hf]), hheap]
  · rw [hclear.clobberRange, hf]

/-- **A right read** finds the bytes it should return at the beginning of the file. -/
theorem ReadsSlice.repeats (hlt : f.fPos + size < 2 ^ 64)
    (hread : ReadsSlice K s filp f buffer size iSize byte) : Repeats f.fPos size iSize byte := by
  obtain ⟨s', hrun, hmem, -⟩ := hread
  have hspec := ramfsRead_spec (K := K) h hm hb hf hd buffer size
  unfold Ensures at hspec
  rw [hrun] at hspec
  rcases hspec with ⟨hend, -⟩ | ⟨hpos, hr, hcopied⟩
  · exact .inl hend
  have hin : f.fPos + size ≤ iSize := by
    by_contra hpast
    exact signed_readSize_ne hlt hpos (not_le.1 hpast) hr.symm
  have hcap := (h.file_sound hm hb).2.1
  rw [readSize_of_le hlt hin] at hr hcopied
  rw [sliceSize_of_le hin] at hr hmem
  refine .inr ⟨hin, ?_, fun k hk => ?_⟩
  · unfold signed at hr
    split_ifs at hr <;> omega
  · have hk' : wsub (buffer + k) buffer = k := wsub_add buffer (by omega)
    have hstored := hcopied.stored (buffer + k) (by omega) (by omega)
    have hwanted := hmem (buffer + k)
    rw [hk', if_pos hk, hstored, hk'] at hwanted
    exact hwanted

/-- Where they are found there, the read is right. -/
theorem Repeats.readsSlice (hlt : f.fPos + size < 2 ^ 64) (hclear : Clear K buffer size)
    (hrep : Repeats f.fPos size iSize byte) : ReadsSlice K s filp f buffer size iSize byte := by
  have hcap := (h.file_sound hm hb).2.1
  rcases (ramfsRead_spec (K := K) h hm hb hf hd buffer size).cases with
    ⟨r, s', hrun, ⟨hend, rfl, rfl⟩ | ⟨hpos, rfl, hcopied⟩⟩ | ⟨s', -, hpos, hnot⟩
  · rw [ReadsSlice, sliceSize_of_ge hend]
    refine ⟨s', hrun, fun a => (if_neg (Nat.not_lt_zero _)).symm, ?_⟩
    rw [Nat.add_zero, ← hf, update_eq_self]
  · obtain ⟨hin, hsmall, hsame⟩ := hrep.resolve_left (not_le.2 hpos)
    rw [readSize_of_le hlt hin] at hrun hcopied
    rw [ReadsSlice, sliceSize_of_le hin]
    refine ⟨s', ?_, fun a => ?_, ?_⟩
    · rw [hrun, signed, if_pos hsmall]
    · split_ifs with ha
      · rw [hcopied.stored a ha (by omega), hsame _ ha]
      · exact hcopied.kept a ha
    · rw [hcopied.moved hclear, wrap_of_lt hlt]
  · obtain ⟨hin, -, -⟩ := hrep.resolve_left (not_le.2 hpos)
    rw [readSize_of_le hlt hin] at hnot
    exact absurd hclear hnot

/-- **One chunk that repeats**: its bytes are read, and the file stays open behind them. -/
theorem readChunk_of_repeats (hlt : f.fPos + size < 2 ^ 64) (hclear : Clear K buffer size)
    (hrep : Repeats f.fPos size iSize byte) :
    ∃ s', ramfsRead K filp buffer size s = .done (sliceSize iSize f.fPos size) s' ∧
      slice s'.mem buffer (sliceSize iSize f.fPos size) =
        slice byte f.fPos (sliceSize iSize f.fPos size) ∧
      Holds N s'.fs ∧ s'.fs.heap.get filp =
        some (.handle { f with fPos := f.fPos + sliceSize iSize f.fPos size }) := by
  obtain ⟨s', hrun, hmem, hget⟩ := hrep.readsSlice (K := K) h hm hb hf hd hlt hclear
  have hroot : s'.fs.rootDentry = s.fs.rootDentry := by
    rcases (ramfsRead_spec (K := K) h hm hb hf hd buffer size).apply hrun with
      ⟨-, -, rfl⟩ | ⟨-, -, hcopied⟩
    · rfl
    · exact hcopied.root
  refine ⟨s', hrun, slice_inj.2 fun k hk => ?_, ?_, ?_⟩
  · have hsize : sliceSize iSize f.fPos size ≤ size := by
      unfold sliceSize
      omega
    rw [hmem, wsub_add buffer (by omega), if_pos hk]
  · exact (h.set_junk (p := filp) (by rw [hf]; trivial) (o := .handle _) trivial).same
      ⟨hget.trans (Heap.get_set ..).symm, hroot⟩
  · rw [hget, update_self]

/-- **A chunk that does not repeat** gives other bytes, or too many of them. -/
theorem repeats_of_readChunk {more : ℕ} (hlt : f.fPos + size + iSize < 2 ^ 63) {r : ℤ} {s' : Sys}
    {rest : List UInt8} (hrun : ramfsRead K filp buffer size s = .done r s')
    (hbytes : slice s'.mem buffer r.toNat ++ rest =
      slice byte f.fPos (sliceSize iSize f.fPos (size + more))) :
    Repeats f.fPos size iSize byte := by
  rcases (ramfsRead_spec (K := K) h hm hb hf hd buffer size).apply hrun with
    ⟨hend, -⟩ | ⟨hpos, rfl, hcopied⟩
  · exact .inl hend
  have hcap := (h.file_sound hm hb).2.1
  have hlen := congrArg List.length hbytes
  simp only [slice, List.length_append, List.length_map, List.length_range] at hlen
  have hin : f.fPos + size ≤ iSize := by
    by_contra hpast
    have hsize : readSize iSize f.fPos size = size + (iSize - f.fPos) := by
      rw [readSize, wrap_of_lt (by omega), if_pos (by omega), wrap_of_lt (by omega)]
    rw [hsize, signed, if_pos (by omega), Int.toNat_natCast] at hlen
    unfold sliceSize at hlen
    omega
  rw [readSize_of_le (by omega) hin] at hbytes hcopied
  rw [signed, if_pos (by omega), Int.toNat_natCast, sliceSize_add, sliceSize_of_le hin,
    slice_add] at hbytes
  have hsame := slice_inj.1 (List.append_inj_left hbytes (by simp [slice]))
  refine .inr ⟨hin, by omega, fun k hk => ?_⟩
  have hk' : wsub (buffer + k) buffer = k := wsub_add buffer (by omega)
  rw [← hsame k hk, hcopied.stored (buffer + k) (by omega) (by omega), hk']

end Open

/-- **Exactly the reads that repeat the beginning of the file are right.** -/
theorem readsSlice_iff_repeats (h : Holds N s.fs) (hm : m ∈ N)
    (hb : m.body = .file iSize fdata byte) (hf : s.fs.heap.get filp = some (.handle f))
    (hd : f.fDentry = m.dentry) {buffer size : ℕ} (hlt : f.fPos + size < 2 ^ 64)
    (hclear : Clear K buffer size) :
    ReadsSlice K s filp f buffer size iSize byte ↔ Repeats f.fPos size iSize byte :=
  ⟨ReadsSlice.repeats h hm hb hf hd hlt, Repeats.readsSlice h hm hb hf hd hlt hclear⟩

/-- **Reading in chunks gives the bytes of the file exactly if every chunk repeats its beginning**,
by induction over the reads. -/
theorem readChunks_iff_allRepeat (h : Holds N s.fs) (hm : m ∈ N)
    (hb : m.body = .file iSize fdata byte) (hf : s.fs.heap.get filp = some (.handle f))
    (hd : f.fDentry = m.dentry) {cs : List (ℕ × ℕ)}
    (hlt : f.fPos + (cs.map Prod.snd).sum + iSize < 2 ^ 63) (hclear : ∀ c ∈ cs, Clear K c.1 c.2) :
    (∃ s', readChunks K filp cs s =
        .done (slice byte f.fPos (sliceSize iSize f.fPos (cs.map Prod.snd).sum)) s') ↔
      AllRepeat iSize byte f.fPos (cs.map Prod.snd) := by
  induction cs generalizing s f with
  | nil => exact iff_of_true ⟨s, by simp [readChunks, slice, sliceSize]⟩ trivial
  | cons c cs ih =>
    obtain ⟨buffer, size⟩ := c
    simp only [List.map_cons, List.sum_cons] at hlt ⊢
    by_cases hrep : Repeats f.fPos size iSize byte
    · obtain ⟨s1, hrun, hbytes, h1, hf1⟩ := readChunk_of_repeats h hm hb hf hd (by omega)
        (hclear _ List.mem_cons_self) hrep
      have hpos : f.fPos + sliceSize iSize f.fPos size ≤ f.fPos + size := by
        unfold sliceSize
        omega
      rw [AllRepeat, and_iff_right hrep, ← ih h1 hf1 hd (by simp only; omega) fun c hc =>
        hclear c (List.mem_cons_of_mem _ hc)]
      have hchunks : readChunks K filp ((buffer, size) :: cs) s = (do
          let rest ← readChunks K filp cs
          pure (slice byte f.fPos (sliceSize iSize f.fPos size) ++ rest)) s1 := by
        rw [← hbytes, readChunks, bind_apply, hrun]
        rfl
      rw [hchunks, sliceSize_add, slice_add, bind_apply]
      cases readChunks K filp cs s1 <;> simp
    · refine iff_of_false ?_ fun hall => hrep hall.1
      rintro ⟨s', hrun⟩
      obtain ⟨r, s1, hread, hrun⟩ := done_of_bind hrun
      obtain ⟨chunk, t, hchunk, hrun⟩ := done_of_bind hrun
      obtain ⟨rest, t', -, hdone⟩ := done_of_bind hrun
      cases hchunk
      exact hrep (repeats_of_readChunk h hm hb hf hd (by omega) hread (Outcome.done.inj hdone).1)

end Read

/-- The file `/f` with the bytes `ab`, open at `pos`. -/
theorem exists_ab (pos : ℕ) :
    ∃ (N : Nodes) (m : Node) (s : Sys) (filp : Ptr) (fdata : FileData) (byte : ℕ → UInt8),
      Holds N s.fs ∧ m ∈ N ∧ m.body = .file 2 fdata byte ∧ byte 0 = 97 ∧ byte 1 = 98 ∧
      s.fs.heap.get filp = some (.handle ⟨m.dentry, pos, .ramfs, none⟩) := by
  obtain ⟨r, hr⟩ : ∃ r, Holds [r] emptyFs := ramfsInit_spec (K := .endless)
  obtain ⟨r', hr', -, -, hdir⟩ := hr.wf.rooted.exists_root
  cases hr'
  rcases (vfsCreate_spec (K := .endless) hr (some [slash, 102]) 0).cases with
    ⟨e, s1, hrun, ⟨q, name, -, -, -, p, ino, data, num, h1⟩ | ⟨-, he, -⟩⟩ | ⟨t, hhalt, -⟩
  · set n : Node := ⟨p, ino, data, q.dentry, name.take 31, num, sIfreg ||| 0, newBody (sIfreg ||| 0)⟩
    have hn : n ∈ [r] ++ [n] := by simp
    have hb : newBody (sIfreg ||| 0) = .file 0 ⟨0, 0⟩ fun _ => 0 := if_neg (by decide)
    have hfree : s1.heap.get s1.heap.limit = none := s1.heap.above _ le_rfl
    have h2 := h1.set_junk (o := .handle ⟨p, 0, .ramfs, none⟩) (by rw [hfree]; trivial) trivial
    have hspec := ramfsWrite_spec (K := .endless) (H := Refused .endless) h2 hn hb
      (Heap.get_set_self ..) rfl (fun k => if k = 0 then 97 else 98) (show 0 + 2 < 2 ^ 64 by decide)
      (fun _ => id) (by omega)
    rcases hspec.cases with ⟨-, s3, -, -, f, c, -, -, h3, hjunk, hc, -⟩ | ⟨t, -, k, hnone⟩
    · have hopen : s3.heap.get s1.heap.limit = some (.handle ⟨p, 0, .ramfs, none⟩) :=
        (hjunk _ (.handle _) trivial).2 (Heap.get_set_self ..)
      have h4 := h3.set_junk (o := .handle ⟨p, pos, .ramfs, none⟩) (by rw [hopen]; trivial) trivial
      exact ⟨_, _, ⟨_, fun _ _ => 0, 0, fun _ => 0, []⟩, s1.heap.limit, f, c, h4,
        (Nodes.mem_setBody h1.wf hn).2 (.inl rfl), rfl, hc 0 (by decide), hc 1 (by decide),
        Heap.get_set_self ..⟩
    · cases hnone
  · cases hrun
    exact absurd he (by decide)
  · cases hhalt

/-- The first byte is read as it should be. -/
theorem readsSlice_iff_repeats_first :
    ∃ s filp f byte, byte 0 = 97 ∧ byte 1 = 98 ∧ ReadsSlice .endless s filp f 0x1000 1 2 byte := by
  obtain ⟨N, m, s, filp, fdata, byte, h, hm, hb, ha, hc, hf⟩ := exists_ab 0
  have hrep : Repeats 0 1 2 byte := .inr ⟨by decide, by decide, fun k _ => by rw [Nat.zero_add]⟩
  exact ⟨s, filp, _, byte, ha, hc,
    (readsSlice_iff_repeats h hm hb hf rfl (show 0 + 1 < 2 ^ 64 by decide) fun _ _ _ _ => rfl).2 hrep⟩

/-- **The second byte is not**: it is the first one again. -/
theorem second_byte_wrong :
    ∃ (N : Nodes) (m : Node) (s : Sys) (filp : Ptr) (f : File) (fdata : FileData) (byte : ℕ → UInt8),
      Holds N s.fs ∧ m ∈ N ∧ m.body = .file 2 fdata byte ∧
      s.fs.heap.get filp = some (.handle f) ∧ f.fDentry = m.dentry ∧ f.fPos = 1 ∧
      ¬ReadsSlice .endless s filp f 0x1000 1 2 byte := by
  obtain ⟨N, m, s, filp, fdata, byte, h, hm, hb, ha, hc, hf⟩ := exists_ab 1
  refine ⟨N, m, s, filp, _, fdata, byte, h, hm, hb, hf, rfl, rfl, fun hread => ?_⟩
  rcases hread.repeats h hm hb hf rfl (show 1 + 1 < 2 ^ 64 by decide) with hend | ⟨-, -, hsame⟩
  · exact absurd (show 2 ≤ 1 from hend) (by decide)
  · have heq := hsame 0 (by decide)
    rw [ha, show byte (1 + 0) = 98 from hc] at heq
    exact absurd heq (by decide)

end Hvos.Syscall
