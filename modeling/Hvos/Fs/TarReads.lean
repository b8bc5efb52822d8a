import Hvos.Fs.Creation
import Hvos.Lib.Noted

/-!
# Fs/TarReads — what `ramfs_from_tar` reads

The importer once more, noting the offset of every byte it reads: of a header only what `strncmp`,
`octal_to_int` and `strncpy` get to, of the data what `ramfs_write` copies.  Without the notes it is
`ramfsFromTar`.  The loop looks at the size of the archive before each header and at nothing after
that, so the headers are inside, and the data is where the size fields are right.
-/

namespace Hvos.Fs

open Prog Noted

/-! ## The importer, with notes -/

namespace TarBytes

variable (tar : TarBytes)

/-- Read one byte. -/
def peek (k : ℕ) : Noted FsState ℕ UInt8 := do
  note [k]
  pure (tar k)

/-- `strncmp(header->magic, "ustar", 5) == 0`: up to the first difference. -/
def compare : List UInt8 → ℕ → Noted FsState ℕ Bool
  | [], _ => pure true
  | b :: bs, k => do
    let c ← tar.peek k
    if c = b then compare bs (k + 1) else pure false

/-- `octal_to_int`: up to the first character that is no octal digit. -/
def readOctal : ℕ → ℕ → ℕ → Noted FsState ℕ ℕ
  | 0, _, acc => pure acc
  | n + 1, k, acc => do
    let c ← tar.peek k
    if c < 48 ∨ c > 55 then pure acc
    else readOctal n (k + 1) ((acc * 8 + (c.toNat - 48)) % 2 ^ 32)

/-- `strncpy`: up to a `NUL`, `n` bytes at most. -/
def readString : ℕ → ℕ → Noted FsState ℕ CString
  | 0, _ => pure []
  | n + 1, k => do
    let c ← tar.peek k
    if c = 0 then pure []
    else do
      let rest ← readString n (k + 1)
      pure (c :: rest)

end TarBytes

section Import

variable (K : Kmalloc) (tar : TarBytes) (tarSize : ℕ)

/-- The bytes of a member, which begin behind its header. -/
def memberData (offset : ℕ) : ℕ → UInt8 := fun k => tar (offset + 512 + k)

/-- `fillFile`: `ramfs_write` reads the bytes where it gets to copy them. -/
def fillFileNoted (path : CString) (offset fileSize : ℕ) : Noted FsState ℕ Unit := do
  let file ← lift (vfsOpen K (some path))
  if file = 0 then pure ()
  else do
    let f ← lift (handleAt file)
    if f.fOps = .ramfs then do
      let w ← lift (ramfsWrite K file (memberData tar offset) fileSize 0)
      note (if w.1 < 0 then [] else (List.range fileSize).map (offset + 512 + ·))
      let d ← lift (dentryAt f.fDentry)
      let i ← lift (inodeAt d.dInode)
      lift (store d.dInode (.inode { i with iSize := fileSize }))
      lift (kfree file)
    else lift Prog.halt

/-- `importMember`, given what was read from the header. -/
def importMemberNoted (offset : ℕ) (typeflag : UInt8) (path : CString) (fileSize : ℕ) :
    Noted FsState ℕ Unit := do
  if typeflag = 53 then do
    let _ ← lift (vfsMkdir K (some (stripSlash path)) 0o775)
  else if typeflag = 48 ∨ typeflag = 0 then do
    let _ ← lift (vfsCreate K (some path) 0o644)
    fillFileNoted K tar path offset fileSize

/-- The loop, from `offset` on. -/
def importFromNoted : ℕ → ℕ → Noted FsState ℕ Unit
  | 0, _ => pure ()
  | n + 1, offset =>
    if offset + 512 > tarSize then pure ()
    else do
      let first ← tar.peek offset
      if first = 0 then pure ()
      else do
        let ustar ← tar.compare [117, 115, 116, 97, 114] (offset + 257)
        if ustar = false then pure ()
        else do
          let fileSize ← tar.readOctal 12 (offset + 124) 0
          let name ← tar.readString 254 offset
          let typeflag ← tar.peek (offset + 156)
          importMemberNoted K tar offset typeflag (slash :: name) fileSize
          importFromNoted n (offset + 512 + (fileSize + 511) / 512 * 512)

/-- `ramfs_from_tar`, with the offsets it reads. -/
def ramfsFromTarNoted : Noted FsState ℕ Unit := importFromNoted K tar tarSize (tarSize / 512) 0

end Import

/-! ## Headers -/

variable {k n : ℕ}

section Headers

variable {tar : TarBytes} {P : ℕ → Prop}

theorem TarBytes.reads_peek (hk : P k) : Reads P (tar.peek k) (tar k) :=
  ⟨rfl, fun _ => allNotes_bind.2 ⟨by simpa using hk, fun _ _ _ => allNotes_pure _⟩⟩

theorem map_range_shift (f : ℕ → UInt8) (k n : ℕ) : (List.range (n + 1)).map (fun i => f (k + i)) =
      f k :: (List.range n).map fun i => f (k + 1 + i) := by
  rw [List.range_succ_eq_map, List.map_cons, List.map_map]
  simp [Function.comp_def, Nat.add_assoc, Nat.add_comm 1]

theorem forall_lt_shift (hk : ∀ i < n + 1, P (k + i)) : P k ∧ ∀ i < n, P (k + 1 + i) := by
  refine ⟨hk 0 (Nat.succ_pos n), fun i hi => ?_⟩
  rw [Nat.add_assoc, Nat.add_comm 1]
  exact hk (i + 1) (by omega)

theorem TarBytes.reads_compare {bs : List UInt8} (hk : ∀ i < bs.length, P (k + i)) :
    Reads P (tar.compare bs k) ((List.range bs.length).map (fun i => tar (k + i)) == bs) := by
  induction bs generalizing k with
  | nil => exact .pure true
  | cons b bs ih =>
    obtain ⟨hfirst, hrest⟩ := forall_lt_shift hk
    rw [List.length_cons, map_range_shift, TarBytes.compare]
    refine (reads_peek hfirst).bind ?_
    by_cases hb : tar k = b
    · simpa [hb] using ih hrest
    · rw [if_neg hb, List.cons_beq_cons, beq_false_of_ne hb]
      exact .pure false

theorem TarBytes.reads_octal {acc : ℕ} (hk : ∀ i < n, P (k + i)) :
    Reads P (tar.readOctal n k acc) (octalFrom tar n k acc) := by
  induction n generalizing k acc with
  | zero => exact .pure acc
  | succ n ih =>
    obtain ⟨hfirst, hrest⟩ := forall_lt_shift hk
    rw [TarBytes.readOctal, octalFrom]
    refine (reads_peek hfirst).bind ?_
    split_ifs
    · exact .pure acc
    · exact ih hrest

theorem TarBytes.reads_string (hk : ∀ i < n, P (k + i)) : Reads P (tar.readString n k)
      (((List.range n).map fun i => tar (k + i)).takeWhile (· ≠ 0)) := by
  induction n generalizing k with
  | zero => exact .pure []
  | succ n ih =>
    obtain ⟨hfirst, hrest⟩ := forall_lt_shift hk
    rw [map_range_shift, TarBytes.readString]
    refine (reads_peek hfirst).bind ?_
    by_cases hc : tar k = 0
    · simpa [hc] using Reads.pure []
    · rw [if_neg hc, List.takeWhile_cons_of_pos (by simpa using hc)]
      exact (ih hrest).bind (.pure _)

end Headers

/-! ## Without the notes -/

section Run

variable {K : Kmalloc} {tar : TarBytes} {tarSize : ℕ}

theorem octalFrom_shift (str : ℕ → UInt8) (o n i acc : ℕ) :
    octalFrom (fun k => str (o + k)) n i acc = octalFrom str n (o + i) acc := by
  induction n generalizing i acc with
  | zero => rfl
  | succ n ih =>
    rw [octalFrom, octalFrom]
    split_ifs
    · rfl
    · exact ih (i + 1) _

/-- An empty name begins with `NUL`. -/
theorem TarBytes.name_eq_nil_iff (tar : TarBytes) (offset : ℕ) :
    tar.name offset = [] ↔ tar offset = 0 := by
  rw [TarBytes.name, map_range_shift, List.takeWhile_cons]
  by_cases hz : tar offset = 0 <;> simp [hz]

theorem fillFileNoted_run (path : CString) (offset fileSize : ℕ) :
    (fillFileNoted K tar path offset fileSize).run =
      fillFile K path (memberData tar offset) fileSize := by
  simp only [fillFileNoted, fillFile, run_bind, run_lift, run_ite, run_pure, run_note]
  rfl

theorem importMemberNoted_run (offset : ℕ) :
    (importMemberNoted K tar offset (tar.typeflag offset) (tar.absolutePath offset)
      (tar.fileSize offset)).run = importMember K tar offset := by
  simp only [importMemberNoted, importMember, importFile, run_bind, run_lift, run_ite, run_pure,
    fillFileNoted_run]
  rfl

/-- What is left of a round when the header is read. -/
def importRound (K : Kmalloc) (tar : TarBytes) (tarSize n offset : ℕ) : Noted FsState ℕ Unit :=
  if tar.name offset = [] ∨ tar.isUstar offset = false then pure ()
  else do
    importMemberNoted K tar offset (tar.typeflag offset) (tar.absolutePath offset)
      (tar.fileSize offset)
    importFromNoted K tar tarSize n (nextHeader tar offset)

/-- **Reading a header** touches nothing but the header. -/
theorem importFromNoted_agree {P : ℕ → Prop} {offset : ℕ} (hguard : offset + 512 ≤ tarSize)
    (hP : ∀ i < 512, P (offset + i)) : Agree P (importFromNoted K tar tarSize (n + 1) offset)
      (importRound K tar tarSize n offset) := by
  have hP' : ∀ a, ∀ i, a + i < 512 → P (offset + a + i) := fun a i hi => by
    rw [Nat.add_assoc]
    exact hP _ hi
  rw [importFromNoted, importRound, if_neg (by omega)]
  have hfirst : P offset := hP 0 (by omega)
  refine (TarBytes.reads_peek hfirst).agree.trans ?_
  by_cases hnul : tar offset = 0
  · rw [if_pos hnul, if_pos (.inl ((tar.name_eq_nil_iff offset).2 hnul))]
    exact .refl _
  rw [if_neg hnul]
  have hcompare : Reads P (tar.compare [117, 115, 116, 97, 114] (offset + 257))
      (tar.isUstar offset) :=
    TarBytes.reads_compare fun i hi => hP' 257 i (Nat.add_lt_add_left hi 257 |>.trans (by decide))
  refine hcompare.agree.trans ?_
  by_cases hustar : tar.isUstar offset = false
  · rw [if_pos hustar, if_pos (.inr hustar)]
    exact .refl _
  have hname : tar.name offset ≠ [] := fun heq => hnul ((tar.name_eq_nil_iff offset).1 heq)
  rw [if_neg hustar, if_neg (not_or.2 ⟨hname, hustar⟩)]
  have hsize : octalFrom tar 12 (offset + 124) 0 = tar.fileSize offset :=
    (octalFrom_shift tar (offset + 124) 12 0 0).symm
  refine (TarBytes.reads_octal fun i hi => hP' 124 i (by omega)).agree.trans ?_
  rw [hsize]
  refine (TarBytes.reads_string fun i hi => hP i (by omega)).agree.trans ?_
  exact (TarBytes.reads_peek (hP 156 (by omega))).agree

/-- **Without its notes it is the importer.** -/
theorem importFromNoted_run (n offset : ℕ) :
    (importFromNoted K tar tarSize n offset).run = importFrom K tar tarSize n offset := by
  induction n generalizing offset with
  | zero => rfl
  | succ n ih =>
    rw [importFrom]
    by_cases hguard : offset + 512 > tarSize
    · rw [if_pos (.inl hguard), importFromNoted, if_pos hguard]
      rfl
    · rw [(importFromNoted_agree (P := fun _ => True) (not_lt.1 hguard) fun _ _ => trivial).run,
        importRound]
      by_cases hstop : tar.name offset = [] ∨ tar.isUstar offset = false
      · rw [if_pos hstop, if_pos (.inr hstop)]
        rfl
      · rw [if_neg hstop, if_neg (not_or.2 ⟨hguard, hstop⟩), run_bind, importMemberNoted_run]
        simp only [ih]

end Run

/-! ## The data -/

/-- After `vfs_create` the path leads to a file: it did so before, or it led nowhere and there is a
directory with room for the new one. -/
def Nodes.GetsFile (N : Nodes) (path : Option CString) : Prop :=
  (∃ m, N.lookup path = some m ∧ m.body ≠ .dir) ∨
    N.lookup path = none ∧ ∃ q name, N.target path 32 = some (q, name) ∧ N.Room q

/-- The member at `offset` is a regular file that the tree has a place for. -/
def TarBytes.HasPlace (tar : TarBytes) (offset : ℕ) (s : FsState) : Prop :=
  (tar.typeflag offset = 48 ∨ tar.typeflag offset = 0) ∧
    PlantedWith (Nodes.GetsFile · (some (tar.absolutePath offset))) s

/-- The bytes that the header at `offset` announces are in the archive. -/
def TarBytes.Whole (tar : TarBytes) (tarSize offset : ℕ) : Prop :=
  tar.fileSize offset = 0 ∨ offset + 512 + tar.fileSize offset ≤ tarSize

/-- **Every member that has a place is whole**, each in the tree that the ones before it left; the
members end where memory does. -/
def CopiesWhole (K : Kmalloc) (tar : TarBytes) (tarSize : ℕ) : ℕ → ℕ → FsState → Prop
  | 0, _, _ => True
  | n + 1, offset, s =>
    offset + 512 > tarSize ∨ tar.name offset = [] ∨ tar.isUstar offset = false ∨
      ∀ s', importMember K tar offset s = .done () s' →
        (tar.HasPlace offset s → tar.Whole tarSize offset) ∧
          CopiesWhole K tar tarSize n (nextHeader tar offset) s'

section Data

variable {K : Kmalloc} {tar : TarBytes} {tarSize offset : ℕ} {N : Nodes} {s s' : FsState}

theorem forall_data_lt_iff :
    (∀ k ∈ (List.range (tar.fileSize offset)).map (offset + 512 + ·), k < tarSize) ↔
      tar.Whole tarSize offset := by
  simp only [List.mem_map, List.mem_range, forall_exists_index, and_imp, forall_apply_eq_imp_iff₂,
    TarBytes.Whole]
  refine ⟨fun h => ?_, fun h k hk => by omega⟩
  by_contra hnot
  have := h (tar.fileSize offset - 1) (by omega)
  omega

/-- **The tree after `vfs_create`**, as far as the path goes. -/
theorem vfsCreate_getsFile (h : Holds N s) (path : Option CString) :
    Ensures (vfsCreate K path 0o644) s
      (fun _ s' => ∃ N', Holds N' s' ∧
        ((∃ m, N'.lookup path = some m ∧ m.body ≠ .dir) ↔ N.GetsFile path)) (Refused K) := by
  refine (vfsCreate_ledger h path 0o644).imp ?_
  rintro r s' (⟨hnone, -, hs⟩ | ⟨q, name, ht, ⟨hroom, -, hadded⟩ | ⟨hfull, -, h', -⟩⟩)
  · refine ⟨N, h.same hs, .inl, fun hgets => hgets.resolve_right ?_⟩
    rintro ⟨-, q, name, ht, -⟩
    simp [hnone] at ht
  · obtain ⟨p, ino, data, num, -, -, h'⟩ := hadded
    refine ⟨_, h', ?_⟩
    cases hl : N.lookup path with
    | some m => simp [Nodes.GetsFile, hl, h'.wf.lookup_snoc h.wf hl]
    | none =>
      refine iff_of_true ⟨_, h'.wf.lookup_new h.wf ht rfl rfl hl, ?_⟩
        (.inr ⟨hl, q, name, ht, hroom⟩)
      simp [newBody, show ¬IsDir (sIfreg ||| 0o644) by decide]
  · refine ⟨N, h', .inl, fun hgets => hgets.resolve_right ?_⟩
    rintro ⟨-, q', name', ht', hroom⟩
    obtain ⟨rfl, -⟩ := Prod.mk.inj (Option.mem_unique ht ht')
    exact hfull hroom

/-- **Filling a file**: the data is read where the path leads to one, and nothing else. -/
theorem fillFileNoted_notesIff (h : Holds N s) (path : CString) :
    NotesIff (· < tarSize) (fillFileNoted K tar path offset (tar.fileSize offset)) s
      ((∃ m, N.lookup (some path) = some m ∧ m.body ≠ .dir) → tar.Whole tarSize offset) := by
  refine notesIff_lift_bind ((vfsOpen_spec h (some path)).mono ?_ fun _ _ => trivial)
  rintro p s1 (⟨m, hl, hfile, hp, hhandle, -, h1⟩ | ⟨hdir, rfl, -⟩)
  swap
  · rw [if_pos rfl]
    exact notesIff_pure fun ⟨m, hl, hfile⟩ => absurd (hdir m hl) hfile
  rw [if_neg hp]
  refine notesIff_lift_bind (ensures_handleAt hhandle ?_)
  rw [if_pos rfl]
  have hm := Nodes.lookup_mem hl
  cases hb : m.body with
  | dir => exact absurd hb hfile
  | file size f c =>
    have hsize := tar.fileSize_lt offset
    refine notesIff_lift_bind (ramfsWrite_spec h1 hm hb hhandle rfl _ (by omega)
      (fun _ _ => trivial) (fun _ => trivial) |>.mono ?_ fun _ _ => trivial)
    rintro w s2 ⟨rfl, f2, c2, -, -, h2, -⟩
    have hplaced := h2.placed _ ((Nodes.mem_setBody h1.wf hm).2 (.inl rfl))
    rw [if_neg (not_lt.2 (Int.natCast_nonneg _))]
    refine (notesIff_note_bind ?_ ?_).congr ?_
    · simp [allNotes_bind]
    · simp only [run_bind, run_lift]
      exact ensures_bind (ensures_dentryAt hplaced.dentry (ensures_bind (ensures_inodeAt
        hplaced.inode (ensures_modify_bind (ensures_kfree hp trivial)))))
    · rw [forall_data_lt_iff]
      exact ⟨fun hwhole _ => hwhole, fun hall => hall ⟨m, hl, hfile⟩⟩

/-- **One member**: its data is read if the tree has a place for it. -/
theorem importMemberNoted_notesIff (K : Kmalloc) (tar : TarBytes) (tarSize offset : ℕ)
    (h : Planted s) : NotesIff (· < tarSize) (importMemberNoted K tar offset (tar.typeflag offset)
      (tar.absolutePath offset) (tar.fileSize offset)) s
        (tar.HasPlace offset s → tar.Whole tarSize offset) := by
  rw [importMemberNoted]
  split_ifs with hdir hreg
  · refine iff_of_true (by simp [allNotes_bind]) fun _ _ _ hplace => ?_
    simp [TarBytes.HasPlace, hdir] at hplace
  · have hfile : ∀ N, Holds N s → NotesIff (· < tarSize) _ s
        (N.GetsFile (some (tar.absolutePath offset)) → tar.Whole tarSize offset) := fun N hN =>
      notesIff_lift_bind ((vfsCreate_getsFile (K := K) hN _).mono (fun _ s1 ⟨N1, h1, hgets⟩ =>
        (fillFileNoted_notesIff (K := K) h1 (tar.absolutePath offset)).congr
          (imp_congr_left hgets)) fun _ _ => trivial)
    refine ⟨fun hall u s' hrun hplace => ?_, fun hall => ?_⟩
    · obtain ⟨-, M, hM, hgets⟩ := hplace
      exact (hfile M hM).1 hall u s' hrun hgets
    · obtain ⟨N, hN⟩ := h
      exact (hfile N hN).2 fun u s' hrun hgets => hall u s' hrun ⟨hreg, N, hN, hgets⟩
  · exact notesIff_pure fun hplace => absurd hplace.1 hreg

/-- **The whole loop**, by induction on its rounds. -/
theorem importFromNoted_allNotes_iff (n offset : ℕ) (h : Planted s) :
    AllNotes (· < tarSize) (importFromNoted K tar tarSize n offset) s ↔
      CopiesWhole K tar tarSize n offset s := by
  induction n generalizing offset s with
  | zero => exact iff_of_true (allNotes_pure ()) trivial
  | succ n ih =>
    rw [CopiesWhole]
    by_cases hguard : offset + 512 > tarSize
    · rw [importFromNoted, if_pos hguard]
      exact iff_of_true (allNotes_pure ()) (.inl hguard)
    rw [(importFromNoted_agree (not_lt.1 hguard) fun i hi => by omega).notes s, importRound,
      or_iff_right hguard, ← or_assoc]
    by_cases hstop : tar.name offset = [] ∨ tar.isUstar offset = false
    · rw [if_pos hstop]
      exact iff_of_true (allNotes_pure ()) (.inl hstop)
    have hmember := importMemberNoted_notesIff K tar tarSize offset h
    rw [NotesIff, importMemberNoted_run] at hmember
    rw [if_neg hstop, or_iff_right hstop, allNotes_bind, hmember, importMemberNoted_run]
    have hnext : ∀ s', importMember K tar offset s = .done () s' → Planted s' := fun s' hs' =>
      planted_iff.2 (((planted_iff.1 h).importMember closed_true tar offset).apply hs')
    constructor
    · rintro ⟨hwhole, hrest⟩ s' hs'
      exact ⟨hwhole () s' hs', (ih _ (hnext s' hs')).1 (hrest () s' hs')⟩
    · intro hall
      exact ⟨fun _ s' hs' => (hall s' hs').1, fun _ s' hs' =>
        (ih _ (hnext s' hs')).2 (hall s' hs').2⟩

/-- A round moves on by a block, so no more of them than there are blocks begin. -/
theorem importFrom_enough {m : ℕ} (hn : tarSize < offset + n * 512 + 512)
    (hm : tarSize < offset + m * 512 + 512) :
    importFrom K tar tarSize n offset = importFrom K tar tarSize m offset := by
  induction n generalizing offset m with
  | zero =>
    have hend : offset + 512 > tarSize := by omega
    cases m with
    | zero => rfl
    | succ m => rw [importFrom, importFrom, if_pos (.inl hend)]
  | succ n ih =>
    cases m with
    | zero =>
      have hend : offset + 512 > tarSize := by omega
      rw [importFrom, importFrom, if_pos (.inl hend)]
    | succ m =>
      have hnext : offset + 512 ≤ nextHeader tar offset := Nat.le_add_right _ _
      have hrest : importFrom K tar tarSize n (nextHeader tar offset) =
          importFrom K tar tarSize m (nextHeader tar offset) := ih (by omega) (by omega)
      rw [importFrom, importFrom, hrest]

/-- **The import stays inside the archive**: the loop ends by itself, the import returns unless
memory runs out, and every byte it reads is in the archive. -/
structure StaysInside (K : Kmalloc) (tar : TarBytes) (tarSize : ℕ) (s : FsState) : Prop where
  ends : ∀ n, tarSize / 512 ≤ n → importFrom K tar tarSize n 0 s = ramfsFromTar K tar tarSize s
  returns : Ensures (ramfsFromTar K tar tarSize) s (fun _ => Planted) (Refused K)
  reads : AllNotes (· < tarSize) (ramfsFromTarNoted K tar tarSize) s

/-- **When the import stays inside**: for every archive and tree, exactly if each regular file whose
data is copied ends in the archive. -/
theorem staysInside_iff_whole (K : Kmalloc) (tar : TarBytes) (tarSize : ℕ) (h : Planted s) :
    StaysInside K tar tarSize s ↔ CopiesWhole K tar tarSize (tarSize / 512) 0 s := by
  refine ⟨fun hin => (importFromNoted_allNotes_iff _ 0 h).1 hin.reads, fun hwhole => ⟨?_, ?_, ?_⟩⟩
  · intro n hn
    exact congrFun (importFrom_enough (by omega) (by omega)) s
  · exact ((planted_iff.1 h).importFrom closed_true tar tarSize _ 0).mono
      (fun _ _ hs => planted_iff.2 hs) fun _ => id
  · exact (importFromNoted_allNotes_iff _ 0 h).2 hwhole

end Data

/-- An archive with one header, of a file `f` of one byte. -/
def oneByteFile : TarBytes := fun k =>
  if k = 0 then 102 else if k = 124 then 49 else if k = 156 then 48 else if k < 257 then 0
  else ([117, 115, 116, 97, 114].getD (k - 257) 0 : UInt8)

/-- With the block of data there, the import stays inside. -/
theorem staysInside_iff_whole_oneByteFile : StaysInside .endless oneByteFile 1024 emptyFs := by
  have hplanted : Planted emptyFs := planted_of_run (K := .endless) rfl (.nil emptyFs)
  have hsize : oneByteFile.fileSize 0 = 1 := by decide
  have hnext : nextHeader oneByteFile 0 + 512 > 1024 := by rw [nextHeader, hsize]; decide
  refine (staysInside_iff_whole .endless oneByteFile 1024 hplanted).2 ?_
  rw [show 1024 / 512 = 1 + 1 from rfl, CopiesWhole]
  refine .inr (.inr (.inr fun s' _ => ⟨fun _ => .inr (by rw [hsize]; decide), ?_⟩))
  rw [CopiesWhole]
  exact .inl hnext

/-- **With the header alone, it reads the byte behind the archive.** -/
theorem oneByteFile_outside : 512 ∈ (ramfsFromTarNoted .endless oneByteFile 512).notes emptyFs ∧
      ¬StaysInside .endless oneByteFile 512 emptyFs := by
  have hmem : 512 ∈ (ramfsFromTarNoted .endless oneByteFile 512).notes emptyFs := by
    have hnotes : (ramfsFromTarNoted .endless oneByteFile 512).notes emptyFs =
        [0, 257, 258, 259, 260, 261, 124, 125, 0, 1, 156, 512] := rfl
    rw [hnotes]
    decide
  exact ⟨hmem, fun hin => absurd (hin.reads 512 hmem) (lt_irrefl 512)⟩

end Hvos.Fs
