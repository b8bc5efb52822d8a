import Hvos.Fs.TarImport

/-!
# Fs/Ustar — how `ramfs_from_tar` reads a header

A ustar header says the name of a member in two fields, which end in a `NUL` only where they are not
full, and its size in eleven octal digits.  `ramfs_from_tar` reads the first field with `strncpy`,
on into the mode behind it where that is full, leaves out the other one, and counts the size in 32
bits.
-/

namespace Hvos.Fs

/-! ## The format -/

/-- **What a ustar header says.** -/
structure Ustar where
  name : CString
  mode : List UInt8
  lead : CString
  digits : List UInt8

namespace Ustar

variable (h : Ustar)

/-- The path of the member: the prefix field, if it is in use, and the name. -/
def path : CString := slash :: if h.lead = [] then h.name else h.lead ++ slash :: h.name

/-- The size of the member. -/
def size : ℕ := octalValue h.digits 0

end Ustar

/-- A field of `n` bytes that holds a string: it ends in a `NUL` where it is not full. -/
structure FieldAt (tar : TarBytes) (o n : ℕ) (str : CString) : Prop where
  spells : Spells tar o str
  nul : 0 ∉ str
  fits : str.length ≤ n
  ends : str.length < n → tar (o + str.length) = 0

/-- A field of `n` bytes that holds a number: octal digits, and a `NUL` or a blank. -/
structure OctalAt (tar : TarBytes) (o n : ℕ) (digits : List UInt8) : Prop where
  spells : Spells tar o digits
  ne_nil : digits ≠ []
  fits : digits.length < n
  octal : ∀ d ∈ digits, 48 ≤ d ∧ d ≤ 55
  ends : tar (o + digits.length) = 0 ∨ tar (o + digits.length) = 32

/-- **A valid ustar header**, with whatever in its other fields. -/
structure UstarAt (tar : TarBytes) (o : ℕ) (h : Ustar) : Prop where
  name : FieldAt tar o 100 h.name
  mode : OctalAt tar (o + 100) 8 h.mode
  lead : FieldAt tar (o + 345) 155 h.lead
  size : OctalAt tar (o + 124) 12 h.digits
  eleven : h.digits.length = 11
  magic : Spells tar (o + 257) [117, 115, 116, 97, 114]

instance (tar : TarBytes) (o n : ℕ) (str : CString) : Decidable (FieldAt tar o n str) :=
  decidable_of_iff (Spells tar o str ∧ 0 ∉ str ∧ str.length ≤ n ∧
    (str.length < n → tar (o + str.length) = 0))
    ⟨fun ⟨h1, h2, h3, h4⟩ => ⟨h1, h2, h3, h4⟩, fun ⟨h1, h2, h3, h4⟩ => ⟨h1, h2, h3, h4⟩⟩

instance (tar : TarBytes) (o n : ℕ) (digits : List UInt8) : Decidable (OctalAt tar o n digits) :=
  have : Decidable (∀ d ∈ digits, 48 ≤ d ∧ d ≤ 55) := digits.decidableBAll _
  decidable_of_iff (Spells tar o digits ∧ digits ≠ [] ∧ digits.length < n ∧
    (∀ d ∈ digits, 48 ≤ d ∧ d ≤ 55) ∧ (tar (o + digits.length) = 0 ∨ tar (o + digits.length) = 32))
    ⟨fun ⟨h1, h2, h3, h4, h5⟩ => ⟨h1, h2, h3, h4, h5⟩,
      fun ⟨h1, h2, h3, h4, h5⟩ => ⟨h1, h2, h3, h4, h5⟩⟩

instance (tar : TarBytes) (o : ℕ) (h : Ustar) : Decidable (UstarAt tar o h) :=
  decidable_of_iff (FieldAt tar o 100 h.name ∧ OctalAt tar (o + 100) 8 h.mode ∧
    FieldAt tar (o + 345) 155 h.lead ∧ OctalAt tar (o + 124) 12 h.digits ∧ h.digits.length = 11 ∧
    Spells tar (o + 257) [117, 115, 116, 97, 114])
    ⟨fun ⟨h1, h2, h3, h4, h5, h6⟩ => ⟨h1, h2, h3, h4, h5, h6⟩,
      fun ⟨h1, h2, h3, h4, h5, h6⟩ => ⟨h1, h2, h3, h4, h5, h6⟩⟩

/-! ## What the importer reads -/

/-- What `strncpy` reads behind a full name: on to a `NUL`, from `mode` into `linkname`. -/
def TarBytes.spill (tar : TarBytes) (o : ℕ) : CString :=
  ((List.range 154).map fun k => tar (o + 100 + k)).takeWhile (· ≠ 0)

/-- **Read as the format says**: the path, and the size, by which the data is copied and the next
header is found. -/
def ReadsRight (tar : TarBytes) (o : ℕ) (h : Ustar) : Prop :=
  tar.absolutePath o = h.path ∧ tar.fileSize o = h.size ∧
    nextHeader tar o = o + 512 + (h.size + 511) / 512 * 512

section Reads

variable {tar : TarBytes} {o : ℕ} {h : Ustar}

theorem Spells.map_range {str : ℕ → UInt8} {bs : List UInt8} (hs : Spells str o bs) :
    (List.range bs.length).map (fun k => str (o + k)) = bs := by
  induction bs generalizing o with
  | nil => rfl
  | cons b bs ih =>
    rw [List.length_cons, List.range_succ_eq_map, List.map_cons, List.map_map]
    congr 1
    · exact hs.1
    · refine Eq.trans (List.map_congr_left fun k _ => ?_) (ih hs.2)
      rw [Function.comp_apply, Nat.add_assoc, Nat.add_comm 1]

/-- **The name as it is read.** -/
theorem UstarAt.name_eq (hh : UstarAt tar o h) :
    tar.name o = h.name ++ if h.name.length = 100 then tar.spill o else [] := by
  have hname := hh.name
  by_cases hfull : h.name.length = 100
  · have hsplit : (List.range 254).map (fun k => tar (o + k)) =
        h.name ++ (List.range 154).map fun k => tar (o + 100 + k) := by
      conv_rhs => rw [← hname.spells.map_range]
      rw [hfull, show 254 = 100 + 154 from rfl, List.range_add, List.map_append, List.map_map]
      simp [Function.comp_def, Nat.add_assoc]
    have hpos : ∀ b ∈ h.name, decide (b ≠ 0) = true := fun b hb => by
      simpa using fun heq : b = 0 => hname.nul (heq ▸ hb)
    rw [if_pos hfull, TarBytes.name, hsplit, List.takeWhile_append_of_pos hpos]
    rfl
  · have hlt : h.name.length < 100 := lt_of_le_of_ne hname.fits hfull
    rw [if_neg hfull, List.append_nil]
    exact hname.spells.takeWhile hname.nul (hname.ends hlt) (by omega)

/-- **The size as it is read.** -/
theorem UstarAt.fileSize_eq (hh : UstarAt tar o h) : tar.fileSize o = h.size % 2 ^ 32 := by
  have hshift : Spells (fun k => tar (o + 124 + k)) 0 h.digits :=
    hh.size.spells.congr fun k _ => by rw [Nat.zero_add]
  have hoctal : octalFrom (fun k => tar (o + 124 + k)) 12 0 (0 % 2 ^ 32) = h.size % 2 ^ 32 :=
    octalFrom_eq hshift hh.size.fits.le hh.size.octal fun _ => by simpa using hh.size.ends
  exact hoctal

theorem UstarAt.fileSize_eq_iff (hh : UstarAt tar o h) :
    tar.fileSize o = h.size ↔ h.size < 2 ^ 32 := by
  rw [hh.fileSize_eq]
  exact ⟨fun heq => heq ▸ Nat.mod_lt _ (by decide), Nat.mod_eq_of_lt⟩

/-- A number holds no byte outside of the digits. -/
theorem OctalAt.not_mem {n : ℕ} {digits : List UInt8} (hd : OctalAt tar o n digits) {b : UInt8}
    (hb : b < 48) : b ∉ digits := fun hmem => absurd (hd.octal b hmem).1 (UInt8.not_le.2 hb)

/-- Something is read behind a full name: at least the mode. -/
theorem UstarAt.spill_ne_nil (hh : UstarAt tar o h) : tar.spill o ≠ [] := by
  obtain ⟨d, ds, hmode⟩ := List.exists_cons_of_ne_nil hh.mode.ne_nil
  have hfirst : tar (o + 100) = d := (hmode ▸ hh.mode.spells).1
  have hd : d ≠ 0 := fun heq =>
    hh.mode.not_mem (b := 0) (by decide) (heq ▸ hmode ▸ List.mem_cons_self)
  rw [TarBytes.spill, List.range_succ_eq_map, List.map_cons, List.takeWhile_cons_of_pos]
  · exact List.cons_ne_nil _ _
  · simpa [hfirst] using hd

/-- No more than the mode, if that ends in a `NUL`. -/
theorem UstarAt.spill_eq (hh : UstarAt tar o h) (hnul : tar (o + 100 + h.mode.length) = 0) :
    tar.spill o = h.mode :=
  hh.mode.spells.takeWhile (hh.mode.not_mem (by decide)) hnul (hh.mode.fits.trans (by decide))

/-- **What makes up for a prefix has a slash in it.** -/
theorem slash_mem_of_append_eq {name lead tail : CString}
    (heq : name ++ tail = lead ++ slash :: name) : slash ∈ tail := by
  have hcount := congrArg (List.count slash) heq
  rw [List.count_append, List.count_append, List.count_cons_self] at hcount
  exact List.count_pos_iff.1 (by omega)

/-- The path is right where it is a name that is not full, or where by chance what is read behind
the name makes up for the field that is left out: more than the mode, and with a slash in it. -/
theorem UstarAt.absolutePath_eq_iff (hh : UstarAt tar o h) : tar.absolutePath o = h.path ↔
      h.lead = [] ∧ h.name.length < 100 ∨
      h.lead ≠ [] ∧ h.name.length = 100 ∧ tar (o + 100 + h.mode.length) = 32 ∧
        h.name ++ tar.spill o = h.lead ++ slash :: h.name := by
  have hblank : h.name ++ tar.spill o = h.lead ++ slash :: h.name →
      tar (o + 100 + h.mode.length) = 32 := fun heq => hh.mode.ends.resolve_left fun hnul =>
    hh.mode.not_mem (b := slash) (by decide) (hh.spill_eq hnul ▸ slash_mem_of_append_eq heq)
  rw [TarBytes.absolutePath, Ustar.path, hh.name_eq, List.cons_inj_right]
  by_cases hlead : h.lead = []
  · rw [if_pos hlead]
    split_ifs with hfull
    · simp [hlead, hfull, hh.spill_ne_nil]
    · simp [hlead, lt_of_le_of_ne hh.name.fits hfull]
  · rw [if_neg hlead]
    split_ifs with hfull
    · simp only [hlead, hfull, ne_eq, not_false_eq_true, true_and, false_and, false_or]
      exact (and_iff_right_of_imp hblank).symm
    · simp only [hlead, hfull, List.append_nil, ne_eq, not_false_eq_true, false_and, and_false,
        or_false, iff_false]
      intro heq
      have hlen := congrArg List.length heq
      simp only [List.length_append, List.length_cons] at hlen
      omega

/-- **When a header is read as the format says**: the size is below `2^32`, and the path is a name
that is not full. -/
theorem readsRight_iff (hh : UstarAt tar o h) : ReadsRight tar o h ↔ h.size < 2 ^ 32 ∧
      (h.lead = [] ∧ h.name.length < 100 ∨
        h.lead ≠ [] ∧ h.name.length = 100 ∧ tar (o + 100 + h.mode.length) = 32 ∧
          h.name ++ tar.spill o = h.lead ++ slash :: h.name) := by
  have hnext : h.size < 2 ^ 32 → nextHeader tar o = o + 512 + (h.size + 511) / 512 * 512 :=
    fun hsize => by rw [nextHeader, hh.fileSize_eq_iff.2 hsize]
  rw [ReadsRight, hh.absolutePath_eq_iff, hh.fileSize_eq_iff, and_iff_left_of_imp hnext, and_comm]

end Reads

/-! ## Headers -/

/-- A field of `n` bytes, filled up with zeros. -/
def field (n : ℕ) (bs : List UInt8) : List UInt8 := bs ++ List.replicate (n - bs.length) 0

/-- The header of a regular file. -/
def Ustar.bytes (h : Ustar) : List UInt8 :=
  field 100 h.name ++ field 24 h.mode ++ field 12 h.digits ++ field 20 [] ++
    field 101 [48] ++ field 88 [117, 115, 116, 97, 114, 0, 48, 48] ++ field 155 h.lead

/-- The header by itself. -/
def Ustar.tar (h : Ustar) : TarBytes := fun k => h.bytes.getD k 0

/-- A file `f` of one byte, with mode 644. -/
def plainHeader : Ustar :=
  ⟨[102], [48, 48, 48, 48, 54, 52, 52], [], [48, 48, 48, 48, 48, 48, 48, 48, 48, 48, 49]⟩

/-- A name of 100 letters `a`. -/
def fullName : Ustar := { plainHeader with name := List.replicate 100 97 }

/-- The file `p/f`, with `p` in the prefix field. -/
def withLead : Ustar := { plainHeader with lead := [112] }

/-- A size of `2^32` bytes. -/
def hugeSize : Ustar :=
  { plainHeader with digits := [52, 48, 48, 48, 48, 48, 48, 48, 48, 48, 48] }

set_option maxRecDepth 2000 in
/-- A short name and a small size are read as they are. -/
theorem readsRight_iff_plainHeader :
    UstarAt plainHeader.tar 0 plainHeader ∧ ReadsRight plainHeader.tar 0 plainHeader := by
  have hh : UstarAt plainHeader.tar 0 plainHeader := by decide
  exact ⟨hh, (readsRight_iff hh).2 ⟨by decide, .inl ⟨rfl, by decide⟩⟩⟩

set_option maxRecDepth 4000 in
/-- **Three valid headers that are misread**: the mode becomes part of a full name, the prefix field
is left out, and a size of `2^32` is 0. -/
theorem headers_misread : (UstarAt fullName.tar 0 fullName ∧
      fullName.tar.absolutePath 0 = fullName.path ++ [48, 48, 48, 48, 54, 52, 52]) ∧
    (UstarAt withLead.tar 0 withLead ∧ withLead.tar.absolutePath 0 = [slash, 102] ∧
      withLead.path = [slash, 112, slash, 102]) ∧
    UstarAt hugeSize.tar 0 hugeSize ∧ hugeSize.tar.fileSize 0 = 0 ∧ hugeSize.size = 2 ^ 32 := by
  have hfull : UstarAt fullName.tar 0 fullName := by decide
  have hlead : UstarAt withLead.tar 0 withLead := by decide
  have hhuge : UstarAt hugeSize.tar 0 hugeSize := by decide
  refine ⟨⟨hfull, ?_⟩, ⟨hlead, ?_, by decide⟩, hhuge, ?_, by decide⟩
  · rw [TarBytes.absolutePath, hfull.name_eq, if_pos (by decide)]
    rfl
  · rw [TarBytes.absolutePath, hlead.name_eq]
    rfl
  · rw [hhuge.fileSize_eq]
    decide

end Hvos.Fs
