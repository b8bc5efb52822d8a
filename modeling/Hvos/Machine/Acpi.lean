import Hvos.Lib.Bytes
import Mathlib.Algebra.Order.Ring.Nat
import Mathlib.Data.Int.ModEq

/-!
# Machine/Acpi — two ways to find the tables of the firmware

`acpi_parse_rsdt` adds `hhdm_offset` to a number and makes a pointer of the sum.  `acpi_parse_xsdt`
makes a pointer of the number and adds `hhdm_offset` to the pointer, which counts in headers of 36
bytes.  The two agree only where 35 times `hhdm_offset` is nothing, and since 35 is odd that is at 0
(`discoveryAgrees_iff`).
-/

namespace Hvos.Machine

open Bytes

/-! ## `acpi.c` -/

/-- `sizeof(acpi_sdt_header_t)`, and of `acpi_header_t`. -/
def sizeofHeader : ℕ := 36

/-- The fields of `acpi_rsdp_t` that are read. -/
structure Rsdp where
  checksum : UInt8
  revision : UInt8
  rsdtAddress : ℕ
  xsdtAddress : ℕ

section Parse

variable (mem : ℕ → UInt8) (hhdmOffset : ℕ)

/-- `header->length`. -/
def tableLength (table : ℕ) : ℕ := load mem (table + 4) 4

/-- `acpi_parse_rsdt`: the pointers it calls `acpi_parse_dt` with. -/
def acpiParseRsdt (rsdt : ℕ) : List ℕ :=
  let nbEntries := (tableLength mem rsdt + 2 ^ 64 - sizeofHeader) % 2 ^ 64 / 4 % 2 ^ 32
  (List.range nbEntries).map fun i =>
    (load mem (rsdt + sizeofHeader + 4 * i) 4 + hhdmOffset) % 2 ^ 64

/-- The loop of `acpi_parse_xsdt`: the pointers it calls `acpi_parse_dt` with.  Nothing after so
many rounds if it is still in the loop. -/
def xsdtFrom : ℕ → ℕ → ℕ → Option (List ℕ)
  | 0, _, _ => none
  | fuel + 1, p, stop =>
    if p < stop then
      let address := load mem p 8
      (xsdtFrom fuel (p + 8) stop).map
        ((address + sizeofHeader * hhdmOffset) % 2 ^ 64 :: ·)
    else some []

/-- `acpi_parse_xsdt`.  A round takes eight bytes of the table. -/
def acpiParseXsdt (xsdt : ℕ) : Option (List ℕ) :=
  xsdtFrom mem hhdmOffset (tableLength mem xsdt + 1) (xsdt + sizeofHeader) (xsdt + tableLength mem xsdt)

/-- `acpi_parse_rsdp`: what it returns, and the pointers `acpi_parse_dt` is called with. -/
def acpiParseRsdp (rsdp : Rsdp) : Option (Bool × List ℕ) :=
  if rsdp.checksum = 0 then some (false, [])
  else if rsdp.revision = 0 then
    some (true, acpiParseRsdt mem hhdmOffset ((rsdp.rsdtAddress + hhdmOffset) % 2 ^ 64))
  else if rsdp.revision = 2 then
    if rsdp.xsdtAddress ≠ 0 then
      (acpiParseXsdt mem hhdmOffset rsdp.xsdtAddress).map (true, ·)
    else some (true, acpiParseRsdt mem hhdmOffset rsdp.rsdtAddress)
  else some (true, [])

end Parse

/-! ## Firmware -/

/-- **The table lists these addresses**, in words of so many bytes. -/
structure Lists (mem : ℕ → UInt8) (table width : ℕ) (addrs : List ℕ) : Prop where
  length : tableLength mem table = sizeofHeader + width * addrs.length
  entries : ∀ (i : ℕ) (h : i < addrs.length), load mem (table + sizeofHeader + width * i) width = addrs[i]

/-- **The RSDT and the XSDT list the same addresses**, each where the kernel reads it: the RSDT in
the higher half, the XSDT at its physical address. -/
structure Firmware (mem : ℕ → UInt8) (hhdmOffset : ℕ) (rsdp : Rsdp) (addrs : List ℕ) : Prop where
  offset_lt : hhdmOffset < 2 ^ 64
  rsdt : Lists mem ((rsdp.rsdtAddress + hhdmOffset) % 2 ^ 64) 4 addrs
  xsdt : Lists mem rsdp.xsdtAddress 8 addrs
  xsdt_ne_zero : rsdp.xsdtAddress ≠ 0

/-- The tables in the higher half. -/
def virtuals (hhdmOffset : ℕ) (addrs : List ℕ) : List ℕ :=
  addrs.map fun a => (a + hhdmOffset) % 2 ^ 64

/-- **Discovery agrees**: with either revision `acpi_parse_dt` is called with the tables in the
higher half. -/
def DiscoveryAgrees (mem : ℕ → UInt8) (hhdmOffset : ℕ) (rsdp : Rsdp) (addrs : List ℕ) : Prop :=
  ∀ revision ∈ [0, 2], ∃ found,
    acpiParseRsdp mem hhdmOffset { rsdp with revision := revision } =
      some (found, virtuals hhdmOffset addrs)

variable {mem : ℕ → UInt8} {hhdmOffset table fuel i : ℕ} {rsdp : Rsdp} {addrs : List ℕ}

/-- **`acpi_parse_rsdt`** finds the tables. -/
theorem Lists.rsdt_eq (h : Lists mem table 4 addrs) :
    acpiParseRsdt mem hhdmOffset table = virtuals hhdmOffset addrs := by
  have hlt : tableLength mem table < 2 ^ 32 := load_lt
  have hcount : (tableLength mem table + 2 ^ 64 - sizeofHeader) % 2 ^ 64 / 4 % 2 ^ 32 =
      addrs.length := by
    rw [h.length] at hlt ⊢
    unfold sizeofHeader at hlt ⊢
    omega
  unfold acpiParseRsdt virtuals
  simp only [hcount]
  refine List.ext_getElem (by simp) fun i hi hi' => ?_
  have hi : i < addrs.length := by simpa using hi'
  simp [h.entries i hi]

/-- The loop of `acpi_parse_xsdt`, from an entry on. -/
theorem Lists.xsdtFrom_eq (h : Lists mem table 8 addrs) (hi : i ≤ addrs.length)
    (hfuel : addrs.length - i < fuel) : xsdtFrom mem hhdmOffset fuel (table + sizeofHeader + 8 * i)
        (table + sizeofHeader + 8 * addrs.length) =
      some ((addrs.drop i).map fun a => (a + sizeofHeader * hhdmOffset) % 2 ^ 64) := by
  induction fuel generalizing i with
  | zero => omega
  | succ fuel ih =>
    rw [xsdtFrom]
    split_ifs with hlt
    · have hi : i < addrs.length := by omega
      have hnext : table + sizeofHeader + 8 * i + 8 = table + sizeofHeader + 8 * (i + 1) := by omega
      rw [hnext, ih hi (by omega), h.entries i hi, List.drop_eq_getElem_cons hi]
      rfl
    · rw [List.drop_eq_nil_of_le (by omega), List.map_nil]

/-- **`acpi_parse_xsdt`** adds the offset in headers. -/
theorem Lists.xsdt_eq (h : Lists mem table 8 addrs) : acpiParseXsdt mem hhdmOffset table =
    some (addrs.map fun a => (a + sizeofHeader * hhdmOffset) % 2 ^ 64) := by
  unfold acpiParseXsdt
  rw [h.length, ← Nat.add_assoc]
  exact h.xsdtFrom_eq (i := 0) (Nat.zero_le _) (by omega)

/-- Headers and bytes are the same offset only at 0. -/
theorem offsets_agree_iff {a : ℕ} (hoffset : hhdmOffset < 2 ^ 64) :
    (a + sizeofHeader * hhdmOffset) % 2 ^ 64 = (a + hhdmOffset) % 2 ^ 64 ↔ hhdmOffset = 0 := by
  refine ⟨fun h => ?_, fun h => by rw [h, Nat.mul_zero]⟩
  have hmod : hhdmOffset ≡ sizeofHeader * hhdmOffset [MOD 2 ^ 64] :=
    (Nat.ModEq.add_left_cancel' a (show _ ≡ _ [MOD 2 ^ 64] from h)).symm
  have hle : hhdmOffset ≤ sizeofHeader * hhdmOffset := Nat.le_mul_of_pos_left _ (by decide)
  have hdiff : sizeofHeader * hhdmOffset - hhdmOffset = 35 * hhdmOffset := by
    unfold sizeofHeader
    omega
  rw [Nat.modEq_iff_dvd' hle, hdiff] at hmod
  exact Nat.eq_zero_of_dvd_of_lt (Nat.Coprime.dvd_of_dvd_mul_left (by decide) hmod) hoffset

/-- The two ways to add agree on all tables. -/
theorem map_eq_virtuals_iff (hoffset : hhdmOffset < 2 ^ 64) :
    (addrs.map fun a => (a + sizeofHeader * hhdmOffset) % 2 ^ 64) = virtuals hhdmOffset addrs ↔
      addrs = [] ∨ hhdmOffset = 0 := by
  cases addrs with
  | nil => simp [virtuals]
  | cons a addrs =>
    refine ⟨fun h => .inr ?_, fun h => ?_⟩
    · exact (offsets_agree_iff hoffset).1 (List.cons.inj h).1
    · obtain h | rfl := h
      · cases h
      · rfl

/-- **Discovery agrees exactly if** there are no tables, or there is a checksum and `hhdm_offset` is
0. -/
theorem discoveryAgrees_iff (h : Firmware mem hhdmOffset rsdp addrs) :
    DiscoveryAgrees mem hhdmOffset rsdp addrs ↔
      addrs = [] ∨ rsdp.checksum ≠ 0 ∧ hhdmOffset = 0 := by
  have hmap := @map_eq_virtuals_iff _ addrs h.offset_lt
  have hnil : virtuals hhdmOffset addrs = [] ↔ addrs = [] := List.map_eq_nil_iff
  unfold DiscoveryAgrees
  rw [List.forall_mem_cons, List.forall_mem_singleton]
  by_cases hsum : rsdp.checksum = 0
  · have hnone : ∀ revision, acpiParseRsdp mem hhdmOffset { rsdp with revision := revision } =
        some (false, []) := fun _ => if_pos hsum
    rw [hnone, hnone]
    simp [hsum, hnil, eq_comm]
  · have hrsdt : acpiParseRsdp mem hhdmOffset { rsdp with revision := 0 } =
        some (true, virtuals hhdmOffset addrs) := by
      unfold acpiParseRsdp
      rw [if_neg hsum, if_pos rfl, h.rsdt.rsdt_eq]
    have hxsdt : acpiParseRsdp mem hhdmOffset { rsdp with revision := 2 } =
        some (true, addrs.map fun a => (a + sizeofHeader * hhdmOffset) % 2 ^ 64) := by
      unfold acpiParseRsdp
      rw [if_neg hsum, if_neg (by decide : ¬(2 : UInt8) = 0), if_pos rfl, if_pos h.xsdt_ne_zero,
        h.xsdt.xsdt_eq, Option.map_some]
    rw [hrsdt, hxsdt]
    simp only [Option.some.injEq, Prod.mk.injEq, hmap]
    simp [hsum]

/-- Memory with an RSDT and an XSDT that list one table. -/
def oneTable (rsdt xsdt addr : ℕ) : ℕ → UInt8 :=
  store (store (store (store (fun _ => 0) (rsdt + 4) 4 40) (rsdt + 36) 4 addr) (xsdt + 4) 4 44)
    (xsdt + 36) 8 addr

/-- Without an offset both find the table. -/
theorem discoveryAgrees_at_zero :
    Firmware (oneTable 0x2000 0x3000 0x1000) 0 ⟨1, 0, 0x2000, 0x3000⟩ [0x1000] ∧
      DiscoveryAgrees (oneTable 0x2000 0x3000 0x1000) 0 ⟨1, 0, 0x2000, 0x3000⟩ [0x1000] := by
  have hfirmware : Firmware (oneTable 0x2000 0x3000 0x1000) 0 ⟨1, 0, 0x2000, 0x3000⟩ [0x1000] := by
    refine ⟨by decide, ⟨by decide +kernel, ?_⟩, ⟨by decide +kernel, ?_⟩, by decide⟩
    · decide +kernel
    · decide +kernel
  exact ⟨hfirmware, (discoveryAgrees_iff hfirmware).2 (.inr ⟨by decide, rfl⟩)⟩

/-- **The table at `0x1000` is looked for at `0xffee000000001000`**, with the higher half at
`0xffff800000000000`. -/
theorem xsdt_offset_in_headers : let mem := oneTable 0xffff800000002000 0x3000 0x1000
    Firmware mem 0xffff800000000000 ⟨1, 0, 0x2000, 0x3000⟩ [0x1000] ∧
      acpiParseRsdp mem 0xffff800000000000 ⟨1, 0, 0x2000, 0x3000⟩ =
        some (true, [0xffff800000001000]) ∧
      acpiParseRsdp mem 0xffff800000000000 ⟨1, 2, 0x2000, 0x3000⟩ =
        some (true, [0xffee000000001000]) := by
  refine ⟨⟨by decide, ⟨by decide +kernel, ?_⟩, ⟨by decide +kernel, ?_⟩, by decide⟩, ?_, ?_⟩
  · decide +kernel
  · decide +kernel
  · decide +kernel
  · decide +kernel

end Hvos.Machine
