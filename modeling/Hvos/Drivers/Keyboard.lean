import Mathlib.Data.Nat.Notation
import Mathlib.Logic.Function.Basic
import Mathlib.Tactic.SplitIfs

/-!
# Drivers/Keyboard — the input ring between the keyboard interrupt and the console

`append_to_input_buffer` drops a character when the ring is full; `keyboard_get_char` answers `0`
when it is empty, the same value an unmapped key appends.
-/

namespace Hvos.Drivers

/-- `KDB_BUFFER_SIZE`. -/
def kdbBufferSize : ℕ := 256

/-- `kdb_queue` with its head, tail and occupancy. -/
structure Kdb where
  queue : ℕ → UInt8
  head : ℕ
  tail : ℕ
  occupancy : ℕ

namespace Kdb

/-- The ring at boot. -/
def empty : Kdb := ⟨fun _ => 0, 0, 0, 0⟩

/-- The ring update of `append_to_input_buffer`. -/
def append (k : Kdb) (c : UInt8) : Kdb :=
  if k.occupancy < kdbBufferSize then
    { queue := Function.update k.queue k.head c
      head := (k.head + 1) % kdbBufferSize
      tail := k.tail
      occupancy := k.occupancy + 1 }
  else k

/-- `keyboard_get_char`. -/
def getChar (k : Kdb) : UInt8 × Kdb :=
  if 0 < k.occupancy then
    (k.queue k.tail,
      { k with tail := (k.tail + 1) % kdbBufferSize, occupancy := k.occupancy - 1 })
  else (0, k)

/-! ## The ring as a queue -/

/-- The characters in the ring, oldest first. -/
def contents (k : Kdb) : List UInt8 :=
  (List.range k.occupancy).map fun i => k.queue ((k.tail + i) % kdbBufferSize)

/-- Head, tail and occupancy agree. -/
structure Sane (k : Kdb) : Prop where
  tail_lt : k.tail < kdbBufferSize
  head_eq : k.head = (k.tail + k.occupancy) % kdbBufferSize
  occupancy_le : k.occupancy ≤ kdbBufferSize

variable {k : Kdb}

theorem sane_empty : Sane empty := ⟨by decide, rfl, by decide⟩

theorem length_contents (k : Kdb) : k.contents.length = k.occupancy := by simp [contents]

theorem Sane.append (h : k.Sane) (c : UInt8) : (k.append c).Sane := by
  unfold Kdb.append
  split_ifs with hroom
  · refine ⟨h.tail_lt, ?_, hroom⟩
    simp only [h.head_eq, kdbBufferSize]
    omega
  · exact h

/-- **A character is appended behind all others.** -/
theorem Sane.contents_append (h : k.Sane) (c : UInt8) (hroom : k.occupancy < kdbBufferSize) :
    (k.append c).contents = k.contents ++ [c] := by
  have hslot : ∀ i < k.occupancy, (k.tail + i) % kdbBufferSize ≠ k.head := by
    intro i hi
    have := h.head_eq
    simp only [kdbBufferSize] at *
    omega
  rw [Kdb.append, if_pos hroom, contents, List.range_succ, List.map_append]
  congr 1
  · refine List.map_congr_left fun i hi => ?_
    exact Function.update_of_ne (hslot i (List.mem_range.1 hi)) _ _
  · simp [h.head_eq]

theorem append_of_full (c : UInt8) (hfull : ¬k.occupancy < kdbBufferSize) : k.append c = k :=
  if_neg hfull

theorem Sane.getChar (h : k.Sane) : k.getChar.2.Sane := by
  unfold Kdb.getChar
  split_ifs with hpos
  · refine ⟨Nat.mod_lt _ (by decide), ?_, ?_⟩
    · simp only [h.head_eq, kdbBufferSize]
      omega
    · exact Nat.le_trans (Nat.sub_le _ _) h.occupancy_le
  · exact h

/-- **The oldest character is taken.** -/
theorem Sane.contents_getChar (h : k.Sane) (hpos : 0 < k.occupancy) :
    k.contents = k.getChar.1 :: k.getChar.2.contents := by
  obtain ⟨n, hn⟩ : ∃ n, k.occupancy = n + 1 := ⟨k.occupancy - 1, by omega⟩
  have hnext : ∀ i, (k.tail + (i + 1)) % kdbBufferSize =
      ((k.tail + 1) % kdbBufferSize + i) % kdbBufferSize := by
    intro i
    rw [Nat.mod_add_mod]
    congr 1
    omega
  simp only [contents, Kdb.getChar, hn, List.range_succ_eq_map, List.map_cons,
    List.map_map, Nat.add_sub_cancel, Nat.add_zero, Nat.mod_eq_of_lt h.tail_lt]
  congr 1
  exact List.map_congr_left fun i _ => congrArg k.queue (hnext i)

theorem getChar_of_empty (hemp : ¬0 < k.occupancy) : k.getChar = (0, k) := if_neg hemp

/-- What a reader will still be given: the characters in the ring, without the `0`s. -/
def pending (k : Kdb) : List UInt8 := k.contents.filter (· ≠ 0)

/-- What an append adds to it. -/
theorem Sane.pending_append (h : k.Sane) (c : UInt8) : (k.append c).pending =
      k.pending ++ if c ≠ 0 ∧ k.occupancy < kdbBufferSize then [c] else [] := by
  by_cases hroom : k.occupancy < kdbBufferSize
  · rw [pending, h.contents_append c hroom, List.filter_append, pending]
    by_cases hc : c = 0 <;> simp [hc, hroom]
  · simp [append_of_full c hroom, hroom]

/-- What a read takes off it: the character, or nothing where the read answers `0`. -/
theorem Sane.pending_getChar (h : k.Sane) :
    k.pending = [k.getChar.1].filter (· ≠ 0) ++ k.getChar.2.pending := by
  by_cases hpos : 0 < k.occupancy
  · rw [pending, h.contents_getChar hpos, ← List.singleton_append, List.filter_append, pending]
  · simp [getChar_of_empty hpos]

end Kdb

end Hvos.Drivers
