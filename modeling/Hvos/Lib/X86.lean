import Mathlib.Data.BitVec

/-!
# Lib/X86 — a straight-line fragment of x86-64, and its stack as a list

The instructions a context switch is written in: pushes and pops, moves between registers, segment
registers and the stack, `pushfq`, `add`/`test` on a stack slot, `swapgs`, `iretq`, and one forward
conditional jump.  Memory is read and written in eight-byte slots at the address an access names —
exact for routines whose accesses all sit a multiple of eight from one stack pointer.

`StackAt` reads the slots from the stack pointer upwards as a list: a push is a cons, a pop a tail,
and the three list rules below are how a routine is executed symbolically.
-/

namespace Hvos.X86

open Function

/-- A machine word. -/
abbrev Word := BitVec 64

/-- The sixteen general registers. -/
inductive Reg
  | rax | rbx | rcx | rdx | rsi | rdi | rbp | rsp
  | r8 | r9 | r10 | r11 | r12 | r13 | r14 | r15
  deriving DecidableEq, Repr

/-- The two segment registers an interrupt frame carries. -/
inductive Seg
  | cs | ss
  deriving DecidableEq, Repr

/-- The processor and the memory it sees. -/
structure Cpu where
  reg : Reg → Word
  seg : Seg → BitVec 16
  rip : Word
  rflags : Word
  gsBase : Word
  kernelGsBase : Word
  mem : Word → Word

/-! ## Flags -/

/-- Write one bit of a word. -/
def putBit (f : Word) (i : ℕ) (b : Bool) : Word :=
  if b then f ||| (1#64 <<< i) else f &&& ~~~(1#64 <<< i)

/-- `PF`: the low byte of the result has an even number of ones. -/
def evenParity (r : Word) : Bool :=
  (((List.range 8).filter fun i => r.getLsbD i).length % 2) == 0

/-- The status flags `add` leaves: `CF PF AF ZF SF OF`. -/
def addFlags (f a b : Word) : Word :=
  let r := a + b
  let f := putBit f 0 (decide (r < a))
  let f := putBit f 2 (evenParity r)
  let f := putBit f 4 ((a ^^^ b ^^^ r).getLsbD 4)
  let f := putBit f 6 (r == 0)
  let f := putBit f 7 r.msb
  putBit f 11 (a.msb == b.msb && r.msb != a.msb)

/-- The status flags `test` leaves: `CF` and `OF` clear, `PF ZF SF` from the conjunction. -/
def testFlags (f r : Word) : Word :=
  let f := putBit f 0 false
  let f := putBit f 2 (evenParity r)
  let f := putBit f 6 (r == 0)
  let f := putBit f 7 r.msb
  putBit f 11 false

/-- `pushfq` pushes the flags with `RF` and `VM` cleared. -/
def flagsImage (f : Word) : Word := f &&& 0x0000000000FCFFFF#64

/-! ## Instructions -/

/-- The instructions of the fragment.  `jz n` jumps over the next `n` instructions. -/
inductive Instr
  | mov (d s : Reg)
  | movSeg (d : Reg) (s : Seg)
  | load (d base : Reg) (disp : Word)
  | push (r : Reg)
  | pop (r : Reg)
  | pushfq
  | addMem (base : Reg) (disp imm : Word)
  | testMem (base : Reg) (disp imm : Word)
  | jz (n : ℕ)
  | swapgs
  | sti
  | iretq
  deriving Repr

/-- Every instruction but the jump falls through to the next. -/
def Instr.straight : Instr → Bool
  | .jz _ => false
  | _ => true

namespace Cpu

/-- Write a register. -/
def setReg (c : Cpu) (r : Reg) (v : Word) : Cpu := { c with reg := update c.reg r v }

/-- Push a value: the slot below the stack pointer, which moves down to it. -/
def pushVal (c : Cpu) (v : Word) : Cpu :=
  { c with
    reg := update c.reg .rsp (c.reg .rsp - 8#64)
    mem := update c.mem (c.reg .rsp - 8#64) v }

/-- The slot the stack pointer names, plus a displacement in slots. -/
def slot (c : Cpu) (i : ℕ) : Word := c.mem (c.reg .rsp + BitVec.ofNat 64 (8 * i))

/-- `iretq`: instruction pointer, `cs`, flags, stack pointer and `ss`, from the five slots at the
stack pointer. -/
def iret (c : Cpu) : Cpu :=
  { c with
    rip := c.slot 0
    seg := fun s => match s with
      | .cs => (c.slot 1).setWidth 16
      | .ss => (c.slot 4).setWidth 16
    rflags := c.slot 2
    reg := update c.reg .rsp (c.slot 3) }

/-- One instruction.  A push of `rsp` pushes the value before the push; `jz` is control flow and
leaves the state alone. -/
def exec (c : Cpu) : Instr → Cpu
  | .mov d s => c.setReg d (c.reg s)
  | .movSeg d s => c.setReg d ((c.seg s).setWidth 64)
  | .load d b disp => c.setReg d (c.mem (c.reg b + disp))
  | .push r => c.pushVal (c.reg r)
  | .pop r =>
    let v := c.mem (c.reg .rsp)
    (c.setReg .rsp (c.reg .rsp + 8#64)).setReg r v
  | .pushfq => c.pushVal (flagsImage c.rflags)
  | .addMem b disp imm =>
    let a := c.reg b + disp
    { c with
      rflags := addFlags c.rflags (c.mem a) imm
      mem := update c.mem a (c.mem a + imm) }
  | .testMem b disp imm =>
    { c with rflags := testFlags c.rflags (c.mem (c.reg b + disp) &&& imm) }
  | .jz _ => c
  | .swapgs => { c with gsBase := c.kernelGsBase, kernelGsBase := c.gsBase }
  | .sti => { c with rflags := putBit c.rflags 9 true }
  | .iretq => c.iret

/-- The zero flag. -/
def zf (c : Cpu) : Bool := c.rflags.getLsbD 6

/-- Run a routine, the first `skip` instructions of which a taken jump passes over. -/
def runFrom : ℕ → List Instr → Cpu → Cpu
  | _, [], c => c
  | k + 1, _ :: is, c => runFrom k is c
  | 0, .jz n :: is, c => if c.zf then runFrom n is c else runFrom 0 is c
  | 0, i :: is, c => runFrom 0 is (c.exec i)

/-- Run a routine from its first instruction. -/
def run (is : List Instr) (c : Cpu) : Cpu := runFrom 0 is c

/-- A routine with no jump in its first part runs that part, then the rest. -/
theorem run_append (is js : List Instr) (h : is.all Instr.straight = true) (c : Cpu) :
    run (is ++ js) c = run js (run is c) := by
  induction is generalizing c with
  | nil => rfl
  | cons i is ih =>
    obtain ⟨hi, his⟩ := Bool.and_eq_true_iff.mp (List.all_cons ▸ h)
    cases i with
    | jz n => exact absurd hi Bool.false_ne_true
    | _ => exact ih his _

@[simp] theorem setReg_self (c : Cpu) (r : Reg) (v : Word) : (c.setReg r v).reg r = v :=
  update_self ..

theorem setReg_of_ne (c : Cpu) {r q : Reg} (h : q ≠ r) (v : Word) :
    (c.setReg r v).reg q = c.reg q := update_of_ne h ..

@[simp] theorem pushVal_rsp (c : Cpu) (v : Word) : (c.pushVal v).reg .rsp = c.reg .rsp - 8#64 := by
  simp [pushVal]

theorem pushVal_of_ne (c : Cpu) {q : Reg} (h : q ≠ .rsp) (v : Word) :
    (c.pushVal v).reg q = c.reg q := by
  simp [pushVal, h]

end Cpu

/-! ## The stack as a list -/

/-- **The slots from the stack pointer upwards hold `vs`**, lowest address first. -/
def StackAt (c : Cpu) (vs : List Word) : Prop := ∀ i (h : i < vs.length), c.slot i = vs[i]

namespace StackAt

variable {c : Cpu} {v : Word} {vs : List Word}

theorem nil (c : Cpu) : StackAt c [] := fun _ h => absurd h (Nat.not_lt_zero _)

theorem head (h : StackAt c (v :: vs)) : c.mem (c.reg .rsp) = v := by
  have := h 0 (Nat.zero_lt_succ _)
  simpa [Cpu.slot] using this

/-- A push is a cons. -/
theorem pushVal (h : StackAt c vs) (hlen : vs.length < 2 ^ 60) (v : Word) :
    StackAt (c.pushVal v) (v :: vs) := by
  intro i hi
  rcases i with _ | i
  · simp [Cpu.slot, Cpu.pushVal]
  · have hi' : i < vs.length := Nat.lt_of_succ_lt_succ hi
    -- slot `i + 1` above the lowered stack pointer is slot `i` above the old one
    have haddr : c.reg .rsp - 8#64 + BitVec.ofNat 64 (8 * (i + 1))
        = c.reg .rsp + BitVec.ofNat 64 (8 * i) := by bv_omega
    have hne : c.reg .rsp + BitVec.ofNat 64 (8 * i) ≠ c.reg .rsp - 8#64 := by bv_omega
    have hold : (c.pushVal v).slot (i + 1) = c.slot i := by
      simp only [Cpu.slot, Cpu.pushVal, update_self]
      rw [haddr, update_of_ne hne]
    rw [hold, h i hi', List.getElem_cons_succ]

/-- A pop is a tail. -/
theorem pop (h : StackAt c (v :: vs)) {r : Reg} (hr : r ≠ .rsp) : StackAt (c.exec (.pop r)) vs := by
  intro i hi
  have haddr : c.reg .rsp + 8#64 + BitVec.ofNat 64 (8 * i)
      = c.reg .rsp + BitVec.ofNat 64 (8 * (i + 1)) := by
    rw [BitVec.add_assoc, show 8 * (i + 1) = 8 + 8 * i by omega, BitVec.ofNat_add]
  have hold : (c.exec (.pop r)).slot i = c.slot (i + 1) := by
    simp only [Cpu.slot, Cpu.exec, Cpu.setReg]
    rw [update_of_ne hr.symm, update_self, haddr]
  rw [hold, h (i + 1) (Nat.succ_lt_succ hi), List.getElem_cons_succ]

/-- Slot `i` above the stack pointer, as the `[rsp + 8 * i]` an instruction writes. -/
theorem get (h : StackAt c vs) {i : ℕ} (hi : i < vs.length) {disp : Word}
    (hd : disp = BitVec.ofNat 64 (8 * i)) : c.mem (c.reg .rsp + disp) = vs[i] := by
  rw [hd]
  exact h i hi

/-- Only the slots matter: a state with the same slots has the same stack. -/
theorem congr {c' : Cpu} (h : StackAt c vs) (hmem : ∀ i < vs.length, c'.slot i = c.slot i) :
    StackAt c' vs := fun i hi => (hmem i hi).trans (h i hi)

/-- Writing any other register than the stack pointer leaves the stack alone. -/
theorem setReg (h : StackAt c vs) {r : Reg} (hr : r ≠ .rsp) (v : Word) :
    StackAt (c.setReg r v) vs :=
  h.congr fun i _ => by simp only [Cpu.slot, Cpu.setReg, update_of_ne hr.symm]

/-- `add` on the top slot. -/
theorem addTop (h : StackAt c (v :: vs)) (hlen : vs.length < 2 ^ 60) (imm : Word) :
    StackAt (c.exec (.addMem .rsp 0#64 imm)) ((v + imm) :: vs) := by
  intro i hi
  rcases i with _ | i
  · have := h.head
    simp [Cpu.slot, Cpu.exec, this]
  · have hi' : i < vs.length := Nat.lt_of_succ_lt_succ hi
    have hne : c.reg .rsp + BitVec.ofNat 64 (8 * (i + 1)) ≠ c.reg .rsp + 0#64 := by bv_omega
    have hold : (c.exec (.addMem .rsp 0#64 imm)).slot (i + 1) = c.slot (i + 1) := by
      simp only [Cpu.slot, Cpu.exec]
      rw [update_of_ne hne]
    rw [hold, h (i + 1) hi, List.getElem_cons_succ, List.getElem_cons_succ]

end StackAt

/-! ## Saving and restoring a list of registers -/

/-- Everything but the general registers and the memory. -/
structure SameControl (c c' : Cpu) : Prop where
  seg : c'.seg = c.seg
  rip : c'.rip = c.rip
  rflags : c'.rflags = c.rflags
  gsBase : c'.gsBase = c.gsBase
  kernelGsBase : c'.kernelGsBase = c.kernelGsBase

theorem SameControl.trans {a b c : Cpu} (h : SameControl a b) (h' : SameControl b c) :
    SameControl a c :=
  ⟨h'.seg.trans h.seg, h'.rip.trans h.rip, h'.rflags.trans h.rflags, h'.gsBase.trans h.gsBase,
    h'.kernelGsBase.trans h.kernelGsBase⟩

/-- What pushing the registers `rs` leaves: their values on the stack, last pushed on top, and no
register but the stack pointer moved. -/
structure Pushed (rs : List Reg) (c c' : Cpu) (vs : List Word) : Prop where
  stack : StackAt c' ((rs.map c.reg).reverse ++ vs)
  reg : ∀ r, r ≠ .rsp → c'.reg r = c.reg r
  rsp : c'.reg .rsp = c.reg .rsp - BitVec.ofNat 64 (8 * rs.length)
  control : SameControl c c'

/-- **Pushing a list of registers.** -/
theorem run_push (rs : List Reg) (hrs : Reg.rsp ∉ rs) {c : Cpu} {vs : List Word}
    (h : StackAt c vs) (hlen : rs.length + vs.length < 2 ^ 60) :
    Pushed rs c (Cpu.run (rs.map .push) c) vs := by
  induction rs generalizing c vs with
  | nil => exact ⟨h, fun _ _ => rfl, by simp [Cpu.run, Cpu.runFrom], ⟨rfl, rfl, rfl, rfl, rfl⟩⟩
  | cons r rs ih =>
    obtain ⟨hr, hrs'⟩ := not_or.mp (fun h' => hrs (List.mem_cons.mpr h'))
    simp only [List.length_cons] at hlen
    have hstep : Cpu.run ((r :: rs).map .push) c
        = Cpu.run (rs.map .push) (c.pushVal (c.reg r)) := rfl
    have hP := ih hrs' (h.pushVal (by omega) (c.reg r)) (by simp only [List.length_cons]; omega)
    have hreg : ∀ q, q ≠ .rsp → (c.pushVal (c.reg r)).reg q = c.reg q := fun q hq =>
      c.pushVal_of_ne hq _
    have hmap : rs.map (c.pushVal (c.reg r)).reg = rs.map c.reg :=
      List.map_congr_left fun q hq => hreg q fun hq' => hrs' (hq' ▸ hq)
    rw [hstep]
    refine ⟨?_, fun q hq => (hP.reg q hq).trans (hreg q hq), ?_, ?_⟩
    · have := hP.stack
      rw [hmap] at this
      simpa using this
    · rw [hP.rsp]
      rw [Cpu.pushVal_rsp, List.length_cons]
      bv_omega
    · have hc : SameControl c (c.pushVal (c.reg r)) := ⟨rfl, rfl, rfl, rfl, rfl⟩
      exact hc.trans hP.control

/-- What popping into the registers `rs` leaves. -/
structure Popped (rs : List Reg) (ws : List Word) (c c' : Cpu) (vs : List Word) : Prop where
  stack : StackAt c' vs
  popped : ∀ i (hi : i < rs.length) (hw : i < ws.length), c'.reg rs[i] = ws[i]
  other : ∀ r, r ≠ .rsp → r ∉ rs → c'.reg r = c.reg r
  control : SameControl c c'

/-- **Popping a list of registers**, from a stack whose top holds their values. -/
theorem run_pop (rs : List Reg) (hrs : Reg.rsp ∉ rs) (hnd : rs.Nodup) {c : Cpu}
    {ws vs : List Word} (hw : ws.length = rs.length) (h : StackAt c (ws ++ vs)) :
    Popped rs ws c (Cpu.run (rs.map .pop) c) vs := by
  induction rs generalizing c ws with
  | nil =>
    obtain rfl : ws = [] := List.length_eq_zero_iff.mp hw
    exact ⟨h, fun i hi => absurd hi (Nat.not_lt_zero _), fun _ _ _ => rfl, ⟨rfl, rfl, rfl, rfl, rfl⟩⟩
  | cons r rs ih =>
    obtain ⟨w, ws, rfl⟩ := List.exists_cons_of_length_eq_add_one hw
    obtain ⟨hr, hrs'⟩ := not_or.mp (fun h' => hrs (List.mem_cons.mpr h'))
    obtain ⟨hrn, hnd'⟩ := List.nodup_cons.mp hnd
    have hstep : Cpu.run ((r :: rs).map .pop) c = Cpu.run (rs.map .pop) (c.exec (.pop r)) := rfl
    have hpop : StackAt (c.exec (.pop r)) (ws ++ vs) := StackAt.pop h (Ne.symm hr)
    have hP := ih hrs' hnd' (by simpa using hw) hpop
    have htop : (c.exec (.pop r)).reg r = w := by
      rw [Cpu.exec, Cpu.setReg_self]
      exact h.head
    have hreg : ∀ q, q ≠ .rsp → q ≠ r → (c.exec (.pop r)).reg q = c.reg q := fun q hq hqr => by
      rw [Cpu.exec, Cpu.setReg_of_ne _ hqr, Cpu.setReg_of_ne _ hq]
    rw [hstep]
    refine ⟨hP.stack, fun i hi hw' => ?_, fun q hq hqr => ?_, ?_⟩
    · rcases i with _ | i
      · exact (hP.other r (Ne.symm hr) hrn).trans htop
      · exact hP.popped i (Nat.lt_of_succ_lt_succ hi) (Nat.lt_of_succ_lt_succ hw')
    · obtain ⟨h1, h2⟩ := not_or.mp (fun h' => hqr (List.mem_cons.mpr h'))
      exact (hP.other q hq h2).trans (hreg q hq h1)
    · have hc : SameControl c (c.exec (.pop r)) := ⟨rfl, rfl, rfl, rfl, rfl⟩
      exact hc.trans hP.control

end Hvos.X86
