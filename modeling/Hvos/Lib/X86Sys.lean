import Hvos.Lib.X86

/-!
# Lib/X86Sys — how x86-64 enters and leaves the kernel

Beside the fragment of `Lib/X86`: the instructions of an entry path that are not in it (`cli`,
accesses through `gs`, pushes of constants, `add` on a register), `syscall` and `sysret` with the
registers that direct them, and the delivery of an interrupt through a gate.

An interrupt aligns the new stack to sixteen bytes and pushes five slots and perhaps an error code
(`stackAt_deliver`); `iretq` takes the five slots off again (`StackAt.iret`).
-/

namespace Hvos.X86

open Function

/-! ## Instructions of an entry path -/

/-- A piece of the fragment, or one of the other instructions. -/
inductive Op
  | block (is : List Instr)
  | cli
  /-- `mov [gs:disp], r`. -/
  | storeGs (disp : Word) (r : Reg)
  /-- `mov d, [gs:disp]`. -/
  | loadGs (d : Reg) (disp : Word)
  | pushImm (v : Word)
  /-- `push qword [gs:disp]`. -/
  | pushGs (disp : Word)
  | addReg (d : Reg) (imm : Word)

namespace Cpu

def execOp (c : Cpu) : Op → Cpu
  | .block is => c.run is
  | .cli => { c with rflags := putBit c.rflags 9 false }
  | .storeGs disp r => { c with mem := update c.mem (c.gsBase + disp) (c.reg r) }
  | .loadGs d disp => c.setReg d (c.mem (c.gsBase + disp))
  | .pushImm v => c.pushVal v
  | .pushGs disp => c.pushVal (c.mem (c.gsBase + disp))
  | .addReg d imm =>
    { c.setReg d (c.reg d + imm) with rflags := addFlags c.rflags (c.reg d) imm }

/-- Run a path. -/
def runOps (ops : List Op) (c : Cpu) : Cpu := ops.foldl execOp c

theorem runOps_append (ops ops' : List Op) (c : Cpu) :
    c.runOps (ops ++ ops') = (c.runOps ops).runOps ops' :=
  List.foldl_append ..

end Cpu

/-! ## `syscall` and `sysret` -/

/-- `IA32_STAR`, `IA32_LSTAR` and `IA32_FMASK`. -/
structure Msrs where
  star : Word
  lstar : Word
  sfmask : Word

namespace Cpu

/-- `syscall`, with `rip` behind it. -/
def syscall (m : Msrs) (c : Cpu) : Cpu :=
  { c with
    reg := update (update c.reg .rcx c.rip) .r11 c.rflags
    rip := m.lstar
    rflags := c.rflags &&& ~~~m.sfmask
    seg := fun s => match s with
      | .cs => (m.star >>> 32).setWidth 16 &&& 0xFFFC#16
      | .ss => (m.star >>> 32).setWidth 16 + 8#16 }

/-- The flags `sysret` loads from `r11`. -/
def sysretFlags (f : Word) : Word := f &&& 0x3C7FD7#64 ||| 2#64

/-- `sysret`, to 64-bit code. -/
def sysret (m : Msrs) (c : Cpu) : Cpu :=
  { c with
    rip := c.reg .rcx
    rflags := sysretFlags (c.reg .r11)
    seg := fun s => match s with
      | .cs => (m.star >>> 48).setWidth 16 + 16#16 ||| 3#16
      | .ss => (m.star >>> 48).setWidth 16 + 8#16 ||| 3#16 }

end Cpu

/-! ## Interrupts -/

/-- Where an interrupt gate leads. -/
structure Gate where
  selector : BitVec 16
  handler : Word

namespace Cpu

/-- The privilege level is 3. -/
def user (c : Cpu) : Bool := c.seg .cs &&& 3#16 == 3#16

/-- The flags behind an interrupt gate: `IF`, `TF`, `NT` and `RF` clear. -/
def gateFlags (f : Word) : Word := f &&& ~~~0x14300#64

/-- The stack an interrupt pushes on: that of the processor's task segment from user mode, else the
current one, in either case aligned. -/
def gateStack (rsp0 : Word) (c : Cpu) : Word :=
  (if c.user then rsp0 else c.reg .rsp) &&& ~~~15#64

/-- The five slots of an interrupt, lowest address first. -/
def iretSlots (c : Cpu) : List Word :=
  [c.rip, (c.seg .cs).setWidth 64, c.rflags, c.reg .rsp, (c.seg .ss).setWidth 64]

/-- The pushes of an interrupt. -/
@[irreducible] def framed (rsp0 : Word) (error : Option Word) (c : Cpu) : Cpu :=
  (c.iretSlots.reverse ++ error.toList).foldl pushVal (c.setReg .rsp (c.gateStack rsp0))

/-- **The delivery of an interrupt** through the gate `g`, with its error code if it has one. -/
def deliver (g : Gate) (rsp0 : Word) (error : Option Word) (c : Cpu) : Cpu :=
  { c.framed rsp0 error with
    rip := g.handler
    rflags := gateFlags c.rflags
    seg := fun s => match s with
      | .cs => g.selector
      | .ss => if c.user then 0#16 else c.seg .ss }

end Cpu

/-- Reached from `c` by pushes that left `vs` on top: no other register has moved. -/
structure Onto (c d : Cpu) (vs : List Word) : Prop where
  stack : StackAt d vs
  reg : ∀ r, r ≠ .rsp → d.reg r = c.reg r
  control : SameControl c d

theorem Onto.start (c : Cpu) : Onto c c [] :=
  ⟨StackAt.nil c, fun _ _ => rfl, ⟨rfl, rfl, rfl, rfl, rfl⟩⟩

variable {vs : List Word} {c d : Cpu}

theorem Onto.pushVal (h : Onto c d vs) (hlen : vs.length < 2 ^ 60) (v : Word) :
    Onto c (d.pushVal v) (v :: vs) where
  stack := h.stack.pushVal hlen v
  reg r hr := (d.pushVal_of_ne hr v).trans (h.reg r hr)
  control := h.control.trans ⟨rfl, rfl, rfl, rfl, rfl⟩

/-- Pushing values, the last on top. -/
theorem Onto.foldl (ws : List Word) (h : Onto c d vs) (hlen : ws.length + vs.length < 2 ^ 60) :
    Onto c (ws.foldl Cpu.pushVal d) (ws.reverse ++ vs) := by
  induction ws generalizing d vs with
  | nil => exact h
  | cons w ws ih =>
    rw [List.length_cons] at hlen
    have hrest := ih (h.pushVal (by omega) w) (by rw [List.length_cons]; omega)
    simpa using hrest

section Deliver

variable (g : Gate) (rsp0 : Word) (error : Option Word) (c : Cpu)

theorem onto_framed :
    Onto (c.setReg .rsp (c.gateStack rsp0)) (c.framed rsp0 error) (error.toList ++ c.iretSlots) := by
  have hlen : (c.iretSlots.reverse ++ error.toList).length + ([] : List Word).length < 2 ^ 60 := by
    cases error <;> simp [Cpu.iretSlots]
  have hrev : (c.iretSlots.reverse ++ error.toList).reverse ++ [] =
      error.toList ++ c.iretSlots := by
    cases error <;> simp
  have honto := (Onto.start (c.setReg .rsp (c.gateStack rsp0))).foldl _ hlen
  unfold Cpu.framed
  rwa [hrev] at honto

/-- **What an interrupt leaves on the stack.** -/
theorem stackAt_deliver : StackAt (c.deliver g rsp0 error) (error.toList ++ c.iretSlots) :=
  (onto_framed rsp0 error c).stack

/-- An interrupt changes no general register but the stack pointer. -/
theorem deliver_reg {r : Reg} (hr : r ≠ .rsp) : (c.deliver g rsp0 error).reg r = c.reg r :=
  ((onto_framed rsp0 error c).reg r hr).trans (c.setReg_of_ne hr _)

end Deliver

/-! ## Slots -/

/-- Stores of words from an address upwards. -/
def storeSlots (mem : Word → Word) (a : Word) : List Word → Word → Word
  | [] => mem
  | v :: vs => update (storeSlots mem (a + 8#64) vs) a v

theorem storeSlots_get (mem : Word → Word) (vs : List Word) (hlen : vs.length < 2 ^ 60) (a : Word)
    (i : ℕ) (hi : i < vs.length) : storeSlots mem a vs (a + BitVec.ofNat 64 (8 * i)) = vs[i] := by
  induction vs generalizing a i with
  | nil => exact absurd hi (Nat.not_lt_zero _)
  | cons v vs ih =>
    rw [List.length_cons] at hlen hi
    rcases i with _ | i
    · simp [storeSlots]
    · have hne : a + BitVec.ofNat 64 (8 * (i + 1)) ≠ a := by bv_omega
      have haddr : a + BitVec.ofNat 64 (8 * (i + 1)) = a + 8#64 + BitVec.ofNat 64 (8 * i) := by
        rw [BitVec.add_assoc, show 8 * (i + 1) = 8 + 8 * i by omega, BitVec.ofNat_add]
      rw [storeSlots, update_of_ne hne, haddr, ih (by omega) _ i (by omega),
        List.getElem_cons_succ]

/-- `add rsp, 8` drops a slot. -/
theorem StackAt.addRsp {v : Word} (h : StackAt c (v :: vs)) :
    StackAt (c.execOp (.addReg .rsp 8#64)) vs := by
  intro i hi
  have haddr : c.reg .rsp + 8#64 + BitVec.ofNat 64 (8 * i)
      = c.reg .rsp + BitVec.ofNat 64 (8 * (i + 1)) := by
    rw [BitVec.add_assoc, show 8 * (i + 1) = 8 + 8 * i by omega, BitVec.ofNat_add]
  have hold : (c.execOp (.addReg .rsp 8#64)).slot i = c.slot (i + 1) := by
    simp only [Cpu.slot, Cpu.execOp, Cpu.setReg, update_self, haddr]
  rw [hold, h (i + 1) (Nat.succ_lt_succ hi), List.getElem_cons_succ]

/-- **`iretq` takes the five slots off.** -/
theorem StackAt.iret {ip cs fl sp ss : Word} (h : StackAt d (ip :: cs :: fl :: sp :: ss :: vs)) :
    d.iret.rip = ip ∧ d.iret.seg .cs = cs.setWidth 16 ∧ d.iret.rflags = fl ∧
      d.iret.reg = update d.reg .rsp sp ∧ d.iret.seg .ss = ss.setWidth 16 := by
  have h0 : d.slot 0 = ip := h 0 (by simp)
  have h1 : d.slot 1 = cs := h 1 (by simp)
  have h2 : d.slot 2 = fl := h 2 (by simp)
  have h3 : d.slot 3 = sp := h 3 (by simp)
  have h4 : d.slot 4 = ss := h 4 (by simp)
  exact ⟨h0, congrArg (BitVec.setWidth 16) h1, h2, congrArg (update d.reg .rsp) h3,
    congrArg (BitVec.setWidth 16) h4⟩

end Hvos.X86
