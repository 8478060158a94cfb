import Mathlib.Logic.Function.Basic

/-!
# The emulator

`rv32ima_step` advances a RISC-V processor by one instruction.  It adds the
elapsed time to the timer, takes a pending timer interrupt or fetches a word,
executes it and enters a trap if the word raised an exception.

All variables of the source are 32-bit words.  An `int32_t` is the same word,
read as a signed number where the source compares, divides or shifts it.  The
array `mem` is a function on indices, and an access at an index that is not
below `mem_size` is a fault of the model: the source checks addresses before it
uses them, and no such fault happens in a step that is checked well.  The host
is little-endian.
-/

namespace OsCourse.Rv32

/-- `uint32_t`. -/
abbrev Word := BitVec 32

/-- The control and status registers. -/
inductive Csr where
  | pc | mstatus | cyclel | cycleh | timerl | timerh | timermatchl | timermatchh
  | mscratch | mtvec | mie | mip | mepc | mtval | mcause | extraflags
deriving DecidableEq

/-- The state of the processor. -/
structure CPUState where
  /-- The registers. -/
  regs : BitVec 5 → Word
  /-- The control and status registers. -/
  csrs : Csr → Word
  /-- The memory. -/
  mem : Nat → BitVec 8
  /-- The address of the first byte of the memory. -/
  memOffset : Word
  /-- The number of bytes of the memory. -/
  memSize : Word

/-- An access outside of the memory. -/
inductive Fault where
  | outOfBounds
deriving DecidableEq

namespace CPUState

/-- `REG(i)`. -/
def reg (s : CPUState) (i : Word) : Word := s.regs (i.setWidth 5)

/-- `REG(i) = v`. -/
def setReg (s : CPUState) (i v : Word) : CPUState :=
  { s with regs := Function.update s.regs (i.setWidth 5) v }

/-- `CSR(c) = v`. -/
def setCsr (s : CPUState) (c : Csr) (v : Word) : CPUState :=
  { s with csrs := Function.update s.csrs c v }

/-- `*(uint8_t *)MEM(i)`. -/
def read8 (s : CPUState) (i : Nat) : Except Fault (BitVec 8) :=
  if i < s.memSize.toNat then .ok (s.mem i) else .error .outOfBounds

/-- `*(uint16_t *)MEM(i)`. -/
def read16 (s : CPUState) (i : Nat) : Except Fault (BitVec 16) := do
  let b0 ← s.read8 i
  let b1 ← s.read8 (i + 1)
  .ok (b1 ++ b0)

/-- `*(uint32_t *)MEM(i)`. -/
def read32 (s : CPUState) (i : Nat) : Except Fault Word := do
  let b0 ← s.read8 i
  let b1 ← s.read8 (i + 1)
  let b2 ← s.read8 (i + 2)
  let b3 ← s.read8 (i + 3)
  .ok (b3 ++ b2 ++ b1 ++ b0)

/-- `*(uint8_t *)MEM(i) = v`. -/
def write8 (s : CPUState) (i : Nat) (v : BitVec 8) : Except Fault CPUState :=
  if i < s.memSize.toNat then .ok { s with mem := Function.update s.mem i v }
  else .error .outOfBounds

/-- `*(uint16_t *)MEM(i) = v`. -/
def write16 (s : CPUState) (i : Nat) (v : Word) : Except Fault CPUState := do
  let s ← s.write8 i (v.extractLsb' 0 8)
  s.write8 (i + 1) (v.extractLsb' 8 8)

/-- `*(uint32_t *)MEM(i) = v`. -/
def write32 (s : CPUState) (i : Nat) (v : Word) : Except Fault CPUState := do
  let s ← s.write8 i (v.extractLsb' 0 8)
  let s ← s.write8 (i + 1) (v.extractLsb' 8 8)
  let s ← s.write8 (i + 2) (v.extractLsb' 16 8)
  s.write8 (i + 3) (v.extractLsb' 24 8)

end CPUState

/-! ## Instructions -/

/-- The local variables of the step after an instruction. -/
structure Locals where
  /-- The processor. -/
  state : CPUState
  /-- The program counter, 4 less than it will be. -/
  pc : Word
  /-- The number of the register to write, or 0. -/
  rdid : Word
  /-- The value to write. -/
  rval : Word
  /-- The number of the exception plus 1, or 0. -/
  trap : Word

/-- How the execution of an instruction goes on. -/
inductive Flow where
  /-- At the end of the `switch`. -/
  | done (l : Locals)
  /-- `return code`. -/
  | ret (s : CPUState) (code : Word)

section Instructions

variable (s : CPUState) (pc ir : Word)

/-- `(ir >> 7) & 0x1f`. -/
def rdid : Word := (ir >>> 7) &&& 0x1f

/-- `(ir >> 12) & 0x7`. -/
def funct3 : Word := (ir >>> 12) &&& 0x7

/-- `REG((ir >> 15) & 0x1f)`. -/
def rs1 : Word := s.reg ((ir >>> 15) &&& 0x1f)

/-- `REG((ir >> 20) & 0x1f)`. -/
def rs2 : Word := s.reg ((ir >>> 20) &&& 0x1f)

/-- `imm | ((imm & 0x800) ? 0xfffff000 : 0)` for `imm = ir >> 20`. -/
def immSe : Word :=
  let imm := ir >>> 20
  imm ||| (if imm &&& 0x800 ≠ 0 then 0xfffff000 else 0)

/-- `LUI`. -/
def lui : Locals := ⟨s, pc, rdid ir, ir &&& 0xfffff000, 0⟩

/-- `AUIPC`. -/
def auipc : Locals := ⟨s, pc, rdid ir, pc + (ir &&& 0xfffff000), 0⟩

/-- `JAL`. -/
def jal : Locals :=
  let reladdy := ((ir &&& 0x80000000) >>> 11) ||| ((ir &&& 0x7fe00000) >>> 20) |||
    ((ir &&& 0x00100000) >>> 9) ||| (ir &&& 0x000ff000)
  let reladdy := if reladdy &&& 0x00100000 ≠ 0 then reladdy ||| 0xffe00000 else reladdy
  ⟨s, pc + reladdy - 4, rdid ir, pc + 4, 0⟩

/-- `JALR`. -/
def jalr : Locals := ⟨s, ((rs1 s ir + immSe ir) &&& ~~~(1 : Word)) - 4, rdid ir, pc + 4, 0⟩

/-- The branches. -/
def branch : Locals :=
  let immm4 := ((ir &&& 0xf00) >>> 7) ||| ((ir &&& 0x7e000000) >>> 20) ||| ((ir &&& 0x80) <<< 4) |||
    ((ir >>> 31) <<< 12)
  let immm4 := if immm4 &&& 0x1000 ≠ 0 then immm4 ||| 0xffffe000 else immm4
  let rs1 := rs1 s ir
  let rs2 := rs2 s ir
  let immm4 := pc + immm4 - 4
  let go (taken : Prop) [Decidable taken] : Locals := ⟨s, if taken then immm4 else pc, 0, 0, 0⟩
  match (funct3 ir).toNat with
  | 0 => go (rs1 = rs2)
  | 1 => go (rs1 ≠ rs2)
  | 4 => go (rs1.toInt < rs2.toInt)
  | 5 => go (rs1.toInt ≥ rs2.toInt)
  | 6 => go (rs1 < rs2)
  | 7 => go (rs1 ≥ rs2)
  | _ => ⟨s, pc, 0, 0, 2 + 1⟩

/-- The loads.  Addresses outside of the memory are those of devices. -/
def load : Except Fault Locals :=
  let rsval := rs1 s ir + immSe ir
  let ofs := rsval - s.memOffset
  if ofs ≥ s.memSize - 3 then
    let rsval := ofs + s.memOffset
    if rsval ≥ 0x10000000 ∧ rsval < 0x12000000 then
      if rsval = 0x1100bffc then .ok ⟨s, pc, rdid ir, s.csrs .timerh, 0⟩
      else if rsval = 0x1100bff8 then .ok ⟨s, pc, rdid ir, s.csrs .timerl, 0⟩
      else .ok ⟨s, pc, rdid ir, 0, 0⟩
    else .ok ⟨s, pc, rdid ir, rsval, 5 + 1⟩
  else
    let value (v : Word) : Locals := ⟨s, pc, rdid ir, v, 0⟩
    match (funct3 ir).toNat with
    | 0 => do
        let v ← s.read8 ofs.toNat
        .ok (value (v.signExtend 32))
    | 1 => do
        let v ← s.read16 ofs.toNat
        .ok (value (v.signExtend 32))
    | 2 => do
        let v ← s.read32 ofs.toNat
        .ok (value v)
    | 4 => do
        let v ← s.read8 ofs.toNat
        .ok (value (v.setWidth 32))
    | 5 => do
        let v ← s.read16 ofs.toNat
        .ok (value (v.setWidth 32))
    | _ => .ok ⟨s, pc, rdid ir, 0, 2 + 1⟩

/-- The stores. -/
def store : Except Fault Flow :=
  let rs2 := rs2 s ir
  let addy := ((ir >>> 7) &&& 0x1f) ||| ((ir &&& 0xfe000000) >>> 20)
  let addy := if addy &&& 0x800 ≠ 0 then addy ||| 0xfffff000 else addy
  let addy := addy + (rs1 s ir - s.memOffset)
  if addy ≥ s.memSize - 3 then
    let addy := addy + s.memOffset
    if addy ≥ 0x10000000 ∧ addy < 0x12000000 then
      if addy = 0x11004004 then .ok (.done ⟨s.setCsr .timermatchh rs2, pc, 0, 0, 0⟩)
      else if addy = 0x11004000 then .ok (.done ⟨s.setCsr .timermatchl rs2, pc, 0, 0, 0⟩)
      else if addy = 0x11100000 then .ok (.ret (s.setCsr .pc (pc + 4)) rs2)
      else .ok (.done ⟨s, pc, 0, 0, 0⟩)
    else .ok (.done ⟨s, pc, 0, addy, 7 + 1⟩)
  else
    match (funct3 ir).toNat with
    | 0 => do
        let s ← s.write8 addy.toNat (rs2.extractLsb' 0 8)
        .ok (.done ⟨s, pc, 0, 0, 0⟩)
    | 1 => do
        let s ← s.write16 addy.toNat rs2
        .ok (.done ⟨s, pc, 0, 0, 0⟩)
    | 2 => do
        let s ← s.write32 addy.toNat rs2
        .ok (.done ⟨s, pc, 0, 0, 0⟩)
    | _ => .ok (.done ⟨s, pc, 0, 0, 2 + 1⟩)

/-- The operations of RV32M. -/
def opMulDiv (f3 : Nat) (rs1 rs2 : Word) : Word :=
  let overflow := rs1 = BitVec.intMin 32 ∧ rs2 = -1
  match f3 with
  | 0 => rs1 * rs2
  | 1 => ((rs1.signExtend 64 * rs2.signExtend 64).sshiftRight 32).setWidth 32
  | 2 => ((rs1.signExtend 64 * rs2.setWidth 64) >>> 32).setWidth 32
  | 3 => ((rs1.setWidth 64 * rs2.setWidth 64) >>> 32).setWidth 32
  | 4 => if rs2 = 0 then -1 else if overflow then rs1 else rs1.sdiv rs2
  | 5 => if rs2 = 0 then 0xffffffff else rs1.udiv rs2
  | 6 => if rs2 = 0 then rs1 else if overflow then 0 else rs1.srem rs2
  | _ => if rs2 = 0 then rs1 else rs1.umod rs2

/-- The operations of RV32I, with a register or an immediate operand. -/
def opAlu (f3 : Nat) (isReg : Prop) [Decidable isReg] (rs1 rs2 : Word) : Word :=
  match f3 with
  | 0 => if isReg ∧ ir &&& 0x40000000 ≠ 0 then rs1 - rs2 else rs1 + rs2
  | 1 => rs1 <<< (rs2 &&& 0x1f).toNat
  | 2 => if rs1.toInt < rs2.toInt then 1 else 0
  | 3 => if rs1 < rs2 then 1 else 0
  | 4 => rs1 ^^^ rs2
  | 5 =>
      if ir &&& 0x40000000 ≠ 0 then rs1.sshiftRight (rs2 &&& 0x1f).toNat
      else rs1 >>> (rs2 &&& 0x1f).toNat
  | 6 => rs1 ||| rs2
  | _ => rs1 &&& rs2

/-- The instructions `Op` and `Op-immediate`. -/
def op : Locals :=
  let imm := immSe ir
  let rs1 := rs1 s ir
  let isReg := ir &&& 0x20 ≠ 0
  let rs2 := if isReg then s.reg (imm &&& 0x1f) else imm
  if isReg ∧ ir &&& 0x02000000 ≠ 0 then
    ⟨s, pc, rdid ir, opMulDiv (funct3 ir).toNat rs1 rs2, 0⟩
  else ⟨s, pc, rdid ir, opAlu ir (funct3 ir).toNat isReg rs1 rs2, 0⟩

/-- The value that a CSR instruction reads. -/
def csrRead (cycle : Word) (csrno : Nat) : Word :=
  match csrno with
  | 0x340 => s.csrs .mscratch
  | 0x305 => s.csrs .mtvec
  | 0x304 => s.csrs .mie
  | 0xC00 => cycle
  | 0x344 => s.csrs .mip
  | 0x341 => s.csrs .mepc
  | 0x300 => s.csrs .mstatus
  | 0x342 => s.csrs .mcause
  | 0x343 => s.csrs .mtval
  | 0xf11 => 0xff0ff0ff
  | 0x301 => 0x40401101
  | _ => 0

/-- The register that a CSR instruction writes. -/
def csrTarget (csrno : Nat) : Option Csr :=
  match csrno with
  | 0x340 => some .mscratch
  | 0x305 => some .mtvec
  | 0x304 => some .mie
  | 0x344 => some .mip
  | 0x341 => some .mepc
  | 0x300 => some .mstatus
  | 0x342 => some .mcause
  | 0x343 => some .mtval
  | _ => none

/-- The CSR instructions. -/
def csrOp (cycle : Word) : Locals :=
  let csrno := (ir >>> 20).toNat
  let rs1imm := (ir >>> 15) &&& 0x1f
  let rs1 := s.reg rs1imm
  let rval := csrRead s cycle csrno
  let writeval :=
    match (funct3 ir).toNat with
    | 2 => rval ||| rs1
    | 3 => rval &&& ~~~rs1
    | 5 => rs1imm
    | 6 => rval ||| rs1imm
    | 7 => rval &&& ~~~rs1imm
    | _ => rs1
  let s :=
    match csrTarget csrno with
    | some c => s.setCsr c writeval
    | none => s
  ⟨s, pc, rdid ir, rval, 0⟩

/-- `MRET`. -/
def mret : Locals :=
  let startmstatus := s.csrs .mstatus
  let startextraflags := s.csrs .extraflags
  let s := s.setCsr .mstatus
    (((startmstatus &&& 0x80) >>> 4) ||| ((startextraflags &&& 3) <<< 11) ||| 0x80)
  let s := s.setCsr .extraflags
    ((startextraflags &&& ~~~(3 : Word)) ||| ((startmstatus >>> 11) &&& 3))
  ⟨s, s.csrs .mepc - 4, 0, 0, 0⟩

/-- The instructions `SYSTEM`. -/
def system (cycle : Word) : Flow :=
  let csrno := (ir >>> 20)
  let microop := funct3 ir
  if microop &&& 3 ≠ 0 then .done (csrOp s pc ir cycle)
  else if microop = 0 then
    if csrno = 0x105 then
      let s := s.setCsr .mstatus (s.csrs .mstatus ||| 8)
      let s := s.setCsr .extraflags (s.csrs .extraflags ||| 4)
      .ret (s.setCsr .pc (pc + 4)) 1
    else if csrno &&& 0xff = 0x02 then .done (mret s)
    else if csrno = 0 then
      .done ⟨s, pc, 0, 0, if s.csrs .extraflags &&& 3 ≠ 0 then 11 + 1 else 8 + 1⟩
    else if csrno = 1 then .done ⟨s, pc, 0, 0, 3 + 1⟩
    else .done ⟨s, pc, 0, 0, 2 + 1⟩
  else .done ⟨s, pc, rdid ir, 0, 2 + 1⟩

/-- What an atomic instruction does with the word in memory: the result, the word
to write if there is one, the flags and the exception. -/
def amoOp (addr rs2 rval : Word) : Word × Option Word × Word × Word :=
  let flags := s.csrs .extraflags
  match ((ir >>> 27) &&& 0x1f).toNat with
  | 2 => (rval, none, (flags &&& 0x07) ||| (addr <<< 3), 0)
  | 3 =>
      if flags >>> 3 ≠ addr &&& 0x1fffffff then (1, none, flags, 0) else (0, some rs2, flags, 0)
  | 1 => (rval, some rs2, flags, 0)
  | 0 => (rval, some (rs2 + rval), flags, 0)
  | 4 => (rval, some (rs2 ^^^ rval), flags, 0)
  | 12 => (rval, some (rs2 &&& rval), flags, 0)
  | 8 => (rval, some (rs2 ||| rval), flags, 0)
  | 16 => (rval, some (if rs2.toInt < rval.toInt then rs2 else rval), flags, 0)
  | 20 => (rval, some (if rs2.toInt > rval.toInt then rs2 else rval), flags, 0)
  | 24 => (rval, some (if rs2 < rval then rs2 else rval), flags, 0)
  | 28 => (rval, some (if rs2 > rval then rs2 else rval), flags, 0)
  | _ => (rval, none, flags, 2 + 1)

/-- The atomic instructions. -/
def amo : Except Fault Locals := do
  let addr := rs1 s ir - s.memOffset
  if addr ≥ s.memSize - 3 then .ok ⟨s, pc, rdid ir, addr + s.memOffset, 7 + 1⟩
  else
    let word ← s.read32 addr.toNat
    let (rval, write, flags, trap) := amoOp s ir addr (rs2 s ir) word
    let s := s.setCsr .extraflags flags
    let s ←
      match write with
      | some v => s.write32 addr.toNat v
      | none => .ok s
    .ok ⟨s, pc, rdid ir, rval, trap⟩

/-- The `switch` over the opcodes. -/
def execute (cycle : Word) : Except Fault Flow :=
  match (ir &&& 0x7f).toNat with
  | 0x37 => .ok (.done (lui s pc ir))
  | 0x17 => .ok (.done (auipc s pc ir))
  | 0x6f => .ok (.done (jal s pc ir))
  | 0x67 => .ok (.done (jalr s pc ir))
  | 0x63 => .ok (.done (branch s pc ir))
  | 0x03 => (load s pc ir).map .done
  | 0x23 => store s pc ir
  | 0x13 => .ok (.done (op s pc ir))
  | 0x33 => .ok (.done (op s pc ir))
  | 0x0f => .ok (.done ⟨s, pc, 0, 0, 0⟩)
  | 0x73 => .ok (system s pc ir cycle)
  | 0x2f => (amo s pc ir).map .done
  | _ => .ok (.done ⟨s, pc, rdid ir, 0, 2 + 1⟩)

end Instructions

/-! ## The step -/

/-- The update of the timer and of the timer interrupt. -/
def updateTimer (s : CPUState) (elapsedUs : Word) : CPUState :=
  let newTimer := s.csrs .timerl + elapsedUs
  let s := if newTimer < s.csrs .timerl then s.setCsr .timerh (s.csrs .timerh + 1) else s
  let s := s.setCsr .timerl newTimer
  let timer : BitVec 64 := s.csrs .timerh ++ s.csrs .timerl
  let timermatch : BitVec 64 := s.csrs .timermatchh ++ s.csrs .timermatchl
  if (s.csrs .timermatchh ≠ 0 ∨ s.csrs .timermatchl ≠ 0) ∧ timer > timermatch then
    let s := s.setCsr .extraflags (s.csrs .extraflags &&& ~~~(4 : Word))
    s.setCsr .mip (s.csrs .mip ||| 0x80)
  else s.setCsr .mip (s.csrs .mip &&& ~~~(0x80 : Word))

/-- Waiting for an interrupt. -/
def asleep (s : CPUState) : Prop := s.csrs .extraflags &&& 4 ≠ 0

instance (s : CPUState) : Decidable (asleep s) := inferInstanceAs (Decidable (_ ≠ _))

/-- The timer interrupt is pending and enabled. -/
def timerInterrupt (s : CPUState) : Prop :=
  s.csrs .mip &&& 0x80 ≠ 0 ∧ s.csrs .mie &&& 0x80 ≠ 0 ∧ s.csrs .mstatus &&& 0x8 ≠ 0

instance (s : CPUState) : Decidable (timerInterrupt s) := inferInstanceAs (Decidable (_ ∧ _ ∧ _))

/-- Enter a trap: the processor and the new program counter. -/
def enterTrap (s : CPUState) (pc rval trap : Word) : CPUState × Word :=
  let interrupt := trap &&& 0x80000000 ≠ 0
  let cause := if interrupt then trap else trap - 1
  let tval := if interrupt then 0 else if trap > 5 ∧ trap ≤ 8 then rval else pc
  let pc := if interrupt then pc + 4 else pc
  let s := (s.setCsr .mcause cause).setCsr .mtval tval
  let s := s.setCsr .mepc pc
  let s := s.setCsr .mstatus
    (((s.csrs .mstatus &&& 0x08) <<< 4) ||| ((s.csrs .extraflags &&& 3) <<< 11))
  let pc := s.csrs .mtvec - 4
  let s := s.setCsr .extraflags (s.csrs .extraflags ||| 3)
  (s, pc + 4)

/-- The part after the label `cycle_end`. -/
def cycleEnd (s : CPUState) (pc rval trap cycle : Word) : CPUState × Word :=
  let (s, pc) := if trap ≠ 0 then enterTrap s pc rval trap else (s, pc)
  let s := if s.csrs .cyclel > cycle then s.setCsr .cycleh (s.csrs .cycleh + 1) else s
  ((s.setCsr .cyclel cycle).setCsr .pc pc, 0)

/-- `rv32ima_step`: the processor after the step and the returned number. -/
def rv32imaStep (s : CPUState) (elapsedUs : Word) : Except Fault (CPUState × Word) :=
  let s := updateTimer s elapsedUs
  if asleep s then .ok (s, 1)
  else
    let pc := s.csrs .pc
    let cycle := s.csrs .cyclel
    if timerInterrupt s then .ok (cycleEnd s (pc - 4) 0 0x80000007 cycle)
    else
      let cycle := cycle + 1
      let ofsPc := pc - s.memOffset
      if ofsPc ≥ s.memSize then .ok (cycleEnd s pc 0 (1 + 1) cycle)
      else if ofsPc &&& 3 ≠ 0 then .ok (cycleEnd s pc 0 (1 + 0) cycle)
      else do
        let ir ← s.read32 ofsPc.toNat
        match ← execute s pc ir cycle with
        | .ret s code => .ok (s, code)
        | .done l =>
            if l.trap ≠ 0 then .ok (cycleEnd l.state l.pc l.rval l.trap cycle)
            else
              let s := if l.rdid ≠ 0 then l.state.setReg l.rdid l.rval else l.state
              .ok (cycleEnd s (l.pc + 4) l.rval 0 cycle)

end OsCourse.Rv32
