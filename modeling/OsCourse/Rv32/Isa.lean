import Mathlib.Tactic

/-!
# The instruction set

This is the meaning of RV32I without the SYSTEM instructions, and of RV32M, as
the instruction set prescribes it.  It is independent of the emulator: words are
decoded into instructions with their fields and immediates, and the operations
are defined on the integers that words denote.

A hart has 32 registers, of which `x0` is constantly 0, a program counter and a
memory of bytes.  An instruction that jumps to an address that is not a multiple
of 4 raises an exception, for which the meaning is `none`.
-/

namespace OsCourse.Rv32.Isa

/-! ## Instructions -/

/-- The conditions of branches. -/
inductive BranchOp where
  | beq | bne | blt | bge | bltu | bgeu
deriving DecidableEq

/-- The widths of loads. -/
inductive LoadOp where
  | lb | lh | lw | lbu | lhu
deriving DecidableEq

/-- The widths of stores. -/
inductive StoreOp where
  | sb | sh | sw
deriving DecidableEq

/-- The operations on two words. -/
inductive AluOp where
  | add | sub | sll | slt | sltu | xor | srl | sra | or | and
  | mul | mulh | mulhsu | mulhu | div | divu | rem | remu
deriving DecidableEq

/-- The instructions, with immediates as they are encoded. -/
inductive Instr where
  | lui (rd : BitVec 5) (imm : BitVec 20)
  | auipc (rd : BitVec 5) (imm : BitVec 20)
  | jal (rd : BitVec 5) (offset : BitVec 21)
  | jalr (rd rs1 : BitVec 5) (offset : BitVec 12)
  | branch (cond : BranchOp) (rs1 rs2 : BitVec 5) (offset : BitVec 13)
  | load (width : LoadOp) (rd rs1 : BitVec 5) (offset : BitVec 12)
  | store (width : StoreOp) (rs1 rs2 : BitVec 5) (offset : BitVec 12)
  /-- An operation with an immediate. -/
  | opImm (f : AluOp) (rd rs1 : BitVec 5) (imm : BitVec 12)
  /-- A shift by a constant. -/
  | shift (f : AluOp) (rd rs1 : BitVec 5) (shamt : BitVec 5)
  | op (f : AluOp) (rd rs1 rs2 : BitVec 5)
  | fence
deriving DecidableEq

/-! ## Encoding -/

section Encoding

variable (w : BitVec 32)

/-- The field `rd`. -/
def fieldRd : BitVec 5 := w.extractLsb' 7 5

/-- The field `rs1`. -/
def fieldRs1 : BitVec 5 := w.extractLsb' 15 5

/-- The field `rs2`. -/
def fieldRs2 : BitVec 5 := w.extractLsb' 20 5

/-- The immediate of the I-type: bits 31 to 20. -/
def immI : BitVec 12 := w.extractLsb' 20 12

/-- The immediate of the S-type: bits 31 to 25 and 11 to 7. -/
def immS : BitVec 12 := w.extractLsb' 25 7 ++ w.extractLsb' 7 5

/-- The immediate of the B-type: bits 31, 7, 30 to 25, 11 to 8 and a zero. -/
def immB : BitVec 13 :=
  w.extractLsb' 31 1 ++ w.extractLsb' 7 1 ++ w.extractLsb' 25 6 ++ w.extractLsb' 8 4 ++ 0#1

/-- The immediate of the U-type: bits 31 to 12. -/
def immU : BitVec 20 := w.extractLsb' 12 20

/-- The immediate of the J-type: bits 31, 19 to 12, 20, 30 to 21 and a zero. -/
def immJ : BitVec 21 :=
  w.extractLsb' 31 1 ++ w.extractLsb' 12 8 ++ w.extractLsb' 20 1 ++ w.extractLsb' 21 10 ++ 0#1

end Encoding

/-- The conditions by the field `funct3`. -/
def branchOp : Nat → Option BranchOp
  | 0 => some .beq
  | 1 => some .bne
  | 4 => some .blt
  | 5 => some .bge
  | 6 => some .bltu
  | 7 => some .bgeu
  | _ => none

/-- The loads by the field `funct3`. -/
def loadOp : Nat → Option LoadOp
  | 0 => some .lb
  | 1 => some .lh
  | 2 => some .lw
  | 4 => some .lbu
  | 5 => some .lhu
  | _ => none

/-- The stores by the field `funct3`. -/
def storeOp : Nat → Option StoreOp
  | 0 => some .sb
  | 1 => some .sh
  | 2 => some .sw
  | _ => none

/-- The operations by the fields `funct7` and `funct3`. -/
def aluOp : Nat → Nat → Option AluOp
  | 0, 0 => some .add
  | 0, 1 => some .sll
  | 0, 2 => some .slt
  | 0, 3 => some .sltu
  | 0, 4 => some .xor
  | 0, 5 => some .srl
  | 0, 6 => some .or
  | 0, 7 => some .and
  | 0x20, 0 => some .sub
  | 0x20, 5 => some .sra
  | 1, 0 => some .mul
  | 1, 1 => some .mulh
  | 1, 2 => some .mulhsu
  | 1, 3 => some .mulhu
  | 1, 4 => some .div
  | 1, 5 => some .divu
  | 1, 6 => some .rem
  | 1, 7 => some .remu
  | _, _ => none

/-- The operations with an immediate.  The shifts have a constant of five bits
and the field `funct7`. -/
def immInstr (w : BitVec 32) (funct7 : Nat) : Nat → Option Instr
  | 0 => some (.opImm .add (fieldRd w) (fieldRs1 w) (immI w))
  | 2 => some (.opImm .slt (fieldRd w) (fieldRs1 w) (immI w))
  | 3 => some (.opImm .sltu (fieldRd w) (fieldRs1 w) (immI w))
  | 4 => some (.opImm .xor (fieldRd w) (fieldRs1 w) (immI w))
  | 6 => some (.opImm .or (fieldRd w) (fieldRs1 w) (immI w))
  | 7 => some (.opImm .and (fieldRd w) (fieldRs1 w) (immI w))
  | 1 => if funct7 = 0 then some (.shift .sll (fieldRd w) (fieldRs1 w) (fieldRs2 w)) else none
  | 5 =>
      if funct7 = 0 then some (.shift .srl (fieldRd w) (fieldRs1 w) (fieldRs2 w))
      else if funct7 = 0x20 then some (.shift .sra (fieldRd w) (fieldRs1 w) (fieldRs2 w))
      else none
  | _ => none

/-- The instruction that a word encodes, if it is legal. -/
def decode (w : BitVec 32) : Option Instr :=
  let funct3 := (w.extractLsb' 12 3).toNat
  let funct7 := (w.extractLsb' 25 7).toNat
  match (w.extractLsb' 0 7).toNat with
  | 0b0110111 => some (.lui (fieldRd w) (immU w))
  | 0b0010111 => some (.auipc (fieldRd w) (immU w))
  | 0b1101111 => some (.jal (fieldRd w) (immJ w))
  | 0b1100111 => if funct3 = 0 then some (.jalr (fieldRd w) (fieldRs1 w) (immI w)) else none
  | 0b1100011 => (branchOp funct3).map fun cond => .branch cond (fieldRs1 w) (fieldRs2 w) (immB w)
  | 0b0000011 => (loadOp funct3).map fun width => .load width (fieldRd w) (fieldRs1 w) (immI w)
  | 0b0100011 => (storeOp funct3).map fun width => .store width (fieldRs1 w) (fieldRs2 w) (immS w)
  | 0b0010011 => immInstr w funct7 funct3
  | 0b0110011 => (aluOp funct7 funct3).map fun f => .op f (fieldRd w) (fieldRs1 w) (fieldRs2 w)
  | 0b0001111 => if funct3 = 0 then some .fence else none
  | _ => none

/-! ## Operations -/

/-- Whether a branch is taken. -/
def BranchOp.taken : BranchOp → BitVec 32 → BitVec 32 → Bool
  | .beq, a, b => a = b
  | .bne, a, b => a ≠ b
  | .blt, a, b => a.toInt < b.toInt
  | .bge, a, b => b.toInt ≤ a.toInt
  | .bltu, a, b => a.toNat < b.toNat
  | .bgeu, a, b => b.toNat ≤ a.toNat

/-- The result of an operation.  Shifts use the lower five bits of the second
operand.  Division rounds towards zero. -/
def AluOp.eval : AluOp → BitVec 32 → BitVec 32 → BitVec 32
  | .add, a, b => a + b
  | .sub, a, b => a - b
  | .sll, a, b => a <<< (b.toNat % 32)
  | .slt, a, b => if a.toInt < b.toInt then 1 else 0
  | .sltu, a, b => if a.toNat < b.toNat then 1 else 0
  | .xor, a, b => a ^^^ b
  | .srl, a, b => a >>> (b.toNat % 32)
  | .sra, a, b => a.sshiftRight (b.toNat % 32)
  | .or, a, b => a ||| b
  | .and, a, b => a &&& b
  | .mul, a, b => BitVec.ofInt 32 (a.toInt * b.toInt)
  | .mulh, a, b => BitVec.ofInt 32 (a.toInt * b.toInt / 2 ^ 32)
  | .mulhsu, a, b => BitVec.ofInt 32 (a.toInt * b.toNat / 2 ^ 32)
  | .mulhu, a, b => BitVec.ofNat 32 (a.toNat * b.toNat / 2 ^ 32)
  | .div, a, b => if b = 0 then -1 else BitVec.ofInt 32 (a.toInt.tdiv b.toInt)
  | .divu, a, b => if b = 0 then BitVec.allOnes 32 else BitVec.ofNat 32 (a.toNat / b.toNat)
  | .rem, a, b => if b = 0 then a else BitVec.ofInt 32 (a.toInt.tmod b.toInt)
  | .remu, a, b => if b = 0 then a else BitVec.ofNat 32 (a.toNat % b.toNat)

-- the one signed division that overflows
example : AluOp.div.eval (BitVec.intMin 32) (-1) = BitVec.intMin 32 := by decide
example : AluOp.rem.eval (BitVec.intMin 32) (-1) = 0 := by decide

/-- The value of a load, lowest byte first. -/
def LoadOp.value (mem : BitVec 32 → BitVec 8) (a : BitVec 32) : LoadOp → BitVec 32
  | .lb => (mem a).signExtend 32
  | .lh => (mem (a + 1) ++ mem a).signExtend 32
  | .lw => mem (a + 3) ++ mem (a + 2) ++ mem (a + 1) ++ mem a
  | .lbu => (mem a).setWidth 32
  | .lhu => (mem (a + 1) ++ mem a).setWidth 32

/-- The memory after a store. -/
def StoreOp.write (mem : BitVec 32 → BitVec 8) (a v : BitVec 32) : StoreOp → BitVec 32 → BitVec 8
  | .sb => Function.update mem a (v.extractLsb' 0 8)
  | .sh => Function.update (Function.update mem a (v.extractLsb' 0 8)) (a + 1) (v.extractLsb' 8 8)
  | .sw =>
      Function.update
        (Function.update
          (Function.update (Function.update mem a (v.extractLsb' 0 8)) (a + 1) (v.extractLsb' 8 8))
          (a + 2) (v.extractLsb' 16 8))
        (a + 3) (v.extractLsb' 24 8)

/-! ## Execution -/

/-- A hart. -/
@[ext] structure Hart where
  /-- The registers. -/
  regs : BitVec 5 → BitVec 32
  /-- The program counter. -/
  pc : BitVec 32
  /-- The memory. -/
  mem : BitVec 32 → BitVec 8

/-- Read a register. -/
def Hart.get (h : Hart) (r : BitVec 5) : BitVec 32 := if r = 0 then 0 else h.regs r

/-- Write a register. -/
def Hart.set (h : Hart) (r : BitVec 5) (v : BitVec 32) : Hart :=
  if r = 0 then h else { h with regs := Function.update h.regs r v }

/-- The target of a taken jump. -/
def Instr.target (h : Hart) : Instr → Option (BitVec 32)
  | .jal _ offset => some (h.pc + offset.signExtend 32)
  | .jalr _ rs1 offset => some ((h.get rs1 + offset.signExtend 32) &&& ~~~(1 : BitVec 32))
  | .branch cond rs1 rs2 offset =>
      if cond.taken (h.get rs1) (h.get rs2) then some (h.pc + offset.signExtend 32) else none
  | _ => none

/-- The address that a load or a store accesses. -/
def Instr.address (h : Hart) : Instr → Option (BitVec 32)
  | .load _ _ rs1 offset => some (h.get rs1 + offset.signExtend 32)
  | .store _ rs1 _ offset => some (h.get rs1 + offset.signExtend 32)
  | _ => none

/-- The effect of an instruction on the registers and the memory. -/
def Instr.effect (h : Hart) : Instr → Hart
  | .lui rd imm => h.set rd (imm ++ 0#12)
  | .auipc rd imm => h.set rd (h.pc + (imm ++ 0#12))
  | .jal rd _ => h.set rd (h.pc + 4)
  | .jalr rd _ _ => h.set rd (h.pc + 4)
  | .branch _ _ _ _ => h
  | .load width rd rs1 offset => h.set rd (width.value h.mem (h.get rs1 + offset.signExtend 32))
  | .store width rs1 rs2 offset =>
      { h with mem := width.write h.mem (h.get rs1 + offset.signExtend 32) (h.get rs2) }
  | .opImm f rd rs1 imm => h.set rd (f.eval (h.get rs1) (imm.signExtend 32))
  | .shift f rd rs1 shamt => h.set rd (f.eval (h.get rs1) (shamt.setWidth 32))
  | .op f rd rs1 rs2 => h.set rd (f.eval (h.get rs1) (h.get rs2))
  | .fence => h

/-- The hart after an instruction. -/
def Instr.exec (h : Hart) (i : Instr) : Option Hart :=
  match i.target h with
  | some t => if t.toNat % 4 = 0 then some { i.effect h with pc := t } else none
  | none => some { i.effect h with pc := h.pc + 4 }

end OsCourse.Rv32.Isa
