import OsCourse.Rv32.Step
import OsCourse.Rv32.Isa
import OsCourse.Lib.Bits

/-!
# Fields and immediates in the emulator

The emulator takes the fields of a word apart with shifts and masks and puts the
scattered bits of the immediates together by hand.  Each of these expressions is
the field or the immediate of the instruction set.
-/

namespace OsCourse.Rv32

open Isa

variable (s : CPUState) (ir : Word)

/-! ## Fields -/

theorem opcode_eq : (ir &&& 0x7f).toNat = (ir.extractLsb' 0 7).toNat := by
  have h := Bits.toNat_shiftRight_and ir 0 (show 7 ≤ 32 by decide)
  rwa [BitVec.ushiftRight_zero] at h

theorem funct3_eq : (funct3 ir).toNat = (ir.extractLsb' 12 3).toNat :=
  Bits.toNat_shiftRight_and ir 12 (show 3 ≤ 32 by decide)

theorem rdid_eq : (rdid ir).setWidth 5 = fieldRd ir :=
  Bits.setWidth_shiftRight_and ir 7 (show 5 ≤ 32 by decide)

theorem rdid_eq_zero : rdid ir = 0 ↔ fieldRd ir = 0 := by
  have hnat : (rdid ir).toNat = (fieldRd ir).toNat :=
    Bits.toNat_shiftRight_and ir 7 (show 5 ≤ 32 by decide)
  rw [← BitVec.toNat_inj, ← BitVec.toNat_inj, hnat]
  rfl

theorem rs1_eq : rs1 s ir = s.regs (fieldRs1 ir) :=
  congrArg s.regs (Bits.setWidth_shiftRight_and ir 15 (show 5 ≤ 32 by decide))

theorem rs2_eq : rs2 s ir = s.regs (fieldRs2 ir) :=
  congrArg s.regs (Bits.setWidth_shiftRight_and ir 20 (show 5 ≤ 32 by decide))

/-! ## Immediates -/

theorem immI_bits : ir >>> 20 = (immI ir).setWidth 32 := by
  apply BitVec.eq_of_getLsbD_eq
  intro i hi
  simp only [BitVec.getLsbD_ushiftRight, BitVec.getLsbD_setWidth, immI, BitVec.getLsbD_extractLsb']
  interval_cases i <;> simp

theorem immS_bits :
    ((ir >>> 7) &&& 0x1f) ||| ((ir &&& 0xfe000000) >>> 20) = (immS ir).setWidth 32 := by
  apply BitVec.eq_of_getLsbD_eq
  intro i hi
  simp only [BitVec.getLsbD_or, BitVec.getLsbD_and, BitVec.getLsbD_ushiftRight,
    BitVec.getLsbD_setWidth, immS, BitVec.getLsbD_append, BitVec.getLsbD_extractLsb']
  interval_cases i <;> simp

theorem immB_bits :
    ((ir &&& 0xf00) >>> 7) ||| ((ir &&& 0x7e000000) >>> 20) ||| ((ir &&& 0x80) <<< 4) |||
      ((ir >>> 31) <<< 12) = (immB ir).setWidth 32 := by
  apply BitVec.eq_of_getLsbD_eq
  intro i hi
  simp only [BitVec.getLsbD_or, BitVec.getLsbD_and, BitVec.getLsbD_ushiftRight,
    BitVec.getLsbD_shiftLeft, BitVec.getLsbD_setWidth, immB, BitVec.getLsbD_append,
    BitVec.getLsbD_extractLsb']
  interval_cases i <;> simp

theorem immJ_bits :
    ((ir &&& 0x80000000) >>> 11) ||| ((ir &&& 0x7fe00000) >>> 20) |||
      ((ir &&& 0x00100000) >>> 9) ||| (ir &&& 0x000ff000) = (immJ ir).setWidth 32 := by
  apply BitVec.eq_of_getLsbD_eq
  intro i hi
  simp only [BitVec.getLsbD_or, BitVec.getLsbD_and, BitVec.getLsbD_ushiftRight,
    BitVec.getLsbD_setWidth, immJ, BitVec.getLsbD_append, BitVec.getLsbD_extractLsb']
  interval_cases i <;> simp

theorem immU_bits : ir &&& 0xfffff000 = immU ir ++ 0#12 := by
  apply BitVec.eq_of_getLsbD_eq
  intro i hi
  simp only [BitVec.getLsbD_and, immU, BitVec.getLsbD_append, BitVec.getLsbD_extractLsb']
  interval_cases i <;> simp

/-! ## Sign extension -/

theorem signExtend_12 (x : BitVec 12) :
    (if x.setWidth 32 &&& 0x800 ≠ 0 then x.setWidth 32 ||| 0xfffff000 else x.setWidth 32) =
      x.signExtend 32 :=
  (Bits.signExtend_eq_ite x (by decide)).symm

theorem signExtend_13 (x : BitVec 13) :
    (if x.setWidth 32 &&& 0x1000 ≠ 0 then x.setWidth 32 ||| 0xffffe000 else x.setWidth 32) =
      x.signExtend 32 :=
  (Bits.signExtend_eq_ite x (by decide)).symm

theorem signExtend_21 (x : BitVec 21) :
    (if x.setWidth 32 &&& 0x00100000 ≠ 0 then x.setWidth 32 ||| 0xffe00000 else x.setWidth 32) =
      x.signExtend 32 :=
  (Bits.signExtend_eq_ite x (by decide)).symm

theorem immSe_eq : immSe ir = (immI ir).signExtend 32 := by
  rw [immSe, immI_bits, ← signExtend_12]
  split
  · rfl
  · exact BitVec.or_zero

/-! ## Operand bits -/

/-- The emulator's test for a register operand. -/
theorem isReg_iff {v : Nat} (h : (ir.extractLsb' 0 7).toNat = v) :
    ir &&& 0x20 ≠ 0 ↔ v.testBit 5 = true := by
  rw [← Bits.getLsbD_of_field h (show 5 < 7 by decide)]
  exact Bits.and_twoPow_ne_zero ir (show 5 < 32 by decide)

/-- The emulator's test for RV32M. -/
theorem isMulDiv_iff {v : Nat} (h : (ir.extractLsb' 25 7).toNat = v) :
    ir &&& 0x02000000 ≠ 0 ↔ v.testBit 0 = true := by
  rw [← Bits.getLsbD_of_field h (show 0 < 7 by decide)]
  exact Bits.and_twoPow_ne_zero ir (show 25 < 32 by decide)

/-- The emulator's test for a subtraction or an arithmetic shift. -/
theorem isAlternate_iff {v : Nat} (h : (ir.extractLsb' 25 7).toNat = v) :
    ir &&& 0x40000000 ≠ 0 ↔ v.testBit 5 = true := by
  rw [← Bits.getLsbD_of_field h (show 5 < 7 by decide)]
  exact Bits.and_twoPow_ne_zero ir (show 30 < 32 by decide)

/-- The lower five bits of the extended immediate are the field `rs2`. -/
theorem immSe_and : (immSe ir &&& 0x1f).setWidth 5 = fieldRs2 ir := by
  rw [immSe_eq]
  apply BitVec.eq_of_getLsbD_eq
  intro i hi
  simp only [BitVec.getLsbD_setWidth, BitVec.getLsbD_and, BitVec.getLsbD_signExtend, immI, fieldRs2,
    BitVec.getLsbD_extractLsb']
  interval_cases i <;> simp

end OsCourse.Rv32
