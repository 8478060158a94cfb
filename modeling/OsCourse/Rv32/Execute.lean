import Mathlib.Data.BitVec
import OsCourse.Rv32.Decode

/-!
# Instructions in the emulator

The emulator shows a hart: its registers, its program counter and, at the
addresses from `mem_offset` on, its memory.  For every legal instruction the
`switch` of the emulator ends with the hart that the instruction set prescribes.
The last theorem collects the cases, one for each opcode.
-/

namespace OsCourse.Rv32

open Isa

/-! ## Harts -/

/-- The hart that a processor shows. -/
def hartOf (s : CPUState) : Hart := ⟨s.regs, s.csrs .pc, fun a => s.mem (a - s.memOffset).toNat⟩

variable {s : CPUState} {i : Instr} {f7 f3 : Nat}

theorem get_hartOf (hzero : s.regs 0 = 0) (r : BitVec 5) :
    (hartOf s).get r = s.regs r := by
  rw [Hart.get]
  split
  · next h => rw [h, hzero]
  · rfl

/-- The processor after the result is written to the register. -/
def Locals.writeBack (l : Locals) : CPUState :=
  if l.rdid ≠ 0 then l.state.setReg l.rdid l.rval else l.state

/-- The hart at the end of an instruction that raises no exception. -/
def Locals.hart (l : Locals) : Hart := { hartOf l.writeBack with pc := l.pc + 4 }

theorem hart_rdid (s : CPUState) (pc ir v : Word) :
    (Locals.mk s pc (rdid ir) v 0).hart = { (hartOf s).set (fieldRd ir) v with pc := pc + 4 } := by
  rw [Locals.hart, Locals.writeBack, Hart.set]
  split
  · next h =>
      rw [if_neg (mt (rdid_eq_zero ir).mpr h), CPUState.setReg, rdid_eq]
      rfl
  · next h => rw [if_pos ((rdid_eq_zero ir).mp (not_not.mp h))]

/-- The outcome of the `switch` is the one that is prescribed for an instruction. -/
def Refines (s : CPUState) (i : Instr) (r : Except Fault Flow) : Prop :=
  ∃ l, r = .ok (.done l) ∧ l.trap = 0 ∧
    l.hart = { i.effect (hartOf s) with pc := (i.target (hartOf s)).getD (s.csrs .pc + 4) }

/-- The outcomes that write a register. -/
theorem Refines.rd {ir pc v : Word} (heffect : i.effect (hartOf s) = (hartOf s).set (fieldRd ir) v)
    (hpc : (i.target (hartOf s)).getD (s.csrs .pc + 4) = pc + 4) :
    Refines s i (.ok (.done ⟨s, pc, rdid ir, v, 0⟩)) := by
  refine ⟨_, rfl, rfl, ?_⟩
  rw [hart_rdid, heffect, hpc]

/-- The outcomes that write no register. -/
theorem Refines.plain {s' : CPUState} {pc v : Word} (heffect : i.effect (hartOf s) = hartOf s')
    (hpc : (i.target (hartOf s)).getD (s.csrs .pc + 4) = pc + 4) :
    Refines s i (.ok (.done ⟨s', pc, 0, v, 0⟩)) := by
  refine ⟨_, rfl, rfl, ?_⟩
  rw [heffect, hpc]
  rfl

/-! ## Operations -/

theorem toNat_and_31 (b : Word) : (b &&& 0x1f).toNat = b.toNat % 32 := by
  rw [BitVec.toNat_and]
  exact Nat.and_two_pow_sub_one_eq_mod b.toNat 5

/-- The test for an overflow only avoids what the host does not define. -/
theorem div_overflow (a b : Word) :
    (if a = BitVec.intMin 32 ∧ b = -1 then a else a.sdiv b) =
      BitVec.ofInt 32 (a.toInt.tdiv b.toInt) := by
  split
  · next h =>
      rw [h.1, h.2]
      decide
  · exact Bits.sdiv_eq_ofInt a b

theorem rem_overflow (a b : Word) :
    (if a = BitVec.intMin 32 ∧ b = -1 then 0 else a.srem b) =
      BitVec.ofInt 32 (a.toInt.tmod b.toInt) := by
  split
  · next h =>
      rw [h.1, h.2]
      decide
  · exact Bits.srem_eq_ofInt a b

theorem opMulDiv_eq (a b : Word) : ∀ {f3 : Nat} {f : AluOp}, aluOp 1 f3 = some f →
    opMulDiv f3 a b = f.eval a b
  | 0, _, rfl => by rw [AluOp.eval, BitVec.ofInt_mul, BitVec.ofInt_toInt, BitVec.ofInt_toInt]; rfl
  | 1, _, rfl => Bits.mulHigh_signed a b
  | 2, _, rfl => Bits.mulHigh_mixed a b (by decide)
  | 3, _, rfl => Bits.mulHigh_unsigned a b
  | 4, _, rfl => by simp only [opMulDiv, div_overflow, AluOp.eval]
  | 5, _, rfl => by simp only [opMulDiv, Bits.udiv_eq_ofNat, AluOp.eval]; rfl
  | 6, _, rfl => by simp only [opMulDiv, rem_overflow, AluOp.eval]
  | 7, _, rfl => by simp only [opMulDiv, Bits.umod_eq_ofNat, AluOp.eval]

section Alu

variable {ir : Word} {isReg : Prop} [Decidable isReg] {f3 : Nat} {f : AluOp} (a b : Word)

theorem opAlu_base (halt : ir &&& 0x40000000 ≠ 0 → ¬ isReg ∧ f3 ≠ 5) (h : aluOp 0 f3 = some f) :
    opAlu ir f3 isReg a b = f.eval a b := by
  match f3, h with
  | 0, rfl =>
      have hadd : ¬ (isReg ∧ ir &&& 0x40000000 ≠ 0) := fun hsub => (halt hsub.2).1 hsub.1
      simp only [opAlu, if_neg hadd, AluOp.eval]
  | 1, rfl => simp only [opAlu, toNat_and_31, AluOp.eval]
  | 2, rfl => rfl
  | 3, rfl => rfl
  | 4, rfl => rfl
  | 5, rfl =>
      have hlogical : ¬ ir &&& 0x40000000 ≠ 0 := fun harith => (halt harith).2 rfl
      simp only [opAlu, if_neg hlogical, toNat_and_31, AluOp.eval]
  | 6, rfl => rfl
  | 7, rfl => rfl

theorem opAlu_alternate (halt : ir &&& 0x40000000 ≠ 0) (hreg : f3 = 0 → isReg)
    (h : aluOp 0x20 f3 = some f) : opAlu ir f3 isReg a b = f.eval a b := by
  match f3, h with
  | 0, rfl => simp only [opAlu, if_pos (And.intro (hreg rfl) halt), AluOp.eval]
  | 5, rfl => simp only [opAlu, if_pos halt, toNat_and_31, AluOp.eval]

end Alu

/-- The legal values of `funct7`. -/
theorem aluOp_funct7 {f : AluOp} (h : aluOp f7 f3 = some f) :
    f7 = 0 ∨ f7 = 0x20 ∨ f7 = 1 := by
  rw [aluOp.eq_def] at h
  split at h <;> simp at h ⊢

section Op

variable (s : CPUState) (pc : Word) {ir : Word} {f : AluOp}

/-- The operations on two registers. -/
theorem op_register (hop : (ir.extractLsb' 0 7).toNat = 0x33)
    (hf : aluOp (ir.extractLsb' 25 7).toNat (ir.extractLsb' 12 3).toNat = some f) :
    op s pc ir = ⟨s, pc, rdid ir, f.eval (rs1 s ir) (rs2 s ir), 0⟩ := by
  have hreg : ir &&& 0x20 ≠ 0 := (isReg_iff ir hop).mpr rfl
  have hrs2 : s.reg (immSe ir &&& 0x1f) = rs2 s ir := by rw [rs2_eq, CPUState.reg, immSe_and]
  obtain hf7 | hf7 | hf7 := aluOp_funct7 hf
  · have hmul : ¬ ir &&& 0x02000000 ≠ 0 := mt (isMulDiv_iff ir hf7).mp (by decide)
    have halt : ¬ ir &&& 0x40000000 ≠ 0 := mt (isAlternate_iff ir hf7).mp (by decide)
    rw [hf7] at hf
    simp only [op, if_pos hreg, if_neg (mt And.right hmul), funct3_eq, hrs2,
      opAlu_base _ _ (fun h => absurd h halt) hf]
  · have hmul : ¬ ir &&& 0x02000000 ≠ 0 := mt (isMulDiv_iff ir hf7).mp (by decide)
    have halt : ir &&& 0x40000000 ≠ 0 := (isAlternate_iff ir hf7).mpr rfl
    rw [hf7] at hf
    simp only [op, if_pos hreg, if_neg (mt And.right hmul), funct3_eq, hrs2,
      opAlu_alternate _ _ halt (fun _ => hreg) hf]
  · have hmul : ir &&& 0x02000000 ≠ 0 := (isMulDiv_iff ir hf7).mpr rfl
    rw [hf7] at hf
    simp only [op, if_pos hreg, if_pos (And.intro hreg hmul), funct3_eq, hrs2,
      opMulDiv_eq _ _ hf]

/-- An operation with an immediate, when the shared code computes it. -/
theorem op_immediate (hop : (ir.extractLsb' 0 7).toNat = 0x13) {v : Word}
    (hv : ¬ ir &&& 0x20 ≠ 0 →
      opAlu ir (ir.extractLsb' 12 3).toNat (ir &&& 0x20 ≠ 0) (rs1 s ir) (immSe ir) = v) :
    op s pc ir = ⟨s, pc, rdid ir, v, 0⟩ := by
  have hreg : ¬ ir &&& 0x20 ≠ 0 := mt (isReg_iff ir hop).mp (by decide)
  simp only [op, if_neg hreg, if_neg (mt And.left hreg), funct3_eq, hv hreg]

end Op

/-- The operations with an immediate are those with the same `funct3` on registers.
The shifts have a `funct7`, of which the others use the bits for the immediate. -/
theorem immInstr_cases {w : Word} (h : immInstr w f7 f3 = some i) :
    (∃ f, aluOp 0 f3 = some f ∧ f3 ≠ 5 ∧ i = .opImm f (fieldRd w) (fieldRs1 w) (immI w)) ∨
    ∃ f, (f7 = 0 ∨ f7 = 0x20 ∧ f3 = 5) ∧ aluOp f7 f3 = some f ∧ (f3 = 1 ∨ f3 = 5) ∧
      i = .shift f (fieldRd w) (fieldRs1 w) (fieldRs2 w) := by
  rw [immInstr.eq_def] at h
  split at h
  case h_7 =>
    split at h <;> cases h
    next hf7 => exact .inr ⟨_, .inl hf7, by rw [hf7]; rfl, .inl rfl, rfl⟩
  case h_8 =>
    split at h
    next hf7 =>
      cases h
      exact .inr ⟨_, .inl hf7, by rw [hf7]; rfl, .inr rfl, rfl⟩
    split at h <;> cases h
    next hf7 => exact .inr ⟨_, .inr ⟨hf7, rfl⟩, by rw [hf7]; rfl, .inr rfl, rfl⟩
  case h_9 => cases h
  all_goals
    cases h
    exact .inl ⟨_, rfl, by decide, rfl⟩

/-- Shifts by the immediate use the bits of the field `rs2`. -/
theorem eval_shift {ir : Word} {f : AluOp} (hf : aluOp f7 f3 = some f)
    (hf7 : f7 = 0 ∨ f7 = 0x20 ∧ f3 = 5) (hf3 : f3 = 1 ∨ f3 = 5) (a : Word) :
    f.eval a (immSe ir) = f.eval a ((fieldRs2 ir).setWidth 32) := by
  have hamount : (immSe ir).toNat % 32 = ((fieldRs2 ir).setWidth 32).toNat % 32 := by
    have hfield : (fieldRs2 ir).toNat = (immSe ir).toNat % 32 := by
      rw [← immSe_and, BitVec.toNat_setWidth, toNat_and_31, Nat.mod_mod]
    rw [BitVec.toNat_setWidth_of_le (by decide), hfield, Nat.mod_mod]
  obtain rfl | ⟨rfl, rfl⟩ := hf7
  · obtain rfl | rfl := hf3
    · cases hf
      simp only [AluOp.eval, hamount]
    · cases hf
      simp only [AluOp.eval, hamount]
  · cases hf
    simp only [AluOp.eval, hamount]

/-! ## Memory -/

theorem offset_add {a off : Word} {n : Nat} (h : (a - off).toNat + n < 2 ^ 32) :
    (a + BitVec.ofNat 32 n - off).toNat = (a - off).toNat + n := by
  have hsub : a + BitVec.ofNat 32 n - off = (a - off) + BitVec.ofNat 32 n := by ring
  rw [hsub, BitVec.toNat_add, BitVec.toNat_ofNat]
  omega

section Memory

variable {s : CPUState} {a : Word}

theorem read8_eq (h : (a - s.memOffset).toNat < s.memSize.toNat) :
    s.read8 (a - s.memOffset).toNat = .ok ((hartOf s).mem a) :=
  if_pos h

theorem read8_add {n : Nat} (h : (a - s.memOffset).toNat + n < s.memSize.toNat) :
    s.read8 ((a - s.memOffset).toNat + n) = .ok ((hartOf s).mem (a + BitVec.ofNat 32 n)) := by
  have hlt := s.memSize.isLt
  have hsum : (a + BitVec.ofNat 32 n - s.memOffset).toNat = (a - s.memOffset).toNat + n :=
    offset_add (by omega)
  rw [← hsum] at h ⊢
  exact read8_eq h

theorem read16_eq (h : (a - s.memOffset).toNat + 1 < s.memSize.toNat) :
    s.read16 (a - s.memOffset).toNat = .ok ((hartOf s).mem (a + 1) ++ (hartOf s).mem a) := by
  rw [CPUState.read16, read8_eq (by omega), read8_add h]
  rfl

theorem read32_eq (h : (a - s.memOffset).toNat + 3 < s.memSize.toNat) :
    s.read32 (a - s.memOffset).toNat = .ok (LoadOp.lw.value (hartOf s).mem a) := by
  rw [CPUState.read32, read8_eq (by omega), read8_add (n := 1) (by omega),
    read8_add (n := 2) (by omega), read8_add h]
  rfl

/-- A processor that differs from `s` by a change of the memory of its hart. -/
structure Stores (s : CPUState) (mem : Word → BitVec 8) (s' : CPUState) : Prop where
  offset : s'.memOffset = s.memOffset
  size : s'.memSize = s.memSize
  hart : hartOf s' = { hartOf s with mem := mem }

theorem write8_eq (v : BitVec 8) (h : (a - s.memOffset).toNat < s.memSize.toNat) :
    ∃ s', s.write8 (a - s.memOffset).toNat v = .ok s' ∧
      Stores s (Function.update (hartOf s).mem a v) s' := by
  refine ⟨_, if_pos h, rfl, rfl, ?_⟩
  have hinj : Function.Injective fun x : Word => (x - s.memOffset).toNat := by
    intro x y hxy
    exact sub_left_injective (BitVec.eq_of_toNat_eq hxy)
  ext : 1
  · rfl
  · rfl
  · exact Function.update_comp_eq_of_injective s.mem hinj a v

/-- A further byte. -/
theorem Stores.write8 {s₁ : CPUState} {mem : Word → BitVec 8} (hs : Stores s mem s₁) {n : Nat}
    (v : BitVec 8) (h : (a - s.memOffset).toNat + n < s.memSize.toNat) :
    ∃ s', s₁.write8 ((a - s.memOffset).toNat + n) v = .ok s' ∧
      Stores s (Function.update mem (a + BitVec.ofNat 32 n) v) s' := by
  have hlt := s.memSize.isLt
  have hsum : (a + BitVec.ofNat 32 n - s.memOffset).toNat = (a - s.memOffset).toNat + n :=
    offset_add (by omega)
  rw [← hsum, ← hs.offset, ← hs.size] at h
  obtain ⟨s', hwrite, hs'⟩ := write8_eq v h
  rw [hs.offset, hsum] at hwrite
  refine ⟨s', hwrite, hs'.offset.trans hs.offset, hs'.size.trans hs.size, ?_⟩
  rw [hs'.hart, hs.hart]

theorem write16_eq (v : Word) (h : (a - s.memOffset).toNat + 1 < s.memSize.toNat) :
    ∃ s', s.write16 (a - s.memOffset).toNat v = .ok s' ∧
      Stores s (StoreOp.sh.write (hartOf s).mem a v) s' := by
  obtain ⟨s₀, hwrite₀, hs₀⟩ := write8_eq (s := s) (a := a) (v.extractLsb' 0 8) (by omega)
  obtain ⟨s₁, hwrite₁, hs₁⟩ := hs₀.write8 (v.extractLsb' 8 8) h
  refine ⟨s₁, ?_, hs₁⟩
  rw [CPUState.write16, hwrite₀]
  exact hwrite₁

theorem write32_eq (v : Word) (h : (a - s.memOffset).toNat + 3 < s.memSize.toNat) :
    ∃ s', s.write32 (a - s.memOffset).toNat v = .ok s' ∧
      Stores s (StoreOp.sw.write (hartOf s).mem a v) s' := by
  obtain ⟨s₀, hwrite₀, hs₀⟩ := write8_eq (s := s) (a := a) (v.extractLsb' 0 8) (by omega)
  obtain ⟨s₁, hwrite₁, hs₁⟩ := hs₀.write8 (a := a) (n := 1) (v.extractLsb' 8 8) (by omega)
  obtain ⟨s₂, hwrite₂, hs₂⟩ := hs₁.write8 (a := a) (n := 2) (v.extractLsb' 16 8) (by omega)
  obtain ⟨s₃, hwrite₃, hs₃⟩ := hs₂.write8 (v.extractLsb' 24 8) h
  refine ⟨s₃, ?_, hs₃⟩
  simp only [CPUState.write32, hwrite₀, hwrite₁, hwrite₂, bind, Except.bind]
  exact hwrite₃

end Memory

/-! ## Branches, loads and stores -/

section Instructions

variable {s : CPUState} {pc ir : Word}

theorem branch_eq {cond : BranchOp} (h : branchOp (ir.extractLsb' 12 3).toNat = some cond) :
    branch s pc ir =
      ⟨s, if cond.taken (rs1 s ir) (rs2 s ir) then pc + (immB ir).signExtend 32 - 4 else pc,
        0, 0, 0⟩ := by
  simp only [branch, immB_bits, signExtend_13, funct3_eq]
  generalize (ir.extractLsb' 12 3).toNat = f3 at h ⊢
  match f3, h with
  | 0, rfl => simp [BranchOp.taken]
  | 1, rfl => simp [BranchOp.taken]
  | 4, rfl => simp [BranchOp.taken]
  | 5, rfl => simp [BranchOp.taken]
  | 6, rfl => simp [BranchOp.taken, BitVec.lt_def]
  | 7, rfl => simp [BranchOp.taken, BitVec.le_def]

/-- The comparison that keeps accesses inside of the memory. -/
theorem not_ge_memSize {x : Word} (h : x.toNat < s.memSize.toNat - 3) : ¬ x ≥ s.memSize - 3 := by
  have hle : (3 : Word) ≤ s.memSize := by
    rw [BitVec.le_def]
    exact Nat.le_of_lt (Nat.lt_of_sub_pos (Nat.zero_lt_of_lt h))
  rw [ge_iff_le, BitVec.le_def, BitVec.toNat_sub_of_le hle]
  exact Nat.not_le.mpr h

theorem load_eq {width : LoadOp} (h : loadOp (ir.extractLsb' 12 3).toNat = some width)
    (hofs : (rs1 s ir + immSe ir - s.memOffset).toNat < s.memSize.toNat - 3) :
    load s pc ir =
      .ok ⟨s, pc, rdid ir, width.value (hartOf s).mem (rs1 s ir + immSe ir), 0⟩ := by
  simp only [load, if_neg (not_ge_memSize hofs), funct3_eq]
  have h8 := read8_eq (s := s) (a := rs1 s ir + immSe ir) (by omega)
  have h16 := read16_eq (s := s) (a := rs1 s ir + immSe ir) (by omega)
  have h32 := read32_eq (s := s) (a := rs1 s ir + immSe ir) (by omega)
  generalize (ir.extractLsb' 12 3).toNat = f3 at h ⊢
  match f3, h with
  | 0, rfl => simp only [h8]; rfl
  | 1, rfl => simp only [h16]; rfl
  | 2, rfl => simp only [h32]; rfl
  | 4, rfl => simp only [h8]; rfl
  | 5, rfl => simp only [h16]; rfl

theorem store_eq {width : StoreOp} (h : storeOp (ir.extractLsb' 12 3).toNat = some width)
    (hofs : (rs1 s ir + (immS ir).signExtend 32 - s.memOffset).toNat < s.memSize.toNat - 3) :
    ∃ s', store s pc ir = .ok (.done ⟨s', pc, 0, 0, 0⟩) ∧
      Stores s (width.write (hartOf s).mem (rs1 s ir + (immS ir).signExtend 32) (rs2 s ir)) s' := by
  have haddy : (immS ir).signExtend 32 + (rs1 s ir - s.memOffset) =
      rs1 s ir + (immS ir).signExtend 32 - s.memOffset := by ring
  simp only [store, immS_bits, signExtend_12, haddy, if_neg (not_ge_memSize hofs), funct3_eq]
  have h8 := write8_eq (s := s) (a := rs1 s ir + (immS ir).signExtend 32)
    ((rs2 s ir).extractLsb' 0 8) (by omega)
  have h16 := write16_eq (s := s) (a := rs1 s ir + (immS ir).signExtend 32) (rs2 s ir) (by omega)
  have h32 := write32_eq (s := s) (a := rs1 s ir + (immS ir).signExtend 32) (rs2 s ir) (by omega)
  generalize (ir.extractLsb' 12 3).toNat = f3 at h ⊢
  match f3, h with
  | 0, rfl =>
      obtain ⟨s', hwrite, hs'⟩ := h8
      refine ⟨s', ?_, hs'⟩
      simp only [hwrite]
      rfl
  | 1, rfl =>
      obtain ⟨s', hwrite, hs'⟩ := h16
      refine ⟨s', ?_, hs'⟩
      simp only [hwrite]
      rfl
  | 2, rfl =>
      obtain ⟨s', hwrite, hs'⟩ := h32
      refine ⟨s', ?_, hs'⟩
      simp only [hwrite]
      rfl

end Instructions

/-! ## The switch -/

section Switch

variable {s : CPUState} {ir : Word} (cycle : Word) {i : Instr}

/-- The result of an operation is written to the register. -/
theorem Refines.op (hzero : s.regs 0 = 0) {f : AluOp} {b : Word} (heffect : i.effect (hartOf s) =
      (hartOf s).set (fieldRd ir) (f.eval ((hartOf s).get (fieldRs1 ir)) b))
    (htarget : i.target (hartOf s) = none)
    (hop : Rv32.op s (s.csrs .pc) ir = ⟨s, s.csrs .pc, rdid ir, f.eval (rs1 s ir) b, 0⟩) :
    Refines s i (.ok (.done (Rv32.op s (s.csrs .pc) ir))) := by
  rw [hop]
  apply Refines.rd
  · rw [heffect, get_hartOf hzero, rs1_eq]
  · rw [htarget]
    rfl

theorem refines_opImm (hzero : s.regs 0 = 0) (hop : (ir.extractLsb' 0 7).toNat = 0x13)
    (hd : immInstr ir (ir.extractLsb' 25 7).toNat (ir.extractLsb' 12 3).toNat = some i) :
    Refines s i (.ok (.done (op s (s.csrs .pc) ir))) := by
  obtain ⟨f, hf, hne, rfl⟩ | ⟨f, hf7, hf, hf3, rfl⟩ := immInstr_cases hd
  · apply Refines.op hzero rfl rfl
    apply op_immediate s _ hop
    intro hreg
    rw [← immSe_eq]
    exact opAlu_base _ _ (fun _ => ⟨hreg, hne⟩) hf
  · apply Refines.op hzero rfl rfl
    apply op_immediate s _ hop
    intro hreg
    rw [← eval_shift hf hf7 hf3]
    obtain h7 | ⟨h7, h5⟩ := hf7
    · rw [h7] at hf
      have halt : ¬ ir &&& 0x40000000 ≠ 0 := mt (isAlternate_iff ir h7).mp (by decide)
      exact opAlu_base _ _ (fun h => absurd h halt) hf
    · rw [h7] at hf
      have hne : (ir.extractLsb' 12 3).toNat ≠ 0 := by
        rw [h5]
        decide
      exact opAlu_alternate _ _ ((isAlternate_iff ir h7).mpr rfl) (fun h => absurd h hne) hf

theorem refines_branch (hzero : s.regs 0 = 0) {cond : BranchOp}
    (h : branchOp (ir.extractLsb' 12 3).toNat = some cond) :
    Refines s (.branch cond (fieldRs1 ir) (fieldRs2 ir) (immB ir))
      (.ok (.done (branch s (s.csrs .pc) ir))) := by
  rw [branch_eq h, rs1_eq, rs2_eq]
  apply Refines.plain rfl
  simp only [Instr.target, get_hartOf hzero]
  split
  · exact (sub_add_cancel _ _).symm
  · rfl

theorem refines_load (hzero : s.regs 0 = 0) {width : LoadOp}
    (h : loadOp (ir.extractLsb' 12 3).toNat = some width)
    (hofs : ((hartOf s).get (fieldRs1 ir) + (immI ir).signExtend 32 - s.memOffset).toNat <
      s.memSize.toNat - 3) :
    Refines s (.load width (fieldRd ir) (fieldRs1 ir) (immI ir))
      ((load s (s.csrs .pc) ir).map .done) := by
  rw [get_hartOf hzero, ← rs1_eq, ← immSe_eq] at hofs
  rw [load_eq h hofs]
  apply Refines.rd _ rfl
  rw [Instr.effect, get_hartOf hzero, rs1_eq, immSe_eq]

theorem refines_store (hzero : s.regs 0 = 0) {width : StoreOp}
    (h : storeOp (ir.extractLsb' 12 3).toNat = some width)
    (hofs : ((hartOf s).get (fieldRs1 ir) + (immS ir).signExtend 32 - s.memOffset).toNat <
      s.memSize.toNat - 3) :
    Refines s (.store width (fieldRs1 ir) (fieldRs2 ir) (immS ir)) (store s (s.csrs .pc) ir) := by
  rw [get_hartOf hzero, ← rs1_eq] at hofs
  obtain ⟨s', hstore, hs'⟩ := @store_eq s (s.csrs .pc) ir width h hofs
  rw [hstore]
  apply Refines.plain _ rfl
  rw [Instr.effect, get_hartOf hzero, get_hartOf hzero, hs'.hart, rs1_eq, rs2_eq]

/-- Every legal instruction that accesses the memory only inside ends as prescribed. -/
theorem execute_refines (hzero : s.regs 0 = 0) (hd : decode ir = some i)
    (haddr : ∀ a, i.address (hartOf s) = some a → (a - s.memOffset).toNat < s.memSize.toNat - 3) :
    Refines s i (execute s (s.csrs .pc) ir cycle) := by
  simp only [decode] at hd
  split at hd
  case h_1 hop =>
    cases hd
    simp only [execute, opcode_eq, hop]
    exact Refines.rd (by rw [Instr.effect, immU_bits]) rfl
  case h_2 hop =>
    cases hd
    simp only [execute, opcode_eq, hop]
    exact Refines.rd (by rw [Instr.effect, immU_bits]; rfl) rfl
  case h_3 hop =>
    cases hd
    simp only [execute, opcode_eq, hop, jal, immJ_bits, signExtend_21]
    exact Refines.rd rfl (sub_add_cancel _ _).symm
  case h_4 hop =>
    split at hd <;> cases hd
    simp only [execute, opcode_eq, hop, jalr]
    apply Refines.rd rfl
    rw [sub_add_cancel, rs1_eq, immSe_eq, Instr.target, get_hartOf hzero]
    rfl
  case h_5 hop =>
    obtain ⟨cond, hcond, rfl⟩ := Option.map_eq_some_iff.mp hd
    simp only [execute, opcode_eq, hop]
    exact refines_branch hzero hcond
  case h_6 hop =>
    obtain ⟨width, hwidth, rfl⟩ := Option.map_eq_some_iff.mp hd
    simp only [execute, opcode_eq, hop]
    exact refines_load hzero hwidth (haddr _ rfl)
  case h_7 hop =>
    obtain ⟨width, hwidth, rfl⟩ := Option.map_eq_some_iff.mp hd
    simp only [execute, opcode_eq, hop]
    exact refines_store hzero hwidth (haddr _ rfl)
  case h_8 hop =>
    simp only [execute, opcode_eq, hop]
    exact refines_opImm hzero hop hd
  case h_9 hop =>
    obtain ⟨f, hf, rfl⟩ := Option.map_eq_some_iff.mp hd
    simp only [execute, opcode_eq, hop]
    apply Refines.op hzero rfl rfl
    rw [op_register s _ hop hf, get_hartOf hzero, rs2_eq]
  case h_10 hop =>
    split at hd <;> cases hd
    simp only [execute, opcode_eq, hop]
    exact Refines.plain rfl rfl
  case h_11 => cases hd

end Switch

end OsCourse.Rv32
