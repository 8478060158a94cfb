import OsCourse.Rv32.Run
import OsCourse.Rv32.Refine

/-!
# Atomic instructions

The meaning of RV32A as the instruction set prescribes it for one hart: a `LR.W` puts a
reservation, a `SC.W` stores if the hart holds the reservation of its address and uses it up,
and the other instructions replace a word by the result of an operation.

The emulator does the same for every atomic instruction on a word of its memory, as long
as each `SC.W` is executed with a reservation (`execute_atomic`).
-/

namespace OsCourse.Rv32

namespace Isa

/-! ## Instructions -/

/-- The operations on a word of the memory. -/
inductive AmoOp where
  | swap | add | xor | and | or | min | max | minu | maxu
deriving DecidableEq

/-- The instructions of RV32A. -/
inductive AtomicInstr where
  | lr (rd rs1 : BitVec 5)
  | sc (rd rs1 rs2 : BitVec 5)
  | amo (f : AmoOp) (rd rs1 rs2 : BitVec 5)
deriving DecidableEq

/-- The operations by the field `funct5`. -/
def amoOp : Nat → Option AmoOp
  | 0b00001 => some .swap
  | 0b00000 => some .add
  | 0b00100 => some .xor
  | 0b01100 => some .and
  | 0b01000 => some .or
  | 0b10000 => some .min
  | 0b10100 => some .max
  | 0b11000 => some .minu
  | 0b11100 => some .maxu
  | _ => none

/-- The atomic instruction that a word encodes.  The bits `aq` and `rl` order the accesses
of several harts. -/
def decodeAtomic (w : BitVec 32) : Option AtomicInstr :=
  if (w.extractLsb' 0 7).toNat = 0b0101111 ∧ (w.extractLsb' 12 3).toNat = 0b010 then
    match (w.extractLsb' 27 5).toNat with
    | 0b00010 => if fieldRs2 w = 0 then some (.lr (fieldRd w) (fieldRs1 w)) else none
    | 0b00011 => some (.sc (fieldRd w) (fieldRs1 w) (fieldRs2 w))
    | f => (amoOp f).map fun f => .amo f (fieldRd w) (fieldRs1 w) (fieldRs2 w)
  else none

/-- The word that replaces the word `a` of the memory, for the operand `b`. -/
def AmoOp.eval : AmoOp → BitVec 32 → BitVec 32 → BitVec 32
  | .swap, _, b => b
  | .add, a, b => a + b
  | .xor, a, b => a ^^^ b
  | .and, a, b => a &&& b
  | .or, a, b => a ||| b
  | .min, a, b => BitVec.ofInt 32 (Min.min a.toInt b.toInt)
  | .max, a, b => BitVec.ofInt 32 (Max.max a.toInt b.toInt)
  | .minu, a, b => BitVec.ofNat 32 (Min.min a.toNat b.toNat)
  | .maxu, a, b => BitVec.ofNat 32 (Max.max a.toNat b.toNat)

/-- A hart and its reservation. -/
structure Core where
  /-- The hart. -/
  hart : Hart
  /-- The address that is reserved. -/
  reservation : Option (BitVec 32)

/-- The address of an atomic instruction. -/
def AtomicInstr.address (h : Hart) : AtomicInstr → BitVec 32
  | .lr _ rs1 => h.get rs1
  | .sc _ rs1 _ => h.get rs1
  | .amo _ _ rs1 _ => h.get rs1

/-- The hart after an atomic instruction. -/
def AtomicInstr.exec (c : Core) (i : AtomicInstr) : Core :=
  let a := i.address c.hart
  let word := LoadOp.lw.value c.hart.mem a
  let next (h : Hart) : Hart := { h with pc := c.hart.pc + 4 }
  match i with
  | .lr rd _ => ⟨next (c.hart.set rd word), some a⟩
  | .sc rd _ rs2 =>
      if c.reservation = some a then
        ⟨next (Hart.set { c.hart with
          mem := StoreOp.sw.write c.hart.mem a (c.hart.get rs2) } rd 0), none⟩
      else ⟨next (c.hart.set rd 1), none⟩
  | .amo f rd _ rs2 =>
      ⟨next (Hart.set { c.hart with
        mem := StoreOp.sw.write c.hart.mem a (f.eval word (c.hart.get rs2)) } rd word),
        c.reservation⟩

end Isa

open Isa

/-! ## The emulator -/

section Amo

variable {s : CPUState} {pc ir : Word}

theorem funct5_eq : ((ir >>> 27) &&& 0x1f).toNat = (ir.extractLsb' 27 5).toNat :=
  Bits.toNat_shiftRight_and ir 27 (show 5 ≤ 32 by decide)

theorem min_signed (a b : Word) :
    (if b.toInt < a.toInt then b else a) = BitVec.ofInt 32 (min a.toInt b.toInt) := by
  rcases lt_or_ge b.toInt a.toInt with h | h
  · rw [if_pos h, min_eq_right h.le, BitVec.ofInt_toInt]
  · rw [if_neg h.not_gt, min_eq_left h, BitVec.ofInt_toInt]

theorem max_signed (a b : Word) :
    (if b.toInt > a.toInt then b else a) = BitVec.ofInt 32 (max a.toInt b.toInt) := by
  rcases lt_or_ge a.toInt b.toInt with h | h
  · rw [if_pos h, max_eq_right h.le, BitVec.ofInt_toInt]
  · rw [if_neg h.not_gt, max_eq_left h, BitVec.ofInt_toInt]

theorem min_unsigned (a b : Word) :
    (if b < a then b else a) = BitVec.ofNat 32 (min a.toNat b.toNat) := by
  rcases lt_or_ge b.toNat a.toNat with h | h
  · rw [if_pos (BitVec.lt_def.mpr h), min_eq_right h.le, BitVec.ofNat_toNat, BitVec.setWidth_eq]
  · rw [if_neg (mt BitVec.lt_def.mp h.not_gt), min_eq_left h, BitVec.ofNat_toNat,
      BitVec.setWidth_eq]

theorem max_unsigned (a b : Word) :
    (if b > a then b else a) = BitVec.ofNat 32 (max a.toNat b.toNat) := by
  rcases lt_or_ge a.toNat b.toNat with h | h
  · rw [if_pos (BitVec.lt_def.mpr h), max_eq_right h.le, BitVec.ofNat_toNat, BitVec.setWidth_eq]
  · rw [if_neg (mt BitVec.lt_def.mp h.not_gt), max_eq_left h, BitVec.ofNat_toNat,
      BitVec.setWidth_eq]

/-- The operations of the emulator are those of the instruction set. -/
theorem amoOp_amo {f : AmoOp} (h : Isa.amoOp (ir.extractLsb' 27 5).toNat = some f)
    (addr b a : Word) :
    Rv32.amoOp s ir addr b a = (a, some (f.eval a b), s.csrs .extraflags, 0) := by
  unfold Rv32.amoOp
  rw [funct5_eq]
  generalize (ir.extractLsb' 27 5).toNat = f5 at h ⊢
  unfold Isa.amoOp at h
  split at h <;> cases h
  · rfl
  · simp only [AmoOp.eval, add_comm]
  · simp only [AmoOp.eval, BitVec.xor_comm]
  · simp only [AmoOp.eval, BitVec.and_comm]
  · simp only [AmoOp.eval, BitVec.or_comm]
  · simp only [AmoOp.eval, min_signed]
  · simp only [AmoOp.eval, max_signed]
  · simp only [AmoOp.eval, min_unsigned]
  · simp only [AmoOp.eval, max_unsigned]

/-- An atomic instruction on a word of the memory, by what it does with the word. -/
theorem amo_inside (pc : Word) (hofs : (rs1 s ir - s.memOffset).toNat < s.memSize.toNat - 3) :
    let word := LoadOp.lw.value (hartOf s).mem (rs1 s ir)
    let r := Rv32.amoOp s ir (rs1 s ir - s.memOffset) (rs2 s ir) word
    ∃ mem s', (mem = match r.2.1 with
        | some v => StoreOp.sw.write (hartOf s).mem (rs1 s ir) v
        | none => (hartOf s).mem) ∧
      Stores (s.setCsr .extraflags r.2.2.1) mem s' ∧ OnlyMem (s.setCsr .extraflags r.2.2.1) s' ∧
      amo s pc ir = .ok ⟨s', pc, rdid ir, r.1, r.2.2.2⟩ := by
  intro word r
  have hread : s.read32 (rs1 s ir - s.memOffset).toNat = .ok word := read32_eq (by omega)
  have hamo : amo s pc ir = (do
      let s ← match r.2.1 with
        | some v => (s.setCsr .extraflags r.2.2.1).write32 (rs1 s ir - s.memOffset).toNat v
        | none => .ok (s.setCsr .extraflags r.2.2.1)
      .ok ⟨s, pc, rdid ir, r.1, r.2.2.2⟩) := by
    rw [amo, if_neg (not_ge_memSize hofs), hread]
    rfl
  cases hwrite : r.2.1 with
  | none =>
      rw [hwrite] at hamo
      exact ⟨_, s.setCsr .extraflags r.2.2.1, rfl, ⟨rfl, rfl, rfl⟩, ⟨_, rfl⟩, hamo⟩
  | some v =>
      rw [hwrite] at hamo
      obtain ⟨s', hs', hstores⟩ := write32_eq (s := s.setCsr .extraflags r.2.2.1)
        (a := rs1 s ir) v (by simp only [CPUState.setCsr]; omega)
      refine ⟨_, s', rfl, hstores, write32_ok hs', ?_⟩
      simp only [CPUState.setCsr] at hs' hamo ⊢
      rw [hamo, hs']
      rfl

end Amo

/-! ## Refinement -/

/-- The `switch` ends with the hart `h`, and changes nothing else but the slot. -/
structure Ends (s : CPUState) (l : Locals) (h : Hart) : Prop where
  trap : l.trap = 0
  hart : l.hart = h
  offset : l.state.memOffset = s.memOffset
  size : l.state.memSize = s.memSize
  csrs : ∀ r, r ≠ Csr.extraflags → l.state.csrs r = s.csrs r
  awake : l.state.csrs .extraflags &&& 4 = s.csrs .extraflags &&& 4

/-- The slot holds the reservation, if there is one. -/
def Holds (s : CPUState) (r : Option Word) : Prop := ∀ a, r = some a → slot s = a - s.memOffset

theorem sub_four (flags addr : Word) : ((flags &&& 7) ||| (addr <<< 3)) &&& 4 = flags &&& 4 := by
  ext i hi
  interval_cases i <;> simp

section Refinement

variable {s : CPUState} {ir : Word} {i : AtomicInstr} {r : Option Word}

theorem decodeAtomic_cases (hd : decodeAtomic ir = some i) :
    (ir.extractLsb' 0 7).toNat = 0x2f ∧
      (((ir.extractLsb' 27 5).toNat = 2 ∧ i = .lr (fieldRd ir) (fieldRs1 ir)) ∨
        ((ir.extractLsb' 27 5).toNat = 3 ∧ i = .sc (fieldRd ir) (fieldRs1 ir) (fieldRs2 ir)) ∨
        ∃ f, Isa.amoOp (ir.extractLsb' 27 5).toNat = some f ∧
          i = .amo f (fieldRd ir) (fieldRs1 ir) (fieldRs2 ir)) := by
  unfold decodeAtomic at hd
  split at hd
  next hop =>
    refine ⟨hop.1, ?_⟩
    split at hd
    next hlr =>
      split at hd <;> cases hd
      exact .inl ⟨hlr, rfl⟩
    next hsc =>
      cases hd
      exact .inr (.inl ⟨hsc, rfl⟩)
    next =>
      obtain ⟨f, hf, rfl⟩ := Option.map_eq_some_iff.mp hd
      exact .inr (.inr ⟨f, hf, rfl⟩)
  next => cases hd

/-- The end of an atomic instruction that leaves `flags`. -/
theorem ends_atomic {s' : CPUState} {flags : Word} {mem : Word → BitVec 8} (ir pc v : Word)
    (hstores : Stores (s.setCsr .extraflags flags) mem s')
    (honly : OnlyMem (s.setCsr .extraflags flags) s')
    (hflags : flags &&& 4 = s.csrs .extraflags &&& 4) :
    Ends s ⟨s', pc, rdid ir, v, 0⟩
      { Hart.set { hartOf s with mem := mem } (fieldRd ir) v with pc := pc + 4 } := by
  have hhart : hartOf (s.setCsr .extraflags flags) = hartOf s := by
    simp [hartOf, CPUState.setCsr]
  obtain ⟨m, rfl⟩ := honly
  refine ⟨rfl, ?_, rfl, rfl, ?_, ?_⟩
  · rw [hart_rdid, hstores.hart, hhart]
  · intro r hr
    simp [csrs_setCsr, hr]
  · simpa [csrs_setCsr] using hflags

/-- Every atomic instruction on a word of the memory ends as prescribed, where a `SC.W` has a
reservation. -/
theorem execute_atomic (cycle : Word) (hzero : s.regs 0 = 0) (hd : decodeAtomic ir = some i)
    (hofs : (i.address (hartOf s) - s.memOffset).toNat < s.memSize.toNat - 3)
    (hsize : s.memSize.toNat ≤ 2 ^ 29) (hr : Holds s r)
    (hsc : ∀ rd rs1 rs2, i = .sc rd rs1 rs2 → r.isSome) :
    ∃ l, execute s (s.csrs .pc) ir cycle = .ok (.done l) ∧
      Ends s l (i.exec ⟨hartOf s, r⟩).hart ∧ Holds l.state (i.exec ⟨hartOf s, r⟩).reservation := by
  obtain ⟨hop, hcases⟩ := decodeAtomic_cases hd
  have hexec : execute s (s.csrs .pc) ir cycle = (amo s (s.csrs .pc) ir).map .done := by
    simp only [execute, opcode_eq, hop]
  have hrs1 : (hartOf s).get (fieldRs1 ir) = rs1 s ir := by rw [get_hartOf hzero, rs1_eq]
  have hrs2 : (hartOf s).get (fieldRs2 ir) = rs2 s ir := by rw [get_hartOf hzero, rs2_eq]
  have hsame : (s.csrs .extraflags) &&& 4 = s.csrs .extraflags &&& 4 := rfl
  rcases hcases with ⟨hlr, rfl⟩ | ⟨hsc5, rfl⟩ | ⟨f, hf, rfl⟩
  all_goals
    simp only [AtomicInstr.address, hrs1] at hofs
    have hmask := and_mask (x := rs1 s ir - s.memOffset) (by omega)
    obtain ⟨mem, s', hmem, hstores, honly, hamo⟩ := amo_inside (s.csrs .pc) hofs
  · rw [amoOp_lr (by rw [funct5_eq, hlr])] at hmem hstores honly hamo
    subst hmem
    refine ⟨_, by rw [hexec, hamo]; rfl, ?_, ?_⟩
    · have hends := ends_atomic ir (s.csrs .pc)
        (LoadOp.lw.value (hartOf s).mem (rs1 s ir)) hstores honly (sub_four _ _)
      simp only [AtomicInstr.exec, AtomicInstr.address, hrs1]
      exact hends
    · intro a ha
      simp only [AtomicInstr.exec, AtomicInstr.address, hrs1, Option.some.injEq] at ha
      subst ha
      obtain ⟨m, rfl⟩ := honly
      simp only [slot, csrs_setCsr, if_true]
      exact (slot_reserve _ _).trans hmask
  · -- the slot is that of the address if and only if the reservation is
    obtain ⟨b, rfl⟩ := Option.isSome_iff_exists.mp (hsc _ _ _ rfl)
    have hslot : s.csrs .extraflags >>> 3 = b - s.memOffset := hr b rfl
    rw [amoOp_sc (by rw [funct5_eq, hsc5]), hmask, hslot] at hmem hstores honly hamo
    by_cases hb : b = rs1 s ir
    · rw [if_neg (not_not.mpr (by rw [hb]))] at hmem hstores honly hamo
      subst hmem
      refine ⟨_, by rw [hexec, hamo]; rfl, ?_, ?_⟩
      · have hends := ends_atomic ir (s.csrs .pc) 0 hstores honly hsame
        simp only [AtomicInstr.exec, AtomicInstr.address, hrs1, hrs2, hb, if_true]
        exact hends
      · intro a ha
        simp [AtomicInstr.exec, AtomicInstr.address, hrs1, hb] at ha
    · rw [if_pos (fun heq => hb (sub_left_injective heq))] at hmem hstores honly hamo
      subst hmem
      refine ⟨_, by rw [hexec, hamo]; rfl, ?_, ?_⟩
      · have hends := ends_atomic ir (s.csrs .pc) 1 hstores honly hsame
        simp only [AtomicInstr.exec, AtomicInstr.address, hrs1, Option.some.injEq, hb, if_false]
        exact hends
      · intro a ha
        simp [AtomicInstr.exec, AtomicInstr.address, hrs1, hb] at ha
  · rw [amoOp_amo hf] at hmem hstores honly hamo
    subst hmem
    refine ⟨_, by rw [hexec, hamo]; rfl, ?_, ?_⟩
    · have hends := ends_atomic ir (s.csrs .pc)
        (LoadOp.lw.value (hartOf s).mem (rs1 s ir)) hstores honly hsame
      simp only [AtomicInstr.exec, AtomicInstr.address, hrs1, hrs2]
      exact hends
    · intro a ha
      obtain ⟨m, rfl⟩ := honly
      simp only [slot, csrs_setCsr, if_true]
      exact hr a ha

end Refinement

end OsCourse.Rv32
