import OsCourse.Rv32.Refine
import OsCourse.Rv32.Trap

/-!
# Accesses of the memory

An access outside of the memory is a fault of the model.  Where the size of the
memory is a multiple of 4 no step of the emulator is such a fault: a fetch is aligned
and a load, a store or an atomic instruction is compared with `mem_size - 3`, so
that four bytes fit.

The comparison is the same for all widths.  A load or a store of one or two bytes in
the last three bytes of the memory is taken for one outside, although its bytes are
all inside.
-/

namespace OsCourse.Rv32

open Isa

/-! ## No access is outside -/

/-- The memory consists of words, and of one at least. -/
structure WordMemory (s : CPUState) : Prop where
  words : s.memSize.toNat % 4 = 0
  some : 4 ≤ s.memSize.toNat

section
variable {s : CPUState} {i : Nat}

theorem read8_defined (h : i < s.memSize.toNat) : ∃ v, s.read8 i = .ok v := ⟨_, if_pos h⟩

theorem read16_defined (h : i + 1 < s.memSize.toNat) : ∃ v, s.read16 i = .ok v := by
  refine bind_defined (read8_defined (by omega)) fun b0 _ => ?_
  exact bind_defined (read8_defined h) fun b1 _ => ⟨_, rfl⟩

theorem read32_defined (h : i + 3 < s.memSize.toNat) : ∃ v, s.read32 i = .ok v := by
  refine bind_defined (read8_defined (by omega)) fun b0 _ => ?_
  refine bind_defined (read8_defined (by omega)) fun b1 _ => ?_
  refine bind_defined (read8_defined (by omega)) fun b2 _ => ?_
  exact bind_defined (read8_defined h) fun b3 _ => ⟨_, rfl⟩

theorem write8_defined (v : BitVec 8) (h : i < s.memSize.toNat) : ∃ t, s.write8 i v = .ok t :=
  ⟨_, if_pos h⟩

theorem OnlyMem.memSize {t : CPUState} (h : OnlyMem s t) : t.memSize = s.memSize := by
  obtain ⟨m, rfl⟩ := h
  rfl

theorem write16_defined (v : Word) (h : i + 1 < s.memSize.toNat) : ∃ t, s.write16 i v = .ok t := by
  refine bind_defined (write8_defined _ (by omega)) fun t ht => write8_defined _ ?_
  rwa [(write8_ok ht).memSize]

theorem write32_defined (v : Word) (h : i + 3 < s.memSize.toNat) : ∃ t, s.write32 i v = .ok t := by
  refine bind_defined (write8_defined _ (by omega)) fun s₁ h₁ => ?_
  have hs₁ := (write8_ok h₁).memSize
  refine bind_defined (write8_defined _ (by rw [hs₁]; omega)) fun s₂ h₂ => ?_
  have hs₂ := (write8_ok h₂).memSize.trans hs₁
  refine bind_defined (write8_defined _ (by rw [hs₂]; omega)) fun s₃ h₃ => ?_
  have hs₃ := (write8_ok h₃).memSize.trans hs₂
  exact write8_defined _ (by rw [hs₃]; omega)

end

section
variable {s : CPUState} {pc ir cycle : Word}

/-- Four bytes fit where the comparison does not stop an access. -/
theorem WordMemory.fits (hs : WordMemory s) {x : Word} (h : ¬ x ≥ s.memSize - 3) :
    x.toNat + 3 < s.memSize.toNat := by
  have hsome := hs.some
  have hle : (3 : Word) ≤ s.memSize := by
    rw [BitVec.le_def]
    exact Nat.le_of_lt hsome
  rw [ge_iff_le, BitVec.le_def, BitVec.toNat_sub_of_le hle, Nat.not_le] at h
  have hthree : (3 : Word).toNat = 3 := rfl
  omega

theorem load_defined (hs : WordMemory s) : ∃ l, load s pc ir = .ok l := by
  unfold load
  dsimp only
  split
  · repeat' split
    all_goals exact ⟨_, rfl⟩
  next hin =>
    have hfit := hs.fits hin
    split
    · exact bind_defined (read8_defined (by omega)) fun v _ => ⟨_, rfl⟩
    · exact bind_defined (read16_defined (by omega)) fun v _ => ⟨_, rfl⟩
    · exact bind_defined (read32_defined hfit) fun v _ => ⟨_, rfl⟩
    · exact bind_defined (read8_defined (by omega)) fun v _ => ⟨_, rfl⟩
    · exact bind_defined (read16_defined (by omega)) fun v _ => ⟨_, rfl⟩
    · exact ⟨_, rfl⟩

theorem store_defined (hs : WordMemory s) : ∃ flow, store s pc ir = .ok flow := by
  unfold store
  extract_lets rs2 imm addy
  split
  · repeat' split
    all_goals exact ⟨_, rfl⟩
  next hin =>
    have hfit := hs.fits hin
    split
    · exact bind_defined (write8_defined _ (by omega)) fun t _ => ⟨_, rfl⟩
    · exact bind_defined (write16_defined _ (by omega)) fun t _ => ⟨_, rfl⟩
    · exact bind_defined (write32_defined _ hfit) fun t _ => ⟨_, rfl⟩
    · exact ⟨_, rfl⟩

theorem amo_defined (hs : WordMemory s) : ∃ l, amo s pc ir = .ok l := by
  unfold amo
  dsimp only
  split
  · exact ⟨_, rfl⟩
  next hin =>
    have hfit := hs.fits hin
    refine bind_defined (read32_defined hfit) fun word _ => ?_
    generalize amoOp s ir (rs1 s ir - s.memOffset) (rs2 s ir) word = r
    obtain ⟨rval, write, flags, trap⟩ := r
    cases write with
    | none => exact ⟨_, rfl⟩
    | some v => exact bind_defined (write32_defined v hfit) fun t _ => ⟨_, rfl⟩

theorem execute_defined (hs : WordMemory s) : ∃ flow, execute s pc ir cycle = .ok flow := by
  unfold execute
  split
  case h_6 => exact map_defined _ (load_defined hs)
  case h_7 => exact store_defined hs
  case h_12 => exact map_defined _ (amo_defined hs)
  all_goals exact ⟨_, rfl⟩

end

theorem WordMemory.updateTimer {s : CPUState} (hs : WordMemory s) (e : Word) :
    WordMemory (updateTimer s e) := by
  have hsize := updateTimer_memSize s e
  exact ⟨hsize ▸ hs.words, hsize ▸ hs.some⟩

/-- A word fits at an aligned offset. -/
theorem WordMemory.fetch_fits {s : CPUState} (hs : WordMemory s) {x : Word}
    (hin : ¬ x ≥ s.memSize) (halign : x &&& 3 = 0) : x.toNat + 3 < s.memSize.toNat := by
  have hwords := hs.words
  have hmod : x.toNat % 4 = 0 := by
    have hand := congrArg BitVec.toNat halign
    rw [BitVec.toNat_and] at hand
    exact (Nat.and_two_pow_sub_one_eq_mod x.toNat 2).symm.trans hand
  rw [ge_iff_le, BitVec.le_def, Nat.not_le] at hin
  omega

/-- Every byte that a step reads or writes is inside of the memory: no state, no
register contents and no word make the step a fault. -/
theorem rv32imaStep_defined (s : CPUState) (e : Word) (hs : WordMemory s) :
    ∃ r, rv32imaStep s e = .ok r := by
  have hs' := hs.updateTimer e
  unfold rv32imaStep
  generalize updateTimer s e = s at hs' ⊢
  dsimp only
  split
  · exact ⟨_, rfl⟩
  split
  · exact ⟨_, rfl⟩
  split
  · exact ⟨_, rfl⟩
  next hin =>
    split
    · exact ⟨_, rfl⟩
    next halign =>
      refine bind_defined (read32_defined (hs'.fetch_fits hin (not_not.mp halign))) fun ir _ => ?_
      refine bind_defined (execute_defined hs') fun flow _ => ?_
      cases flow with
      | ret s' code => exact ⟨_, rfl⟩
      | done l =>
          dsimp only
          split <;> exact ⟨_, rfl⟩

theorem rv32imaStep_defined_loadHalf : ∃ r, rv32imaStep loadHalf 7 = .ok r :=
  rv32imaStep_defined loadHalf 7 ⟨by decide, by decide⟩

/-! ## Loads and stores of all widths -/

/-- The number of bytes of a load. -/
def Isa.LoadOp.bytes : LoadOp → Nat
  | .lb | .lbu => 1
  | .lh | .lhu => 2
  | .lw => 4

/-- The number of bytes of a store. -/
def Isa.StoreOp.bytes : StoreOp → Nat
  | .sb => 1
  | .sh => 2
  | .sw => 4

/-- What a load or a store is to do: it accesses `bytes` bytes from `address` on, and
leaves the hart with the registers and the memory of `after`. -/
structure MemAccess where
  bytes : Nat
  address : Word
  after : Hart

/-- The access of an instruction. -/
def memAccess (s : CPUState) : Instr → Option MemAccess
  | .load width rd rs1 offset =>
      let a := s.regs rs1 + offset.signExtend 32
      some ⟨width.bytes, a, (hartOf s).set rd (width.value (hartOf s).mem a)⟩
  | .store width rs1 rs2 offset =>
      let a := s.regs rs1 + offset.signExtend 32
      some ⟨width.bytes, a, { hartOf s with mem := width.write (hartOf s).mem a (s.regs rs2) }⟩
  | _ => none

/-- The bytes of the access are all in the memory. -/
def MemAccess.Inside (x : MemAccess) (s : CPUState) : Prop :=
  s.memOffset.toNat ≤ x.address.toNat ∧
    x.address.toNat + x.bytes ≤ s.memOffset.toNat + s.memSize.toNat

/-- The step performs the access and raises nothing. -/
def Performs (s : CPUState) (e : Word) (x : MemAccess) : Prop :=
  (∃ s', rv32imaStep s e = .ok (s', 0) ∧ hartOf s' = { x.after with pc := s.csrs .pc + 4 }) ∧
    ∀ c, ¬ Raises (updateTimer s e) c

/-- The exceptions of an access that is not allowed. -/
def accessFaults : List Cause := [.loadAccess, .storeAccess]

section
variable {s : CPUState} {ir cycle : Word} {i : Instr} {x : MemAccess}

theorem memAccess_updateTimer (s : CPUState) (e : Word) (i : Instr) :
    memAccess (updateTimer s e) i = memAccess s i := by
  unfold memAccess
  rw [updateTimer_regs, hartOf_updateTimer]

/-- The words that access the memory are those of the two opcodes. -/
theorem decode_memAccess (hd : decode ir = some i) (hx : memAccess s i = some x) :
    ((ir.extractLsb' 0 7).toNat = 0x03 ∧ ∃ width,
      loadOp (ir.extractLsb' 12 3).toNat = some width ∧
      i = .load width (fieldRd ir) (fieldRs1 ir) (immI ir)) ∨
    ((ir.extractLsb' 0 7).toNat = 0x23 ∧ ∃ width,
      storeOp (ir.extractLsb' 12 3).toNat = some width ∧
      i = .store width (fieldRs1 ir) (fieldRs2 ir) (immS ir)) := by
  simp only [decode] at hd
  split at hd
  case h_4 | h_10 =>
    split at hd <;> cases hd
    cases hx
  case h_5 =>
    obtain ⟨cond, -, rfl⟩ := Option.map_eq_some_iff.mp hd
    cases hx
  case h_6 hop =>
    obtain ⟨width, hwidth, rfl⟩ := Option.map_eq_some_iff.mp hd
    exact .inl ⟨hop, width, hwidth, rfl⟩
  case h_7 hop =>
    obtain ⟨width, hwidth, rfl⟩ := Option.map_eq_some_iff.mp hd
    exact .inr ⟨hop, width, hwidth, rfl⟩
  case h_8 =>
    rcases immInstr_cases hd with ⟨f, -, -, rfl⟩ | ⟨f, -, -, -, rfl⟩ <;> cases hx
  case h_9 =>
    obtain ⟨f, -, rfl⟩ := Option.map_eq_some_iff.mp hd
    cases hx
  all_goals cases hd <;> cases hx

/-- Inside of the memory the `switch` performs the access. -/
theorem execute_memAccess (hd : decode ir = some i) (hx : memAccess s i = some x)
    (hofs : (x.address - s.memOffset).toNat < s.memSize.toNat - 3) :
    ∃ l, execute s (s.csrs .pc) ir cycle = .ok (.done l) ∧ l.trap = 0 ∧
      l.hart = { x.after with pc := s.csrs .pc + 4 } := by
  rcases decode_memAccess hd hx with ⟨hop, width, hwidth, rfl⟩ | ⟨hop, width, hwidth, rfl⟩
  · obtain rfl := Option.some.inj hx
    have haddr : s.regs (fieldRs1 ir) + (immI ir).signExtend 32 = rs1 s ir + immSe ir := by
      rw [rs1_eq, immSe_eq]
    dsimp only at hofs ⊢
    rw [haddr] at hofs ⊢
    refine ⟨_, ?_, rfl, hart_rdid s (s.csrs .pc) ir _⟩
    simp only [execute, opcode_eq, hop, load_eq hwidth hofs]
    rfl
  · obtain rfl := Option.some.inj hx
    dsimp only at hofs ⊢
    rw [← rs1_eq] at hofs ⊢
    obtain ⟨s', hstore, hs'⟩ := @store_eq s (s.csrs .pc) ir width hwidth hofs
    refine ⟨⟨s', s.csrs .pc, 0, 0, 0⟩, ?_, rfl, ?_⟩
    · simp only [execute, opcode_eq, hop, hstore]
    · rw [← rs2_eq]
      exact congrArg (fun h : Hart => { h with pc := s.csrs .pc + 4 }) hs'.hart

/-- From `mem_size - 3` on it does not, except at devices. -/
theorem exception_memAccess (hd : decode ir = some i) (hx : memAccess s i = some x)
    (hout : x.address - s.memOffset ≥ s.memSize - 3) (hdev : ¬ isDevice x.address) :
    ∃ c ∈ accessFaults, exception s ir = some c := by
  have hback : x.address - s.memOffset + s.memOffset = x.address := sub_add_cancel _ _
  rw [← hback] at hdev
  rcases decode_memAccess hd hx with ⟨hop, width, hwidth, rfl⟩ | ⟨hop, width, hwidth, rfl⟩
  · obtain rfl := Option.some.inj hx
    have hofs : loadOffset s ir =
        s.regs (fieldRs1 ir) + (immI ir).signExtend 32 - s.memOffset := by
      rw [loadOffset, rs1_eq, immSe_eq]
    refine ⟨.loadAccess, by decide, ?_⟩
    simp only [exception, opcode_eq, hop, hofs]
    exact accessException_fault _ hout hdev
  · obtain rfl := Option.some.inj hx
    have hofs : storeOffset s ir =
        s.regs (fieldRs1 ir) + (immS ir).signExtend 32 - s.memOffset := by
      simp only [storeOffset, immS_bits, signExtend_12, rs1_eq]
      ring
    refine ⟨.storeAccess, by decide, ?_⟩
    simp only [exception, opcode_eq, hop, hofs]
    exact accessException_fault _ hout hdev

end

/-- An instruction that the `switch` executes raises nothing. -/
theorem Fetches.not_raises {s : CPUState} {ir : Word} {l : Locals} (hf : Fetches s ir)
    (hexec : execute s (s.csrs .pc) ir (s.csrs .cyclel + 1) = .ok (.done l)) (htrap : l.trap = 0)
    (c : Cause) : ¬ Raises s c := by
  intro hc
  have hdone := execute_executed hexec
  rw [hc.of_fetches hf] at hdone
  cases hdone
  exact code_add_one_ne c htrap

/-- A load or a store whose bytes are in the memory is performed if four bytes from
its address on are; otherwise it is an access fault, except at addresses of devices. -/
theorem memAccess_performs (s : CPUState) (e ir : Word) (i : Instr) (x : MemAccess)
    (hs : WordMemory s) (hf : Fetches (updateTimer s e) ir) (hd : decode ir = some i)
    (hx : memAccess s i = some x) (hin : x.Inside s) :
    (x.address.toNat + 4 ≤ s.memOffset.toNat + s.memSize.toNat → Performs s e x) ∧
    (s.memOffset.toNat + s.memSize.toNat < x.address.toNat + 4 → ¬ isDevice x.address →
      ∃ c ∈ accessFaults, Raises (updateTimer s e) c) := by
  have hofs : (x.address - s.memOffset).toNat = x.address.toNat - s.memOffset.toNat :=
    BitVec.toNat_sub_of_le hin.1
  have hlow := hin.1
  rw [← memAccess_updateTimer s e] at hx
  constructor
  · intro hfit
    have hlt : (x.address - (updateTimer s e).memOffset).toNat <
        (updateTimer s e).memSize.toNat - 3 := by
      rw [updateTimer_memOffset, updateTimer_memSize, hofs]
      omega
    obtain ⟨l, hexec, htrap, hl⟩ := execute_memAccess hd hx hlt
    refine ⟨?_, hf.not_raises hexec htrap⟩
    obtain ⟨s', hend, hs'⟩ :=
      cycleEnd_no_trap l.writeBack (l.pc + 4) l.rval ((updateTimer s e).csrs .cyclel + 1)
    refine ⟨s', (hf.step_done hexec htrap).trans (congrArg Except.ok hend), ?_⟩
    rw [← updateTimer_csrs s e (by decide)]
    exact hs'.trans hl
  · intro hover hdev
    have hout : x.address - (updateTimer s e).memOffset ≥ (updateTimer s e).memSize - 3 := by
      have hsome := hs.some
      have hle : (3 : Word) ≤ s.memSize := Nat.le_of_lt hsome
      have hthree : (3 : Word).toNat = 3 := rfl
      rw [updateTimer_memOffset, updateTimer_memSize, ge_iff_le, BitVec.le_def,
        BitVec.toNat_sub_of_le hle, hofs]
      omega
    obtain ⟨c, hc, hexc⟩ := exception_memAccess hd hx hout hdev
    exact ⟨c, hc, .instruction hf hexc⟩

theorem memAccess_performs_loadHalf :
    ∃ x, memAccess loadHalf (.load .lh 5 6 2) = some x ∧ Performs loadHalf 1 x := by
  refine ⟨_, rfl, (memAccess_performs loadHalf 1 0x00231283 (.load .lh 5 6 2) _
    ⟨by decide, by decide⟩ ?_ (by decide) rfl ⟨by decide, by decide⟩).1 (by decide)⟩
  constructor <;> decide

/-- The word `ir` in a memory of one word, with the address of the memory in `x6`. -/
def oneWord (ir : Word) : CPUState where
  regs := Function.update (fun _ => 0) 6 0x80000000
  csrs := Function.update (fun _ => 0) .pc 0x80000000
  mem := fun i => ir.extractLsb' (8 * i) 8
  memOffset := 0x80000000
  memSize := 4

/-- The instruction in a memory of one word accesses bytes of that memory, and is an
access fault. -/
def FaultsInside (ir : Word) (i : Instr) : Prop :=
  WordMemory (oneWord ir) ∧
    (oneWord ir).memOffset.toNat + (oneWord ir).memSize.toNat ≤ 2 ^ 32 ∧
    Fetches (updateTimer (oneWord ir) 0) ir ∧ decode ir = some i ∧
    ∃ x, memAccess (oneWord ir) i = some x ∧ x.Inside (oneWord ir) ∧
      (∃ c ∈ accessFaults, Raises (updateTimer (oneWord ir) 0) c) ∧
      ¬ Performs (oneWord ir) 0 x

theorem faultsInside {ir : Word} {i : Instr} {c : Cause} {x : MemAccess} (hc : c ∈ accessFaults)
    (hf : Fetches (updateTimer (oneWord ir) 0) ir) (hd : decode ir = some i)
    (hexc : exception (updateTimer (oneWord ir) 0) ir = some c)
    (hx : memAccess (oneWord ir) i = some x) (haddr : x.address = 0x80000003)
    (hbytes : x.bytes = 1) : FaultsInside ir i := by
  have hwords : WordMemory (oneWord ir) := by constructor <;> simp [oneWord]
  have hraises : Raises (updateTimer (oneWord ir) 0) c := .instruction hf hexc
  have hin : x.Inside (oneWord ir) := by simp [MemAccess.Inside, haddr, hbytes, oneWord]
  refine ⟨hwords, ?_, hf, hd, x, hx, hin, ⟨c, hc, hraises⟩, fun h => h.2 c hraises⟩
  simp [oneWord]

/-- `lb x5, 3(x6)` and `sb x5, 3(x6)` at the last byte of the memory are access
faults. -/
theorem oneWord_last_byte :
    FaultsInside 0x00330283 (.load .lb 5 6 3) ∧ FaultsInside 0x005301a3 (.store .sb 6 5 3) := by
  constructor
  · exact faultsInside (c := .loadAccess) (by decide) (by constructor <;> decide) (by decide)
      (by decide) rfl (by decide) rfl
  · exact faultsInside (c := .storeAccess) (by decide) (by constructor <;> decide) (by decide)
      (by decide) rfl (by decide) rfl

end OsCourse.Rv32
