import OsCourse.Rv32.Trap

/-!
# Runs of the emulator

`main` loads an image into a memory of 64 MiB, puts the arguments of the program on
its stack and calls `rv32ima_step` again and again.  `boot` is the state that it
builds.

The memory stays where it is in every step, and so does the part of `EXTRAFLAGS`
above the mode and sleep bits, the slot of a reservation, with the exception of
`LR.W`.  This is said for each instruction by `Keeps` and for a whole step by
`Outcome.keeps`.
-/

namespace OsCourse.Rv32

/-! ## The state that `main` builds -/

/-- `RAM_SIZE`. -/
def ramSize : Nat := 64 * 1024 * 1024

/-- The state in which `main` calls `rv32ima_step` for the first time, for the bytes
of the image and the arguments of the program. -/
def boot (image : List (BitVec 8)) (margs : List Word) : CPUState where
  regs :=
    let sp := BitVec.ofNat 32 (ramSize - 4 * margs.length)
    Function.update (Function.update (Function.update (fun _ => 0)
      2 sp) 10 (BitVec.ofNat 32 margs.length)) 11 sp
  csrs := fun _ => 0
  mem := fun i =>
    let sp := ramSize - 4 * margs.length
    if sp ≤ i ∧ i < ramSize then
      (margs.getD ((i - sp) / 4) 0).extractLsb' (8 * ((i - sp) % 4)) 8
    else image.getD i 0
  memOffset := 0
  memSize := BitVec.ofNat 32 ramSize

/-! ## What instructions keep -/

/-- The slot of the reservation. -/
def slot (s : CPUState) : Word := s.csrs .extraflags >>> 3

/-- An address of less than 29 bits fits into the slot. -/
theorem and_mask {x : Word} (h : x.toNat < 2 ^ 29) : x &&& 0x1fffffff = x := by
  apply BitVec.eq_of_toNat_eq
  rw [BitVec.toNat_and]
  exact (Nat.and_two_pow_sub_one_eq_mod _ 29).trans (Nat.mod_eq_of_lt h)

/-- The memory is where it was, and the slot is what it was. -/
structure Keeps (s t : CPUState) : Prop where
  memOffset : t.memOffset = s.memOffset
  memSize : t.memSize = s.memSize
  slot : slot t = slot s

namespace Keeps

variable {s t u : CPUState}

theorem refl (s : CPUState) : Keeps s s := ⟨rfl, rfl, rfl⟩

theorem trans (h : Keeps s t) (h' : Keeps t u) : Keeps s u :=
  ⟨h'.memOffset.trans h.memOffset, h'.memSize.trans h.memSize, h'.slot.trans h.slot⟩

theorem setReg (s : CPUState) (i v : Word) : Keeps s (s.setReg i v) := ⟨rfl, rfl, rfl⟩

theorem setCsr (s : CPUState) {c : Csr} (hc : Csr.extraflags ≠ c) (v : Word) :
    Keeps s (s.setCsr c v) :=
  ⟨rfl, rfl, by simp [Rv32.slot, csrs_setCsr, hc]⟩

theorem setFlags (s : CPUState) {v : Word} (hv : v >>> 3 = Rv32.slot s) :
    Keeps s (s.setCsr .extraflags v) :=
  ⟨rfl, rfl, by simpa [Rv32.slot, csrs_setCsr] using hv⟩

end Keeps

section
variable (flags x : Word)

theorem slot_or (hx : x >>> 3 = 0) : (flags ||| x) >>> 3 = flags >>> 3 := by
  rw [BitVec.ushiftRight_or_distrib, hx]
  exact BitVec.or_zero

theorem slot_and (hx : x >>> 3 = BitVec.allOnes 32 >>> 3) :
    (flags &&& x) >>> 3 = flags >>> 3 := by
  rw [BitVec.ushiftRight_and_distrib, hx, ← BitVec.ushiftRight_and_distrib, BitVec.and_allOnes]

theorem slot_reserve (addr : Word) :
    ((flags &&& (7 : Word)) ||| (addr <<< 3)) >>> 3 = addr &&& 0x1fffffff := by
  have hlow : (flags &&& (7 : Word)) >>> 3 = 0 := by
    rw [BitVec.ushiftRight_and_distrib]
    exact BitVec.and_zero
  have hmask : (addr &&& 0x1fffffff).toNat = addr.toNat % 2 ^ 29 := by
    rw [BitVec.toNat_and]
    exact Nat.and_two_pow_sub_one_eq_mod _ 29
  apply BitVec.eq_of_toNat_eq
  rw [BitVec.or_comm, slot_or _ _ hlow, hmask, BitVec.toNat_ushiftRight, BitVec.toNat_shiftLeft,
    Nat.shiftLeft_eq, Nat.shiftRight_eq_div_pow]
  omega

end

/-- The instruction is an `LR.W` of a word of the memory. -/
def Reserves (s : CPUState) (ir : Word) : Prop :=
  (ir &&& 0x7f).toNat = 0x2f ∧ ¬ rs1 s ir - s.memOffset ≥ s.memSize - 3 ∧
    ((ir >>> 27) &&& 0x1f).toNat = 2

/-- The processor when the `switch` is left. -/
def Flow.state : Flow → CPUState
  | .done l => l.state
  | .ret s _ => s

section
variable {s : CPUState} {pc ir cycle : Word}

theorem csrTarget_ne_extraflags {csrno : Nat} {c : Csr} (h : csrTarget csrno = some c) :
    Csr.extraflags ≠ c := by
  rintro rfl
  unfold csrTarget at h
  split at h <;> simp at h

theorem csrOp_keeps : Keeps s (csrOp s pc ir cycle).state := by
  unfold csrOp
  dsimp only
  split
  next c hc => exact .setCsr s (csrTarget_ne_extraflags hc) _
  next => exact .refl s

theorem mret_keeps : Keeps s (mret s).state := by
  have hlow (x : Word) : (x &&& 3) >>> 3 = 0 := by
    rw [BitVec.ushiftRight_and_distrib]
    exact BitVec.and_zero
  refine (Keeps.setCsr s (by decide) _).trans (Keeps.setFlags _ ?_)
  rw [slot_or _ _ (hlow _), slot_and _ _ (by decide)]
  simp [slot, csrs_setCsr]

theorem amoOp_lr (h : ((ir >>> 27) &&& 0x1f).toNat = 2) (addr rs2 rval : Word) :
    amoOp s ir addr rs2 rval =
      (rval, none, (s.csrs .extraflags &&& 7) ||| (addr <<< 3), 0) := by
  unfold amoOp
  rw [h]
  rfl

/-- Only `LR.W` changes the flags of an atomic instruction. -/
theorem amoOp_flags (h : ((ir >>> 27) &&& 0x1f).toNat ≠ 2) (addr rs2 rval : Word) :
    (amoOp s ir addr rs2 rval).2.2.1 = s.csrs .extraflags := by
  by_cases hsc : ((ir >>> 27) &&& 0x1f).toNat = 3
  · rw [amoOp_sc hsc]
    split <;> rfl
  · unfold amoOp
    split <;> simp_all

/-- Instructions other than `LR.W` keep the slot. -/
theorem Executed.keeps {exc : Option Cause} {flow : Flow} (h : Executed s pc ir cycle exc flow)
    (hlr : ¬ Reserves s ir) : Keeps s flow.state := by
  cases h with
  | raised | plain => exact .refl s
  | stored => exact ⟨rfl, rfl, rfl⟩
  | timermatch c hc v => exact .setCsr s (by rcases hc with rfl | rfl <;> decide) v
  | syscon => exact .setCsr s (by decide) _
  | csr => exact csrOp_keeps
  | wfi v w hw =>
      have hflags : Keeps (s.setCsr .mstatus v) ((s.setCsr .mstatus v).setCsr .extraflags w) := by
        refine .setFlags _ ?_
        rw [hw, slot_or _ _ (by decide)]
        simp [slot, csrs_setCsr]
      exact (Keeps.setCsr s (by decide) v).trans (hflags.trans (.setCsr _ (by decide) _))
  | mret => exact mret_keeps
  | atomic hop hin m word =>
      have hne : ((ir >>> 27) &&& 0x1f).toNat ≠ 2 := fun h2 => hlr ⟨hop, hin, h2⟩
      rw [amoOp_flags hne]
      exact (Keeps.setFlags s rfl).trans ⟨rfl, rfl, rfl⟩

/-- `LR.W` puts its offset into the slot. -/
theorem execute_reserves (h : Reserves s ir) {flow : Flow}
    (hexec : execute s pc ir cycle = .ok flow) :
    ∃ l, flow = .done l ∧ l.trap = 0 ∧ l.state.memOffset = s.memOffset ∧
      l.state.memSize = s.memSize ∧ slot l.state = (rs1 s ir - s.memOffset) &&& 0x1fffffff := by
  obtain ⟨hop, hin, hlr⟩ := h
  unfold execute at hexec
  rw [hop] at hexec
  obtain ⟨l, hl, rfl⟩ := map_ok hexec
  unfold amo at hl
  rw [if_neg hin] at hl
  obtain ⟨word, -, hl⟩ := bind_ok hl
  dsimp only at hl
  rw [amoOp_lr hlr] at hl
  obtain rfl := Except.ok.inj hl
  refine ⟨_, rfl, rfl, rfl, rfl, ?_⟩
  simp only [slot, csrs_setCsr, if_true]
  exact slot_reserve _ _

end

/-! ## What a step keeps -/

theorem updateTimer_keeps (s : CPUState) (e : Word) : Keeps s (updateTimer s e) where
  memOffset := by
    simp only [updateTimer]
    split <;> split <;> rfl
  memSize := by
    simp only [updateTimer]
    split <;> split <;> rfl
  slot := by
    unfold slot
    rcases updateTimer_extraflags s e with hflags | hflags <;> rw [hflags]
    exact slot_and _ _ (by decide)

theorem enterTrap_keeps (s : CPUState) (pc rval trap : Word) :
    Keeps s (enterTrap s pc rval trap).1 := by
  refine (Keeps.setCsr s (by decide) _).trans <| (Keeps.setCsr _ (by decide) _).trans <|
    (Keeps.setCsr _ (by decide) _).trans <| (Keeps.setCsr _ (by decide) _).trans <|
    Keeps.setFlags _ ?_
  exact slot_or _ _ (by decide)

theorem cycleEnd_slot (s : CPUState) (pc rval trap cycle : Word) :
    Keeps s (cycleEnd s pc rval trap cycle).1 := by
  have hfinish (s : CPUState) (pc : Word) : Keeps s (cycleEnd s pc rval 0 cycle).1 := by
    unfold cycleEnd
    simp only [ne_eq, not_true_eq_false, if_false]
    refine Keeps.trans ?_ ((Keeps.setCsr _ (by decide) _).trans (.setCsr _ (by decide) _))
    split
    · exact .setCsr s (by decide) _
    · exact .refl s
  by_cases htrap : trap = 0
  · exact htrap ▸ hfinish s pc
  · rw [cycleEnd_trap htrap]
    exact (enterTrap_keeps s pc rval trap).trans (hfinish _ _)

/-- The end of an instruction that writes its result back. -/
theorem writeBack_keeps (l : Locals) (cycle : Word) :
    Keeps l.state (cycleEnd (if l.rdid ≠ 0 then l.state.setReg l.rdid l.rval else l.state)
      (l.pc + 4) l.rval 0 cycle).1 := by
  refine Keeps.trans ?_ (cycleEnd_slot _ _ _ _ _)
  split
  · exact .setReg _ _ _
  · exact .refl _

section
variable {s : CPUState} {r : CPUState × Word}

/-- A step that does not execute `LR.W` keeps the slot. -/
theorem Outcome.keeps (h : Outcome s r) (hlr : ∀ ir, Fetches s ir → ¬ Reserves s ir) :
    Keeps s r.1 := by
  cases h with
  | asleep => exact .refl s
  | interrupt | fetchAccess | misaligned => exact cycleEnd_slot _ _ _ _ _
  | ret hf hexec => exact (execute_executed hexec).keeps (hlr _ hf)
  | trap hf hexec =>
      exact ((execute_executed hexec).keeps (hlr _ hf)).trans (cycleEnd_slot _ _ _ _ _)
  | done hf hexec =>
      exact ((execute_executed hexec).keeps (hlr _ hf)).trans (writeBack_keeps _ _)

/-- A step that executes `LR.W` fills the slot. -/
theorem Outcome.reserves {ir : Word} (h : Outcome s r) (hf : Fetches s ir) (hlr : Reserves s ir) :
    r.1.memOffset = s.memOffset ∧ r.1.memSize = s.memSize ∧
      slot r.1 = (rs1 s ir - s.memOffset) &&& 0x1fffffff := by
  cases h with
  | asleep h => exact absurd h hf.awake
  | interrupt _ h => exact absurd h hf.uninterrupted
  | fetchAccess _ _ h => exact absurd h hf.inside
  | misaligned _ _ _ h => exact absurd hf.aligned h
  | ret hf' hexec =>
      obtain rfl := hf.unique hf'
      obtain ⟨l, hl, -⟩ := execute_reserves hlr hexec
      cases hl
  | trap hf' hexec htrap =>
      obtain rfl := hf.unique hf'
      obtain ⟨l, hl, h0, -⟩ := execute_reserves hlr hexec
      cases hl
      exact absurd h0 htrap
  | @done _ l hf' hexec htrap =>
      obtain rfl := hf.unique hf'
      obtain ⟨_, hl, -, hoffset, hsize, hslot⟩ := execute_reserves hlr hexec
      cases hl
      have hend := writeBack_keeps l (s.csrs .cyclel + 1)
      exact ⟨hend.memOffset.trans hoffset, hend.memSize.trans hsize, hend.slot.trans hslot⟩

end

end OsCourse.Rv32
