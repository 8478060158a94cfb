import OsCourse.Rv32.Execute

/-!
# The emulator refines the instruction set

A step of the emulator on a legal instruction takes the hart that the processor
shows to the hart that the instruction set prescribes.  The step first updates
the timer, which the hart does not show, and fetches the word at the program
counter; after the `switch` it writes the result back and counts the cycle.
-/

namespace OsCourse.Rv32

open Isa

/-- The word that a hart fetches. -/
def Isa.Hart.fetch (h : Hart) : Word := LoadOp.lw.value h.mem h.pc

/-! ## Around the switch -/

theorem updateTimer_memSize (s : CPUState) (e : Word) : (updateTimer s e).memSize = s.memSize := by
  simp only [updateTimer]
  split <;> split <;> rfl

theorem updateTimer_memOffset (s : CPUState) (e : Word) :
    (updateTimer s e).memOffset = s.memOffset := by
  simp only [updateTimer]
  split <;> split <;> rfl

theorem hartOf_updateTimer (s : CPUState) (e : Word) : hartOf (updateTimer s e) = hartOf s := by
  simp only [updateTimer]
  split <;> split <;> rfl

theorem cycleEnd_no_trap (s : CPUState) (pc v cycle : Word) :
    ∃ s', cycleEnd s pc v 0 cycle = (s', 0) ∧ hartOf s' = { hartOf s with pc := pc } := by
  refine ⟨_, rfl, ?_⟩
  dsimp only
  split <;> rfl

/-- A step that executes an instruction without an exception. -/
theorem rv32imaStep_done {s : CPUState} {e ir : Word} {l : Locals}
    (hawake : ¬ asleep (updateTimer s e)) (hirq : ¬ timerInterrupt (updateTimer s e))
    (hin : (s.csrs .pc - s.memOffset).toNat < s.memSize.toNat)
    (halign : (s.csrs .pc - s.memOffset).toNat % 4 = 0)
    (hfetch : (updateTimer s e).read32 (s.csrs .pc - s.memOffset).toNat = .ok ir)
    (hexec : execute (updateTimer s e) (s.csrs .pc) ir ((updateTimer s e).csrs .cyclel + 1) =
      .ok (.done l))
    (htrap : l.trap = 0) :
    ∃ s', rv32imaStep s e = .ok (s', 0) ∧ hartOf s' = l.hart := by
  have hpc : (updateTimer s e).csrs .pc = s.csrs .pc := congrArg Hart.pc (hartOf_updateTimer s e)
  have hinside : ¬ s.csrs .pc - s.memOffset ≥ s.memSize := by
    rw [ge_iff_le, BitVec.le_def]
    exact Nat.not_le.mpr hin
  have hmask : ¬ (s.csrs .pc - s.memOffset) &&& 3 ≠ 0 := by
    apply not_not.mpr
    apply BitVec.eq_of_toNat_eq
    rw [BitVec.toNat_and]
    exact (Nat.and_two_pow_sub_one_eq_mod _ 2).trans halign
  obtain ⟨s', hend, hs'⟩ :=
    cycleEnd_no_trap l.writeBack (l.pc + 4) l.rval ((updateTimer s e).csrs .cyclel + 1)
  refine ⟨s', ?_, hs'⟩
  simp only [rv32imaStep, if_neg hawake, if_neg hirq, hpc, updateTimer_memOffset,
    updateTimer_memSize, if_neg hinside, if_neg hmask, hfetch, bind, Except.bind, hexec]
  rw [if_neg (by rw [htrap]; exact not_not.mpr rfl)]
  exact congrArg Except.ok hend

/-! ## Refinement -/

/-- The processor is about to execute an instruction: it is awake, takes no
interrupt, and its program counter is inside of the memory, at a multiple of 4
from the first byte. -/
structure Ready (s : CPUState) (e : Word) : Prop where
  zero : s.regs 0 = 0
  size : s.memSize.toNat % 4 = 0
  inside : (s.csrs .pc - s.memOffset).toNat < s.memSize.toNat
  aligned : (s.csrs .pc - s.memOffset).toNat % 4 = 0
  awake : ¬ asleep (updateTimer s e)
  uninterrupted : ¬ timerInterrupt (updateTimer s e)

theorem exec_eq {h : Hart} {i : Instr} (htarget : ∀ t, i.target h = some t → t.toNat % 4 = 0) :
    i.exec h = some { i.effect h with pc := (i.target h).getD (h.pc + 4) } := by
  rw [Instr.exec]
  split
  · next t ht => rw [if_pos (htarget t ht), ht]; rfl
  · next ht => rw [ht]; rfl

theorem set_regs_zero {h : Hart} (hzero : h.regs 0 = 0) (r : BitVec 5) (v : Word) :
    (h.set r v).regs 0 = 0 := by
  rw [Hart.set]
  split
  · exact hzero
  · next hr => exact (Function.update_of_ne (Ne.symm hr) _ _).trans hzero

theorem effect_regs_zero {h : Hart} (hzero : h.regs 0 = 0) (i : Instr) :
    (i.effect h).regs 0 = 0 := by
  cases i with
  | branch | store | fence => exact hzero
  | _ => exact set_regs_zero hzero _ _

theorem rv32imaStep_refines {s : CPUState} {e : Word} (hready : Ready s e) {i : Instr}
    (hd : decode (hartOf s).fetch = some i)
    (htarget : ∀ t, i.target (hartOf s) = some t → t.toNat % 4 = 0)
    (haddr : ∀ a, i.address (hartOf s) = some a →
      (a - s.memOffset).toNat < s.memSize.toNat - 3) :
    ∃ s' h', i.exec (hartOf s) = some h' ∧ rv32imaStep s e = .ok (s', 0) ∧ hartOf s' = h' ∧
      s'.regs 0 = 0 := by
  have hhart := hartOf_updateTimer s e
  have hregs : (updateTimer s e).regs = s.regs := congrArg Hart.regs hhart
  have hpc : (updateTimer s e).csrs .pc = s.csrs .pc := congrArg Hart.pc hhart
  have hfetch : (updateTimer s e).read32 (s.csrs .pc - s.memOffset).toNat =
      .ok (hartOf s).fetch := by
    have hword : (s.csrs .pc - s.memOffset).toNat + 3 < s.memSize.toNat := by
      have hin := hready.inside
      have halign := hready.aligned
      have hsize := hready.size
      omega
    rw [← updateTimer_memOffset s e, ← updateTimer_memSize s e] at hword
    have hread := read32_eq hword
    rwa [hhart, updateTimer_memOffset] at hread
  obtain ⟨l, hexec, htrap, hl⟩ : Refines (updateTimer s e) i
      (execute (updateTimer s e) ((updateTimer s e).csrs .pc) (hartOf s).fetch
        ((updateTimer s e).csrs .cyclel + 1)) := by
    apply execute_refines
    · rw [hregs]
      exact hready.zero
    · exact hd
    · rwa [hhart, updateTimer_memOffset, updateTimer_memSize]
  rw [hpc] at hexec hl
  rw [hhart] at hl
  obtain ⟨s', hstep, hs'⟩ := rv32imaStep_done hready.awake hready.uninterrupted hready.inside
    hready.aligned hfetch hexec htrap
  refine ⟨s', _, exec_eq htarget, hstep, hs'.trans hl, ?_⟩
  have hzero := congrArg (fun h => h.regs 0) (hs'.trans hl)
  exact hzero.trans (effect_regs_zero hready.zero i)

/-- `lh x5, 2(x6)` at the first address, of a negative number behind it. -/
def loadHalf : CPUState where
  regs := Function.update (fun _ => 0) 6 0x80000004
  csrs := Function.update (fun _ => 0) .pc 0x80000000
  mem := fun i => [0x83, 0x12, 0x23, 0x00, 0x00, 0x00, 0x00, 0x80].getD i 0
  memOffset := 0x80000000
  memSize := 12

theorem rv32imaStep_refines_loadHalf :
    ∃ s' h', (Instr.load .lh 5 6 2).exec (hartOf loadHalf) = some h' ∧
      rv32imaStep loadHalf 1 = .ok (s', 0) ∧ hartOf s' = h' ∧ s'.regs 0 = 0 := by
  apply rv32imaStep_refines
  · constructor <;> decide
  · decide
  · nofun
  · intro a ha
    cases ha
    decide

/-- `addi x1, x0, 1` at address 4, with a memory that starts at address 2. -/
def shiftedMemory : CPUState where
  regs := fun _ => 0
  csrs := Function.update (fun _ => 0) .pc 4
  mem := fun i => [0x00, 0x00, 0x93, 0x00, 0x10, 0x00, 0x00, 0x00].getD i 0
  memOffset := 2
  memSize := 8

/-- The emulator tests the alignment of the offset and not that of the address.
Here the address is a multiple of 4, but the instruction is not executed. -/
theorem shiftedMemory_misaligned :
    shiftedMemory.regs 0 = 0 ∧ shiftedMemory.memSize.toNat % 4 = 0 ∧
      4 ≤ shiftedMemory.memSize.toNat ∧ (shiftedMemory.csrs .pc).toNat % 4 = 0 ∧
      (shiftedMemory.csrs .pc - shiftedMemory.memOffset).toNat < shiftedMemory.memSize.toNat ∧
      ¬ asleep (updateTimer shiftedMemory 0) ∧ ¬ timerInterrupt (updateTimer shiftedMemory 0) ∧
      decode (hartOf shiftedMemory).fetch = some (.opImm .add 1 0 1) ∧
      ((Instr.opImm .add 1 0 1).exec (hartOf shiftedMemory)).map (fun h => h.regs 1) = some 1 ∧
      (rv32imaStep shiftedMemory 0).map (fun r => (r.1.regs 1, r.1.csrs .pc, r.1.csrs .mcause)) =
        .ok (0, 0, 0) := by
  decide

end OsCourse.Rv32
