import OsCourse.Rv32.Atomic
import OsCourse.Rv32.Reserve
import OsCourse.Rv32.Calls

/-!
# Programs

`main` loads a program at address 0, with a return address of 0, and calls `rv32ima_step`
until the program counter is 0 again or 10000 steps are made.

`Core.run` is the run of a program of RV32IMA in a memory of a given size, as the
instruction set prescribes it.  It is defined as long as the program executes legal
instructions of the memory, accesses data at addresses below the last three bytes and
executes a `SC.W` only with a reservation.  The emulator compares the address of every
access with `mem_size - 3`, also that of a byte, so that the bound is for all widths.  It
shows the same hart at every step of such a run (`Shows.step`), and `main` ends with the
hart of its end (`emulate_program`).
-/

namespace OsCourse.Rv32

open Isa

/-! ## The instruction set -/

namespace Isa

/-- A `SC.W` is executed with some reservation. -/
def AtomicInstr.paired (c : Core) : AtomicInstr → Bool
  | .sc _ _ _ => c.reservation.isSome
  | _ => true

/-- One instruction of a program in a memory of `size` bytes from address 0, with no access
that starts in the last three bytes. -/
def Core.step (size : Nat) (c : Core) : Option Core :=
  if c.hart.pc.toNat % 4 = 0 ∧ c.hart.pc.toNat < size then
    match decode c.hart.fetch with
    | some i =>
        if (i.address c.hart).all (fun a => a.toNat < size - 3) then
          (i.exec c.hart).map fun h => ⟨h, c.reservation⟩
        else none
    | none =>
        match decodeAtomic c.hart.fetch with
        | some i =>
            let a := i.address c.hart
            if a.toNat % 4 = 0 ∧ a.toNat < size - 3 ∧ i.paired c = true then some (i.exec c)
            else none
        | none => none
  else none

/-- At most `n` instructions, up to the return to address 0. -/
def Core.run (size : Nat) : Nat → Core → Option Core
  | 0, c => some c
  | n + 1, c => do
      let c ← c.step size
      if c.hart.pc = 0 then some c else Core.run size n c

end Isa

/-! ## What instructions leave alone -/

section Execute

variable {s : CPUState} {ir : Word} {i : Instr} {l : Locals}

theorem store_onlyMem {pc : Word}
    (hofs : (rs1 s ir + (immS ir).signExtend 32 - s.memOffset).toNat < s.memSize.toNat - 3)
    (h : store s pc ir = .ok (.done l)) : OnlyMem s l.state := by
  have haddy : (immS ir).signExtend 32 + (rs1 s ir - s.memOffset) =
      rs1 s ir + (immS ir).signExtend 32 - s.memOffset := by ring
  simp only [store, immS_bits, signExtend_12, haddy, if_neg (not_ge_memSize hofs)] at h
  split at h
  · obtain ⟨t, ht, h⟩ := bind_ok h
    cases h
    exact write8_ok ht
  · obtain ⟨t, ht, h⟩ := bind_ok h
    cases h
    exact write16_ok ht
  · obtain ⟨t, ht, h⟩ := bind_ok h
    cases h
    exact write32_ok ht
  · cases h
    exact ⟨_, rfl⟩

/-- An instruction that accesses the memory only inside changes nothing but the memory,
before its result is written. -/
theorem execute_onlyMem {cycle : Word} (hzero : s.regs 0 = 0) (hd : decode ir = some i)
    (haddr : ∀ a, i.address (hartOf s) = some a → (a - s.memOffset).toNat < s.memSize.toNat - 3)
    (h : execute s (s.csrs .pc) ir cycle = .ok (.done l)) : OnlyMem s l.state := by
  have hsame : OnlyMem s s := ⟨_, rfl⟩
  simp only [decode] at hd
  split at hd
  case h_1 hop =>
    simp only [execute, opcode_eq, hop] at h
    cases h
    exact hsame
  case h_2 hop =>
    simp only [execute, opcode_eq, hop] at h
    cases h
    exact hsame
  case h_3 hop =>
    simp only [execute, opcode_eq, hop] at h
    cases h
    exact hsame
  case h_4 hop =>
    simp only [execute, opcode_eq, hop] at h
    cases h
    exact hsame
  case h_5 hop =>
    obtain ⟨cond, hcond, rfl⟩ := Option.map_eq_some_iff.mp hd
    simp only [execute, opcode_eq, hop, branch_eq hcond] at h
    cases h
    exact hsame
  case h_6 hop =>
    obtain ⟨width, hwidth, rfl⟩ := Option.map_eq_some_iff.mp hd
    have hofs := haddr _ rfl
    rw [get_hartOf hzero, ← rs1_eq, ← immSe_eq] at hofs
    simp only [execute, opcode_eq, hop, load_eq hwidth hofs] at h
    cases h
    exact hsame
  case h_7 hop =>
    obtain ⟨width, hwidth, rfl⟩ := Option.map_eq_some_iff.mp hd
    simp only [execute, opcode_eq, hop] at h
    have hofs := haddr _ rfl
    rw [get_hartOf hzero, ← rs1_eq] at hofs
    exact store_onlyMem hofs h
  case h_8 hop =>
    simp only [execute, opcode_eq, hop] at h
    obtain ⟨v, hv⟩ := @op_eq s (s.csrs .pc) ir
    rw [hv] at h
    cases h
    exact hsame
  case h_9 hop =>
    simp only [execute, opcode_eq, hop] at h
    obtain ⟨v, hv⟩ := @op_eq s (s.csrs .pc) ir
    rw [hv] at h
    cases h
    exact hsame
  case h_10 hop =>
    simp only [execute, opcode_eq, hop] at h
    cases h
    exact hsame
  case h_11 => cases hd

/-- Every legal instruction that accesses the memory only inside ends as prescribed. -/
theorem execute_base (cycle : Word) (hzero : s.regs 0 = 0) (hd : decode ir = some i)
    (haddr : ∀ a, i.address (hartOf s) = some a →
      (a - s.memOffset).toNat < s.memSize.toNat - 3) :
    ∃ l, execute s (s.csrs .pc) ir cycle = .ok (.done l) ∧
      Ends s l { i.effect (hartOf s) with pc := (i.target (hartOf s)).getD (s.csrs .pc + 4) } ∧
      slot l.state = slot s := by
  obtain ⟨l, hexec, htrap, hhart⟩ := execute_refines cycle hzero hd haddr
  obtain ⟨m, hm⟩ := execute_onlyMem hzero hd haddr hexec
  refine ⟨l, hexec, ⟨htrap, hhart, ?_, ?_, ?_, ?_⟩, ?_⟩ <;> rw [hm]
  · intro r _
    rfl
  · rfl

end Execute

theorem exec_some {h h' : Hart} {i : Instr} (hexec : i.exec h = some h') :
    h' = { i.effect h with pc := (i.target h).getD (h.pc + 4) } := by
  rw [Instr.exec] at hexec
  split at hexec
  · next t ht =>
    split at hexec
    · cases hexec
      rw [ht]
      rfl
    · cases hexec
  · next ht =>
    cases hexec
    rw [ht]
    rfl

theorem exec_regs_zero {h h' : Hart} {i : Instr} (hzero : h.regs 0 = 0)
    (hexec : i.exec h = some h') : h'.regs 0 = 0 := by
  rw [exec_some hexec]
  exact effect_regs_zero hzero i

theorem atomic_regs_zero {c : Core} (hzero : c.hart.regs 0 = 0) (i : AtomicInstr) :
    (i.exec c).hart.regs 0 = 0 := by
  have hset (mem : Word → BitVec 8) (r : BitVec 5) (v : Word) :
      (Hart.set { c.hart with mem := mem } r v).regs 0 = 0 := by
    apply set_regs_zero
    exact hzero
  cases i with
  | lr => exact hset _ _ _
  | amo => exact hset _ _ _
  | sc =>
      simp only [AtomicInstr.exec]
      split <;> exact hset _ _ _

/-! ## The emulator shows the hart -/

/-- The emulator shows a core: its hart, with no interrupt to come, and its reservation. -/
structure Shows (size : Nat) (s : CPUState) (c : Core) : Prop where
  hart : hartOf s = c.hart
  zero : s.regs 0 = 0
  offset : s.memOffset = 0
  size : s.memSize.toNat = size
  timerl : s.csrs .timermatchl = 0
  timerh : s.csrs .timermatchh = 0
  awake : s.csrs .extraflags &&& 4 = 0
  slot : Holds s c.reservation

namespace Shows

variable {size : Nat} {s : CPUState} {c c' : Core} {e : Word}

theorem not_due (h : Shows size s c) : ¬ TimerDue (updateTimer s e) := by
  intro hdue
  apply hdue.1
  rw [timermatch_updateTimer, timermatch, h.timerl, h.timerh]
  rfl

theorem updateTimer (h : Shows size s c) (e : Word) : Shows size (updateTimer s e) c := by
  obtain ⟨hflags, -⟩ := updateTimer_not_due s e h.not_due
  refine ⟨(hartOf_updateTimer s e).trans h.hart, ?_, ?_, ?_, ?_, ?_, ?_, ?_⟩
  · rw [updateTimer_regs, h.zero]
  · rw [updateTimer_memOffset, h.offset]
  · rw [updateTimer_memSize, h.size]
  · rw [updateTimer_csrs s e (by decide), h.timerl]
  · rw [updateTimer_csrs s e (by decide), h.timerh]
  · rw [hflags, h.awake]
  · intro a ha
    rw [Rv32.slot, hflags, updateTimer_memOffset]
    exact h.slot a ha

/-- The emulator fetches the word that the hart fetches. -/
theorem fetches (h : Shows size s c) (hsize : size % 4 = 0) (halign : c.hart.pc.toNat % 4 = 0)
    (hin : c.hart.pc.toNat < size) (e : Word) :
    Fetches (Rv32.updateTimer s e) c.hart.fetch := by
  have ht := h.updateTimer e
  have hpc : (Rv32.updateTimer s e).csrs .pc = c.hart.pc := congrArg Hart.pc ht.hart
  have hsub : (Rv32.updateTimer s e).csrs .pc - (Rv32.updateTimer s e).memOffset = c.hart.pc := by
    rw [hpc, ht.offset]
    exact BitVec.sub_zero _
  refine ⟨?_, ?_, ?_, ?_, ?_⟩
  · rw [asleep, not_not]
    exact ht.awake
  · rw [timerInterrupt_iff]
    exact fun hirq => h.not_due hirq.1
  · rw [hsub, ge_iff_le, BitVec.le_def, ht.size]
    exact Nat.not_le.mpr hin
  · rw [hsub]
    apply BitVec.eq_of_toNat_eq
    rw [BitVec.toNat_and]
    exact (Nat.and_two_pow_sub_one_eq_mod _ 2).trans halign
  · have hread := read32_eq (s := Rv32.updateTimer s e) (a := (Rv32.updateTimer s e).csrs .pc)
      (by rw [hsub, ht.size]; omega)
    rw [hread, ht.hart, hpc]
    rfl

/-- The end of a step keeps what the `switch` has left. -/
theorem finish {l : Locals} {h' : Hart} {r : Option Word} (h : Shows size s c) (hl : Ends s l h')
    (hzero : h'.regs 0 = 0) (hr : Holds l.state r) (cycle : Word) :
    ∃ s', cycleEnd (if l.rdid ≠ 0 then l.state.setReg l.rdid l.rval else l.state) (l.pc + 4)
      l.rval 0 cycle = (s', 0) ∧ Shows size s' ⟨h', r⟩ := by
  obtain ⟨s', hend, hhart⟩ := cycleEnd_no_trap l.writeBack (l.pc + 4) l.rval cycle
  have hkeeps := writeBack_keeps l cycle
  obtain ⟨-, -, hcsrs, -⟩ := cycleEnd_keeps l.writeBack (l.pc + 4) l.rval cycle
  rw [Locals.writeBack] at hend
  rw [Locals.writeBack, hend] at hcsrs
  rw [hend] at hkeeps
  have hsame (r : Csr) (hr : r ∉ [Csr.cycleh, .cyclel, .pc]) : s'.csrs r = l.state.csrs r := by
    rw [hcsrs r hr]
    split <;> rfl
  have hs' : hartOf s' = h' := hhart.trans hl.hart
  refine ⟨s', hend, hs', ?_, ?_, ?_, ?_, ?_, ?_, ?_⟩
  · rw [← hzero, ← hs']
    rfl
  · rw [hkeeps.memOffset, hl.offset, h.offset]
  · rw [hkeeps.memSize, hl.size, h.size]
  · rw [hsame _ (by decide), hl.csrs _ (by decide), h.timerl]
  · rw [hsame _ (by decide), hl.csrs _ (by decide), h.timerh]
  · rw [hsame _ (by decide), hl.awake, h.awake]
  · intro a ha
    rw [hkeeps.slot, hkeeps.memOffset]
    exact hr a ha

/-- One instruction of the program is one call of `rv32ima_step`. -/
theorem step (h : Shows size s c) (hsize : size % 4 = 0) (hle : size ≤ 2 ^ 29) (e : Word)
    (hstep : c.step size = some c') :
    ∃ s', rv32imaStep s e = .ok (s', 0) ∧ Shows size s' c' := by
  have ht := h.updateTimer e
  have hreg : c.hart.regs 0 = 0 := ht.hart ▸ ht.zero
  have hoff (a : Word) : a - (Rv32.updateTimer s e).memOffset = a := by
    rw [ht.offset]
    exact BitVec.sub_zero _
  rw [Core.step] at hstep
  split at hstep
  case isFalse => cases hstep
  case isTrue hpc =>
  have hf := h.fetches hsize hpc.1 hpc.2 e
  split at hstep
  · next i hd =>
    split at hstep
    case isFalse => cases hstep
    case isTrue haddr =>
    obtain ⟨h', hexec', rfl⟩ := Option.map_eq_some_iff.mp hstep
    obtain ⟨l, hexec, hl, hslot⟩ := execute_base ((Rv32.updateTimer s e).csrs .cyclel + 1)
      ht.zero hd (by
        intro a ha
        rw [ht.hart] at ha
        rw [hoff, ht.size]
        simpa [ha] using haddr)
    rw [ht.hart, show (Rv32.updateTimer s e).csrs .pc = c.hart.pc from congrArg Hart.pc ht.hart,
      ← exec_some hexec'] at hl
    obtain ⟨s', hend, hs'⟩ := ht.finish hl (exec_regs_zero hreg hexec')
      (r := c.reservation) (fun a ha => by rw [hslot, hl.offset]; exact ht.slot a ha)
      ((Rv32.updateTimer s e).csrs .cyclel + 1)
    exact ⟨s', (hf.step_done hexec hl.trap).trans (congrArg Except.ok hend), hs'⟩
  · split at hstep
    case h_2 => cases hstep
    case h_1 i hd =>
    dsimp only at hstep
    split at hstep
    case isFalse => cases hstep
    case isTrue haddr =>
    cases hstep
    obtain ⟨-, hin, hpaired⟩ := haddr
    obtain ⟨l, hexec, hl, hr⟩ := execute_atomic ((Rv32.updateTimer s e).csrs .cyclel + 1) ht.zero hd
      (by rw [ht.hart, hoff, ht.size]; exact hin) (by rw [ht.size]; exact hle) ht.slot
      (by rintro rd rs1 rs2 rfl; exact hpaired)
    rw [ht.hart] at hl hr
    obtain ⟨s', hend, hs'⟩ := ht.finish hl (atomic_regs_zero hreg i) hr
      ((Rv32.updateTimer s e).csrs .cyclel + 1)
    exact ⟨s', (hf.step_done hexec hl.trap).trans (congrArg Except.ok hend), hs'⟩

/-- The loop of `main` makes the run of the program. -/
theorem run {n : Nat} (h : Shows size s c) (hsize : size % 4 = 0) (hle : size ≤ 2 ^ 29)
    (hrun : c.run size n = some c') (past : List Access) :
    ∃ past' s', emulate n past s = .ok (past', s') ∧ Shows size s' c' := by
  induction n generalizing s c past with
  | zero =>
      cases hrun
      exact ⟨past, s, rfl, h⟩
  | succ n ih =>
      rw [Core.run] at hrun
      obtain ⟨d, hd, hrun⟩ := Option.bind_eq_some_iff.mp hrun
      obtain ⟨t, ht, hshows⟩ := h.step hsize hle 1 hd
      have hpc : t.csrs .pc = d.hart.pc := congrArg Hart.pc hshows.hart
      simp only [emulate, ht, bind, Except.bind, true_and]
      rw [hpc]
      split at hrun
      · next hret =>
        cases hrun
        exact ⟨_, t, by rw [if_neg (not_not.mpr hret)], hshows⟩
      · next hret =>
        rw [if_pos hret]
        exact ih hshows hrun _

end Shows

theorem shows_boot (image : List (BitVec 8)) (margs : List Word) :
    Shows ramSize (boot image margs) ⟨hartOf (boot image margs), none⟩ := by
  refine ⟨rfl, rfl, rfl, rfl, rfl, rfl, BitVec.zero_and, ?_⟩
  intro a h
  cases h

/-- `main` runs programs that leave the last three bytes alone as the instruction set
prescribes it. -/
theorem emulate_program {climit : Nat} {image : List (BitVec 8)} {margs : List Word} {c : Core}
    (h : Core.run ramSize climit ⟨hartOf (boot image margs), none⟩ = some c) :
    ∃ past s, emulate climit [] (boot image margs) = .ok (past, s) ∧ hartOf s = c.hart := by
  obtain ⟨past, s, hemulate, hs⟩ := (shows_boot image margs).run (by decide) (by decide) h []
  exact ⟨past, s, hemulate, hs.hart⟩

/-- `addi a2, x0, 35`, `amoadd.w a0, a2, (a1)`, `lw a0, 0(a1)`, `ret`. -/
def addArgument : List (BitVec 8) :=
  [0x13, 0x06, 0x30, 0x02, 0x2f, 0xa5, 0xc5, 0x00, 0x03, 0xa5, 0x05, 0x00, 0x67, 0x80, 0x00, 0x00]

theorem emulate_addArgument :
    ∃ past s, emulate 10000 [] (boot addArgument [7]) = .ok (past, s) ∧ s.regs 10 = 42 := by
  have hrun : (Core.run ramSize 10000 ⟨hartOf (boot addArgument [7]), none⟩).map
      (fun c => c.hart.regs 10) = some 42 := by decide +kernel
  obtain ⟨c, hc, ha0⟩ := Option.map_eq_some_iff.mp hrun
  obtain ⟨past, s, hemulate, hs⟩ := emulate_program hc
  exact ⟨past, s, hemulate, (congrArg (fun h => h.regs 10) hs).trans ha0⟩

end OsCourse.Rv32
