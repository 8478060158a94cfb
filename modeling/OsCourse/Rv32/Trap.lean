import OsCourse.Lib.Except
import OsCourse.Rv32.Step
import Mathlib.Tactic

/-!
# Traps

What a step of the emulator can do is said once by `Outcome`, from the state after
the update of the timer: sleep, take the timer interrupt, fail to fetch a word, or
execute the word fetched.

`exception` is the table of the synchronous exceptions of an instruction, read off
the word and the state before it.  `Executed` lists what an instruction can do, and
`execute_executed` says that the `switch` raises what the table says.  An instruction
that raises something has changed nothing before, so traps are precise.
-/

namespace OsCourse.Rv32

/-! ## Outcomes of a step -/

/-- The processor fetches and executes the word `ir`. -/
structure Fetches (s : CPUState) (ir : Word) : Prop where
  awake : ¬ asleep s
  uninterrupted : ¬ timerInterrupt s
  inside : ¬ s.csrs .pc - s.memOffset ≥ s.memSize
  aligned : (s.csrs .pc - s.memOffset) &&& 3 = 0
  word : s.read32 (s.csrs .pc - s.memOffset).toNat = .ok ir

/-- What the step does after the update of the timer. -/
inductive Outcome (s : CPUState) : CPUState × Word → Prop where
  | asleep (h : asleep s) : Outcome s (s, 1)
  | interrupt (awake : ¬ Rv32.asleep s) (h : timerInterrupt s) :
      Outcome s (cycleEnd s (s.csrs .pc - 4) 0 0x80000007 (s.csrs .cyclel))
  | fetchAccess (awake : ¬ Rv32.asleep s) (quiet : ¬ timerInterrupt s)
      (h : s.csrs .pc - s.memOffset ≥ s.memSize) :
      Outcome s (cycleEnd s (s.csrs .pc) 0 (1 + 1) (s.csrs .cyclel + 1))
  | misaligned (awake : ¬ Rv32.asleep s) (quiet : ¬ timerInterrupt s)
      (inside : ¬ s.csrs .pc - s.memOffset ≥ s.memSize)
      (h : (s.csrs .pc - s.memOffset) &&& 3 ≠ 0) :
      Outcome s (cycleEnd s (s.csrs .pc) 0 (1 + 0) (s.csrs .cyclel + 1))
  | ret {ir s' code} (fetch : Fetches s ir)
      (h : execute s (s.csrs .pc) ir (s.csrs .cyclel + 1) = .ok (.ret s' code)) :
      Outcome s (s', code)
  | trap {ir l} (fetch : Fetches s ir)
      (h : execute s (s.csrs .pc) ir (s.csrs .cyclel + 1) = .ok (.done l)) (htrap : l.trap ≠ 0) :
      Outcome s (cycleEnd l.state l.pc l.rval l.trap (s.csrs .cyclel + 1))
  | done {ir l} (fetch : Fetches s ir)
      (h : execute s (s.csrs .pc) ir (s.csrs .cyclel + 1) = .ok (.done l)) (htrap : l.trap = 0) :
      Outcome s (cycleEnd (if l.rdid ≠ 0 then l.state.setReg l.rdid l.rval else l.state)
        (l.pc + 4) l.rval 0 (s.csrs .cyclel + 1))

theorem rv32imaStep_outcome {s : CPUState} {e : Word} {r : CPUState × Word}
    (h : rv32imaStep s e = .ok r) : Outcome (updateTimer s e) r := by
  unfold rv32imaStep at h
  generalize updateTimer s e = s at h ⊢
  dsimp only at h
  split at h
  next hasleep => exact Except.ok.inj h ▸ .asleep hasleep
  next hawake =>
    split at h
    next hirq => exact Except.ok.inj h ▸ .interrupt hawake hirq
    next hquiet =>
      split at h
      next hout => exact Except.ok.inj h ▸ .fetchAccess hawake hquiet hout
      next hin =>
        split at h
        next hmis => exact Except.ok.inj h ▸ .misaligned hawake hquiet hin hmis
        next halign =>
          obtain ⟨ir, hread, h⟩ := bind_ok h
          obtain ⟨flow, hexec, h⟩ := bind_ok h
          have hfetch : Fetches s ir := ⟨hawake, hquiet, hin, not_not.mp halign, hread⟩
          cases flow with
          | ret s' code => exact Except.ok.inj h ▸ .ret hfetch hexec
          | done l =>
              dsimp only at h
              split at h
              next htrap => exact Except.ok.inj h ▸ .trap hfetch hexec htrap
              next htrap => exact Except.ok.inj h ▸ .done hfetch hexec (not_not.mp htrap)

/-- The step that executes the word to the end of the `switch`. -/
theorem Fetches.step_done {s : CPUState} {e ir : Word} {l : Locals}
    (hf : Fetches (updateTimer s e) ir)
    (hexec : execute (updateTimer s e) ((updateTimer s e).csrs .pc) ir
      ((updateTimer s e).csrs .cyclel + 1) = .ok (.done l)) (htrap : l.trap = 0) :
    rv32imaStep s e = .ok (cycleEnd (if l.rdid ≠ 0 then l.state.setReg l.rdid l.rval else l.state)
      (l.pc + 4) l.rval 0 ((updateTimer s e).csrs .cyclel + 1)) := by
  simp only [rv32imaStep, if_neg hf.awake, if_neg hf.uninterrupted, if_neg hf.inside,
    if_neg (not_not.mpr hf.aligned), hf.word, bind, Except.bind, hexec]
  exact if_neg (not_not.mpr htrap)

/-- The step that executes a word that returns. -/
theorem Fetches.step_ret {s s' : CPUState} {e ir code : Word} (hf : Fetches (updateTimer s e) ir)
    (hexec : execute (updateTimer s e) ((updateTimer s e).csrs .pc) ir
      ((updateTimer s e).csrs .cyclel + 1) = .ok (.ret s' code)) :
    rv32imaStep s e = .ok (s', code) := by
  simp only [rv32imaStep, if_neg hf.awake, if_neg hf.uninterrupted, if_neg hf.inside,
    if_neg (not_not.mpr hf.aligned), hf.word, bind, Except.bind, hexec]

/-! ## Exceptions -/

/-- The causes of a trap. -/
inductive Cause where
  | instructionMisaligned | instructionAccess | illegalInstruction | breakpoint
  | loadAccess | storeAccess | environmentCallFromU | environmentCallFromM
  | machineTimer
deriving DecidableEq

/-- The code of a cause in `MCAUSE`. -/
def Cause.code : Cause → Word
  | .instructionMisaligned => 0
  | .instructionAccess => 1
  | .illegalInstruction => 2
  | .breakpoint => 3
  | .loadAccess => 5
  | .storeAccess => 7
  | .environmentCallFromU => 8
  | .environmentCallFromM => 11
  | .machineTimer => 0x80000007

/-- The addresses of devices. -/
def isDevice (a : Word) : Prop := a ≥ 0x10000000 ∧ a < 0x12000000

instance (a : Word) : Decidable (isDevice a) := inferInstanceAs (Decidable (_ ∧ _))

/-- The offset in the memory that a load accesses. -/
def loadOffset (s : CPUState) (ir : Word) : Word := rs1 s ir + immSe ir - s.memOffset

/-- The offset in the memory that a store accesses. -/
def storeOffset (s : CPUState) (ir : Word) : Word :=
  let imm := ((ir >>> 7) &&& 0x1f) ||| ((ir &&& 0xfe000000) >>> 20)
  (if imm &&& 0x800 ≠ 0 then imm ||| 0xfffff000 else imm) + (rs1 s ir - s.memOffset)

theorem code_add_one_ne (c : Cause) : c.code + 1 ≠ 0 := by
  cases c <;> decide

/-- The number of an exception, as the variable `trap` has it, is not that of an
interrupt. -/
theorem Cause.number {c : Cause} (h : c ≠ .machineTimer) :
    ¬ (c.code + 1) &&& 0x80000000 ≠ 0 ∧
      (if (c.code + 1) &&& 0x80000000 ≠ 0 then c.code + 1 else c.code + 1 - 1) = c.code := by
  cases c with
  | machineTimer => exact absurd rfl h
  | _ => decide

/-- The exception of an access at an offset that is neither in the memory nor in a
device, or else that of a width that does not exist. -/
def accessException (s : CPUState) (ofs : Word) (fault : Cause) (width : Option Cause) :
    Option Cause :=
  if ofs ≥ s.memSize - 3 then
    if isDevice (ofs + s.memOffset) then none else some fault
  else width

/-- The exception of a `SYSTEM` instruction.  `WFI` and `MRET` raise none. -/
def systemException (s : CPUState) (ir : Word) : Option Cause :=
  if funct3 ir &&& 3 ≠ 0 then none
  else if funct3 ir = 0 then
    if ir >>> 20 = 0x105 ∨ (ir >>> 20) &&& 0xff = 0x02 then none
    else if ir >>> 20 = 0 then
      some (if s.csrs .extraflags &&& 3 ≠ 0 then .environmentCallFromM else .environmentCallFromU)
    else if ir >>> 20 = 1 then some .breakpoint
    else some .illegalInstruction
  else some .illegalInstruction

/-- The exception of an atomic instruction on a word of the memory. -/
def amoException (ir : Word) : Option Cause :=
  match ((ir >>> 27) &&& 0x1f).toNat with
  | 0 | 1 | 2 | 3 | 4 | 8 | 12 | 16 | 20 | 24 | 28 => none
  | _ => some .illegalInstruction

/-- The exception that the instruction `ir` raises. -/
def exception (s : CPUState) (ir : Word) : Option Cause :=
  match (ir &&& 0x7f).toNat with
  | 0x37 | 0x17 | 0x6f | 0x67 | 0x13 | 0x33 | 0x0f => none
  | 0x63 =>
      match (funct3 ir).toNat with
      | 0 | 1 | 4 | 5 | 6 | 7 => none
      | _ => some .illegalInstruction
  | 0x03 => accessException s (loadOffset s ir) .loadAccess
      (match (funct3 ir).toNat with
      | 0 | 1 | 2 | 4 | 5 => none
      | _ => some .illegalInstruction)
  | 0x23 => accessException s (storeOffset s ir) .storeAccess
      (match (funct3 ir).toNat with
      | 0 | 1 | 2 => none
      | _ => some .illegalInstruction)
  | 0x73 => systemException s ir
  | 0x2f =>
      -- Atomic instructions do not reach devices.
      if rs1 s ir - s.memOffset ≥ s.memSize - 3 then some .storeAccess else amoException ir
  | _ => some .illegalInstruction

theorem exception_ne_timer {s : CPUState} {ir : Word} : exception s ir ≠ some .machineTimer := by
  unfold exception accessException systemException amoException
  repeat' split
  all_goals simp

/-! ## What an instruction can do -/

theorem csrs_setCsr (s : CPUState) (c r : Csr) (v : Word) :
    (s.setCsr c v).csrs r = if r = c then v else s.csrs r := by
  simp [CPUState.setCsr, Function.update_apply]

/-- Nothing but the memory has changed. -/
def OnlyMem (s t : CPUState) : Prop := ∃ m, t = { s with mem := m }

theorem OnlyMem.trans {s t u : CPUState} (h : OnlyMem s t) (h' : OnlyMem t u) : OnlyMem s u := by
  obtain ⟨m, rfl⟩ := h
  obtain ⟨m', rfl⟩ := h'
  exact ⟨m', rfl⟩

section
variable {s t : CPUState} {i : Nat}

theorem write8_ok {v : BitVec 8} (h : s.write8 i v = .ok t) : OnlyMem s t := by
  unfold CPUState.write8 at h
  split at h
  · exact ⟨_, (Except.ok.inj h).symm⟩
  · cases h

theorem write16_ok {v : Word} (h : s.write16 i v = .ok t) : OnlyMem s t := by
  obtain ⟨s₁, h₁, h₂⟩ := bind_ok h
  exact (write8_ok h₁).trans (write8_ok h₂)

theorem write32_ok {v : Word} (h : s.write32 i v = .ok t) : OnlyMem s t := by
  obtain ⟨s₁, h₁, h⟩ := bind_ok h
  obtain ⟨s₂, h₂, h⟩ := bind_ok h
  obtain ⟨s₃, h₃, h₄⟩ := bind_ok h
  exact (write8_ok h₁).trans ((write8_ok h₂).trans ((write8_ok h₃).trans (write8_ok h₄)))

end

/-- The ways in which the `switch` is left, with the exception raised. -/
inductive Executed (s : CPUState) (pc ir cycle : Word) : Option Cause → Flow → Prop where
  /-- An exception, before anything has changed. -/
  | raised (c : Cause) (rd v : Word) :
      Executed s pc ir cycle (some c) (.done ⟨s, pc, rd, v, c.code + 1⟩)
  | plain (pc' rd v : Word) : Executed s pc ir cycle none (.done ⟨s, pc', rd, v, 0⟩)
  | stored (m : Nat → BitVec 8) :
      Executed s pc ir cycle none (.done ⟨{ s with mem := m }, pc, 0, 0, 0⟩)
  /-- A store to the match register of the timer. -/
  | timermatch (c : Csr) (hc : c = .timermatchl ∨ c = .timermatchh) (v : Word) :
      Executed s pc ir cycle none (.done ⟨s.setCsr c v, pc, 0, 0, 0⟩)
  /-- A store to the device that ends the program. -/
  | syscon (code : Word) : Executed s pc ir cycle none (.ret (s.setCsr .pc (pc + 4)) code)
  | csr : Executed s pc ir cycle none (.done (csrOp s pc ir cycle))
  | wfi (v w : Word) (hw : w = s.csrs .extraflags ||| 4) : Executed s pc ir cycle none
      (.ret (((s.setCsr .mstatus v).setCsr .extraflags w).setCsr .pc (pc + 4)) 1)
  | mret : Executed s pc ir cycle none (.done (mret s))
  /-- An atomic instruction on a word of the memory. -/
  | atomic (hop : (ir &&& 0x7f).toNat = 0x2f) (hin : ¬ rs1 s ir - s.memOffset ≥ s.memSize - 3)
      (m : Nat → BitVec 8) (word : Word) : Executed s pc ir cycle none
      (.done ⟨{ s.setCsr .extraflags
          (amoOp s ir (rs1 s ir - s.memOffset) (rs2 s ir) word).2.2.1 with mem := m },
        pc, rdid ir, (amoOp s ir (rs1 s ir - s.memOffset) (rs2 s ir) word).1, 0⟩)

section
variable {s : CPUState} {pc ir cycle : Word}

theorem branch_executed :
    Executed s pc ir cycle (match (funct3 ir).toNat with
      | 0 | 1 | 4 | 5 | 6 | 7 => none
      | _ => some .illegalInstruction) (.done (branch s pc ir)) := by
  unfold branch
  generalize (funct3 ir).toNat = f
  rcases f with _ | _ | _ | _ | _ | _ | _ | _ | f
  all_goals first | exact .plain _ _ _ | exact .raised _ _ _

/-- An access outside of the memory and of the devices raises its fault. -/
theorem accessException_fault (ofs : Word) {fault : Cause} {width : Option Cause}
    (hout : ofs ≥ s.memSize - 3) (hdev : ¬ isDevice (ofs + s.memOffset)) :
    accessException s ofs fault width = some fault := by
  rw [accessException, if_pos hout, if_neg hdev]

theorem accessException_device (ofs : Word) {fault : Cause} {width : Option Cause}
    (hout : ofs ≥ s.memSize - 3) (hdev : isDevice (ofs + s.memOffset)) :
    accessException s ofs fault width = none := by
  rw [accessException, if_pos hout, if_pos hdev]

theorem accessException_memory (ofs : Word) {fault : Cause} {width : Option Cause}
    (hin : ¬ ofs ≥ s.memSize - 3) : accessException s ofs fault width = width := if_neg hin

theorem load_executed {l : Locals} (h : load s pc ir = .ok l) :
    Executed s pc ir cycle (accessException s (loadOffset s ir) .loadAccess
      (match (funct3 ir).toNat with
      | 0 | 1 | 2 | 4 | 5 => none
      | _ => some .illegalInstruction)) (.done l) := by
  unfold load at h
  dsimp only at h
  split at h
  next hout =>
    split at h
    next hdev =>
      rw [accessException_device (loadOffset s ir) hout hdev]
      repeat' split at h
      all_goals exact Except.ok.inj h ▸ .plain _ _ _
    next hdev =>
      rw [accessException_fault (loadOffset s ir) hout hdev]
      exact Except.ok.inj h ▸ .raised .loadAccess _ _
  next hin =>
    rw [accessException_memory (loadOffset s ir) hin]
    generalize (funct3 ir).toNat = f at h ⊢
    rcases f with _ | _ | _ | _ | _ | _ | f
    all_goals first
      | exact Except.ok.inj h ▸ .raised .illegalInstruction _ _
      | obtain ⟨v, -, hv⟩ := bind_ok h
        exact Except.ok.inj hv ▸ .plain _ _ _

theorem store_executed {flow : Flow} (h : store s pc ir = .ok flow) :
    Executed s pc ir cycle (accessException s (storeOffset s ir) .storeAccess
      (match (funct3 ir).toNat with
      | 0 | 1 | 2 => none
      | _ => some .illegalInstruction)) flow := by
  generalize hofs : storeOffset s ir = ofs
  unfold storeOffset at hofs
  unfold store at h
  dsimp only at h hofs
  rw [hofs] at h
  split at h
  next hout =>
    split at h
    next hdev =>
      rw [accessException_device ofs hout hdev]
      split at h
      next => exact Except.ok.inj h ▸ .timermatch _ (.inr rfl) _
      next =>
        split at h
        next => exact Except.ok.inj h ▸ .timermatch _ (.inl rfl) _
        next =>
          split at h
          next => exact Except.ok.inj h ▸ .syscon _
          next => exact Except.ok.inj h ▸ .plain _ _ _
    next hdev =>
      rw [accessException_fault ofs hout hdev]
      exact Except.ok.inj h ▸ .raised .storeAccess _ _
  next hin =>
    rw [accessException_memory ofs hin]
    generalize (funct3 ir).toNat = f at h ⊢
    rcases f with _ | _ | _ | f
    · obtain ⟨t, ht, h⟩ := bind_ok h
      obtain ⟨m, rfl⟩ := write8_ok ht
      exact Except.ok.inj h ▸ .stored m
    · obtain ⟨t, ht, h⟩ := bind_ok h
      obtain ⟨m, rfl⟩ := write16_ok ht
      exact Except.ok.inj h ▸ .stored m
    · obtain ⟨t, ht, h⟩ := bind_ok h
      obtain ⟨m, rfl⟩ := write32_ok ht
      exact Except.ok.inj h ▸ .stored m
    · exact Except.ok.inj h ▸ .raised .illegalInstruction _ _

theorem system_executed :
    Executed s pc ir cycle (systemException s ir) (system s pc ir cycle) := by
  unfold system systemException
  dsimp only
  by_cases hcsr : funct3 ir &&& 3 ≠ 0
  · rw [if_pos hcsr, if_pos hcsr]
    exact .csr
  rw [if_neg hcsr, if_neg hcsr]
  by_cases hzero : funct3 ir = 0
  · rw [if_pos hzero, if_pos hzero]
    by_cases hwfi : ir >>> 20 = 0x105
    · rw [if_pos (.inl hwfi), if_pos hwfi]
      exact .wfi _ _ (by simp [csrs_setCsr])
    rw [if_neg hwfi]
    by_cases hmret : (ir >>> 20) &&& 0xff = 0x02
    · rw [if_pos (.inr hmret), if_pos hmret]
      exact .mret
    rw [if_neg (not_or.mpr ⟨hwfi, hmret⟩), if_neg hmret]
    by_cases hcall : ir >>> 20 = 0
    · rw [if_pos hcall, if_pos hcall]
      split <;> exact .raised _ _ _
    · rw [if_neg hcall, if_neg hcall]
      split <;> exact .raised _ _ _
  · rw [if_neg hzero, if_neg hzero]
    exact .raised _ _ _

/-- `SC.W` stores and returns 0 when the slot is that of its address. -/
theorem amoOp_sc (h : ((ir >>> 27) &&& 0x1f).toNat = 3) (addr rs2 rval : Word) :
    amoOp s ir addr rs2 rval =
      if s.csrs .extraflags >>> 3 ≠ addr &&& 0x1fffffff then (1, none, s.csrs .extraflags, 0)
      else (0, some rs2, s.csrs .extraflags, 0) := by
  unfold amoOp
  rw [h]
  rfl

/-- An atomic instruction that raises an exception neither writes nor changes the
flags. -/
theorem amoOp_trap (addr rs2 rval : Word) :
    (amoException ir = none ∧ (amoOp s ir addr rs2 rval).2.2.2 = 0) ∨
    (amoException ir = some .illegalInstruction ∧
      amoOp s ir addr rs2 rval = (rval, none, s.csrs .extraflags, 2 + 1)) := by
  by_cases hsc : ((ir >>> 27) &&& 0x1f).toNat = 3
  · refine .inl ⟨by rw [amoException, hsc]; rfl, ?_⟩
    rw [amoOp_sc hsc]
    split <;> rfl
  · unfold amoOp amoException
    split <;> simp_all

theorem amo_executed {l : Locals} (hop : (ir &&& 0x7f).toNat = 0x2f) (h : amo s pc ir = .ok l) :
    Executed s pc ir cycle (if rs1 s ir - s.memOffset ≥ s.memSize - 3 then some .storeAccess
      else amoException ir) (.done l) := by
  unfold amo at h
  dsimp only at h
  split at h
  next hout =>
    rw [if_pos hout]
    exact Except.ok.inj h ▸ .raised .storeAccess _ _
  next hin =>
    rw [if_neg hin]
    obtain ⟨word, -, h⟩ := bind_ok h
    have hatomic := @Executed.atomic s pc ir cycle hop hin
    rcases @amoOp_trap s ir (rs1 s ir - s.memOffset) (rs2 s ir) word with
      ⟨hexc, htrap⟩ | ⟨hexc, hop⟩
    · replace hatomic := fun m => hatomic m word
      generalize amoOp s ir (rs1 s ir - s.memOffset) (rs2 s ir) word = r at h htrap hatomic
      obtain ⟨rval, write, flags, trap⟩ := r
      obtain rfl : trap = 0 := htrap
      rw [hexc]
      cases write with
      | some v =>
          obtain ⟨t, ht, h⟩ := bind_ok h
          obtain ⟨m, rfl⟩ := write32_ok ht
          exact Except.ok.inj h ▸ hatomic m
      | none => exact Except.ok.inj h ▸ hatomic s.mem
    · have hsame : s.setCsr .extraflags (s.csrs .extraflags) = s := by simp [CPUState.setCsr]
      generalize amoOp s ir (rs1 s ir - s.memOffset) (rs2 s ir) word = r at h hop
      subst hop
      obtain rfl := Except.ok.inj h
      rw [hexc, hsame]
      exact .raised .illegalInstruction _ _

theorem op_eq : ∃ v, op s pc ir = ⟨s, pc, rdid ir, v, 0⟩ := by
  by_cases h : ir &&& 0x20 ≠ 0 ∧ ir &&& 0x02000000 ≠ 0
  · exact ⟨_, if_pos h⟩
  · exact ⟨_, if_neg h⟩

/-- What an instruction does, for every word. -/
theorem execute_executed {flow : Flow} (h : execute s pc ir cycle = .ok flow) :
    Executed s pc ir cycle (exception s ir) flow := by
  unfold execute at h
  unfold exception
  generalize hop : (ir &&& 0x7f).toNat = opcode at h ⊢
  split at h
  case h_5 => exact Except.ok.inj h ▸ branch_executed
  case h_6 =>
    obtain ⟨l, hl, rfl⟩ := map_ok h
    exact load_executed hl
  case h_7 => exact store_executed h
  case h_8 | h_9 =>
    obtain ⟨v, hv⟩ := @op_eq s pc ir
    rw [hv] at h
    exact Except.ok.inj h ▸ .plain _ _ _
  case h_11 => exact Except.ok.inj h ▸ system_executed
  case h_12 =>
    obtain ⟨l, hl, rfl⟩ := map_ok h
    exact amo_executed hop hl
  case h_13 =>
    obtain rfl := Except.ok.inj h
    split <;> first | exact .raised _ _ _ | simp_all
  all_goals exact Except.ok.inj h ▸ .plain _ _ _

end

/-! ## Entering a trap -/

/-- The step from `s` to `s'` has entered a trap for `c`, and has changed nothing
that the trap does not change. -/
structure Entered (s : CPUState) (c : Cause) (s' : CPUState) : Prop where
  regs : s'.regs = s.regs
  mem : s'.mem = s.mem
  csrs : ∀ r ∈ [Csr.timermatchl, .timermatchh, .mscratch, .mtvec, .mie], s'.csrs r = s.csrs r
  mepc : s'.csrs .mepc = s.csrs .pc
  pc : s'.csrs .pc = s.csrs .mtvec
  mcause : s'.csrs .mcause = c.code
  /-- Machine mode. -/
  mode : (s'.csrs .extraflags).extractLsb' 0 2 = 3
  /-- The fields `MIE`, `MPIE` and `MPP` of `MSTATUS`. -/
  mie : (s'.csrs .mstatus).getLsbD 3 = false
  mpie : (s'.csrs .mstatus).getLsbD 7 = (s.csrs .mstatus).getLsbD 3
  mpp : (s'.csrs .mstatus).extractLsb' 11 2 = (s.csrs .extraflags).extractLsb' 0 2

section
variable (status flags : Word)

theorem status_mie :
    (((status &&& 0x08) <<< 4) ||| ((flags &&& 3) <<< 11)).getLsbD 3 = false := by simp

theorem status_mpie :
    (((status &&& 0x08) <<< 4) ||| ((flags &&& 3) <<< 11)).getLsbD 7 = status.getLsbD 3 := by simp

theorem status_mpp :
    (((status &&& 0x08) <<< 4) ||| ((flags &&& 3) <<< 11)).extractLsb' 11 2 =
      flags.extractLsb' 0 2 := by
  ext i hi
  interval_cases i <;> simp

theorem flags_machine : (flags ||| 3).extractLsb' 0 2 = 3 := by
  ext i hi
  interval_cases i <;> simp

theorem flags_awake : (flags &&& ~~~(4 : Word)).extractLsb' 0 2 = flags.extractLsb' 0 2 := by
  ext i hi
  interval_cases i <;> simp

end

/-- The end of a step counts the cycle and sets the program counter. -/
theorem cycleEnd_keeps (s : CPUState) (pc rval cycle : Word) :
    (cycleEnd s pc rval 0 cycle).1.regs = s.regs ∧ (cycleEnd s pc rval 0 cycle).1.mem = s.mem ∧
    (∀ r ∉ [Csr.cycleh, .cyclel, .pc], (cycleEnd s pc rval 0 cycle).1.csrs r = s.csrs r) ∧
    (cycleEnd s pc rval 0 cycle).1.csrs .pc = pc := by
  unfold cycleEnd
  simp only [ne_eq, not_true_eq_false, if_false]
  split <;> refine ⟨rfl, rfl, fun r hr => ?_, by simp [csrs_setCsr]⟩ <;>
    · simp only [List.mem_cons, not_or] at hr
      simp [csrs_setCsr, hr]

theorem cycleEnd_trap {s : CPUState} {pc rval trap cycle : Word} (htrap : trap ≠ 0) :
    cycleEnd s pc rval trap cycle =
      cycleEnd (enterTrap s pc rval trap).1 (enterTrap s pc rval trap).2 rval 0 cycle := by
  unfold cycleEnd
  rw [if_pos htrap, if_neg (by simp)]

/-- The end of a step that enters a trap for `c`, where the variable `pc` stands for
the instruction that the program counter points to. -/
theorem cycleEnd_enters {s : CPUState} {pc rval trap : Word} (cycle : Word) {c : Cause}
    (htrap : trap ≠ 0) (hcause : (if trap &&& 0x80000000 ≠ 0 then trap else trap - 1) = c.code)
    (hpc : (if trap &&& 0x80000000 ≠ 0 then pc + 4 else pc) = s.csrs .pc) :
    Entered s c (cycleEnd s pc rval trap cycle).1 := by
  rw [cycleEnd_trap htrap]
  obtain ⟨hregs, hmem, hcsrs, hnext⟩ := cycleEnd_keeps (enterTrap s pc rval trap).1
    (enterTrap s pc rval trap).2 rval cycle
  generalize (cycleEnd (enterTrap s pc rval trap).1 (enterTrap s pc rval trap).2 rval 0 cycle).1 =
    s' at hregs hmem hcsrs hnext
  have hflags : s'.csrs .extraflags = s.csrs .extraflags ||| 3 := by
    rw [hcsrs _ (by decide)]
    simp [enterTrap, csrs_setCsr]
  have hstatus : s'.csrs .mstatus =
      ((s.csrs .mstatus &&& 0x08) <<< 4) ||| ((s.csrs .extraflags &&& 3) <<< 11) := by
    rw [hcsrs _ (by decide)]
    simp [enterTrap, csrs_setCsr]
  exact {
    regs := hregs
    mem := hmem
    csrs := by
      intro r hr
      rw [hcsrs r (by fin_cases hr <;> decide)]
      fin_cases hr <;> simp [enterTrap, csrs_setCsr]
    mepc := by
      rw [hcsrs _ (by decide), ← hpc]
      simp [enterTrap, csrs_setCsr]
    pc := by
      rw [hnext]
      simp only [enterTrap, csrs_setCsr, reduceCtorEq, if_false]
      exact BitVec.sub_add_cancel _ _
    mcause := by
      rw [hcsrs _ (by decide), ← hcause]
      simp [enterTrap, csrs_setCsr]
    mode := hflags ▸ flags_machine _
    mie := hstatus ▸ status_mie _ _
    mpie := hstatus ▸ status_mpie _ _
    mpp := hstatus ▸ status_mpp _ _ }

theorem updateTimer_regs (s : CPUState) (e : Word) : (updateTimer s e).regs = s.regs := by
  simp only [updateTimer]
  split <;> split <;> rfl

theorem updateTimer_mem (s : CPUState) (e : Word) : (updateTimer s e).mem = s.mem := by
  simp only [updateTimer]
  split <;> split <;> rfl

/-- The update of the timer changes the timer, the pending interrupts and the flags. -/
theorem updateTimer_csrs (s : CPUState) (e : Word) {r : Csr}
    (hr : r ∉ [Csr.timerl, .timerh, .mip, .extraflags]) :
    (updateTimer s e).csrs r = s.csrs r := by
  simp only [List.mem_cons, not_or] at hr
  simp only [updateTimer]
  split <;> split <;> simp [csrs_setCsr, hr]

/-- It wakes the processor up, or leaves the flags as they are. -/
theorem updateTimer_extraflags (s : CPUState) (e : Word) :
    (updateTimer s e).csrs .extraflags = s.csrs .extraflags &&& ~~~(4 : Word) ∨
      (updateTimer s e).csrs .extraflags = s.csrs .extraflags := by
  simp only [updateTimer]
  split <;> split <;> simp [csrs_setCsr]

/-- The update of the timer keeps what a trap keeps. -/
theorem Entered.of_updateTimer {s s' : CPUState} {e : Word} {c : Cause}
    (h : Entered (updateTimer s e) c s') : Entered s c s' := by
  have hmode : ((updateTimer s e).csrs .extraflags).extractLsb' 0 2 =
      (s.csrs .extraflags).extractLsb' 0 2 := by
    rcases updateTimer_extraflags s e with hf | hf <;> rw [hf]
    exact flags_awake _
  exact {
    regs := h.regs.trans (updateTimer_regs s e)
    mem := h.mem.trans (updateTimer_mem s e)
    csrs := fun r hr => (h.csrs r hr).trans
      (updateTimer_csrs s e (by fin_cases hr <;> decide))
    mepc := h.mepc.trans (updateTimer_csrs s e (by decide))
    pc := h.pc.trans (updateTimer_csrs s e (by decide))
    mcause := h.mcause
    mode := h.mode
    mie := h.mie
    mpie := h.mpie.trans (by rw [updateTimer_csrs s e (by decide)])
    mpp := h.mpp.trans hmode }

/-- A step raises an exception or takes the timer interrupt. -/
inductive Raises (s : CPUState) : Cause → Prop where
  | timer (awake : ¬ asleep s) (h : timerInterrupt s) : Raises s .machineTimer
  | fetchAccess (awake : ¬ asleep s) (quiet : ¬ timerInterrupt s)
      (h : s.csrs .pc - s.memOffset ≥ s.memSize) : Raises s .instructionAccess
  | misaligned (awake : ¬ asleep s) (quiet : ¬ timerInterrupt s)
      (inside : ¬ s.csrs .pc - s.memOffset ≥ s.memSize)
      (h : (s.csrs .pc - s.memOffset) &&& 3 ≠ 0) : Raises s .instructionMisaligned
  | instruction {ir c} (fetch : Fetches s ir) (h : exception s ir = some c) : Raises s c

/-- A step that is none of these sleeps, or executes its instruction to the end. -/
inductive Completes (s : CPUState) : CPUState × Word → Prop where
  | asleep (h : asleep s) : Completes s (s, 1)
  | ret {ir s' code} (fetch : Fetches s ir)
      (h : execute s (s.csrs .pc) ir (s.csrs .cyclel + 1) = .ok (.ret s' code)) :
      Completes s (s', code)
  | done {ir l} (fetch : Fetches s ir)
      (h : execute s (s.csrs .pc) ir (s.csrs .cyclel + 1) = .ok (.done l)) (htrap : l.trap = 0) :
      Completes s (cycleEnd (if l.rdid ≠ 0 then l.state.setReg l.rdid l.rval else l.state)
        (l.pc + 4) l.rval 0 (s.csrs .cyclel + 1))

theorem Fetches.unique {s : CPUState} {ir ir' : Word} (h : Fetches s ir) (h' : Fetches s ir') :
    ir = ir' := Except.ok.inj (h.word.symm.trans h'.word)

/-- What a fetched instruction raises is what its step raises. -/
theorem Raises.of_fetches {s : CPUState} {ir : Word} {c : Cause} (hf : Fetches s ir)
    (h : Raises s c) : exception s ir = some c := by
  cases h with
  | timer _ h => exact absurd h hf.uninterrupted
  | fetchAccess _ _ h => exact absurd h hf.inside
  | misaligned _ _ _ h => exact absurd hf.aligned h
  | instruction hf' h => exact hf.unique hf' ▸ h

theorem Raises.unique {s : CPUState} {c c' : Cause} (h : Raises s c) (h' : Raises s c') :
    c = c' := by
  cases h' with
  | instruction hf h' => exact Option.some.inj ((h.of_fetches hf).symm.trans h')
  | timer _ h' =>
      cases h with
      | timer => rfl
      | fetchAccess _ quiet | misaligned _ quiet => exact absurd h' quiet
      | instruction hf => exact absurd h' hf.uninterrupted
  | fetchAccess _ quiet h' =>
      cases h with
      | timer _ h => exact absurd h quiet
      | fetchAccess => rfl
      | misaligned _ _ inside => exact absurd h' inside
      | instruction hf => exact absurd h' hf.inside
  | misaligned _ quiet inside h' =>
      cases h with
      | timer _ h => exact absurd h quiet
      | fetchAccess _ _ h => exact absurd h inside
      | misaligned => rfl
      | instruction hf => exact absurd hf.aligned h'

/-- A step enters the trap it raises, or raises none and is complete. -/
theorem Outcome.trap_or_completes {s : CPUState} {r : CPUState × Word} (h : Outcome s r) :
    (∃ c, Raises s c ∧ r.2 = 0 ∧ Entered s c r.1) ∨ (Completes s r ∧ ∀ c, ¬ Raises s c) := by
  cases h with
  | asleep h =>
      refine .inr ⟨.asleep h, fun c hc => ?_⟩
      cases hc with
      | timer awake | fetchAccess awake | misaligned awake => exact awake h
      | instruction hf => exact hf.awake h
  | interrupt awake h =>
      refine .inl ⟨.machineTimer, .timer awake h, rfl, cycleEnd_enters _ (by decide) rfl ?_⟩
      exact BitVec.sub_add_cancel _ _
  | fetchAccess awake quiet h =>
      exact .inl ⟨.instructionAccess, .fetchAccess awake quiet h, rfl,
        cycleEnd_enters _ (by decide) rfl rfl⟩
  | misaligned awake quiet inside h =>
      exact .inl ⟨.instructionMisaligned, .misaligned awake quiet inside h, rfl,
        cycleEnd_enters _ (by decide) rfl rfl⟩
  | @ret ir s' code hf h =>
      refine .inr ⟨.ret hf h, fun c hc => ?_⟩
      have hexec := execute_executed h
      rw [hc.of_fetches hf] at hexec
      cases hexec
  | @trap ir l hf h htrap =>
      have hexec := execute_executed h
      generalize hexc : exception s ir = exc at hexec
      cases hexec with
      | raised c rd v =>
          have hne : c ≠ .machineTimer := fun heq => exception_ne_timer (heq ▸ hexc)
          refine .inl ⟨c, .instruction hf hexc, rfl,
            cycleEnd_enters _ htrap (Cause.number hne).2 (if_neg (Cause.number hne).1)⟩
      | _ => exact absurd rfl htrap
  | @done ir l hf h htrap =>
      refine .inr ⟨.done hf h htrap, fun c hc => ?_⟩
      have hexec := execute_executed h
      rw [hc.of_fetches hf] at hexec
      cases hexec
      exact code_add_one_ne c htrap

/-- What a step raises enters its trap. -/
theorem Raises.entered {s : CPUState} {e : Word} {r : CPUState × Word} {c : Cause}
    (hc : Raises (updateTimer s e) c) (h : rv32imaStep s e = .ok r) :
    r.2 = 0 ∧ Entered s c r.1 := by
  rcases (rv32imaStep_outcome h).trap_or_completes with ⟨c', hc', hr, hentered⟩ | ⟨-, hno⟩
  · obtain rfl := hc.unique hc'
    exact ⟨hr, hentered.of_updateTimer⟩
  · exact absurd hc (hno c)

/-- Traps are precise: in every step that is defined, what is raised enters its trap
and changes nothing else, and where nothing is raised the instruction completes. -/
theorem rv32imaStep_traps (s : CPUState) (e : Word) (r : CPUState × Word)
    (h : rv32imaStep s e = .ok r) :
    (∀ c, Raises (updateTimer s e) c → r.2 = 0 ∧ Entered s c r.1) ∧
    ((∀ c, ¬ Raises (updateTimer s e) c) → Completes (updateTimer s e) r) := by
  refine ⟨fun c hc => hc.entered h, fun hno => ?_⟩
  rcases (rv32imaStep_outcome h).trap_or_completes with ⟨c, hc, -⟩ | ⟨hcomp, -⟩
  · exact absurd hc (hno c)
  · exact hcomp

/-- `ecall` at the first address, in machine mode. -/
def environmentCall : CPUState where
  regs := fun _ => 0
  csrs := Function.update (Function.update (fun _ => 0) .pc 0x80000000) .extraflags 3
  mem := fun i => [0x73, 0x00, 0x00, 0x00].getD i 0
  memOffset := 0x80000000
  memSize := 4

theorem rv32imaStep_traps_environmentCall :
    ∃ r, rv32imaStep environmentCall 1 = .ok r ∧
      Raises (updateTimer environmentCall 1) .environmentCallFromM ∧
      r.2 = 0 ∧ Entered environmentCall .environmentCallFromM r.1 := by
  have hfetch : Fetches (updateTimer environmentCall 1) 0x73 := by constructor <;> decide
  have hraises : Raises (updateTimer environmentCall 1) .environmentCallFromM :=
    .instruction hfetch (by decide)
  obtain ⟨r, hr⟩ : ∃ r, rv32imaStep environmentCall 1 = .ok r := ⟨_, rfl⟩
  exact ⟨r, hr, hraises, (rv32imaStep_traps environmentCall 1 r hr).1 _ hraises⟩

end OsCourse.Rv32
