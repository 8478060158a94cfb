import OsCourse.Rv32.Calls

/-!
# Interrupts and returns

A trap saves the program counter, the mode and the interrupt enable bit, and `MRET`
brings them back.  Both leave the sleep bit and the slot of the reservation in
`EXTRAFLAGS` alone, which only the update of the timer and the instructions change.

`WFI` sets the sleep bit and enables interrupts.  The calls that follow update the
timer and return, until one finds the timer past its match.  This one wakes up, and
the address that its interrupt saves is the one behind `WFI`.
-/

namespace OsCourse.Rv32

/-! ## Trap and return -/

/-- The word is `MRET`. -/
def IsMret (ir : Word) : Prop :=
  (ir &&& 0x7f).toNat = 0x73 ∧ funct3 ir = 0 ∧ (ir >>> 20) &&& 0xff = 0x02

instance (ir : Word) : Decidable (IsMret ir) := inferInstanceAs (Decidable (_ ∧ _))

/-- The mode bits. -/
def mode (s : CPUState) : BitVec 2 := (s.csrs .extraflags).extractLsb' 0 2

/-- `MSTATUS.MIE`. -/
def interruptEnable (s : CPUState) : Bool := (s.csrs .mstatus).getLsbD 3

/-- The sleep bit and the bits of the reservation. -/
def upperFlags (s : CPUState) : Word := s.csrs .extraflags >>> 2

section
variable (flags status : Word)

theorem upper_machine : (flags ||| 3) >>> 2 = flags >>> 2 := by
  rw [BitVec.ushiftRight_or_distrib]
  exact BitVec.or_zero

theorem upper_mret :
    ((flags &&& ~~~(3 : Word)) ||| ((status >>> 11) &&& 3)) >>> 2 = flags >>> 2 := by
  have hlow : ((status >>> 11) &&& 3) >>> 2 = 0 := by
    rw [BitVec.ushiftRight_and_distrib]
    exact BitVec.and_zero
  have hall : (~~~(3 : Word)) >>> 2 = BitVec.allOnes 32 >>> 2 := by decide
  rw [BitVec.ushiftRight_or_distrib, hlow, BitVec.ushiftRight_and_distrib, hall,
    ← BitVec.ushiftRight_and_distrib, BitVec.and_allOnes]
  exact BitVec.or_zero

theorem mode_mret :
    ((flags &&& ~~~(3 : Word)) ||| ((status >>> 11) &&& 3)).extractLsb' 0 2 =
      status.extractLsb' 11 2 := by
  ext i hi
  interval_cases i <;> simp

theorem status_mret :
    (((status &&& 0x80) >>> 4) ||| ((flags &&& 3) <<< 11) ||| 0x80).getLsbD 3 =
      status.getLsbD 7 := by simp

end

variable {s : CPUState} {pc cycle ir e : Word}

theorem cycleEnd_extraflags {rval trap : Word} (htrap : trap ≠ 0) :
    (cycleEnd s pc rval trap cycle).1.csrs .extraflags = s.csrs .extraflags ||| 3 := by
  obtain ⟨-, -, hcsrs, -⟩ := cycleEnd_keeps (enterTrap s pc rval trap).1
    (enterTrap s pc rval trap).2 rval cycle
  rw [cycleEnd_trap htrap, hcsrs _ (by decide)]
  simp [enterTrap, csrs_setCsr]

/-- A step that raises something sets the mode bits and no other flags. -/
theorem Raises.extraflags {r : CPUState × Word} {c : Cause} (hc : Raises s c) (h : Outcome s r) :
    r.1.csrs .extraflags = s.csrs .extraflags ||| 3 := by
  cases h with
  | asleep h =>
      cases hc with
      | timer awake | fetchAccess awake | misaligned awake => exact absurd h awake
      | instruction hf => exact absurd h hf.awake
  | interrupt | fetchAccess | misaligned => exact cycleEnd_extraflags (by decide)
  | ret hf hexec =>
      have hraised := execute_executed hexec
      rw [hc.of_fetches hf] at hraised
      cases hraised
  | trap hf hexec htrap =>
      have hraised := execute_executed hexec
      rw [hc.of_fetches hf] at hraised
      cases hraised
      exact cycleEnd_extraflags htrap
  | done hf hexec htrap => exact absurd hc (hf.not_raises hexec htrap c)

theorem execute_mret (h : IsMret ir) :
    execute s pc ir cycle = .ok (.done (mret s)) := by
  obtain ⟨hop, hzero, hmret⟩ := h
  have hwfi : ¬ ir >>> 20 = 0x105 := by
    intro hwfi
    rw [hwfi] at hmret
    exact absurd hmret (by decide)
  unfold execute system
  rw [hop]
  dsimp only
  rw [if_neg (by rw [hzero]; decide), if_pos hzero, if_neg hwfi, if_pos hmret]
  rfl

/-- `MRET` goes to the saved address, and takes the mode and the enable bit from
`MSTATUS`. -/
theorem mret_step (hf : Fetches (updateTimer s e) ir) (hmret : IsMret ir) :
    ∃ s', rv32imaStep s e = .ok (s', 0) ∧ s'.csrs .pc = s.csrs .mepc ∧
      mode s' = (s.csrs .mstatus).extractLsb' 11 2 ∧
      interruptEnable s' = (s.csrs .mstatus).getLsbD 7 ∧
      upperFlags s' = upperFlags (updateTimer s e) := by
  have hstep := hf.step_done (execute_mret hmret) rfl
  have hstatus : (updateTimer s e).csrs .mstatus = s.csrs .mstatus :=
    updateTimer_csrs s e (by decide)
  have hmepc : (updateTimer s e).csrs .mepc = s.csrs .mepc := updateTimer_csrs s e (by decide)
  generalize updateTimer s e = t at hstep hstatus hmepc
  have hrdid : ¬ (mret t).rdid ≠ 0 := not_not.mpr rfl
  rw [if_neg hrdid] at hstep
  obtain ⟨-, -, hcsrs, hpc⟩ := cycleEnd_keeps (mret t).state ((mret t).pc + 4) (mret t).rval
    (t.csrs .cyclel + 1)
  refine ⟨(cycleEnd (mret t).state ((mret t).pc + 4) (mret t).rval 0 (t.csrs .cyclel + 1)).1, hstep,
    ?_, ?_, ?_, ?_⟩
  · rw [hpc, ← hmepc]
    simp [mret, csrs_setCsr]
  · rw [mode, hcsrs _ (by decide), ← hstatus]
    simp only [mret, csrs_setCsr, if_true]
    exact mode_mret _ _
  · rw [interruptEnable, hcsrs _ (by decide), ← hstatus]
    simp only [mret, csrs_setCsr, reduceCtorEq, if_true, if_false]
    exact status_mret _ _
  · rw [upperFlags, hcsrs _ (by decide)]
    simp only [mret, csrs_setCsr, if_true]
    exact upper_mret _ _

/-- A call leaves the sleep bit and the reservation alone.  The update of the timer at
its start may wake the processor up, and does nothing to one that is awake. -/
structure FlagsKept (s : CPUState) (e : Word) (t : CPUState) : Prop where
  timed : upperFlags t = upperFlags (updateTimer s e)
  awake : ¬ asleep s → upperFlags t = upperFlags s
  slot : slot t = slot s

theorem and_not_four {x : Word} (h : x &&& 4 = 0) : x &&& ~~~(4 : Word) = x := by
  have hsplit : x &&& ~~~(4 : Word) ||| x &&& 4 = x := by
    rw [← BitVec.and_or_distrib_left]
    exact BitVec.and_allOnes
  rw [h] at hsplit
  exact BitVec.or_zero.symm.trans hsplit

theorem extraflags_updateTimer (h : ¬ asleep s) (e : Word) :
    (updateTimer s e).csrs .extraflags = s.csrs .extraflags := by
  by_cases hdue : TimerDue (updateTimer s e)
  · rw [(updateTimer_due s e hdue).1]
    exact and_not_four (not_not.mp h)
  · exact (updateTimer_not_due s e hdue).1

theorem FlagsKept.of_upperFlags {t : CPUState} (h : upperFlags t = upperFlags (updateTimer s e)) :
    FlagsKept s e t where
  timed := h
  awake hs := by
    rw [h, upperFlags, extraflags_updateTimer hs, upperFlags]
  slot := by
    have hslot (u : CPUState) : Rv32.slot u = upperFlags u >>> 1 := by
      rw [Rv32.slot, upperFlags, ← BitVec.shiftRight_add]
    rw [hslot, h, ← hslot]
    exact (updateTimer_keeps s e).slot

/-- Where `MRET` finds `MEPC` and `MSTATUS` as a trap has left them, the program
counter, the mode and the interrupt enable bit become those before the trap.  Neither
step touches the sleep bit or the reservation. -/
theorem trap_mret (s : CPUState) (e : Word) (r : CPUState × Word) (c : Cause)
    (hstep : rv32imaStep s e = .ok r) (hc : Raises (updateTimer s e) c)
    (s₂ : CPUState) (e₂ ir : Word) (hmepc : s₂.csrs .mepc = r.1.csrs .mepc)
    (hstatus : s₂.csrs .mstatus = r.1.csrs .mstatus)
    (hf : Fetches (updateTimer s₂ e₂) ir) (hmret : IsMret ir) :
    ∃ s₃, rv32imaStep s₂ e₂ = .ok (s₃, 0) ∧
      s₃.csrs .pc = r.1.csrs .mepc ∧ r.1.csrs .mepc = s.csrs .pc ∧
      mode s₃ = mode s ∧ interruptEnable s₃ = interruptEnable s ∧
      FlagsKept s e r.1 ∧ FlagsKept s₂ e₂ s₃ := by
  have hentered := (hc.entered hstep).2
  have htrap : upperFlags r.1 = upperFlags (updateTimer s e) := by
    unfold upperFlags
    rw [hc.extraflags (rv32imaStep_outcome hstep)]
    exact upper_machine _
  obtain ⟨s₃, hstep₃, hpc, hmode, henable, hreturn⟩ := mret_step hf hmret
  refine ⟨s₃, hstep₃, hpc.trans hmepc, hentered.mepc, ?_, ?_, .of_upperFlags htrap,
    .of_upperFlags hreturn⟩
  · rw [hmode, hstatus]
    exact hentered.mpp
  · rw [henable, hstatus]
    exact hentered.mpie

/-- `mret` at the first address, in the handler of an environment call. -/
def returning : CPUState where
  regs := fun _ => 0
  csrs := Function.update (Function.update (Function.update (fun _ => 0)
    .pc 0x80000000) .mepc 0x80000000) .mstatus 0x1800
  mem := fun i => [0x73, 0x00, 0x20, 0x30].getD i 0
  memOffset := 0x80000000
  memSize := 4

theorem trap_mret_environmentCall :
    ∃ r s₃, rv32imaStep environmentCall 1 = .ok r ∧ rv32imaStep returning 1 = .ok (s₃, 0) ∧
      s₃.csrs .pc = 0x80000000 ∧ mode s₃ = 3 := by
  have hfetch : Fetches (updateTimer environmentCall 1) 0x73 := by constructor <;> decide
  have hsaved : (rv32imaStep environmentCall 1).map (fun r => (r.1.csrs .mepc, r.1.csrs .mstatus)) =
      .ok (0x80000000, 0x1800) := by decide
  obtain ⟨r, hr⟩ : ∃ r, rv32imaStep environmentCall 1 = .ok r := ⟨_, rfl⟩
  rw [hr] at hsaved
  obtain ⟨hmepc, hstatus⟩ := Prod.mk.inj (Except.ok.inj hsaved)
  obtain ⟨s₃, hs₃, hpc, hback, hmode, -⟩ := trap_mret environmentCall 1 r .environmentCallFromM hr
    (.instruction hfetch (by decide)) returning 1 0x30200073 hmepc.symm hstatus.symm
    (by constructor <;> decide) (by decide)
  exact ⟨r, s₃, hr, hs₃, hpc.trans hback, hmode⟩

/-! ## Sleep and wake-up -/

/-- Nothing has changed but the timer and the pending bit of its interrupt. -/
structure OnlyTimer (s t : CPUState) : Prop where
  regs : t.regs = s.regs
  mem : t.mem = s.mem
  memOffset : t.memOffset = s.memOffset
  memSize : t.memSize = s.memSize
  csrs : ∀ r ∉ [Csr.timerl, .timerh, .mip], t.csrs r = s.csrs r
  pending : ∀ i ≠ 7, (t.csrs .mip).getLsbD i = (s.csrs .mip).getLsbD i

namespace OnlyTimer

variable {s t u : CPUState}

theorem refl (s : CPUState) : OnlyTimer s s := ⟨rfl, rfl, rfl, rfl, fun _ _ => rfl, fun _ _ => rfl⟩

theorem trans (h : OnlyTimer s t) (h' : OnlyTimer t u) : OnlyTimer s u where
  regs := h'.regs.trans h.regs
  mem := h'.mem.trans h.mem
  memOffset := h'.memOffset.trans h.memOffset
  memSize := h'.memSize.trans h.memSize
  csrs r hr := (h'.csrs r hr).trans (h.csrs r hr)
  pending i hi := (h'.pending i hi).trans (h.pending i hi)

theorem asleep (h : OnlyTimer s t) (hs : Rv32.asleep s) : Rv32.asleep t := by
  rw [Rv32.asleep, h.csrs _ (by decide)]
  exact hs

/-- An update that does not find the timer past its match. -/
theorem updateTimer {e : Word} (h : ¬ TimerDue (updateTimer s e)) :
    OnlyTimer s (updateTimer s e) where
  regs := updateTimer_regs s e
  mem := updateTimer_mem s e
  memOffset := updateTimer_memOffset s e
  memSize := updateTimer_memSize s e
  csrs := by
    intro r hr
    by_cases hflags : r = .extraflags
    · rw [hflags]
      exact (updateTimer_not_due s e h).1
    · apply updateTimer_csrs
      simp only [List.mem_cons, not_or] at hr ⊢
      exact ⟨hr.1, hr.2.1, hr.2.2.1, hflags, List.not_mem_nil⟩
  pending := by
    intro i hi
    have hmask : (0x80 : Word) = BitVec.twoPow 32 7 := rfl
    rw [(updateTimer_not_due s e h).2, hmask, BitVec.getLsbD_and, BitVec.getLsbD_not,
      BitVec.getLsbD_twoPow]
    by_cases hlt : i < 32
    · simp [hlt, Ne.symm hi]
    · rw [BitVec.getLsbD_of_ge _ _ (Nat.not_lt.mp hlt), Bool.false_and]

end OnlyTimer

/-- A processor that sleeps goes on sleeping until the timer is past its match. -/
theorem asleep_step (hs : asleep s) (h : ¬ TimerDue (updateTimer s e)) :
    rv32imaStep s e = .ok (updateTimer s e, 1) := by
  have hasleep : asleep (updateTimer s e) := (OnlyTimer.updateTimer h).asleep hs
  simp only [rv32imaStep, if_pos hasleep]

theorem asleep_run {t : CPUState} {cs : List Call} (h : Calls s cs t) (hs : asleep s)
    (hquiet : ∀ c ∈ cs, ¬ TimerDue c.timed) :
    (∀ c ∈ cs, c.code = 1 ∧ OnlyTimer s c.after) ∧ OnlyTimer s t := by
  induction h with
  | nil s => exact ⟨by simp, .refl s⟩
  | @cons c cs t h ih =>
      have hdue := hquiet c (List.mem_cons_self ..)
      have hstep : (c.after, c.code) = (c.timed, 1) :=
        Except.ok.inj (c.step.symm.trans (asleep_step hs hdue))
      obtain ⟨hafter, hcode⟩ := Prod.mk.inj hstep
      have hfirst : OnlyTimer c.before c.after := by
        rw [hafter]
        exact .updateTimer hdue
      obtain ⟨hcalls, hend⟩ := ih (hfirst.asleep hs) fun c' hc' =>
        hquiet c' (List.mem_cons_of_mem _ hc')
      refine ⟨?_, hfirst.trans hend⟩
      intro c' hc'
      rcases List.mem_cons.mp hc' with rfl | hc'
      · exact ⟨hcode, hfirst⟩
      · exact ⟨(hcalls c' hc').1, hfirst.trans (hcalls c' hc').2⟩

theorem execute_wfi (h : IsWfi ir) :
    execute s pc ir cycle = .ok (.ret (((s.setCsr .mstatus (s.csrs .mstatus ||| 8)).setCsr
      .extraflags (s.csrs .extraflags ||| 4)).setCsr .pc (pc + 4)) 1) := by
  obtain ⟨hop, hzero, hwfi⟩ := h
  unfold execute system
  rw [hop]
  dsimp only
  rw [if_neg (by rw [hzero]; decide), if_pos hzero, if_pos hwfi, csrs_setCsr, if_neg (by decide)]
  rfl

/-- `WFI` goes to sleep with interrupts enabled, behind itself. -/
theorem wfi_step {r : CPUState × Word} (hf : Fetches (updateTimer s e) ir) (hwfi : IsWfi ir)
    (hstep : rv32imaStep s e = .ok r) :
    asleep r.1 ∧ r.1.csrs .pc = s.csrs .pc + 4 ∧ interruptEnable r.1 = true := by
  obtain rfl := Except.ok.inj (hstep.symm.trans (hf.step_ret (execute_wfi hwfi)))
  refine ⟨?_, ?_, ?_⟩
  · rw [asleep, and_four_ne_zero]
    simp [csrs_setCsr]
  · rw [← updateTimer_csrs s e (r := .pc) (by decide)]
    simp [csrs_setCsr]
  · simp [interruptEnable, csrs_setCsr]

/-- After `WFI` every call returns 1 and changes only the timer, until the timer is
past its match.  The call that finds it so is awake, and takes the timer interrupt if
that is enabled; the address saved is the one behind `WFI`. -/
theorem wfi_sleeps (s : CPUState) (e ir : Word) (r : CPUState × Word)
    (hf : Fetches (updateTimer s e) ir) (hwfi : IsWfi ir) (hstep : rv32imaStep s e = .ok r)
    (cs : List Call) (t : CPUState) (hrun : Calls r.1 cs t)
    (hquiet : ∀ c ∈ cs, ¬ TimerDue c.timed) :
    (∀ c ∈ cs, c.code = 1 ∧ OnlyTimer r.1 c.after) ∧
    ∀ e',
      (¬ TimerDue (updateTimer t e') →
        ∃ t', rv32imaStep t e' = .ok (t', 1) ∧ OnlyTimer r.1 t') ∧
      (TimerDue (updateTimer t e') → ¬ asleep (updateTimer t e') ∧
        ((r.1.csrs .mie).getLsbD 7 = true →
          ∃ t', rv32imaStep t e' = .ok (t', 0) ∧ Entered t .machineTimer t' ∧
            t'.csrs .mepc = s.csrs .pc + 4)) := by
  obtain ⟨hasleep, hpc, henable⟩ := wfi_step hf hwfi hstep
  obtain ⟨hcalls, hend⟩ := asleep_run hrun hasleep hquiet
  refine ⟨hcalls, fun e' => ⟨fun hdue => ?_, fun hdue => ⟨not_asleep_of_due hdue, fun hmie => ?_⟩⟩⟩
  · exact ⟨_, asleep_step (hend.asleep hasleep) hdue, hend.trans (.updateTimer hdue)⟩
  · have henabled : TimerEnabled (updateTimer t e') := by
      unfold TimerEnabled
      rw [updateTimer_csrs t e' (by decide), updateTimer_csrs t e' (by decide),
        hend.csrs _ (by decide), hend.csrs _ (by decide)]
      exact ⟨hmie, henable⟩
    have hraises : Raises (updateTimer t e') .machineTimer := raises_timer_iff.mpr ⟨hdue, henabled⟩
    have hirq := timerInterrupt_iff.mpr ⟨hdue, henabled⟩
    have hstep' : ∃ t', rv32imaStep t e' = .ok (t', 0) := by
      simp only [rv32imaStep, if_neg (not_asleep_of_due hdue), if_pos hirq]
      exact ⟨_, rfl⟩
    obtain ⟨t', ht'⟩ := hstep'
    have hentered := (hraises.entered ht').2
    refine ⟨t', ht', hentered, ?_⟩
    rw [hentered.mepc, hend.csrs _ (by decide), hpc]

/-- `wfi` at the first address, with a match of the timer and its interrupt enabled. -/
def waiting : CPUState where
  regs := fun _ => 0
  csrs := Function.update (Function.update (Function.update (fun _ => 0)
    .pc 0x80000000) .timermatchl 5) .mie 0x80
  mem := fun i => [0x73, 0x00, 0x50, 0x10].getD i 0
  memOffset := 0x80000000
  memSize := 4

theorem wfi_sleeps_waiting :
    ∃ r t t', rv32imaStep waiting 1 = .ok r ∧ rv32imaStep r.1 2 = .ok (t, 1) ∧
      rv32imaStep t 4 = .ok (t', 0) ∧ t'.csrs .mepc = 0x80000004 := by
  have hfetch : Fetches (updateTimer waiting 1) 0x10500073 := by constructor <;> decide
  obtain ⟨r, hr⟩ : ∃ r, rv32imaStep waiting 1 = .ok r := ⟨_, rfl⟩
  have hmie : (rv32imaStep waiting 1).map (fun r => (r.1.csrs .mie).getLsbD 7) = .ok true := by
    decide
  have hquiet : (rv32imaStep waiting 1).map (fun r => decide (TimerDue (updateTimer r.1 2))) =
      .ok false := by decide
  have hdue : (rv32imaStep waiting 1).map
      (fun r => decide (TimerDue (updateTimer (updateTimer r.1 2) 4))) = .ok true := by decide
  rw [hr] at hmie hquiet hdue
  have hasleep := (wfi_step hfetch (by decide) hr).1
  let c : Call := ⟨r.1, 2, _, 1, asleep_step hasleep (of_decide_eq_false (Except.ok.inj hquiet))⟩
  have hsleeps := wfi_sleeps waiting 1 0x10500073 r hfetch (by decide) hr [c] c.after
    (.cons c (.nil c.after))
    (by intro c' hc'; exact List.mem_singleton.mp hc' ▸ of_decide_eq_false (Except.ok.inj hquiet))
  obtain ⟨t', ht', -, hmepc⟩ :=
    ((hsleeps.2 4).2 (of_decide_eq_true (Except.ok.inj hdue))).2 (Except.ok.inj hmie)
  exact ⟨r, c.after, t', hr, c.step, ht', hmepc⟩

end OsCourse.Rv32
