import OsCourse.Lib.Bits
import OsCourse.Rv32.Bounds
import OsCourse.Rv32.Reserve

/-!
# The counters over runs

A run is a list of calls of `rv32ima_step`, each with the elapsed time that the host
passes.  Two counters of 64 bits are kept in pairs of control registers.

The timer advances by the elapsed time in every call, and the timer interrupt is
taken by the calls in which the timer is past its match and the two enable bits are
set.  No instruction writes the timer.

The cycle counter is incremented in a local variable that is written back after the
label `cycle_end`.  The instructions that return before it, `WFI` and a store to the
device that ends the program, are not counted.
-/

namespace OsCourse.Rv32

/-! ## Runs -/

/-- A call of `rv32ima_step`. -/
structure Call where
  before : CPUState
  elapsed : Word
  after : CPUState
  code : Word
  step : rv32imaStep before elapsed = .ok (after, code)

/-- The state of the call when the timer is updated. -/
def Call.timed (c : Call) : CPUState := updateTimer c.before c.elapsed

/-- Calls that lead from one state to another. -/
inductive Calls : CPUState → List Call → CPUState → Prop where
  | nil (s : CPUState) : Calls s [] s
  | cons (c : Call) {cs : List Call} {t : CPUState} (h : Calls c.after cs t) :
      Calls c.before (c :: cs) t

theorem Call.outcome (c : Call) : Outcome c.timed (c.after, c.code) := rv32imaStep_outcome c.step

variable {s t : CPUState}

/-- A counter that every call advances by an amount is advanced by the sum. -/
theorem Calls.counter {f : CPUState → BitVec 64} {g : Call → Nat} {cs : List Call}
    (hstep : ∀ c ∈ cs, f c.after = f c.before + BitVec.ofNat 64 (g c)) (h : Calls s cs t) :
    f t = f s + BitVec.ofNat 64 (cs.map g).sum := by
  induction h with
  | nil s => simp
  | @cons c cs t h ih =>
      rw [ih fun c' hc' => hstep c' (List.mem_cons_of_mem _ hc'), hstep c (List.mem_cons_self ..),
        List.map_cons, List.sum_cons, BitVec.ofNat_add, BitVec.add_assoc]

/-! ## The timer -/

/-- `TIMERH:TIMERL`. -/
def timer (s : CPUState) : BitVec 64 := s.csrs .timerh ++ s.csrs .timerl

/-- `TIMERMATCHH:TIMERMATCHL`. -/
def timermatch (s : CPUState) : BitVec 64 := s.csrs .timermatchh ++ s.csrs .timermatchl

/-- The timer is past its match. -/
def TimerDue (s : CPUState) : Prop := timermatch s ≠ 0 ∧ timer s > timermatch s

instance (s : CPUState) : Decidable (TimerDue s) := inferInstanceAs (Decidable (_ ∧ _))

/-- The first part of the update: the elapsed time is added. -/
def tick (s : CPUState) (e : Word) : CPUState :=
  let t := if s.csrs .timerl + e < s.csrs .timerl then s.setCsr .timerh (s.csrs .timerh + 1) else s
  t.setCsr .timerl (s.csrs .timerl + e)

section
variable (s : CPUState) (e : Word)

theorem timer_tick : timer (tick s e) = timer s + e.setWidth 64 := by
  unfold timer tick
  rw [← Bits.append_add_carry]
  split <;> simp [csrs_setCsr]

theorem tick_csrs {r : Csr} (hr : r ∉ [Csr.timerl, .timerh]) :
    (tick s e).csrs r = s.csrs r := by
  simp only [List.mem_cons, not_or] at hr
  unfold tick
  split <;> simp [csrs_setCsr, hr]

/-- The second part of the update: the interrupt is pending exactly if the timer is
past its match, and then the processor wakes up. -/
theorem updateTimer_eq :
    updateTimer s e =
      if TimerDue (tick s e) then
        ((tick s e).setCsr .extraflags (s.csrs .extraflags &&& ~~~(4 : Word))).setCsr .mip
          (s.csrs .mip ||| 0x80)
      else (tick s e).setCsr .mip (s.csrs .mip &&& ~~~(0x80 : Word)) := by
  have hmatch : timermatch (tick s e) ≠ 0 ↔
      (tick s e).csrs .timermatchh ≠ 0 ∨ (tick s e).csrs .timermatchl ≠ 0 :=
    (not_congr (Bits.append_eq_zero _ _)).trans not_and_or
  rw [← tick_csrs s e (r := .extraflags) (by decide), ← tick_csrs s e (r := .mip) (by decide)]
  by_cases hdue : TimerDue (tick s e)
  · rw [if_pos hdue]
    exact if_pos ⟨hmatch.mp hdue.1, hdue.2⟩
  · rw [if_neg hdue]
    exact if_neg fun h => hdue ⟨hmatch.mpr h.1, h.2⟩

theorem timermatch_updateTimer : timermatch (updateTimer s e) = timermatch s := by
  unfold timermatch
  rw [updateTimer_csrs s e (by decide), updateTimer_csrs s e (by decide)]

theorem timer_updateTimer : timer (updateTimer s e) = timer s + e.setWidth 64 := by
  have hsame : timer (updateTimer s e) = timer (tick s e) := by
    rw [updateTimer_eq]
    unfold timer
    split <;> simp [csrs_setCsr]
  rw [hsame, timer_tick]

/-- The timer is past its match when the call decides what to do. -/
theorem timerDue_updateTimer : TimerDue (updateTimer s e) ↔ TimerDue (tick s e) := by
  have hmatch : timermatch (tick s e) = timermatch s := by
    unfold timermatch
    rw [tick_csrs s e (by decide), tick_csrs s e (by decide)]
  unfold TimerDue
  rw [timermatch_updateTimer, timer_updateTimer, hmatch, timer_tick]

theorem updateTimer_due (h : TimerDue (updateTimer s e)) :
    (updateTimer s e).csrs .extraflags = s.csrs .extraflags &&& ~~~(4 : Word) ∧
      (updateTimer s e).csrs .mip = s.csrs .mip ||| 0x80 := by
  rw [timerDue_updateTimer] at h
  rw [updateTimer_eq, if_pos h]
  simp [csrs_setCsr]

theorem updateTimer_not_due (h : ¬ TimerDue (updateTimer s e)) :
    (updateTimer s e).csrs .extraflags = s.csrs .extraflags ∧
      (updateTimer s e).csrs .mip = s.csrs .mip &&& ~~~(0x80 : Word) := by
  rw [timerDue_updateTimer] at h
  rw [updateTimer_eq, if_neg h]
  refine ⟨?_, by simp [csrs_setCsr]⟩
  rw [csrs_setCsr, if_neg (by decide), tick_csrs s e (by decide)]

end

/-! ## The timer interrupt -/

/-- The masks of the three bits that decide about the interrupt, and of the sleep bit. -/
theorem and_eight_ne_zero (x : Word) : x &&& 8 ≠ 0 ↔ x.getLsbD 3 = true :=
  Bits.and_twoPow_ne_zero x (show 3 < 32 by decide)

theorem and_128_ne_zero (x : Word) : x &&& 0x80 ≠ 0 ↔ x.getLsbD 7 = true :=
  Bits.and_twoPow_ne_zero x (show 7 < 32 by decide)

theorem and_four_ne_zero (x : Word) : x &&& 4 ≠ 0 ↔ x.getLsbD 2 = true :=
  Bits.and_twoPow_ne_zero x (show 2 < 32 by decide)

section
variable {s : CPUState} {e : Word}

theorem not_asleep_of_due (h : TimerDue (updateTimer s e)) : ¬ asleep (updateTimer s e) := by
  unfold asleep
  rw [(updateTimer_due s e h).1, and_four_ne_zero]
  simp

theorem pending_iff_due :
    (updateTimer s e).csrs .mip &&& 0x80 ≠ 0 ↔ TimerDue (updateTimer s e) := by
  rw [and_128_ne_zero]
  by_cases h : TimerDue (updateTimer s e)
  · rw [(updateTimer_due s e h).2]
    simp [h]
  · rw [(updateTimer_not_due s e h).2]
    simp [h]

/-- The two bits with which the interrupt is enabled. -/
def TimerEnabled (s : CPUState) : Prop :=
  (s.csrs .mie).getLsbD 7 = true ∧ (s.csrs .mstatus).getLsbD 3 = true

theorem timerInterrupt_iff :
    timerInterrupt (updateTimer s e) ↔
      TimerDue (updateTimer s e) ∧ TimerEnabled (updateTimer s e) := by
  unfold timerInterrupt TimerEnabled
  rw [pending_iff_due, and_128_ne_zero, and_eight_ne_zero]

theorem raises_timer : Raises s .machineTimer ↔ ¬ asleep s ∧ timerInterrupt s := by
  constructor
  · intro h
    cases h with
    | timer awake h => exact ⟨awake, h⟩
    | instruction _ h => exact absurd h exception_ne_timer
  · intro h
    exact .timer h.1 h.2

/-- The interrupt is taken exactly when it is due and enabled: where it is due the
processor does not sleep. -/
theorem raises_timer_iff :
    Raises (updateTimer s e) .machineTimer ↔
      TimerDue (updateTimer s e) ∧ TimerEnabled (updateTimer s e) := by
  rw [raises_timer, timerInterrupt_iff]
  constructor
  · intro h
    exact h.2
  · intro h
    exact ⟨not_asleep_of_due h.1, h⟩

end

/-! ## What the instructions leave to the counters -/

/-- The registers of the timer and of the cycle counter. -/
def counters : List Csr := [.timerl, .timerh, .cyclel, .cycleh]

/-- The counters have not changed. -/
def SameCounters (s t : CPUState) : Prop := ∀ r ∈ counters, t.csrs r = s.csrs r

section
variable {s t : CPUState}

theorem SameCounters.refl (s : CPUState) : SameCounters s s := fun _ _ => rfl

theorem SameCounters.setCsr (h : SameCounters s t) {c : Csr} (hc : c ∉ counters) (v : Word) :
    SameCounters s (t.setCsr c v) := by
  intro r hr
  rw [csrs_setCsr, if_neg, h r hr]
  rintro rfl
  exact hc hr

theorem SameCounters.timer (h : SameCounters s t) : timer t = timer s := by
  rw [Rv32.timer, h .timerh (by decide), h .timerl (by decide), Rv32.timer]

end

section
variable {s : CPUState} {pc ir cycle : Word}

theorem csrOp_counters : SameCounters s (csrOp s pc ir cycle).state := by
  unfold csrOp
  dsimp only
  split
  next c hc =>
    refine SameCounters.setCsr (.refl s) (fun hmem => ?_) _
    unfold csrTarget at hc
    split at hc <;> cases hc <;> simp [counters] at hmem
  next => exact .refl s

/-- No instruction writes the counters. -/
theorem Executed.counters {exc : Option Cause} {flow : Flow}
    (h : Executed s pc ir cycle exc flow) : SameCounters s flow.state := by
  have hself := SameCounters.refl s
  cases h with
  | raised | plain | stored => exact hself
  | timermatch c hc v => exact hself.setCsr (by rcases hc with rfl | rfl <;> decide) v
  | syscon => exact hself.setCsr (by decide) _
  | csr => exact csrOp_counters
  | wfi v w hw => exact ((hself.setCsr (by decide) v).setCsr (by decide) w).setCsr (by decide) _
  | mret => exact (hself.setCsr (by decide) _).setCsr (by decide) _
  | atomic => exact hself.setCsr (by decide) _

end

/-- The end of a step, where a trap is entered first. -/
theorem cycleEnd_enter (s : CPUState) (pc rval trap cycle : Word) :
    ∃ s' pc', SameCounters s s' ∧
      (cycleEnd s pc rval trap cycle).1 = (cycleEnd s' pc' rval 0 cycle).1 := by
  by_cases htrap : trap = 0
  · exact ⟨s, pc, .refl s, by rw [htrap]⟩
  · refine ⟨(enterTrap s pc rval trap).1, (enterTrap s pc rval trap).2, ?_, ?_⟩
    · intro r hr
      fin_cases hr <;> simp [enterTrap, csrs_setCsr]
    · rw [cycleEnd_trap htrap]

/-! ## The timer over runs -/

theorem cycleEnd_timer (s : CPUState) (pc rval trap cycle : Word) :
    timer (cycleEnd s pc rval trap cycle).1 = timer s := by
  obtain ⟨s', pc', hs', heq⟩ := cycleEnd_enter s pc rval trap cycle
  obtain ⟨-, -, hcsrs, -⟩ := cycleEnd_keeps s' pc' rval cycle
  rw [heq, timer, hcsrs _ (by decide), hcsrs _ (by decide)]
  exact hs'.timer

theorem Outcome.timer {r : CPUState × Word} (h : Outcome s r) :
    timer r.1 = timer s := by
  cases h with
  | asleep => rfl
  | interrupt | fetchAccess | misaligned => exact cycleEnd_timer _ _ _ _ _
  | ret _ hexec => exact (execute_executed hexec).counters.timer
  | trap _ hexec => exact (cycleEnd_timer _ _ _ _ _).trans (execute_executed hexec).counters.timer
  | done _ hexec =>
      refine (cycleEnd_timer _ _ _ _ _).trans (Eq.trans ?_ (execute_executed hexec).counters.timer)
      split <;> rfl

theorem Call.timer (c : Call) :
    timer c.after = timer c.before + BitVec.ofNat 64 c.elapsed.toNat := by
  have hwide : BitVec.ofNat 64 c.elapsed.toNat = c.elapsed.setWidth 64 := by
    rw [BitVec.ofNat_toNat]
  rw [hwide, ← timer_updateTimer]
  exact c.outcome.timer

/-- A call that does not take the timer interrupt enters another trap or is complete. -/
theorem Call.without_timer (c : Call) (h : ¬ Raises c.timed .machineTimer) :
    (∃ cause, cause ≠ .machineTimer ∧ Raises c.timed cause ∧ Entered c.before cause c.after) ∨
      Completes c.timed (c.after, c.code) := by
  rcases c.outcome.trap_or_completes with ⟨cause, hcause, -, hentered⟩ | ⟨hcomplete, -⟩
  · refine .inl ⟨cause, ?_, hcause, hentered.of_updateTimer⟩
    rintro rfl
    exact h hcause
  · exact .inr hcomplete

/-- Over every run the timer advances by the elapsed times, and the calls that take
the timer interrupt are those in which the timer is past a match that is not 0 and
the interrupt is enabled.  The other calls sleep, or fetch: they enter the trap of
another cause or execute their instruction to its end. -/
theorem timer_run (s t : CPUState) (cs : List Call) (h : Calls s cs t) :
    timer t = timer s + BitVec.ofNat 64 (cs.map fun c => c.elapsed.toNat).sum ∧
    ∀ c ∈ cs,
      (Raises c.timed .machineTimer ↔ TimerDue c.timed ∧ TimerEnabled c.timed) ∧
      (Raises c.timed .machineTimer → c.code = 0 ∧ Entered c.before .machineTimer c.after) ∧
      (¬ Raises c.timed .machineTimer →
        (∃ cause, cause ≠ .machineTimer ∧ Raises c.timed cause ∧ Entered c.before cause c.after) ∨
          Completes c.timed (c.after, c.code)) := by
  constructor
  · exact h.counter fun c _ => c.timer
  · intro c _
    exact ⟨raises_timer_iff, fun hc => hc.entered c.step, c.without_timer⟩

/-- An instruction without effect, and the timer interrupt enabled with the match 5. -/
def timerArmed : CPUState where
  regs := fun _ => 0
  csrs
    | .pc => 0x80000000
    | .extraflags => 3
    | .timermatchl => 5
    | .mie => 0x80
    | .mstatus => 8
    | _ => 0
  mem := fun i => [0x13, 0x00, 0x00, 0x00].getD i 0
  memOffset := 0x80000000
  memSize := 8

/-- The first call executes the instruction at the time 5, the second one takes the
interrupt at the time 6. -/
theorem timer_run_timerArmed :
    ∃ c d : Call, Calls timerArmed [c, d] d.after ∧ timer d.after = 6 ∧
      Completes c.timed (c.after, c.code) ∧ Entered d.before .machineTimer d.after := by
  have hfetch : Fetches (updateTimer timerArmed 5) 0x13 := by constructor <;> decide
  have hnone : ∀ cause, ¬ Raises (updateTimer timerArmed 5) cause := by
    intro cause h
    have hexception : exception (updateTimer timerArmed 5) 0x13 = none := by decide
    rw [h.of_fetches hfetch] at hexception
    cases hexception
  obtain ⟨r, r', hr, hr', hdue⟩ : ∃ r r', rv32imaStep timerArmed 5 = .ok r ∧
      rv32imaStep r.1 1 = .ok r' ∧ Raises (updateTimer r.1 1) .machineTimer :=
    ⟨_, _, rfl, rfl, .timer (by decide) (by decide)⟩
  let c : Call := ⟨timerArmed, 5, r.1, r.2, hr⟩
  let d : Call := ⟨r.1, 1, r'.1, r'.2, hr'⟩
  have hrun : Calls timerArmed [c, d] d.after := .cons c (.cons d (.nil d.after))
  obtain ⟨hsum, hcalls⟩ := timer_run timerArmed d.after [c, d] hrun
  refine ⟨c, d, hrun, hsum, ?_, ((hcalls d (by simp)).2.1 hdue).2⟩
  rcases (hcalls c (by simp)).2.2 (hnone _) with ⟨cause, -, hraises, -⟩ | hcomplete
  · exact absurd hraises (hnone cause)
  · exact hcomplete

/-! ## The cycle counter -/

/-- `CYCLEH:CYCLEL`. -/
def cycles (s : CPUState) : BitVec 64 := s.csrs .cycleh ++ s.csrs .cyclel

/-- The word is `WFI`. -/
def IsWfi (ir : Word) : Prop :=
  (ir &&& 0x7f).toNat = 0x73 ∧ funct3 ir = 0 ∧ ir >>> 20 = 0x105

instance (ir : Word) : Decidable (IsWfi ir) := inferInstanceAs (Decidable (_ ∧ _))

/-- The word is a store to the device that ends the program. -/
def IsPowerOff (s : CPUState) (ir : Word) : Prop :=
  (ir &&& 0x7f).toNat = 0x23 ∧ storeOffset s ir ≥ s.memSize - 3 ∧
    storeOffset s ir + s.memOffset = 0x11100000

instance (s : CPUState) (ir : Word) : Decidable (IsPowerOff s ir) :=
  inferInstanceAs (Decidable (_ ∧ _))

/-- The call goes on to fetch an instruction. -/
def goesOn (s : CPUState) : Bool := ¬ asleep s ∧ ¬ timerInterrupt s

/-- The call executes an instruction that returns at once. -/
def returnsEarly (s : CPUState) : Bool :=
  match fetched s with
  | some ir => IsWfi ir ∨ IsPowerOff s ir
  | none => false

section
variable {s : CPUState} {pc ir cycle : Word}

/-- The `switch` is left with `return`. -/
def Flow.returns : Flow → Bool
  | .done _ => false
  | .ret _ _ => true

theorem store_returns {flow : Flow} (h : store s pc ir = .ok flow) :
    flow.returns = true ↔
      storeOffset s ir ≥ s.memSize - 3 ∧ storeOffset s ir + s.memOffset = 0x11100000 := by
  generalize hofs : storeOffset s ir = ofs
  unfold storeOffset at hofs
  unfold store at h
  dsimp only at h hofs
  rw [hofs] at h
  split at h
  next hout =>
    split at h
    next =>
      split at h
      next haddr =>
        obtain rfl := Except.ok.inj h
        exact iff_of_false Bool.false_ne_true
          fun hoff => absurd (haddr.symm.trans hoff.2) (by decide)
      next =>
        split at h
        next haddr =>
          obtain rfl := Except.ok.inj h
          exact iff_of_false Bool.false_ne_true fun hoff =>
            absurd (haddr.symm.trans hoff.2) (by decide)
        next =>
          split at h
          next haddr =>
            obtain rfl := Except.ok.inj h
            exact iff_of_true rfl ⟨hout, haddr⟩
          next haddr =>
            obtain rfl := Except.ok.inj h
            exact iff_of_false Bool.false_ne_true fun hoff => haddr hoff.2
    next hdev =>
      obtain rfl := Except.ok.inj h
      refine iff_of_false Bool.false_ne_true fun hoff => ?_
      rw [hoff.2] at hdev
      exact hdev (by decide)
  next hin =>
    have hdone : flow.returns = false := by
      split at h
      case h_4 => exact Except.ok.inj h ▸ rfl
      all_goals
        obtain ⟨t, -, h⟩ := bind_ok h
        exact Except.ok.inj h ▸ rfl
    exact iff_of_false (ne_true_of_eq_false hdone) fun hoff => hin hoff.1

theorem system_returns :
    (system s pc ir cycle).returns = true ↔ funct3 ir = 0 ∧ ir >>> 20 = 0x105 := by
  unfold system
  dsimp only
  by_cases hcsr : funct3 ir &&& 3 ≠ 0
  · rw [if_pos hcsr]
    refine iff_of_false Bool.false_ne_true fun hwfi => hcsr ?_
    rw [hwfi.1]
    decide
  rw [if_neg hcsr]
  by_cases hzero : funct3 ir = 0
  · rw [if_pos hzero]
    by_cases hwfi : ir >>> 20 = 0x105
    · rw [if_pos hwfi]
      exact iff_of_true rfl ⟨hzero, hwfi⟩
    · rw [if_neg hwfi]
      refine iff_of_false ?_ fun h => hwfi h.2
      repeat' split
      all_goals exact Bool.false_ne_true
  · rw [if_neg hzero]
    exact iff_of_false Bool.false_ne_true fun h => hzero h.1

/-- The instructions that leave the `switch` with `return`. -/
theorem execute_returns {flow : Flow} (h : execute s pc ir cycle = .ok flow) :
    flow.returns = true ↔ IsWfi ir ∨ IsPowerOff s ir := by
  unfold IsWfi IsPowerOff
  unfold execute at h
  generalize (ir &&& 0x7f).toNat = opcode at h ⊢
  split at h
  case h_6 | h_12 =>
    obtain ⟨l, -, rfl⟩ := map_ok h
    simp [Flow.returns]
  case h_7 => simpa using store_returns h
  case h_11 =>
    obtain rfl := Except.ok.inj h
    simpa using system_returns
  case h_13 =>
    obtain rfl := Except.ok.inj h
    simp_all [Flow.returns]
  all_goals
    obtain rfl := Except.ok.inj h
    simp [Flow.returns]

end

theorem returnsEarly_of_fetches {ir : Word} (hf : Fetches s ir) :
    returnsEarly s = true ↔ IsWfi ir ∨ IsPowerOff s ir := by
  unfold returnsEarly
  rw [fetched_eq_some.mpr hf]
  exact decide_eq_true_iff

theorem SameCounters.cycles (h : SameCounters s t) : cycles t = cycles s := by
  rw [Rv32.cycles, h .cycleh (by decide), h .cyclel (by decide), Rv32.cycles]

/-- The end of a step adds to the cycle counter what the variable `cycle` is ahead. -/
theorem cycleEnd_cycles (s : CPUState) (pc rval trap x : Word) :
    cycles (cycleEnd s pc rval trap (s.csrs .cyclel + x)).1 = cycles s + x.setWidth 64 := by
  obtain ⟨s', pc', hs', heq⟩ := cycleEnd_enter s pc rval trap (s.csrs .cyclel + x)
  rw [heq, ← hs'.cycles, ← hs' .cyclel (by decide)]
  unfold cycleEnd cycles
  rw [← Bits.append_add_carry]
  simp only [ne_eq, not_true_eq_false, if_false, gt_iff_lt]
  split <;> simp [csrs_setCsr]

/-- What a call adds to the cycle counter. -/
def counted (s : CPUState) : Bool := goesOn s && !returnsEarly s

theorem counted_of_goesOn (hawake : ¬ asleep s) (hquiet : ¬ timerInterrupt s) :
    counted s = !returnsEarly s := by
  simp [counted, goesOn, hawake, hquiet]

/-- An instruction that reaches the end of the `switch` is counted there. -/
theorem Fetches.counted {ir : Word} {l : Locals} (hf : Fetches s ir)
    (hexec : execute s (s.csrs .pc) ir (s.csrs .cyclel + 1) = .ok (.done l))
    (ht : t.csrs = l.state.csrs) (pc rval trap : Word) :
    Rv32.cycles (cycleEnd t pc rval trap (s.csrs .cyclel + 1)).1 =
      Rv32.cycles s + BitVec.ofNat 64 (Rv32.counted s).toNat := by
  have hsame : SameCounters s t := by
    intro r hr
    rw [ht]
    exact (execute_executed hexec).counters r hr
  have hearly : returnsEarly s = false := by
    rw [← Bool.not_eq_true, returnsEarly_of_fetches hf, ← execute_returns hexec]
    exact Bool.false_ne_true
  rw [counted_of_goesOn hf.awake hf.uninterrupted, hearly,
    ← hsame .cyclel (by decide), cycleEnd_cycles, hsame.cycles]
  rfl

/-- A step counts one cycle, or none. -/
theorem Outcome.cycles {r : CPUState × Word} (h : Outcome s r) :
    cycles r.1 = cycles s + BitVec.ofNat 64 (counted s).toNat := by
  cases h with
  | asleep h => simp [counted, goesOn, h]
  | interrupt _ h =>
      have hcycles := cycleEnd_cycles s (s.csrs .pc - 4) 0 0x80000007 0
      rw [add_zero] at hcycles
      simpa [counted, goesOn, h] using hcycles
  | fetchAccess hawake hquiet h =>
      have hnone : fetched s = none := if_pos (.inr (.inr (.inl h)))
      rw [counted_of_goesOn hawake hquiet, returnsEarly, hnone]
      exact cycleEnd_cycles s _ _ _ 1
  | misaligned hawake hquiet _ h =>
      have hnone : fetched s = none := if_pos (.inr (.inr (.inr h)))
      rw [counted_of_goesOn hawake hquiet, returnsEarly, hnone]
      exact cycleEnd_cycles s _ _ _ 1
  | ret hf hexec =>
      have hearly : returnsEarly s = true :=
        (returnsEarly_of_fetches hf).mpr ((execute_returns hexec).mp rfl)
      rw [counted, hearly, Bool.not_true, Bool.and_false]
      exact (execute_executed hexec).counters.cycles.trans (add_zero _).symm
  | trap hf hexec => exact hf.counted hexec rfl _ _ _
  | done hf hexec =>
      refine hf.counted hexec ?_ _ _ _
      split <;> rfl

theorem Call.cycles (c : Call) :
    cycles c.after = cycles c.before + BitVec.ofNat 64 (counted c.timed).toNat := by
  have hsame : Rv32.cycles c.timed = Rv32.cycles c.before := by
    rw [Rv32.cycles, Call.timed, updateTimer_csrs _ _ (by decide), updateTimer_csrs _ _ (by decide),
      Rv32.cycles]
  rw [← hsame]
  exact c.outcome.cycles

theorem sum_map_toNat {α : Type} (p : α → Bool) (l : List α) :
    (l.map fun a => (p a).toNat).sum = l.countP p := by
  induction l with
  | nil => rfl
  | cons a l ih =>
      rw [List.map_cons, List.sum_cons, ih, List.countP_cons]
      cases p a <;> simp [Nat.add_comm]

/-- Over every run the cycle counter advances by the number of calls that go on to
fetch an instruction and do not return early.  A call that goes on is counted exactly
if it does not return early, and no other call is counted. -/
theorem cycles_run (s t : CPUState) (cs : List Call) (h : Calls s cs t) :
    cycles t = cycles s +
      BitVec.ofNat 64 (cs.countP fun c => goesOn c.timed && !returnsEarly c.timed) ∧
    ∀ c ∈ cs,
      (goesOn c.timed = true →
        (cycles c.after = cycles c.before + 1 ↔ returnsEarly c.timed = false)) ∧
      (goesOn c.timed = false → cycles c.after = cycles c.before) := by
  constructor
  · rw [← sum_map_toNat]
    exact h.counter fun c _ => c.cycles
  · intro c _
    rw [c.cycles, counted]
    constructor
    · intro hgo
      cases hearly : returnsEarly c.timed <;> simp [hgo]
    · intro hstop
      simp [hstop]

/-- `addi x6, x6, 1` is counted. -/
theorem cycles_run_addi :
    ∃ c : Call, c.before = oneWord 0x00130313 ∧ goesOn c.timed = true ∧
      returnsEarly c.timed = false ∧ cycles c.after = cycles c.before + 1 := by
  have hgo : goesOn (updateTimer (oneWord 0x00130313) 1) = true := by decide
  have hlate : returnsEarly (updateTimer (oneWord 0x00130313) 1) = false := by decide
  obtain ⟨r, hr⟩ : ∃ r, rv32imaStep (oneWord 0x00130313) 1 = .ok r := ⟨_, rfl⟩
  let c : Call := ⟨oneWord 0x00130313, 1, r.1, r.2, hr⟩
  have hrun := cycles_run c.before c.after [c] (.cons c (.nil c.after))
  exact ⟨c, rfl, hgo, hlate, ((hrun.2 c (List.mem_singleton.mpr rfl)).1 hgo).mpr hlate⟩

/-- The word `ir` in a memory of one word, with `a` in `x6`. -/
def oneWordAt (ir a : Word) : CPUState :=
  { oneWord ir with regs := Function.update (fun _ => 0) 6 a }

/-- The call fetches an instruction and leaves the counter at 0. -/
def NotCounted (s : CPUState) : Prop :=
  goesOn (updateTimer s 1) = true ∧
    (rv32imaStep s 1).map (fun r => (cycles s, cycles r.1)) = .ok (0, 0)

/-- `wfi`, and `sw x0, 0(x6)` to the device that ends the program, are fetched and not
counted. -/
theorem cycles_not_counted :
    NotCounted (oneWordAt 0x10500073 0) ∧ NotCounted (oneWordAt 0x00032023 0x11100000) := by
  unfold NotCounted
  decide

end OsCourse.Rv32
