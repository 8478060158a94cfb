import OsCourse.Hanoi.Recursive
import OsCourse.Lib.Loop

/-!
# Hanoi on an explicit stack of frames

The loop of `hanoi-nr.c`.  Every frame has its own program counter and a round of
the loop executes one statement of the frame on top.  The frames stand in an
array of 64 cells that is not initialised, `top` counts those in use, and one
`retval` is shared by all of them.  A round ends with `f->pc = next_pc`, also
when its statement was a return and the frame `f` is popped already, so popped
cells do change.

`Returned` is the contract of a call: when the frame that it pushed is gone, the
cells below are as they were, the moves of the tower are printed and `retval` is
their number.  `tower_returns` proves it by induction on the height of the tower,
from one lemma for each kind of round.
-/

namespace OsCourse.Hanoi.Nr

variable {Peg : Type}

/-- `struct Frame`: a program counter, the arguments and the local variables. -/
structure Frame (Peg : Type) where
  pc : Nat
  n : Int
  source : Peg
  target : Peg
  via : Peg
  c1 : CInt
  c2 : CInt

/-- The frame with its program counter set. -/
def Frame.jump (f : Frame Peg) (pc : Nat) : Frame Peg :=
  { f with pc := pc }

/-- What ends the program: `assert(0)`, or a frame pushed past the array, where
the behaviour of the program is undefined. -/
inductive Fault where
  | assertion
  | overrun
  deriving Repr, DecidableEq

/-- The local variables of `hanoi` and what it has printed.  `top` is the number
of frames, one more than the index the C pointer stands for. -/
structure State (Peg : Type) where
  stk : Nat → Frame Peg
  top : Nat
  retval : CInt
  out : List (Move Peg)

/-- The cells of `stk`. -/
def stackSize : Nat := 64

/-- `call`: push a new frame. -/
def call (s : State Peg) (n : Int) (source target via : Peg) : Except Fault (State Peg) :=
  if s.top < stackSize then
    .ok { s with
      stk := Function.update s.stk s.top ⟨0, n, source, target, via, 0, 0⟩
      top := s.top + 1 }
  else .error .overrun

/-- `ret`: pop the frame on top. -/
def ret (s : State Peg) (val : CInt) : State Peg :=
  { s with top := s.top - 1, retval := val }

def State.print (s : State Peg) (m : Move Peg) : State Peg :=
  { s with out := s.out ++ [m] }

/-- Assign to the fields of the frame in a cell. -/
def State.setFrame (s : State Peg) (i : Nat) (f : Frame Peg → Frame Peg) : State Peg :=
  { s with stk := Function.update s.stk i (f (s.stk i)) }

/-- The `switch` of a round, over the frame `f` in cell `i`. -/
def statement (s : State Peg) (i : Nat) (f : Frame Peg) : Except Fault (State Peg) :=
  match f.pc with
  | 0 => .ok (if f.n = 1 then ret (s.print ⟨f.source, f.target⟩) 1 else s)
  | 1 => call s (f.n - 1) f.source f.via f.target
  | 2 => .ok (s.setFrame i fun f => { f with c1 := s.retval })
  | 3 => call s 1 f.source f.target f.via
  | 4 => call s (f.n - 1) f.via f.target f.source
  | 5 => .ok (s.setFrame i fun f => { f with c2 := s.retval })
  | 6 => .ok (ret s (f.c1 + f.c2 + 1))
  | _ => .error .assertion

/-- The `while` loop. -/
def machine : Loop (State Peg) Fault where
  guard s := decide (0 < s.top)
  body s := do
    let i := s.top - 1
    let f := s.stk i
    let s ← statement s i f
    return s.setFrame i fun g => g.jump (f.pc + 1)

/-- The state before the initial call.  The array holds whatever it holds. -/
def init (stk : Nat → Frame Peg) : State Peg :=
  ⟨stk, 0, 0, []⟩

/-- `hanoi` of `hanoi-nr.c`: the lines printed and the value returned. -/
def hanoi (stk : Nat → Frame Peg) (fuel : Nat) (n : Int) (source target via : Peg) :
    Option (Except Fault (List (Move Peg) × CInt)) :=
  match call (init stk) n source target via with
  | .error e => some (.error e)
  | .ok s => (machine.run fuel s).map fun r => r.map fun t => (t.out, t.retval)

/-! ## Rounds -/

/-- The frame of a call that has just been pushed. -/
def entry (n : Int) (source target via : Peg) : Frame Peg :=
  ⟨0, n, source, target, via, 0, 0⟩

/-- The frame `f` is on top, in the cell `i`, and the cells below it are those of
`below`. -/
structure Live (below : Nat → Frame Peg) (i : Nat) (f : Frame Peg) (s : State Peg) : Prop where
  top : s.top = i + 1
  frame : s.stk i = f
  rest : ∀ j < i, s.stk j = below j

/-- The rounds that lead from `s` to `t` never see more than `bound` frames. -/
abbrev Within (bound : Nat) : State Peg → State Peg → Prop :=
  machine.Path fun s => s.top ≤ bound

section
variable {below : Nat → Frame Peg} {i bound : Nat} {f : Frame Peg} {s t : State Peg}

theorem setFrame_id (s : State Peg) (i : Nat) : s.setFrame i id = s := by
  simp [State.setFrame]

/-- A round is the statement of the frame on top and the write of its counter. -/
theorem Live.round (h : Live below i f s) (hbound : i + 1 ≤ bound)
    (hstmt : statement s i f = .ok t) :
    Within bound s (t.setFrame i fun g => g.jump (f.pc + 1)) := by
  have hi : s.top - 1 = i := by have := h.top; omega
  refine .single (h.top.trans_le hbound) (by simp [machine, h.top]) ?_
  simp only [machine, hi, h.frame, hstmt]
  rfl

/-- A round that works on the frame alone. -/
theorem Live.local_round (h : Live below i f s) (hbound : i + 1 ≤ bound)
    (g : Frame Peg → Frame Peg) (hstmt : statement s i f = .ok (s.setFrame i g)) :
    ∃ t, Within bound s t ∧ Live below i ((g f).jump (f.pc + 1)) t ∧
      t.retval = s.retval ∧ t.out = s.out := by
  refine ⟨_, h.round hbound hstmt, ⟨h.top, ?_, fun j hj => ?_⟩, rfl, rfl⟩
  · simp [State.setFrame, h.frame]
  · simp [State.setFrame, Function.update_of_ne hj.ne, h.rest j hj]

/-- A round that calls: the new frame is on top of the one that called, whose
counter is moved on. -/
theorem Live.call_round (h : Live below i f s) (hbound : i + 1 ≤ bound)
    (hsize : i + 1 < stackSize) {n : Int} {a b c : Peg}
    (hstmt : statement s i f = call s n a b c) :
    ∃ t, Within bound s t ∧ t.retval = s.retval ∧ t.out = s.out ∧
      Live (Function.update below i (f.jump (f.pc + 1))) (i + 1) (entry n a b c) t := by
  have hpush : statement s i f = .ok { s with
      stk := Function.update s.stk (i + 1) (entry n a b c)
      top := i + 2 } := by
    rw [hstmt, call, if_pos (h.top.trans_lt hsize), h.top]
    rfl
  refine ⟨_, h.round hbound hpush, rfl, rfl, ⟨rfl, ?_, fun j hj => ?_⟩⟩
  · simp [State.setFrame]
  · by_cases hji : j = i
    · subst hji
      simp [State.setFrame, h.frame]
    · have hlt : j < i := by omega
      have hj' : j ≠ i + 1 := by omega
      simp [State.setFrame, Function.update_of_ne hji, Function.update_of_ne hj',
        h.rest j hlt]

end

/-! ## The contract of a call -/

/-- A frame in the cell `i` that had to move a tower of `n` discs has returned:
the cells below are those of `below`, and it has printed its moves after `out`. -/
structure Returned (below : Nat → Frame Peg) (i n : Nat) (a b c : Peg)
    (out : List (Move Peg)) (t : State Peg) : Prop where
  top : t.top = i
  rest : ∀ j < i, t.stk j = below j
  retval : t.retval = count n
  out : t.out = out ++ moves n a b c

/-- A frame entered for a tower of `n` discs in the cell `i` returns. -/
def Returns (Peg : Type) (bound i n : Nat) : Prop :=
  ∀ {below : Nat → Frame Peg} {s : State Peg} {a b c : Peg},
    Live below i (entry n a b c) s →
    ∃ t, Within bound s t ∧ Returned below i n a b c s.out t

variable {below : Nat → Frame Peg} {i bound n : Nat} {f : Frame Peg} {s : State Peg}

/-- One disc: print it and return. -/
theorem disc_returns (hbound : i + 1 ≤ bound) : Returns Peg bound i 1 := by
  intro below s a b c h
  have hstmt : statement s i (entry ((1 : Nat) : Int) a b c) =
      .ok (ret (s.print ⟨a, b⟩) 1) := by
    simp [statement, entry]
  refine ⟨_, h.round hbound hstmt, ⟨?_, fun j hj => ?_, rfl, rfl⟩⟩
  · simp [State.setFrame, ret, State.print, h.top]
  · simp [State.setFrame, ret, State.print, Function.update_of_ne hj.ne, h.rest j hj]

/-- A call and everything that the called frame does. -/
theorem Live.call_returns (h : Live below i f s) (hbound : i + 1 ≤ bound)
    (hsize : i + 1 < stackSize) (hret : Returns Peg bound (i + 1) n) {a b c : Peg}
    (hstmt : statement s i f = call s n a b c) :
    ∃ t, Within bound s t ∧ Live below i (f.jump (f.pc + 1)) t ∧
      t.retval = count n ∧ t.out = s.out ++ moves n a b c := by
  obtain ⟨m, hpath, _, hout, hlive⟩ := h.call_round hbound hsize hstmt
  obtain ⟨t, hpath', hreturned⟩ := hret hlive
  refine ⟨t, hpath.trans hpath', ⟨hreturned.top, ?_, fun j hj => ?_⟩, hreturned.retval,
    hout ▸ hreturned.out⟩
  · rw [hreturned.rest i (by omega), Function.update_self]
  · rw [hreturned.rest j (by omega), Function.update_of_ne hj.ne]

/-- Every frame returns that has room for one frame per disc. -/
theorem tower_returns (n i bound : Nat) (hbound : i + (n + 1) ≤ bound)
    (hsize : bound ≤ stackSize) : Returns Peg bound i (n + 1) := by
  induction n generalizing i with
  | zero => exact disc_returns hbound
  | succ n ih =>
      intro below s a b c h₀
      have hroom : i + 1 ≤ bound := by omega
      have hcell : i + 1 < stackSize := by omega
      have hcall : Returns Peg bound (i + 1) (n + 1) := ih (i + 1) (by omega)
      have hdisc : Returns Peg bound (i + 1) 1 := disc_returns (by omega)
      have hn : ((n + 1 + 1 : Nat) : Int) - 1 = (n + 1 : Nat) := by omega
      have hne : ((n + 1 + 1 : Nat) : Int) ≠ 1 := by omega
      -- The statements of the frame, in the order of its counter.
      let f (pc : Nat) (c1 c2 : CInt) : Frame Peg := ⟨pc, (n + 1 + 1 : Nat), a, b, c, c1, c2⟩
      obtain ⟨s₁, p₁, (h₁ : Live below i (f 1 0 0) s₁), _, o₁⟩ :=
        h₀.local_round hroom id (by rw [setFrame_id]; exact congrArg Except.ok (if_neg hne))
      obtain ⟨s₂, p₂, (h₂ : Live below i (f 2 0 0) s₂), r₂, o₂⟩ :=
        h₁.call_returns (a := a) (b := c) (c := b) hroom hcell hcall (by rw [← hn]; rfl)
      obtain ⟨s₃, p₃, (h₃ : Live below i (f 3 s₂.retval 0) s₃), _, o₃⟩ :=
        h₂.local_round hroom (fun g => { g with c1 := s₂.retval }) rfl
      obtain ⟨s₄, p₄, (h₄ : Live below i (f 4 s₂.retval 0) s₄), _, o₄⟩ :=
        h₃.call_returns (a := a) (b := b) (c := c) hroom hcell hdisc rfl
      obtain ⟨s₅, p₅, (h₅ : Live below i (f 5 s₂.retval 0) s₅), r₅, o₅⟩ :=
        h₄.call_returns (a := c) (b := b) (c := a) hroom hcell hcall (by rw [← hn]; rfl)
      obtain ⟨s₆, p₆, (h₆ : Live below i (f 6 s₂.retval s₅.retval) s₆), _, o₆⟩ :=
        h₅.local_round hroom (fun g => { g with c2 := s₅.retval }) rfl
      have p₇ := h₆.round (t := ret s₆ (s₂.retval + s₅.retval + 1)) hroom rfl
      refine ⟨_, p₁.trans (p₂.trans (p₃.trans (p₄.trans (p₅.trans (p₆.trans p₇))))),
        ⟨?_, fun j hj => ?_, ?_, ?_⟩⟩
      · simp [State.setFrame, ret, h₆.top]
      · simp [State.setFrame, ret, Function.update_of_ne hj.ne, h₆.rest j hj]
      · simp [State.setFrame, ret, r₂, r₅, count]
      · simp [State.setFrame, ret, o₁, o₂, o₃, o₄, o₅, o₆, moves]

/-! ## The whole program -/

/-- For every height up to the size of the array the loop returns what the
recursion returns, whatever the array holds at the start.  It never fails and
never holds more frames than there are discs. -/
theorem hanoi_refines_recursion (stk : Nat → Frame Peg) (n : Int) (source target via : Peg)
    (hpos : 1 ≤ n) (hsize : n ≤ 64) :
    ∃ out val start,
      (∀ fuel : Nat, n ≤ fuel → Hanoi.hanoi fuel n source target via = some (out, val)) ∧
      call (init stk) n source target via = .ok start ∧
      (∃ enough, ∀ fuel, enough ≤ fuel →
        hanoi stk fuel n source target via = some (.ok (out, val))) ∧
      (∀ fuel e, hanoi stk fuel n source target via ≠ some (.error e)) ∧
      ∀ s, machine.Reaches start s → s.top ≤ n := by
  obtain ⟨k, rfl⟩ : ∃ k : Nat, n = (k + 1 : Nat) := ⟨(n - 1).toNat, by omega⟩
  let start : State Peg :=
    ⟨Function.update stk 0 (entry (k + 1 : Nat) source target via), 1, 0, []⟩
  have hcall : call (init stk) (k + 1 : Nat) source target via = .ok start := rfl
  have hlive : Live stk 0 (entry (k + 1 : Nat) source target via) start :=
    ⟨rfl, by simp [start], fun j hj => absurd hj (Nat.not_lt_zero j)⟩
  obtain ⟨t, hpath, ht⟩ :=
    tower_returns k 0 (k + 1) (by omega) (by unfold stackSize; omega) hlive
  have hend : machine.guard t = false := by simp [machine, ht.top]
  refine ⟨moves (k + 1) source target via, count (k + 1), start, fun fuel hfuel => ?_, hcall,
    ?_, fun fuel e => ?_, fun s hs => ?_⟩
  · exact hanoi_eq k fuel (by omega) source target via
  · obtain ⟨enough, hrun⟩ := hpath.run_eq hend
    refine ⟨enough, fun fuel hfuel => ?_⟩
    have hout : t.out = moves (k + 1) source target via := ht.out
    simp only [hanoi, hcall, hrun fuel hfuel, Option.map_some, Except.map, hout, ht.retval]
  · rw [hanoi, hcall]
    rcases hpath.run_cases hend fuel with hrun | hrun <;> simp [hrun, Except.map]
  · exact_mod_cast hpath.forall_reaches hend (by simp [ht.top]) hs

/-- Three discs between pegs named by characters, in an array of zeroed frames. -/
theorem hanoi_refines_recursion_three :
    (1 : Int) ≤ 3 ∧ (3 : Int) ≤ 64 ∧ ∃ out val start,
      (∀ fuel : Nat, (3 : Int) ≤ fuel → Hanoi.hanoi fuel 3 'A' 'B' 'C' = some (out, val)) ∧
      call (init fun _ => entry 0 'A' 'A' 'A') 3 'A' 'B' 'C' = .ok start ∧
      (∃ enough, ∀ fuel, enough ≤ fuel →
        hanoi (fun _ => entry 0 'A' 'A' 'A') fuel 3 'A' 'B' 'C' = some (.ok (out, val))) ∧
      (∀ fuel e, hanoi (fun _ => entry 0 'A' 'A' 'A') fuel 3 'A' 'B' 'C' ≠ some (.error e)) ∧
      ∀ s, machine.Reaches start s → (s.top : Int) ≤ 3 :=
  ⟨by decide, by decide,
    hanoi_refines_recursion (fun _ => entry 0 'A' 'A' 'A') 3 'A' 'B' 'C' (by decide) (by decide)⟩

end OsCourse.Hanoi.Nr
