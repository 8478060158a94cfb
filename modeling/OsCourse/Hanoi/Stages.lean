import OsCourse.Hanoi.Recursive
import OsCourse.Hanoi.Stack
import OsCourse.Lib.Loop

/-!
# Hanoi with a stage in every frame

The loop of `hanoi-o3mini.c`.  A frame is entered at stage 0, waits for its first
half at stage 1 and for its second half at stage 2.  The pegs come in the order
`from, aux, to`, and each half exchanges two of them.
-/

namespace OsCourse.Hanoi.Staged

variable {Peg : Type}

/-- A frame of the global stack. -/
structure Frame (Peg : Type) where
  n : Int
  source : Peg
  aux : Peg
  target : Peg
  stage : Nat

/-- The global stack and the lines printed. -/
structure State (Peg : Type) where
  stack : List (Frame Peg)
  out : List (Move Peg)

/-- `STACK_SIZE`. -/
def stackSize : Nat := 1000

def State.push (s : State Peg) (frame : Frame Peg) : Except Exit (State Peg) :=
  return { s with stack := ← Hanoi.push (some stackSize) frame s.stack }

def State.pop (s : State Peg) : Except Exit (State Peg) :=
  return { s with stack := ← Hanoi.pop s.stack }

def State.move (s : State Peg) (source target : Peg) : State Peg :=
  { s with out := s.out ++ [⟨source, target⟩] }

/-- A round of the loop over the frame on top of `rest`. -/
def round (s : State Peg) (current : Frame Peg) (rest : List (Frame Peg)) :
    Except Exit (State Peg) :=
  if current.n = 1 ∧ current.stage = 0 then
    (s.move current.source current.target).pop
  else if current.stage = 0 then
    let s := { s with stack := { current with stage := 1 } :: rest }
    s.push ⟨current.n - 1, current.source, current.target, current.aux, 0⟩
  else if current.stage = 1 then
    let s := s.move current.source current.target
    let s := { s with stack := { current with stage := 2 } :: rest }
    s.push ⟨current.n - 1, current.aux, current.source, current.target, 0⟩
  else
    s.pop

/-- The `while` loop. -/
def machine : Loop (State Peg) Exit where
  guard s := !s.stack.isEmpty
  body s :=
    match s.stack with
    | [] => .ok s
    | current :: rest => round s current rest

/-- The global state in which `main` calls `hanoi`. -/
def init : State Peg := ⟨[], []⟩

/-- `hanoi` of `hanoi-o3mini.c`: the global state it leaves. -/
def hanoi (fuel : Nat) (n : Int) (source aux target : Peg) :
    Option (Except Exit (State Peg)) :=
  match init.push ⟨n, source, aux, target, 0⟩ with
  | .error e => some (.error e)
  | .ok s => machine.run fuel s

/-! ## The contract of a frame -/

/-- The rounds that lead from `s` to `t` never see more than `bound` frames. -/
abbrev Within (bound : Nat) : State Peg → State Peg → Prop :=
  machine.Path fun s => s.stack.length ≤ bound

section
variable {bound : Nat} {frame : Frame Peg} {rest : List (Frame Peg)} {out : List (Move Peg)}

theorem within_round {t : State Peg} (hbound : rest.length + 1 ≤ bound)
    (hround : round ⟨frame :: rest, out⟩ frame rest = .ok t) :
    Within bound ⟨frame :: rest, out⟩ t :=
  .single (by simpa using hbound) rfl hround

theorem push_ok (h : rest.length < stackSize) (frame : Frame Peg) :
    State.push ⟨rest, out⟩ frame = .ok ⟨frame :: rest, out⟩ := by
  have hroom : hasRoom (some stackSize) rest.length = true := decide_eq_true h
  simp only [State.push, push_eq hroom]
  rfl

end

/-- A frame that is entered is gone after a number of rounds, and has printed the
moves of its tower. -/
theorem frame_done (k : Nat) {bound : Nat} {rest : List (Frame Peg)} {out : List (Move Peg)}
    (a b c : Peg) (hbound : rest.length + (k + 1) ≤ bound) (hsize : bound ≤ stackSize) :
    Within bound ⟨⟨(k + 1 : Nat), a, c, b, 0⟩ :: rest, out⟩
      ⟨rest, out ++ moves (k + 1) a b c⟩ := by
  induction k generalizing rest out a b c with
  | zero => exact within_round (by omega) rfl
  | succ k ih =>
      have hroom : rest.length + 1 ≤ bound := by omega
      have hpush : (rest.length + 1) < stackSize := by omega
      have hn : ((k + 1 + 1 : Nat) : Int) - 1 = (k + 1 : Nat) := by omega
      have hne : ((k + 1 + 1 : Nat) : Int) ≠ 1 := by omega
      let f (stage : Nat) : Frame Peg := ⟨(k + 1 + 1 : Nat), a, c, b, stage⟩
      have enter : Within bound ⟨f 0 :: rest, out⟩
          ⟨⟨(k + 1 : Nat), a, b, c, 0⟩ :: f 1 :: rest, out⟩ := by
        refine within_round hroom ?_
        rw [round, if_neg (fun h => hne h.1), if_pos rfl, hn]
        exact push_ok (by simpa using hpush) _
      have left : Within bound ⟨⟨(k + 1 : Nat), a, b, c, 0⟩ :: f 1 :: rest, out⟩
          ⟨f 1 :: rest, out ++ moves (k + 1) a c b⟩ :=
        ih a c b (by simp only [List.length_cons]; omega)
      have middle : Within bound ⟨f 1 :: rest, out ++ moves (k + 1) a c b⟩
          ⟨⟨(k + 1 : Nat), c, a, b, 0⟩ :: f 2 :: rest,
            out ++ moves (k + 1) a c b ++ [⟨a, b⟩]⟩ := by
        refine within_round hroom ?_
        rw [round, if_neg (fun h => hne h.1), if_neg (by simp [f]), if_pos rfl, hn]
        exact push_ok (by simpa using hpush) _
      have right : Within bound ⟨⟨(k + 1 : Nat), c, a, b, 0⟩ :: f 2 :: rest,
            out ++ moves (k + 1) a c b ++ [⟨a, b⟩]⟩
          ⟨f 2 :: rest, out ++ moves (k + 1) a c b ++ [⟨a, b⟩] ++ moves (k + 1) c b a⟩ :=
        ih c b a (by simp only [List.length_cons]; omega)
      have leave : Within bound
          ⟨f 2 :: rest, out ++ moves (k + 1) a c b ++ [⟨a, b⟩] ++ moves (k + 1) c b a⟩
          ⟨rest, out ++ moves (k + 1) a c b ++ [⟨a, b⟩] ++ moves (k + 1) c b a⟩ := by
        refine within_round hroom ?_
        rw [round, if_neg (fun h => hne h.1), if_neg (by simp [f]), if_neg (by simp [f])]
        rfl
      rw [moves, ← List.append_assoc, ← List.append_assoc]
      exact enter.trans (left.trans (middle.trans (right.trans leave)))

/-! ## The whole program -/

/-- For every height up to the size of the stack the loop ends with an empty
stack, after the moves that the recursion prints with its last two pegs
exchanged.  It takes no exit. -/
theorem hanoi_prints_recursion (n : Int) (source aux target : Peg) (hpos : 1 ≤ n)
    (hsize : n ≤ 1000) :
    ∃ out val,
      (∀ fuel : Nat, n ≤ fuel → Hanoi.hanoi fuel n source target aux = some (out, val)) ∧
      (∃ enough, ∀ fuel, enough ≤ fuel →
        hanoi fuel n source aux target = some (.ok ⟨[], out⟩)) ∧
      ∀ fuel e, hanoi fuel n source aux target ≠ some (.error e) := by
  obtain ⟨k, rfl⟩ : ∃ k : Nat, n = (k + 1 : Nat) := ⟨(n - 1).toNat, by omega⟩
  have hpush : (init : State Peg).push ⟨(k + 1 : Nat), source, aux, target, 0⟩ =
      .ok ⟨[⟨(k + 1 : Nat), source, aux, target, 0⟩], []⟩ :=
    push_ok (by simp [stackSize]) _
  have hpath : Within (k + 1) ⟨[⟨(k + 1 : Nat), source, aux, target, 0⟩], []⟩
      ⟨[], moves (k + 1) source target aux⟩ :=
    frame_done k source target aux (by simp) (by unfold stackSize; omega)
  refine ⟨moves (k + 1) source target aux, count (k + 1), fun fuel hfuel => ?_, ?_,
    fun fuel e => ?_⟩
  · exact hanoi_eq k fuel (by omega) source target aux
  · obtain ⟨enough, hrun⟩ := hpath.run_eq rfl
    refine ⟨enough, fun fuel hfuel => ?_⟩
    rw [hanoi, hpush]
    exact hrun fuel hfuel
  · rw [hanoi, hpush]
    exact hpath.run_ne_error rfl fuel e

/-- The call of `main`. -/
theorem hanoi_prints_recursion_three :
    (1 : Int) ≤ 3 ∧ (3 : Int) ≤ 1000 ∧ ∃ out val,
      (∀ fuel : Nat, (3 : Int) ≤ fuel → Hanoi.hanoi fuel 3 'A' 'C' 'B' = some (out, val)) ∧
      (∃ enough, ∀ fuel, enough ≤ fuel → hanoi fuel 3 'A' 'B' 'C' = some (.ok ⟨[], out⟩)) ∧
      ∀ fuel e, hanoi fuel 3 'A' 'B' 'C' ≠ some (.error e) :=
  ⟨by decide, by decide, hanoi_prints_recursion 3 'A' 'B' 'C' (by decide) (by decide)⟩

end OsCourse.Hanoi.Staged
