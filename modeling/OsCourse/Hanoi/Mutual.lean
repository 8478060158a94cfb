import OsCourse.Hanoi.Stack
import OsCourse.Lib.Loop
import Mathlib.Tactic

/-!
# A mutual recursion and its stack versions

`f` and `g` of `f_g.c` call each other, and `g n` calls `f (n + 1)`.  The program
has two loops that replace the recursion by a stack of frames, each with a flag
for the function and a stage: `f_g.c` pushes the first call, comes back to the
frame and pushes the second, `f_g1.c` pushes both at once.  Neither of them
returns a value from a frame.  They add 1 for every call that does not recurse.

All four are compared with `Eval`, the evaluation of a call as a relation, which
also counts how many frames are open at once.  `exists_eval` is the termination
argument, with the measures `2 * n` for `f n` and `2 * n + 3` for `g n`, and the
contracts of the recursion and of both loops go by induction on the evaluation.
-/

namespace OsCourse.Hanoi.Mutual

/-! ## The recursion -/

mutual

/-- `f`, with fuel for the depth of the recursion. -/
def f : Nat → Int → Option Int
  | 0, _ => none
  | fuel + 1, n =>
      if n ≤ 1 then some 1
      else do return (← f fuel (n - 1)) + (← g fuel (n - 2))

/-- `g`, with fuel for the depth of the recursion. -/
def g : Nat → Int → Option Int
  | 0, _ => none
  | fuel + 1, n =>
      if n ≤ 1 then some 1
      else do return (← f fuel (n + 1)) + (← g fuel (n - 1))

end

/-! ## The loops -/

/-- A frame: the argument, 0 for `f` and 1 for `g`, and the stage. -/
structure Frame where
  n : Int
  flag : Nat
  stage : Nat
  deriving Repr, DecidableEq

/-- The global stack and the local variable `ans`. -/
structure State where
  stack : List Frame
  ans : Int
  deriving Repr, DecidableEq

def State.push (size : Option Nat) (frame : Frame) (s : State) : Except Exit State :=
  return { s with stack := ← Hanoi.push size frame s.stack }

def State.pop (s : State) : Except Exit State :=
  return { s with stack := ← Hanoi.pop s.stack }

/-- A round of the loop of `f_g.c` over the frame on top of `rest`. -/
def round (size : Option Nat) (s : State) (current : Frame) (rest : List Frame) :
    Except Exit State :=
  if current.n ≤ 1 ∧ current.stage = 0 then
    { s with ans := s.ans + 1 }.pop
  else if current.stage = 0 then
    let s := { s with stack := { current with stage := 1 } :: rest }
    if current.flag = 0 then s.push size ⟨current.n - 1, 0, 0⟩
    else if current.flag = 1 then s.push size ⟨current.n + 1, 0, 0⟩
    else .ok s
  else if current.stage = 1 then
    let s := { s with stack := { current with stage := 2 } :: rest }
    if current.flag = 0 then s.push size ⟨current.n - 2, 1, 0⟩
    else if current.flag = 1 then s.push size ⟨current.n - 1, 1, 0⟩
    else .ok s
  else if current.stage = 2 then s.pop
  else .ok s

/-- A round of the loop of `f_g1.c` over the frame on top of `rest`. -/
def round₁ (size : Option Nat) (s : State) (current : Frame) (rest : List Frame) :
    Except Exit State :=
  if current.n ≤ 1 ∧ current.stage = 0 then
    { s with ans := s.ans + 1 }.pop
  else if current.stage = 0 then
    let s := { s with stack := { current with stage := 1 } :: rest }
    if current.flag = 0 then do
      let s ← s.push size ⟨current.n - 1, 0, 0⟩
      s.push size ⟨current.n - 2, 1, 0⟩
    else if current.flag = 1 then do
      let s ← s.push size ⟨current.n + 1, 0, 0⟩
      s.push size ⟨current.n - 1, 1, 0⟩
    else .ok s
  else if current.stage = 1 then s.pop
  else .ok s

/-- The `while` loop around a round, the same in both programs. -/
def machine (round : State → Frame → List Frame → Except Exit State) : Loop State Exit where
  guard s := !s.stack.isEmpty
  body s :=
    match s.stack with
    | [] => .ok s
    | current :: rest => round s current rest

/-- `f_g` around one of the two loops, called with an empty stack. -/
def call (size : Option Nat) (round : State → Frame → List Frame → Except Exit State)
    (fuel : Nat) (n : Int) (flag : Nat) : Option (Except Exit Int) :=
  match State.push size ⟨n, flag, 0⟩ ⟨[], 0⟩ with
  | .error e => some (.error e)
  | .ok s => ((machine round).run fuel s).map fun r => r.map State.ans

/-- `f_g` of `f_g.c`. -/
def f_g (size : Option Nat) : Nat → Int → Nat → Option (Except Exit Int) :=
  call size (round size)

/-- `f_g` of `f_g1.c`. -/
def f_g₁ (size : Option Nat) : Nat → Int → Nat → Option (Except Exit Int) :=
  call size (round₁ size)

/-! ## Evaluation of a call -/

/-- The argument of the call of `f` that a call at `n` makes. -/
def leftArg (flag : Nat) (n : Int) : Int :=
  if flag = 0 then n - 1 else n + 1

/-- The argument of the call of `g` that a call at `n` makes. -/
def rightArg (flag : Nat) (n : Int) : Int :=
  if flag = 0 then n - 2 else n - 1

/-- The call of the function `flag` at `n` has the value `v`, and at most `d`
calls are open at once on the way. -/
inductive Eval : Nat → Int → Int → Nat → Prop where
  | leaf {flag : Nat} {n : Int} (hn : n ≤ 1) : Eval flag n 1 1
  | node {flag : Nat} {n a b : Int} {d e : Nat} (hflag : flag = 0 ∨ flag = 1) (hn : 1 < n)
      (left : Eval 0 (leftArg flag n) a d) (right : Eval 1 (rightArg flag n) b e) :
      Eval flag n (a + b) (max d e + 1)

variable {flag d : Nat} {n v : Int}

/-- Every call below the measure `k` can be evaluated. -/
theorem exists_eval_of_le (k : Nat) (hflag : flag = 0 ∨ flag = 1) (h : 2 * n + 3 * flag ≤ k) :
    ∃ v d, Eval flag n v d := by
  induction k generalizing flag n with
  | zero => exact ⟨1, 1, .leaf (by omega)⟩
  | succ k ih =>
      by_cases hn : n ≤ 1
      · exact ⟨1, 1, .leaf hn⟩
      · have hl : 2 * leftArg flag n ≤ k := by
          rcases hflag with rfl | rfl <;> simp [leftArg] <;> omega
        have hr : 2 * rightArg flag n + 3 ≤ k := by
          rcases hflag with rfl | rfl <;> simp [rightArg] <;> omega
        obtain ⟨a, d, ha⟩ := ih (.inl rfl) (by simpa using hl)
        obtain ⟨b, e, hb⟩ := ih (.inr rfl) (by simpa using hr)
        exact ⟨a + b, max d e + 1, .node hflag (by omega) ha hb⟩

/-- Every call of `f` and of `g` can be evaluated. -/
theorem exists_eval (hflag : flag = 0 ∨ flag = 1) (n : Int) :
    ∃ v d, Eval flag n v d :=
  exists_eval_of_le (2 * n + 3 * flag).toNat hflag (by omega)

section
variable {flag : Nat} {n v : Int} {d : Nat}

/-- How many calls are open at once. -/
theorem Eval.depth_cases (h : Eval flag n v d) :
    (n ≤ 1 ∧ d = 1) ∨ (flag = 0 ∧ n = 2 ∧ d = 2) ∨
    (flag = 0 ∧ 3 ≤ n ∧ d ≤ 2 * n - 3) ∨ (flag = 1 ∧ 2 ≤ n ∧ d ≤ 2 * n) := by
  induction h with
  | leaf hn => exact .inl ⟨hn, rfl⟩
  | node hflag hn _ _ ihl ihr =>
      rcases hflag with rfl | rfl
      · simp only [leftArg, rightArg, if_true] at ihl ihr
        omega
      · simp only [leftArg, rightArg, if_neg one_ne_zero] at ihl ihr
        omega

theorem Eval.depth_pos (h : Eval flag n v d) : 0 < d := by
  cases h with
  | leaf => exact Nat.one_pos
  | node => exact Nat.succ_pos _

theorem Eval.depth_le (h : Eval flag n v d) (hn : 2 ≤ n) : d ≤ 2 * n := by
  have := h.depth_cases
  omega

/-- The recursion returns the value, with fuel for the calls open at once. -/
theorem Eval.recursion (h : Eval flag n v d) {fuel : Nat} (hfuel : d ≤ fuel) :
    (flag = 0 → f fuel n = some v) ∧ (flag = 1 → g fuel n = some v) := by
  induction h generalizing fuel with
  | leaf hn =>
      obtain ⟨fuel, rfl⟩ : ∃ k, fuel = k + 1 := ⟨fuel - 1, by omega⟩
      exact ⟨fun _ => by rw [f, if_pos hn], fun _ => by rw [g, if_pos hn]⟩
  | node hflag hn _ _ ihl ihr =>
      obtain ⟨fuel, rfl⟩ : ∃ k, fuel = k + 1 := ⟨fuel - 1, by omega⟩
      have hl := (@ihl fuel (by omega)).1 rfl
      have hr := (@ihr fuel (by omega)).2 rfl
      refine ⟨?_, ?_⟩
      · rintro rfl
        rw [f, if_neg (by omega)]
        simp only [leftArg, rightArg, if_true] at hl hr
        rw [hl, hr]
        rfl
      · rintro rfl
        rw [g, if_neg (by omega)]
        simp only [leftArg, rightArg, if_neg one_ne_zero] at hl hr
        rw [hl, hr]
        rfl

end

/-! ## The contract of a frame -/

section
variable {size : Option Nat} {flag : Nat} {n : Int} {rest : List Frame} {ans : Int}

theorem push_ok (h : hasRoom size rest.length = true) (frame : Frame) :
    State.push size frame ⟨rest, ans⟩ = .ok ⟨frame :: rest, ans⟩ := by
  simp only [State.push, push_eq h]
  rfl

/-- A frame of `f_g.c` that recurses pushes its first call. -/
theorem round_enter (hflag : flag = 0 ∨ flag = 1) (hn : 1 < n) :
    round size ⟨⟨n, flag, 0⟩ :: rest, ans⟩ ⟨n, flag, 0⟩ rest =
      State.push size ⟨leftArg flag n, 0, 0⟩ ⟨⟨n, flag, 1⟩ :: rest, ans⟩ := by
  rw [round, if_neg (by simp; omega), if_pos rfl]
  rcases hflag with rfl | rfl <;> rfl

/-- Back in the frame, it pushes its second call. -/
theorem round_middle (hflag : flag = 0 ∨ flag = 1) :
    round size ⟨⟨n, flag, 1⟩ :: rest, ans⟩ ⟨n, flag, 1⟩ rest =
      State.push size ⟨rightArg flag n, 1, 0⟩ ⟨⟨n, flag, 2⟩ :: rest, ans⟩ := by
  rw [round, if_neg (by simp), if_neg (by simp), if_pos rfl]
  rcases hflag with rfl | rfl <;> rfl

theorem round_leave :
    round size ⟨⟨n, flag, 2⟩ :: rest, ans⟩ ⟨n, flag, 2⟩ rest = .ok ⟨rest, ans⟩ := by
  rw [round, if_neg (by simp), if_neg (by simp), if_neg (by simp), if_pos rfl]
  rfl

/-- A frame of `f_g1.c` that recurses pushes both calls. -/
theorem round₁_enter (hflag : flag = 0 ∨ flag = 1) (hn : 1 < n) :
    round₁ size ⟨⟨n, flag, 0⟩ :: rest, ans⟩ ⟨n, flag, 0⟩ rest = (do
      let s ← State.push size ⟨leftArg flag n, 0, 0⟩ ⟨⟨n, flag, 1⟩ :: rest, ans⟩
      s.push size ⟨rightArg flag n, 1, 0⟩) := by
  rw [round₁, if_neg (by simp; omega), if_pos rfl]
  rcases hflag with rfl | rfl <;> rfl

theorem round₁_leave :
    round₁ size ⟨⟨n, flag, 1⟩ :: rest, ans⟩ ⟨n, flag, 1⟩ rest = .ok ⟨rest, ans⟩ := by
  rw [round₁, if_neg (by simp), if_neg (by simp), if_pos rfl]
  rfl

end

/-- A round at whose head `P` holds. -/
theorem path_round {round : State → Frame → List Frame → Except Exit State}
    {P : State → Prop} {frame : Frame} {rest : List Frame} {ans : Int} {t : State}
    (hP : P ⟨frame :: rest, ans⟩) (hround : round ⟨frame :: rest, ans⟩ frame rest = .ok t) :
    (machine round).Path P ⟨frame :: rest, ans⟩ t :=
  .single hP rfl hround

/-- The rounds of `f_g.c` that lead from `s` to `t` never see more than `bound`
frames. -/
abbrev Within (size : Option Nat) (bound : Nat) : State → State → Prop :=
  (machine (round size)).Path fun s => s.stack.length ≤ bound

section
variable {size : Option Nat} {flag : Nat} {n v : Int} {d bound : Nat} {rest : List Frame}
  {ans : Int}

/-- `f_g.c`: a frame that is entered is gone after a number of rounds and has added
its value.  On the way there are at most as many frames on top of `rest` as calls
are open at once. -/
theorem Eval.frame_done (h : Eval flag n v d) (hbound : rest.length + d ≤ bound)
    (hsize : ∀ top < bound, hasRoom size top = true) :
    Within size bound ⟨⟨n, flag, 0⟩ :: rest, ans⟩ ⟨rest, ans + v⟩ := by
  induction h generalizing rest ans with
  | leaf hn =>
      exact path_round (by simpa using hbound) (by rw [round, if_pos ⟨hn, rfl⟩]; rfl)
  | @node flag n a b d e hflag hn hl _ ihl ihr =>
      have hpos := hl.depth_pos
      have hroom (stage : Nat) : (Frame.mk n flag stage :: rest).length ≤ bound := by
        rw [List.length_cons]
        omega
      have hcell : hasRoom size (rest.length + 1) = true := hsize _ (by omega)
      have enter : Within size bound ⟨⟨n, flag, 0⟩ :: rest, ans⟩
          ⟨⟨leftArg flag n, 0, 0⟩ :: ⟨n, flag, 1⟩ :: rest, ans⟩ :=
        path_round (hroom 0) ((round_enter hflag hn).trans (push_ok hcell _))
      have left := @ihl (⟨n, flag, 1⟩ :: rest) ans (by rw [List.length_cons]; omega)
      have middle : Within size bound ⟨⟨n, flag, 1⟩ :: rest, ans + a⟩
          ⟨⟨rightArg flag n, 1, 0⟩ :: ⟨n, flag, 2⟩ :: rest, ans + a⟩ :=
        path_round (hroom 1) ((round_middle hflag).trans (push_ok hcell _))
      have right := @ihr (⟨n, flag, 2⟩ :: rest) (ans + a) (by rw [List.length_cons]; omega)
      have leave : Within size bound ⟨⟨n, flag, 2⟩ :: rest, ans + a + b⟩
          ⟨rest, ans + a + b⟩ := path_round (hroom 2) round_leave
      rw [← add_assoc]
      exact enter.trans (left.trans (middle.trans (right.trans leave)))

/-- `f_g1.c` on a stack without a bound: the frame adds its value too, and works
on its second call first. -/
theorem Eval.frame_done₁ (h : Eval flag n v d) :
    (machine (round₁ none)).Path (fun _ => True) ⟨⟨n, flag, 0⟩ :: rest, ans⟩
      ⟨rest, ans + v⟩ := by
  induction h generalizing rest ans with
  | leaf hn => exact path_round trivial (by rw [round₁, if_pos ⟨hn, rfl⟩]; rfl)
  | @node flag n a b d e hflag hn _ _ ihl ihr =>
      have enter : (machine (round₁ none)).Path (fun _ => True) ⟨⟨n, flag, 0⟩ :: rest, ans⟩
          ⟨⟨rightArg flag n, 1, 0⟩ :: ⟨leftArg flag n, 0, 0⟩ :: ⟨n, flag, 1⟩ :: rest, ans⟩ :=
        path_round trivial (round₁_enter hflag hn)
      have right := @ihr (⟨leftArg flag n, 0, 0⟩ :: ⟨n, flag, 1⟩ :: rest) ans
      have left := @ihl (⟨n, flag, 1⟩ :: rest) (ans + b)
      have leave : (machine (round₁ none)).Path (fun _ => True)
          ⟨⟨n, flag, 1⟩ :: rest, ans + b + a⟩ ⟨rest, ans + b + a⟩ :=
        path_round trivial round₁_leave
      rw [add_comm a b, ← add_assoc]
      exact enter.trans (right.trans (left.trans leave))

end

/-! ## The whole programs -/

/-- A path over the whole work of a call is a run of `f_g` that returns. -/
theorem call_eq {size : Option Nat} {round : State → Frame → List Frame → Except Exit State}
    {P : State → Prop} (hroom : hasRoom size 0 = true)
    (h : (machine round).Path P ⟨[⟨n, flag, 0⟩], 0⟩ ⟨[], v⟩) :
    ∃ enough, ∀ fuel, enough ≤ fuel → call size round fuel n flag = some (.ok v) := by
  obtain ⟨enough, hrun⟩ := h.run_eq rfl
  refine ⟨enough, fun fuel hfuel => ?_⟩
  rw [call, push_ok hroom]
  simp only [hrun fuel hfuel]
  rfl

/-- The loop of `f_g.c` returns the value of the call when the stack has room for
the calls that are open at once. -/
theorem Eval.f_g_eq {size : Option Nat} (h : Eval flag n v d)
    (hsize : ∀ top < d, hasRoom size top = true) :
    ∃ enough, ∀ fuel, enough ≤ fuel → f_g size fuel n flag = some (.ok v) := by
  have hpath : Within size d ⟨[⟨n, flag, 0⟩], 0⟩ ⟨[], 0 + v⟩ := h.frame_done (by simp) hsize
  rw [zero_add] at hpath
  exact call_eq (hsize 0 h.depth_pos) hpath

theorem Eval.f_g₁_eq (h : Eval flag n v d) :
    ∃ enough, ∀ fuel, enough ≤ fuel → f_g₁ none fuel n flag = some (.ok v) := by
  have hpath : (machine (round₁ none)).Path (fun _ => True) ⟨[⟨n, flag, 0⟩], 0⟩ ⟨[], 0 + v⟩ :=
    h.frame_done₁
  rw [zero_add] at hpath
  exact call_eq rfl hpath

/-- For every integer the recursion and both loops terminate with the same
values, over a stack without a bound, and from 2 on the loop of `f_g.c` never
holds more than `2 * n` frames. -/
theorem loops_eq_recursion (n : Int) :
    ∃ a b, (∃ enough, ∀ fuel, enough ≤ fuel →
      f fuel n = some a ∧ g fuel n = some b ∧
      f_g none fuel n 0 = some (.ok a) ∧ f_g none fuel n 1 = some (.ok b) ∧
      f_g₁ none fuel n 0 = some (.ok a) ∧ f_g₁ none fuel n 1 = some (.ok b)) ∧
      (2 ≤ n → ∀ flag, flag = 0 ∨ flag = 1 → ∀ s,
        (machine (round none)).Reaches ⟨[⟨n, flag, 0⟩], 0⟩ s → s.stack.length ≤ 2 * n) := by
  obtain ⟨a, d, ha⟩ := exists_eval (.inl rfl) n
  obtain ⟨b, e, hb⟩ := exists_eval (.inr rfl) n
  have hroom (k : Nat) : ∀ top < k, hasRoom none top = true := fun _ _ => rfl
  obtain ⟨k₁, h₁⟩ := ha.f_g_eq (hroom d)
  obtain ⟨k₂, h₂⟩ := hb.f_g_eq (hroom e)
  obtain ⟨k₃, h₃⟩ := ha.f_g₁_eq
  obtain ⟨k₄, h₄⟩ := hb.f_g₁_eq
  refine ⟨a, b, ⟨d + e + k₁ + k₂ + k₃ + k₄, fun fuel hfuel => ?_⟩, fun hn flag hflag s hs => ?_⟩
  · exact ⟨(ha.recursion (by omega)).1 rfl, (hb.recursion (by omega)).2 rfl,
      h₁ fuel (by omega), h₂ fuel (by omega), h₃ fuel (by omega), h₄ fuel (by omega)⟩
  · obtain ⟨v, c, h⟩ := exists_eval hflag n
    have hpath : Within none c ⟨[⟨n, flag, 0⟩], 0⟩ ⟨[], 0 + v⟩ :=
      h.frame_done (by simp) (hroom c)
    have hle : s.stack.length ≤ c := hpath.forall_reaches rfl (Nat.zero_le c) hs
    have := h.depth_le hn
    omega

end OsCourse.Hanoi.Mutual
