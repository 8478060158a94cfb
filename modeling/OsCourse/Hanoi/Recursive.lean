import Mathlib.Tactic

/-!
# The recursive Towers of Hanoi

`hanoi` is the recursion of `hanoi-r.c`.  It calls itself on an `int`, and comes
back only for one disc or more, so the recursion carries fuel.  The pegs are
characters that are passed around and printed, never looked at, so they have an
arbitrary type.

The purpose of the function is stated by `moves` and `count`, the moves printed
and the number returned for a tower of a given height.  `hanoi_eq` says that the
recursion computes them.
-/

namespace OsCourse.Hanoi

/-- A C `int` that is added up: the sum of the moves of a high tower wraps
around. -/
abbrev CInt := BitVec 32

/-- One printed line: a disc goes from one peg to another. -/
structure Move (Peg : Type) where
  source : Peg
  target : Peg
  deriving Repr, DecidableEq

variable {Peg : Type}

/-- `hanoi` of `hanoi-r.c`: the lines printed and the value returned, or `none`
when the fuel runs out. -/
def hanoi : Nat → Int → Peg → Peg → Peg → Option (List (Move Peg) × CInt)
  | 0, _, _, _, _ => none
  | fuel + 1, n, source, target, via =>
      if n = 1 then
        some ([⟨source, target⟩], 1)
      else do
        let (out₁, c1) ← hanoi fuel (n - 1) source via target
        let (out₂, _) ← hanoi fuel 1 source target via
        let (out₃, c2) ← hanoi fuel (n - 1) via target source
        return (out₁ ++ out₂ ++ out₃, c1 + c2 + 1)

/-- The moves that bring a tower of `n` discs from one peg to another. -/
def moves : Nat → Peg → Peg → Peg → List (Move Peg)
  | 0, _, _, _ => []
  | n + 1, source, target, via =>
      moves n source via target ++ [⟨source, target⟩] ++ moves n via target source

/-- The number of these moves, as the `int` the programs return. -/
def count : Nat → CInt
  | 0 => 0
  | n + 1 => count n + count n + 1

@[simp] theorem moves_one (source target via : Peg) :
    moves 1 source target via = [⟨source, target⟩] := rfl

@[simp] theorem count_one : count 1 = 1 := rfl

/-- The recursion comes back for every tower of one disc or more, with as much
fuel as there are discs. -/
theorem hanoi_eq (n fuel : Nat) (h : n + 1 ≤ fuel) (source target via : Peg) :
    hanoi fuel (n + 1 : Nat) source target via =
      some (moves (n + 1) source target via, count (n + 1)) := by
  induction n generalizing fuel source target via with
  | zero =>
      obtain ⟨fuel, rfl⟩ : ∃ k, fuel = k + 1 := ⟨fuel - 1, by omega⟩
      simp [hanoi]
  | succ n ih =>
      obtain ⟨fuel, rfl⟩ : ∃ k, fuel = k + 2 := ⟨fuel - 2, by omega⟩
      have hne : ((n + 1 + 1 : Nat) : Int) ≠ 1 := by omega
      have hpred : ((n + 1 + 1 : Nat) : Int) - 1 = (n + 1 : Nat) := by omega
      have hone : hanoi (fuel + 1) 1 source target via = some ([⟨source, target⟩], 1) := rfl
      rw [hanoi, if_neg hne, hpred, ih (fuel + 1) (by omega), ih (fuel + 1) (by omega), hone]
      rfl

end OsCourse.Hanoi
