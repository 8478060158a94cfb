import Mathlib.Order.Defs.Unbundled

/-!
# The bounded stack of the stage machines

`hanoi-o3mini.c`, `f_g.c` and `f_g1.c` share one global stack, an array with the
index of its top, and the same `push`, `pop` and `isEmpty` over their own frames.
It is a list here with the top in front, since no program looks below the top or
at a popped cell.  The size of the array is a parameter, and `none` stands for a
stack without a bound.
-/

namespace OsCourse.Hanoi

/-- The exits of `push` and `pop`. -/
inductive Exit where
  | stackOverflow
  | stackUnderflow
  deriving Repr, DecidableEq

/-- Whether there is a cell above `top` frames. -/
def hasRoom : Option Nat → Nat → Bool
  | none, _ => true
  | some size, top => decide (top < size)

variable {F : Type}

def push (size : Option Nat) (frame : F) (stack : List F) : Except Exit (List F) :=
  if hasRoom size stack.length then .ok (frame :: stack) else .error .stackOverflow

/-- `pop` without the frame it returns, which no caller uses. -/
def pop : List F → Except Exit (List F)
  | [] => .error .stackUnderflow
  | _ :: stack => .ok stack

theorem push_eq {size : Option Nat} {stack : List F} (h : hasRoom size stack.length = true)
    (frame : F) : push size frame stack = .ok (frame :: stack) :=
  if_pos h

end OsCourse.Hanoi
