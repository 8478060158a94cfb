import Mathlib.Logic.Basic
import Mathlib.Tactic

/-!
# Fair schedules

Agents share a state and take turns.  A schedule is a sequence of turns that does not
end, and it is fair if every agent has a turn again and again.  `Fair.ensures` is the
rule for such schedules: what the next turn of one agent brings about, and what the
turns of the others do not undo, comes about.
-/

namespace OsCourse.Fairness

variable {σ ε α : Type} (step : σ → ε → σ) (agent : ε → α)

/-- The states of a run, for the turns of its schedule. -/
def trace (s : σ) (turns : Nat → ε) : Nat → σ
  | 0 => s
  | n + 1 => step (trace s turns n) (turns n)

/-- Every agent has a turn after every point of the schedule. -/
def Fair (turns : Nat → ε) : Prop := ∀ a n, ∃ m, n ≤ m ∧ agent (turns m) = a

/-- From every state with `P`, the run comes to a state with `Q`. -/
def LeadsTo (s : σ) (turns : Nat → ε) (P Q : σ → Prop) : Prop :=
  ∀ n, P (trace step s turns n) → ∃ m, n ≤ m ∧ Q (trace step s turns m)

variable {step agent} {s : σ} {turns : Nat → ε} {P Q R : σ → Prop}

theorem LeadsTo.trans (h : LeadsTo step s turns P Q) (h' : LeadsTo step s turns Q R) :
    LeadsTo step s turns P R := by
  intro n hn
  obtain ⟨m, hm, hQ⟩ := h n hn
  obtain ⟨k, hk, hR⟩ := h' m hQ
  exact ⟨k, hm.trans hk, hR⟩

/-- The agent `a` turns `P` into `Q`, and the others keep `P`. -/
theorem Fair.ensures (hfair : Fair agent turns) (a : α)
    (hothers : ∀ s e, P s → agent e ≠ a → P (step s e))
    (hturn : ∀ s e, P s → agent e = a → Q (step s e)) : LeadsTo step s turns P Q := by
  intro n hn
  obtain ⟨m, hm, ha⟩ := hfair a n
  -- the induction is on the number of turns up to the one of `a`
  induction hd : m - n generalizing n with
  | zero =>
      obtain rfl : m = n := by omega
      exact ⟨m + 1, by omega, hturn _ _ hn ha⟩
  | succ d ih =>
      by_cases hnow : agent (turns n) = a
      · exact ⟨n + 1, by omega, hturn _ _ hn hnow⟩
      · obtain ⟨k, hk, hQ⟩ := ih (n + 1) (hothers _ _ hn hnow) (by omega) (by omega)
        exact ⟨k, by omega, hQ⟩

/-- What every turn keeps holds all the time. -/
theorem trace_induction (h0 : P s) (hstep : ∀ s e, P s → P (step s e)) (n : Nat) :
    P (trace step s turns n) := by
  induction n with
  | zero => exact h0
  | succ n ih => exact hstep _ _ ih

end OsCourse.Fairness
