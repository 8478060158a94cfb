import Mathlib.Logic.Relation

/-!
# Loops that may fail

A `while` loop over a state, with a body that returns the next state or fails.
`Loop.run` executes it with fuel, and `Loop.Reaches` says which states the head
of the loop sees.

Correctness of such a loop is shown with `Loop.Path`, a stretch of rounds along
which a predicate holds at the head of the loop.  Paths compose
(`Path.trans`), so a contract of a part of the work is a path, and the contract
of the whole is put together from them.  A path that ends where the guard fails
settles the whole run, since the loop is deterministic: the run returns
(`Path.run_eq`), no round of it fails (`Path.run_cases`) and the predicate holds
in every state it reaches (`Path.forall_reaches`).

`exists_path_of_acc` is the rule for total correctness, with an invariant and a
measure that falls in a relation.  `run_map` relates the runs of two loops when
one is the other with a part of its state left out.
-/

namespace OsCourse

/-- A `while` loop over states `S` whose body can fail with an `ε`. -/
structure Loop (S ε : Type) where
  guard : S → Bool
  body : S → Except ε S

namespace Loop

variable {S ε : Type} (L : Loop S ε)

/-- The loop from `s`, cut off after `fuel` rounds with `none`. -/
def run : Nat → S → Option (Except ε S)
  | 0, s => if L.guard s then none else some (.ok s)
  | fuel + 1, s =>
      if L.guard s then
        match L.body s with
        | .ok t => run fuel t
        | .error e => some (.error e)
      else some (.ok s)

/-- One round of the loop. -/
def Round (s t : S) : Prop :=
  L.guard s = true ∧ L.body s = .ok t

/-- The head of the loop sees `t` in the run from `s`. -/
def Reaches : S → S → Prop :=
  Relation.ReflTransGen L.Round

/-- Rounds that lead from `s` to `t`, with `P` at the head of each of them. -/
inductive Path (P : S → Prop) : S → S → Prop where
  | refl (s : S) : Path P s s
  | round {s m t : S} (hP : P s) (hg : L.guard s = true) (hb : L.body s = .ok m)
      (rest : Path P m t) : Path P s t

variable {L} {P : S → Prop} {s t u : S}

namespace Path

theorem trans (h : L.Path P s t) (h' : L.Path P t u) : L.Path P s u := by
  induction h with
  | refl => exact h'
  | round hP hg hb _ ih => exact .round hP hg hb (ih h')

theorem single (hP : P s) (hg : L.guard s = true) (hb : L.body s = .ok t) : L.Path P s t :=
  .round hP hg hb (.refl t)

/-- The run along a path to the end of the loop returns, with any fuel from
some number on. -/
theorem run_eq (h : L.Path P s t) (ht : L.guard t = false) :
    ∃ enough, ∀ fuel, enough ≤ fuel → L.run fuel s = some (.ok t) := by
  induction h with
  | refl s =>
      refine ⟨0, fun fuel _ => ?_⟩
      cases fuel <;> simp [run, ht]
  | round hP hg hb _ ih =>
      obtain ⟨enough, hrun⟩ := ih ht
      refine ⟨enough + 1, fun fuel hfuel => ?_⟩
      obtain ⟨fuel, rfl⟩ : ∃ k, fuel = k + 1 := ⟨fuel - 1, by omega⟩
      rw [run, if_pos hg, hb]
      exact hrun fuel (by omega)

/-- A run along a path to the end of the loop returns there or runs out of fuel. -/
theorem run_cases (h : L.Path P s t) (ht : L.guard t = false) (fuel : Nat) :
    L.run fuel s = none ∨ L.run fuel s = some (.ok t) := by
  induction h generalizing fuel with
  | refl s => cases fuel <;> simp [run, ht]
  | round hP hg hb _ ih =>
      cases fuel with
      | zero => simp [run, hg]
      | succ fuel =>
          rw [run, if_pos hg, hb]
          exact ih ht fuel

theorem run_ne_error (h : L.Path P s t) (ht : L.guard t = false) (fuel : Nat) (e : ε) :
    L.run fuel s ≠ some (.error e) := by
  rcases h.run_cases ht fuel with hrun | hrun <;> simp [hrun]

/-- Along a path to the end of the loop the predicate holds in every state
that the loop reaches. -/
theorem forall_reaches (h : L.Path P s t) (ht : L.guard t = false) (hPt : P t)
    (hu : L.Reaches s u) : P u := by
  induction h with
  | refl s =>
      cases hu.cases_head with
      | inl heq => exact heq ▸ hPt
      | inr hstep =>
          obtain ⟨m, hround, _⟩ := hstep
          exact absurd (ht.symm.trans hround.1) Bool.false_ne_true
  | round hP hg hb _ ih =>
      cases hu.cases_head with
      | inl heq => exact heq ▸ hP
      | inr hstep =>
          obtain ⟨m, hround, hrest⟩ := hstep
          obtain rfl : _ = m := Except.ok.inj (hb.symm.trans hround.2)
          exact ih ht hPt hrest

end Path

/-- A loop whose body keeps `I` and lowers the measure `μ` ends, with `I` at the
head of every round. -/
theorem exists_path_of_acc {α : Type} {r : α → α → Prop} {I : S → Prop} (μ : S → α)
    (hbody : ∀ s, I s → L.guard s = true → ∃ t, L.body s = .ok t ∧ I t ∧ r (μ t) (μ s))
    (hI : I s) (hacc : Acc r (μ s)) : ∃ t, L.Path I s t ∧ L.guard t = false ∧ I t := by
  generalize hm : μ s = m at hacc
  induction hacc generalizing s with
  | intro m _ ih =>
      cases hg : L.guard s with
      | false => exact ⟨s, .refl s, hg, hI⟩
      | true =>
          obtain ⟨m', hb, hI', hlt⟩ := hbody s hI hg
          obtain ⟨t, hpath, hend, hIt⟩ := ih (μ m') (hm ▸ hlt) hI' rfl
          exact ⟨t, .round hI hg hb hpath, hend, hIt⟩

/-- Runs of two loops that do the same through `φ`. -/
theorem run_map {T : Type} {K : Loop T ε} (φ : S → T)
    (hguard : ∀ s, K.guard (φ s) = L.guard s)
    (hbody : ∀ s, K.body (φ s) = (L.body s).map φ) (fuel : Nat) (s : S) :
    K.run fuel (φ s) = (L.run fuel s).map fun r => r.map φ := by
  induction fuel generalizing s with
  | zero =>
      simp only [run, hguard]
      cases L.guard s <;> rfl
  | succ fuel ih =>
      simp only [run, hguard, hbody]
      cases L.guard s with
      | false => rfl
      | true =>
          cases L.body s with
          | error e => rfl
          | ok t => exact ih t

end Loop

end OsCourse
