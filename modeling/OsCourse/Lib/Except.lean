import Mathlib.Tactic

/-!
# Computations that may fail

Inversion of a computation in `Except`, and of the run of a loop over a list: a
run that succeeds does so step by step, and one that fails does so in a step after
steps that succeed.  Nested loops are one loop over all their elements.
-/

namespace OsCourse

variable {ε α β σ : Type}

theorem ok_bind (a : α) (f : α → Except ε β) : Except.ok a >>= f = f a := rfl

variable {x : Except ε α} {f : σ → α → Except ε σ} {a : α} {l : List α} {s s' : σ}

/-- A computation that succeeds does so step by step. -/
theorem bind_ok {f : α → Except ε β} {b : β} (h : x >>= f = .ok b) :
    ∃ a, x = .ok a ∧ f a = .ok b := by
  cases x with
  | error e => cases h
  | ok a => exact ⟨a, rfl, h⟩

theorem map_ok {f : α → β} {b : β} (h : x.map f = .ok b) :
    ∃ a, x = .ok a ∧ f a = b := by
  cases x with
  | error e => cases h
  | ok a => exact ⟨a, rfl, Except.ok.inj h⟩

/-- A computation succeeds when its steps do. -/
theorem bind_defined {f : α → Except ε β} (hx : ∃ a, x = .ok a)
    (hf : ∀ a, x = .ok a → ∃ b, f a = .ok b) : ∃ b, x >>= f = .ok b := by
  obtain ⟨a, ha⟩ := hx
  obtain ⟨b, hb⟩ := hf a ha
  refine ⟨b, ?_⟩
  rw [ha]
  exact hb

theorem map_defined (f : α → β) (hx : ∃ a, x = .ok a) :
    ∃ b, x.map f = .ok b := by
  obtain ⟨a, rfl⟩ := hx
  exact ⟨f a, rfl⟩

theorem toOption_eq_some : x.toOption = some a ↔ x = .ok a := by
  cases x <;> simp [Except.toOption]

/-- An error that no step raises is not raised. -/
theorem bind_ne_error {f : α → Except ε β} {e : ε} (hx : x ≠ .error e) (hf : ∀ a, f a ≠ .error e) :
    x >>= f ≠ .error e := by
  cases x with
  | error e' => exact fun h => hx (by cases h; rfl)
  | ok a => exact hf a

/-- The run of a loop, cut after the first element. -/
theorem foldlM_cons_ok (h : (a :: l).foldlM f s = .ok s') :
    ∃ mid, f s a = .ok mid ∧ l.foldlM f mid = .ok s' := by
  rw [List.foldlM_cons] at h
  exact bind_ok h

/-- The run of a loop, cut at any element. -/
theorem foldlM_append_ok {l' : List α} (h : (l ++ a :: l').foldlM f s = .ok s') :
    ∃ mid mid', l.foldlM f s = .ok mid ∧ f mid a = .ok mid' ∧ l'.foldlM f mid' = .ok s' := by
  rw [List.foldlM_append] at h
  obtain ⟨mid, hl, h⟩ := bind_ok h
  obtain ⟨mid', ha, h⟩ := foldlM_cons_ok h
  exact ⟨mid, mid', hl, ha, h⟩

/-- A loop ends when no round fails where the invariant holds. -/
theorem foldlM_ok {P : σ → Prop} (hstep : ∀ a ∈ l, ∀ s, P s → ∃ s', f s a = .ok s' ∧ P s')
    (hs : P s) :
    ∃ s', l.foldlM f s = .ok s' ∧ P s' := by
  induction l generalizing s with
  | nil => exact ⟨s, rfl, hs⟩
  | cons a l ih =>
      obtain ⟨mid, ha, hmid⟩ := hstep a (List.mem_cons_self ..) s hs
      obtain ⟨s', hl, hs'⟩ := ih (fun b hb => hstep b (List.mem_cons_of_mem _ hb)) hmid
      refine ⟨s', ?_, hs'⟩
      rw [List.foldlM_cons, ha]
      exact hl

/-- A loop that fails does so at an element, after a run that succeeds. -/
theorem foldlM_error {e : ε} (h : l.foldlM f s = .error e) :
    ∃ pre a post mid, l = pre ++ a :: post ∧ pre.foldlM f s = .ok mid ∧ f mid a = .error e := by
  induction l generalizing s with
  | nil => cases h
  | cons a l ih =>
      rw [List.foldlM_cons] at h
      cases ha : f s a with
      | error e' =>
          rw [ha] at h
          cases h
          exact ⟨[], a, l, s, rfl, rfl, ha⟩
      | ok s' =>
          rw [ha] at h
          obtain ⟨pre, b, post, mid, rfl, hpre, hb⟩ := ih h
          exact ⟨a :: pre, b, post, mid, rfl, by rw [List.foldlM_cons, ha]; exact hpre, hb⟩

/-- A loop fails at an element where every run that gets there fails. -/
theorem foldlM_append_error {P : ε → Prop} (l' : List α) (hl : ∀ e, l.foldlM f s = .error e → P e)
    (ha : ∀ mid, l.foldlM f s = .ok mid → ∃ e, P e ∧ f mid a = .error e) :
    ∃ e, P e ∧ (l ++ a :: l').foldlM f s = .error e := by
  rw [List.foldlM_append]
  cases hrun : l.foldlM f s with
  | error e => exact ⟨e, hl e hrun, rfl⟩
  | ok mid =>
      obtain ⟨e, he, hmid⟩ := ha mid hrun
      refine ⟨e, he, ?_⟩
      simp only [bind, Except.bind, List.foldlM_cons, hmid]

/-- A loop whose body is a loop. -/
theorem foldlM_flatMap {g : σ → β → Except ε σ} {h : α → List β}
    (hf : ∀ s a, f s a = (h a).foldlM g s) (l : List α) (s : σ) :
    l.foldlM f s = (l.flatMap h).foldlM g s := by
  induction l generalizing s with
  | nil => rfl
  | cons a l ih =>
      rw [List.foldlM_cons, List.flatMap_cons, List.foldlM_append, hf]
      exact bind_congr fun s' => ih s'

end OsCourse
