import OsCourse.Lib.Except

/-!
# Computations with a record

A computation that may fail and that records events.  What it does may depend on all
that was recorded before, and the record survives a failure.

`Emits` is the rule of reasoning: a computation only adds to the record, all events
that it adds have some property, and if it succeeds its result has another.  `Erases`
says that the result does not depend on the record.
-/

namespace OsCourse

/-- A computation that may fail and that records events. -/
def Recorded (ε E α : Type) : Type := List E → List E × Except ε α

namespace Recorded

variable {ε E α β : Type}

instance : Monad (Recorded ε E) where
  pure a := fun past => (past, .ok a)
  bind x f := fun past =>
    match x past with
    | (past, .error e) => (past, .error e)
    | (past, .ok a) => f a past

/-- A computation that records nothing. -/
def lift (x : Except ε α) : Recorded ε E α := fun past => (past, x)

/-- Record an event, and return all that is recorded. -/
def record (e : E) : Recorded ε E (List E) := fun past => (past ++ [e], .ok (past ++ [e]))

theorem bind_apply (x : Recorded ε E α) (f : α → Recorded ε E β) (past : List E) :
    (x >>= f) past =
      match x past with
      | (past, .error e) => (past, .error e)
      | (past, .ok a) => f a past := rfl

theorem lift_bind_ok {x : Except ε α} {a : α} (h : x = .ok a) (f : α → Recorded ε E β)
    (past : List E) : (lift x >>= f) past = f a past := by
  rw [h]
  rfl

/-! ## What a computation adds -/

/-- All events added have the property `p`, and a result has the property `post`. -/
def Emits (p : E → Prop) (post : α → Prop) (x : Recorded ε E α) : Prop :=
  ∀ past, ∃ new, (x past).1 = past ++ new ∧ (∀ e ∈ new, p e) ∧ ∀ a, (x past).2 = .ok a → post a

section
variable {p : E → Prop} {post : α → Prop} {post' : β → Prop}

theorem Emits.pure {a : α} (h : post a) : Emits p post (pure a : Recorded ε E α) := fun past =>
  ⟨[], (List.append_nil past).symm, by simp, fun _ ha => Except.ok.inj ha ▸ h⟩

theorem Emits.lift {x : Except ε α} (h : ∀ a, x = .ok a → post a) :
    Emits p post (lift x : Recorded ε E α) := fun past =>
  ⟨[], (List.append_nil past).symm, by simp, h⟩

theorem Emits.bind {x : Recorded ε E α} {f : α → Recorded ε E β} (hx : Emits p post x)
    (hf : ∀ a, post a → Emits p post' (f a)) : Emits p post' (x >>= f) := by
  intro past
  obtain ⟨new, hpast, hnew, hpost⟩ := hx past
  rw [bind_apply]
  generalize x past = r at hpast hpost
  obtain ⟨mid, r⟩ := r
  obtain rfl : mid = past ++ new := hpast
  cases r with
  | error e => exact ⟨new, rfl, hnew, fun _ ha => by cases ha⟩
  | ok a =>
      obtain ⟨new', hpast', hnew', hpost'⟩ := hf a (hpost a rfl) (past ++ new)
      refine ⟨new ++ new', by rw [hpast', List.append_assoc], fun e he => ?_, hpost'⟩
      exact (List.mem_append.mp he).elim (hnew e) (hnew' e)

theorem Emits.mono {x : Recorded ε E α} {post' : α → Prop} (hx : Emits p post x)
    (h : ∀ a, post a → post' a) : Emits p post' x := by
  intro past
  obtain ⟨new, hpast, hnew, hpost⟩ := hx past
  exact ⟨new, hpast, hnew, fun a ha => h a (hpost a ha)⟩

end

/-! ## Results that do not depend on the record -/

/-- The result is that of `y`, whatever is recorded. -/
def Erases (x : Recorded ε E α) (y : Except ε α) : Prop := ∀ past, (x past).2 = y

theorem Erases.lift (y : Except ε α) : Erases (lift y : Recorded ε E α) y := fun _ => rfl

theorem Erases.pure (a : α) : Erases (pure a : Recorded ε E α) (.ok a) := fun _ => rfl

theorem Erases.bind {x : Recorded ε E α} {y : Except ε α} {f : α → Recorded ε E β}
    {g : α → Except ε β} (hx : Erases x y) (hf : ∀ a, Erases (f a) (g a)) :
    Erases (x >>= f) (y >>= g) := by
  intro past
  have hy := hx past
  rw [bind_apply]
  generalize x past = r at hy
  obtain ⟨mid, r⟩ := r
  obtain rfl : r = y := hy
  cases r with
  | error e => rfl
  | ok a => exact hf a mid

theorem Erases.record {e : E} {f : List E → Recorded ε E β} {y : Except ε β}
    (h : ∀ past, Erases (f past) y) : Erases (record e >>= f) y := fun past =>
  h (past ++ [e]) (past ++ [e])

end Recorded

end OsCourse
