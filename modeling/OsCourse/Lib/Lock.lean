import Mathlib.Logic.Function.Basic
import Mathlib.Tactic

/-!
# Sections under a lock

Threads of an arbitrary type share a value.  Each of them enters and leaves a section
again and again, and a lock is taken at the entry and given back at the end.  A section
is a small program: it has a local state, and one atomic step of it changes the local
state and the shared value.  A schedule is a list of threads, and each thread in the
list takes one atomic step, so a section may be interrupted after every step.

`Section.Keeps` says what a section does when it runs alone: it starts from `idle n`
and passes through `busy r n` for its local states `r`, and it ends in `idle (n + 1)`,
where `n` counts the sections that are done.  `ok_run` is the rule of the lock: what
holds for a section alone holds under every schedule.  At most one thread is in the
section, the value is `idle` while there is none and `busy` while there is one.
-/

namespace OsCourse.Lock

/-- A section that changes a value in `σ`, with local states in `ρ`. -/
structure Section (σ ρ : Type) where
  /-- The local state at the entry. -/
  enter : ρ
  /-- One atomic step.  There is none when only the release of the lock is left. -/
  step : ρ → σ → Option (ρ × σ)

/-- Where a thread is. -/
inductive Place (ρ : Type) where
  /-- Neither in the section nor on its way to it. -/
  | outside
  /-- It tries to take the lock. -/
  | waiting
  /-- In the section. -/
  | inside (r : ρ)

/-- The threads, the lock and the shared value. -/
structure State (τ σ ρ : Type) where
  /-- Where the threads are. -/
  place : τ → Place ρ
  /-- Whether the lock is taken. -/
  held : Bool
  /-- The shared value. -/
  shared : σ
  /-- The number of sections that are done. -/
  done : Nat

variable {τ σ ρ : Type}

/-- No thread has entered the section yet. -/
def State.init (shared : σ) : State τ σ ρ := ⟨fun _ => .outside, false, shared, 0⟩

variable [DecidableEq τ] (sec : Section σ ρ)

/-- One atomic step of a thread.  A thread that finds the lock taken tries again. -/
def State.step (s : State τ σ ρ) (t : τ) : State τ σ ρ :=
  match s.place t with
  | .outside => { s with place := Function.update s.place t .waiting }
  | .waiting =>
      if s.held then s
      else { s with place := Function.update s.place t (.inside sec.enter), held := true }
  | .inside r =>
      match sec.step r s.shared with
      | some (r', shared) =>
          { s with place := Function.update s.place t (.inside r'), shared := shared }
      | none =>
          { s with
            place := Function.update s.place t .outside
            held := false
            done := s.done + 1 }

/-- The steps of a schedule. -/
def State.run (s : State τ σ ρ) (schedule : List τ) : State τ σ ρ :=
  schedule.foldl (State.step sec) s

/-- A section that runs alone leads from `idle n` through `busy` to `idle (n + 1)`. -/
structure Section.Keeps (idle : Nat → σ → Prop) (busy : ρ → Nat → σ → Prop) : Prop where
  enter : ∀ {n x}, idle n x → busy sec.enter n x
  step : ∀ {r n x r' x'}, busy r n x → sec.step r x = some (r', x') → busy r' n x'
  leave : ∀ {r n x}, busy r n x → sec.step r x = none → idle (n + 1) x

/-- What the lock guarantees: nobody is in the section and the value is `idle`, or one
thread is there with the lock and the value is `busy`. -/
inductive State.Ok (idle : Nat → σ → Prop) (busy : ρ → Nat → σ → Prop)
    (s : State τ σ ρ) : Prop where
  | free : s.held = false → (∀ u r, s.place u ≠ .inside r) → idle s.done s.shared → s.Ok idle busy
  | taken {t : τ} {r : ρ} : s.held = true → s.place t = .inside r →
      (∀ u r', s.place u = .inside r' → u = t) → busy r s.done s.shared → s.Ok idle busy

variable {sec} {idle : Nat → σ → Prop} {busy : ρ → Nat → σ → Prop} {s : State τ σ ρ}

omit [DecidableEq τ] in
theorem ok_init {x : σ} (h : idle 0 x) : (State.init x : State τ σ ρ).Ok idle busy :=
  .free rfl (fun u r hu => by cases hu) h

omit [DecidableEq τ] in
/-- At most one thread is in the section. -/
theorem State.Ok.exclusive (h : s.Ok idle busy) {t u : τ} {r r' : ρ} (ht : s.place t = .inside r)
    (hu : s.place u = .inside r') : t = u := by
  cases h with
  | free _ hnone _ => exact absurd ht (hnone t r)
  | taken _ _ hone _ => rw [hone t r ht, hone u r' hu]

omit [DecidableEq τ] in
/-- The value while no thread is in the section. -/
theorem State.Ok.idle_of_none (h : s.Ok idle busy) (hnone : ∀ u r, s.place u ≠ .inside r) :
    idle s.done s.shared := by
  cases h with
  | free _ _ hidle => exact hidle
  | taken _ ht _ _ => exact absurd ht (hnone _ _)

/-- A thread that is in the section after a change of place was there before, or it is
the thread that moved. -/
theorem place_update {place : τ → Place ρ} {t u : τ} {p : Place ρ} {r : ρ}
    (h : Function.update place t p u = .inside r) :
    (u = t ∧ p = .inside r) ∨ (u ≠ t ∧ place u = .inside r) := by
  rcases eq_or_ne u t with rfl | hne
  · rw [Function.update_self] at h
    exact .inl ⟨rfl, h⟩
  · rw [Function.update_of_ne hne] at h
    exact .inr ⟨hne, h⟩

/-- A thread outside starts to wait. -/
theorem State.Ok.wait (h : s.Ok idle busy) {t : τ} (ht : s.place t = .outside) :
    ({ s with place := Function.update s.place t .waiting } : State τ σ ρ).Ok idle busy := by
  have hold :
      ∀ {u r}, Function.update s.place t .waiting u = .inside r → s.place u = .inside r := by
    intro u r hu
    rcases place_update hu with ⟨-, hp⟩ | ⟨-, hu⟩
    · cases hp
    · exact hu
  cases h with
  | free hheld hnone hidle => exact .free hheld (fun u r hu => hnone u r (hold hu)) hidle
  | @taken v r hheld hv hone hbusy =>
      have hne : v ≠ t := by
        rintro rfl
        rw [ht] at hv
        cases hv
      have hv' : Function.update s.place t .waiting v = .inside r :=
        (Function.update_of_ne hne ..).trans hv
      exact .taken hheld hv' (fun u r' hu => hone u r' (hold hu)) hbusy

/-- The thread in the section takes a step there. -/
theorem State.Ok.work (h : s.Ok idle busy) {t : τ} {r r' : ρ} {x : σ}
    (ht : s.place t = .inside r) (hbusy : busy r s.done s.shared → busy r' s.done x) :
    ({ s with place := Function.update s.place t (.inside r'), shared := x } :
      State τ σ ρ).Ok idle busy := by
  cases h with
  | free _ hnone _ => exact absurd ht (hnone t r)
  | @taken v q hheld hv hone hq =>
      obtain rfl := hone t r ht
      cases ht.symm.trans hv
      refine .taken hheld (Function.update_self ..) (fun u r'' hu => ?_) (hbusy hq)
      rcases place_update hu with ⟨hut, -⟩ | ⟨-, hu⟩
      · exact hut
      · exact hone u r'' hu

/-- The thread in the section leaves it. -/
theorem State.Ok.leave (h : s.Ok idle busy) {t : τ} {r : ρ} (ht : s.place t = .inside r)
    (hidle : busy r s.done s.shared → idle (s.done + 1) s.shared) :
    ({ s with place := Function.update s.place t .outside, held := false, done := s.done + 1 } :
      State τ σ ρ).Ok idle busy := by
  cases h with
  | free _ hnone _ => exact absurd ht (hnone t r)
  | @taken v q hheld hv hone hq =>
      obtain rfl := hone t r ht
      cases ht.symm.trans hv
      refine .free rfl (fun u r'' hu => ?_) (hidle hq)
      rcases place_update hu with ⟨-, hp⟩ | ⟨hne, hu⟩
      · cases hp
      · exact hne (hone u r'' hu)

theorem ok_step (hsec : sec.Keeps idle busy) (h : s.Ok idle busy) (t : τ) :
    (s.step sec t).Ok idle busy := by
  unfold State.step
  cases ht : s.place t with
  | outside => exact h.wait ht
  | waiting =>
      cases hheld : s.held with
      | true => exact h
      | false =>
          cases h with
          | taken hheld' => rw [hheld] at hheld'; cases hheld'
          | free _ hnone hidle =>
              refine .taken rfl (Function.update_self ..) (fun u r hu => ?_) (hsec.enter hidle)
              rcases place_update hu with ⟨hut, -⟩ | ⟨-, hu⟩
              · exact hut
              · exact absurd hu (hnone u r)
  | inside r =>
      dsimp only
      cases hstep : sec.step r s.shared with
      | some y => exact h.work ht fun hbusy => hsec.step hbusy hstep
      | none => exact h.leave ht fun hbusy => hsec.leave hbusy hstep

/-- What a section does alone, it does under every schedule. -/
theorem ok_run (hsec : sec.Keeps idle busy) (h : s.Ok idle busy) (schedule : List τ) :
    (s.run sec schedule).Ok idle busy := by
  induction schedule generalizing s with
  | nil => exact h
  | cons t schedule ih => exact ih (ok_step hsec h t)

end OsCourse.Lock
