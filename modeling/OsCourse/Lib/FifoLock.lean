import Mathlib.Data.List.Nodup
import Mathlib.Data.Fintype.Card
import Mathlib.Tactic

/-!
# Locks that serve in order

What a lock is for, over an arbitrary type of threads.  A thread arrives, waits behind
those that have arrived before it, enters when it is the first, and leaves.  The state
is the queue of the threads that have arrived and not yet left, and whether the first
of them has entered.

In every run the threads enter in the order in which they have arrived (`Run.fifo`).
-/

namespace OsCourse.FifoLock

variable {τ : Type}

structure State (τ : Type) where
  queue : List τ
  /-- The first thread of the queue has entered. -/
  entered : Bool

def State.init : State τ := ⟨[], false⟩

inductive Event (τ : Type) where
  | arrive (t : τ)
  | enter (t : τ)
  | leave (t : τ)

inductive Step : State τ → Event τ → State τ → Prop where
  | arrive {q b t} (h : t ∉ q) : Step ⟨q, b⟩ (.arrive t) ⟨q ++ [t], b⟩
  | enter {q t} : Step ⟨t :: q, false⟩ (.enter t) ⟨t :: q, true⟩
  | leave {q t} : Step ⟨t :: q, true⟩ (.leave t) ⟨q, false⟩

inductive Run : State τ → List (Event τ) → State τ → Prop where
  | nil {a} : Run a [] a
  | cons {a b c e es} (step : Step a e b) (run : Run b es c) : Run a (e :: es) c

variable {a b : State τ} {es : List (Event τ)} {e : Event τ} {t : τ}

theorem Run.append {c : State τ} {es' : List (Event τ)} (h : Run a es b) (h' : Run b es' c) :
    Run a (es ++ es') c := by
  induction h with
  | nil => exact h'
  | cons step _ ih => exact .cons step (ih h')

def Event.thread : Event τ → τ
  | .arrive t | .enter t | .leave t => t

/-! ## The order of entries -/

def Event.arrives : Event τ → Option τ
  | .arrive t => some t
  | _ => none

def Event.enters : Event τ → Option τ
  | .enter t => some t
  | _ => none

/-- The threads that have not entered yet. -/
def State.waiting (a : State τ) : List τ := if a.entered then a.queue.tail else a.queue

theorem Step.waiting (h : Step a e b) (hentered : a.entered = true → a.queue ≠ []) :
    a.waiting ++ e.arrives.toList = e.enters.toList ++ b.waiting := by
  cases h with
  | @arrive q entered t _ =>
      cases entered
      · rfl
      · obtain ⟨u, q, rfl⟩ := List.exists_cons_of_ne_nil (hentered rfl)
        rfl
  | enter => simp [State.waiting, Event.arrives, Event.enters]
  | leave => simp [State.waiting, Event.arrives, Event.enters]

theorem Step.entered (h : Step a e b) (hentered : a.entered = true → a.queue ≠ []) :
    b.entered = true → b.queue ≠ [] := by
  intro hb
  cases h with
  | arrive => simp
  | enter => simp
  | leave => cases hb

/-- Whoever waits at the start and whoever arrives enters in this order, and the last of
them still wait. -/
theorem Run.fifo (h : Run a es b) (hentered : a.entered = true → a.queue ≠ []) :
    a.waiting ++ es.filterMap Event.arrives = es.filterMap Event.enters ++ b.waiting := by
  induction h with
  | nil => simp
  | @cons a b c e es step run ih =>
      have hstep := step.waiting hentered
      have hrun := ih (step.entered hentered)
      calc a.waiting ++ (e :: es).filterMap Event.arrives
          = (a.waiting ++ e.arrives.toList) ++ es.filterMap Event.arrives := by
            cases h : e.arrives <;> simp [h]
        _ = e.enters.toList ++ (b.waiting ++ es.filterMap Event.arrives) := by
            rw [hstep, List.append_assoc]
        _ = (e :: es).filterMap Event.enters ++ c.waiting := by
            rw [hrun]
            cases h : e.enters <;> simp [h]

/-! ## The queue -/

theorem Step.nodup (h : Step a e b) (hnodup : a.queue.Nodup) :
    b.queue.Nodup := by
  cases h with
  | arrive h => exact List.nodup_append_comm.mp (List.nodup_cons.mpr ⟨h, hnodup⟩)
  | enter => exact hnodup
  | leave => exact (List.nodup_cons.mp hnodup).2

theorem Step.others {u : τ} (h : Step a e b) (hu : a.queue.head? = some u) (he : e.thread ≠ u) :
    a.queue <+: b.queue := by
  cases h with
  | arrive => exact List.prefix_append _ _
  | enter => exact absurd (Option.some.inj hu) he
  | leave => exact absurd (Option.some.inj hu) he

/-- While the first thread does nothing, the queue only grows. -/
theorem Run.others {u : τ} (h : Run a es b) (hu : a.queue.head? = some u)
    (hes : ∀ e ∈ es, e.thread ≠ u) : a.queue <+: b.queue := by
  induction h with
  | nil => exact List.prefix_rfl
  | @cons a b c e es step _ ih =>
      have hstep := step.others hu (hes e List.mem_cons_self)
      have hb : b.queue.head? = some u := by
        obtain ⟨r, hr⟩ := hstep
        rw [← hr, List.head?_append, hu]
        rfl
      exact hstep.trans (ih hb fun e he => hes e (List.mem_cons_of_mem _ he))

theorem Run.enter (h : Run a [.enter t] b) : b.queue = a.queue := by
  obtain _ | ⟨step, run⟩ := h
  cases step
  cases run
  rfl

theorem Run.leave (h : Run a [.leave t] b) :
    a.queue = t :: b.queue ∧ b.entered = false := by
  obtain _ | ⟨step, run⟩ := h
  cases step
  cases run
  exact ⟨rfl, rfl⟩

/-- The queue is shorter than the number of threads while there is one outside of it. -/
theorem length_lt_card [Fintype τ] {q : List τ} (hnodup : q.Nodup) (ht : t ∉ q) :
    q.length < Fintype.card τ :=
  (List.nodup_cons.mpr ⟨ht, hnodup⟩).length_le_card

end OsCourse.FifoLock
