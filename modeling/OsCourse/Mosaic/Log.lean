import OsCourse.Mosaic.Refine
import OsCourse.Lib.Record

/-!
# Recorded runs

The operating system model once more, with a record of the generators that are
resumed, by a system itself or by those that its forks replay.  An event holds the
values of the global variables at the moment of `send`.

Here a generator may do anything that depends on what happened before, where an `App`
is deterministic.  It may use global variables of its own or random numbers, so that
a replay need not do again what it did the first time.  Where it is deterministic the
results are those of the model without a record (`stepRecorded_erases`).
-/

namespace OsCourse.Mosaic

open Recorded

variable {V G H L S : Type} [DecidableEq V] [PyValue V]

/-- The resumption of a thread by `context.send(res)`. -/
structure Event (V G : Type) where
  /-- The system that resumes it. -/
  os : Nat
  /-- The action of the choice. -/
  action : Action V G (Thread G)
  /-- The number of the thread, from 0 on. -/
  tid : Nat
  /-- The thread. -/
  thread : Thread G
  /-- The number of threads of the system. -/
  count : Nat
  /-- The value sent. -/
  value : V
  /-- The global variable `os`. -/
  globalOs : Nat
  /-- The global variable `heap`. -/
  globalHeap : Nat

/-- What a generator does, given all events up to its resumption. -/
abbrev Behavior (V G H : Type) := List (Event V G) → G → V → H → Resume G H

section Model

variable (app : App V G H L S) (send : Behavior V G H)

/-- The end of `_step`, with a record. -/
def concludeRecorded
    (fork : List Bool → World H → OperatingSystem V G →
      Recorded Fault (Event V G) (World H × Option (Choices V G (Thread G))))
    (stack : List Bool) (w : World H) (os : OperatingSystem V G) :
    Resume G H → Recorded Fault (Event V G) (World H × OperatingSystem V G)
  | .raises => lift (.error .raised)
  | .returns h =>
      let w := { w with heaps := Function.update w.heaps w.heap h }
      let sys := os.sys.setContext .finished
      pure (w, { os with sys := { sys with choices := some sys.sched } })
  | .yields g h =>
      let w := { w with heaps := Function.update w.heaps w.heap h }
      let os := { os with sys := os.sys.setContext (.suspended g) }
      match app.call g with
      | .fork => do
          let (w, choices) ← fork stack w os
          pure (w, { os with sys := { os.sys with choices := choices } })
      | call =>
          pure (w, { os with sys :=
            { os.sys with choices := some (os.sys.handler Dict.empty call) } })

/-- `_step`, with a record. -/
def stepRecorded
    (fork : List Bool → World H → OperatingSystem V G →
      Recorded Fault (Event V G) (World H × Option (Choices V G (Thread G))))
    (stack : List Bool) (w : World H) (os : OperatingSystem V G) (choice : Label)
    (forkChild : Bool) : Recorded Fault (Event V G) (World H × OperatingSystem V G) := do
  let (w, os, action, res, th) ← lift (prepare w os choice)
  let past ← record {
    os := os.id, action, tid := os.sys.current, thread := th, count := os.sys.threads.length
    value := res, globalOs := w.os, globalHeap := w.heap }
  let r ← lift (resume { app with send := send past } (w.heaps w.heap) res th.context)
  concludeRecorded app fork (forkChild :: stack) w os r

/-- `replay`, with a record. -/
def replayRecorded
    (fork : List Bool → World H → OperatingSystem V G →
      Recorded Fault (Event V G) (World H × Option (Choices V G (Thread G))))
    (stack : List Bool) : List Label → World H → OperatingSystem V G →
    Recorded Fault (Event V G) (World H × OperatingSystem V G)
  | [], w, os => pure (w, os)
  | c :: trace, w, os => do
      let (w, os) ← stepRecorded app send fork stack w os c false
      replayRecorded fork stack trace w os

/-- `sys_fork`, with a record. -/
def sysForkRecorded : Nat → List Bool → World H → OperatingSystem V G →
    Recorded Fault (Event V G) (World H × Option (Choices V G (Thread G)))
  | 0, stack, w, _ => lift (if stack.all (! ·) then .error .outOfFuel else .ok (w, none))
  | fuel + 1, stack, w, os =>
      if stack.all (! ·) then do
        let (w, clone) := create app w
        let (w, clone) ←
          replayRecorded app send (sysForkRecorded fuel) stack os.trace.dropLast w clone
        match os.trace.getLast? with
        | none => lift (.error .indexError)
        | some last =>
            let (w, clone) ← stepRecorded app send (sysForkRecorded fuel) stack w clone last true
            let th ← lift (clone.sys.thread clone.sys.current)
            pure (w, some (oneChoice "fork" (.fork th)))
      else pure (w, none)

end Model

/-! ## Deterministic applications -/

section Erase

variable {app : App V G H L S}
  {forkR : List Bool → World H → OperatingSystem V G →
    Recorded Fault (Event V G) (World H × Option (Choices V G (Thread G)))}
  {fork : List Bool → World H → OperatingSystem V G →
    Except Fault (World H × Option (Choices V G (Thread G)))}
  (hfork : ∀ stack w os, Erases (forkR stack w os) (fork stack w os))

include hfork

theorem concludeRecorded_erases (stack : List Bool) (w : World H) (os : OperatingSystem V G)
    (r : Resume G H) :
    Erases (concludeRecorded app forkR stack w os r) (conclude app fork stack w os r) := by
  cases r with
  | raises => exact .lift _
  | returns h => exact .pure _
  | yields g h =>
      simp only [concludeRecorded, conclude]
      cases app.call g with
      | fork => exact (hfork _ _ _).bind fun _ => .pure _
      | _ => exact .pure _

theorem stepRecorded_erases_of (stack : List Bool) (w : World H) (os : OperatingSystem V G)
    (choice : Label) (flag : Bool) :
    Erases (stepRecorded app (fun _ => app.send) forkR stack w os choice flag)
      (stepWith app fork stack w os choice flag) := by
  rw [stepWith_prepare]
  refine (Erases.lift _).bind fun x => .record fun _ => (Erases.lift _).bind fun r => ?_
  exact concludeRecorded_erases hfork _ _ _ r

theorem replayRecorded_erases (stack : List Bool) (trace : List Label) (w : World H)
    (os : OperatingSystem V G) :
    Erases (replayRecorded app (fun _ => app.send) forkR stack trace w os)
      (replayWith app fork stack trace w os) := by
  induction trace generalizing w os with
  | nil => exact .pure _
  | cons c trace ih =>
      exact (stepRecorded_erases_of hfork stack w os c false).bind fun x => ih x.1 x.2

end Erase

theorem sysForkRecorded_erases (app : App V G H L S) (fuel : Nat) (stack : List Bool)
    (w : World H) (os : OperatingSystem V G) :
    Erases (sysForkRecorded app (fun _ => app.send) fuel stack w os)
      (sysFork app fuel stack w os) := by
  induction fuel generalizing stack w os with
  | zero => exact .lift _
  | succ fuel ih =>
      simp only [sysForkRecorded, sysFork]
      split
      · refine (replayRecorded_erases ih _ _ _ _).bind fun x => ?_
        cases os.trace.getLast? with
        | none => exact .lift _
        | some last =>
            exact (stepRecorded_erases_of ih _ _ _ _ _).bind fun y =>
              (Erases.lift _).bind fun th => .pure _
      · exact .pure _

/-- A deterministic application does with a record what it does without. -/
theorem stepRecorded_erases (app : App V G H L S) (fuel : Nat) (w : World H)
    (os : OperatingSystem V G) (choice : Label) :
    Erases (stepRecorded app (fun _ => app.send) (sysForkRecorded app (fun _ => app.send) fuel) [] w
      os choice false) (step app fuel w os choice) :=
  stepRecorded_erases_of (sysForkRecorded_erases app fuel) _ _ _ _ _

end OsCourse.Mosaic
