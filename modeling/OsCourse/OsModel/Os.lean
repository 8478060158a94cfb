import OsCourse.Lib.Loop
import Mathlib.Data.Nat.Init

/-!
# The minimal operating system model

`os-model.py` runs generators as processes.  A generator is a state machine: it is
resumed with the return value of its last system call and runs to the next one,
or to its end.  `Send` is that machine over a type of generator states, and a
system call that is none of the three, or has other arguments than `run` matches,
is `other`.

`Process` objects are compared by identity when one is removed from `procs`, so
each carries the number of its creation.  The draws of `random.choice` are a
stream with one entry for each round of the loop.

Next to the loop of `run` stands one that also writes down what happens in each
round.  `run_eq_logged` says that it is the same loop.
-/

namespace OsCourse.OsModel

/-- What `read` returns. -/
abbrev Bit := Fin 2

/-- A system call of a process; `spawn` carries the new generator. -/
inductive Syscall (Q : Type) where
  | read
  | write (s : String)
  | spawn (func : Q)
  | other
  deriving Repr, DecidableEq

/-- What resuming a generator does: `StopIteration`, or a system call and the
state in which the generator waits for its value. -/
inductive Sent (Q : Type) where
  | stop
  | yields (call : Syscall Q) (next : Q)
  deriving Repr, DecidableEq

/-- `send` of the generators. -/
abbrev Send (Q : Type) := Q → Option Bit → Sent Q

/-- `OS.Process`, with its identity. -/
structure Process (Q : Type) where
  id : Nat
  func : Q
  retval : Option Bit
  deriving Repr, DecidableEq

/-- `OS`, with the number of `Process` objects created so far. -/
structure OS (Q : Type) where
  procs : List (Process Q)
  buffer : String
  created : Nat
  deriving Repr, DecidableEq

/-- Exceptions that end `run`: `assert 0`, and the `IndexError` of `random.choice`
on an empty list. -/
inductive Fault where
  | assertion
  | indexError
  deriving Repr, DecidableEq

/-- The draws of one round: which process, and which bit a `read` gets. -/
structure Draw where
  proc : Nat
  bit : Bit

variable {Q : Type}

/-- `OS.__init__`. -/
def OS.init (main : Q) : OS Q :=
  ⟨[⟨0, main, none⟩], "", 1⟩

/-- `Process.step`.  `none` is `StopIteration`. -/
def Process.step (send : Send Q) (p : Process Q) : Option (Syscall Q × Process Q) :=
  match send p.func p.retval with
  | .stop => none
  | .yields call next => some (call, { p with func := next, retval := none })

/-- The body of the loop for the process `current`, which is number `i` of
`procs`. -/
def OS.round (send : Send Q) (os : OS Q) (i : Nat) (current : Process Q) (bit : Bit) :
    Except Fault (OS Q) :=
  match current.step send with
  | none => .ok { os with procs := os.procs.eraseP fun p => p.id == current.id }
  | some (call, p) =>
      -- The object is changed in place.
      let os := { os with procs := os.procs.set i p }
      match call with
      | .read => .ok { os with procs := os.procs.set i { p with retval := some bit } }
      | .write s => .ok { os with buffer := os.buffer ++ s }
      | .spawn func => .ok { os with
          procs := os.procs ++ [⟨os.created, func, none⟩]
          created := os.created + 1 }
      | .other => .error .assertion

/-- `random.choice(self.procs)`: a position and the process there. -/
def OS.choice (os : OS Q) (draw : Draw) : Except Fault (Nat × Process Q) :=
  let i := draw.proc % os.procs.length
  match os.procs[i]? with
  | some p => .ok (i, p)
  | none => .error .indexError

/-- The loop of `run`, over the system and the number of rounds so far. -/
def machine (send : Send Q) (random : Nat → Draw) : Loop (OS Q × Nat) Fault where
  guard s := !s.1.procs.isEmpty
  body s := do
    let (i, current) ← s.1.choice (random s.2)
    let os ← s.1.round send i current (random s.2).bit
    return (os, s.2 + 1)

/-- `OS(src).run()`, where `main` is the generator of `src`. -/
def run (send : Send Q) (random : Nat → Draw) (fuel : Nat) (main : Q) :
    Option (Except Fault String) :=
  ((machine send random).run fuel (OS.init main, 0)).map fun r => r.map fun s => s.1.buffer

/-! ## The log -/

/-- What a process does in a round. -/
inductive Event (Q : Type) where
  | read (bit : Bit)
  | write (s : String)
  | spawn (func : Q)
  | exit
  deriving Repr, DecidableEq

/-- The event of a round that does not fail. -/
def Process.event (send : Send Q) (current : Process Q) (bit : Bit) : Event Q :=
  match send current.func current.retval with
  | .yields .read _ => .read bit
  | .yields (.write s) _ => .write s
  | .yields (.spawn func) _ => .spawn func
  | _ => .exit

/-- The state of the loop with the log: for each round the process that ran and
what it did. -/
structure Logged (Q : Type) where
  os : OS Q
  rounds : Nat
  log : List (Nat × Event Q)
  deriving Repr, DecidableEq

/-- The loop of `run` with the log. -/
def logged (send : Send Q) (random : Nat → Draw) : Loop (Logged Q) Fault where
  guard s := !s.os.procs.isEmpty
  body s := do
    let (i, current) ← s.os.choice (random s.rounds)
    let os ← s.os.round send i current (random s.rounds).bit
    return ⟨os, s.rounds + 1, s.log ++ [(current.id, current.event send (random s.rounds).bit)]⟩

/-- The log of `OS(src).run()`. -/
def runLog (send : Send Q) (random : Nat → Draw) (fuel : Nat) (main : Q) :
    Option (Except Fault (List (Nat × Event Q))) :=
  ((logged send random).run fuel ⟨OS.init main, 0, []⟩).map fun r => r.map Logged.log

/-- The log does not change the loop. -/
theorem run_eq_logged (send : Send Q) (random : Nat → Draw) (fuel : Nat) (s : Logged Q) :
    (machine send random).run fuel (s.os, s.rounds) =
      ((logged send random).run fuel s).map fun r => r.map fun t => (t.os, t.rounds) := by
  refine Loop.run_map (fun t : Logged Q => (t.os, t.rounds)) (fun t => rfl) (fun t => ?_) fuel s
  simp only [machine, logged, bind, Except.bind]
  cases t.os.choice (random t.rounds) with
  | error e => rfl
  | ok c =>
      simp only
      cases t.os.round send c.1 c.2 (random t.rounds).bit <;> rfl

end OsCourse.OsModel
