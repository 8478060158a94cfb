import OsCourse.Mosaic.Device
import Mathlib.Data.Finset.Basic

/-!
# The operating system model

Mosaic runs an application whose threads are Python generators.  A generator
runs until it yields a system call.  The handler of the call returns the choices
of the moment, and `_step` takes one of them: it performs the action of the
choice, resumes the current thread with the result and asks the handler of the
next call for new choices.

`sys_fork` cannot copy a generator.  It builds a new system, replays all choices
but the last in it, and takes the last one with a flag that stops this second
system from forking again.  The thread that runs there is the clone.

An application is a record of functions, so it is deterministic given its
choices.  A value of type `G` is what a generator object holds: its frame, the
position in the line, pending values and iterators, and the call it has yielded.
`frame` is the part that a state dump shows.  Objects of class `Heap` live in a
`World` with the global variables `heap` and `os`, which all systems share.  A
generator reads and writes the heap that the global variable names.
-/

namespace OsCourse.Mosaic

/-! ## Applications -/

/-- A system call with its arguments. -/
inductive Syscall (V G : Type) where
  /-- `sys_spawn(func, *args)`, with the generator that `func(*args)` gives. -/
  | spawn (child : G)
  /-- `sys_fork()`. -/
  | fork
  /-- `sys_sched()`. -/
  | sched
  /-- `sys_choose(choices)`. -/
  | choose (choices : List V)
  /-- `sys_write(*args)`. -/
  | write (args : List V)
  /-- A call to the block device. -/
  | device (call : Call V)

/-- What a generator does when it is resumed. -/
inductive Resume (G H : Type) where
  /-- It yields a call. -/
  | yields (g : G) (h : H)
  /-- It returns. -/
  | returns (h : H)
  /-- It raises an exception. -/
  | raises

/-- What a dump shows of a generator. -/
structure Frame (L : Type) where
  /-- The name of the function. -/
  name : String
  /-- The line number. -/
  pc : Nat
  /-- The local variables. -/
  locals : L
deriving DecidableEq

/-- An application. -/
structure App (V G H L S : Type) where
  /-- The name of the main function. -/
  name : String
  /-- The generator of the main function. -/
  main : G
  /-- The contents of a new heap. -/
  emptyHeap : H
  /-- The call that a suspended generator has yielded. -/
  call : G → Syscall V G
  /-- Resume a generator with a value and the contents of its heap. -/
  send : G → V → H → Resume G H
  /-- The frame of a generator that has not run. -/
  startFrame : G → Frame L
  /-- The frame of a suspended generator. -/
  frame : G → Frame L
  /-- What a dump shows of a heap. -/
  showHeap : H → S

/-! ## Systems -/

/-- The context of a thread, a generator object. -/
inductive Context (G : Type) where
  /-- It has not run. -/
  | fresh (g : G)
  /-- It waits for the result of a call. -/
  | suspended (g : G)
  /-- It has returned: `gi_frame` is `None`. -/
  | finished
deriving DecidableEq

/-- Whether a thread can run. -/
def Context.alive {G : Type} : Context G → Bool
  | .finished => false
  | _ => true

/-- A thread: its context and the address of its heap. -/
structure Thread (G : Type) where
  /-- The generator. -/
  context : Context G
  /-- The heap. -/
  heap : Nat
deriving DecidableEq

/-- The action of a choice.  A clone made by a fork is of type `T`. -/
inductive Action (V G T : Type) where
  /-- `lambda: None`. -/
  | nothing
  /-- `do_spawn()`. -/
  | spawn (child : G)
  /-- `do_fork()`. -/
  | fork (clone : T)
  /-- `self._switch_to(tid)`. -/
  | switch (tid : Nat)
  /-- `lambda: c`. -/
  | value (v : V)
  /-- `do_write()`. -/
  | write (args : List V)
  /-- An action of the block device. -/
  | device (act : BlockAction V)

/-- The choices of a moment. -/
abbrev Choices (V G T : Type) := Dict Label (Action V G T)

/-- The state of a system.  An overridden fork leaves no choices. -/
structure System (V G T : Type) where
  /-- The threads. -/
  threads : List (Thread G)
  /-- The running thread. -/
  current : Nat
  /-- The choices. -/
  choices : Option (Choices V G T)
  /-- What has been written. -/
  stdout : String
  /-- The block device. -/
  storage : Storage V
  /-- The clones that have not run. -/
  newfork : Finset Nat

/-- What goes wrong in a step. -/
inductive Fault where
  /-- The bound on nested forks is reached. -/
  | outOfFuel
  /-- A choice is not offered. -/
  | keyError
  /-- A thread does not exist. -/
  | indexError
  /-- There are no choices, or a value is sent to a generator that has not run. -/
  | typeError
  /-- The application raises an exception. -/
  | raised
deriving DecidableEq

section Handlers

variable {V G T : Type} [PyValue V]

/-- `self._threads[tid]`. -/
def System.thread (s : System V G T) (tid : Nat) : Except Fault (Thread G) :=
  match s.threads[tid]? with
  | some th => .ok th
  | none => .error .indexError

/-- The part of `_switch_to` that changes the system: a clone that runs for the
first time receives 0. -/
def System.switchTo (s : System V G T) (tid : Nat) : V × System V G T :=
  if tid ∈ s.newfork then
    (PyValue.int 0, { s with current := tid, newfork := s.newfork.erase tid })
  else (PyValue.none, { s with current := tid })

/-- `' '.join(str(arg) for arg in args)`. -/
def joinArgs (args : List V) : String := String.intercalate " " (args.map PyValue.str)

/-- Perform an action, where `clone` is the thread that a fork appends. -/
def System.act (s : System V G T) (clone : T → Thread G) :
    Action V G T → Except Fault (V × System V G T)
  | .nothing => .ok (PyValue.none, s)
  | .spawn child => do
      let th ← s.thread s.current
      .ok (PyValue.none, { s with threads := s.threads ++ [⟨.fresh child, th.heap⟩] })
  | .fork c =>
      let threads := s.threads ++ [clone c]
      .ok (PyValue.int (1000 + threads.length),
        { s with threads := threads, newfork := insert (threads.length - 1) s.newfork })
  | .switch tid => do
      let _ ← s.thread tid
      .ok (s.switchTo tid)
  | .value v => .ok (v, s)
  | .write args => .ok (PyValue.none, { s with stdout := s.stdout ++ joinArgs args })
  | .device act =>
      let r := act s.storage
      .ok (r.1, { s with storage := r.2 })

/-- `sys_sched`. -/
def System.sched (s : System V G T) : Choices V G T :=
  Dict.ofList ((s.threads.zipIdx.filter fun x => x.1.context.alive).map fun x =>
    (.str ("t" ++ toString (x.2 + 1)), .switch x.2))

variable [DecidableEq V]

/-- The handlers of all calls but `sys_fork`, which is given. -/
def System.handler (s : System V G T) (fork : Choices V G T) : Syscall V G → Choices V G T
  | .spawn child => oneChoice "spawn" (.spawn child)
  | .fork => fork
  | .sched => s.sched
  | .choose choices =>
      Dict.ofList (choices.map fun c => (.str ("choose " ++ PyValue.str c), .value c))
  | .write args => oneChoice "write" (.write args)
  | .device call => (handle s.storage call).mapValues .device

end Handlers

/-! ## The step -/

/-- The objects of class `Heap` and the global variables. -/
structure World (H : Type) where
  /-- The contents of heaps by address. -/
  heaps : Nat → H
  /-- The address of the next heap. -/
  nextHeap : Nat
  /-- The global variable `heap`. -/
  heap : Nat
  /-- The number of the next system. -/
  nextOs : Nat
  /-- The global variable `os`. -/
  os : Nat

/-- An object of class `OperatingSystem`. -/
structure OperatingSystem (V G : Type) where
  /-- Its identity. -/
  id : Nat
  /-- Its state. -/
  sys : System V G (Thread G)
  /-- The choices taken so far. -/
  trace : List Label

section Step

variable {V G H L S : Type} [DecidableEq V] [PyValue V] (app : App V G H L S)

/-- `OperatingSystem(init)`. -/
def create (w : World H) : World H × OperatingSystem V G :=
  ({ w with
      heaps := Function.update w.heaps w.nextHeap app.emptyHeap
      nextHeap := w.nextHeap + 1
      nextOs := w.nextOs + 1 },
    { id := w.nextOs
      sys :=
        { threads := [⟨.fresh app.main, w.nextHeap⟩]
          current := 0
          choices := some (oneChoice app.name .nothing)
          stdout := ""
          storage := Storage.empty
          newfork := ∅ }
      trace := [] })

/-- `_switch_to`, with the global variables. -/
def switchTo (w : World H) (os : OperatingSystem V G) (tid : Nat) :
    Except Fault (World H × V × OperatingSystem V G) := do
  let th ← os.sys.thread tid
  let r := os.sys.switchTo tid
  .ok ({ w with os := os.id, heap := th.heap }, r.1, { os with sys := r.2 })

/-- `action()`. -/
def takeAction (w : World H) (os : OperatingSystem V G) :
    Action V G (Thread G) → Except Fault (World H × V × OperatingSystem V G)
  | .switch tid => switchTo w os tid
  | a => do
      let r ← os.sys.act id a
      .ok (w, r.1, { os with sys := r.2 })

/-- `self._choices[choice]`. -/
def System.lookup {T : Type} (s : System V G T) (choice : Label) : Except Fault (Action V G T) :=
  match s.choices with
  | none => .error .typeError
  | some choices =>
      match choices.get? choice with
      | none => .error .keyError
      | some a => .ok a

/-- `context.send(res)`.  A generator that has returned stops again, and one that
has not run takes no value. -/
def resume (h : H) (res : V) : Context G → Except Fault (Resume G H)
  | .fresh g => if res = PyValue.none then .ok (app.send g res h) else .error .typeError
  | .suspended g => .ok (app.send g res h)
  | .finished => .ok (.returns h)

/-- Set the context of the current thread. -/
def System.setContext {T : Type} (s : System V G T) (c : Context G) : System V G T :=
  { s with threads := s.threads.modify s.current fun th => { th with context := c } }

/-- The end of `_step`: what the generator did decides on the next choices.  The
handler of `sys_fork` is `fork`, and `stack` holds the flags of the steps that
are being executed. -/
def conclude
    (fork : List Bool → World H → OperatingSystem V G →
      Except Fault (World H × Option (Choices V G (Thread G))))
    (stack : List Bool) (w : World H) (os : OperatingSystem V G) :
    Resume G H → Except Fault (World H × OperatingSystem V G)
  | .raises => .error .raised
  | .returns h =>
      let w := { w with heaps := Function.update w.heaps w.heap h }
      let sys := os.sys.setContext .finished
      .ok (w, { os with sys := { sys with choices := some sys.sched } })
  | .yields g h =>
      let w := { w with heaps := Function.update w.heaps w.heap h }
      let os := { os with sys := os.sys.setContext (.suspended g) }
      match app.call g with
      | .fork => do
          let (w, choices) ← fork stack w os
          .ok (w, { os with sys := { os.sys with choices := choices } })
      | call =>
          -- the handler of a fork is not used here
          .ok (w, { os with sys :=
            { os.sys with choices := some (os.sys.handler Dict.empty call) } })

/-- `_step`, where `stack` holds the flags of the steps around this one. -/
def stepWith
    (fork : List Bool → World H → OperatingSystem V G →
      Except Fault (World H × Option (Choices V G (Thread G))))
    (stack : List Bool) (w : World H) (os : OperatingSystem V G) (choice : Label)
    (forkChild : Bool) : Except Fault (World H × OperatingSystem V G) := do
  let (w, _, os) ← switchTo w os os.sys.current
  let os := { os with trace := os.trace ++ [choice] }
  let action ← os.sys.lookup choice
  let (w, res, os) ← takeAction w os action
  let th ← os.sys.thread os.sys.current
  let r ← resume app (w.heaps w.heap) res th.context
  conclude app fork (forkChild :: stack) w os r

/-- `replay`. -/
def replayWith
    (fork : List Bool → World H → OperatingSystem V G →
      Except Fault (World H × Option (Choices V G (Thread G))))
    (stack : List Bool) :
    List Label → World H → OperatingSystem V G → Except Fault (World H × OperatingSystem V G)
  | [], w, os => .ok (w, os)
  | c :: trace, w, os => do
      let (w, os) ← stepWith app fork stack w os c false
      replayWith fork stack trace w os

/-- `sys_fork`.  It forks when no step that is being executed has the flag.  The
first argument bounds the nesting of forks. -/
def sysFork : Nat → List Bool → World H → OperatingSystem V G →
    Except Fault (World H × Option (Choices V G (Thread G)))
  | 0, stack, w, _ => if stack.all (! ·) then .error .outOfFuel else .ok (w, none)
  | fuel + 1, stack, w, os =>
      if stack.all (! ·) then do
        let (w, clone) := create app w
        let (w, clone) ← replayWith app (sysFork fuel) stack os.trace.dropLast w clone
        match os.trace.getLast? with
        | none => .error .indexError
        | some last =>
            let (w, clone) ← stepWith app (sysFork fuel) stack w clone last true
            let th ← clone.sys.thread clone.sys.current
            .ok (w, some (oneChoice "fork" (.fork th)))
      else .ok (w, none)

/-- `_step(choice)`. -/
def step (fuel : Nat) (w : World H) (os : OperatingSystem V G) (choice : Label) :
    Except Fault (World H × OperatingSystem V G) :=
  stepWith app (sysFork app fuel) [] w os choice false

/-- `OperatingSystem(init).replay(trace)`. -/
def replay (fuel : Nat) (trace : List Label) (w : World H) :
    Except Fault (World H × OperatingSystem V G) :=
  replayWith app (sysFork app fuel) [] trace (create app w).1 (create app w).2

end Step

end OsCourse.Mosaic
