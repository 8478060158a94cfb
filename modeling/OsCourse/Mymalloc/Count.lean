import OsCourse.Lib.Lock

/-!
# The counter of mymalloc

`mymalloc` counts its calls in the variable `malloc_count`, under the spinlock
`big_lock`.  Any number of threads call it, each any number of times, and their atomic
steps interleave in any order: the compare-and-exchange of `spin_lock`, which is tried
again until it succeeds, the load and the store of `malloc_count++`, and the store of
`spin_unlock`.

The system is one of `Lib/Lock.lean` (`view_step`), with the increment as its section:
alone it takes the counter from `n` to `n + 1` (`increment_keeps`).
-/

namespace OsCourse.Mymalloc

/-! ## The code -/

/-- `UNLOCKED`. -/
def unlocked : Int := 0

/-- `LOCKED`. -/
def locked : Int := 1

/-- `atomic_compare_exchange_strong(&status, &expected, desired)`: whether it succeeds,
and `status` and `expected` after it. -/
def compareExchange (status expected desired : Int) : Bool × Int × Int :=
  if status = expected then (true, desired, expected) else (false, status, status)

/-- Where a thread is in `mymalloc`. -/
inductive Pc where
  /-- Not in a call. -/
  | outside
  /-- Before the compare-and-exchange of `spin_lock`. -/
  | spinLock
  /-- Before the load of `malloc_count`. -/
  | load
  /-- Before the store of `malloc_count`, with the value that was loaded. -/
  | store (loaded : BitVec 64)
  /-- Before the store of `spin_unlock`. -/
  | spinUnlock
deriving DecidableEq

/-- The threads and the global variables. -/
structure State (τ : Type) where
  /-- Where the threads are. -/
  pc : τ → Pc
  /-- `big_lock.status`. -/
  status : Int
  /-- `malloc_count`. -/
  mallocCount : BitVec 64
  /-- The number of calls that are complete.  The code does not have it. -/
  completed : Nat

variable {τ : Type}

/-- The start of the program: no call is in progress, and the globals are zero. -/
def State.init : State τ := ⟨fun _ => .outside, unlocked, 0, 0⟩

variable [DecidableEq τ]

/-- One atomic step of a thread.  A thread outside starts a call. -/
def State.step (s : State τ) (t : τ) : State τ :=
  match s.pc t with
  | .outside => { s with pc := Function.update s.pc t .spinLock }
  | .spinLock =>
      let expected := unlocked
      let (success, status, _) := compareExchange s.status expected locked
      -- `expected` is set again before the next try
      { s with
        pc := Function.update s.pc t (if success then .load else .spinLock)
        status := status }
  | .load => { s with pc := Function.update s.pc t (.store s.mallocCount) }
  | .store loaded =>
      { s with pc := Function.update s.pc t .spinUnlock, mallocCount := loaded + 1 }
  | .spinUnlock =>
      { s with
        pc := Function.update s.pc t .outside
        status := unlocked
        completed := s.completed + 1 }

/-- The interleaving that a list of threads describes. -/
def State.run (s : State τ) (schedule : List τ) : State τ := schedule.foldl State.step s

/-- Between a successful compare-and-exchange and the unlock. -/
def Pc.locking : Pc → Bool
  | .outside => false
  | .spinLock => false
  | .load => true
  | .store _ => true
  | .spinUnlock => true

/-! ## The lock -/

/-- The local states of the increment. -/
inductive Increment where
  | load
  | store (loaded : BitVec 64)
  | stored

/-- `malloc_count++` as a section. -/
def increment : Lock.Section (BitVec 64) Increment where
  enter := .load
  step
    | .load, count => some (.store count, count)
    | .store loaded, _ => some (.stored, loaded + 1)
    | .stored, _ => none

/-- The counter in the course of an increment, after `n` of them. -/
def Counting : Increment → Nat → BitVec 64 → Prop
  | .load, n, count => count = BitVec.ofNat 64 n
  | .store loaded, n, count => count = BitVec.ofNat 64 n ∧ loaded = count
  | .stored, n, count => count = BitVec.ofNat 64 (n + 1)

theorem increment_keeps :
    increment.Keeps (fun n count => count = BitVec.ofNat 64 n) Counting where
  enter := fun h => h
  step := by
    intro r n count r' count' hbusy hstep
    cases r with
    | load =>
        cases hstep
        exact ⟨hbusy, rfl⟩
    | store loaded =>
        cases hstep
        obtain ⟨hcount, rfl⟩ := hbusy
        rw [Counting, hcount, BitVec.ofNat_add]
        rfl
    | stored => cases hstep
  leave := by
    intro r n count hbusy hstep
    cases r with
    | stored => exact hbusy
    | load => cases hstep
    | store loaded => cases hstep

/-- What the lock sees of a place in `mymalloc`. -/
def Pc.view : Pc → Lock.Place Increment
  | .outside => .outside
  | .spinLock => .waiting
  | .load => .inside .load
  | .store loaded => .inside (.store loaded)
  | .spinUnlock => .inside .stored

/-- What the lock sees of a state. -/
def State.view (s : State τ) : Lock.State τ (BitVec 64) Increment :=
  ⟨fun t => (s.pc t).view, decide (s.status ≠ unlocked), s.mallocCount, s.completed⟩

/-- What the lock sees of a state in which one thread has moved. -/
theorem view_move (s : State τ) (t : τ) (p : Pc) (status : Int) (count : BitVec 64) (n : Nat) :
    (⟨Function.update s.pc t p, status, count, n⟩ : State τ).view =
      ⟨Function.update s.view.place t p.view, decide (status ≠ unlocked), count, n⟩ := by
  have hplace : (fun u => (Function.update s.pc t p u).view) =
      Function.update (fun u => (s.pc u).view) t p.view :=
    funext fun u => Function.apply_update (fun _ => Pc.view) s.pc t p u
  rw [State.view, hplace]
  rfl

/-- A step of `mymalloc` is a step under the lock. -/
theorem view_step (s : State τ) (t : τ) : (s.step t).view = s.view.step increment t := by
  have hplace : s.view.place t = (s.pc t).view := rfl
  unfold State.step Lock.State.step
  rw [hplace]
  cases hpc : s.pc t with
  | outside => exact view_move s t .spinLock s.status s.mallocCount s.completed
  | spinLock =>
      dsimp only [Pc.view]
      by_cases hfree : s.status = unlocked
      · have hcas : compareExchange s.status unlocked locked = (true, locked, unlocked) :=
          if_pos hfree
        have hheld : s.view.held = false := decide_eq_false (not_not.mpr hfree)
        rw [hcas, hheld]
        exact view_move s t .load locked s.mallocCount s.completed
      · have hcas : compareExchange s.status unlocked locked = (false, s.status, s.status) :=
          if_neg hfree
        have hheld : s.view.held = true := decide_eq_true hfree
        have hstay : Function.update s.pc t .spinLock = s.pc := by
          rw [← hpc, Function.update_eq_self]
        rw [hcas, hheld]
        simp only [Bool.false_eq_true, if_false, hstay, if_true]
  | load => exact view_move s t (.store s.mallocCount) s.status s.mallocCount s.completed
  | store loaded => exact view_move s t .spinUnlock s.status (loaded + 1) s.completed
  | spinUnlock => exact view_move s t .outside unlocked s.mallocCount (s.completed + 1)

theorem view_run (s : State τ) (schedule : List τ) :
    (s.run schedule).view = s.view.run increment schedule := by
  induction schedule generalizing s with
  | nil => rfl
  | cons t schedule ih =>
      have hcons : (s.run (t :: schedule)).view = ((s.step t).run schedule).view := rfl
      rw [hcons, ih, view_step]
      rfl

theorem exists_inside {p : Pc} (h : p.locking = true) : ∃ r, p.view = .inside r := by
  cases p with
  | outside => cases h
  | spinLock => cases h
  | load => exact ⟨.load, rfl⟩
  | store loaded => exact ⟨.store loaded, rfl⟩
  | spinUnlock => exact ⟨.stored, rfl⟩

/-- Under every interleaving at most one thread is between its compare-and-exchange and
its unlock, and the counter is right whenever no call is in progress. -/
theorem mallocCount_exact (schedule : List τ) :
    (∀ t u, (((State.init : State τ).run schedule).pc t).locking = true →
      (((State.init : State τ).run schedule).pc u).locking = true → t = u) ∧
    ((∀ t, ((State.init : State τ).run schedule).pc t = .outside) →
      ((State.init : State τ).run schedule).mallocCount =
        BitVec.ofNat 64 ((State.init : State τ).run schedule).completed) := by
  have hok : ((State.init : State τ).run schedule).view.Ok
      (fun n count => count = BitVec.ofNat 64 n) Counting := by
    rw [view_run]
    exact Lock.ok_run increment_keeps (Lock.ok_init rfl) schedule
  generalize (State.init : State τ).run schedule = s at hok
  constructor
  · intro t u ht hu
    obtain ⟨r, hr⟩ := exists_inside ht
    obtain ⟨r', hr'⟩ := exists_inside hu
    exact hok.exclusive hr hr'
  · intro hout
    refine hok.idle_of_none fun t r ht => ?_
    have hview : (s.pc t).view = .inside r := ht
    rw [hout t] at hview
    cases hview

-- the second thread finds the lock taken once and has to try again
example : ((State.init : State Bool).run
    [true, false, true, false, true, true, true, false, false, false, false]).mallocCount = 2 := by
  decide

end OsCourse.Mymalloc
