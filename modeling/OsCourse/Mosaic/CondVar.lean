import OsCourse.Mosaic.Turns

/-!
# Producers and consumers with a condition variable

The application `examples/concurrency/cond-var.py`.  Workers share a buffer with room
for one item.  A mutex protects it, and workers that cannot proceed wait on one
condition variable, from which any of them may be woken.  `N`, `T_p` and `T_c` are
global variables that the file leaves to its user: the rounds of a worker, the
producers and the consumers.

A worker is interrupted at its system calls only.  `Worker.Step` is the automaton of a
worker, and `send_step` reads it off the code.  In every reachable state the mutex is
held by exactly one worker or by none, and the buffer holds 0 or 1 items
(`condVar_safe`).
-/

namespace OsCourse.Mosaic.CondVar

/-! ## The application -/

/-- The system calls of a worker. -/
inductive Point where
  /-- It has not run. -/
  | start
  /-- In `mutex_lock()`. -/
  | lock
  /-- Before `cond_wait()`. -/
  | blocked
  /-- In `cond_wait()`, on the wait list. -/
  | wait
  /-- In `cond_wait()`, to take the mutex again. -/
  | relock
  /-- `sys_choose(heap.cond)`. -/
  | signal (cond : List String)
  /-- After `cond_signal()`. -/
  | enter
  /-- After `mutex_unlock()`. -/
  | leave
deriving DecidableEq

/-- The variables of a worker, and where it is. -/
structure Worker where
  /-- The argument `name`. -/
  name : String
  /-- The argument `delta`. -/
  delta : Int
  /-- The variable of the `for` loop. -/
  round : Nat
  /-- Where it is. -/
  point : Point
deriving DecidableEq

/-- The generators of the application. -/
inductive Gen where
  /-- `main()`, before it runs. -/
  | main
  /-- `main()`, at its call of `sys_spawn` number `k`. -/
  | spawning (k : Nat)
  /-- `Tworker(name, delta)`. -/
  | worker (w : Worker)
deriving DecidableEq

/-- The attributes of the heap. -/
structure Heap where
  /-- Whether `mutex` is locked. -/
  mutex : Bool
  /-- The number of items. -/
  count : Int
  /-- The wait list. -/
  cond : List String
deriving DecidableEq

/-- `0 <= heap.count + delta <= 1`. -/
def Worker.enabled (w : Worker) (h : Heap) : Bool :=
  decide (0 ≤ h.count + w.delta ∧ h.count + w.delta ≤ 1)

/-- The worker at another call. -/
def Worker.at (w : Worker) (p : Point) : Worker := { w with point := p }

/-- A worker yields at `p`. -/
def yieldAt (w : Worker) (p : Point) (h : Heap) : Resume Gen (Option Heap) :=
  .yields (.worker (w.at p)) (some h)

/-- From the line after `mutex_lock()`, or after the mutex was taken again, to the next
call. -/
def locked (w : Worker) (h : Heap) : Resume Gen (Option Heap) :=
  let h := { h with mutex := true }
  if ¬ w.enabled h then yieldAt w .blocked h
  else if h.cond ≠ [] then yieldAt w (.signal h.cond) h
  else yieldAt w .enter h

/-- `while heap.mutex == '🔒': sys_sched()`, where `p` is the call in the loop. -/
def lockLoop (w : Worker) (p : Point) (h : Heap) : Resume Gen (Option Heap) :=
  if h.mutex then yieldAt w p h else locked w h

/-- `while name in heap.cond: sys_sched()`. -/
def waitLoop (w : Worker) (h : Heap) : Resume Gen (Option Heap) :=
  if w.name ∈ h.cond then yieldAt w .wait h else lockLoop w .relock h

/-- The head of the `for` loop. -/
def nextRound (N : Nat) (w : Worker) (h : Heap) : Resume Gen (Option Heap) :=
  if w.round < N then lockLoop w .lock h else .returns (some h)

/-- `Tworker(name, delta)` from one call to the next. -/
def Worker.send (N : Nat) (w : Worker) (res : PyVal) (h : Heap) : Resume Gen (Option Heap) :=
  match w.point with
  | .start => nextRound N w h
  | .lock => lockLoop w .lock h
  | .blocked => waitLoop w { h with mutex := false, cond := h.cond ++ [w.name] }
  | .wait => waitLoop w h
  | .relock => lockLoop w .relock h
  | .signal _ =>
      match res with
      | .str t => if t ∈ h.cond then yieldAt w .enter { h with cond := h.cond.erase t } else .raises
      | _ => .raises
  | .enter => yieldAt w .leave { h with count := h.count + w.delta, mutex := false }
  | .leave => nextRound N { w with round := w.round + 1 } h

/-- The worker that the call of `sys_spawn` number `k` starts. -/
def workerOf (T_p k : Nat) : Worker :=
  if k < T_p then ⟨"Tp" ++ toString k, 1, 0, .start⟩
  else ⟨"Tc" ++ toString (k - T_p), -1, 0, .start⟩

/-- `main()` from one call to the next, with `k` calls made. -/
def spawnLoop (T_p T_c k : Nat) (h : Heap) : Resume Gen (Option Heap) :=
  if k < T_p + T_c then .yields (.spawning k) (some h) else .returns (some h)

/-- The line of a call in the rewritten source. -/
def Point.line : Point → Nat
  | .start => 1
  | .lock => 4
  | .blocked => 7
  | .wait => 11
  | .relock => 13
  | .signal _ => 16
  | .enter => 18
  | .leave => 21

/-- The frame of a generator. -/
def Gen.frame (T_p : Nat) : Gen → Frame Gen
  | .main => ⟨"main", 23, .main⟩
  | .spawning k => ⟨"main", if k < T_p then 28 else 30, .spawning k⟩
  | .worker w => ⟨"Tworker", w.point.line, .worker w⟩

/-- The application. -/
def app (N T_p T_c : Nat) : App PyVal Gen (Option Heap) Gen (Option Heap) where
  name := "main"
  main := .main
  emptyHeap := none
  call
    | .spawning k => .spawn (.worker (workerOf T_p k))
    | .worker w =>
        match w.point with
        | .signal cond => .choose (cond.map .str)
        | _ => .sched
    | .main => .sched
  send g res h :=
    match g, h with
    | .main, _ => spawnLoop T_p T_c 0 ⟨false, 0, []⟩
    | .spawning k, some h => spawnLoop T_p T_c (k + 1) h
    | .worker w, some h => w.send N res h
    | _, none => .raises
  startFrame := Gen.frame T_p
  frame := Gen.frame T_p
  showHeap := id

/-! ## The automaton of a worker -/

/-- The worker holds the mutex. -/
def Worker.inside (w : Worker) : Bool :=
  match w.point with
  | .blocked | .signal _ | .enter => true
  | _ => false

/-- The worker has seen that it can proceed. -/
def Worker.ready (w : Worker) : Bool :=
  match w.point with
  | .signal _ | .enter => true
  | _ => false

/-- The items that the worker still adds to the buffer. -/
def Worker.rest (N : Nat) (w : Worker) : Int :=
  match w.point with
  | .leave => w.delta * (N - (w.round + 1))
  | _ => w.delta * (N - w.round)

/-- A worker that tries to take the mutex: as `w'` from then on, and at `p` until then. -/
inductive Worker.Tries (N : Nat) (w : Worker) (h : Heap) : Worker → Point → Prop where
  | start (hw : w.point = .start) (hN : w.round < N) : Tries N w h w .lock
  | lock (hw : w.point = .lock) : Tries N w h w .lock
  | next (hw : w.point = .leave) (hN : w.round + 1 < N) :
      Tries N w h { w with round := w.round + 1 } .lock
  | woken (hw : w.point = .wait) (hcond : w.name ∉ h.cond) : Tries N w h w .relock
  | relock (hw : w.point = .relock) : Tries N w h w .relock

/-- From one call to the next. -/
inductive Worker.Step (N : Nat) (w : Worker) (h : Heap) : Worker → Heap → Prop where
  | spin {w' : Worker} {p : Point} (htry : w.Tries N h w' p) (hmutex : h.mutex = true) :
      Step N w h (w'.at p) h
  | block {w' : Worker} {p : Point} (htry : w.Tries N h w' p) (hmutex : h.mutex = false)
      (hw : w'.enabled h = false) : Step N w h (w'.at .blocked) { h with mutex := true }
  | signal {w' : Worker} {p : Point} (htry : w.Tries N h w' p) (hmutex : h.mutex = false)
      (hw : w'.enabled h = true) (hcond : h.cond ≠ []) :
      Step N w h (w'.at (.signal h.cond)) { h with mutex := true }
  | enter {w' : Worker} {p : Point} (htry : w.Tries N h w' p) (hmutex : h.mutex = false)
      (hw : w'.enabled h = true) (hcond : h.cond = []) :
      Step N w h (w'.at .enter) { h with mutex := true }
  | sleep (hw : w.point = .blocked) :
      Step N w h (w.at .wait) { h with mutex := false, cond := h.cond ++ [w.name] }
  | asleep (hw : w.point = .wait) (hcond : w.name ∈ h.cond) : Step N w h (w.at .wait) h
  | wake {cond : List String} {t : String} (hw : w.point = .signal cond) (ht : t ∈ h.cond) :
      Step N w h (w.at .enter) { h with cond := h.cond.erase t }
  | act (hw : w.point = .enter) :
      Step N w h (w.at .leave) { h with count := h.count + w.delta, mutex := false }

/-- A worker returns after its last round. -/
def Worker.Done (N : Nat) (w : Worker) : Prop :=
  (w.point = .start ∧ N ≤ w.round) ∨ (w.point = .leave ∧ N ≤ w.round + 1)

section Automaton

variable {N : Nat} {w : Worker} {h : Heap} {w' : Worker} {p : Point} {h' : Heap}

theorem lockLoop_step (htry : w.Tries N h w' p) :
    ∃ w'' h', lockLoop w' p h = .yields (.worker w'') (some h') ∧ w.Step N h w'' h' := by
  rw [lockLoop]
  split
  next hmutex => exact ⟨_, _, rfl, .spin htry hmutex⟩
  next hmutex =>
    rw [Bool.not_eq_true] at hmutex
    rw [locked]
    have hsame : w'.enabled { h with mutex := true } = w'.enabled h := rfl
    split
    next hw => exact ⟨_, _, rfl, .block htry hmutex (by rwa [hsame, Bool.not_eq_true] at hw)⟩
    next hw =>
      rw [not_not, hsame] at hw
      split
      next hcond => exact ⟨_, _, rfl, .signal htry hmutex hw hcond⟩
      next hcond => exact ⟨_, _, rfl, .enter htry hmutex hw (not_not.mp hcond)⟩

/-- A worker does a step of the automaton or returns, if it is woken with a name from the
wait list. -/
theorem send_step {res : PyVal}
    (hres : ∀ cond, w.point = .signal cond → ∃ t, res = .str t ∧ t ∈ h.cond) :
    (∃ w' h', w.send N res h = .yields (.worker w') (some h') ∧ w.Step N h w' h') ∨
      (w.send N res h = .returns (some h) ∧ w.Done N) := by
  unfold Worker.send
  cases hw : w.point with
  | start =>
      dsimp only
      rw [nextRound]
      split
      next hN => exact .inl (lockLoop_step (.start hw hN))
      next hN => exact .inr ⟨rfl, .inl ⟨hw, Nat.not_lt.mp hN⟩⟩
  | lock => exact .inl (lockLoop_step (.lock hw))
  | blocked =>
      dsimp only
      rw [waitLoop, if_pos (List.mem_append_right _ (List.mem_singleton_self _))]
      exact .inl ⟨_, _, rfl, .sleep hw⟩
  | wait =>
      dsimp only
      rw [waitLoop]
      split
      next hcond => exact .inl ⟨_, _, rfl, .asleep hw hcond⟩
      next hcond => exact .inl (lockLoop_step (.woken hw hcond))
  | relock => exact .inl (lockLoop_step (.relock hw))
  | signal cond =>
      obtain ⟨t, rfl, ht⟩ := hres cond hw
      dsimp only
      rw [if_pos ht]
      exact .inl ⟨_, _, rfl, .wake hw ht⟩
  | enter => exact .inl ⟨_, _, rfl, .act hw⟩
  | leave =>
      dsimp only
      rw [nextRound]
      split
      next hN =>
        rw [← hw]
        exact .inl (lockLoop_step (.next hw hN))
      next hN => exact .inr ⟨rfl, .inr ⟨hw, Nat.not_lt.mp hN⟩⟩

/-- A worker has made all its rounds before the current one. -/
def Worker.Running (N : Nat) (w : Worker) : Prop :=
  (w.point = .start ∧ w.round = 0) ∨ (w.point ≠ .start ∧ w.round < N)

theorem Worker.Tries.outside (htry : w.Tries N h w' p) :
    w.inside = false ∧ (w'.at p).inside = false := by
  cases htry <;> simp_all [Worker.inside, Worker.at]

theorem Worker.Tries.rest (htry : w.Tries N h w' p) :
    w.rest N = w'.delta * (N - w'.round) := by
  cases htry <;> simp_all [Worker.rest]

theorem Worker.Tries.round (htry : w.Tries N h w' p) (hw : w.Running N) :
    w'.round < N ∧ p ≠ .start := by
  cases htry <;> simp_all [Worker.Running]

theorem Worker.Step.running (hstep : w.Step N h w' h') (hw : w.Running N) : w'.Running N := by
  cases hstep with
  | spin htry => exact .inr ⟨(htry.round hw).2, (htry.round hw).1⟩
  | block htry | signal htry | enter htry =>
      exact .inr ⟨(fun hs => by cases hs), (htry.round hw).1⟩
  | sleep hp | asleep hp | wake hp | act hp =>
      exact .inr ⟨(fun hs => by cases hs), (hw.resolve_left fun hs => by simp [hp] at hs).2⟩

/-- Items are neither lost nor made up. -/
theorem Worker.Step.items (hstep : w.Step N h w' h') :
    h'.count + w'.rest N = h.count + w.rest N := by
  cases hstep with
  | spin htry =>
      rw [htry.rest]
      cases htry <;> rfl
  | block htry => rw [htry.rest]; rfl
  | signal htry => rw [htry.rest]; rfl
  | enter htry => rw [htry.rest]; rfl
  | sleep hw | asleep hw | wake hw => simp only [Worker.rest, Worker.at, hw]
  | act hw =>
      simp only [Worker.rest, Worker.at, hw]
      ring

/-- What a step does to the mutex. -/
theorem Worker.Step.mutex (hstep : w.Step N h w' h') :
    (w'.inside = w.inside ∧ h'.mutex = h.mutex) ∨
      (w.inside = false ∧ w'.inside = true ∧ h.mutex = false ∧ h'.mutex = true) ∨
      (w.inside = true ∧ w'.inside = false ∧ h'.mutex = false) := by
  cases hstep with
  | spin htry => exact .inl ⟨htry.outside.2.trans htry.outside.1.symm, rfl⟩
  | block htry hmutex | signal htry hmutex | enter htry hmutex =>
      exact .inr (.inl ⟨htry.outside.1, rfl, hmutex, rfl⟩)
  | sleep hw => exact .inr (.inr ⟨by simp only [Worker.inside, hw], rfl, rfl⟩)
  | asleep hw => exact .inl ⟨by simp only [Worker.inside, Worker.at, hw], rfl⟩
  | wake hw => exact .inl ⟨by simp only [Worker.inside, Worker.at, hw], rfl⟩
  | act hw => exact .inr (.inr ⟨by simp only [Worker.inside, hw], rfl, rfl⟩)

/-- What a step does to the buffer. -/
theorem Worker.Step.count (hstep : w.Step N h w' h') :
    h'.count = h.count ∨ (w.ready = true ∧ h'.count = h.count + w.delta ∧ w'.ready = false) := by
  cases hstep with
  | act hw => exact .inr ⟨by simp only [Worker.ready, hw], rfl, rfl⟩
  | _ => exact .inl rfl

/-- A worker that goes on has seen that it can. -/
theorem Worker.Step.ready (hstep : w.Step N h w' h') (hw : w.ready = true → w.enabled h = true)
    (hw' : w'.ready = true) : w'.enabled h' = true := by
  cases hstep with
  | spin htry => cases htry <;> cases hw'
  | block => cases hw'
  | signal _ _ he => exact he
  | enter _ _ he => exact he
  | sleep => cases hw'
  | asleep => cases hw'
  | wake hp => exact hw (by simp only [Worker.ready, hp])
  | act => cases hw'

theorem Worker.inside_of_ready (hw : w.ready = true) : w.inside = true := by
  unfold Worker.ready at hw
  unfold Worker.inside
  cases hp : w.point <;> simp_all

theorem Worker.Done.rest (hdone : w.Done N) (hw : w.Running N) :
    w.rest N = 0 ∧ w.inside = false := by
  rcases hdone with ⟨hp, hN⟩ | ⟨hp, hN⟩
  · have hround : w.round = 0 := by simpa [Worker.Running, hp] using hw
    simp only [Worker.rest, Worker.inside, hp, and_true]
    rw [hround] at hN ⊢
    simp [Nat.le_zero.mp hN]
  · have hround : w.round < N := by simpa [Worker.Running, hp] using hw
    have hlast : (N : Int) - (w.round + 1) = 0 := by omega
    simp only [Worker.rest, Worker.inside, hp, hlast, mul_zero, and_true]

end Automaton

/-! ## Safety -/

/-- The items of the workers from the call of `sys_spawn` number `k` on. -/
def spawnRest (N T_p T_c k : Nat) : Int := ∑ j ∈ Finset.Ico k (T_p + T_c), (workerOf T_p j).rest N

theorem workerOf_running (N T_p k : Nat) : (workerOf T_p k).Running N := by
  rw [workerOf]
  split <;> exact .inl ⟨rfl, rfl⟩

theorem workerOf_start (T_p k : Nat) : (workerOf T_p k).point = .start := by
  rw [workerOf]
  split <;> rfl

variable {N T_p T_c : Nat}

theorem spawnRest_succ {k : Nat} (hk : k < T_p + T_c) :
    spawnRest N T_p T_c k = (workerOf T_p k).rest N + spawnRest N T_p T_c (k + 1) := by
  rw [spawnRest, spawnRest, Finset.sum_eq_sum_Ico_succ_bot hk]

theorem spawnRest_eq_zero {k : Nat} (hk : T_p + T_c ≤ k) : spawnRest N T_p T_c k = 0 := by
  rw [spawnRest, Finset.Ico_eq_empty (by omega), Finset.sum_empty]

theorem spawnRest_zero (N T_p T_c : Nat) : spawnRest N T_p T_c 0 = N * (T_p - T_c) := by
  have hp : ∑ j ∈ Finset.Ico 0 T_p, (workerOf T_p j).rest N = T_p * N := by
    rw [Finset.sum_congr rfl (g := fun _ => (N : Int))]
    · simp
    · intro j hj
      simp [workerOf, Worker.rest, (Finset.mem_Ico.mp hj).2]
  have hc : ∑ j ∈ Finset.Ico T_p (T_p + T_c), (workerOf T_p j).rest N = -(T_c * N) := by
    rw [Finset.sum_congr rfl (g := fun _ => -(N : Int))]
    · simp
    · intro j hj
      simp [workerOf, Worker.rest, Nat.not_lt.mpr (Finset.mem_Ico.mp hj).1]
  rw [spawnRest, ← Finset.sum_Ico_consecutive _ (Nat.zero_le T_p) (Nat.le_add_right T_p T_c), hp,
    hc]
  ring

/-- The generator of a live thread. -/
def gen? : Context Gen → Option Gen
  | .fresh g => some g
  | .suspended g => some g
  | .finished => none

theorem gen?_eq_some {c : Context Gen} {g : Gen} (h : gen? c = some g) :
    c = .fresh g ∨ c = .suspended g := by
  cases c with
  | fresh g' => exact .inl (congrArg Context.fresh (Option.some.inj h))
  | suspended g' => exact .inr (congrArg Context.suspended (Option.some.inj h))
  | finished => cases h

/-- The items that a thread still adds to the buffer. -/
def threadRest (N T_p T_c : Nat) (th : Thread Gen) : Int :=
  match gen? th.context with
  | some .main => spawnRest N T_p T_c 0
  | some (.spawning k) => spawnRest N T_p T_c k
  | some (.worker w) => w.rest N
  | none => 0

/-- The worker of thread `i`. -/
def IsWorker (threads : List (Thread Gen)) (i : Nat) (w : Worker) : Prop :=
  ∃ th, threads[i]? = some th ∧ gen? th.context = some (.worker w)

/-- What holds between any two turns, once `main` has set up the heap. -/
structure Safe (N T_p T_c : Nat) (threads : List (Thread Gen)) (h : Heap) : Prop where
  running : ∀ i w, IsWorker threads i w → w.Running N
  holds : ∀ i w, IsWorker threads i w → w.inside = true → h.mutex = true
  unique : ∀ i j w w', IsWorker threads i w → IsWorker threads j w' → w.inside = true →
    w'.inside = true → i = j
  held : h.mutex = true → ∃ i w, IsWorker threads i w ∧ w.inside = true
  ready : ∀ i w, IsWorker threads i w → w.ready = true → w.enabled h = true
  room : 0 ≤ h.count ∧ h.count ≤ 1
  items : h.count + total (threadRest N T_p T_c) threads = N * (T_p - T_c)

section Safe

variable {N T_p T_c : Nat} {threads : List (Thread Gen)} {h : Heap} {i : Nat} {w w' : Worker}
  {c : Context Gen}

theorem IsWorker.unique (hw : IsWorker threads i w) (hw' : IsWorker threads i w') : w = w' := by
  obtain ⟨th, hth, hgen⟩ := hw
  obtain ⟨th', hth', hgen'⟩ := hw'
  cases hth.symm.trans hth'
  cases hgen.symm.trans hgen'
  rfl

/-- The thread list after a thread ran. -/
def ran (threads : List (Thread Gen)) (i : Nat) (c : Context Gen) : List (Thread Gen) :=
  threads.modify i fun th => { th with context := c }

theorem isWorker_ran {j : Nat} (hw : IsWorker (ran threads i c) j w) :
    (j = i ∧ gen? c = some (.worker w)) ∨ (j ≠ i ∧ IsWorker threads j w) := by
  obtain ⟨th, hth, hgen⟩ := hw
  rw [ran, List.getElem?_modify] at hth
  obtain ⟨x, hx, rfl⟩ := Option.map_eq_some_iff.mp hth
  rcases eq_or_ne j i with rfl | hne
  · rw [if_pos rfl] at hgen
    exact .inl ⟨rfl, hgen⟩
  · rw [if_neg hne.symm] at hgen
    exact .inr ⟨hne, x, hx, hgen⟩

theorem IsWorker.ran {j : Nat} (hw : IsWorker threads j w) (hne : j ≠ i) :
    IsWorker (ran threads i c) j w := by
  obtain ⟨th, hth, hgen⟩ := hw
  refine ⟨th, ?_, hgen⟩
  rw [CondVar.ran, List.getElem?_modify_ne _ _ hne.symm, hth]

theorem IsWorker.self (hw : IsWorker threads i w) (hc : gen? c = some (.worker w')) :
    IsWorker (CondVar.ran threads i c) i w' := by
  obtain ⟨th, hth, -⟩ := hw
  refine ⟨{ th with context := c }, ?_, hc⟩
  rw [CondVar.ran, List.getElem?_modify_eq, hth]
  rfl

theorem total_ran (hw : IsWorker threads i w) (c : Context Gen) (heap : Nat) :
    total (threadRest N T_p T_c) (ran threads i c) =
      total (threadRest N T_p T_c) threads - w.rest N + threadRest N T_p T_c ⟨c, heap⟩ := by
  obtain ⟨th, hth, hgen⟩ := hw
  have hrest : threadRest N T_p T_c th = w.rest N := by rw [threadRest, hgen]
  rw [ran, total_modify _ hth, hrest]
  rfl

/-- A step of a worker keeps the invariant. -/
theorem Safe.step {h' : Heap} (hs : Safe N T_p T_c threads h) (hw : IsWorker threads i w)
    (hstep : w.Step N h w' h') :
    Safe N T_p T_c (ran threads i (.suspended (.worker w'))) h' := by
  have hself : IsWorker (ran threads i (.suspended (.worker w'))) i w' := hw.self rfl
  have hcases : ∀ {j v}, IsWorker (ran threads i (.suspended (.worker w'))) j v →
      (j = i ∧ v = w') ∨ (j ≠ i ∧ IsWorker threads j v) := by
    intro j v hv
    rcases isWorker_ran hv with ⟨rfl, hgen⟩ | hother
    · cases hgen
      exact .inl ⟨rfl, rfl⟩
    · exact .inr hother
  refine ⟨?_, ?_, ?_, ?_, ?_, ?_, ?_⟩
  · intro j v hv
    rcases hcases hv with ⟨-, rfl⟩ | ⟨-, hv⟩
    · exact hstep.running (hs.running i w hw)
    · exact hs.running j v hv
  · intro j v hv hin
    rcases hcases hv with ⟨-, rfl⟩ | ⟨hne, hv⟩
    · rcases hstep.mutex with ⟨hsame, hm⟩ | ⟨-, -, -, hm⟩ | ⟨-, hout, -⟩
      · rw [hm]
        exact hs.holds i w hw (hsame ▸ hin)
      · exact hm
      · rw [hout] at hin
        cases hin
    · have hmutex := hs.holds j v hv hin
      rcases hstep.mutex with ⟨-, hm⟩ | ⟨-, -, hm, -⟩ | ⟨hwin, -, -⟩
      · rwa [hm]
      · rw [hm] at hmutex
        cases hmutex
      · exact absurd (hs.unique j i v w hv hw hin hwin) hne
  · intro j k v v' hv hv' hin hin'
    have hnone : ∀ {j v}, j ≠ i → IsWorker threads j v → v.inside = true → w'.inside = true →
        False := by
      intro j v hne hv hin hin'
      rcases hstep.mutex with ⟨hsame, -⟩ | ⟨-, -, hm, -⟩ | ⟨-, hout, -⟩
      · exact hne (hs.unique j i v w hv hw hin (hsame ▸ hin'))
      · rw [hs.holds j v hv hin] at hm
        cases hm
      · rw [hout] at hin'
        cases hin'
    rcases hcases hv with ⟨hj, hvw⟩ | ⟨hne, hold⟩
    · rcases hcases hv' with ⟨hk, -⟩ | ⟨hne', hold'⟩
      · exact hj.trans hk.symm
      · exact (hnone hne' hold' hin' (hvw ▸ hin)).elim
    · rcases hcases hv' with ⟨-, hvw'⟩ | ⟨hne', hold'⟩
      · exact (hnone hne hold hin (hvw' ▸ hin')).elim
      · exact hs.unique j k v v' hold hold' hin hin'
  · intro hm'
    rcases hstep.mutex with ⟨hsame, hm⟩ | ⟨-, hin, -, -⟩ | ⟨-, -, hm⟩
    · obtain ⟨j, v, hv, hin⟩ := hs.held (hm ▸ hm')
      rcases eq_or_ne j i with rfl | hne
      · exact ⟨j, w', hself, hsame.trans (hv.unique hw ▸ hin)⟩
      · exact ⟨j, v, hv.ran hne, hin⟩
    · exact ⟨i, w', hself, hin⟩
    · rw [hm] at hm'
      cases hm'
  · intro j v hv hready
    rcases hcases hv with ⟨-, rfl⟩ | ⟨hne, hv⟩
    · exact hstep.ready (hs.ready i w hw) hready
    · rcases hstep.count with hc | ⟨hwr, -, -⟩
      · have he := hs.ready j v hv hready
        rw [Worker.enabled] at he ⊢
        rwa [hc]
      · exact absurd (hs.unique j i v w hv hw (Worker.inside_of_ready hready)
          (Worker.inside_of_ready hwr)) hne
  · rcases hstep.count with hc | ⟨hwr, hc, -⟩
    · rw [hc]
      exact hs.room
    · have he := of_decide_eq_true (hs.ready i w hw hwr)
      rwa [hc]
  · have hitems := hs.items
    have hbalance := hstep.items
    rw [total_ran hw (.suspended (.worker w')) 0]
    simp only [threadRest, gen?]
    linarith

/-- `sys_spawn` moves items from `main` to the new worker. -/
theorem Safe.spawn {k heap : Nat} {th : Thread Gen} (hs : Safe N T_p T_c threads h)
    (hth : threads[i]? = some th) (hgen : gen? th.context = some (.spawning k)) (hk : k < T_p + T_c)
    (hc : threadRest N T_p T_c ⟨c, heap⟩ = spawnRest N T_p T_c (k + 1))
    (hworker : ∀ w, gen? c ≠ some (.worker w)) :
    Safe N T_p T_c (ran (threads ++ [⟨.fresh (.worker (workerOf T_p k)), heap⟩]) i c) h := by
  have hi : i < threads.length := (List.getElem?_eq_some_iff.mp hth).1
  have hcases : ∀ {j v}, IsWorker (ran (threads ++ [⟨.fresh (.worker (workerOf T_p k)), heap⟩]) i c)
      j v → IsWorker threads j v ∨ v = workerOf T_p k := by
    intro j v hv
    rcases isWorker_ran hv with ⟨-, hgen⟩ | ⟨-, x, hx, hgen⟩
    · exact absurd hgen (hworker v)
    · rcases getElem?_concat_eq_some.mp hx with hx | ⟨-, rfl⟩
      · exact .inl ⟨x, hx, hgen⟩
      · cases hgen
        exact .inr rfl
  have hout : (workerOf T_p k).inside = false := by
    rw [Worker.inside, workerOf_start]
  have hold : ∀ {j v}, IsWorker (ran (threads ++ [⟨.fresh (.worker (workerOf T_p k)), heap⟩]) i c)
      j v → v.inside = true → IsWorker threads j v := by
    intro j v hv hin
    rcases hcases hv with hv | rfl
    · exact hv
    · rw [hout] at hin
      cases hin
  refine ⟨?_, fun j v hv hin => hs.holds j v (hold hv hin) hin, fun j j' v v' hv hv' hin hin' =>
    hs.unique j j' v v' (hold hv hin) (hold hv' hin') hin hin', ?_, ?_, hs.room, ?_⟩
  · intro j v hv
    rcases hcases hv with hv | rfl
    · exact hs.running j v hv
    · exact workerOf_running N T_p k
  · intro hm
    obtain ⟨j, v, ⟨x, hx, hgx⟩, hin⟩ := hs.held hm
    have hne : j ≠ i := by
      rintro rfl
      cases hx.symm.trans hth
      rw [hgen] at hgx
      cases hgx
    exact ⟨j, v, IsWorker.ran ⟨x, getElem?_concat_eq_some.mpr (.inl hx), hgx⟩ hne, hin⟩
  · intro j v hv hready
    exact hs.ready j v (hold hv (Worker.inside_of_ready hready)) hready
  · have hth' : (threads ++ [⟨.fresh (.worker (workerOf T_p k)), heap⟩])[i]? = some th :=
      getElem?_concat_eq_some.mpr (.inl hth)
    have hrest : threadRest N T_p T_c th = spawnRest N T_p T_c k := by rw [threadRest, hgen]
    have hchild : threadRest N T_p T_c ⟨.fresh (.worker (workerOf T_p k)), heap⟩ =
        (workerOf T_p k).rest N := rfl
    have hnew : threadRest N T_p T_c { th with context := c } = spawnRest N T_p T_c (k + 1) := hc
    have hitems := hs.items
    have hsplit := spawnRest_succ (N := N) hk
    rw [ran, total_modify _ hth', total_append, hrest, hchild, hnew]
    linarith

/-- A worker that returns keeps the invariant. -/
theorem Safe.done (hs : Safe N T_p T_c threads h) (hw : IsWorker threads i w) (hdone : w.Done N) :
    Safe N T_p T_c (ran threads i .finished) h := by
  obtain ⟨hrest, hout⟩ := hdone.rest (hs.running i w hw)
  have hcases : ∀ {j v}, IsWorker (ran threads i .finished) j v → j ≠ i ∧ IsWorker threads j v := by
    intro j v hv
    rcases isWorker_ran hv with ⟨-, hgen⟩ | hother
    · cases hgen
    · exact hother
  refine ⟨fun j v hv => hs.running j v (hcases hv).2, fun j v hv => hs.holds j v (hcases hv).2,
    fun j k v v' hv hv' => hs.unique j k v v' (hcases hv).2 (hcases hv').2, ?_,
    fun j v hv => hs.ready j v (hcases hv).2, hs.room, ?_⟩
  · intro hm
    obtain ⟨j, v, hv, hin⟩ := hs.held hm
    refine ⟨j, v, hv.ran ?_, hin⟩
    rintro rfl
    rw [hv.unique hw, hout] at hin
    cases hin
  · rw [total_ran hw .finished 0, hrest]
    simp only [threadRest, gen?, sub_zero, add_zero]
    exact hs.items

end Safe

/-! ## Reachable states -/

/-- The invariant of the reachable states, with `h` the contents of the heap. -/
structure Reached (N T_p T_c : Nat) (m : Machine PyVal Gen (Option Heap)) (h : Heap) : Prop where
  heap : m.heaps 0 = some h
  shared : ∀ th ∈ m.sys.threads, th.heap = 0
  safe : Safe N T_p T_c m.sys.threads h
  noMain : ∀ th ∈ m.sys.threads, gen? th.context ≠ some .main
  spawning : ∀ th ∈ m.sys.threads, ∀ k, gen? th.context = some (.spawning k) →
    k < T_p + T_c ∧ th.context = .suspended (.spawning k)
  fresh : ∀ th ∈ m.sys.threads, ∀ w, th.context = .fresh (.worker w) → w.point = .start
  chosen : ∀ i w cond, IsWorker m.sys.threads i w → w.point = .signal cond →
    cond = h.cond ∧ cond ≠ []
  others : m.sys.OthersWait (app N T_p T_c)

section Reached

variable {N T_p T_c : Nat} {m mid m' : Machine PyVal Gen (Option Heap)} {h : Heap} {th : Thread Gen}
  {res : PyVal} {i : Nat} {w : Worker} {h' : Heap} {cond : List String}
  {threads threads' : List (Thread Gen)} {trace : List Label}

theorem Worker.Step.chosen {w' : Worker} (hstep : w.Step N h w' h')
    (hw' : w'.point = .signal cond) : cond = h'.cond ∧ cond ≠ [] := by
  cases hstep with
  | spin htry => cases htry <;> cases hw'
  | signal _ _ _ hcond => cases hw'; exact ⟨rfl, hcond⟩
  | _ => cases hw'

theorem mem_ran {c : Context Gen} {x : Thread Gen} (hx : x ∈ ran threads i c) :
    x ∈ threads ∨ ∃ th, threads[i]? = some th ∧ x = { th with context := c } := by
  obtain ⟨j, hj⟩ := List.getElem?_of_mem hx
  rw [ran, List.getElem?_modify] at hj
  obtain ⟨y, hy, rfl⟩ := Option.map_eq_some_iff.mp hj
  rcases eq_or_ne i j with rfl | hne
  · rw [if_pos rfl]
    exact .inr ⟨y, hy, rfl⟩
  · rw [if_neg hne]
    exact .inl (List.mem_of_getElem? hy)

/-- The calls of the application. -/
theorem call_cases (N T_p T_c : Nat) (g : Gen) :
    (∃ k, g = .spawning k ∧ (app N T_p T_c).call g = .spawn (.worker (workerOf T_p k))) ∨
      (∃ w cond, g = .worker w ∧ w.point = .signal cond ∧
        (app N T_p T_c).call g = .choose (cond.map .str)) ∨
      ((app N T_p T_c).call g = .sched ∧ ∀ w cond, g = .worker w → w.point ≠ .signal cond) := by
  cases g with
  | main => exact .inr (.inr ⟨rfl, fun _ _ hw => by cases hw⟩)
  | spawning k => exact .inl ⟨k, rfl, rfl⟩
  | worker w =>
      obtain ⟨name, delta, round, point⟩ := w
      cases point with
      | signal cond => exact .inr (.inl ⟨_, cond, rfl, rfl, rfl⟩)
      | _ =>
          refine .inr (.inr ⟨rfl, ?_⟩)
          rintro w cond hw
          cases hw
          exact fun hp => by cases hp

theorem call_ne (N T_p T_c : Nat) (g : Gen) :
    (app N T_p T_c).call g ≠ .fork ∧ (∀ args, (app N T_p T_c).call g ≠ .write args) ∧
      ∀ c, (app N T_p T_c).call g ≠ .device c := by
  rcases call_cases N T_p T_c g with ⟨k, -, hk⟩ | ⟨w, cond, -, -, hk⟩ | ⟨hk, -⟩ <;> simp [hk]

theorem call_signal (hp : w.point = .signal cond) :
    (app N T_p T_c).call (.worker w) = .choose (cond.map .str) := by
  simp only [app, hp]

/-- A thread at `sys_choose` or at `sys_spawn` runs on before all others. -/
theorem Reached.current_of_call (hm : Reached N T_p T_c m h) {g : Gen}
    (hth : m.sys.threads[i]? = some th) (hg : th.context = .suspended g)
    (hcall : (app N T_p T_c).call g ≠ .sched) : i = m.sys.current := by
  by_contra hne
  rcases hm.others i th g hne hth hg with hsched | hfork
  · exact hcall hsched
  · exact (call_ne N T_p T_c g).1 hfork

/-- A worker at `sys_choose` is the current thread. -/
theorem Reached.signal_current (hm : Reached N T_p T_c m h) (hw : IsWorker m.sys.threads i w)
    (hp : w.point = .signal cond) :
    i = m.sys.current ∧ ∃ x, m.sys.threads[i]? = some x ∧ x.context = .suspended (.worker w) := by
  obtain ⟨x, hx, hgen⟩ := hw
  have hctx : x.context = .suspended (.worker w) := by
    refine (gen?_eq_some hgen).resolve_left fun hc => ?_
    rw [hm.fresh x (List.mem_of_getElem? hx) w hc] at hp
    cases hp
  refine ⟨?_, x, hx, hctx⟩
  refine hm.current_of_call hx hctx ?_
  rw [call_signal hp]
  exact fun hc => by cases hc

/-- Threads are not forked. -/
theorem newfork_eq_empty (hv : m.Valid (app N T_p T_c)) : m.sys.newfork = ∅ := by
  refine Finset.eq_empty_of_forall_notMem fun i hi => ?_
  obtain ⟨-, x, -, g, -, hcall⟩ := (hv.forksWait i).mp hi
  exact (call_ne N T_p T_c g).1 hcall

/-- A worker runs on with the result that its call expects. -/
structure Reached.WorkerTurn (m mid : Machine PyVal Gen (Option Heap)) (h : Heap) (th : Thread Gen)
    (res : PyVal) (w : Worker) : Prop where
  threads : mid.sys.threads = m.sys.threads
  heaps : mid.heaps = m.heaps
  gen : gen? th.context = some (.worker w)
  result : ∀ cond, w.point = .signal cond → ∃ t, res = .str t ∧ t ∈ h.cond
  only : ∀ i v cond, IsWorker m.sys.threads i v → v.point = .signal cond → i = mid.sys.current
  fresh : ∀ g, th.context = .fresh g → res = .none

/-- In a turn a worker runs on, or `main` after a call of `sys_spawn`. -/
theorem Reached.turn_cases (hm : Reached N T_p T_c m h) (hv : m.Valid (app N T_p T_c))
    (hturn : Turn (app N T_p T_c) m mid th res) :
    (∃ w, Reached.WorkerTurn m mid h th res w) ∨
      ∃ k, m.sys.threads[m.sys.current]? = some th ∧ th.context = .suspended (.spawning k) ∧
        mid = { m with sys := { m.sys with
          threads := m.sys.threads ++ [⟨.fresh (.worker (workerOf T_p k)), th.heap⟩] } } := by
  cases hturn with
  | @start _ g hth hg =>
      cases g with
      | main => exact absurd (by rw [hg]; rfl) (hm.noMain th (List.mem_of_getElem? hth))
      | spawning k =>
          have hsusp := (hm.spawning th (List.mem_of_getElem? hth) k (by rw [hg]; rfl)).2
          rw [hg] at hsusp
          cases hsusp
      | worker w =>
          refine .inl ⟨w, rfl, rfl, by rw [hg]; rfl, fun cond hp => ?_,
            fun i v cond hv hp => (hm.signal_current hv hp).1, fun _ _ => rfl⟩
          rw [hm.fresh th (List.mem_of_getElem? hth) w hg] at hp
          cases hp
  | @switch parent _ tid hp hyield hx halive =>
      -- nobody is at a call that runs on at once
      have hnone : ∀ (i : Nat) (x : Thread Gen) (g : Gen), m.sys.threads[i]? = some x →
          x.context = .suspended g → (app N T_p T_c).call g = .sched := by
        intro i x g hi hg
        rcases eq_or_ne i m.sys.current with rfl | hne
        · cases hi.symm.trans hp
          rcases hyield with hdone | ⟨g', hg', hcall⟩
          · rw [hdone] at hg
            cases hg
          · rw [hg'] at hg
            cases hg
            exact hcall
        · rcases hm.others i x g hne hi hg with hsched | hfork
          · exact hsched
          · exact absurd hfork (call_ne N T_p T_c g).1
      have honly : ∀ i v cond, IsWorker m.sys.threads i v → v.point ≠ .signal cond := by
        intro i v cond hv hp
        obtain ⟨-, x, hx, hctx⟩ := hm.signal_current hv hp
        cases (call_signal hp).symm.trans (hnone i x _ hx hctx)
      cases hgen : gen? th.context with
      | none => cases hc : th.context <;> simp_all [gen?, Context.alive]
      | some g =>
          cases g with
          | main => exact absurd hgen (hm.noMain th (List.mem_of_getElem? hx))
          | spawning k =>
              have hsusp := (hm.spawning th (List.mem_of_getElem? hx) k hgen).2
              cases hnone tid th _ hx hsusp
          | worker w =>
              refine .inl ⟨w, threads_switchTo m.sys tid, rfl, hgen, ?_, ?_, ?_⟩
              · intro cond hp
                exact absurd hp (honly tid w cond ⟨th, hx, hgen⟩)
              · intro i v cond hv hp
                exact absurd hp (honly i v cond hv)
              · intro g _
                rw [System.switchTo, if_neg]
                · rfl
                · rw [newfork_eq_empty hv]
                  exact Finset.notMem_empty tid
  | @spawn _ g child hth hg hcall =>
      rcases call_cases N T_p T_c g with ⟨k, rfl, hk⟩ | ⟨w, cond, -, -, hk⟩ | ⟨hk, -⟩ <;>
        cases hk.symm.trans hcall
      exact .inr ⟨k, hth, hg, rfl⟩
  | @choose _ g choices _ hth hg hcall hc =>
      rcases call_cases N T_p T_c g with ⟨k, -, hk⟩ | ⟨w, cond, rfl, hp, hk⟩ | ⟨hk, -⟩ <;>
        cases hk.symm.trans hcall
      have hgen : gen? th.context = some (.worker w) := by rw [hg]; rfl
      have hcond := hm.chosen _ w cond ⟨th, hth, hgen⟩ hp
      obtain ⟨t, ht, rfl⟩ := List.mem_map.mp hc
      refine .inl ⟨w, rfl, rfl, hgen, fun _ _ => ⟨t, rfl, hcond.1 ▸ ht⟩,
        fun i v cond hv hp => (hm.signal_current hv hp).1, fun g hfresh => ?_⟩
      cases hg.symm.trans hfresh
  | @fork _ g hth hg hcall => exact absurd hcall (call_ne N T_p T_c g).1
  | @write _ g args hth hg hcall => exact absurd hcall ((call_ne N T_p T_c g).2.1 args)
  | @device _ g call choice r hth hg hcall hr => exact absurd hcall ((call_ne N T_p T_c g).2.2 call)

/-- What a worker does when it runs on. -/
theorem Reached.resume_worker (hm : Reached N T_p T_c m h)
    (hw : Reached.WorkerTurn m mid h th res w) (hth : mid.sys.thread mid.sys.current = .ok th) :
    resume (app N T_p T_c) (mid.heaps th.heap) res th.context = .ok (w.send N res h) := by
  rw [thread_eq_ok, hw.threads] at hth
  rw [hw.heaps, hm.shared th (List.mem_of_getElem? hth), hm.heap]
  rcases gen?_eq_some hw.gen with hctx | hctx
  · have hnone : res = PyValue.none := hw.fresh _ hctx
    rw [hctx, resume, if_pos hnone]
    rfl
  · rw [hctx]
    rfl

/-- The context of `main` after its call of `sys_spawn` number `k`. -/
def afterSpawn (T_p T_c k : Nat) : Context Gen :=
  if k + 1 < T_p + T_c then .suspended (.spawning (k + 1)) else .finished

/-- What thread `i` does to the threads and to the heap in its turn. -/
inductive Event (N T_p T_c : Nat) (threads : List (Thread Gen)) (h : Heap) (i : Nat) :
    List (Thread Gen) → Heap → Prop where
  | step {w w' : Worker} {h' : Heap} (hw : IsWorker threads i w) (hstep : w.Step N h w' h') :
      Event N T_p T_c threads h i (CondVar.ran threads i (.suspended (.worker w'))) h'
  | done {w : Worker} (hw : IsWorker threads i w) (hdone : w.Done N) :
      Event N T_p T_c threads h i (CondVar.ran threads i .finished) h
  | spawn {th : Thread Gen} {k : Nat} (hth : threads[i]? = some th)
      (hctx : th.context = .suspended (.spawning k)) (hk : k < T_p + T_c) :
      Event N T_p T_c threads h i
        (CondVar.ran (threads ++ [⟨.fresh (.worker (workerOf T_p k)), th.heap⟩]) i
          (afterSpawn T_p T_c k)) h

/-- The context of a thread that has run, and the contents of its heap. -/
inductive Leaves : Resume Gen (Option Heap) → Context Gen → Heap → Prop where
  | yields (g : Gen) (h : Heap) : Leaves (.yields g (some h)) (.suspended g) h
  | returns (h : Heap) : Leaves (.returns (some h)) .finished h

theorem Leaves.afterRun {r : Resume Gen (Option Heap)} {c : Context Gen} (hr : Leaves r c h)
    (hzero : th.heap = 0) (hrun : mid.afterRun (app N T_p T_c) mid.sys th r = .ok m') :
    m'.sys.current = mid.sys.current ∧
      m'.sys.threads = ran mid.sys.threads mid.sys.current c ∧ m'.heaps 0 = some h := by
  cases hr <;> cases hrun <;> exact ⟨rfl, rfl, by dsimp only; rw [hzero, Function.update_self]⟩

/-- Every turn is an event. -/
theorem Reached.event (hm : Reached N T_p T_c m h) (hv : m.Valid (app N T_p T_c))
    (hturn : Turn (app N T_p T_c) m mid th res)
    (hcont : m'.Continues (app N T_p T_c) mid th res) :
    ∃ h', m'.heaps 0 = some h' ∧
      Event N T_p T_c m.sys.threads h m'.sys.current m'.sys.threads h' ∧
      ∀ i v cond, IsWorker m.sys.threads i v → v.point = .signal cond → i = m'.sys.current := by
  obtain ⟨hth, r, hr, hrun⟩ := hcont
  suffices hleaves : ∃ c h', Leaves r c h' ∧ th.heap = 0 ∧
      Event N T_p T_c m.sys.threads h mid.sys.current (ran mid.sys.threads mid.sys.current c) h' ∧
      ∀ i v cond, IsWorker m.sys.threads i v → v.point = .signal cond → i = mid.sys.current by
    obtain ⟨c, h', hc, hzero, hevent, honly⟩ := hleaves
    obtain ⟨hcur, hthreads, hheap⟩ := hc.afterRun hzero hrun
    rw [hcur, hthreads]
    exact ⟨h', hheap, hevent, honly⟩
  rcases hm.turn_cases hv hturn with ⟨w, hw⟩ | ⟨k, hmain, hctx, rfl⟩
  · have hsend : r = w.send N res h := Except.ok.inj (hr.symm.trans (hm.resume_worker hw hth))
    rw [thread_eq_ok, hw.threads] at hth
    have hzero : th.heap = 0 := hm.shared th (List.mem_of_getElem? hth)
    have hworker : IsWorker m.sys.threads mid.sys.current w := ⟨th, hth, hw.gen⟩
    rw [hsend, hw.threads]
    rcases send_step hw.result with ⟨w', h', heq, hstep⟩ | ⟨heq, hdone⟩
    · exact ⟨_, h', heq ▸ .yields _ h', hzero, .step hworker hstep, hw.only⟩
    · exact ⟨_, h, heq ▸ .returns h, hzero, .done hworker hdone, hw.only⟩
  · have hzero : th.heap = 0 := hm.shared th (List.mem_of_getElem? hmain)
    have hk := (hm.spawning th (List.mem_of_getElem? hmain) k (by rw [hctx]; rfl)).1
    have hloop : r = spawnLoop T_p T_c (k + 1) h := by
      rw [hctx] at hr
      dsimp only at hr
      rw [hzero, hm.heap] at hr
      exact (Except.ok.inj hr).symm
    refine ⟨afterSpawn T_p T_c k, h, ?_, hzero, .spawn hmain hctx hk,
      fun i v cond hv hp => (hm.signal_current hv hp).1⟩
    rw [hloop, spawnLoop, afterSpawn]
    split
    · exact .yields _ h
    · exact .returns h

/-- The threads after an event. -/
theorem Event.mem_cases {x : Thread Gen} (he : Event N T_p T_c threads h i threads' h')
    (hx : x ∈ threads') :
    x ∈ threads ∨ (∃ y ∈ threads, x.heap = y.heap) ∧
      (x.context = .finished ∨ (∃ w, x.context = .suspended (.worker w)) ∨
        (∃ k < T_p + T_c, x.context = .suspended (.spawning k)) ∨
        ∃ k, x.context = .fresh (.worker (workerOf T_p k))) := by
  cases he with
  | @step w w' _ hw hstep =>
      rcases mem_ran hx with hx | ⟨y, hy, rfl⟩
      · exact .inl hx
      · exact .inr ⟨⟨y, List.mem_of_getElem? hy, rfl⟩, .inr (.inl ⟨w', rfl⟩)⟩
  | done hw hdone =>
      rcases mem_ran hx with hx | ⟨y, hy, rfl⟩
      · exact .inl hx
      · exact .inr ⟨⟨y, List.mem_of_getElem? hy, rfl⟩, .inl rfl⟩
  | @spawn th k hth hctx hk =>
      rcases mem_ran hx with hx | ⟨y, hy, rfl⟩
      · rcases List.mem_append.mp hx with hx | hx
        · exact .inl hx
        · cases List.mem_singleton.mp hx
          exact .inr ⟨⟨th, List.mem_of_getElem? hth, rfl⟩, .inr (.inr (.inr ⟨k, rfl⟩))⟩
      · rw [List.getElem?_append_left (List.getElem?_eq_some_iff.mp hth).1, hth] at hy
        cases hy
        refine .inr ⟨⟨th, List.mem_of_getElem? hth, rfl⟩, ?_⟩
        dsimp only
        rw [afterSpawn]
        split
        next hlt => exact .inr (.inr (.inl ⟨k + 1, hlt, rfl⟩))
        next => exact .inl rfl

theorem Event.safe (he : Event N T_p T_c threads h i threads' h') (hs : Safe N T_p T_c threads h) :
    Safe N T_p T_c threads' h' := by
  cases he with
  | step hw hstep => exact hs.step hw hstep
  | done hw hdone => exact hs.done hw hdone
  | @spawn th k hth hctx hk =>
      refine hs.spawn hth (by rw [hctx]; rfl) hk ?_ ?_
      · rw [afterSpawn]
        split
        next => rfl
        next hge =>
          rw [spawnRest_eq_zero (Nat.not_lt.mp hge)]
          rfl
      · intro w
        rw [afterSpawn]
        split <;> exact fun hc => by cases hc

/-- After an event at most the thread that ran is at `sys_choose`. -/
theorem Event.chosen {j : Nat} {v : Worker} (he : Event N T_p T_c threads h i threads' h')
    (hv : IsWorker threads' j v) (hp : v.point = .signal cond) :
    (j = i ∧ cond = h'.cond ∧ cond ≠ []) ∨ (j ≠ i ∧ IsWorker threads j v) := by
  cases he with
  | step hw hstep =>
      rcases isWorker_ran hv with ⟨hj, hgen⟩ | hold
      · cases hgen
        exact .inl ⟨hj, hstep.chosen hp⟩
      · exact .inr hold
  | done =>
      rcases isWorker_ran hv with ⟨-, hgen⟩ | hold
      · cases hgen
      · exact .inr hold
  | @spawn th k hth hctx hk =>
      rcases isWorker_ran hv with ⟨-, hgen⟩ | ⟨hj, x, hx, hgen⟩
      · rw [afterSpawn] at hgen
        split at hgen <;> cases hgen
      · rcases getElem?_concat_eq_some.mp hx with hx | ⟨-, rfl⟩
        · exact .inr ⟨hj, x, hx, hgen⟩
        · cases hgen
          rw [workerOf_start] at hp
          cases hp

/-- Every turn keeps the invariant. -/
theorem Reached.turn (hm : Reached N T_p T_c m h) (hv : m.Valid (app N T_p T_c))
    (hturn : Turn (app N T_p T_c) m mid th res)
    (hcont : m'.Continues (app N T_p T_c) mid th res) :
    ∃ h', Event N T_p T_c m.sys.threads h m'.sys.current m'.sys.threads h' ∧
      Reached N T_p T_c m' h' := by
  obtain ⟨h', hheap, he, honly⟩ := hm.event hv hturn hcont
  refine ⟨h', he, hheap, ?_, he.safe hm.safe, ?_, ?_, ?_, ?_,
    othersWait_turn (app N T_p T_c) hm.others hturn hcont⟩
  · intro x hx
    rcases he.mem_cases hx with hx | ⟨⟨y, hy, hheap⟩, -⟩
    · exact hm.shared x hx
    · exact hheap.trans (hm.shared y hy)
  · intro x hx
    rcases he.mem_cases hx with hx | ⟨-, hc | ⟨w, hc⟩ | ⟨k, -, hc⟩ | ⟨k, hc⟩⟩
    · exact hm.noMain x hx
    all_goals
      rw [hc]
      exact fun hc => by cases hc
  · intro x hx k hgen
    rcases he.mem_cases hx with hx | ⟨-, hc | ⟨w, hc⟩ | ⟨k, hk, hc⟩ | ⟨k, hc⟩⟩
    · exact hm.spawning x hx k hgen
    all_goals
      rw [hc] at hgen
      cases hgen
    exact ⟨hk, hc⟩
  · intro x hx w hg
    rcases he.mem_cases hx with hx | ⟨-, hc | ⟨w, hc⟩ | ⟨k, hk, hc⟩ | ⟨k, hc⟩⟩
    · exact hm.fresh x hx w hg
    all_goals
      rw [hc] at hg
      cases hg
    exact workerOf_start T_p k
  · intro j v cond hv hp
    rcases he.chosen hv hp with ⟨-, hcond⟩ | ⟨hne, hv⟩
    · exact hcond
    · exact absurd (honly j v cond hv hp) hne

/-- The first turn starts `main`. -/
theorem turn_init (hturn : Turn (app N T_p T_c) (Machine.init (app N T_p T_c)) mid th res) :
    mid = Machine.init (app N T_p T_c) ∧ th = ⟨.fresh .main, 0⟩ ∧ res = .none := by
  have hfresh : ∀ {x : Thread Gen} {i : Nat},
      (Machine.init (app N T_p T_c)).sys.threads[i]? = some x → x = ⟨.fresh .main, 0⟩ := by
    intro x i hi
    exact List.mem_singleton.mp (List.mem_of_getElem? hi)
  cases hturn with
  | start hth => exact ⟨rfl, hfresh hth, rfl⟩
  | switch hp hyield =>
      cases hfresh hp
      rcases hyield with hd | ⟨g, hg, -⟩
      · cases hd
      · cases hg
  | spawn hth hg | fork hth hg | choose hth hg | write hth hg | device hth hg =>
      cases hfresh hth; cases hg

/-- The first turn sets up the heap. -/
theorem reached_first (hturn : Turn (app N T_p T_c) (Machine.init (app N T_p T_c)) mid th res)
    (hcont : m'.Continues (app N T_p T_c) mid th res) : ∃ h, Reached N T_p T_c m' h := by
  have hothers : m'.sys.OthersWait (app N T_p T_c) := by
    refine othersWait_turn (app N T_p T_c) ?_ hturn hcont
    intro i x g hne hi
    have hlt : i < 1 := (List.getElem?_eq_some_iff.mp hi).1
    exact absurd (Nat.lt_one_iff.mp hlt) hne
  obtain ⟨rfl, rfl, rfl⟩ := turn_init hturn
  obtain ⟨-, r, hr, hrun⟩ := hcont
  have hloop : r = spawnLoop T_p T_c 0 ⟨false, 0, []⟩ := (Except.ok.inj hr).symm
  have hreached : ∀ (c : Context Gen), (∀ w, gen? c ≠ some (.worker w)) → gen? c ≠ some .main →
      (∀ k, gen? c = some (.spawning k) → k < T_p + T_c ∧ c = .suspended (.spawning k)) →
      (∀ w, c ≠ .fresh (.worker w)) →
      threadRest N T_p T_c ⟨c, 0⟩ = spawnRest N T_p T_c 0 →
      m'.sys.threads = [⟨c, 0⟩] → m'.heaps 0 = some ⟨false, 0, []⟩ →
      ∃ h, Reached N T_p T_c m' h := by
    intro c hworker hmain hspawning hfresh hrest hthreads hheap
    have hmem : ∀ x ∈ m'.sys.threads, x = ⟨c, 0⟩ := fun x hx => by
      rw [hthreads] at hx
      exact List.mem_singleton.mp hx
    have hnone : ∀ i w, ¬ IsWorker m'.sys.threads i w := by
      rintro i w ⟨x, hx, hgen⟩
      cases hmem x (List.mem_of_getElem? hx)
      exact hworker w hgen
    refine ⟨⟨false, 0, []⟩, hheap, ?_, ?_, ?_, ?_, ?_, ?_, hothers⟩
    · intro x hx
      rw [hmem x hx]
    · refine ⟨fun i w hw => absurd hw (hnone i w), fun i w hw => absurd hw (hnone i w),
        fun i j w w' hw => absurd hw (hnone i w), (fun hm => by cases hm),
        fun i w hw => absurd hw (hnone i w), ⟨le_rfl, zero_le_one⟩, ?_⟩
      rw [hthreads, total, List.map_singleton, List.sum_singleton, hrest, spawnRest_zero, zero_add]
    · intro x hx
      rw [hmem x hx]
      exact hmain
    · intro x hx k hg
      cases hmem x hx
      exact hspawning k hg
    · intro x hx w hg
      cases hmem x hx
      exact absurd hg (hfresh w)
    · intro i w cond hw
      exact absurd hw (hnone i w)
  rw [spawnLoop] at hloop
  split at hloop
  next hlt =>
    subst hloop
    cases hrun
    refine hreached (.suspended (.spawning 0)) (fun _ hg => by cases hg) (fun hg => by cases hg) ?_
      (fun _ hg => by cases hg) rfl rfl rfl
    intro k hg
    cases hg
    exact ⟨hlt, rfl⟩
  next hge =>
    subst hloop
    cases hrun
    refine hreached .finished (fun _ hg => by cases hg) (fun hg => by cases hg)
      (fun _ hg => by cases hg) (fun _ hg => by cases hg) ?_ rfl rfl
    rw [spawnRest_eq_zero (Nat.not_lt.mp hge)]
    rfl

/-- Every state of a run is the initial one or has the invariant. -/
theorem reached_run
    (hrun : Machine.run (app N T_p T_c) trace (Machine.init (app N T_p T_c)) = .ok m) :
    m.Valid (app N T_p T_c) ∧
      (m = Machine.init (app N T_p T_c) ∨ ∃ h, Reached N T_p T_c m h) := by
  refine run_turns (app N T_p T_c) (P := fun m => m = Machine.init (app N T_p T_c) ∨
    ∃ h, Reached N T_p T_c m h) (.inl rfl) ?_ hrun
  rintro m mid th res m' hv (rfl | ⟨h, hm⟩) hturn hcont
  · exact .inr (reached_first hturn hcont)
  · obtain ⟨h', -, hm'⟩ := hm.turn hv hturn hcont
    exact .inr ⟨h', hm'⟩

/-- No thread raises an exception. -/
theorem Reached.resume_ok (hm : Reached N T_p T_c m h) (hv : m.Valid (app N T_p T_c))
    (hturn : Turn (app N T_p T_c) m mid th res) :
    ∃ r, resume (app N T_p T_c) (mid.heaps th.heap) res th.context = .ok r ∧ r ≠ .raises := by
  rcases hm.turn_cases hv hturn with ⟨w, hw⟩ | ⟨k, hx, hctx, rfl⟩
  · refine ⟨_, hm.resume_worker hw (thread_eq_ok.mpr hturn.thread), fun hraises => ?_⟩
    rcases send_step (N := N) hw.result with ⟨w', h', heq, -⟩ | ⟨heq, -⟩ <;>
      rw [hraises] at heq <;> cases heq
  · have hheap : m.heaps th.heap = some h := by
      rw [hm.shared th (List.mem_of_getElem? hx), hm.heap]
    refine ⟨spawnLoop T_p T_c (k + 1) h, ?_, ?_⟩
    · rw [hctx]
      dsimp only
      rw [hheap]
      rfl
    · rw [spawnLoop]
      split <;> exact fun hc => by cases hc

theorem resume_ok (hrun : Machine.run (app N T_p T_c) trace (Machine.init (app N T_p T_c)) = .ok m)
    (hturn : Turn (app N T_p T_c) m mid th res) :
    ∃ r, resume (app N T_p T_c) (mid.heaps th.heap) res th.context = .ok r ∧ r ≠ .raises := by
  obtain ⟨hv, rfl | ⟨h, hm⟩⟩ := reached_run hrun
  · obtain ⟨rfl, rfl, rfl⟩ := turn_init hturn
    refine ⟨spawnLoop T_p T_c 0 ⟨false, 0, []⟩, rfl, ?_⟩
    rw [spawnLoop]
    split <;> exact fun hc => by cases hc
  · exact hm.resume_ok hv hturn

/-- A step fails only for a choice that is not offered. -/
theorem step_keyError {choice : Label} {e : Fault}
    (hrun : Machine.run (app N T_p T_c) trace (Machine.init (app N T_p T_c)) = .ok m)
    (hstep : m.step (app N T_p T_c) choice = .error e) : e = .keyError := by
  obtain ⟨hv, -⟩ := reached_run hrun
  rcases step_error (app N T_p T_c) hv hstep with he | ⟨mid, th, res, hturn, -, hfail⟩
  · exact he
  · exfalso
    obtain ⟨r, hr, hne⟩ := resume_ok hrun hturn
    rcases hfail with herr | hraises
    · cases hr.symm.trans herr
    · exact hne (Except.ok.inj (hr.symm.trans hraises))

end Reached

/-- The threads of a system with renamed heaps. -/
theorem isWorker_map {f : Nat → Nat} {threads : List (Thread Gen)} {i : Nat} {w : Worker} :
    IsWorker (threads.map (Thread.map f)) i w ↔ IsWorker threads i w := by
  constructor
  · rintro ⟨x, hx, hgen⟩
    rw [List.getElem?_map, Option.map_eq_some_iff] at hx
    obtain ⟨th, hth, rfl⟩ := hx
    exact ⟨th, hth, hgen⟩
  · rintro ⟨th, hth, hgen⟩
    exact ⟨th.map f, by rw [List.getElem?_map, hth, Option.map_some], hgen⟩

theorem Safe.count_of_finished {threads : List (Thread Gen)} {h : Heap}
    (hs : Safe N T_p T_c threads h) (hall : ∀ th ∈ threads, th.context = .finished) :
    h.count = N * (T_p - T_c) := by
  have hzero : total (threadRest N T_p T_c) threads = 0 := by
    refine List.sum_eq_zero fun r hr => ?_
    obtain ⟨th, hth, rfl⟩ := List.mem_map.mp hr
    rw [threadRest, hall th hth]
    rfl
  rw [← hs.items, hzero, add_zero]

/-- Whatever the scheduler and the waker choose, no thread raises an exception, the buffer
never overflows or underflows, the mutex is locked while exactly one worker is between
its lock and unlock, and a run that ends leaves what the producers made and the
consumers did not take.  Hence no run ends unless that is 0 or 1. -/
theorem condVar_safe (N T_p T_c : Nat) {n : Nat} {trace : List Label} (hn : trace.length ≤ n)
    (w : World (Option Heap)) :
    (∀ e, replay (app N T_p T_c) n trace w = .error e → e = .keyError) ∧
      ∀ x, replay (app N T_p T_c) n trace w = .ok x →
        ∀ th ∈ x.2.sys.threads, ∀ h, x.1.heaps th.heap = some h →
          (0 ≤ h.count ∧ h.count ≤ 1) ∧
          (∀ i j v v', IsWorker x.2.sys.threads i v → IsWorker x.2.sys.threads j v' →
            v.inside = true → v'.inside = true → i = j) ∧
          (h.mutex = true ↔ ∃ i v, IsWorker x.2.sys.threads i v ∧ v.inside = true) ∧
          (x.2.sys.AllFinished → h.count = N * (T_p - T_c)) := by
  constructor
  · intro e he
    obtain ⟨done, choice, m, hdone, hstep⟩ := run_error _ (machine_error _ hn he)
    exact step_keyError hdone hstep
  · intro x hx th hth h hheap
    obtain ⟨m, f, clone, hrun, hrel⟩ := replay_machine (app N T_p T_c) hn hx
    have hthreads : x.2.sys.threads = m.sys.threads.map (Thread.map f) := by
      rw [hrel.sys_eq]
      rfl
    rw [hthreads] at hth
    obtain ⟨th', hth', rfl⟩ := List.mem_map.mp hth
    have hsame : m.heaps th'.heap = some h :=
      (hrel.embeds.heap_eq _ (hrel.below th' hth')).symm.trans hheap
    obtain ⟨-, rfl | ⟨h', hm⟩⟩ := reached_run hrun
    · cases hsame
    · rw [hm.shared th' hth', hm.heap] at hsame
      cases hsame
      rw [hrel.sys_eq, allFinished_map]
      simp only [System.map, isWorker_map]
      refine ⟨hm.safe.room, hm.safe.unique, ⟨hm.safe.held, ?_⟩, hm.safe.count_of_finished⟩
      rintro ⟨i, v, hv, hin⟩
      exact hm.safe.holds i v hv hin

/-- One producer and one consumer.  The producer is between its lock and its unlock while
the consumer tries to lock, so that the mutex is locked and the consumer is not inside.
When both are done, nothing is left. -/
theorem condVar_safe_locked :
    (∃ x h v v', replay (app 1 1 1) 5
        [.str "main", .str "spawn", .str "spawn", .str "t2", .str "t3"]
        ⟨fun _ => none, 0, 0, 0, 0⟩ = .ok x ∧
      IsWorker x.2.sys.threads 1 v ∧ v.point = .enter ∧ IsWorker x.2.sys.threads 2 v' ∧
      x.1.heaps 0 = some h ∧ h.mutex = true ∧ v'.inside = false ∧ 0 ≤ h.count ∧ h.count ≤ 1) ∧
    ∃ x h, replay (app 1 1 1) 9
        [.str "main", .str "spawn", .str "spawn", .str "t2", .str "t2", .str "t2", .str "t3",
          .str "t3", .str "t3"] ⟨fun _ => none, 0, 0, 0, 0⟩ = .ok x ∧
      x.2.sys.AllFinished ∧ x.1.heaps 0 = some h ∧ h.count = 0 := by
  constructor
  · obtain ⟨x, th, h, v, v', hx, hth, hv, hpoint, hv', hheap, hzero⟩ : ∃ x th h v v',
        replay (app 1 1 1) 5 [.str "main", .str "spawn", .str "spawn", .str "t2", .str "t3"]
          ⟨fun _ => none, 0, 0, 0, 0⟩ = .ok x ∧ x.2.sys.threads[1]? = some th ∧
        gen? th.context = some (.worker v) ∧ v.point = .enter ∧
        IsWorker x.2.sys.threads 2 v' ∧ x.1.heaps 0 = some h ∧ th.heap = 0 :=
      ⟨_, _, _, _, _, rfl, rfl, rfl, rfl, ⟨_, rfl, rfl⟩, rfl, rfl⟩
    have hworker : IsWorker x.2.sys.threads 1 v := ⟨th, hth, hv⟩
    have hin : v.inside = true := by rw [Worker.inside, hpoint]
    obtain ⟨hroom, hunique, hmutex, -⟩ := (condVar_safe 1 1 1 (by simp) _).2 x hx th
      (List.mem_of_getElem? hth) h (hzero ▸ hheap)
    refine ⟨x, h, v, v', hx, hworker, hpoint, hv', hheap,
      hmutex.mpr ⟨1, v, hworker, hin⟩, ?_, hroom⟩
    by_contra hout
    have hsame : 1 = 2 := hunique 1 2 v v' hworker hv' hin (Bool.eq_true_of_not_eq_false hout)
    omega
  · obtain ⟨x, th, h, hx, hth, hfinished, hheap, hzero⟩ : ∃ x th h, replay (app 1 1 1) 9
        [.str "main", .str "spawn", .str "spawn", .str "t2", .str "t2", .str "t2", .str "t3",
          .str "t3", .str "t3"] ⟨fun _ => none, 0, 0, 0, 0⟩ = .ok x ∧
        x.2.sys.threads[0]? = some th ∧ x.2.sys.AllFinished ∧ x.1.heaps 0 = some h ∧ th.heap = 0 :=
      ⟨_, _, _, rfl, rfl, keys_sched_eq_nil_iff.mp rfl, rfl, rfl⟩
    obtain ⟨-, -, -, hcount⟩ := (condVar_safe 1 1 1 (by simp) _).2 x hx th
      (List.mem_of_getElem? hth) h (hzero ▸ hheap)
    exact ⟨x, h, hx, hfinished, hheap, hcount hfinished⟩

end OsCourse.Mosaic.CondVar
