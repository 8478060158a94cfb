import OsCourse.Mosaic.Canonical
import OsCourse.Mosaic.Check

/-!
# Final states

Three parts of Mosaic decide whether a state is final.  `run` stops at a state without
choices, `collect.py` prints the output of the states without choices, and `vis` that
of the states whose contexts are all `None`.

A thread that waits for a call other than `sys_choose` is offered a choice: most calls
have one, a crash has one for the subset of no writes, and `sys_sched` offers the
caller itself.  After the end of a thread the live threads are offered.  So a
reachable state without choices has no live thread, except when the current thread has
called `sys_choose` with an empty list (`keys_offered_eq_nil_iff`).  In that case
`run` and `collect.py` take the state for a final one and `vis` does not.
-/

namespace OsCourse.Mosaic

variable {V G H L S K T : Type}

/-! ## The readers of states -/

/-- `not v['choices']`, as in `run` and `collect.py`. -/
def Dump.withoutChoices (d : Dump V L S) : Bool := d.choices.isEmpty

/-- `not any(v['contexts'])`, as in `vis`. -/
def Dump.withoutContexts (d : Dump V L S) : Bool := !(d.contexts.any Option.isSome)

/-- All threads have returned. -/
def System.AllFinished (s : System V G T) : Prop := ∀ th ∈ s.threads, th.context = .finished

/-- The current thread waits for the result of `sys_choose([])`. -/
def System.AtEmptyChoose (app : App V G H L S) (s : System V G T) : Prop :=
  ∃ th g, s.threads[s.current]? = some th ∧ th.context = .suspended g ∧ app.call g = .choose []

/-! ## The interpreter -/

/-- The variables of the loop in `run`.  The list `V` is `before` with `last` at its
end. -/
structure Walk (V G H L S K : Type) where
  /-- The heaps and the global variables. -/
  world : World H
  /-- The system, which is stepped from state to state. -/
  os : OperatingSystem V G
  /-- The vertices before the last. -/
  before : List (Vertex V L S K)
  /-- `V[-1]`. -/
  last : Vertex V L S K
  /-- The edges. -/
  edges : List (K × K × Label)

section Run

variable [DecidableEq V] [PyValue V] (app : App V G H L S) (hash : Dump V L S → K)
  (pick : Nat → List Label → Label)

/-- The body of the loop in `run`: `os.replay([choice])` and the new vertex and edge.
The first argument bounds the nesting of forks. -/
def runStep (nest : Nat) (choice : Label) (x : Walk V G H L S K) :
    Except Fault (Walk V G H L S K) := do
  let (w, os) ← step app nest x.world x.os choice
  let d ← stateDump app w os
  .ok
    { world := w
      os := os
      before := x.before ++ [x.last]
      last := ⟨d, hash d, x.before.length + 1⟩
      edges := x.edges ++ [(x.last.hashcode, hash d, choice)] }

/-- The loop of `run`, with a bound on the number of rounds.  `pick n` is the result
of the call to `random.choice` in round `n`. -/
def runLoop (nest : Nat) : Nat → Walk V G H L S K → Except Fault (Walk V G H L S K)
  | 0, x => if x.last.dump.withoutChoices then .ok x else .error .outOfFuel
  | fuel + 1, x =>
      if x.last.dump.withoutChoices then .ok x
      else do
        let y ← runStep app hash nest (pick x.before.length x.last.dump.choices) x
        runLoop nest fuel y

/-- `run`, without the source text. -/
def run (fuel : Nat) (w : World H) : Except Fault (World H × Explored V L S K) := do
  let d ← stateDump app (create app w).1 (create app w).2
  let x ← runLoop app hash pick fuel fuel
      ⟨(create app w).1, (create app w).2, [], ⟨d, hash d, 0⟩, []⟩
  .ok (x.world, ⟨x.before ++ [x.last], x.edges⟩)

end Run

/-! ## No choices -/

theorem keys_oneChoice_ne_nil {α : Type} (label : String) (act : α) :
    (oneChoice label act).keys ≠ [] :=
  fun h => List.cons_ne_nil _ _ (Dict.keys_ofList_eq_nil_iff.mp h)

theorem subsets_ne_nil (n : Nat) : subsets n ≠ [] :=
  List.ne_nil_of_mem (mem_subsets (List.length_replicate (n := n) (a := false)))

theorem not_allFinished_of_alive {s : System V G T} {th : Thread G} (hth : th ∈ s.threads)
    (halive : th.context.alive = true) : ¬ s.AllFinished := by
  intro hall
  rw [hall th hth] at halive
  cases halive

theorem keys_sched_eq_nil_iff {s : System V G T} : s.sched.keys = [] ↔ s.AllFinished := by
  rw [System.sched, Dict.keys_ofList_eq_nil_iff, List.map_eq_nil_iff, List.filter_eq_nil_iff]
  constructor
  · intro h th hth
    obtain ⟨i, hi⟩ := List.mem_iff_getElem?.mp hth
    have hdead := h (th, i) (List.mem_zipIdx_iff_getElem?.mpr hi)
    exact alive_eq_false_iff.mp (Bool.eq_false_iff.mpr hdead)
  · intro h x hx halive
    have hmem : x.1 ∈ s.threads := List.mem_of_getElem? (List.mem_zipIdx_iff_getElem?.mp hx)
    exact not_allFinished_of_alive hmem halive h

section Offered

variable [DecidableEq V] [PyValue V]

theorem keys_handle_ne_nil (s : Storage V) (call : Call V) : (handle s call).keys ≠ [] := by
  cases call with
  | bread key | bwrite key value | sync => exact keys_oneChoice_ne_nil _ _
  | crash =>
      intro h
      have hnil := List.map_eq_nil_iff.mp (Dict.keys_ofList_eq_nil_iff.mp h)
      exact subsets_ne_nil _ (List.zipIdx_eq_nil_iff.mp hnil)

/-- While a thread lives, only `sys_choose([])` offers nothing. -/
theorem keys_handler_eq_nil_iff {s : System V G Unit} (hlive : ¬ s.AllFinished)
    (call : Syscall V G) : (s.handler forkChoice call).keys = [] ↔ call = .choose [] := by
  cases call with
  | choose choices =>
      rw [System.handler, Dict.keys_ofList_eq_nil_iff, List.map_eq_nil_iff, Syscall.choose.injEq]
  | sched => exact iff_of_false (mt keys_sched_eq_nil_iff.mp hlive) fun h => by cases h
  | device call =>
      rw [System.handler, Dict.keys_mapValues]
      exact iff_of_false (keys_handle_ne_nil _ _) fun h => by cases h
  | spawn child | fork | write args =>
      exact iff_of_false (keys_oneChoice_ne_nil _ _) fun h => by cases h

variable (app : App V G H L S)

omit [DecidableEq V] [PyValue V] in
theorem atEmptyChoose_iff {s : System V G T} {th : Thread G}
    (hth : s.threads[s.current]? = some th) :
    s.AtEmptyChoose app ↔ ∃ g, th.context = .suspended g ∧ app.call g = .choose [] := by
  constructor
  · rintro ⟨x, g, hx, hg⟩
    rw [hth] at hx
    cases hx
    exact ⟨g, hg⟩
  · rintro ⟨g, hg⟩
    exact ⟨th, g, hth, hg⟩

/-- The current thread is offered nothing when all threads have returned or when it
chooses from nothing. -/
theorem keys_offered_eq_nil_iff {s : System V G Unit} {th : Thread G}
    (hth : s.threads[s.current]? = some th) :
    (s.offered app th.context).keys = [] ↔ s.AllFinished ∨ s.AtEmptyChoose app := by
  have hmem := List.mem_of_getElem? hth
  rw [atEmptyChoose_iff app hth]
  cases hctx : th.context with
  | fresh g =>
      have hlive : ¬ s.AllFinished := not_allFinished_of_alive hmem (by rw [hctx]; rfl)
      refine iff_of_false (keys_oneChoice_ne_nil _ _) ?_
      rintro (hall | ⟨g', hg, -⟩)
      · exact hlive hall
      · cases hg
  | finished =>
      rw [System.offered, keys_sched_eq_nil_iff]
      refine ⟨Or.inl, ?_⟩
      rintro (hall | ⟨g', hg, -⟩)
      · exact hall
      · cases hg
  | suspended g =>
      have hlive : ¬ s.AllFinished := not_allFinished_of_alive hmem (by rw [hctx]; rfl)
      rw [System.offered, keys_handler_eq_nil_iff hlive]
      constructor
      · intro hcall
        exact .inr ⟨g, rfl, hcall⟩
      · rintro (hall | ⟨g', hg, hcall⟩)
        · exact absurd hall hlive
        · cases hg
          exact hcall

/-! ## Reachable states -/

omit [DecidableEq V] [PyValue V] in
theorem allFinished_map {U : Type} (f : Nat → Nat) (c : T → U) (s : System V G T) :
    (s.map f c).AllFinished ↔ s.AllFinished := by
  simp only [System.AllFinished, System.map, List.forall_mem_map, Thread.map]

omit [DecidableEq V] [PyValue V] in
theorem atEmptyChoose_map {U : Type} (f : Nat → Nat) (c : T → U) (s : System V G T) :
    (s.map f c).AtEmptyChoose app ↔ s.AtEmptyChoose app := by
  constructor
  · rintro ⟨x, g, hx, hg⟩
    simp only [System.map, List.getElem?_map, Option.map_eq_some_iff] at hx
    obtain ⟨th, hth, rfl⟩ := hx
    exact ⟨th, g, hth, hg⟩
  · rintro ⟨th, g, hth, hg⟩
    refine ⟨th.map f, g, ?_, hg⟩
    simp only [System.map, List.getElem?_map, hth, Option.map_some]

theorem sortLabels_eq_nil_iff {labels : List Label} : sortLabels labels = [] ↔ labels = [] := by
  have hlen := (List.perm_insertionSort (fun a b : Label => a.le b) labels).length_eq
  rw [← List.length_eq_zero_iff, ← List.length_eq_zero_iff, sortLabels, hlen]

variable {w : World H} {os : OperatingSystem V G} {n : Nat} {trace : List Label}
  {x : World H × OperatingSystem V G}

omit [DecidableEq V] [PyValue V] in
/-- `vis` looks at the contexts. -/
theorem withoutContexts_iff {d : Dump V L S} (h : stateDump app w os = .ok d) :
    d.withoutContexts = true ↔ os.sys.AllFinished := by
  rw [Dump.withoutContexts, (numbered_stateDump app h).contexts, Bool.not_eq_true', List.any_map,
    List.any_eq_false]
  refine forall₂_congr fun th _ => ?_
  rw [Function.comp_apply, Option.isSome_map, frame_isSome, Bool.not_eq_true, alive_eq_false_iff]

omit [DecidableEq V] [PyValue V] in
/-- `run` and `collect.py` look at the choices. -/
theorem withoutChoices_iff {d : Dump V L S} (h : stateDump app w os = .ok d) :
    ∃ choices, os.sys.choices = some choices ∧ (d.withoutChoices = true ↔ choices.keys = []) := by
  obtain ⟨choices, hcs, rfl⟩ := stateDump_ok app h
  refine ⟨choices, hcs, ?_⟩
  rw [Dump.withoutChoices, System.dump, List.isEmpty_iff, sortLabels_eq_nil_iff]

/-- The choices of a reachable state. -/
theorem reachable_withoutChoices_iff (hn : trace.length ≤ n) (h : replay app n trace w = .ok x) :
    ∃ d, stateDump app x.1 x.2 = .ok d ∧
      (d.withoutChoices = true ↔ x.2.sys.AllFinished ∨ x.2.sys.AtEmptyChoose app) := by
  obtain ⟨m, f, clone, hrun, hrel⟩ := replay_machine app hn h
  have hm := run_valid app (valid_init app) hrun
  obtain ⟨th, hth, hcs⟩ := hm.offers
  refine ⟨m.dump app, stateDump_eq app hrel hm, ?_⟩
  rw [hrel.sys_eq, allFinished_map, atEmptyChoose_map,
    ← keys_offered_eq_nil_iff app (thread_eq_ok.mp hth)]
  simp only [Dump.withoutChoices, Machine.dump, System.dump, hcs, Option.map_some, Option.getD_some,
    List.isEmpty_iff, sortLabels_eq_nil_iff]

/-! ## Runs -/

theorem replayWith_append {fork : List Bool → World H → OperatingSystem V G →
      Except Fault (World H × Option (Choices V G (Thread G)))} {stack : List Bool}
    (h : replayWith app fork stack trace w os = .ok x) (rest : List Label) :
    replayWith app fork stack (trace ++ rest) w os = replayWith app fork stack rest x.1 x.2 := by
  induction trace generalizing w os with
  | nil =>
      cases h
      rfl
  | cons c trace ih =>
      obtain ⟨y, hy, h⟩ := bind_ok h
      rw [List.cons_append, replayWith, hy]
      exact ih h

/-- A replay continues with a step. -/
theorem replay_concat {y : World H × OperatingSystem V G} {c : Label}
    (h : replay app n trace w = .ok x) (hstep : step app n x.1 x.2 c = .ok y) :
    replay app n (trace ++ [c]) w = .ok y := by
  have hc : stepWith app (sysFork app n) [] x.1 x.2 c false = .ok y := hstep
  rw [replay, replayWith_append app h, replayWith, hc]
  rfl

/-- The loop of `run` has taken the choices `trace`: it is at the state of their
replay, the vertices are the dumps on the way, and all but the last have choices. -/
structure Walked (n : Nat) (w : World H) (trace : List Label) (x : Walk V G H L S K) : Prop where
  replayed : replay app n trace w = .ok (x.world, x.os)
  dumped : stateDump app x.world x.os = .ok x.last.dump
  length_eq : x.before.length = trace.length
  earlier : ∀ (i : Nat) (v : Vertex V L S K), x.before[i]? = some v →
    v.dump.withoutChoices = false ∧
    ∃ y, replay app n (trace.take i) w = .ok y ∧ stateDump app y.1 y.2 = .ok v.dump

variable {app} {hash : Dump V L S → K} {pick : Nat → List Label → Label}

theorem Walked.step {x y : Walk V G H L S K} {c : Label} (h : Walked app n w trace x)
    (hgo : x.last.dump.withoutChoices = false) (hy : runStep app hash n c x = .ok y) :
    Walked app n w (trace ++ [c]) y := by
  obtain ⟨z, hz, hy⟩ := bind_ok hy
  obtain ⟨d, hd, hy⟩ := bind_ok hy
  cases hy
  refine ⟨replay_concat app h.replayed hz, hd, by simp [h.length_eq], fun i v hv => ?_⟩
  rcases getElem?_concat_eq_some.mp hv with hv | ⟨rfl, rfl⟩
  · obtain ⟨hgo', z', hz', hd'⟩ := h.earlier i v hv
    have hlt : i < x.before.length := (List.getElem?_eq_some_iff.mp hv).1
    refine ⟨hgo', z', ?_, hd'⟩
    rw [List.take_append_of_le_length (by rw [← h.length_eq]; exact hlt.le)]
    exact hz'
  · refine ⟨hgo, (x.world, x.os), ?_, h.dumped⟩
    rw [h.length_eq, List.take_left]
    exact h.replayed

theorem Walked.loop {fuel : Nat} {x y : Walk V G H L S K} (h : Walked app n w trace x)
    (hy : runLoop app hash pick n fuel x = .ok y) :
    y.last.dump.withoutChoices = true ∧
      ∃ rest, rest.length ≤ fuel ∧ Walked app n w (trace ++ rest) y := by
  induction fuel generalizing trace x with
  | zero =>
      rw [runLoop] at hy
      split at hy
      next hstop =>
        cases hy
        exact ⟨hstop, [], le_rfl, by rwa [List.append_nil]⟩
      next => cases hy
  | succ fuel ih =>
      rw [runLoop] at hy
      split at hy
      next hstop =>
        cases hy
        exact ⟨hstop, [], Nat.zero_le _, by rwa [List.append_nil]⟩
      next hgo =>
        obtain ⟨z, hz, hy⟩ := bind_ok hy
        obtain ⟨hstop, rest, hlen, hwalk⟩ := ih (h.step (Bool.eq_false_iff.mpr hgo) hz) hy
        refine ⟨hstop, pick x.before.length x.last.dump.choices :: rest, Nat.succ_le_succ hlen, ?_⟩
        rwa [List.append_assoc] at hwalk

variable (app hash pick)

/-- The vertices of a run are the states of one trace, and the last of them is the
first without choices. -/
theorem run_walk {fuel : Nat} {r : World H × Explored V L S K}
    (h : run app hash pick fuel w = .ok r) :
    ∃ trace : List Label, trace.length ≤ fuel ∧ r.2.vertices.length = trace.length + 1 ∧
      ∀ (i : Nat) (v : Vertex V L S K), r.2.vertices[i]? = some v →
        (v.dump.withoutChoices = true ↔ i + 1 = r.2.vertices.length) ∧
        ∃ x, replay app fuel (trace.take i) w = .ok x ∧ stateDump app x.1 x.2 = .ok v.dump := by
  obtain ⟨d, hd, h⟩ := bind_ok h
  obtain ⟨x, hx, h⟩ := bind_ok h
  cases h
  have hstart : Walked app fuel w [] ⟨(create app w).1, (create app w).2, [], ⟨d, hash d, 0⟩, []⟩ :=
    ⟨rfl, hd, rfl, fun i v hv => by cases hv⟩
  obtain ⟨hstop, trace, hlen, hwalk⟩ := hstart.loop hx
  rw [List.nil_append] at hwalk
  refine ⟨trace, hlen, by simp [hwalk.length_eq], fun i v hv => ?_⟩
  simp only [List.length_append, List.length_singleton]
  rcases getElem?_concat_eq_some.mp hv with hv | ⟨rfl, rfl⟩
  · obtain ⟨hgo, hreach⟩ := hwalk.earlier i v hv
    have hlt : i < x.before.length := (List.getElem?_eq_some_iff.mp hv).1
    exact ⟨iff_of_false (by rw [hgo]; exact Bool.false_ne_true) (by omega), hreach⟩
  · refine ⟨iff_of_true hstop rfl, (x.world, x.os), ?_, hwalk.dumped⟩
    rw [hwalk.length_eq, List.take_length]
    exact hwalk.replayed

end Offered

/-- The application `sys_choose([])`. -/
def chooseNothing : App (Option Int) Nat Unit Unit Unit where
  name := "main"
  main := 0
  emptyHeap := ()
  call := fun _ => .choose []
  send := fun g _ _ => if g = 0 then .yields 1 () else .returns ()
  startFrame := fun _ => ⟨"main", 1, ()⟩
  frame := fun _ => ⟨"main", 2, ()⟩
  showHeap := id

end OsCourse.Mosaic
