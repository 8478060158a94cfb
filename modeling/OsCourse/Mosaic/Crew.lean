import OsCourse.Mosaic.CondVar

/-!
# The workers of a state

`Crew` describes a state of `cond-var.py` after `main` has returned by its workers alone.
`Crew.next` says what the workers can do in a step of the machine.  Conversely, `Moves` is
the behaviour of the workers under a scheduler of our choice, and the machine follows it
(`Crew.moves_run`).  Before, `main` starts the workers, and nobody else runs
(`init_reaches`); an invariant of the workers holds in every state of a run by
`Reachable.crew`.
-/

namespace OsCourse.Mosaic.CondVar

variable {N T_p T_c : Nat} {m mid m' : Machine PyVal Gen (Option Heap)} {h h' : Heap}

/-! ## Steps of the automaton as runs of the code -/

section Send

variable {w w' : Worker} {p : Point}

theorem Worker.Tries.send (htry : w.Tries N h w' p) (res : PyVal) :
    w.send N res h = lockLoop w' p h := by
  unfold Worker.send
  cases htry with
  | start hw hN => rw [hw]; dsimp only; rw [nextRound, if_pos hN]
  | lock hw => rw [hw]
  | next hw hN =>
      rw [hw]
      dsimp only
      rw [nextRound, if_pos hN]
  | woken hw hcond => rw [hw]; dsimp only; rw [waitLoop, if_neg hcond]
  | relock hw => rw [hw]

/-- The code does the steps of the automaton. -/
theorem Worker.Step.send (hstep : w.Step N h w' h') (hw : ∀ cond, w.point ≠ .signal cond)
    (res : PyVal) : w.send N res h = .yields (.worker w') (some h') := by
  cases hstep with
  | spin htry hmutex => rw [htry.send, lockLoop, if_pos hmutex]; rfl
  | @block v _ htry hmutex he =>
      have he' : ¬ v.enabled { h with mutex := true } = true := Bool.not_eq_true _ ▸ he
      rw [htry.send, lockLoop, if_neg (by simp [hmutex]), locked, if_pos he']
      rfl
  | @signal v _ htry hmutex he hcond =>
      have he' : v.enabled { h with mutex := true } = true := he
      rw [htry.send, lockLoop, if_neg (by simp [hmutex]), locked, if_neg (not_not.mpr he'),
        if_pos hcond]
      rfl
  | @enter v _ htry hmutex he hcond =>
      have he' : v.enabled { h with mutex := true } = true := he
      rw [htry.send, lockLoop, if_neg (by simp [hmutex]), locked, if_neg (not_not.mpr he'),
        if_neg (not_not.mpr hcond)]
      rfl
  | sleep hp =>
      simp only [Worker.send, hp]
      rw [waitLoop, if_pos (List.mem_append_right _ (List.mem_singleton_self _))]
      rfl
  | asleep hp hcond =>
      simp only [Worker.send, hp]
      rw [waitLoop, if_pos hcond]
      rfl
  | wake hp => exact absurd hp (hw _)
  | act hp =>
      simp only [Worker.send, hp]
      rfl

theorem Worker.send_wake {cond : List String} {t : String} (hw : w.point = .signal cond)
    (ht : t ∈ h.cond) :
    w.send N (.str t) h =
      .yields (.worker (w.at .enter)) (some { h with cond := h.cond.erase t }) := by
  simp only [Worker.send, hw, if_pos ht]
  rfl

theorem Worker.Done.send (hdone : w.Done N) (res : PyVal) : w.send N res h = .returns (some h) := by
  rcases hdone with ⟨hp, hN⟩ | ⟨hp, hN⟩
  · simp only [Worker.send, hp]
    rw [nextRound, if_neg (Nat.not_lt.mpr hN)]
  · simp only [Worker.send, hp]
    rw [nextRound, if_neg (Nat.not_lt.mpr hN)]

theorem Worker.Tries.arguments (htry : w.Tries N h w' p) :
    w'.name = w.name ∧ w'.delta = w.delta := by
  cases htry <;> exact ⟨rfl, rfl⟩

/-- A worker keeps its arguments. -/
theorem Worker.Step.arguments (hstep : w.Step N h w' h') :
    w'.name = w.name ∧ w'.delta = w.delta := by
  cases hstep with
  | spin htry => exact htry.arguments
  | block htry => exact htry.arguments
  | signal htry => exact htry.arguments
  | enter htry => exact htry.arguments
  | _ => exact ⟨rfl, rfl⟩

end Send

/-! ## The workers -/

/-- A state after `main` has returned, by its workers: those that have returned are
`none`. -/
structure Crew (N T_p T_c : Nat) (m : Machine PyVal Gen (Option Heap)) (ws : List (Option Worker))
    (h : Heap) : Prop where
  valid : m.Valid (app N T_p T_c)
  reached : Reached N T_p T_c m h
  gens : m.sys.threads.map (fun th => gen? th.context) = none :: ws.map (Option.map Gen.worker)
  stopped : ∀ th g, m.sys.threads[m.sys.current]? = some th → th.context ≠ .fresh g
  length : ws.length = T_p + T_c
  arguments : ∀ i w, ws[i]? = some (some w) →
    w.name = (workerOf T_p i).name ∧ w.delta = (workerOf T_p i).delta

section Crew

variable {ws : List (Option Worker)} {i : Nat} {w w' : Worker}

/-- The generators by thread. -/
theorem Crew.gen (hc : Crew N T_p T_c m ws h) {th : Thread Gen} {j : Nat}
    (hth : m.sys.threads[j]? = some th) :
    (j = 0 ∧ gen? th.context = none) ∨
      ∃ i o, j = i + 1 ∧ ws[i]? = some o ∧ gen? th.context = o.map Gen.worker := by
  have hget := congrArg (fun l : List (Option Gen) => l[j]?) hc.gens
  simp only [List.getElem?_map, hth, Option.map_some] at hget
  cases j with
  | zero => exact .inl ⟨rfl, Option.some.inj hget⟩
  | succ i =>
      rw [List.getElem?_cons_succ, List.getElem?_map] at hget
      obtain ⟨o, ho, hgen⟩ := Option.map_eq_some_iff.mp hget.symm
      exact .inr ⟨i, o, rfl, ho, hgen.symm⟩

theorem Crew.isWorker (hc : Crew N T_p T_c m ws h) {j : Nat} (hw : IsWorker m.sys.threads j w) :
    ∃ i, j = i + 1 ∧ ws[i]? = some (some w) := by
  obtain ⟨th, hth, hgen⟩ := hw
  rcases hc.gen hth with ⟨-, hnone⟩ | ⟨i, o, rfl, ho, hgen'⟩
  · rw [hgen] at hnone
    cases hnone
  · rw [hgen] at hgen'
    cases o with
    | none => cases hgen'
    | some w' =>
        cases hgen'
        exact ⟨i, rfl, ho⟩

theorem Crew.worker (hc : Crew N T_p T_c m ws h) (hw : ws[i]? = some (some w)) :
    IsWorker m.sys.threads (i + 1) w := by
  have hget := congrArg (fun l : List (Option Gen) => l[i + 1]?) hc.gens
  simp only [List.getElem?_map, List.getElem?_cons_succ, hw, Option.map_some] at hget
  obtain ⟨th, hth, hgen⟩ := Option.map_eq_some_iff.mp hget
  exact ⟨th, hth, hgen⟩

theorem Crew.allFinished_iff (hc : Crew N T_p T_c m ws h) :
    m.sys.AllFinished ↔ ∀ (i : Nat) (w : Worker), ws[i]? ≠ some (some w) := by
  constructor
  · intro hall i w hw
    obtain ⟨th, hth, hgen⟩ := hc.worker hw
    rw [hall th (List.mem_of_getElem? hth)] at hgen
    cases hgen
  · intro hnone th hth
    obtain ⟨j, hj⟩ := List.getElem?_of_mem hth
    have hgen : gen? th.context = none := by
      rcases hc.gen hj with ⟨-, hgen⟩ | ⟨i, o, -, ho, hgen⟩
      · exact hgen
      · cases o with
        | none => exact hgen
        | some w => exact absurd ho (hnone i w)
    cases hctx : th.context with
    | finished => rfl
    | _ =>
        rw [hctx] at hgen
        cases hgen

/-- The context of a worker, or of one that has returned. -/
def contextOf : Option Worker → Context Gen
  | some w => .suspended (.worker w)
  | none => .finished

/-- The state after worker `i` ran. -/
theorem Crew.ran (hc : Crew N T_p T_c m ws h) (hw : ws[i]? = some (some w)) (o : Option Worker)
    (hvalid : m'.Valid (app N T_p T_c)) (hreached : Reached N T_p T_c m' h')
    (hthreads : m'.sys.threads = CondVar.ran m.sys.threads (i + 1) (contextOf o))
    (hcurrent : m'.sys.current = i + 1)
    (harg : ∀ v, o = some v → v.name = w.name ∧ v.delta = w.delta) :
    Crew N T_p T_c m' (ws.set i o) h' := by
  have hgen : gen? (contextOf o) = o.map Gen.worker := by cases o <;> rfl
  refine ⟨hvalid, hreached, ?_, ?_, ?_, ?_⟩
  · rw [hthreads, CondVar.ran]
    have hset : (m.sys.threads.modify (i + 1) fun th => { th with context := contextOf o }).map
        (fun th => gen? th.context) =
        (m.sys.threads.map fun th => gen? th.context).set (i + 1) (o.map Gen.worker) := by
      obtain ⟨th, hth, -⟩ := hc.worker hw
      have hlt := (List.getElem?_eq_some_iff.mp hth).1
      refine List.ext_getElem? fun j => ?_
      rw [List.getElem?_map, List.getElem?_modify, List.getElem?_set, List.length_map]
      by_cases hij : i + 1 = j
      · subst hij
        simp [hlt, hgen]
      · simp [hij]
    rw [hset, hc.gens, List.set_cons_succ, List.map_set]
  · intro th g hth
    rw [hthreads, hcurrent, CondVar.ran, List.getElem?_modify_eq] at hth
    obtain ⟨x, -, rfl⟩ := Option.map_eq_some_iff.mp hth
    cases o <;> exact fun hg => by cases hg
  · rw [List.length_set, hc.length]
  · intro j v hv
    rw [List.getElem?_set] at hv
    split at hv
    next hij =>
      subst hij
      split at hv
      next =>
        obtain ⟨hname, hdelta⟩ := harg v (Option.some.inj hv)
        obtain ⟨hname', hdelta'⟩ := hc.arguments i w hw
        exact ⟨hname.trans hname', hdelta.trans hdelta'⟩
      next => cases hv
    next => exact hc.arguments j v hv

/-- What a worker leaves behind when it runs. -/
def outcome (o : Option Worker) (h : Heap) : Resume Gen (Option Heap) :=
  match o with
  | some w => .yields (.worker w) (some h)
  | none => .returns (some h)

/-- The labels of `sys_choose` tell the names apart. -/
theorem labels_choose (N T_p T_c : Nat) (g : Gen) (choices : List PyVal)
    (hcall : (app N T_p T_c).call g = .choose choices) :
    ∀ c ∈ choices, ∀ c' ∈ choices, PyValue.str c = PyValue.str c' → c = c' := by
  rcases call_cases N T_p T_c g with ⟨k, -, hk⟩ | ⟨w, cond, -, -, hk⟩ | ⟨hk, -⟩
  · rw [hk] at hcall
    cases hcall
  · rw [hk] at hcall
    cases hcall
    intro c hc c' hc' heq
    obtain ⟨t, -, rfl⟩ := List.mem_map.mp hc
    obtain ⟨t', -, rfl⟩ := List.mem_map.mp hc'
    exact congrArg PyVal.str heq
  · rw [hk] at hcall
    cases hcall

/-- `main` does not run any more. -/
theorem Crew.workerTurn (hc : Crew N T_p T_c m ws h) {th : Thread Gen} {res : PyVal}
    (hturn : Turn (app N T_p T_c) m mid th res) : ∃ w, Reached.WorkerTurn m mid h th res w := by
  rcases hc.reached.turn_cases hc.valid hturn with hw | ⟨k, hth, hctx, -⟩
  · exact hw
  · rcases hc.gen hth with ⟨-, hgen⟩ | ⟨i, o, -, -, hgen⟩
    · rw [hctx] at hgen
      cases hgen
    · rw [hctx] at hgen
      cases o <;> cases hgen

/-- A worker runs on. -/
theorem Crew.run (hc : Crew N T_p T_c m ws h) (hw : ws[i]? = some (some w)) {th : Thread Gen}
    {res : PyVal} (hturn : Turn (app N T_p T_c) m mid th res) (hcurrent : mid.sys.current = i + 1)
    {o : Option Worker} (hsend : w.send N res h = outcome o h')
    (harg : ∀ v, o = some v → v.name = w.name ∧ v.delta = w.delta) :
    ∃ m', m.Next (app N T_p T_c) m' ∧ Crew N T_p T_c m' (ws.set i o) h' ∧
      m'.sys.current = i + 1 := by
  obtain ⟨w₁, hw₁⟩ := hc.workerTurn hturn
  have hth := hturn.thread
  have hsame : w₁ = w := by
    have hth' : m.sys.threads[i + 1]? = some th := by rw [← hw₁.threads, ← hcurrent]; exact hth
    exact IsWorker.unique ⟨th, hth', hw₁.gen⟩ (hc.worker hw)
  subst hsame
  have hresume := hc.reached.resume_worker hw₁ (thread_eq_ok.mpr hth)
  rw [hsend] at hresume
  have hthreads := hw₁.threads
  have hzero : th.heap = 0 := by
    rw [hthreads] at hth
    exact hc.reached.shared th (List.mem_of_getElem? hth)
  have hafter : ∃ m', mid.afterRun (app N T_p T_c) mid.sys th (outcome o h') = .ok m' ∧
      m'.sys.threads = CondVar.ran m.sys.threads (i + 1) (contextOf o) ∧
      m'.sys.current = i + 1 ∧ m'.heaps 0 = some h' := by
    rw [← hthreads, ← hcurrent, ← hzero]
    cases o with
    | none => exact ⟨_, rfl, rfl, rfl, Function.update_self ..⟩
    | some v => exact ⟨_, rfl, rfl, rfl, Function.update_self ..⟩
  obtain ⟨m', hrun, hthreads', hcurrent', hheap'⟩ := hafter
  have hcont : m'.Continues (app N T_p T_c) mid th res :=
    ⟨thread_eq_ok.mpr hturn.thread, _, hresume, hrun⟩
  obtain ⟨choice, hstep⟩ :=
    exists_step (app N T_p T_c) hc.valid (labels_choose N T_p T_c) hturn hcont
  obtain ⟨h'', -, hreached⟩ := hc.reached.turn hc.valid hturn hcont
  have heq : h'' = h' := Option.some.inj (hreached.heap.symm.trans hheap')
  subst heq
  exact ⟨m', ⟨choice, hstep⟩, hc.ran hw o (step_valid (app N T_p T_c) hc.valid hstep) hreached
    hthreads' hcurrent' harg, hcurrent'⟩

/-- What can happen to the workers. -/
theorem Crew.next (hc : Crew N T_p T_c m ws h) (hnext : m.Next (app N T_p T_c) m') :
    ∃ i w, ws[i]? = some (some w) ∧
      ((∃ w' h', w.Step N h w' h' ∧ Crew N T_p T_c m' (ws.set i (some w')) h') ∨
        (w.Done N ∧ Crew N T_p T_c m' (ws.set i none) h)) := by
  obtain ⟨choice, hstep⟩ := hnext
  obtain ⟨mid, th, res, hturn, hcont⟩ := step_turn (app N T_p T_c) hc.valid hstep
  have hvalid := step_valid (app N T_p T_c) hc.valid hstep
  obtain ⟨h', hevent, hreached⟩ := hc.reached.turn hc.valid hturn hcont
  generalize hthreads : m'.sys.threads = threads' at hevent
  generalize hcurrent : m'.sys.current = j at hevent
  cases hevent with
  | @step w w' _ hw hstep =>
      obtain ⟨i, rfl, hi⟩ := hc.isWorker hw
      refine ⟨i, w, hi, .inl ⟨w', h', hstep, ?_⟩⟩
      refine hc.ran hi (some w') hvalid hreached hthreads hcurrent ?_
      intro v hv
      cases hv
      exact hstep.arguments
  | @done w hw hdone =>
      obtain ⟨i, rfl, hi⟩ := hc.isWorker hw
      refine ⟨i, w, hi, .inr ⟨hdone, hc.ran hi none hvalid hreached hthreads hcurrent ?_⟩⟩
      intro v hv
      cases hv
  | @spawn th k hth hctx =>
      exfalso
      rcases hc.gen hth with ⟨-, hgen⟩ | ⟨i, o, -, -, hgen⟩
      · rw [hctx] at hgen
        cases hgen
      · rw [hctx] at hgen
        cases o <;> cases hgen

/-- Nobody is at `sys_choose`. -/
def Quiet (ws : List (Option Worker)) : Prop :=
  ∀ (i : Nat) (w : Worker) (cond : List String), ws[i]? = some (some w) → w.point ≠ .signal cond

/-- Then the scheduler may choose any worker. -/
theorem Crew.switch (hc : Crew N T_p T_c m ws h) (hquiet : Quiet ws)
    (hw : ws[i]? = some (some w)) :
    ∃ mid th res, Turn (app N T_p T_c) m mid th res ∧ mid.sys.current = i + 1 := by
  obtain ⟨parent, hparent, -⟩ := hc.valid.offers
  rw [thread_eq_ok] at hparent
  have hyield : parent.context.Yielded (app N T_p T_c) := by
    cases hctx : parent.context with
    | fresh g => exact absurd hctx (hc.stopped parent g hparent)
    | finished => exact .inl rfl
    | suspended g =>
        refine .inr ⟨g, rfl, ?_⟩
        rcases hc.gen hparent with ⟨-, hgen⟩ | ⟨j, o, -, hj, hgen⟩
        · rw [hctx] at hgen
          cases hgen
        · rw [hctx] at hgen
          cases o with
          | none => cases hgen
          | some v =>
              cases hgen
              rcases call_cases N T_p T_c (.worker v) with
                ⟨_, ⟨⟩, -⟩ | ⟨_, cond, ⟨⟩, hp, -⟩ | ⟨hk, -⟩
              · exact absurd hp (hquiet j v cond hj)
              · exact hk
  obtain ⟨th, hth, hgen⟩ := hc.worker hw
  have halive : th.context.alive = true := by
    cases hctx : th.context with
    | finished =>
        rw [hctx] at hgen
        cases hgen
    | _ => rfl
  exact ⟨_, th, _, .switch hparent hyield hth halive, current_switchTo _ _⟩

end Crew

/-! ## Moves -/

/-- What workers can do, if the scheduler chooses them. -/
inductive Moves (N : Nat) (ws : List (Option Worker)) (h : Heap) :
    List (Option Worker) → Heap → Prop where
  | step {i : Nat} {w w' : Worker} {h' : Heap} (hw : ws[i]? = some (some w))
      (hstep : w.Step N h w' h') (hquiet : ∀ cond, w'.point ≠ .signal cond) :
      Moves N ws h (ws.set i (some w')) h'
  | signal {i : Nat} {w w' : Worker} {p : Point} {t : String} (hw : ws[i]? = some (some w))
      (htry : w.Tries N h w' p) (hmutex : h.mutex = false) (he : w'.enabled h = true)
      (ht : t ∈ h.cond) :
      Moves N ws h (ws.set i (some (w'.at .enter)))
        { h with mutex := true, cond := h.cond.erase t }
  | done {i : Nat} {w : Worker} (hw : ws[i]? = some (some w)) (hdone : w.Done N) :
      Moves N ws h (ws.set i none) h

section Moves

variable {ws ws' : List (Option Worker)}

theorem Quiet.set (hquiet : Quiet ws) (i : Nat) {o : Option Worker}
    (ho : ∀ w cond, o = some w → w.point ≠ .signal cond) : Quiet (ws.set i o) := by
  intro j v cond hv
  rw [List.getElem?_set] at hv
  split at hv
  next =>
    split at hv
    next => exact ho v cond (Option.some.inj hv)
    next => cases hv
  next => exact hquiet j v cond hv

theorem Moves.quiet (hmove : Moves N ws h ws' h') (hquiet : Quiet ws) : Quiet ws' := by
  cases hmove with
  | step hw hstep hw' =>
      refine hquiet.set _ ?_
      rintro v cond hv
      cases hv
      exact hw' cond
  | signal =>
      refine hquiet.set _ ?_
      rintro v cond hv
      cases hv
      exact fun hp => by cases hp
  | done => exact hquiet.set _ fun _ _ hv => by cases hv

/-- The machine follows the workers. -/
theorem Crew.moves (hc : Crew N T_p T_c m ws h) (hquiet : Quiet ws)
    (hmove : Moves N ws h ws' h') :
    ∃ m', m.Reaches (app N T_p T_c) m' ∧ Crew N T_p T_c m' ws' h' := by
  cases hmove with
  | @step i w w' _ hw hstep hw' =>
      obtain ⟨mid, th, res, hturn, hcurrent⟩ := hc.switch hquiet hw
      have hsend := hstep.send (fun cond => hquiet i w cond hw) res
      obtain ⟨m', hnext, hc', -⟩ := hc.run hw hturn hcurrent (o := some w') hsend (by
        intro v hv
        cases hv
        exact hstep.arguments)
      exact ⟨m', .single hnext, hc'⟩
  | @done i w hw hdone =>
      obtain ⟨mid, th, res, hturn, hcurrent⟩ := hc.switch hquiet hw
      obtain ⟨m', hnext, hc', -⟩ := hc.run hw hturn hcurrent (o := none) (hdone.send res) (by
        intro v hv
        cases hv)
      exact ⟨m', .single hnext, hc'⟩
  | @signal i w w' p t hw htry hmutex he ht =>
      -- the worker takes the mutex and chooses whom to wake
      have hstep := Worker.Step.signal htry hmutex he (List.ne_nil_of_mem ht)
      obtain ⟨mid, th, res, hturn, hcurrent⟩ := hc.switch hquiet hw
      have hsend := hstep.send (fun cond => hquiet i w cond hw) res
      obtain ⟨m₁, hnext₁, hc₁, hcurrent₁⟩ := hc.run hw hturn hcurrent (o := some _) hsend (by
        intro v hv
        cases hv
        exact hstep.arguments)
      have hlt : i < ws.length := (List.getElem?_eq_some_iff.mp hw).1
      have hw₁ : (ws.set i (some (w'.at (.signal h.cond))))[i]? =
          some (some (w'.at (.signal h.cond))) := List.getElem?_set_self hlt
      obtain ⟨-, x, hx, hctx⟩ := hc₁.reached.signal_current (hc₁.worker hw₁) rfl
      have hturn₁ : Turn (app N T_p T_c) m₁ m₁ x (.str t) := by
        refine .choose (by rw [hcurrent₁]; exact hx) hctx rfl ?_
        exact List.mem_map.mpr ⟨t, ht, rfl⟩
      have hsend₁ := Worker.send_wake (N := N) (w := w'.at (.signal h.cond))
        (h := { h with mutex := true }) rfl ht
      obtain ⟨m₂, hnext₂, hc₂, -⟩ := hc₁.run hw₁ hturn₁ hcurrent₁ (o := some _) hsend₁ (by
        intro v hv
        cases hv
        exact ⟨rfl, rfl⟩)
      rw [List.set_set] at hc₂
      exact ⟨m₂, .head hnext₁ (.single hnext₂), hc₂⟩

/-- Any number of moves. -/
def Run (N : Nat) (ws : List (Option Worker)) (h : Heap) (ws' : List (Option Worker)) (h' : Heap) :
    Prop :=
  Relation.ReflTransGen (fun x y : List (Option Worker) × Heap => Moves N x.1 x.2 y.1 y.2)
    (ws, h) (ws', h')

theorem Crew.moves_run (hc : Crew N T_p T_c m ws h) (hquiet : Quiet ws)
    (hrun : Run N ws h ws' h') :
    ∃ m', m.Reaches (app N T_p T_c) m' ∧ Crew N T_p T_c m' ws' h' := by
  have hinv : ∀ x : List (Option Worker) × Heap,
      Relation.ReflTransGen (fun x y : List (Option Worker) × Heap => Moves N x.1 x.2 y.1 y.2)
        (ws, h) x →
      Quiet x.1 ∧ ∃ m', m.Reaches (app N T_p T_c) m' ∧ Crew N T_p T_c m' x.1 x.2 := by
    intro x hx
    induction hx with
    | refl => exact ⟨hquiet, m, .refl, hc⟩
    | tail _ hmove ih =>
        obtain ⟨hquiet₁, m₁, hreach₁, hc₁⟩ := ih
        obtain ⟨m₂, hreach₂, hc₂⟩ := hc₁.moves hquiet₁ hmove
        exact ⟨hmove.quiet hquiet₁, m₂, hreach₁.trans hreach₂, hc₂⟩
  exact (hinv _ hrun).2

end Moves

/-! ## How a run begins -/

/-- The workers before they run. -/
def freshCrew (T_p T_c : Nat) : List (Option Worker) :=
  (List.range (T_p + T_c)).map fun j => some (workerOf T_p j)

/-- The heap that `main` sets up. -/
abbrev startHeap : Heap := ⟨false, 0, []⟩

/-- Before the call of `sys_spawn` number `k`, nobody but `main` has run. -/
structure Spawning (N T_p T_c : Nat) (m : Machine PyVal Gen (Option Heap)) (k : Nat) : Prop where
  valid : m.Valid (app N T_p T_c)
  reached : Reached N T_p T_c m startHeap
  bound : k < T_p + T_c
  current : m.sys.current = 0
  threads : m.sys.threads = ⟨.suspended (.spawning k), 0⟩ ::
    (List.range k).map fun j => ⟨.fresh (.worker (workerOf T_p j)), 0⟩

/-- A state in which `main` is at its call of `sys_spawn` number `k`, or has returned after
`k` calls. -/
def Begun (N T_p T_c : Nat) (m : Machine PyVal Gen (Option Heap)) (k : Nat) : Prop :=
  Spawning N T_p T_c m k ∨ (k = T_p + T_c ∧ Crew N T_p T_c m (freshCrew T_p T_c) startHeap)

/-- The context of `main` after `k` calls of `sys_spawn`. -/
theorem begun_of_threads {k : Nat} (hk : k ≤ T_p + T_c) (hvalid : m.Valid (app N T_p T_c))
    (hreached : Reached N T_p T_c m startHeap) (hcurrent : m.sys.current = 0)
    (hthreads : m.sys.threads =
      ⟨if k < T_p + T_c then .suspended (.spawning k) else .finished, 0⟩ ::
        (List.range k).map fun j => ⟨.fresh (.worker (workerOf T_p j)), 0⟩) :
    Begun N T_p T_c m k := by
  by_cases hlt : k < T_p + T_c
  · rw [if_pos hlt] at hthreads
    exact .inl ⟨hvalid, hreached, hlt, hcurrent, hthreads⟩
  · have heq : k = T_p + T_c := by omega
    rw [if_neg hlt] at hthreads
    subst heq
    refine .inr ⟨rfl, hvalid, hreached, ?_, ?_, ?_, ?_⟩
    · rw [hthreads, freshCrew]
      simp [gen?]
    · intro th g hth
      rw [hthreads, hcurrent] at hth
      cases hth
      exact fun hg => by cases hg
    · simp [freshCrew]
    · intro i w hw
      rw [freshCrew, List.getElem?_map, Option.map_eq_some_iff] at hw
      obtain ⟨j, hj, hw⟩ := hw
      cases hw
      have hij : j = i := by
        have := List.getElem?_eq_some_iff.mp hj
        simpa using this.2.symm
      rw [hij]
      exact ⟨rfl, rfl⟩

/-- The state after a call of `sys_spawn`. -/
theorem Spawning.next {k : Nat} (hs : Spawning N T_p T_c m k) (hnext : m.Next (app N T_p T_c) m') :
    Begun N T_p T_c m' (k + 1) := by
  obtain ⟨choice, hstep⟩ := hnext
  obtain ⟨mid, th, res, hturn, hcont⟩ := step_turn (app N T_p T_c) hs.valid hstep
  have hvalid := step_valid (app N T_p T_c) hs.valid hstep
  obtain ⟨h', hevent, hreached⟩ := hs.reached.turn hs.valid hturn hcont
  have hmain : m.sys.threads[0]? = some ⟨.suspended (.spawning k), 0⟩ := by
    rw [hs.threads]
    rfl
  have hcurrent : m'.sys.current = 0 := by
    rw [hcont.current, hturn.current _ (by rw [hs.current]; exact hmain), hs.current]
    rintro (hd | ⟨g, hg, hcall⟩)
    · cases hd
    · cases hg
      cases hcall
  have hnone : ∀ w, ¬ IsWorker m.sys.threads 0 w := by
    rintro w ⟨x, hx, hgen⟩
    cases hx.symm.trans hmain
    cases hgen
  rw [hcurrent] at hevent
  generalize hthreads : m'.sys.threads = threads' at hevent
  cases hevent with
  | step hw => exact absurd hw (hnone _)
  | done hw => exact absurd hw (hnone _)
  | @spawn x k' hx hctx hk =>
      cases hx.symm.trans hmain
      cases hctx
      refine begun_of_threads hk hvalid hreached hcurrent ?_
      rw [hthreads, hs.threads, ran, afterSpawn, List.range_succ, List.map_append]
      rfl

theorem init_next (hnext : (Machine.init (app N T_p T_c)).Next (app N T_p T_c) m') :
    Begun N T_p T_c m' 0 := by
  obtain ⟨choice, hstep⟩ := hnext
  have hinit := valid_init (app N T_p T_c)
  obtain ⟨mid, th, res, hturn, hcont⟩ := step_turn (app N T_p T_c) hinit hstep
  have hvalid := step_valid (app N T_p T_c) hinit hstep
  obtain ⟨h, hreached⟩ := reached_first hturn hcont
  obtain ⟨rfl, rfl, rfl⟩ := turn_init hturn
  obtain ⟨-, r, hr, hrun⟩ := hcont
  have hloop : spawnLoop T_p T_c 0 startHeap = r := Except.ok.inj hr
  rw [← hloop, spawnLoop] at hrun
  have hheap : h = startHeap := by
    refine Option.some.inj (hreached.heap.symm.trans ?_)
    split at hrun <;> cases hrun <;> rfl
  subst hheap
  refine begun_of_threads (Nat.zero_le _) hvalid hreached ?_ ?_
  · split at hrun <;> cases hrun <;> rfl
  · by_cases hlt : 0 < T_p + T_c
    · rw [if_pos hlt] at hrun ⊢
      cases hrun
      rfl
    · rw [if_neg hlt] at hrun ⊢
      cases hrun
      rfl

/-- Every turn can be taken. -/
theorem exists_next {trace : List Label}
    (hrun : Machine.run (app N T_p T_c) trace (Machine.init (app N T_p T_c)) = .ok m)
    {th : Thread Gen} {res : PyVal} (hturn : Turn (app N T_p T_c) m mid th res) :
    ∃ m', m.Next (app N T_p T_c) m' := by
  obtain ⟨r, hr, hne⟩ := resume_ok hrun hturn
  obtain ⟨hvalid, -⟩ := reached_run hrun
  have hafter : ∃ m', mid.afterRun (app N T_p T_c) mid.sys th r = .ok m' := by
    cases r with
    | raises => exact absurd rfl hne
    | returns x => exact ⟨_, rfl⟩
    | yields g x => exact ⟨_, rfl⟩
  obtain ⟨m', hm'⟩ := hafter
  obtain ⟨choice, hstep⟩ := exists_step (app N T_p T_c) hvalid (labels_choose N T_p T_c) hturn
    ⟨thread_eq_ok.mpr hturn.thread, r, hr, hm'⟩
  exact ⟨m', choice, hstep⟩

/-- A state of a run. -/
def Reachable (N T_p T_c : Nat) (m : Machine PyVal Gen (Option Heap)) : Prop :=
  (Machine.init (app N T_p T_c)).Reaches (app N T_p T_c) m

theorem Reachable.exists_next (hm : Reachable N T_p T_c m) {th : Thread Gen} {res : PyVal}
    (hturn : Turn (app N T_p T_c) m mid th res) : ∃ m', m.Next (app N T_p T_c) m' := by
  obtain ⟨trace, hrun⟩ := (machine_reaches_iff (app N T_p T_c)).mp hm
  exact CondVar.exists_next hrun hturn

/-- `main` starts all workers. -/
theorem Begun.reaches {k : Nat} (hreach : Reachable N T_p T_c m) (hm : Begun N T_p T_c m k) :
    ∃ m', m.Reaches (app N T_p T_c) m' ∧ Crew N T_p T_c m' (freshCrew T_p T_c) startHeap := by
  -- on the calls that are left
  induction hd : T_p + T_c - k generalizing m k with
  | zero =>
      rcases hm with hs | ⟨-, hc⟩
      · exact absurd hs.bound (by omega)
      · exact ⟨m, .refl, hc⟩
  | succ d ih =>
      rcases hm with hs | ⟨hk, -⟩
      · have hmain : m.sys.threads[m.sys.current]? = some ⟨.suspended (.spawning k), 0⟩ := by
          rw [hs.current, hs.threads]
          rfl
        obtain ⟨m₁, hnext⟩ := hreach.exists_next (.spawn hmain rfl rfl)
        obtain ⟨m₂, hreach₂, hc⟩ := ih (hreach.tail hnext) (hs.next hnext) (by omega)
        exact ⟨m₂, .head hnext hreach₂, hc⟩
      · omega

theorem init_reaches (N T_p T_c : Nat) :
    ∃ m, Reachable N T_p T_c m ∧ Crew N T_p T_c m (freshCrew T_p T_c) startHeap := by
  have hinit : Reachable N T_p T_c (Machine.init (app N T_p T_c)) := .refl
  obtain ⟨m₁, hnext⟩ := hinit.exists_next (.start rfl rfl)
  obtain ⟨m, hreach, hc⟩ := Begun.reaches (.single hnext) (init_next hnext)
  exact ⟨m, .head hnext hreach, hc⟩

/-- The rule for an invariant of the workers. -/
theorem Reachable.crew {P : List (Option Worker) → Heap → Prop}
    (hfresh : P (freshCrew T_p T_c) startHeap)
    (hstep : ∀ m ws h i w w' h', Crew N T_p T_c m ws h → P ws h → ws[i]? = some (some w) →
      w.Step N h w' h' → P (ws.set i (some w')) h')
    (hdone : ∀ m ws h i w, Crew N T_p T_c m ws h → P ws h → ws[i]? = some (some w) → w.Done N →
      P (ws.set i none) h)
    (hm : Reachable N T_p T_c m) :
    m = Machine.init (app N T_p T_c) ∨ (∃ k, Spawning N T_p T_c m k) ∨
      ∃ ws h, Crew N T_p T_c m ws h ∧ P ws h := by
  have hbegun : ∀ {m k}, Begun N T_p T_c m k →
      (∃ k, Spawning N T_p T_c m k) ∨ ∃ ws h, Crew N T_p T_c m ws h ∧ P ws h := by
    rintro m k (hs | ⟨-, hc⟩)
    · exact .inl ⟨k, hs⟩
    · exact .inr ⟨_, _, hc, hfresh⟩
  induction hm with
  | refl => exact .inl rfl
  | tail _ hnext ih =>
      right
      rcases ih with rfl | ⟨k, hs⟩ | ⟨ws, h, hc, hP⟩
      · exact hbegun (init_next hnext)
      · exact hbegun (hs.next hnext)
      · obtain ⟨i, w, hw, ⟨w', h', hs, hc'⟩ | ⟨hd, hc'⟩⟩ := hc.next hnext
        · exact .inr ⟨_, _, hc', hstep _ ws h i w w' h' hc hP hw hs⟩
        · exact .inr ⟨_, _, hc', hdone _ ws h i w hc hP hw hd⟩

/-- The workers of a state. -/
theorem Crew.unique {ws ws' : List (Option Worker)} (hc : Crew N T_p T_c m ws h)
    (hc' : Crew N T_p T_c m ws' h') : ws = ws' ∧ h = h' := by
  have htail := List.tail_eq_of_cons_eq (hc.gens.symm.trans hc'.gens)
  have hinj : Function.Injective (Option.map Gen.worker) :=
    Option.map_injective fun w w' hw => Gen.worker.inj hw
  exact ⟨List.map_injective_iff.mpr hinj htail,
    Option.some.inj (hc.reached.heap.symm.trans hc'.reached.heap)⟩

end OsCourse.Mosaic.CondVar
