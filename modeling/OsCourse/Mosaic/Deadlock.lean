import OsCourse.Mosaic.Crew

/-!
# Lost wakeups

The wait list of `cond-var.py` is shared by producers and consumers, and a worker that
proceeds wakes any one of them.  With one producer and one consumer the worker on the
wait list is always the right one: `Orderly` is the invariant, and the weight of the
workers decreases until all have returned.  With more, a consumer may wake a consumer that
finds the buffer empty again, while the producers sleep on: `runOf_lost` is such a
schedule.  `condVar_finishes_iff` says exactly when every run can be continued to its end.
-/

namespace OsCourse.Mosaic.CondVar

variable {N T_p T_c : Nat} {m mid m' : Machine PyVal Gen (Option Heap)} {h h' : Heap}

/-! ## Enough wakeups -/

/-- If the workers in the wait list are all alike, the wait list has at most one worker
who really cannot proceed. -/
structure Orderly (ws : List (Option Worker)) (h : Heap) : Prop where
  short : h.cond.length ≤ 1
  listed : ∀ t ∈ h.cond, ∃ (i : Nat) (w : Worker), ws[i]? = some (some w) ∧ w.name = t
  waits : ∀ (i : Nat) (w : Worker), ws[i]? = some (some w) → w.name ∈ h.cond →
    w.point = .wait ∧ w.enabled h = false
  blocked : ∀ (i : Nat) (w : Worker), ws[i]? = some (some w) → w.point = .blocked →
    w.enabled h = false
  enter : ∀ (i : Nat) (w : Worker), ws[i]? = some (some w) → w.point = .enter → h.cond = []

section Orderly

variable {T : Nat} {ws : List (Option Worker)} {i : Nat} {w w' : Worker} {p : Point}
  {o : Option Worker} {j : Nat} {v : Worker}

theorem getElem?_set_cases (hv : (ws.set i o)[j]? = some (some v)) :
    (j = i ∧ o = some v) ∨ (j ≠ i ∧ ws[j]? = some (some v)) := by
  rw [List.getElem?_set] at hv
  split at hv
  next hij =>
    split at hv
    next => exact .inl ⟨hij.symm, Option.some.inj hv⟩
    next => cases hv
  next hij => exact .inr ⟨Ne.symm hij, hv⟩

theorem workerOf_name_inj {T_p i : Nat} (hij : (workerOf T_p i).name = (workerOf T_p j).name) :
    i = j := by
  have hkind : ∀ a b : String, "Tp" ++ a ≠ "Tc" ++ b := by
    intro a b hab
    have hlist := congrArg String.toList hab
    simp at hlist
  rw [workerOf, workerOf] at hij
  split at hij <;> split at hij
  · exact Nat.repr_inj.mp ((String.append_right_inj "Tp").mp hij)
  · exact absurd hij (hkind _ _)
  · exact absurd hij.symm (hkind _ _)
  · have hsub := Nat.repr_inj.mp ((String.append_right_inj "Tc").mp hij)
    omega

/-- A worker that is not in the wait list any more may try to take the mutex. -/
theorem Orderly.notMem (ho : Orderly ws h) (hw : ws[i]? = some (some w)) (htry : w.Tries N h w' p) :
    w.name ∉ h.cond := by
  intro hmem
  have hwait := (ho.waits i w hw hmem).1
  cases htry <;> simp_all

/-- A step that leaves the buffer and the wait list alone. -/
theorem Orderly.set (ho : Orderly ws h) (hw : ws[i]? = some (some w))
    (harg : w'.name = w.name ∧ w'.delta = w.delta) (hcond : h'.cond = h.cond)
    (hcount : h'.count = h.count) (hwait : w.name ∈ h.cond → w'.point = .wait)
    (hblocked : w'.point = .blocked → w'.enabled h' = false)
    (henter : w'.point = .enter → h'.cond = []) : Orderly (ws.set i (some w')) h' := by
  have henabled : ∀ {v v' : Worker}, v'.delta = v.delta → v'.enabled h' = v.enabled h := by
    intro v v' hdelta
    rw [Worker.enabled, Worker.enabled, hcount, hdelta]
  refine ⟨hcond ▸ ho.short, ?_, ?_, ?_, ?_⟩
  · intro t ht
    obtain ⟨j, v, hv, hname⟩ := ho.listed t (hcond ▸ ht)
    rcases eq_or_ne i j with rfl | hne
    · refine ⟨i, w', List.getElem?_set_self (List.getElem?_eq_some_iff.mp hw).1, ?_⟩
      cases hw.symm.trans hv
      exact harg.1.trans hname
    · exact ⟨j, v, by rw [List.getElem?_set_ne hne]; exact hv, hname⟩
  · intro j v hv hmem
    rcases getElem?_set_cases hv with ⟨rfl, hsame⟩ | ⟨-, hother⟩
    · cases hsame
      rw [hcond, harg.1] at hmem
      exact ⟨hwait hmem, (henabled harg.2).trans (ho.waits j w hw hmem).2⟩
    · obtain ⟨hpoint, he⟩ := ho.waits j v hother (hcond ▸ hmem)
      exact ⟨hpoint, (henabled rfl).trans he⟩
  · intro j v hv hp
    rcases getElem?_set_cases hv with ⟨rfl, hsame⟩ | ⟨-, hother⟩
    · cases hsame
      exact hblocked hp
    · exact (henabled rfl).trans (ho.blocked j v hother hp)
  · intro j v hv hp
    rcases getElem?_set_cases hv with ⟨rfl, hsame⟩ | ⟨-, hother⟩
    · cases hsame
      exact henter hp
    · rw [hcond]
      exact ho.enter j v hother hp

/-- A step after which nobody waits. -/
theorem Orderly.of_nil (hcond : h.cond = [])
    (hblocked : ∀ (j : Nat) (v : Worker), (ws.set i o)[j]? = some (some v) → v.point = .blocked →
      v.enabled h = false) : Orderly (ws.set i o) h := by
  refine ⟨by rw [hcond]; exact Nat.zero_le 1, ?_, ?_, hblocked, fun _ _ _ _ => hcond⟩
  · intro t ht
    rw [hcond] at ht
    cases ht
  · intro j v hv ht
    rw [hcond] at ht
    cases ht

/-- One worker at a time is inside. -/
theorem Crew.not_inside (hc : Crew N T_p T_c m ws h) (hw : ws[i]? = some (some w))
    (hin : w.inside = true) (hv : ws[j]? = some (some v)) (hne : i ≠ j) : ¬ v.inside = true := by
  intro hin'
  have := hc.reached.safe.unique _ _ w v (hc.worker hw) (hc.worker hv) hin hin'
  omega

/-- Of a producer and a consumer one can proceed. -/
theorem Crew.enabled_of_ne (hc : Crew N T T m ws h) (hT : T ≤ 1) (hw : ws[i]? = some (some w))
    (hv : ws[j]? = some (some v)) (hne : i ≠ j) (he : w.enabled h = false) :
    v.enabled h = true := by
  have hi : i < T + T := hc.length ▸ (List.getElem?_eq_some_iff.mp hw).1
  have hj : j < T + T := hc.length ▸ (List.getElem?_eq_some_iff.mp hv).1
  obtain ⟨hzero, hone⟩ := hc.reached.safe.room
  have hdw := (hc.arguments i w hw).2
  have hdv := (hc.arguments j v hv).2
  simp only [Worker.enabled, decide_eq_true_eq, decide_eq_false_iff_not] at he ⊢
  rw [hdw] at he
  rw [hdv]
  rw [workerOf] at he ⊢
  split at he <;> split <;> simp only at he ⊢ <;> omega

/-- A worker that is elsewhere than the one that moved has not moved. -/
theorem of_set_point (hv : (ws.set i (some w'))[j]? = some (some v)) (hp : v.point ≠ w'.point) :
    j ≠ i ∧ ws[j]? = some (some v) := by
  rcases getElem?_set_cases hv with ⟨-, hsame⟩ | hother
  · cases hsame
    exact absurd rfl hp
  · exact hother

/-- A step keeps the order, if there are at most two workers. -/
theorem Orderly.step (ho : Orderly ws h) (hc : Crew N T T m ws h) (hT : T ≤ 1 ∨ N = 0)
    (hw : ws[i]? = some (some w)) (hstep : w.Step N h w' h') :
    Orderly (ws.set i (some w')) h' := by
  have harg := hstep.arguments
  cases hstep with
  | spin htry hmutex =>
      refine ho.set hw harg rfl rfl (fun hmem => absurd hmem (ho.notMem hw htry)) ?_ ?_ <;>
        cases htry <;> exact fun hp => by cases hp
  | block htry hmutex he =>
      exact ho.set hw harg rfl rfl (fun hmem => absurd hmem (ho.notMem hw htry)) (fun _ => he)
        fun hp => by cases hp
  | signal htry hmutex he hcond =>
      exact ho.set hw harg rfl rfl (fun hmem => absurd hmem (ho.notMem hw htry))
        (fun hp => by cases hp) fun hp => by cases hp
  | enter htry hmutex he hcond =>
      exact ho.set hw harg rfl rfl (fun hmem => absurd hmem (ho.notMem hw htry))
        (fun hp => by cases hp) fun _ => hcond
  | asleep hp hcond =>
      exact ho.set hw harg rfl rfl (fun _ => rfl) (fun hp => by cases hp) fun hp => by cases hp
  | sleep hp =>
      -- two workers that cannot proceed are both producers or both consumers
      have hN : N ≠ 0 := by
        rintro rfl
        rcases hc.reached.safe.running _ w (hc.worker hw) with ⟨hs, -⟩ | ⟨-, hlt⟩
        · simp [hp] at hs
        · exact Nat.not_lt_zero _ hlt
      have he := ho.blocked i w hw hp
      have hnil : h.cond = [] := by
        refine List.eq_nil_iff_forall_not_mem.mpr fun t ht => ?_
        obtain ⟨j, v, hv, rfl⟩ := ho.listed t ht
        obtain ⟨hwait, hoff⟩ := ho.waits j v hv ht
        have hne : i ≠ j := by
          rintro rfl
          cases hw.symm.trans hv
          rw [hp] at hwait
          cases hwait
        have hon := hc.enabled_of_ne (hT.resolve_right hN) hw hv hne he
        rw [hoff] at hon
        cases hon
      have hlt := (List.getElem?_eq_some_iff.mp hw).1
      refine ⟨by simp [hnil], ?_, ?_, ?_, ?_⟩
      · intro t ht
        rw [hnil] at ht
        cases List.mem_singleton.mp ht
        exact ⟨i, _, List.getElem?_set_self hlt, rfl⟩
      · intro j v hv hmem
        rw [hnil] at hmem
        have hname : v.name = w.name := List.mem_singleton.mp hmem
        rcases getElem?_set_cases hv with ⟨rfl, hsame⟩ | ⟨hne, hother⟩
        · cases hsame
          exact ⟨rfl, he⟩
        · have hsame : (workerOf T j).name = (workerOf T i).name := by
            rw [← (hc.arguments j v hother).1, ← (hc.arguments i w hw).1, hname]
          exact absurd (workerOf_name_inj hsame) hne
      · intro j v hv hpoint
        exact ho.blocked j v (of_set_point hv (by simp [hpoint, Worker.at])).2 hpoint
      · intro j v hv hpoint
        obtain ⟨hne, hother⟩ := of_set_point hv (by simp [hpoint, Worker.at])
        exact absurd (by simp only [Worker.inside, hpoint])
          (hc.not_inside hw (by simp only [Worker.inside, hp]) hother hne.symm)
  | @wake cond t hp ht =>
      have hcond : h.cond.erase t = [] := by
        have hlen := List.length_erase_of_mem ht
        have hshort := ho.short
        exact List.eq_nil_of_length_eq_zero (by omega)
      exact Orderly.of_nil hcond fun j v hv hpoint =>
        ho.blocked j v (of_set_point hv (by simp [hpoint, Worker.at])).2 hpoint
  | act hp =>
      refine Orderly.of_nil (ho.enter i w hw hp) fun j v hv hpoint => ?_
      obtain ⟨hne, hother⟩ := of_set_point hv (by simp [hpoint, Worker.at])
      exact absurd (by simp only [Worker.inside, hpoint])
        (hc.not_inside hw (by simp only [Worker.inside, hp]) hother hne.symm)

theorem Orderly.done (ho : Orderly ws h) (hw : ws[i]? = some (some w)) (hdone : w.Done N) :
    Orderly (ws.set i none) h := by
  have hold :
      ∀ {j : Nat} {v : Worker}, (ws.set i none)[j]? = some (some v) → ws[j]? = some (some v) := by
    intro j v hv
    rcases getElem?_set_cases hv with ⟨-, hsame⟩ | ⟨-, hother⟩
    · cases hsame
    · exact hother
  refine ⟨ho.short, ?_, fun j v hv => ho.waits j v (hold hv),
    fun j v hv => ho.blocked j v (hold hv), fun j v hv => ho.enter j v (hold hv)⟩
  intro t ht
  obtain ⟨j, v, hv, rfl⟩ := ho.listed t ht
  have hne : i ≠ j := by
    rintro rfl
    cases hw.symm.trans hv
    have hwait := (ho.waits i w hw ht).1
    rcases hdone with ⟨hp, -⟩ | ⟨hp, -⟩ <;> rw [hp] at hwait <;> cases hwait
  exact ⟨j, v, by rw [List.getElem?_set_ne hne]; exact hv, rfl⟩

theorem start_of_fresh (hw : (freshCrew T_p T_c)[i]? = some (some w)) : w.point = .start := by
  rw [freshCrew, List.getElem?_map, Option.map_eq_some_iff] at hw
  obtain ⟨k, -, hw⟩ := hw
  cases hw
  exact workerOf_start T_p k

theorem orderly_fresh (T_p T_c : Nat) : Orderly (freshCrew T_p T_c) startHeap := by
  refine ⟨Nat.zero_le 1, (fun _ ht => by cases ht), (fun _ _ _ ht => by cases ht), ?_,
    fun _ _ _ _ => rfl⟩
  intro j v hv hp
  rw [start_of_fresh hv] at hp
  cases hp

/-- What a worker still adds to the buffer. -/
def restOf (N : Nat) : Option Worker → Int
  | some w => w.rest N
  | none => 0

theorem Crew.items (hc : Crew N T_p T_c m ws h) :
    h.count + (ws.map (restOf N)).sum = N * (T_p - T_c) := by
  have hrest : m.sys.threads.map (threadRest N T_p T_c) =
      (m.sys.threads.map fun th => gen? th.context).map fun g =>
        threadRest N T_p T_c ⟨g.elim .finished .suspended, 0⟩ := by
    rw [List.map_map]
    refine List.map_congr_left fun th _ => ?_
    rw [Function.comp_apply, threadRest, threadRest]
    cases th.context <;> rfl
  have hworkers : (ws.map (Option.map Gen.worker)).map (fun g =>
      threadRest N T_p T_c ⟨g.elim .finished .suspended, 0⟩) = ws.map (restOf N) := by
    rw [List.map_map]
    refine List.map_congr_left fun o _ => ?_
    cases o <;> rfl
  have hitems := hc.reached.safe.items
  rw [total, hrest, hc.gens, List.map_cons, hworkers, List.sum_cons] at hitems
  simpa [threadRest, gen?] using hitems

/-- The rounds that a worker has not made. -/
def Worker.left (N : Nat) (w : Worker) : Nat :=
  match w.point with
  | .leave => N - (w.round + 1)
  | _ => N - w.round

/-- A bound on the moves that a worker needs. -/
def Worker.weight (N : Nat) (w : Worker) : Nat :=
  5 * w.left N +
    match w.point with
    | .blocked => 4
    | .signal _ => 2
    | .enter => 1
    | _ => 3

/-- The bound for all workers. -/
def weight (N : Nat) (ws : List (Option Worker)) : Nat :=
  (ws.map fun o => o.elim 0 (Worker.weight N)).sum

theorem weight_set_lt (hw : ws[i]? = some (some w)) (ho : o.elim 0 (Worker.weight N) < w.weight N) :
    weight N (ws.set i o) < weight N ws := by
  have hsum := sum_map_set (fun o => Option.elim o 0 (Worker.weight N)) hw o
  simp only [Option.elim_some] at hsum
  rw [weight, weight]
  omega

theorem Worker.Tries.weight (htry : w.Tries N h w' p) :
    (w'.at .enter).weight N < w.weight N := by
  cases htry <;> simp_all [Worker.weight, Worker.left, Worker.at]

/-- A worker outside that is not in the wait list tries to take the mutex or returns. -/
theorem Worker.tries_or_done (hout : w.inside = false) (hcond : w.name ∉ h.cond) :
    (∃ w' p, w.Tries N h w' p) ∨ w.Done N := by
  cases hp : w.point with
  | start =>
      rcases Nat.lt_or_ge w.round N with hN | hN
      · exact .inl ⟨_, _, .start hp hN⟩
      · exact .inr (.inl ⟨hp, hN⟩)
  | lock => exact .inl ⟨_, _, .lock hp⟩
  | wait => exact .inl ⟨_, _, .woken hp hcond⟩
  | relock => exact .inl ⟨_, _, .relock hp⟩
  | leave =>
      rcases Nat.lt_or_ge (w.round + 1) N with hN | hN
      · exact .inl ⟨_, _, .next hp hN⟩
      · exact .inr (.inr ⟨hp, hN⟩)
  | blocked => simp [Worker.inside, hp] at hout
  | signal cond => simp [Worker.inside, hp] at hout
  | enter => simp [Worker.inside, hp] at hout

/-- The workers come closer to the end. -/
def Proceeds (N : Nat) (ws : List (Option Worker)) (h : Heap) : Prop :=
  ∃ ws' h', Moves N ws h ws' h' ∧ weight N ws' < weight N ws

theorem Proceeds.done (hw : ws[i]? = some (some w)) (hdone : w.Done N) : Proceeds N ws h := by
  refine ⟨_, _, .done hw hdone, weight_set_lt hw ?_⟩
  rcases hdone with ⟨hp, -⟩ | ⟨hp, -⟩ <;> simp [Worker.weight, hp]

theorem Crew.outside (hc : Crew N T_p T_c m ws h) (hmutex : h.mutex = false)
    (hw : ws[i]? = some (some w)) : w.inside = false := by
  refine Bool.eq_false_iff.mpr fun hin => ?_
  have hm := hc.reached.safe.holds _ w (hc.worker hw) hin
  rw [hmutex] at hm
  cases hm

/-- A worker that can proceed does, if nobody is inside. -/
theorem Crew.proceeds_enabled (hc : Crew N T_p T_c m ws h) (ho : Orderly ws h)
    (hmutex : h.mutex = false) (hw : ws[i]? = some (some w)) (he : w.enabled h = true) :
    Proceeds N ws h := by
  have hout := hc.outside hmutex hw
  have hcond : w.name ∉ h.cond := by
    intro hmem
    rw [(ho.waits i w hw hmem).2] at he
    cases he
  rcases Worker.tries_or_done (N := N) hout hcond with ⟨w', p, htry⟩ | hdone
  · have he' : w'.enabled h = true := by
      rw [Worker.enabled, htry.arguments.2]
      exact he
    cases hlist : h.cond with
    | nil =>
        exact ⟨_, _, .step hw (.enter htry hmutex he' hlist) (fun _ hp => by cases hp),
          weight_set_lt hw htry.weight⟩
    | cons t cond =>
        have ht : t ∈ h.cond := by
          rw [hlist]
          exact List.mem_cons_self
        exact ⟨_, _, .signal hw htry hmutex he' ht, weight_set_lt hw htry.weight⟩
  · exact .done hw hdone

/-- The worker inside proceeds. -/
theorem Crew.proceeds_inside (hc : Crew N T_p T_c m ws h) (hquiet : Quiet ws)
    (hw : ws[i]? = some (some w)) (hin : w.inside = true) : Proceeds N ws h := by
  cases hp : w.point with
  | blocked =>
      refine ⟨_, _, .step hw (.sleep hp) (fun _ hp => by cases hp), weight_set_lt hw ?_⟩
      simp [Worker.weight, Worker.left, Worker.at, hp]
  | enter =>
      refine ⟨_, _, .step hw (.act hp) (fun _ hp => by cases hp), weight_set_lt hw ?_⟩
      have hround : w.round < N := by
        have hrun := hc.reached.safe.running _ w (hc.worker hw)
        simpa [Worker.Running, hp] using hrun
      simp [Worker.weight, Worker.left, Worker.at, hp]
      omega
  | signal cond => exact absurd hp (hquiet i w cond hw)
  | _ => simp [Worker.inside, hp] at hin

/-- The last worker has made all its rounds, if it cannot proceed. -/
theorem Crew.done_of_alone (hc : Crew N T T m ws h) (hmutex : h.mutex = false)
    (hw : ws[i]? = some (some w)) (he : w.enabled h = false)
    (halone : ∀ (j : Nat) (v : Worker), ws[j]? = some (some v) → j = i) : w.Done N := by
  have hzero : ((ws.set i none).map (restOf N)).sum = 0 := by
    refine List.sum_eq_zero fun r hr => ?_
    obtain ⟨o, ho, rfl⟩ := List.mem_map.mp hr
    cases o with
    | none => rfl
    | some v =>
        obtain ⟨j, hj⟩ := List.getElem?_of_mem ho
        rcases getElem?_set_cases hj with ⟨-, hsame⟩ | ⟨hne, hother⟩
        · cases hsame
        · exact absurd (halone j v hother) hne
  have hitems : h.count + w.rest N = 0 := by
    have hsum := sum_map_set (restOf N) hw none
    have htotal := hc.items
    rw [hzero] at hsum
    simp only [restOf, zero_add, add_zero] at hsum
    rw [← hsum] at htotal
    simpa using htotal
  -- a producer would still have rounds to make
  have hcases : (w.delta = 1 ∧ h.count = 1) ∨ (w.delta = -1 ∧ h.count = 0) := by
    obtain ⟨hzero, hone⟩ := hc.reached.safe.room
    have hdelta := (hc.arguments i w hw).2
    simp only [Worker.enabled, decide_eq_false_iff_not] at he
    rw [workerOf] at hdelta
    split at hdelta
    · exact .inl ⟨hdelta, by rw [hdelta] at he; dsimp only at he; omega⟩
    · exact .inr ⟨hdelta, by rw [hdelta] at he; dsimp only at he; omega⟩
  have hout := hc.outside hmutex hw
  have hrun := hc.reached.safe.running _ w (hc.worker hw)
  cases hp : w.point with
  | start =>
      have hround : w.round = 0 := by simpa [Worker.Running, hp] using hrun
      simp only [Worker.rest, hp] at hitems
      rcases hcases with ⟨hdelta, hcount⟩ | ⟨hdelta, hcount⟩ <;> rw [hdelta, hcount] at hitems
      · omega
      · exact .inl ⟨hp, by omega⟩
  | leave =>
      have hround : w.round < N := by simpa [Worker.Running, hp] using hrun
      simp only [Worker.rest, hp] at hitems
      rcases hcases with ⟨hdelta, hcount⟩ | ⟨hdelta, hcount⟩ <;> rw [hdelta, hcount] at hitems
      · omega
      · exact .inr ⟨hp, by omega⟩
  | blocked => simp [Worker.inside, hp] at hout
  | signal cond => simp [Worker.inside, hp] at hout
  | enter => simp [Worker.inside, hp] at hout
  | _ =>
      exfalso
      have hround : w.round < N := by simpa [Worker.Running, hp] using hrun
      simp only [Worker.rest, hp] at hitems
      rcases hcases with ⟨hdelta, hcount⟩ | ⟨hdelta, hcount⟩ <;> rw [hdelta, hcount] at hitems <;>
        omega

/-- While somebody is left, somebody proceeds. -/
theorem Crew.proceeds (hc : Crew N T T m ws h) (ho : Orderly ws h) (hT : T ≤ 1 ∨ N = 0)
    (hquiet : Quiet ws) (hw : ws[i]? = some (some w)) : Proceeds N ws h := by
  cases hmutex : h.mutex with
  | true =>
      obtain ⟨j, v, hv, hin⟩ := hc.reached.safe.held hmutex
      obtain ⟨k, -, hk⟩ := hc.isWorker hv
      exact hc.proceeds_inside hquiet hk hin
  | false =>
      rcases hT with hT | rfl
      · cases he : w.enabled h with
        | true => exact hc.proceeds_enabled ho hmutex hw he
        | false =>
            by_cases halone : ∀ (j : Nat) (v : Worker), ws[j]? = some (some v) → j = i
            · exact .done hw (hc.done_of_alone hmutex hw he halone)
            · push Not at halone
              obtain ⟨j, v, hv, hne⟩ := halone
              exact hc.proceeds_enabled ho hmutex hv (hc.enabled_of_ne hT hw hv hne.symm he)
      · have hrun := hc.reached.safe.running _ w (hc.worker hw)
        rcases hrun with ⟨hp, hround⟩ | ⟨-, hlt⟩
        · exact .done hw (.inl ⟨hp, Nat.zero_le _⟩)
        · exact absurd hlt (Nat.not_lt_zero _)

end Orderly

theorem quiet_fresh : Quiet (freshCrew T_p T_c) := by
  intro i w cond hw
  rw [start_of_fresh hw]
  exact fun hp => by cases hp

/-- Every state of a run leads to one in which the scheduler may choose. -/
theorem Reachable.exists_quiet (hm : Reachable N T_p T_c m) :
    ∃ m' ws h, m.Reaches (app N T_p T_c) m' ∧ Crew N T_p T_c m' ws h ∧ Quiet ws := by
  rcases hm.crew (P := fun _ _ => True) trivial (fun _ _ _ _ _ _ _ _ _ _ _ => trivial)
    (fun _ _ _ _ _ _ _ _ _ => trivial) with rfl | ⟨k, hs⟩ | ⟨ws, h, hc, -⟩
  · obtain ⟨m', hreach, hc⟩ := init_reaches N T_p T_c
    exact ⟨m', _, _, hreach, hc, quiet_fresh⟩
  · obtain ⟨m', hreach, hc⟩ := Begun.reaches hm (.inl hs)
    exact ⟨m', _, _, hreach, hc, quiet_fresh⟩
  · by_cases hquiet : Quiet ws
    · exact ⟨m, ws, h, .refl, hc, hquiet⟩
    · -- one worker is at `sys_choose`, and wakes the first of the list
      rw [Quiet] at hquiet
      push Not at hquiet
      obtain ⟨i, w, cond, hw, hp⟩ := hquiet
      obtain ⟨hcur, x, hx, hctx⟩ := hc.reached.signal_current (hc.worker hw) hp
      obtain ⟨rfl, hne⟩ := hc.reached.chosen _ w cond (hc.worker hw) hp
      obtain ⟨t, ht⟩ := List.exists_mem_of_ne_nil _ hne
      have hcall : (app N T_p T_c).call (.worker w) = .choose (h.cond.map .str) := by
        simp only [app, hp]
      have hturn : Turn (app N T_p T_c) m m x (.str t) :=
        .choose (by rw [← hcur]; exact hx) hctx hcall (List.mem_map.mpr ⟨t, ht, rfl⟩)
      obtain ⟨m', hnext, hc', -⟩ := hc.run hw hturn hcur.symm (o := some _)
        (Worker.send_wake (N := N) hp ht) (by
          intro v hv
          cases hv
          exact ⟨rfl, rfl⟩)
      refine ⟨m', _, _, .single hnext, hc', ?_⟩
      intro j v cond hv hp'
      rcases getElem?_set_cases hv with ⟨rfl, hsame⟩ | ⟨hne', hother⟩
      · cases hsame
        cases hp'
      · have hj := (hc.reached.signal_current (hc.worker hother) hp').1
        omega

variable {T : Nat}

/-- The invariant holds in all states of a run. -/
theorem Reachable.orderly {ws : List (Option Worker)} (hT : T ≤ 1 ∨ N = 0) (hm : Reachable N T T m)
    (hc : Crew N T T m ws h) : Orderly ws h := by
  rcases hm.crew (orderly_fresh T T)
    (fun m ws h i w w' h' hc ho hw hstep => ho.step hc hT hw hstep)
    (fun m ws h i w hc ho hw hdone => ho.done hw hdone) with rfl | ⟨k, hs⟩ | ⟨ws', h', hc', ho⟩
  · cases hc.gens
  · have hgens := hc.gens
    rw [hs.threads] at hgens
    cases hgens
  · obtain ⟨rfl, rfl⟩ := hc.unique hc'
    exact ho

theorem Crew.finishes {ws : List (Option Worker)} (hT : T ≤ 1 ∨ N = 0) (hm : Reachable N T T m)
    (hc : Crew N T T m ws h) (hquiet : Quiet ws) :
    ∃ m', m.Reaches (app N T T) m' ∧ m'.sys.AllFinished := by
  -- on the weight of the workers
  induction hb : weight N ws using Nat.strong_induction_on generalizing m ws h with
  | _ b ih =>
      by_cases hall : ∀ (i : Nat) (w : Worker), ws[i]? ≠ some (some w)
      · exact ⟨m, .refl, hc.allFinished_iff.mpr hall⟩
      · push Not at hall
        obtain ⟨i, w, hw⟩ := hall
        obtain ⟨ws', h', hmove, hlt⟩ := hc.proceeds (hm.orderly hT hc) hT hquiet hw
        obtain ⟨m₁, hreach, hc₁⟩ := hc.moves hquiet hmove
        obtain ⟨m₂, hreach₂, hdone⟩ :=
          ih _ (hb ▸ hlt) (hm.trans hreach) hc₁ (hmove.quiet hquiet) rfl
        exact ⟨m₂, hreach.trans hreach₂, hdone⟩

/-- One producer and one consumer can always finish. -/
theorem Reachable.finishes (hT : T ≤ 1 ∨ N = 0) (hm : Reachable N T T m) :
    ∃ m', m.Reaches (app N T T) m' ∧ m'.sys.AllFinished := by
  obtain ⟨m₁, ws, h, hreach, hc, hquiet⟩ := hm.exists_quiet
  obtain ⟨m₂, hreach₂, hall⟩ := hc.finishes hT (hm.trans hreach) hquiet
  exact ⟨m₂, hreach.trans hreach₂, hall⟩

/-! ## Lost wakeups -/

/-- Everybody who is left sleeps. -/
def Dead (ws : List (Option Worker)) (h : Heap) : Prop :=
  (∃ (i : Nat) (w : Worker), ws[i]? = some (some w)) ∧
    ∀ (i : Nat) (w : Worker), ws[i]? = some (some w) → w.point = .wait ∧ w.name ∈ h.cond

section Dead

variable {ws : List (Option Worker)}

theorem Crew.dead_next (hc : Crew N T_p T_c m ws h) (hdead : Dead ws h)
    (hnext : m.Next (app N T_p T_c) m') : Crew N T_p T_c m' ws h := by
  obtain ⟨i, w, hw, ⟨w', h', hstep, hc'⟩ | ⟨hdone, -⟩⟩ := hc.next hnext
  · obtain ⟨hwait, hmem⟩ := hdead.2 i w hw
    have htries : ∀ {v : Worker} {p : Point}, ¬ w.Tries N h v p := by
      intro v p htry
      cases htry <;> simp_all
    cases hstep with
    | asleep =>
        have hsame : w.at .wait = w := by
          rw [Worker.at, ← hwait]
        rw [hsame] at hc'
        obtain ⟨hlt, hget⟩ := List.getElem?_eq_some_iff.mp hw
        rw [← hget, List.set_getElem_self] at hc'
        exact hc'
    | spin htry => exact absurd htry htries
    | block htry => exact absurd htry htries
    | signal htry => exact absurd htry htries
    | enter htry => exact absurd htry htries
    | sleep hp => simp [hwait] at hp
    | wake hp => simp [hwait] at hp
    | act hp => simp [hwait] at hp
  · have hwait := (hdead.2 i w hw).1
    rcases hdone with ⟨hp, -⟩ | ⟨hp, -⟩ <;> rw [hp] at hwait <;> cases hwait

/-- Sleep is for ever. -/
theorem Crew.dead_reaches (hc : Crew N T_p T_c m ws h) (hdead : Dead ws h)
    (hreach : m.Reaches (app N T_p T_c) m') : Crew N T_p T_c m' ws h := by
  induction hreach with
  | refl => exact hc
  | tail _ hnext ih => exact ih.dead_next hdead hnext

/-- Somebody is left, and everybody who is left is on the wait list of its heap. -/
def AllAsleep (threads : List (Thread Gen)) (heaps : Nat → Option Heap) : Prop :=
  (∃ i w, IsWorker threads i w) ∧
    ∀ th ∈ threads, th.context = .finished ∨
      ∃ w h, gen? th.context = some (.worker w) ∧ w.point = .wait ∧
        heaps th.heap = some h ∧ w.name ∈ h.cond

theorem Crew.allAsleep (hc : Crew N T_p T_c m ws h) (hdead : Dead ws h) :
    AllAsleep m.sys.threads m.heaps := by
  obtain ⟨⟨i, w, hw⟩, hall⟩ := hdead
  refine ⟨⟨i + 1, w, hc.worker hw⟩, fun th hth => ?_⟩
  have hheap : m.heaps th.heap = some h := by rw [hc.reached.shared th hth, hc.reached.heap]
  obtain ⟨j, hj⟩ := List.getElem?_of_mem hth
  have hgen : gen? th.context = none ∨ ∃ w, gen? th.context = some (.worker w) := by
    rcases hc.gen hj with ⟨-, hnone⟩ | ⟨i, o, -, -, hgen⟩
    · exact .inl hnone
    · cases o with
      | none => exact .inl hgen
      | some w => exact .inr ⟨w, hgen⟩
  rcases hgen with hnone | ⟨v, hv⟩
  · left
    cases hctx : th.context <;> rw [hctx] at hnone <;> first | rfl | cases hnone
  · obtain ⟨k, -, hk⟩ := hc.isWorker ⟨th, hj, hv⟩
    obtain ⟨hwait, hmem⟩ := hall k v hk
    exact .inr ⟨v, h, hv, hwait, hheap, hmem⟩

/-- The operating system of a replay shows who sleeps. -/
theorem allAsleep_rel {base : Nat} {f : Nat → Nat} {clone : Thread Gen} {w : World (Option Heap)}
    {os : OperatingSystem PyVal Gen} (hrel : Rel base f clone w os m)
    (hm : AllAsleep m.sys.threads m.heaps) : AllAsleep os.sys.threads w.heaps := by
  have hthreads : os.sys.threads = m.sys.threads.map (Thread.map f) := by
    rw [hrel.sys_eq]
    rfl
  obtain ⟨⟨i, v, hv⟩, hall⟩ := hm
  rw [hthreads]
  refine ⟨⟨i, v, isWorker_map.mpr hv⟩, List.forall_mem_map.mpr fun th hth => ?_⟩
  rcases hall th hth with hfinished | ⟨v, h, hgen, hwait, hheap, hmem⟩
  · exact .inl hfinished
  · refine .inr ⟨v, h, hgen, hwait, ?_, hmem⟩
    exact (hrel.embeds.heap_eq _ (hrel.below th hth)).trans hheap

theorem AllAsleep.not_allFinished {s : System PyVal Gen (Thread Gen)} {heaps : Nat → Option Heap}
    (h : AllAsleep s.threads heaps) : ¬ s.AllFinished := by
  obtain ⟨⟨i, w, th, hth, hgen⟩, -⟩ := h
  intro hall
  rw [hall th (List.mem_of_getElem? hth)] at hgen
  cases hgen

end Dead

/-! ## A schedule that loses a wakeup -/

/-- Workers `0` to `n - 1`. -/
def crewOf (n : Nat) (f : Nat → Option Worker) : List (Option Worker) := (List.range n).map f

/-- Any number of moves of workers `0` to `n - 1`. -/
def RunOf (N n : Nat) (f : Nat → Option Worker) (h : Heap) (f' : Nat → Option Worker) (h' : Heap) :
    Prop :=
  Run N (crewOf n f) h (crewOf n f') h'

section Schedule

variable {n i k : Nat} {f f' f'' : Nat → Option Worker} {h'' : Heap} {w w' : Worker} {p : Point}

theorem getElem?_crewOf (hi : i < n) : (crewOf n f)[i]? = some (f i) := by
  rw [crewOf, List.getElem?_map, List.getElem?_range hi, Option.map_some]

theorem crewOf_set (i : Nat) (o : Option Worker) :
    (crewOf n f).set i o = crewOf n (Function.update f i o) := by
  refine List.ext_getElem? fun j => ?_
  rw [List.getElem?_set]
  by_cases hij : i = j
  · subst hij
    rcases Nat.lt_or_ge i n with hi | hi
    · have hlen : i < (crewOf n f).length := by simpa [crewOf] using hi
      rw [if_pos rfl, if_pos hlen, getElem?_crewOf hi, Function.update_self]
    · simp [crewOf, Nat.not_lt.mpr hi]
  · rw [if_neg hij]
    rcases Nat.lt_or_ge j n with hj | hj
    · rw [getElem?_crewOf hj, getElem?_crewOf hj, Function.update_of_ne (Ne.symm hij)]
    · simp [crewOf, hj]

theorem RunOf.trans (hrun : RunOf N n f h f' h') (hrun' : RunOf N n f' h' f'' h'') :
    RunOf N n f h f'' h'' := Relation.ReflTransGen.trans hrun hrun'

theorem runOf_of_moves (hmove : Moves N (crewOf n f) h ((crewOf n f).set i (some w')) h') :
    RunOf N n f h (Function.update f i (some w')) h' := by
  rw [RunOf, ← crewOf_set]
  exact .single hmove

theorem RunOf.frame {o : Option Worker} (hrun : RunOf N n f h (Function.update f i o) h') :
    ∃ f', RunOf N n f h f' h' ∧ f' i = o ∧ ∀ j, j ≠ i → f' j = f j :=
  ⟨_, hrun, Function.update_self .., fun _ hj => Function.update_of_ne hj ..⟩

/-- A worker takes the mutex, wakes somebody, proceeds and gives the mutex back. -/
theorem runOf_round {cond : List String} (hi : i < n) (hw : f i = some w)
    (htry : w.Tries N h w' p) (hmutex : h.mutex = false) (he : w'.enabled h = true)
    (hcond : (h.cond = [] ∧ cond = []) ∨ ∃ t ∈ h.cond, cond = h.cond.erase t) :
    RunOf N n f h (Function.update f i (some (w'.at .leave)))
      ⟨false, h.count + w'.delta, cond⟩ := by
  have hget : (crewOf n f)[i]? = some (some w) := by rw [getElem?_crewOf hi, hw]
  have henter :
      RunOf N n f h (Function.update f i (some (w'.at .enter))) ⟨true, h.count, cond⟩ := by
    rcases hcond with ⟨hnil, rfl⟩ | ⟨t, ht, rfl⟩
    · have hmove := runOf_of_moves (.step hget (.enter htry hmutex he hnil) fun _ hp => by cases hp)
      rw [hnil] at hmove
      exact hmove
    · exact runOf_of_moves (.signal hget htry hmutex he ht)
  refine henter.trans ?_
  have hget' : (crewOf n (Function.update f i (some (w'.at .enter))))[i]? =
      some (some (w'.at .enter)) := by rw [getElem?_crewOf hi, Function.update_self]
  have hleave := runOf_of_moves (N := N) (h := ⟨true, h.count, cond⟩)
    (.step hget' (.act rfl) fun _ hp => by cases hp)
  rw [Function.update_idem] at hleave
  exact hleave

/-- A worker takes the mutex, cannot proceed and goes to sleep. -/
theorem runOf_sleep (hi : i < n) (hw : f i = some w) (htry : w.Tries N h w' p)
    (hmutex : h.mutex = false) (he : w'.enabled h = false) :
    RunOf N n f h (Function.update f i (some (w'.at .wait)))
      ⟨false, h.count, h.cond ++ [w'.name]⟩ := by
  have hget : (crewOf n f)[i]? = some (some w) := by rw [getElem?_crewOf hi, hw]
  refine (runOf_of_moves (.step hget (.block htry hmutex he) fun _ hp => by cases hp)).trans ?_
  have hget' : (crewOf n (Function.update f i (some (w'.at .blocked))))[i]? =
      some (some (w'.at .blocked)) := by rw [getElem?_crewOf hi, Function.update_self]
  have hsleep := runOf_of_moves (N := N) (h := { h with mutex := true })
    (.step hget' (.sleep rfl) fun _ hp => by cases hp)
  rw [Function.update_idem] at hsleep
  exact hsleep

theorem runOf_done (hi : i < n) (hw : f i = some w) (hdone : w.Done N) :
    RunOf N n f h (Function.update f i none) h := by
  have hget : (crewOf n f)[i]? = some (some w) := by rw [getElem?_crewOf hi, hw]
  rw [RunOf, ← crewOf_set]
  exact .single (.done hget hdone)

end Schedule

/-- A worker in round `k`. -/
def inRound (T_p i k : Nat) (p : Point) : Worker :=
  ⟨(workerOf T_p i).name, (workerOf T_p i).delta, k, p⟩

/-- A worker that has made `k` rounds. -/
def roundsDone (T_p i : Nat) : Nat → Worker
  | 0 => workerOf T_p i
  | k + 1 => inRound T_p i k .leave

section Rounds

variable {T n i j k : Nat} {f : Nat → Option Worker} {p : Point}

/-- A worker that tries to take the mutex for its round `k`. -/
def Starts (N T i k : Nat) (h : Heap) (w : Worker) : Prop :=
  ∃ w' p, w.Tries N h w' p ∧ ∀ p, w'.at p = inRound T i k p

theorem starts_roundsDone (hk : k < N) (h : Heap) : Starts N T i k h (roundsDone T i k) := by
  cases k with
  | zero =>
      have hround : (workerOf T i).round = 0 := by
        rw [workerOf]
        split <;> rfl
      refine ⟨_, _, .start (workerOf_start T i) (by rw [roundsDone, hround]; exact hk), ?_⟩
      intro p
      rw [roundsDone, Worker.at, inRound, hround]
  | succ k => exact ⟨_, _, .next rfl hk, fun p => rfl⟩

theorem starts_woken (hcond : (workerOf T i).name ∉ h.cond) :
    Starts N T i k h (inRound T i k .wait) := ⟨_, _, .woken rfl hcond, fun _ => rfl⟩

theorem done_roundsDone (hN : 0 < N) : (roundsDone T i N).Done N := by
  cases N with
  | zero => exact absurd hN (Nat.lt_irrefl 0)
  | succ N => exact .inr ⟨rfl, le_rfl⟩

/-- A round of a worker that can proceed. -/
theorem runOf_proceed {c : Int} {cond cond' : List String} {w : Worker} (hi : i < n)
    (hw : f i = some w) (hs : Starts N T i k ⟨false, c, cond⟩ w)
    (he : 0 ≤ c + (workerOf T i).delta ∧ c + (workerOf T i).delta ≤ 1)
    (hcond : (cond = [] ∧ cond' = []) ∨ ∃ t ∈ cond, cond' = cond.erase t) :
    RunOf N n f ⟨false, c, cond⟩ (Function.update f i (some (roundsDone T i (k + 1))))
      ⟨false, c + (workerOf T i).delta, cond'⟩ := by
  obtain ⟨w', p, htry, hat⟩ := hs
  obtain ⟨-, hdelta, -⟩ := Worker.mk.inj (hat .leave)
  have hrun := runOf_round hi hw htry rfl (by simpa [Worker.enabled, hdelta] using he) hcond
  rw [hat, hdelta] at hrun
  exact hrun

/-- A round of a worker that cannot. -/
theorem runOf_wait {c : Int} {cond : List String} {w : Worker} (hi : i < n) (hw : f i = some w)
    (hs : Starts N T i k ⟨false, c, cond⟩ w)
    (he : ¬ (0 ≤ c + (workerOf T i).delta ∧ c + (workerOf T i).delta ≤ 1)) :
    RunOf N n f ⟨false, c, cond⟩ (Function.update f i (some (inRound T i k .wait)))
      ⟨false, c, cond ++ [(workerOf T i).name]⟩ := by
  obtain ⟨w', p, htry, hat⟩ := hs
  obtain ⟨hname, hdelta, -⟩ := Worker.mk.inj (hat .leave)
  have hrun := runOf_sleep hi hw htry rfl (by simpa [Worker.enabled, hdelta] using he)
  rw [hat, hname] at hrun
  exact hrun

theorem delta_producer (hi : i < T) : (workerOf T i).delta = 1 := by rw [workerOf, if_pos hi]

theorem delta_consumer (hj : T ≤ j) : (workerOf T j).delta = -1 := by
  rw [workerOf, if_neg (Nat.not_lt.mpr hj)]

/-- A producer and a consumer take turns. -/
theorem runOf_turns (hi : i < T) (hin : i < n) (hj : T ≤ j) (hjn : j < n)
    (hfi : f i = some (workerOf T i)) (hfj : f j = some (workerOf T j)) (hk : k ≤ N) :
    ∃ f', RunOf N n f startHeap f' startHeap ∧ f' i = some (roundsDone T i k) ∧
      f' j = some (roundsDone T j k) ∧ ∀ l, l ≠ i → l ≠ j → f' l = f l := by
  have hne : i ≠ j := by omega
  induction k with
  | zero => exact ⟨f, .refl, hfi, hfj, fun _ _ _ => rfl⟩
  | succ k ih =>
      obtain ⟨g, hrun, hgi, hgj, hkeep⟩ := ih (by omega)
      obtain ⟨g₁, r₁, s₁, k₁⟩ := (runOf_proceed hin hgi
        (starts_roundsDone (N := N) (by omega) startHeap) (by simp [delta_producer hi])
        (.inl ⟨rfl, rfl⟩)).frame
      obtain ⟨g₂, r₂, s₂, k₂⟩ := (runOf_proceed hjn ((k₁ j hne.symm).trans hgj)
        (starts_roundsDone (N := N) (by omega) ⟨false, 1, []⟩) (by simp [delta_consumer hj])
        (.inl ⟨rfl, rfl⟩)).frame
      rw [delta_producer hi] at r₁
      rw [delta_consumer hj] at r₂
      refine ⟨g₂, (hrun.trans r₁).trans r₂, (k₂ i hne).trans s₁, s₂, fun l hli hlj => ?_⟩
      rw [k₂ l hlj, k₁ l hli, hkeep l hli hlj]

/-- A producer and a consumer make all their rounds. -/
theorem runOf_pair (hN : 0 < N) (hi : i < T) (hin : i < n) (hj : T ≤ j) (hjn : j < n)
    (hfi : f i = some (workerOf T i)) (hfj : f j = some (workerOf T j)) :
    ∃ f', RunOf N n f startHeap f' startHeap ∧ f' i = none ∧ f' j = none ∧
      ∀ l, l ≠ i → l ≠ j → f' l = f l := by
  have hne : i ≠ j := by omega
  obtain ⟨g, hrun, hgi, hgj, hkeep⟩ := runOf_turns hi hin hj hjn hfi hfj (le_refl N)
  obtain ⟨g₁, r₁, s₁, k₁⟩ := (runOf_done hin hgi (done_roundsDone hN)).frame
  obtain ⟨g₂, r₂, s₂, k₂⟩ :=
    (runOf_done hjn ((k₁ j hne.symm).trans hgj) (done_roundsDone hN)).frame
  refine ⟨g₂, (hrun.trans r₁).trans r₂, (k₂ i hne).trans s₁, s₂, fun l hli hlj => ?_⟩
  rw [k₂ l hlj, k₁ l hli, hkeep l hli hlj]

/-- The workers, after all pairs but the first `q` have made their rounds. -/
def firstPairs (T q i : Nat) : Option Worker :=
  if i < q ∨ (T ≤ i ∧ i < T + q) then some (workerOf T i) else none

theorem runOf_pairs (hN : 0 < N) {q : Nat} (hq : q ≤ T) :
    RunOf N (T + T) (firstPairs T T) startHeap (firstPairs T q) startHeap := by
  induction hd : T - q generalizing q with
  | zero =>
      have hqT : q = T := by omega
      rw [hqT]
      exact .refl
  | succ d ih =>
      refine (ih (q := q + 1) (by omega) (by omega)).trans ?_
      obtain ⟨g, hrun, hgp, hgc, hkeep⟩ := runOf_pair (N := N) (T := T) (n := T + T)
        (f := firstPairs T (q + 1)) (i := q) (j := T + q) hN (by omega) (by omega) (by omega)
        (by omega) (by rw [firstPairs, if_pos (.inl (by omega))])
        (by rw [firstPairs, if_pos (.inr ⟨by omega, by omega⟩)])
      have hsame : g = firstPairs T q := by
        funext i
        rcases eq_or_ne i (T + q) with rfl | hc
        · rw [hgc, firstPairs, if_neg (by omega)]
        rcases eq_or_ne i q with rfl | hp
        · rw [hgp, firstPairs, if_neg (by omega)]
        rw [hkeep i hp hc, firstPairs, firstPairs]
        exact if_congr (by omega) rfl rfl
      rw [hsame] at hrun
      exact hrun

/-- Two consumers sleep; a producer wakes the first and returns; the other producer sleeps;
the first consumer wakes the second and returns; the second sleeps again. -/
theorem runOf_lost (hT : 2 ≤ T) (hN : 0 < N) (h0 : f 0 = some (roundsDone T 0 (N - 1)))
    (h1 : f 1 = some (workerOf T 1)) (hT0 : f T = some (roundsDone T T (N - 1)))
    (hT1 : f (T + 1) = some (workerOf T (T + 1))) :
    ∃ f', RunOf N (T + T) f startHeap f'
        ⟨false, 0, [(workerOf T 1).name, (workerOf T (T + 1)).name]⟩ ∧
      f' 0 = none ∧ f' T = none ∧ f' 1 = some (inRound T 1 0 .wait) ∧
      f' (T + 1) = some (inRound T (T + 1) 0 .wait) ∧
      ∀ i, i ≠ 0 → i ≠ 1 → i ≠ T → i ≠ T + 1 → f' i = f i := by
  obtain ⟨M, rfl⟩ : ∃ M, N = M + 1 := ⟨N - 1, by omega⟩
  rw [Nat.add_sub_cancel] at h0 hT0
  have hp0 := delta_producer (T := T) (i := 0) (by omega)
  have hp1 := delta_producer (T := T) (i := 1) (by omega)
  have hc0 := delta_consumer (T := T) (j := T) le_rfl
  have hc1 := delta_consumer (T := T) (j := T + 1) (Nat.le_succ T)
  have hname : ∀ {i j}, i ≠ j → (workerOf T i).name ≠ (workerOf T j).name := by
    intro i j hij heq
    exact hij (workerOf_name_inj heq)
  -- the consumers find the buffer empty
  obtain ⟨f₁, r₁, s₁, k₁⟩ := (runOf_wait (n := T + T) (by omega) hT0
    (starts_roundsDone (N := M + 1) (by omega) startHeap) (by simp [hc0])).frame
  obtain ⟨f₂, r₂, s₂, k₂⟩ := (runOf_wait (n := T + T) (by omega) ((k₁ _ (by omega)).trans hT1)
    (starts_roundsDone (N := M + 1) (by omega) ⟨false, 0, [(workerOf T T).name]⟩)
    (by simp [hc1])).frame
  -- a producer fills the buffer, wakes the first consumer and returns
  have hf₂ : f₂ 0 = some (roundsDone T 0 M) := by rw [k₂ 0 (by omega), k₁ 0 (by omega), h0]
  obtain ⟨f₃, r₃, s₃, k₃⟩ := (runOf_proceed (n := T + T) (by omega) hf₂
    (starts_roundsDone (N := M + 1) (by omega)
      ⟨false, 0, [(workerOf T T).name, (workerOf T (T + 1)).name]⟩)
    (by simp [hp0]) (.inr ⟨(workerOf T T).name, List.mem_cons_self, rfl⟩)).frame
  obtain ⟨f₄, r₄, s₄, k₄⟩ :=
    (runOf_done (N := M + 1) (n := T + T) (h := ⟨false, 1, [(workerOf T (T + 1)).name]⟩)
    (by omega) s₃ (done_roundsDone hN)).frame
  -- the other producer finds it full
  have hf₄ : f₄ 1 = some (roundsDone T 1 0) := by
    rw [k₄ 1 (by omega), k₃ 1 (by omega), k₂ 1 (by omega), k₁ 1 (by omega), h1]
    rfl
  obtain ⟨f₅, r₅, s₅, k₅⟩ := (runOf_wait (n := T + T) (by omega) hf₄
    (starts_roundsDone (N := M + 1) (by omega) ⟨false, 1, [(workerOf T (T + 1)).name]⟩)
    (by simp [hp1])).frame
  -- the first consumer empties it, wakes the second and returns
  have hf₅ : f₅ T = some (inRound T T M .wait) := by
    rw [k₅ T (by omega), k₄ T (by omega), k₃ T (by omega), k₂ T (by omega), s₁]
  obtain ⟨f₆, r₆, s₆, k₆⟩ := (runOf_proceed (N := M + 1) (n := T + T) (by omega) hf₅
    (starts_woken (h := ⟨false, 1, [(workerOf T (T + 1)).name, (workerOf T 1).name]⟩)
      (by simp [hname (show T ≠ T + 1 by omega), hname (show T ≠ 1 by omega)]))
    (by simp [hc0]) (.inr ⟨(workerOf T (T + 1)).name, List.mem_cons_self, rfl⟩)).frame
  obtain ⟨f₇, r₇, s₇, k₇⟩ :=
    (runOf_done (N := M + 1) (n := T + T) (h := ⟨false, 0, [(workerOf T 1).name]⟩)
    (by omega) s₆ (done_roundsDone hN)).frame
  -- the second finds it empty again
  have hf₇ : f₇ (T + 1) = some (inRound T (T + 1) 0 .wait) := by
    rw [k₇ _ (by omega), k₆ _ (by omega), k₅ _ (by omega), k₄ _ (by omega), k₃ _ (by omega), s₂]
  obtain ⟨f₈, r₈, s₈, k₈⟩ := (runOf_wait (N := M + 1) (n := T + T) (by omega) hf₇
    (starts_woken (h := ⟨false, 0, [(workerOf T 1).name]⟩)
      (by simp [hname (show T + 1 ≠ 1 by omega)])) (by simp [hc1])).frame
  simp only [hp0, hc0, List.erase_cons_head, List.nil_append, List.cons_append, zero_add,
    add_neg_cancel] at r₁ r₂ r₃ r₅ r₆ r₈
  refine ⟨f₈, (((((((r₁.trans r₂).trans r₃).trans r₄).trans r₅).trans r₆).trans r₇).trans r₈),
    ?_, ?_, ?_, s₈, ?_⟩
  · rw [k₈ _ (by omega), k₇ _ (by omega), k₆ _ (by omega), k₅ _ (by omega), s₄]
  · rw [k₈ _ (by omega), s₇]
  · rw [k₈ _ (by omega), k₇ _ (by omega), k₆ _ (by omega), s₅]
  · intro i hi0 hi1 hiT hiT1
    rw [k₈ i hiT1, k₇ i hiT, k₆ i hiT, k₅ i hi1, k₄ i hi0, k₃ i hi0, k₂ i hiT1, k₁ i hiT]

end Rounds

/-- With two producers and two consumers a wakeup can be lost. -/
theorem exists_dead (hT : 2 ≤ T) (hN : 0 < N) :
    ∃ m ws h, Reachable N T T m ∧ Crew N T T m ws h ∧ Dead ws h := by
  obtain ⟨m₀, hreach₀, hc₀⟩ := init_reaches N T T
  -- all other pairs finish
  have hpairs := runOf_pairs (T := T) hN hT
  have hstart : crewOf (T + T) (firstPairs T T) = freshCrew T T := by
    refine List.map_congr_left fun i hi => ?_
    have hlt := List.mem_range.mp hi
    rw [firstPairs, if_pos (by omega)]
  -- the first two take turns up to their last round
  obtain ⟨g, hturns, hg0, hgT, hgi⟩ := runOf_turns (N := N) (T := T) (n := T + T) (i := 0)
    (j := T) (k := N - 1) (f := firstPairs T 2) (by omega) (by omega) le_rfl (by omega)
    (by rw [firstPairs, if_pos (.inl (by omega))])
    (by rw [firstPairs, if_pos (.inr ⟨le_rfl, by omega⟩)]) (by omega)
  obtain ⟨f, hlost, h0, hT0, h1, hT1, hframe⟩ := runOf_lost hT hN hg0
    (by rw [hgi 1 (by omega) (by omega), firstPairs, if_pos (.inl (by omega))]) hgT
    (by rw [hgi (T + 1) (by omega) (by omega), firstPairs, if_pos (.inr ⟨by omega, by omega⟩)])
  have hrun := (hpairs.trans hturns).trans hlost
  rw [RunOf, hstart] at hrun
  obtain ⟨m, hreach, hc⟩ := hc₀.moves_run quiet_fresh hrun
  refine ⟨m, _, _, hreach₀.trans hreach, hc, ?_, ?_⟩
  · exact ⟨1, inRound T 1 0 .wait, by rw [getElem?_crewOf (by omega), h1]⟩
  · intro i w hw
    have hlt : i < T + T := by
      have hlen := (List.getElem?_eq_some_iff.mp hw).1
      simpa [crewOf] using hlen
    rw [getElem?_crewOf hlt] at hw
    have hfi := Option.some.inj hw
    rcases eq_or_ne i 1 with rfl | hi1
    · rw [h1] at hfi
      cases hfi
      exact ⟨rfl, List.mem_cons_self⟩
    rcases eq_or_ne i (T + 1) with rfl | hiT1
    · rw [hT1] at hfi
      cases hfi
      exact ⟨rfl, List.mem_cons_of_mem _ List.mem_cons_self⟩
    rcases eq_or_ne i 0 with rfl | hi0
    · rw [h0] at hfi
      cases hfi
    rcases eq_or_ne i T with rfl | hiT
    · rw [hT0] at hfi
      cases hfi
    rw [hframe i hi0 hi1 hiT hiT1, hgi i hi0 hiT, firstPairs, if_neg (by omega)] at hfi
    cases hfi

/-- With two producers and two consumers there is a run after which everybody who is left
sleeps for ever. -/
theorem exists_asleep (hT : 2 ≤ T) (hN : 0 < N) (w : World (Option Heap)) :
    ∃ trace, (∃ x, replay (app N T T) trace.length trace w = .ok x) ∧
      ∀ rest x, replay (app N T T) (trace ++ rest).length (trace ++ rest) w = .ok x →
        AllAsleep x.2.sys.threads x.1.heaps := by
  obtain ⟨m, ws, h, hreach, hc, hdead⟩ := exists_dead hT hN
  obtain ⟨trace, hrun⟩ := (machine_reaches_iff (app N T T)).mp hreach
  obtain ⟨x, -, -, hx, -⟩ := replay_rel (app N T T) w hrun
  refine ⟨trace, ⟨x, hx⟩, fun rest x' hx' => ?_⟩
  obtain ⟨m', f, clone, hrun', hrel⟩ := replay_machine (app N T T) le_rfl hx'
  rw [run_append, hrun] at hrun'
  have hc' := hc.dead_reaches hdead ((machine_reaches_iff (app N T T)).mpr ⟨rest, hrun'⟩)
  exact allAsleep_rel hrel (hc'.allAsleep hdead)

/-- As many producers as consumers can always finish, whatever the scheduler and the waker
have chosen so far, if and only if there is at most one of each, or no round to make.
Otherwise there is a run after which everybody who is left sleeps for ever. -/
theorem condVar_finishes_iff (N T : Nat) (w : World (Option Heap)) :
    ((∀ trace x, replay (app N T T) trace.length trace w = .ok x →
      ∃ rest x', replay (app N T T) (trace ++ rest).length (trace ++ rest) w = .ok x' ∧
        x'.2.sys.AllFinished) ↔ T ≤ 1 ∨ N = 0) ∧
    (¬ (T ≤ 1 ∨ N = 0) →
      ∃ trace, (∃ x, replay (app N T T) trace.length trace w = .ok x) ∧
        ∀ rest x, replay (app N T T) (trace ++ rest).length (trace ++ rest) w = .ok x →
          AllAsleep x.2.sys.threads x.1.heaps) := by
  have hasleep (hmany : ¬ (T ≤ 1 ∨ N = 0)) :=
    exists_asleep (N := N) (T := T) (by omega) (by omega) w
  refine ⟨⟨fun hfinish => ?_, fun hT trace x hx => ?_⟩, hasleep⟩
  · by_contra hmany
    obtain ⟨trace, ⟨x, hx⟩, hall⟩ := hasleep hmany
    obtain ⟨rest, x', hx', hfinished⟩ := hfinish trace x hx
    exact (hall rest x' hx').not_allFinished hfinished
  · obtain ⟨m, -, -, hrun, -⟩ := replay_machine (app N T T) le_rfl hx
    have hm : Reachable N T T m := (machine_reaches_iff (app N T T)).mpr ⟨trace, hrun⟩
    obtain ⟨m', hreach, hall⟩ := hm.finishes hT
    obtain ⟨rest, hrest⟩ := (machine_reaches_iff (app N T T)).mp hreach
    have hboth : Machine.run (app N T T) (trace ++ rest) (Machine.init (app N T T)) = .ok m' := by
      rw [run_append, hrun]
      exact hrest
    obtain ⟨x', f, clone, hx', hrel⟩ := replay_rel (app N T T) w hboth
    refine ⟨rest, x', hx', ?_⟩
    rw [hrel.sys_eq, allFinished_map]
    exact hall

end OsCourse.Mosaic.CondVar
