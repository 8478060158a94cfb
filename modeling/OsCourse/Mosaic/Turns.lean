import OsCourse.Mosaic.Final
import Mathlib

/-!
# Turns

A step of the machine is a turn: the current thread has yielded a call, the action of
the call is performed, and a thread runs on with a result.  `Turn` lists what can happen
in a valid state, one constructor for each call.  `step_turn` finds the turn of a step,
and `exists_step` finds a step for a turn.

Proofs about applications go by turns: `run_turns` is the rule for an invariant of all
reachable states, and `total` is a sum over all threads, of which a turn changes one
summand.
-/

namespace OsCourse.Mosaic

variable {V G H L S : Type}

/-- The Python values of the example applications. -/
inductive PyVal where
  /-- `None`. -/
  | none
  /-- An integer. -/
  | int (i : Int)
  /-- A text. -/
  | str (s : String)
deriving DecidableEq

instance : PyValue PyVal where
  none := .none
  int := .int
  str
    | .none => "None"
    | .int i => toString i
    | .str s => s

/-! ## Sums over threads -/

/-- The sum of the weights of all threads. -/
def total (f : Thread G → Int) (threads : List (Thread G)) : Int := (threads.map f).sum

theorem total_append (f : Thread G → Int) (threads : List (Thread G)) (th : Thread G) :
    total f (threads ++ [th]) = total f threads + f th := by
  rw [total, total, List.map_append, List.sum_append, List.map_singleton, List.sum_singleton]

/-- A change of one element changes one summand. -/
theorem sum_map_set {α M : Type} [AddCommMonoid M] (f : α → M) {l : List α} {i : Nat} {x : α}
    (hx : l[i]? = some x) (y : α) : ((l.set i y).map f).sum + f x = (l.map f).sum + f y := by
  induction l generalizing i with
  | nil => cases hx
  | cons z l ih =>
      cases i with
      | zero =>
          cases hx
          simp only [List.set_cons_zero, List.map_cons, List.sum_cons]
          abel
      | succ i =>
          have hrest := ih hx
          simp only [List.set_cons_succ, List.map_cons, List.sum_cons, add_assoc, hrest]

theorem total_modify (f : Thread G → Int) {threads : List (Thread G)} {tid : Nat} {th : Thread G}
    (h : threads[tid]? = some th) (g : Thread G → Thread G) :
    total f (threads.modify tid g) = total f threads - f th + f (g th) := by
  have hset : threads.modify tid g = threads.set tid (g th) := by
    rw [List.modify_eq_set_getElem?, h]
    rfl
  have hsum := sum_map_set f h (g th)
  rw [hset, total, total]
  linarith

/-! ## Turns -/

section Turn

variable [DecidableEq V] [PyValue V] (app : App V G H L S)

/-- A thread that leaves the choice of the next thread to the scheduler. -/
def Context.Yielded (c : Context G) : Prop :=
  c = .finished ∨ ∃ g, c = .suspended g ∧ app.call g = .sched

/-- What can happen next in a state: the state after the action, the thread that runs on,
and the value that it receives. -/
inductive Turn (m : Machine V G H) : Machine V G H → Thread G → V → Prop where
  | start {th : Thread G} {g : G} (hth : m.sys.threads[m.sys.current]? = some th)
      (hg : th.context = .fresh g) : Turn m m th PyValue.none
  | switch {parent th : Thread G} {tid : Nat}
      (hparent : m.sys.threads[m.sys.current]? = some parent)
      (hyield : parent.context.Yielded app) (hth : m.sys.threads[tid]? = some th)
      (halive : th.context.alive = true) :
      Turn m { m with sys := (m.sys.switchTo tid).2 } th (m.sys.switchTo tid).1
  | spawn {th : Thread G} {g child : G} (hth : m.sys.threads[m.sys.current]? = some th)
      (hg : th.context = .suspended g) (hcall : app.call g = .spawn child) :
      Turn m { m with
        sys := { m.sys with threads := m.sys.threads ++ [⟨.fresh child, th.heap⟩] } }
        th PyValue.none
  | fork {th : Thread G} {g : G} (hth : m.sys.threads[m.sys.current]? = some th)
      (hg : th.context = .suspended g) (hcall : app.call g = .fork) :
      Turn m
        { sys := { m.sys with
            threads := m.sys.threads ++ [⟨th.context, m.count⟩]
            newfork := insert m.sys.threads.length m.sys.newfork }
          heaps := Function.update m.heaps m.count (m.heaps th.heap)
          count := m.count + 1 }
        th (PyValue.int (1000 + (m.sys.threads.length + 1)))
  | choose {th : Thread G} {g : G} {choices : List V} {c : V}
      (hth : m.sys.threads[m.sys.current]? = some th) (hg : th.context = .suspended g)
      (hcall : app.call g = .choose choices) (hc : c ∈ choices) : Turn m m th c
  | write {th : Thread G} {g : G} {args : List V}
      (hth : m.sys.threads[m.sys.current]? = some th) (hg : th.context = .suspended g)
      (hcall : app.call g = .write args) :
      Turn m { m with sys := { m.sys with stdout := m.sys.stdout ++ joinArgs args } } th
        PyValue.none
  | device {th : Thread G} {g : G} {call : Call V} {choice : Label} {r : V × Storage V}
      (hth : m.sys.threads[m.sys.current]? = some th) (hg : th.context = .suspended g)
      (hcall : app.call g = .device call) (hr : perform m.sys.storage (call, choice) = some r) :
      Turn m { m with sys := { m.sys with storage := r.2 } } th r.1

/-- The rest of a step after a turn. -/
def Machine.Continues (m mid : Machine V G H) (th : Thread G) (res : V) : Prop :=
  mid.sys.thread mid.sys.current = .ok th ∧
    ∃ r, resume app (mid.heaps th.heap) res th.context = .ok r ∧
      mid.afterRun app mid.sys th r = .ok m

omit [DecidableEq V] in
theorem current_switchTo {T : Type} (s : System V G T) (tid : Nat) :
    (s.switchTo tid).2.current = tid := by
  rw [System.switchTo]
  split <;> rfl

variable {m mid m' : Machine V G H} {th : Thread G} {res : V} {choice : Label} {e : Fault}
  {trace : List Label}

theorem Turn.thread (h : Turn app m mid th res) : mid.sys.threads[mid.sys.current]? = some th := by
  cases h with
  | switch hparent hyield hth =>
      dsimp only
      rw [current_switchTo, threads_switchTo]
      exact hth
  | spawn hth | fork hth => exact getElem?_concat_eq_some.mpr (.inl hth)
  | _ => assumption

/-- A thread that has not yielded keeps the processor. -/
theorem Turn.current {parent : Thread G} (h : Turn app m mid th res)
    (hparent : m.sys.threads[m.sys.current]? = some parent)
    (hyield : ¬ parent.context.Yielded app) : mid.sys.current = m.sys.current := by
  cases h with
  | switch hparent' hyield' =>
      cases hparent.symm.trans hparent'
      exact absurd hyield' hyield
  | _ => rfl

theorem Machine.Continues.current (h : m.Continues app mid th res) :
    m.sys.current = mid.sys.current := by
  obtain ⟨-, r, -, hrun⟩ := h
  cases r with
  | raises => cases hrun
  | returns x => cases hrun; rfl
  | yields g x => cases hrun; rfl

/-- A step up to the resumption is a turn. -/
theorem advance_turn (hm : m.Valid app) {a : Action V G Unit} {sys : System V G Unit}
    (hadv : m.sys.advance (fun parent _ => ⟨parent.context, m.count⟩) choice =
      .ok (a, res, sys, th)) :
    Turn app m { m.afterAction a with sys := sys } th res := by
  obtain ⟨parent, hp, hget, hact, hth⟩ := advance_valid app hm hadv
  have hp' := thread_eq_ok.mp hp
  -- a switch, from a thread that has returned or that is at `sys_sched`
  have hswitch : ∀ tid x, a = .switch tid → m.sys.threads[tid]? = some x →
      x.context.alive = true → parent.context.Yielded app →
      Turn app m { m.afterAction a with sys := sys } th res := by
    rintro tid x rfl hx halive hyield
    rw [System.act, thread_eq_ok.mpr hx] at hact
    have hpair : m.sys.switchTo tid = (res, sys) := Except.ok.inj hact
    have hcur := current_switchTo m.sys tid
    have hthreads := threads_switchTo m.sys tid
    have hturn := Turn.switch hp' hyield hx halive
    rw [hpair] at hturn hcur hthreads
    rw [thread_eq_ok, hcur, hthreads, hx] at hth
    cases hth
    exact hturn
  have hcurrent : (∀ tid, a ≠ .switch tid) → th = parent := fun ha =>
    Except.ok.inj (hth.symm.trans (thread_act ha hp hact))
  have hone {label : String} {a' : Action V G Unit} (ha' : ∀ tid, a' ≠ .switch tid)
      (hget : (oneChoice label a').get? choice = some a) : a = a' ∧ th = parent := by
    obtain ⟨-, rfl⟩ := get?_oneChoice.mp hget
    exact ⟨rfl, hcurrent ha'⟩
  cases hctx : parent.context with
  | fresh g =>
      rw [hctx] at hget
      obtain ⟨rfl, rfl⟩ := hone (by simp) hget
      cases hact
      exact .start hp' hctx
  | finished =>
      rw [hctx] at hget
      obtain ⟨tid, x, ha, hx, halive⟩ := sched_switch hget
      exact hswitch tid x ha hx halive (.inl hctx)
  | suspended g =>
      rw [hctx, System.offered] at hget
      cases hcall : app.call g with
      | sched =>
          rw [hcall] at hget
          obtain ⟨tid, x, ha, hx, halive⟩ := sched_switch hget
          exact hswitch tid x ha hx halive (.inr ⟨g, hctx, hcall⟩)
      | spawn child =>
          rw [hcall] at hget
          obtain ⟨rfl, rfl⟩ := hone (by simp) hget
          rw [System.act, hp] at hact
          cases hact
          exact .spawn hp' hctx hcall
      | fork =>
          rw [hcall] at hget
          obtain ⟨rfl, rfl⟩ := hone (by simp) hget
          cases hact
          rw [afterAction_fork hp]
          simp only [List.length_append, List.length_singleton, Nat.add_sub_cancel]
          exact .fork hp' hctx hcall
      | choose choices =>
          rw [hcall] at hget
          have hmem := Dict.get?_ofList_some hget
          simp only [List.mem_map, Prod.mk.injEq] at hmem
          obtain ⟨c, hc, -, rfl⟩ := hmem
          cases hcurrent fun tid ha => by cases ha
          cases hact
          exact .choose hp' hctx hcall hc
      | write args =>
          rw [hcall] at hget
          obtain ⟨rfl, rfl⟩ := hone (by simp) hget
          cases hact
          exact .write hp' hctx hcall
      | device call =>
          rw [hcall, System.handler, Dict.get?_mapValues, Option.map_eq_some_iff] at hget
          obtain ⟨act, hact', rfl⟩ := hget
          have hperform : perform m.sys.storage (call, choice) = some (act m.sys.storage) := by
            rw [perform, hact', Option.map_some]
          cases hcurrent fun tid ha => by cases ha
          cases hact
          exact .device hp' hctx hcall hperform

/-- Every step of a valid state is a turn. -/
theorem step_turn (hm : m.Valid app) (h : m.step app choice = .ok m') :
    ∃ mid th res, Turn app m mid th res ∧ m'.Continues app mid th res := by
  obtain ⟨⟨a, res, sys, th⟩, hadv, hrest⟩ := bind_ok h
  obtain ⟨r, hr, hrun⟩ := bind_ok hrest
  obtain ⟨-, -, -, -, hth⟩ := advance_valid app hm hadv
  refine ⟨_, _, _, advance_turn app hm hadv, hth, r, hr, ?_⟩
  rw [← hrun]
  cases r <;> rfl

/-- In a valid state only a choice that is not offered fails before the resumption. -/
theorem advance_error (hm : m.Valid app)
    (h : m.sys.advance (fun parent _ => ⟨parent.context, m.count⟩) choice = .error e) :
    e = .keyError := by
  obtain ⟨parent, hp, hcs⟩ := hm.offers
  rw [System.advance, hp] at h
  simp only [bind, Except.bind, switchTo_current app hm.forksWait, System.lookup, hcs] at h
  cases hget : (m.sys.offered app parent.context).get? choice with
  | none =>
      rw [hget] at h
      exact (Except.error.inj h).symm
  | some a =>
      rw [hget] at h
      have hact : ∃ res sys, m.sys.act (fun _ => ⟨parent.context, m.count⟩) a = .ok (res, sys) ∧
          ∃ th, sys.thread sys.current = .ok th := by
        rcases offered_cases app hget with ⟨rfl, -⟩ | ⟨tid, x, rfl, -, hx, -⟩ | ⟨-, hswitch, -⟩
        · have hok : ∃ r, m.sys.act (fun _ => ⟨parent.context, m.count⟩) (.fork ()) = .ok r :=
            ⟨_, rfl⟩
          obtain ⟨r, hr⟩ := hok
          have hno : ∀ tid, (.fork () : Action V G Unit) ≠ .switch tid := fun tid ha => by cases ha
          exact ⟨r.1, r.2, hr, parent, thread_act hno hp hr⟩
        · have hok : m.sys.act (fun _ => ⟨parent.context, m.count⟩) (.switch tid) =
              .ok (m.sys.switchTo tid) := by
            rw [System.act, thread_eq_ok.mpr hx]
            rfl
          refine ⟨(m.sys.switchTo tid).1, (m.sys.switchTo tid).2, hok, x, ?_⟩
          rw [current_switchTo, thread_eq_ok, threads_switchTo, hx]
        · have hok : ∃ r, m.sys.act (fun _ => ⟨parent.context, m.count⟩) a = .ok r := by
            cases a with
            | switch tid => exact absurd rfl (hswitch tid)
            | spawn child =>
                rw [System.act, hp]
                exact ⟨_, rfl⟩
            | _ => exact ⟨_, rfl⟩
          obtain ⟨r, hr⟩ := hok
          exact ⟨r.1, r.2, hr, parent, thread_act hswitch hp hr⟩
      obtain ⟨res, sys, hact, th, hth⟩ := hact
      simp only [hact, hth] at h
      cases h

/-- In a valid state a choice that is offered fails only in the application. -/
theorem step_error (hm : m.Valid app) (h : m.step app choice = .error e) :
    e = .keyError ∨ ∃ mid th res, Turn app m mid th res ∧
      mid.sys.thread mid.sys.current = .ok th ∧
      (resume app (mid.heaps th.heap) res th.context = .error e ∨
        resume app (mid.heaps th.heap) res th.context = .ok .raises) := by
  rw [Machine.step] at h
  cases hadv : m.sys.advance (fun parent _ => ⟨parent.context, m.count⟩) choice with
  | error e' =>
      rw [hadv] at h
      cases h
      exact .inl (advance_error app hm hadv)
  | ok x =>
      obtain ⟨a, res, sys, th⟩ := x
      obtain ⟨-, -, -, -, hth⟩ := advance_valid app hm hadv
      refine .inr ⟨_, _, _, advance_turn app hm hadv, hth, ?_⟩
      rw [hadv] at h
      simp only [bind, Except.bind] at h
      cases hr : resume app ((m.afterAction a).heaps th.heap) res th.context with
      | error e' =>
          rw [hr] at h
          cases h
          exact .inl rfl
      | ok r =>
          rw [hr] at h
          cases r with
          | raises => exact .inr rfl
          | returns x => cases h
          | yields g x => cases h

/-- A step, for some choice. -/
def Machine.Next (m m' : Machine V G H) : Prop := ∃ choice, m.step app choice = .ok m'

/-- Any number of steps. -/
def Machine.Reaches : Machine V G H → Machine V G H → Prop :=
  Relation.ReflTransGen (Machine.Next app)

theorem machine_reaches_iff :
    m.Reaches app m' ↔ ∃ trace, Machine.run app trace m = .ok m' := by
  constructor
  · intro h
    induction h using Relation.ReflTransGen.head_induction_on with
    | refl => exact ⟨[], rfl⟩
    | head hstep _ ih =>
        obtain ⟨c, hc⟩ := hstep
        obtain ⟨trace, htrace⟩ := ih
        refine ⟨c :: trace, ?_⟩
        rw [Machine.run, hc]
        exact htrace
  · rintro ⟨trace, h⟩
    induction trace generalizing m with
    | nil =>
        cases h
        exact .refl
    | cons c trace ih =>
        obtain ⟨m₁, hstep, hrest⟩ := bind_ok h
        exact .head ⟨c, hstep⟩ (ih hrest)

/-- The rule for an invariant of all reachable states. -/
theorem run_turns {P : Machine V G H → Prop} (hinit : P (Machine.init app))
    (hturn : ∀ m mid th res m', m.Valid app → P m → Turn app m mid th res →
      m'.Continues app mid th res → P m') (h : Machine.run app trace (Machine.init app) = .ok m) :
    m.Valid app ∧ P m := by
  have hrun : ∀ (trace : List Label) (m m' : Machine V G H), m.Valid app ∧ P m →
      Machine.run app trace m = .ok m' → m'.Valid app ∧ P m' := by
    intro trace
    induction trace with
    | nil =>
        rintro m m' hm h
        cases h
        exact hm
    | cons c trace ih =>
        rintro m m' ⟨hvalid, hm⟩ h
        obtain ⟨m₁, hstep, hrest⟩ := bind_ok h
        obtain ⟨mid, th, res, ht, hcont⟩ := step_turn app hvalid hstep
        exact ih m₁ m' ⟨step_valid app hvalid hstep, hturn m mid th res m₁ hvalid hm ht hcont⟩ hrest
  exact hrun trace _ m ⟨valid_init app, hinit⟩ h

/-- A run fails at one of its steps. -/
theorem run_error (h : Machine.run app trace m = .error e) :
    ∃ done choice m', Machine.run app done m = .ok m' ∧ m'.step app choice = .error e := by
  induction trace generalizing m with
  | nil => cases h
  | cons c trace ih =>
      cases hstep : m.step app c with
      | error e' =>
          rw [Machine.run, hstep] at h
          cases h
          exact ⟨[], c, m, rfl, hstep⟩
      | ok m₁ =>
          rw [Machine.run, hstep] at h
          obtain ⟨done, choice, m', hdone, herr⟩ := ih h
          refine ⟨c :: done, choice, m', ?_, herr⟩
          rw [Machine.run, hstep]
          exact hdone

/-- A replay fails as the run of the machine does. -/
theorem machine_error {n : Nat} (hn : trace.length ≤ n) {w : World H}
    (h : replay app n trace w = .error e) :
    Machine.run app trace (Machine.init app) = .error e := by
  have hfit := replay_fits app n [] rfl trace w hn
  have hx : replayWith app (sysFork app n) [] trace (create app w).1 (create app w).2 =
      .error e := h
  rw [hx] at hfit
  cases hr : Machine.run app trace (Machine.init app) with
  | error e' =>
      rw [hr] at hfit
      exact congrArg Except.error (Except.error.inj hfit).symm
  | ok m =>
      rw [hr] at hfit
      obtain ⟨_, _, _, _, hok, -⟩ := hfit
      cases hok

/-- Threads that are not running wait for the scheduler, or have just been forked. -/
def System.OthersWait {T : Type} (s : System V G T) : Prop :=
  ∀ i th g, i ≠ s.current → s.threads[i]? = some th → th.context = .suspended g →
    app.call g = .sched ∨ app.call g = .fork

theorem othersWait_turn (h : m.sys.OthersWait app) (hturn : Turn app m mid th res)
    (hcont : m'.Continues app mid th res) : m'.sys.OthersWait app := by
  have hmid : mid.sys.OthersWait app := by
    cases hturn with
    | start => exact h
    | @switch parent th tid hp hyield hx halive =>
        intro i x g hne hi hg
        dsimp only at hne hi
        rw [current_switchTo] at hne
        rw [threads_switchTo] at hi
        rcases eq_or_ne i m.sys.current with rfl | hother
        · cases hi.symm.trans hp
          rcases hyield with hdone | ⟨g', hg', hcall⟩
          · rw [hdone] at hg
            cases hg
          · rw [hg'] at hg
            cases hg
            exact .inl hcall
        · exact h i x g hother hi hg
    | spawn hp hg hcall =>
        intro i x g' hne hi hg'
        rcases getElem?_concat_eq_some.mp hi with hi | ⟨-, rfl⟩
        · exact h i x g' hne hi hg'
        · cases hg'
    | @fork th g hp hg hcall =>
        intro i x g' hne hi hg'
        rcases getElem?_concat_eq_some.mp hi with hi | ⟨-, rfl⟩
        · exact h i x g' hne hi hg'
        · rw [hg] at hg'
          cases hg'
          exact .inr hcall
    | choose => exact h
    | write => exact h
    | device => exact h
  obtain ⟨-, r, -, hrun⟩ := hcont
  have hset : ∀ (c : Context G) (cs : Option (Choices V G Unit)),
      ({ mid.sys.setContext c with choices := cs } : System V G Unit).OthersWait app := by
    intro c cs i x g hne hi hg
    have hcur : mid.sys.current ≠ i := Ne.symm hne
    have hi' : (mid.sys.threads.modify mid.sys.current fun th => { th with context := c })[i]? =
        some x := hi
    rw [List.getElem?_modify_ne _ _ hcur] at hi'
    exact hmid i x g hne hi' hg
  cases r with
  | raises => cases hrun
  | returns x =>
      cases hrun
      exact hset _ _
  | yields g x =>
      cases hrun
      exact hset _ _

/-- An action that is offered, with what it does, makes a step. -/
theorem step_of_offered (hm : m.Valid app) {parent : Thread G} {a : Action V G Unit}
    {sys : System V G Unit} {r : Resume G H} (hp : m.sys.threads[m.sys.current]? = some parent)
    (hget : (m.sys.offered app parent.context).get? choice = some a)
    (hact : m.sys.act (fun _ => ⟨parent.context, m.count⟩) a = .ok (res, sys))
    (hth : sys.thread sys.current = .ok th)
    (hr : resume app ((m.afterAction a).heaps th.heap) res th.context = .ok r)
    (hrun : (m.afterAction a).afterRun app sys th r = .ok m') : m.step app choice = .ok m' := by
  obtain ⟨parent', hp', hcs⟩ := hm.offers
  have hsame : parent = parent' := Option.some.inj (hp.symm.trans (thread_eq_ok.mp hp'))
  subst hsame
  have hlook : m.sys.lookup choice = .ok a := by
    rw [System.lookup, hcs]
    simp only [hget]
  have hadv : m.sys.advance (fun parent _ => ⟨parent.context, m.count⟩) choice =
      .ok (a, res, sys, th) := by
    rw [System.advance, hp']
    simp only [bind, Except.bind, switchTo_current app hm.forksWait, hlook, hact, hth]
  rw [Machine.step, hadv]
  simp only [bind, Except.bind, hr, hrun]

omit [DecidableEq V] [PyValue V] in
/-- The scheduler offers every live thread. -/
theorem get?_sched {T : Type} {s : System V G T} {tid : Nat} (hth : s.threads[tid]? = some th)
    (halive : th.context.alive = true) :
    s.sched.get? (.str ("t" ++ toString (tid + 1))) = some (.switch tid) := by
  have hmem : (th, tid) ∈ s.threads.zipIdx.filter fun x => x.1.context.alive :=
    List.mem_filter.mpr ⟨List.mem_zipIdx_iff_getElem?.mpr hth, halive⟩
  refine Dict.get?_ofList_map (i := (th, tid)) ?_ hmem
  rintro ⟨x, i⟩ - ⟨y, j⟩ - hkey
  have hnum : toString (i + 1) = toString (j + 1) :=
    (String.append_right_inj "t").mp (Label.str.inj hkey)
  rw [Nat.succ.inj (Nat.repr_inj.mp hnum)]

/-- The scheduler offers every live thread to a thread that has yielded. -/
theorem offered_of_yielded {s : System V G Unit} {c : Context G} (h : c.Yielded app) :
    s.offered app c = s.sched := by
  rcases h with rfl | ⟨g, rfl, hcall⟩
  · rfl
  · rw [System.offered, hcall]
    rfl

/-- Every turn is a step, if the labels of a `sys_choose` tell its values apart. -/
theorem exists_step (hm : m.Valid app)
    (hlabels : ∀ g choices, app.call g = .choose choices → ∀ c ∈ choices, ∀ c' ∈ choices,
      PyValue.str c = PyValue.str c' → c = c') (hturn : Turn app m mid th res)
    (hcont : m'.Continues app mid th res) :
    ∃ choice, m.step app choice = .ok m' := by
  obtain ⟨hth, r, hr, hrun⟩ := hcont
  cases hturn with
  | start hp hg =>
      refine ⟨.str app.name, step_of_offered app hm hp (a := .nothing) ?_ rfl hth hr hrun⟩
      rw [hg]
      exact get?_oneChoice.mpr ⟨rfl, rfl⟩
  | @switch _ _ tid hp hyield hx halive =>
      refine ⟨_, step_of_offered app hm hp (a := .switch tid)
        (offered_of_yielded app hyield ▸ get?_sched hx halive) ?_ hth hr hrun⟩
      rw [System.act, thread_eq_ok.mpr hx]
      rfl
  | @spawn _ g child hp hg hcall =>
      refine ⟨.str "spawn", step_of_offered app hm hp (a := .spawn child) ?_ ?_ hth hr hrun⟩
      · rw [hg, System.offered, hcall]
        exact get?_oneChoice.mpr ⟨rfl, rfl⟩
      · rw [System.act, thread_eq_ok.mpr hp]
        rfl
  | fork hp hg hcall =>
      have hafter := afterAction_fork (m := m) (thread_eq_ok.mpr hp)
      have hact : m.sys.act (fun _ => ⟨th.context, m.count⟩) (.fork ()) =
          .ok (PyValue.int (1000 + (m.sys.threads.length + 1)), { m.sys with
            threads := m.sys.threads ++ [⟨th.context, m.count⟩]
            newfork := insert m.sys.threads.length m.sys.newfork }) := by
        simp only [System.act, List.length_append, List.length_singleton, Nat.add_sub_cancel,
          Nat.cast_add, Nat.cast_one]
      refine ⟨.str "fork", step_of_offered app hm hp ?_ hact hth (by rw [hafter]; exact hr)
        (by rw [hafter]; exact hrun)⟩
      rw [hg, System.offered, hcall]
      exact get?_oneChoice.mpr ⟨rfl, rfl⟩
  | @choose _ g choices _ hp hg hcall hc =>
      refine ⟨.str ("choose " ++ PyValue.str res), step_of_offered app hm hp (a := .value res) ?_
        rfl hth hr hrun⟩
      rw [hg, System.offered, hcall]
      refine Dict.get?_ofList_map (fun x hx y hy hkey => ?_) hc
      have hstr := Label.str.inj hkey
      exact congrArg Action.value
        (hlabels g choices hcall x hx y hy (String.append_right_inj "choose " |>.mp hstr))
  | @write _ g args hp hg hcall =>
      refine ⟨.str "write", step_of_offered app hm hp (a := .write args) ?_ rfl hth hr hrun⟩
      rw [hg, System.offered, hcall]
      exact get?_oneChoice.mpr ⟨rfl, rfl⟩
  | @device _ g call choice s hp hg hcall hs =>
      obtain ⟨act, hact, hs⟩ := Option.map_eq_some_iff.mp hs
      subst hs
      refine ⟨choice, step_of_offered app hm hp (a := .device act) ?_ rfl hth hr hrun⟩
      rw [hg, System.offered, hcall, System.handler, Dict.get?_mapValues, hact]
      rfl

end Turn

end OsCourse.Mosaic
