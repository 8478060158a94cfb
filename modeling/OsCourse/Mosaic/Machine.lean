import OsCourse.Mosaic.System
import OsCourse.Lib.Except

/-!
# The machine with a copying fork

This is what the operating system model is meant to be.  A state holds the
threads and the contents of their heaps, with heaps numbered in the order of
their creation.  A fork copies the context of the current thread and the contents
of its heap.  There is no replay, no stack of flags and no global variable.

Both levels share the system state and its handlers, which do not look at heap
addresses or at clones.  So they commute with every change of them
(`System.map`).  The part of a step before the thread is resumed is `advance`,
and `stepWith_eq` shows it in `_step`.
-/

namespace OsCourse.Mosaic

variable {V G H L S T U : Type}

/-! ## Changing addresses and clones -/

/-- A thread with another address for its heap. -/
def Thread.map (f : Nat → Nat) (th : Thread G) : Thread G := { th with heap := f th.heap }

/-- An action with another clone. -/
def Action.map (c : T → U) : Action V G T → Action V G U
  | .nothing => .nothing
  | .spawn child => .spawn child
  | .fork clone => .fork (c clone)
  | .switch tid => .switch tid
  | .value v => .value v
  | .write args => .write args
  | .device act => .device act

/-- A system with other addresses and clones. -/
def System.map (f : Nat → Nat) (c : T → U) (s : System V G T) : System V G U where
  threads := s.threads.map (Thread.map f)
  current := s.current
  choices := s.choices.map fun cs => cs.mapValues (Action.map c)
  stdout := s.stdout
  storage := s.storage
  newfork := s.newfork

@[simp] theorem current_map (f : Nat → Nat) (c : T → U) (s : System V G T) :
    (s.map f c).current = s.current := rfl

theorem thread_map (f : Nat → Nat) (c : T → U) (s : System V G T) (tid : Nat) :
    (s.map f c).thread tid = (s.thread tid).map (Thread.map f) := by
  simp only [System.thread, System.map, List.getElem?_map]
  cases s.threads[tid]? <;> rfl

/-- Systems whose heap addresses are all less than `n`. -/
def System.HeapsBelow (s : System V G T) (n : Nat) : Prop := ∀ th ∈ s.threads, th.heap < n

theorem map_congr {s : System V G T} {n : Nat} (hs : s.HeapsBelow n) {f f' : Nat → Nat}
    (h : ∀ i < n, f i = f' i) (c : T → U) : s.map f c = s.map f' c := by
  have hth : s.threads.map (Thread.map f) = s.threads.map (Thread.map f') :=
    List.map_congr_left fun th hmem => by rw [Thread.map, Thread.map, h th.heap (hs th hmem)]
  rw [System.map, System.map, hth]

theorem map_choices (f : Nat → Nat) (c : T → U) (s : System V G T) (cs : Option (Choices V G T)) :
    ({ s with choices := cs } : System V G T).map f c =
      { s.map f c with choices := cs.map fun cs => cs.mapValues (Action.map c) } := rfl

theorem setContext_map (f : Nat → Nat) (c : T → U) (s : System V G T) (ctx : Context G) :
    (s.map f c).setContext ctx = (s.setContext ctx).map f c := by
  have hmod :
      (s.threads.map (Thread.map f)).modify s.current (fun th => { th with context := ctx }) =
      (s.threads.modify s.current fun th => { th with context := ctx }).map (Thread.map f) := by
    refine List.ext_getElem? fun i => ?_
    rw [List.getElem?_modify, List.getElem?_map, List.getElem?_map, List.getElem?_modify]
    cases s.threads[i]? with
    | none => rfl
    | some th =>
        simp only [Option.map_some]
        split <;> rfl
  simp only [System.setContext, System.map, hmod]

theorem sched_map (f : Nat → Nat) (c : T → U) (s : System V G T) :
    (s.map f c).sched = s.sched.mapValues (Action.map c) := by
  rw [System.sched, System.sched, Dict.mapValues_ofList, List.map_map, System.map,
    List.zipIdx_map, List.filter_map, List.map_map]
  rfl

/-- Scheduling offers no fork. -/
theorem sched_noFork {s : System V G T} {choice : Label} {clone : T} :
    s.sched.get? choice ≠ some (.fork clone) := by
  intro h
  have hmem := Dict.get?_ofList_some h
  simp at hmem

theorem lookup_map (f : Nat → Nat) (c : T → U) (s : System V G T) (choice : Label) :
    (s.map f c).lookup choice = (s.lookup choice).map (Action.map c) := by
  simp only [System.lookup, System.map]
  cases s.choices with
  | none => rfl
  | some cs =>
      simp only [Option.map_some, Dict.get?_mapValues]
      cases cs.get? choice <;> rfl

theorem lookup_eq_ok {s : System V G T} {cs : Choices V G T} {choice : Label} {a : Action V G T} :
    ({ s with choices := some cs } : System V G T).lookup choice = .ok a ↔
      cs.get? choice = some a := by
  simp only [System.lookup]
  cases cs.get? choice <;> simp

theorem mem_of_thread {s : System V G T} {tid : Nat} {th : Thread G}
    (h : s.thread tid = .ok th) : th ∈ s.threads := by
  rw [System.thread] at h
  cases hth : s.threads[tid]? with
  | none => rw [hth] at h; cases h
  | some x =>
      rw [hth] at h
      cases h
      exact List.mem_of_getElem? hth

theorem below_setContext {s : System V G T} {n : Nat} (h : s.HeapsBelow n) (ctx : Context G) :
    (s.setContext ctx).HeapsBelow n := by
  intro x hx
  obtain ⟨i, hi⟩ := List.getElem?_of_mem hx
  rw [System.setContext, List.getElem?_modify] at hi
  cases hth : s.threads[i]? with
  | none => rw [hth] at hi; cases hi
  | some y =>
      rw [hth] at hi
      have hy := h y (List.mem_of_getElem? hth)
      simp only [Option.map_eq_map, Option.map_some, Option.some.injEq] at hi
      split at hi <;> (subst hi; exact hy)

theorem thread_setContext {s : System V G T} {th : Thread G} (h : s.thread s.current = .ok th)
    (ctx : Context G) :
    (s.setContext ctx).thread (s.setContext ctx).current = .ok { th with context := ctx } := by
  rw [System.thread] at h
  cases hth : s.threads[s.current]? with
  | none => rw [hth] at h; cases h
  | some x =>
      rw [hth] at h
      cases h
      simp [System.thread, System.setContext, hth]

/-! ## A step up to the resumption -/

section Advance

variable [PyValue V]

theorem switchTo_map (f : Nat → Nat) (c : T → U) (s : System V G T) (tid : Nat) :
    (s.map f c).switchTo tid = ((s.switchTo tid).1, (s.switchTo tid).2.map f c) := by
  rcases Classical.em (tid ∈ s.newfork) with h | h
  · simp [System.switchTo, System.map, h]
  · simp [System.switchTo, System.map, h]

theorem threads_switchTo (s : System V G T) (tid : Nat) :
    (s.switchTo tid).2.threads = s.threads := by
  rw [System.switchTo]
  split <;> rfl

theorem thread_switchTo {s : System V G T} {th : Thread G} (h : s.thread s.current = .ok th) :
    (s.switchTo s.current).2.thread (s.switchTo s.current).2.current = .ok th := by
  rw [System.switchTo]
  split <;> exact h

/-- An action does not depend on addresses and clones, when the thread that a
fork appends corresponds. -/
theorem act_map {f : Nat → Nat} {c : T → U} {s : System V G T} {k : T → Thread G}
    {k' : U → Thread G} {a : Action V G T}
    (h : ∀ clone, a = .fork clone → k' (c clone) = (k clone).map f) :
    (s.map f c).act k' (a.map c) = (s.act k a).map fun r => (r.1, r.2.map f c) := by
  cases a with
  | nothing => rfl
  | spawn child =>
      simp only [System.act, Action.map, thread_map, current_map]
      cases s.thread s.current with
      | error e => rfl
      | ok th =>
          simp only [bind, Except.bind, Except.map, System.map, List.map_append, Thread.map,
            List.map_cons, List.map_nil]
  | fork clone =>
      simp only [System.act, Action.map, h clone rfl, Except.map, System.map, List.map_append,
        List.map_cons, List.map_nil, List.length_append, List.length_map, List.length_singleton]
  | switch tid =>
      simp only [System.act, Action.map, thread_map, switchTo_map]
      cases s.thread tid <;> rfl
  | value v => rfl
  | write args => rfl
  | device act => rfl

/-- The threads after an action: those before it, and perhaps one more. -/
theorem threads_act {s s' : System V G T} {k : T → Thread G} {a : Action V G T} {res : V}
    (h : s.act k a = .ok (res, s')) :
    s'.threads = s.threads ∨
      (∃ child th, a = .spawn child ∧ s.thread s.current = .ok th ∧
        s'.threads = s.threads ++ [⟨.fresh child, th.heap⟩]) ∨
      ∃ clone, a = .fork clone ∧ s'.threads = s.threads ++ [k clone] := by
  cases a with
  | nothing => cases h; exact Or.inl rfl
  | spawn child =>
      obtain ⟨th, hth, h⟩ := bind_ok h
      cases h
      exact Or.inr (Or.inl ⟨child, th, rfl, hth, rfl⟩)
  | fork clone =>
      cases h
      exact Or.inr (Or.inr ⟨clone, rfl, rfl⟩)
  | switch tid =>
      obtain ⟨th, -, h⟩ := bind_ok h
      rw [System.switchTo] at h
      split at h <;> (cases h; exact Or.inl rfl)
  | value v => cases h; exact Or.inl rfl
  | write args => cases h; exact Or.inl rfl
  | device act => cases h; exact Or.inl rfl

/-- The part of a step before the thread is resumed: the action, its result, the
system after it and the thread that runs.  The thread that a fork appends may
depend on the current one. -/
def System.advance (s : System V G T) (clone : Thread G → T → Thread G) (choice : Label) :
    Except Fault (Action V G T × V × System V G T × Thread G) := do
  let parent ← s.thread s.current
  let s := (s.switchTo s.current).2
  let a ← s.lookup choice
  let r ← s.act (clone parent) a
  let th ← r.2.thread r.2.current
  .ok (a, r.1, r.2, th)

theorem advance_map {f : Nat → Nat} {c : T → U} {s : System V G T}
    {k : Thread G → T → Thread G} {k' : Thread G → U → Thread G} {choice : Label}
    (h : ∀ parent clone, s.thread s.current = .ok parent →
      (s.switchTo s.current).2.lookup choice = .ok (.fork clone) →
        k' (parent.map f) (c clone) = (k parent clone).map f) :
    (s.map f c).advance k' choice =
      (s.advance k choice).map fun r => (r.1.map c, r.2.1, r.2.2.1.map f c, r.2.2.2.map f) := by
  simp only [System.advance, thread_map, current_map, switchTo_map, lookup_map]
  cases hp : s.thread s.current with
  | error e => rfl
  | ok parent =>
      simp only [bind, Except.bind, Except.map]
      cases ha : (s.switchTo s.current).2.lookup choice with
      | error e => rfl
      | ok a =>
          simp only
          have hk : ∀ clone, a = .fork clone →
              k' (parent.map f) (c clone) = (k parent clone).map f := fun clone he =>
            h parent clone hp (he ▸ ha)
          rw [act_map hk]
          cases (s.switchTo s.current).2.act (k parent) a with
          | error e => rfl
          | ok r =>
              simp only [Except.map, thread_map, current_map]
              cases r.2.thread r.2.current <;> rfl

theorem advance_ok {s : System V G T} {k : Thread G → T → Thread G} {choice : Label}
    {a : Action V G T} {res : V} {s' : System V G T} {th : Thread G}
    (h : s.advance k choice = .ok (a, res, s', th)) :
    ∃ parent, s.thread s.current = .ok parent ∧ s.lookup choice = .ok a ∧
      (s.switchTo s.current).2.act (k parent) a = .ok (res, s') ∧
      s'.thread s'.current = .ok th := by
  obtain ⟨parent, hp, h⟩ := bind_ok h
  obtain ⟨a', ha, h⟩ := bind_ok h
  obtain ⟨r, hr, h⟩ := bind_ok h
  obtain ⟨th', hth, h⟩ := bind_ok h
  cases h
  have hlook : (s.switchTo s.current).2.lookup choice = s.lookup choice := by
    rw [System.switchTo]
    split <;> rfl
  exact ⟨parent, hp, hlook ▸ ha, hr, hth⟩

end Advance

/-! ## The machine -/

/-- A state of the machine. -/
structure Machine (V G H : Type) where
  /-- The system, with heap numbers for addresses. -/
  sys : System V G Unit
  /-- The contents of the heaps by number. -/
  heaps : Nat → H
  /-- The number of heaps. -/
  count : Nat

/-- The heaps after an action: a fork copies the heap of the current thread. -/
def Machine.afterAction (m : Machine V G H) (a : Action V G Unit) : Machine V G H :=
  match a, m.sys.thread m.sys.current with
  | .fork _, .ok parent =>
      { m with
        heaps := Function.update m.heaps m.count (m.heaps parent.heap), count := m.count + 1 }
  | _, _ => m

theorem afterAction_fork {m : Machine V G H} {parent : Thread G}
    (h : m.sys.thread m.sys.current = .ok parent) :
    m.afterAction (.fork ()) =
      { m with
        heaps := Function.update m.heaps m.count (m.heaps parent.heap), count := m.count + 1 } := by
  simp only [Machine.afterAction, h]

theorem afterAction_other {m : Machine V G H} {a : Action V G Unit} (h : a ≠ .fork ()) :
    m.afterAction a = m := by
  cases a with
  | fork u => exact absurd rfl h
  | _ => rfl

/-- A fork is offered. -/
def Machine.ForkPending (m : Machine V G H) : Prop := ∃ choice, m.sys.lookup choice = .ok (.fork ())

theorem advance_below [PyValue V] {m : Machine V G H}
    (hm : m.sys.HeapsBelow m.count) {choice : Label} {a : Action V G Unit} {res : V}
    {sys : System V G Unit} {th : Thread G}
    (h : m.sys.advance (fun parent _ => ⟨parent.context, m.count⟩) choice = .ok (a, res, sys, th)) :
    sys.HeapsBelow (m.afterAction a).count := by
  obtain ⟨parent, hp, -, hact, -⟩ := advance_ok h
  have hle : m.count ≤ (m.afterAction a).count := by
    rcases eq_or_ne a (.fork ()) with rfl | ha
    · rw [afterAction_fork hp]; exact Nat.le_succ _
    · rw [afterAction_other ha]
  intro x hx
  rcases threads_act hact with hsame | ⟨child, parent', -, hp', hth⟩ | ⟨u, rfl, hth⟩
  · rw [hsame, threads_switchTo] at hx
    exact (hm x hx).trans_le hle
  · rw [hth, threads_switchTo, List.mem_append, List.mem_singleton] at hx
    rcases hx with hx | rfl
    · exact (hm x hx).trans_le hle
    · have hmem := mem_of_thread hp'
      rw [threads_switchTo] at hmem
      exact (hm parent' hmem).trans_le hle
  · rw [hth, threads_switchTo, List.mem_append, List.mem_singleton] at hx
    rcases hx with hx | rfl
    · exact (hm x hx).trans_le hle
    · rw [afterAction_fork hp]
      exact Nat.lt_succ_self _

section Step

variable [DecidableEq V] [PyValue V]

theorem handler_map (f : Nat → Nat) (c : T → U) (s : System V G T)
    (fork : Choices V G T) (call : Syscall V G) :
    (s.map f c).handler (fork.mapValues (Action.map c)) call =
      (s.handler fork call).mapValues (Action.map c) := by
  cases call with
  | spawn child => rfl
  | fork => rfl
  | sched => exact sched_map f c s
  | choose choices =>
      simp only [System.handler, Dict.mapValues_ofList, List.map_map]
      rfl
  | write args => rfl
  | device call =>
      simp only [System.handler, Dict.mapValues_mapValues]
      rfl

/-- A handler does not look at the choices before the call. -/
theorem handler_choices (s : System V G T) (cs : Option (Choices V G T)) (fork : Choices V G T)
    (call : Syscall V G) :
    ({ s with choices := cs } : System V G T).handler fork call = s.handler fork call := by
  cases call <;> rfl

/-- Only the handler of a fork offers a fork. -/
theorem handler_noFork {s : System V G T} {fork : Choices V G T} {call : Syscall V G}
    (hcall : call ≠ .fork) {choice : Label} {clone : T} :
    (s.handler fork call).get? choice ≠ some (.fork clone) := by
  intro h
  cases call with
  | fork => exact hcall rfl
  | sched => exact sched_noFork h
  | spawn child => cases (get?_oneChoice.mp h).2
  | write args => cases (get?_oneChoice.mp h).2
  | choose choices =>
      have hmem := Dict.get?_ofList_some h
      simp at hmem
  | device call =>
      rw [System.handler, Dict.get?_mapValues, Option.map_eq_some_iff] at h
      obtain ⟨act, -, hact⟩ := h
      cases hact

/-- The choice that a fork offers. -/
def forkChoice : Choices V G Unit := oneChoice "fork" (.fork ())

variable (app : App V G H L S)

/-- The state before the first step. -/
def Machine.init : Machine V G H where
  sys :=
    { threads := [⟨.fresh app.main, 0⟩]
      current := 0
      choices := some (oneChoice app.name .nothing)
      stdout := ""
      storage := Storage.empty
      newfork := ∅ }
  heaps := fun _ => app.emptyHeap
  count := 1

/-- The state after the current thread ran, with its new context and heap. -/
def Machine.afterRun (m : Machine V G H) (sys : System V G Unit) (th : Thread G) :
    Resume G H → Except Fault (Machine V G H)
  | .raises => .error .raised
  | .returns h =>
      let sys := sys.setContext .finished
      .ok { m with
        sys := { sys with choices := some sys.sched }
        heaps := Function.update m.heaps th.heap h }
  | .yields g h =>
      let sys := sys.setContext (.suspended g)
      .ok { m with
        sys := { sys with choices := some (sys.handler forkChoice (app.call g)) }
        heaps := Function.update m.heaps th.heap h }

/-- The machine takes a choice. -/
def Machine.step (m : Machine V G H) (choice : Label) : Except Fault (Machine V G H) := do
  let (a, res, sys, th) ← m.sys.advance (fun parent _ => ⟨parent.context, m.count⟩) choice
  let m := m.afterAction a
  let r ← resume app (m.heaps th.heap) res th.context
  m.afterRun app sys th r

/-- The machine takes the choices of a trace. -/
def Machine.run : List Label → Machine V G H → Except Fault (Machine V G H)
  | [], m => .ok m
  | c :: trace, m => do
      let m ← m.step app c
      Machine.run trace m

end Step

end OsCourse.Mosaic
