import OsCourse.Mosaic.Refine

/-!
# State dumps

`state_dump` turns a system into a serializable record.  It numbers the heaps in
the order of the threads that use them, and it shows of a thread only the name of
its function, the line, the local variables and the number of its heap.  The
clones that wait for their first run (`newfork`) and the actions of the choices
are not shown.

A dump depends on the trace only (`replayDump_eq`): it is the dump of the machine
with the copying fork, whose heaps are already numbered in that order.  The
invariant behind this is `Machine.Valid`.  It says that the parts that are not
shown follow from the contexts: the choices are those of the current thread, and
a thread is in `newfork` when it waits at a fork and is not the current one.
-/

namespace OsCourse.Mosaic

variable {V G H L S T : Type}

/-! ## The dump -/

/-- The order of labels.  Numbers and texts do not occur together. -/
def Label.le : Label → Label → Bool
  | .str s, .str t => s ≤ t
  | .int m, .int n => m ≤ n
  | .int _, .str _ => true
  | .str _, .int _ => false

/-- `sorted(labels)`. -/
def sortLabels (labels : List Label) : List Label := labels.insertionSort fun a b => a.le b

/-- What a dump shows of a live thread. -/
structure ContextDump (L : Type) where
  /-- The name of the function, the line and the local variables. -/
  frame : Frame L
  /-- The number of the heap. -/
  heap : Nat
deriving DecidableEq

/-- A state dump, without the hash code that is computed from it. -/
structure Dump (V L S : Type) where
  /-- The running thread. -/
  current : Nat
  /-- The labels of the choices. -/
  choices : List Label
  /-- The threads. -/
  contexts : List (Option (ContextDump L))
  /-- The heaps by number. -/
  heaps : Dict Nat S
  /-- What has been written. -/
  stdout : String
  /-- The persistent part of the block device. -/
  storePersist : Dict V V
  /-- The buffer of the block device. -/
  storeBuffer : Dict V V

/-- Equal dumps.  Dictionaries are compared without their order. -/
structure Dump.Same [DecidableEq V] (d e : Dump V L S) : Prop where
  current_eq : d.current = e.current
  choices_eq : d.choices = e.choices
  contexts_eq : d.contexts = e.contexts
  heaps_same : d.heaps.Same e.heaps
  stdout_eq : d.stdout = e.stdout
  persist_same : d.storePersist.Same e.storePersist
  buffer_same : d.storeBuffer.Same e.storeBuffer

theorem Dump.same_refl [DecidableEq V] (d : Dump V L S) : d.Same d :=
  ⟨rfl, rfl, rfl, fun _ => rfl, rfl, fun _ => rfl, fun _ => rfl⟩

section Dump

variable (app : App V G H L S)

/-- The frame of a context: `gi_frame`. -/
def Context.frame : Context G → Option (Frame L)
  | .fresh g => some (app.startFrame g)
  | .suspended g => some (app.frame g)
  | .finished => none

/-- The record that `state_dump` builds, for a numbering of the heaps. -/
def System.dump (number : Nat → Nat) (heaps : Nat → H) (choices : List Label)
    (s : System V G T) : Dump V L S where
  current := s.current
  choices := sortLabels choices
  contexts := s.threads.map fun th => (th.context.frame app).map fun f => ⟨f, number th.heap⟩
  heaps := Dict.ofList (s.threads.map fun th => (number th.heap, app.showHeap (heaps th.heap)))
  stdout := s.stdout
  storePersist := s.storage.persist
  storeBuffer := s.storage.buf

/-- `state_dump`.  All heaps of threads have a number. -/
def stateDump (w : World H) (os : OperatingSystem V G) : Except Fault (Dump V L S) :=
  let heaps := Dict.number (os.sys.threads.map Thread.heap)
  match os.sys.choices with
  | none => .error .typeError
  | some choices => .ok (os.sys.dump app (fun h => (heaps.get? h).getD 0) w.heaps choices.keys)

theorem frame_isSome (ctx : Context G) : (ctx.frame app).isSome = ctx.alive := by
  cases ctx <;> rfl

theorem alive_eq_false_iff {c : Context G} : c.alive = false ↔ c = .finished := by
  cases c with
  | finished => exact iff_of_true rfl rfl
  | fresh g | suspended g => exact iff_of_false Bool.false_ne_true.symm fun h => by cases h

/-- What a dump shows of a thread: whether it is live, and the number of its heap. -/
theorem thread_of_shown {c c' : Context G} {n n' : Nat}
    (h : (c.frame app).map (fun f => (⟨f, n⟩ : ContextDump L)) =
      (c'.frame app).map fun f => ⟨f, n'⟩) :
    c.alive = c'.alive ∧ (c.alive = true → n = n') := by
  have halive := congrArg Option.isSome h
  rw [Option.isSome_map, Option.isSome_map, frame_isSome, frame_isSome] at halive
  refine ⟨halive, fun hlive => ?_⟩
  obtain ⟨f, hf⟩ := Option.isSome_iff_exists.mp ((frame_isSome app c).trans hlive)
  obtain ⟨f', hf'⟩ := Option.isSome_iff_exists.mp ((frame_isSome app c').trans (halive ▸ hlive))
  rw [hf, hf'] at h
  exact congrArg ContextDump.heap (Option.some.inj h)

variable [DecidableEq V] [PyValue V]

/-- The result of `OperatingSystem(init).replay(trace)`. -/
def replayDump (trace : List Label) (w : World H) : Except Fault (World H × Dump V L S) := do
  let (w, os) ← replay app trace.length trace w
  let d ← stateDump app w os
  .ok (w, d)

/-- The dump of a machine. -/
def Machine.dump (m : Machine V G H) : Dump V L S :=
  m.sys.dump app (· + 1) m.heaps ((m.sys.choices.map Dict.keys).getD [])

end Dump

/-! ## The parts that are not shown -/

section Valid

variable [DecidableEq V] [PyValue V] (app : App V G H L S)

/-- The choices that belong to the context of the current thread. -/
def System.offered (s : System V G Unit) : Context G → Choices V G Unit
  | .fresh _ => oneChoice app.name .nothing
  | .suspended g => s.handler forkChoice (app.call g)
  | .finished => s.sched

/-- A context that waits for the result of a fork. -/
def Context.AtFork (c : Context G) : Prop := ∃ g, c = .suspended g ∧ app.call g = .fork

/-- The clones that have not run are the threads at a fork that are not current. -/
def System.ForksWait (s : System V G T) : Prop :=
  ∀ i, i ∈ s.newfork ↔ i ≠ s.current ∧ ∃ th, s.threads[i]? = some th ∧ th.context.AtFork app

/-- The invariant of the machine. -/
structure Machine.Valid (m : Machine V G H) : Prop where
  offers : ∃ th, m.sys.thread m.sys.current = .ok th ∧
    m.sys.choices = some (m.sys.offered app th.context)
  inOrder : Dict.InOrder (m.sys.threads.map Thread.heap) m.count
  forksWait : m.sys.ForksWait app

theorem valid_init : (Machine.init app).Valid app where
  offers := ⟨_, rfl, rfl⟩
  inOrder := Dict.InOrder.nil.new
  forksWait := by
    intro i
    constructor
    · intro hi
      cases hi
    · rintro ⟨hne, th, hth, -⟩
      have hlt : i < 1 := (List.getElem?_eq_some_iff.mp hth).1
      exact absurd (Nat.lt_one_iff.mp hlt) hne

variable {s s' : System V G T} {tid : Nat} {choice : Label} {k : T → Thread G} {res : V}
  {m : Machine V G H} {trace : List Label} {w : World H}

omit [DecidableEq V] in
/-- The current thread has run, so the start of a step changes nothing. -/
theorem switchTo_current (h : s.ForksWait app) : (s.switchTo s.current).2 = s := by
  have hnot : s.current ∉ s.newfork := fun hc => ((h s.current).mp hc).1 rfl
  rw [System.switchTo, if_neg hnot]

omit [DecidableEq V] [PyValue V] in
theorem thread_eq_ok {th : Thread G} :
    s.thread tid = .ok th ↔ s.threads[tid]? = some th := by
  rw [System.thread]
  cases s.threads[tid]? <;> simp

omit [DecidableEq V] [PyValue V] in
/-- Scheduling offers the live threads. -/
theorem sched_switch {a : Action V G T} (h : s.sched.get? choice = some a) :
    ∃ tid th, a = .switch tid ∧ s.threads[tid]? = some th ∧ th.context.alive = true := by
  have hmem := Dict.get?_ofList_some h
  simp only [List.mem_map, List.mem_filter, Prod.mk.injEq] at hmem
  obtain ⟨⟨th, tid⟩, ⟨hx, halive⟩, -, rfl⟩ := hmem
  exact ⟨tid, th, rfl, List.mem_zipIdx_iff_getElem?.mp hx, halive⟩

/-- What a choice can be: a fork of a thread at a fork, a switch to a live thread
away from a thread that is not at a fork, or something that changes neither the
current thread nor the clones, in a live thread. -/
theorem offered_cases {s : System V G Unit} {ctx : Context G} {a : Action V G Unit}
    (h : (s.offered app ctx).get? choice = some a) :
    (a = .fork () ∧ ctx.AtFork app) ∨
      (∃ tid th, a = .switch tid ∧ ¬ ctx.AtFork app ∧ s.threads[tid]? = some th ∧
        th.context.alive = true) ∨
      (a ≠ .fork () ∧ (∀ tid, a ≠ .switch tid) ∧ ctx.alive = true) := by
  cases ctx with
  | fresh g =>
      obtain ⟨-, rfl⟩ := get?_oneChoice.mp h
      exact Or.inr (Or.inr ⟨by simp, by simp, rfl⟩)
  | finished =>
      obtain ⟨tid, th, ha, hth, halive⟩ := sched_switch h
      exact Or.inr (Or.inl ⟨tid, th, ha, by simp [Context.AtFork], hth, halive⟩)
  | suspended g =>
      rw [System.offered] at h
      cases hcall : app.call g with
      | fork =>
          rw [hcall] at h
          obtain ⟨-, rfl⟩ := get?_oneChoice.mp h
          exact Or.inl ⟨rfl, g, rfl, hcall⟩
      | sched =>
          rw [hcall] at h
          obtain ⟨tid, th, ha, hth, halive⟩ := sched_switch h
          refine Or.inr (Or.inl ⟨tid, th, ha, ?_, hth, halive⟩)
          rintro ⟨g', hg, hfork⟩
          cases hg
          rw [hcall] at hfork
          cases hfork
      | spawn child | write args =>
          rw [hcall] at h
          obtain ⟨-, rfl⟩ := get?_oneChoice.mp h
          exact Or.inr (Or.inr ⟨by simp, by simp, rfl⟩)
      | choose choices =>
          rw [hcall] at h
          have hmem := Dict.get?_ofList_some h
          simp only [List.mem_map, Prod.mk.injEq] at hmem
          obtain ⟨c, -, -, rfl⟩ := hmem
          exact Or.inr (Or.inr ⟨by simp, by simp, rfl⟩)
      | device call =>
          rw [hcall, System.handler, Dict.get?_mapValues, Option.map_eq_some_iff] at h
          obtain ⟨act, -, rfl⟩ := h
          exact Or.inr (Or.inr ⟨by simp, by simp, rfl⟩)

/-- Only a switch can be chosen for a thread that has returned. -/
theorem alive_of_offered {s : System V G Unit} {ctx : Context G} {a : Action V G Unit}
    (h : (s.offered app ctx).get? choice = some a) (hswitch : ∀ tid, a ≠ .switch tid) :
    ctx.alive = true := by
  rcases offered_cases app h with ⟨-, g, hctx, -⟩ | ⟨tid, th, ha, -⟩ | ⟨-, -, halive⟩
  · rw [hctx]
    rfl
  · exact absurd ha (hswitch tid)
  · exact halive

/-! ## One step -/

omit [DecidableEq V] in
/-- An action that is no fork and no switch. -/
theorem act_other {a : Action V G T} (hfork : ∀ c, a ≠ .fork c) (hswitch : ∀ tid, a ≠ .switch tid)
    (h : s.act k a = .ok (res, s')) :
    s'.current = s.current ∧ s'.newfork = s.newfork := by
  cases a with
  | fork c => exact absurd rfl (hfork c)
  | switch tid => exact absurd rfl (hswitch tid)
  | spawn child =>
      obtain ⟨th, -, h⟩ := bind_ok h
      cases h
      exact ⟨rfl, rfl⟩
  | _ =>
      cases h
      exact ⟨rfl, rfl⟩

omit [DecidableEq V] in
theorem act_switch (h : s.act k (.switch tid) = .ok (res, s')) :
    s'.threads = s.threads ∧ s'.current = tid ∧ s'.newfork = s.newfork.erase tid := by
  obtain ⟨th, -, h⟩ := bind_ok h
  rw [System.switchTo] at h
  split at h
  · cases h
    exact ⟨rfl, rfl, rfl⟩
  next hnot =>
    cases h
    exact ⟨rfl, rfl, (Finset.erase_eq_of_notMem hnot).symm⟩

omit [DecidableEq V] [PyValue V] in
theorem getElem?_concat_eq_some {α : Type} {l : List α} {a x : α} {i : Nat} :
    (l ++ [a])[i]? = some x ↔ l[i]? = some x ∨ (i = l.length ∧ a = x) := by
  rw [List.getElem?_append]
  split
  next h => simp [h.ne]
  next h =>
    have hnone : l[i]? = none := List.getElem?_eq_none_iff.mpr (Nat.not_lt.mp h)
    simp only [hnone, List.getElem?_singleton, reduceCtorEq, false_or]
    split
    next h0 => simp [show i = l.length by omega]
    next h0 => simp [show i ≠ l.length by omega]

omit [DecidableEq V] [PyValue V] in
/-- A thread at the end that is not at a fork. -/
theorem forksWait_append (h : s.ForksWait app) {th : Thread G} (hth : ¬ th.context.AtFork app)
    (hthreads : s'.threads = s.threads ++ [th]) (hcur : s'.current = s.current)
    (hnew : s'.newfork = s.newfork) : s'.ForksWait app := by
  intro i
  rw [hnew, hcur, h i, hthreads]
  refine and_congr_right fun _ => exists_congr fun x => ?_
  rw [getElem?_concat_eq_some]
  constructor
  · rintro ⟨hx, hfork⟩
    exact ⟨Or.inl hx, hfork⟩
  · rintro ⟨hx | ⟨-, rfl⟩, hfork⟩
    · exact ⟨hx, hfork⟩
    · exact absurd hfork hth

omit [DecidableEq V] in
/-- A clone at the end. -/
theorem forksWait_fork (h : s.ForksWait app) {c : T} {parent : Thread G}
    (hp : s.thread s.current = .ok parent) (hk : (k c).context.AtFork app)
    (hact : s.act k (.fork c) = .ok (res, s')) :
    s'.ForksWait app := by
  cases hact
  have hlen : s.current < s.threads.length := (List.getElem?_eq_some_iff.mp (thread_eq_ok.mp hp)).1
  intro i
  simp only [Finset.mem_insert, List.length_append, List.length_singleton, Nat.add_sub_cancel, h i,
    getElem?_concat_eq_some]
  constructor
  · rintro (rfl | ⟨hne, x, hx, hfork⟩)
    · exact ⟨hlen.ne', k c, Or.inr ⟨rfl, rfl⟩, hk⟩
    · exact ⟨hne, x, Or.inl hx, hfork⟩
  · rintro ⟨hne, x, hx | ⟨hi, -⟩, hfork⟩
    · exact Or.inr ⟨hne, x, hx, hfork⟩
    · exact Or.inl hi

omit [DecidableEq V] in
/-- A switch away from a thread that is not at a fork. -/
theorem forksWait_switch (h : s.ForksWait app) {parent : Thread G}
    (hp : s.thread s.current = .ok parent) (hfork : ¬ parent.context.AtFork app)
    (hact : s.act k (.switch tid) = .ok (res, s')) :
    s'.ForksWait app := by
  obtain ⟨hthreads, hcur, hnew⟩ := act_switch hact
  intro i
  rw [hthreads, hcur, hnew, Finset.mem_erase, h i]
  refine and_congr_right fun _ => ⟨fun hi => hi.2, fun hi => ⟨?_, hi⟩⟩
  rintro rfl
  obtain ⟨x, hx, hat⟩ := hi
  have hsame : x = parent := Option.some.inj (hx.symm.trans (thread_eq_ok.mp hp))
  exact hfork (hsame ▸ hat)

omit [DecidableEq V] [PyValue V] in
/-- The context of the current thread does not matter. -/
theorem forksWait_setContext (h : s.ForksWait app) (ctx : Context G) (cs : Option (Choices V G T)) :
    ({ s.setContext ctx with choices := cs } : System V G T).ForksWait app := by
  intro i
  refine (h i).trans (and_congr_right fun hne => exists_congr fun x => ?_)
  have hget : (s.setContext ctx).threads[i]? = s.threads[i]? :=
    List.getElem?_modify_ne _ _ (Ne.symm hne)
  simp only [hget]

omit [DecidableEq V] [PyValue V] in
theorem heaps_setContext (s : System V G T) (ctx : Context G) :
    (s.setContext ctx).threads.map Thread.heap = s.threads.map Thread.heap := by
  refine List.ext_getElem? fun i => ?_
  rw [List.getElem?_map, List.getElem?_map, System.setContext, List.getElem?_modify]
  cases s.threads[i]? with
  | none => rfl
  | some th =>
      simp only [Option.map_eq_map, Option.map_some]
      split <;> rfl

section Step

variable {m : Machine V G H} (hm : m.Valid app) {choice : Label} {a : Action V G Unit} {res : V}
  {sys : System V G Unit} {th : Thread G}
  (hadv : m.sys.advance (fun parent _ => ⟨parent.context, m.count⟩) choice = .ok (a, res, sys, th))

include hm hadv

/-- The part of a step before the thread is resumed, in a valid state. -/
theorem advance_valid :
    ∃ parent, m.sys.thread m.sys.current = .ok parent ∧
      (m.sys.offered app parent.context).get? choice = some a ∧
      m.sys.act (fun _ => ⟨parent.context, m.count⟩) a = .ok (res, sys) ∧
      sys.thread sys.current = .ok th := by
  obtain ⟨parent, hp, hlook, hact, hth⟩ := advance_ok hadv
  obtain ⟨parent', hp', hcs⟩ := hm.offers
  have hsame : parent' = parent := Except.ok.inj (hp'.symm.trans hp)
  subst hsame
  rw [switchTo_current app hm.forksWait] at hact
  rw [System.lookup, hcs] at hlook
  refine ⟨parent', hp, ?_, hact, hth⟩
  simp only at hlook
  cases hget : (m.sys.offered app parent'.context).get? choice with
  | none => rw [hget] at hlook; cases hlook
  | some b =>
      rw [hget] at hlook
      cases hlook
      rfl

theorem advance_forksWait : sys.ForksWait app := by
  obtain ⟨parent, hp, hget, hact, -⟩ := advance_valid app hm hadv
  rcases offered_cases app hget with ⟨rfl, hfork⟩ | ⟨tid, x, rfl, hfork, -, -⟩ | ⟨hfork, hswitch, -⟩
  · exact forksWait_fork app hm.forksWait hp hfork hact
  · exact forksWait_switch app hm.forksWait hp hfork hact
  · obtain ⟨hcur, hnew⟩ := act_other (fun _ => hfork) hswitch hact
    rcases threads_act hact with hsame | ⟨child, x, -, -, hthreads⟩ | ⟨c, he, -⟩
    · intro i
      rw [hcur, hnew, hsame]
      exact hm.forksWait i
    · have hfresh : ¬ (Context.fresh child).AtFork app := nofun
      exact forksWait_append app hm.forksWait hfresh hthreads hcur hnew
    · exact absurd he hfork

/-- A step resumes a live thread. -/
theorem advance_alive : th.context.alive = true := by
  obtain ⟨parent, hp, hget, hact, hth⟩ := advance_valid app hm hadv
  rcases offered_cases app hget with ⟨rfl, g, hctx, -⟩ | ⟨tid, x, rfl, -, hx, halive⟩
    | ⟨-, hswitch, halive⟩
  · have hswitch : ∀ tid, (.fork () : Action V G Unit) ≠ .switch tid := nofun
    have hsame := thread_act hswitch hp hact
    rw [Except.ok.inj (hth.symm.trans hsame), hctx]
    rfl
  · obtain ⟨hthreads, hcur, -⟩ := act_switch hact
    rw [thread_eq_ok, hthreads, hcur, hx] at hth
    exact Option.some.inj hth ▸ halive
  · have hsame := thread_act hswitch hp hact
    rw [Except.ok.inj (hth.symm.trans hsame)]
    exact halive

theorem advance_inOrder : Dict.InOrder (sys.threads.map Thread.heap) (m.afterAction a).count := by
  obtain ⟨parent, hp, -, hact, -⟩ := advance_valid app hm hadv
  rcases threads_act hact with hsame | ⟨child, x, rfl, hx, hthreads⟩ | ⟨c, rfl, hthreads⟩
  · rcases eq_or_ne a (.fork ()) with rfl | ha
    · cases hact
      simp at hsame
    · rw [hsame, afterAction_other ha]
      exact hm.inOrder
  · have hfork : (.spawn child : Action V G Unit) ≠ .fork () := nofun
    rw [hthreads, List.map_append, afterAction_other hfork]
    have hmem : x.heap ∈ m.sys.threads.map Thread.heap := List.mem_map_of_mem (mem_of_thread hx)
    exact hm.inOrder.old (hm.inOrder.lt hmem)
  · rw [hthreads, List.map_append, afterAction_fork hp]
    exact hm.inOrder.new

end Step

/-- A step keeps the invariant. -/
theorem step_valid {m' : Machine V G H} (hm : m.Valid app) (h : m.step app choice = .ok m') :
    m'.Valid app := by
  obtain ⟨⟨a, res, sys, th⟩, hadv, h⟩ := bind_ok h
  obtain ⟨r, -, h⟩ := bind_ok h
  obtain ⟨-, -, -, -, hth⟩ := advance_valid app hm hadv
  have hwait := advance_forksWait app hm hadv
  have horder := advance_inOrder app hm hadv
  cases r with
  | raises => cases h
  | returns x =>
      cases h
      exact {
        offers := ⟨_, thread_setContext hth .finished, rfl⟩
        inOrder := by rw [← heaps_setContext sys .finished] at horder; exact horder
        forksWait := forksWait_setContext app hwait .finished _ }
  | yields g x =>
      cases h
      exact {
        offers := ⟨_, thread_setContext hth (.suspended g), congrArg some (handler_choices ..).symm⟩
        inOrder := by rw [← heaps_setContext sys (.suspended g)] at horder; exact horder
        forksWait := forksWait_setContext app hwait (.suspended g) _ }

/-- Every state of a run is valid. -/
theorem run_valid {m' : Machine V G H} (hm : m.Valid app) (h : Machine.run app trace m = .ok m') :
    m'.Valid app := by
  induction trace generalizing m with
  | nil => cases h; exact hm
  | cons c trace ih =>
      obtain ⟨m1, hstep, hrest⟩ := bind_ok h
      exact ih (step_valid app hm hstep) hrest

/-! ## The dump of a replay -/

/-- The dump of a system is that of the related machine. -/
theorem stateDump_eq {base : Nat} {f : Nat → Nat} {clone : Thread G} {os : OperatingSystem V G}
    (hrel : Rel base f clone w os m) (hm : m.Valid app) :
    stateDump app w os = .ok (m.dump app) := by
  obtain ⟨th, -, hcs⟩ := hm.offers
  have hheaps : os.sys.threads.map Thread.heap = (m.sys.threads.map Thread.heap).map f := by
    rw [hrel.sys_eq, System.map, List.map_map, List.map_map]
    rfl
  have hnumber : ∀ x ∈ m.sys.threads,
      ((Dict.number (os.sys.threads.map Thread.heap)).get? (f x.heap)).getD 0 = x.heap + 1 := by
    intro x hx
    rw [hheaps, Dict.get?_number hm.inOrder hrel.embeds.inj (hrel.below x hx)]
    rfl
  rw [stateDump, Machine.dump]
  generalize Dict.number (os.sys.threads.map Thread.heap) = numbers at hnumber
  simp only [hrel.sys_eq, System.map, hcs, Option.map_some, Option.getD_some, Except.ok.injEq]
  rw [Dict.keys_mapValues]
  simp only [System.dump, List.map_map, Dump.mk.injEq, true_and, and_true]
  constructor
  · refine List.map_congr_left fun x hx => ?_
    simp only [Function.comp_apply, Thread.map, hnumber x hx]
  · refine congrArg Dict.ofList (List.map_congr_left fun x hx => ?_)
    simp only [Function.comp_apply, Thread.map, hnumber x hx,
      hrel.embeds.heap_eq _ (hrel.below x hx)]

/-- A replay ends in a system that is related to the machine. -/
theorem replay_rel (w : World H) (hrun : Machine.run app trace (Machine.init app) = .ok m) :
    ∃ x f clone, replay app trace.length trace w = .ok x ∧ Rel w.nextHeap f clone x.1 x.2 m := by
  have hfit := replay_fits app trace.length [] rfl trace w le_rfl
  rw [hrun] at hfit
  obtain ⟨w', os', f, clone, hos, hrel, -, -⟩ := hfit
  exact ⟨(w', os'), f, clone, hos, hrel⟩

/-- A replay that returns, with any bound on the nesting of forks that covers the
trace. -/
theorem replay_machine {n : Nat} (hn : trace.length ≤ n) {x : World H × OperatingSystem V G}
    (h : replay app n trace w = .ok x) :
    ∃ m f clone, Machine.run app trace (Machine.init app) = .ok m ∧
      Rel w.nextHeap f clone x.1 x.2 m := by
  have hfit := replay_fits app n [] rfl trace w hn
  have hx : replayWith app (sysFork app n) [] trace (create app w).1 (create app w).2 = .ok x := h
  rw [hx] at hfit
  cases hrun : Machine.run app trace (Machine.init app) with
  | error e => rw [hrun] at hfit; cases hfit
  | ok m =>
      rw [hrun] at hfit
      obtain ⟨w', os', f, clone, hos, hrel, -, -⟩ := hfit
      cases hos
      exact ⟨m, f, clone, rfl, hrel⟩

/-- A replay fails as the machine does. -/
theorem replay_error (w : World H) {e : Fault}
    (hrun : Machine.run app trace (Machine.init app) = .error e) :
    replay app trace.length trace w = .error e := by
  have hfit := replay_fits app trace.length [] rfl trace w le_rfl
  rw [hrun] at hfit
  exact hfit

/-- A dump depends on the trace only. -/
theorem replayDump_eq (trace : List Label) (w : World H) :
    (replayDump app trace w).map Prod.snd =
      (Machine.run app trace (Machine.init app)).map (Machine.dump app) := by
  rw [replayDump]
  cases hrun : Machine.run app trace (Machine.init app) with
  | error e =>
      rw [replay_error app w hrun]
      rfl
  | ok m =>
      obtain ⟨x, f, clone, hx, hrel⟩ := replay_rel app w hrun
      have hdump := stateDump_eq app hrel (run_valid app (valid_init app) hrun)
      simp only [hx, hdump, bind, Except.bind, Except.map]

/-- The machine after a replay with a dump. -/
theorem run_of_replayDump {x : World H × Dump V L S} (h : replayDump app trace w = .ok x) :
    ∃ m, Machine.run app trace (Machine.init app) = .ok m ∧ x.2 = m.dump app := by
  have heq := replayDump_eq app trace w
  rw [h] at heq
  cases hrun : Machine.run app trace (Machine.init app) with
  | error e => rw [hrun] at heq; cases heq
  | ok m =>
      rw [hrun] at heq
      exact ⟨m, rfl, Except.ok.inj heq⟩

theorem replayDump_of_run (w : World H) (h : Machine.run app trace (Machine.init app) = .ok m) :
    ∃ x, replayDump app trace w = .ok x ∧ x.2 = m.dump app := by
  have heq := replayDump_eq app trace w
  rw [h] at heq
  cases hx : replayDump app trace w with
  | error e => rw [hx] at heq; cases heq
  | ok x =>
      rw [hx] at heq
      exact ⟨x, rfl, Except.ok.inj heq⟩

theorem replayDump_error (w : World H) {e : Fault}
    (h : Machine.run app trace (Machine.init app) = .error e) :
    replayDump app trace w = .error e := by
  rw [replayDump, replay_error app w h]
  rfl

end Valid

end OsCourse.Mosaic
