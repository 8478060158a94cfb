import OsCourse.Mosaic.Nested

/-!
# The resumption protocol

What the operating system sends to a thread, for the resumptions of its own threads so
far.  A clone made by a fork waits until it is resumed for the first time, and that is
when it receives 0.  Everything else that is switched to receives `None`.  An action
that is no switch resumes the thread that ran before.

`_switch_to` removes a thread from `newfork` also at the start of a step, where its
result is dropped.  The current thread is never in `newfork` (`Settled.awake`), so
nothing is lost there.  None of this depends on what applications do.
-/

namespace OsCourse.Mosaic

variable {V G H L S : Type} [PyValue V]

/-! ## The protocol -/

/-- A fork, whose child is the thread `tid`. -/
def Event.Forks (e : Event V G) (tid : Nat) : Prop :=
  (∃ clone, e.action = .fork clone) ∧ e.count = tid + 1

/-- The thread is the child of a fork and was not resumed yet. -/
def Waiting (own : List (Event V G)) (tid : Nat) : Prop :=
  (∃ f ∈ own, f.Forks tid) ∧ ∀ e ∈ own, e.tid ≠ tid

/-- The thread that was resumed last, at first the main thread. -/
def latest (own : List (Event V G)) : Nat :=
  (own.getLast?.map Event.tid).getD 0

/-- What is sent in the resumption `e`, after those in `own`. -/
structure Protocol (own : List (Event V G)) (e : Event V G) : Prop where
  /-- The thread has not terminated. -/
  alive : e.thread.context.alive = true
  /-- A thread that has never run is sent `None`. -/
  fresh : ∀ g, e.thread.context = .fresh g → e.value = PyValue.none
  /-- The child of a fork is sent 0 the first time. -/
  child : Waiting own e.tid → e.value = PyValue.int 0
  /-- The parent is sent 1000 and the number of the child, counted from 1. -/
  parent : ∀ tid, e.Forks tid → e.value = PyValue.int (1000 + (tid + 1))
  /-- Other threads that are switched to are sent `None`, among them the child of a
  fork from the second time on. -/
  other : ∀ tid, e.action = .switch tid →
    e.tid = tid ∧ (¬ Waiting own tid → e.value = PyValue.none)
  /-- Without a switch the thread that ran before goes on. -/
  stays : (∀ tid, e.action ≠ .switch tid) → e.tid = latest own

section
variable {own : List (Event V G)} {e : Event V G} {tid : Nat}

omit [PyValue V]

theorem waiting_append :
    Waiting (own ++ [e]) tid ↔
      (e.Forks tid ∨ ∃ f ∈ own, f.Forks tid) ∧ e.tid ≠ tid ∧ ∀ e' ∈ own, e'.tid ≠ tid := by
  constructor
  · rintro ⟨⟨f, hf, hforks⟩, hall⟩
    refine ⟨?_, hall e (by simp), fun e' he' => hall e' (by simp [he'])⟩
    rcases List.mem_append.mp hf with hf | hf
    · exact .inr ⟨f, hf, hforks⟩
    · exact .inl (List.mem_singleton.mp hf ▸ hforks)
  · rintro ⟨hf, hne, hall⟩
    refine ⟨?_, fun e' he' => ?_⟩
    · rcases hf with hf | ⟨f, hf, hforks⟩
      · exact ⟨e, by simp, hf⟩
      · exact ⟨f, by simp [hf], hforks⟩
    · rcases List.mem_append.mp he' with he' | he'
      · exact hall e' he'
      · exact List.mem_singleton.mp he' ▸ hne

/-- After an event that is no fork. -/
theorem waiting_append_other (hfork : ∀ clone, e.action ≠ .fork clone) :
    Waiting (own ++ [e]) tid ↔ Waiting own tid ∧ e.tid ≠ tid := by
  have hno : ¬ e.Forks tid := fun ⟨⟨clone, heq⟩, _⟩ => hfork clone heq
  rw [waiting_append, Waiting]
  tauto

end

/-! ## The invariant -/

/-- The system while a thread runs. -/
structure Settled (s : System V G (Thread G)) : Prop where
  current : ∃ th, s.thread s.current = .ok th
  awake : s.current ∉ s.newfork
  clones : ∀ tid ∈ s.newfork, ∃ th, s.thread tid = .ok th ∧ th.context.Started

/-- The choices of the system can be taken. -/
structure Offers (s : System V G (Thread G)) : Prop where
  switch : ∀ choice tid, s.lookup choice = .ok (.switch tid) →
    ∃ th, s.thread tid = .ok th ∧ th.context.alive = true
  fork : ∀ choice clone, s.lookup choice = .ok (.fork clone) → clone.context.Started
  stay : ∀ choice a, s.lookup choice = .ok a → (∀ tid, a ≠ .switch tid) →
    ∃ th, s.thread s.current = .ok th ∧ th.context.alive = true ∧
      (a = .nothing ∨ th.context.Started)

/-- The clones that have not run, after the resumptions in `own`. -/
structure Tracks (s : System V G (Thread G)) (own : List (Event V G)) : Prop where
  waiting : ∀ tid, tid ∈ s.newfork ↔ Waiting own tid
  older : ∀ e ∈ own, e.tid < s.threads.length
  current : s.current = latest own

section Advance

variable {s s' : System V G (Thread G)} {own : List (Event V G)} {choice : Label}
  {a : Action V G (Thread G)} {res : V} {th : Thread G}

theorem Settled.switchTo_current (h : Settled s) : (s.switchTo s.current).2 = s := by
  rw [System.switchTo, if_neg h.awake]

theorem act_fork {k : Thread G → Thread G} {clone : Thread G}
    (h : s.act k (.fork clone) = .ok (res, s')) :
    res = PyValue.int (1000 + s'.threads.length) ∧ s'.threads = s.threads ++ [k clone] ∧
      s'.newfork = insert s.threads.length s.newfork ∧ s'.current = s.current := by
  cases h
  simp

theorem act_switch_value {k : Thread G → Thread G} {tid : Nat}
    (h : s.act k (.switch tid) = .ok (res, s')) :
    (tid ∈ s.newfork → res = PyValue.int 0) ∧ (tid ∉ s.newfork → res = PyValue.none) := by
  obtain ⟨th, -, h⟩ := bind_ok h
  rw [System.switchTo] at h
  split at h <;> cases h <;> simp_all

theorem act_nothing {k : Thread G → Thread G} (ha : a = .nothing) (h : s.act k a = .ok (res, s')) :
    res = PyValue.none := by
  subst ha
  cases h
  rfl

theorem threads_grow {k : Thread G → Thread G} (h : s.act k a = .ok (res, s')) :
    ∃ new, s'.threads = s.threads ++ new := by
  rcases threads_act h with hsame | ⟨child, x, -, -, hth⟩ | ⟨clone, -, hth⟩
  · exact ⟨[], by simpa using hsame⟩
  · exact ⟨_, hth⟩
  · exact ⟨_, hth⟩

/-- What the action of a choice does, up to the thread that is then resumed. -/
inductive Taken (s : System V G (Thread G)) :
    Action V G (Thread G) → V → System V G (Thread G) → Thread G → Prop where
  | switch {tid res s' th} (hth : s.thread tid = .ok th) (halive : th.context.alive = true)
      (hthreads : s'.threads = s.threads) (hcur : s'.current = tid)
      (hnew : s'.newfork = s.newfork.erase tid) (hchild : tid ∈ s.newfork → res = PyValue.int 0)
      (hother : tid ∉ s.newfork → res = PyValue.none) : Taken s (.switch tid) res s' th
  | fork {clone res s' th} (hth : s.thread s.current = .ok th) (halive : th.context.alive = true)
      (hstarted : th.context.Started) (hclone : clone.context.Started)
      (hres : res = PyValue.int (1000 + s'.threads.length))
      (hthreads : s'.threads = s.threads ++ [clone]) (hcur : s'.current = s.current)
      (hnew : s'.newfork = insert s.threads.length s.newfork) : Taken s (.fork clone) res s' th
  | stay {a res s' th new} (hfork : ∀ clone, a ≠ .fork clone) (hswitch : ∀ tid, a ≠ .switch tid)
      (hth : s.thread s.current = .ok th) (halive : th.context.alive = true)
      (hfresh : th.context.Started ∨ res = PyValue.none) (hthreads : s'.threads = s.threads ++ new)
      (hcur : s'.current = s.current) (hnew : s'.newfork = s.newfork) : Taken s a res s' th

theorem advance_taken (hs : Settled s) (ho : Offers s)
    (h : s.advance (fun _ => id) choice = .ok (a, res, s', th)) : Taken s a res s' th := by
  obtain ⟨parent, hp, hlook, hact, hth⟩ := advance_ok h
  rw [hs.switchTo_current] at hact
  have hstay (hno : ∀ tid, a ≠ .switch tid) : s.thread s.current = .ok th ∧
      th.context.alive = true ∧ (a = .nothing ∨ th.context.Started) := by
    obtain ⟨x, hx, hrest⟩ := ho.stay choice a hlook hno
    obtain rfl := Except.ok.inj (hth.symm.trans (thread_act hno hx hact))
    exact ⟨hx, hrest⟩
  cases a with
  | switch tid =>
      obtain ⟨hthreads, hcur, hnew⟩ := act_switch hact
      obtain ⟨hchild, hother⟩ := act_switch_value hact
      obtain ⟨x, hx, halive⟩ := ho.switch choice tid hlook
      rw [thread_eq_ok, hthreads, hcur, ← thread_eq_ok] at hth
      obtain rfl := Except.ok.inj (hth.symm.trans hx)
      exact .switch hth halive hthreads hcur hnew hchild hother
  | fork clone =>
      obtain ⟨hres, hthreads, hnew, hcur⟩ := act_fork hact
      obtain ⟨hx, halive, hstarted⟩ := hstay (by simp)
      exact .fork hx halive (by simpa using hstarted) (ho.fork choice clone hlook) hres hthreads
        hcur hnew
  | _ =>
      obtain ⟨hcur, hnew⟩ := act_other (by simp) (by simp) hact
      obtain ⟨hx, halive, hstarted⟩ := hstay (by simp)
      obtain ⟨new, hthreads⟩ := threads_grow hact
      exact .stay (by simp) (by simp) hx halive
        (hstarted.symm.imp_right fun heq => act_nothing heq hact) hthreads hcur hnew

/-- Every choice that is offered can be taken. -/
theorem advance_of_lookup (hs : Settled s) (ho : Offers s) (h : s.lookup choice = .ok a) :
    ∃ res s' th, s.advance (fun _ => id) choice = .ok (a, res, s', th) := by
  obtain ⟨parent, hp⟩ := hs.current
  have hact : ∃ r th, s.act id a = .ok r ∧ r.2.thread r.2.current = .ok th := by
    rcases Classical.em (∃ tid, a = .switch tid) with ⟨tid, rfl⟩ | hno
    · obtain ⟨th, hth, -⟩ := ho.switch choice tid h
      refine ⟨s.switchTo tid, th, by simp only [System.act, hth]; rfl, ?_⟩
      rw [System.switchTo]
      split <;> exact hth
    · have hok : ∃ r, s.act id a = .ok r := by
        cases a with
        | switch tid => exact absurd ⟨tid, rfl⟩ hno
        | spawn child => exact ⟨_, by simp only [System.act, hp]; rfl⟩
        | _ => exact ⟨_, rfl⟩
      obtain ⟨r, hr⟩ := hok
      exact ⟨r, parent, hr, thread_act (fun tid heq => hno ⟨tid, heq⟩) hp hr⟩
  obtain ⟨r, th, hr, hth⟩ := hact
  refine ⟨r.1, r.2, th, ?_⟩
  simp only [System.advance, hp, hs.switchTo_current, h, hr, hth, bind, Except.bind]

omit [PyValue V] in
theorem thread_append {new : List (Thread G)} (hthreads : s'.threads = s.threads ++ new) {tid : Nat}
    (h : s.thread tid = .ok th) : s'.thread tid = .ok th := by
  rw [thread_eq_ok] at h ⊢
  rw [hthreads, List.getElem?_append_left (List.getElem?_eq_some_iff.mp h).1, h]

omit [PyValue V] in
theorem lt_of_thread {tid : Nat} (h : s.thread tid = .ok th) : tid < s.threads.length :=
  (List.getElem?_eq_some_iff.mp (thread_eq_ok.mp h)).1

theorem Taken.settled (hs : Settled s) (h : Taken s a res s' th) : Settled s' := by
  cases h with
  | switch hth _ hthreads hcur hnew =>
      have happ : s'.threads = s.threads ++ [] := by simpa using hthreads
      refine ⟨⟨th, hcur ▸ thread_append happ hth⟩, by simp [hcur, hnew], fun tid htid => ?_⟩
      rw [hnew] at htid
      obtain ⟨x, hx, hstarted⟩ := hs.clones tid (Finset.mem_of_mem_erase htid)
      exact ⟨x, thread_append happ hx, hstarted⟩
  | @fork clone _ _ _ hth _ _ hclone _ hthreads hcur hnew =>
      refine ⟨⟨th, hcur ▸ thread_append hthreads hth⟩, ?_, fun tid htid => ?_⟩
      · rw [hcur, hnew, Finset.mem_insert, not_or]
        exact ⟨(lt_of_thread hth).ne, hs.awake⟩
      · rw [hnew, Finset.mem_insert] at htid
        rcases htid with rfl | htid
        · refine ⟨clone, ?_, hclone⟩
          rw [thread_eq_ok, hthreads, List.getElem?_concat_length]
        · obtain ⟨x, hx, hstarted⟩ := hs.clones tid htid
          exact ⟨x, thread_append hthreads hx, hstarted⟩
  | stay _ _ hth _ _ hthreads hcur hnew =>
      refine ⟨⟨th, hcur ▸ thread_append hthreads hth⟩, hcur ▸ hnew ▸ hs.awake, fun tid htid => ?_⟩
      obtain ⟨x, hx, hstarted⟩ := hs.clones tid (hnew ▸ htid)
      exact ⟨x, thread_append hthreads hx, hstarted⟩

theorem Taken.tracks (hs : Settled s) (ht : Tracks s own) (n : Nat) (h : Taken s a res s' th) :
    Tracks s' (own ++ [Event.of n a res s' th]) := by
  have hgrow : s.threads.length ≤ s'.threads.length := by
    cases h with
    | switch _ _ hthreads => exact hthreads ▸ le_rfl
    | fork _ _ _ _ _ hthreads => simp [hthreads]
    | stay _ _ _ _ _ hthreads => simp [hthreads]
  obtain ⟨x, hx⟩ := (h.settled hs).current
  refine ⟨fun tid => ?_, fun e he => ?_, by simp [latest, Event.of]⟩
  · cases h with
    | switch _ _ _ hcur hnew =>
        rw [waiting_append_other (by simp [Event.of]), hnew, Finset.mem_erase, ht.waiting, and_comm]
        exact and_congr_right fun _ => by rw [Event.of, hcur, ne_comm]
    | @fork clone _ _ _ hth _ _ _ _ hthreads hcur hnew =>
        have hforks : (Event.of n (.fork clone) res s' th).Forks tid ↔ tid = s.threads.length := by
          simp [Event.Forks, Event.of, hthreads, eq_comm]
        have hsame : (Event.of n (.fork clone) res s' th).tid = s.current := hcur
        rw [waiting_append, hforks, hnew, Finset.mem_insert, hsame]
        constructor
        · rintro (rfl | htid)
          · exact ⟨.inl rfl, (lt_of_thread hth).ne, fun e he => (ht.older e he).ne⟩
          · obtain ⟨hf, hown⟩ := (ht.waiting tid).mp htid
            exact ⟨.inr hf, fun heq => hs.awake (heq ▸ htid), hown⟩
        · rintro ⟨rfl | hf, -, hown⟩
          · exact .inl rfl
          · exact .inr ((ht.waiting tid).mpr ⟨hf, hown⟩)
    | stay hfork _ _ _ _ _ hcur hnew =>
        have hsame : (Event.of n a res s' th).tid = s.current := hcur
        rw [waiting_append_other hfork, hnew, ← ht.waiting, hsame]
        exact ⟨fun htid => ⟨htid, fun heq => hs.awake (heq ▸ htid)⟩, And.left⟩
  · rcases List.mem_append.mp he with he | he
    · exact (ht.older e he).trans_le hgrow
    · rw [List.mem_singleton.mp he]
      exact lt_of_thread hx

theorem Taken.protocol (hs : Settled s) (ht : Tracks s own) (n : Nat) (h : Taken s a res s' th) :
    Protocol own (Event.of n a res s' th) := by
  cases h with
  | @switch tid _ _ _ hth halive _ hcur _ hchild hother =>
      have hwait : Waiting own (Event.of n (.switch tid) res s' th).tid → tid ∈ s.newfork :=
        fun hw => (ht.waiting tid).mpr (hcur ▸ hw)
      refine ⟨halive, fun g hg => hother fun htid => ?_, fun hw => hchild (hwait hw), ?_, ?_,
        fun hno => absurd rfl (hno tid)⟩
      · obtain ⟨x, hx, hstarted⟩ := hs.clones tid htid
        obtain rfl := Except.ok.inj (hth.symm.trans hx)
        exact hstarted g hg
      · rintro _ ⟨⟨clone, heq⟩, -⟩
        cases heq
      · rintro _ ⟨⟩
        exact ⟨hcur, fun hw => hother fun htid => hw ((ht.waiting tid).mp htid)⟩
  | fork hth halive hstarted _ hres _ hcur _ =>
      refine ⟨halive, fun g hg => absurd hg (hstarted g), fun hw => ?_, ?_, by simp [Event.of],
        fun _ => hcur.trans ht.current⟩
      · exact absurd ((ht.waiting s.current).mpr (hcur ▸ hw)) hs.awake
      · rintro tid ⟨-, hcount⟩
        rw [Event.of] at hcount ⊢
        simp only at hcount ⊢
        rw [hres, hcount, Nat.cast_add, Nat.cast_one]
  | stay hfork hswitch hth halive hfresh _ hcur _ =>
      refine ⟨halive, fun g hg => ?_, fun hw => ?_, ?_, fun tid heq => absurd heq (hswitch tid),
        fun _ => hcur.trans ht.current⟩
      · exact hfresh.resolve_left fun hstarted => hstarted g hg
      · exact absurd ((ht.waiting s.current).mpr (hcur ▸ hw)) hs.awake
      · rintro tid ⟨⟨clone, heq⟩, -⟩
        exact absurd heq (hfork clone)

end Advance

/-! ## The end of a step -/

section Ends

variable [DecidableEq V] {app : App V G H L S} {lo hi : Nat} {s s' : System V G (Thread G)}

omit [PyValue V] [DecidableEq V] in
theorem settled_setContext (hs : Settled s) (c : Context G)
    (cs : Option (Choices V G (Thread G))) :
    Settled ({ s.setContext c with choices := cs } : System V G (Thread G)) := by
  obtain ⟨th, hth⟩ := hs.current
  refine ⟨⟨_, thread_setContext hth c⟩, hs.awake, fun tid htid => ?_⟩
  obtain ⟨x, hx, hstarted⟩ := hs.clones tid htid
  refine ⟨x, ?_, hstarted⟩
  have hne : s.current ≠ tid := fun heq => hs.awake (heq ▸ htid)
  have hget : (s.setContext c).threads[tid]? = s.threads[tid]? := List.getElem?_modify_ne _ _ hne
  rw [thread_eq_ok] at hx ⊢
  exact hget.trans hx

/-- Only `sys_sched` offers to switch. -/
theorem handler_switch {d : Choices V G (Thread G)} {call : Syscall V G} (hcall : call ≠ .fork)
    {choice : Label} {tid : Nat} (h : (s.handler d call).get? choice = some (.switch tid)) :
    ∃ x, s.threads[tid]? = some x ∧ x.context.alive = true := by
  cases call with
  | fork => exact absurd rfl hcall
  | sched =>
      obtain ⟨_, x, ⟨⟩, hx, halive⟩ := sched_switch h
      exact ⟨x, hx, halive⟩
  | spawn child => cases (get?_oneChoice.mp h).2
  | write args => cases (get?_oneChoice.mp h).2
  | choose choices =>
      have hmem := Dict.get?_ofList_some h
      simp at hmem
  | device call =>
      rw [System.handler, Dict.get?_mapValues, Option.map_eq_some_iff] at h
      obtain ⟨act, -, hact⟩ := h
      cases hact

/-- A switch that is offered after a step leads to a live thread. -/
theorem Ends.switch (h : Ends app lo hi s s') {choice : Label} {tid : Nat}
    (hlook : s'.lookup choice = .ok (.switch tid)) :
    ∃ th, s'.thread tid = .ok th ∧ th.context.alive = true := by
  simp only [thread_eq_ok]
  cases h with
  | returned =>
      obtain ⟨_, x, ⟨⟩, hx, halive⟩ := sched_switch ((lookup_of_choices rfl).mp hlook)
      exact ⟨x, hx, halive⟩
  | called g hcall => exact handler_switch hcall ((lookup_of_choices rfl).mp hlook)
  | overridden g => cases hlook
  | forked g clone => cases (get?_oneChoice.mp ((lookup_of_choices rfl).mp hlook)).2

/-- A thread that stays the current one after a step has yielded a call. -/
theorem Ends.stay (hs : Settled s) (h : Ends app lo hi s s') {choice : Label}
    {a : Action V G (Thread G)} (hlook : s'.lookup choice = .ok a) (hno : ∀ tid, a ≠ .switch tid) :
    ∃ th, s'.thread s'.current = .ok th ∧ th.context.alive = true ∧ th.context.Started := by
  obtain ⟨th, hth⟩ := hs.current
  cases h with
  | returned =>
      obtain ⟨tid, _, heq, -⟩ := sched_switch ((lookup_of_choices rfl).mp hlook)
      exact absurd heq (hno tid)
  | called | overridden | forked =>
      exact ⟨_, thread_setContext hth _, rfl, by simp [Context.Started]⟩

theorem Ends.settled (hs : Settled s) (h : Ends app lo hi s s') : Settled s' := by
  cases h <;> exact settled_setContext hs _ _

theorem Ends.offers (hs : Settled s) (h : Ends app lo hi s s') : Offers s' where
  switch := fun _ _ hlook => h.switch hlook
  fork := fun _ _ hlook => (h.clone hlook).1
  stay := fun _ _ hlook hno => by
    obtain ⟨th, hth, halive, hstarted⟩ := h.stay hs hlook hno
    exact ⟨th, hth, halive, .inr hstarted⟩

theorem Ends.tracks {own : List (Event V G)} (ht : Tracks s own) (h : Ends app lo hi s s') :
    Tracks s' own := by
  have hctx (c : Context G) (cs : Option (Choices V G (Thread G))) :
      Tracks ({ s.setContext c with choices := cs } : System V G (Thread G)) own := by
    refine ⟨ht.waiting, fun e he => ?_, ht.current⟩
    simpa [System.setContext] using ht.older e he
  cases h <;> exact hctx _ _

end Ends

/-! ## Runs -/

section Run

variable [DecidableEq V] {app : App V G H L S} {send : Behavior V G H} {w : World H}
  {os : OperatingSystem V G} {own : List (Event V G)}

omit [PyValue V] [DecidableEq V] in
theorem invariant_create (w : World H) :
    Settled (create app w).2.sys ∧ Offers (create app w).2.sys ∧
      Tracks (create app w).2.sys ([] : List (Event V G)) := by
  have hchoice {choice : Label} {a : Action V G (Thread G)}
      (h : (create app w).2.sys.lookup choice = .ok a) : a = .nothing :=
    (get?_oneChoice.mp ((lookup_of_choices rfl).mp h)).2
  refine ⟨⟨⟨_, rfl⟩, Finset.notMem_empty _, fun tid h => absurd h (Finset.notMem_empty tid)⟩,
    ⟨fun _ _ h => ?_, fun _ _ h => ?_, fun _ _ h _ => ⟨_, rfl, rfl, .inl (hchoice h)⟩⟩,
    ⟨fun tid => ?_, by simp, rfl⟩⟩
  · cases hchoice h
  · cases hchoice h
  · exact iff_of_false (Finset.notMem_empty tid) (by simp [Waiting])

/-- The invariant holds in every state that is reached. -/
theorem Reach.invariant (h : Reach app send w os own) :
    Settled os.sys ∧ Offers os.sys ∧ Tracks os.sys own := by
  induction h with
  | create w => exact invariant_create w
  | wait _ _ ih => exact ih
  | step _ hstep ih =>
      obtain ⟨hs, ho, ht⟩ := ih
      obtain ⟨a, res, sys, th, hadv, rfl, hstepped⟩ := stepped_of_step hstep
      have htaken := advance_taken hs ho hadv
      have hs' := htaken.settled hs
      exact ⟨hstepped.ends.settled hs', hstepped.ends.offers hs',
        hstepped.ends.tracks (htaken.tracks hs ht _)⟩

/-- In every state that is reached and for every choice that it offers, a step resumes
a thread and sends what the protocol says.  The current thread does not wait. -/
theorem step_follows_protocol (h : Reach app send w os own) {choice : Label}
    {a : Action V G (Thread G)} (hoffer : os.sys.lookup choice = .ok a) (fuel : Nat)
    (stack : List Bool) (flag : Bool) (past : List (Event V G)) :
    os.sys.current ∉ os.sys.newfork ∧
    ∃ e nested, (stepRecorded app send (sysForkRecorded app send fuel) stack w os choice flag
        past).1 = past ++ e :: nested ∧
      e.os = os.id ∧ e.action = a ∧ Protocol own e := by
  obtain ⟨hs, ho, ht⟩ := h.invariant
  obtain ⟨res, sys, th, hadv⟩ := advance_of_lookup hs ho hoffer
  obtain ⟨nested, hlog, -⟩ :=
    stepRecorded_resumes send (sysForkRecorded_forks fuel) stack hadv w flag past
  exact ⟨hs.awake, _, nested, hlog, rfl, rfl, (advance_taken hs ho hadv).protocol hs ht os.id⟩

end Run

/-- An application that forks once and then schedules without end. -/
def forkOnce : App (Option Int) Nat Nat Nat Nat where
  name := "main"
  main := 0
  emptyHeap := 0
  call := fun g => if g = 1 then .fork else .sched
  send := fun g _ h => .yields (g + 1) (h + 1)
  startFrame := fun g => ⟨"main", 1, g⟩
  frame := fun g => ⟨"main", 2, g⟩
  showHeap := id

/-- The state after the fork, where the child waits. -/
theorem forkOnce_reach :
    ∃ w os own, Reach forkOnce (fun _ => forkOnce.send) w os own ∧
      os.sys.lookup (.str "t2") = .ok (.switch 1) ∧ Waiting own 1 := by
  obtain ⟨log, w, os, hrun, hoffer, hnew⟩ : ∃ log w os,
      replayRecorded forkOnce (fun _ => forkOnce.send)
        (sysForkRecorded forkOnce (fun _ => forkOnce.send) 2) [] [.str "main", .str "fork"]
        (create forkOnce (World.new 0)).1 (create forkOnce (World.new 0)).2 [] =
        (log, .ok (w, os)) ∧ os.sys.lookup (.str "t2") = .ok (.switch 1) ∧ 1 ∈ os.sys.newfork :=
    ⟨_, _, _, rfl, rfl, by decide⟩
  obtain ⟨own, hreach⟩ := (Reach.create (World.new 0)).replay hrun
  exact ⟨w, os, own, hreach, hoffer, (hreach.invariant.2.2.waiting 1).mp hnew⟩

/-- The child is scheduled and receives 0. -/
theorem step_follows_protocol_forkOnce :
    ∃ w os own, Reach forkOnce (fun _ => forkOnce.send) w os own ∧ Waiting own 1 ∧
      ∃ e nested, (stepRecorded forkOnce (fun _ => forkOnce.send)
          (sysForkRecorded forkOnce (fun _ => forkOnce.send) 2) [] w os (.str "t2") false []).1 =
        e :: nested ∧ e.tid = 1 ∧ e.value = some 0 := by
  obtain ⟨w, os, own, hreach, hoffer, hwait⟩ := forkOnce_reach
  obtain ⟨-, e, nested, hlog, -, haction, hprotocol⟩ :=
    step_follows_protocol hreach hoffer 2 [] false []
  have htid := (hprotocol.other 1 haction).1
  exact ⟨w, os, own, hreach, hwait, e, nested, hlog, htid, hprotocol.child (htid ▸ hwait)⟩

end OsCourse.Mosaic
