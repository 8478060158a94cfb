import OsCourse.Mosaic.Dump

/-!
# Merging states with equal dumps

The model checker takes two states with equal dumps for one state.  That is right
if the parts that a dump does not show are alike as well: the continuations of
the live threads (a dump shows the line, not the position in it, the pending
values or the iterators), the full contents of their heaps, and the order of the
buffered writes when a crash is pending.

For states with equal dumps that are alike, everything else follows.  `Agrees`
says that two machines are the same up to the order of dictionaries and the heaps
of threads that have returned.  A step keeps it (`step_agrees`), so two such
states have equal dumps after every further sequence of choices.
-/

namespace OsCourse.Mosaic

variable {V G H L S T U : Type} [DecidableEq V]

/-! ## Storages and actions up to order -/

/-- Equal stores, up to the order of the keys. -/
structure Storage.Same (s s' : Storage V) : Prop where
  persist : s.persist.Same s'.persist
  buf : s.buf.Same s'.buf

/-- Actions with the same effect, up to the order of the keys. -/
inductive Action.Same : Action V G T → Action V G T → Prop where
  | same {a : Action V G T} (h : ∀ act, a ≠ .device act) : Same a a
  | device {act act' : BlockAction V}
      (h : ∀ s s' : Storage V, s.Same s' → (act s).1 = (act' s').1 ∧ (act s).2.Same (act' s').2) :
      Same (.device act) (.device act')

/-- Choices with the same labels whose actions have the same effect. -/
def ChoicesSame (cs cs' : Choices V G T) : Prop :=
  ∀ c, Option.Rel Action.Same (cs.get? c) (cs'.get? c)

theorem choicesSame_refl {cs : Choices V G T}
    (h : ∀ c act, cs.get? c ≠ some (.device act)) : ChoicesSame cs cs := by
  intro c
  cases hc : cs.get? c with
  | none => exact .none
  | some a => exact .some (.same fun act he => h c act (he ▸ hc))

variable {s s' : Storage V}

theorem Storage.Same.crashed (h : s.Same s') (horder : s.buf.keys = s'.buf.keys) (bs : List Bool) :
    (s.crashed bs).Same (s'.crashed bs) := by
  have hbuf : s.buf = s'.buf := Dict.ext_keys horder h.buf
  constructor
  · rw [Storage.crashed, Storage.crashed, hbuf]
    exact h.persist.union fun _ => rfl
  · exact fun _ => rfl

variable [PyValue V]

theorem Storage.Same.read (h : s.Same s') (key : V) : s.read key = s'.read key := by
  rw [Storage.read, Storage.read, h.buf key, h.persist key]

/-- The crash sites of a buffer with `n` writes, by number. -/
def crashSites (n : Nat) : Dict Label (List Bool) :=
  Dict.ofList ((subsets n).zipIdx.map fun x => (.int x.2, x.1))

theorem sysCrash_eq (s : Storage V) :
    sysCrash s = (crashSites s.buf.entries.length).mapValues fun bs _ =>
      (PyValue.none, s.crashed bs) := by
  rw [sysCrash, crashSites, Dict.mapValues_ofList, List.map_map]
  rfl

omit [PyValue V] in
/-- Two families of device actions under the same labels. -/
theorem choicesSame_mapValues {α : Type} (d : Dict Label α) {f f' : α → BlockAction V}
    (h : ∀ (x : α) (s s' : Storage V), s.Same s' →
      (f x s).1 = (f' x s').1 ∧ (f x s).2.Same (f' x s').2) :
    ChoicesSame ((d.mapValues f).mapValues .device : Choices V G T)
      ((d.mapValues f').mapValues .device) := by
  intro c
  simp only [Dict.get?_mapValues]
  cases d.get? c with
  | none => exact .none
  | some x => exact .some (.device (h x))

omit [PyValue V] in
theorem choicesSame_oneChoice (label : String) {act act' : BlockAction V}
    (h : ∀ s s' : Storage V, s.Same s' → (act s).1 = (act' s').1 ∧ (act s).2.Same (act' s').2) :
    ChoicesSame ((oneChoice label act).mapValues .device : Choices V G T)
      ((oneChoice label act').mapValues .device) := by
  have hone : ∀ a : BlockAction V, oneChoice label a = (oneChoice label ()).mapValues fun _ => a :=
    fun _ => rfl
  rw [hone act, hone act']
  exact choicesSame_mapValues _ fun _ => h

/-- The device offers the same choices for equal stores.  For a crash the order of
the buffer counts. -/
theorem device_same (h : s.Same s') (call : Call V)
    (horder : call = .crash → s.buf.keys = s'.buf.keys) :
    ChoicesSame ((handle s call).mapValues .device : Choices V G T)
      ((handle s' call).mapValues .device) := by
  cases call with
  | bread key => exact choicesSame_oneChoice "bread" fun _ _ hx => ⟨h.read key, hx⟩
  | bwrite key value =>
      exact choicesSame_oneChoice "bwrite" fun _ _ hx => ⟨rfl, hx.persist, hx.buf.set key value⟩
  | sync =>
      exact choicesSame_oneChoice "sync" fun _ _ hx =>
        ⟨rfl, hx.persist.union hx.buf, fun _ => rfl⟩
  | crash =>
      rw [handle, handle, sysCrash_eq, sysCrash_eq, h.buf.length_eq]
      exact choicesSame_mapValues _ fun bs _ _ _ => ⟨rfl, h.crashed (horder rfl) bs⟩

/-- The labels do not depend on the order. -/
theorem keys_handle (h : s.Same s') (call : Call V) :
    (handle s call).keys = (handle s' call).keys := by
  cases call with
  | crash =>
      rw [handle, handle, sysCrash_eq, sysCrash_eq, h.buf.length_eq, Dict.keys_mapValues,
        Dict.keys_mapValues]
  | _ => rfl

/-! ## Systems that agree -/

/-- Threads that agree: the same context and, if they are live, the same heap
number. -/
def ThreadAgrees (th th' : Thread G) : Prop :=
  th.context = th'.context ∧ (th.context.alive = true → th.heap = th'.heap)

/-- Systems that agree up to the order of dictionaries and the heaps of threads
that have returned.  The choices follow from the rest. -/
structure System.Agrees (s s' : System V G T) : Prop where
  current_eq : s.current = s'.current
  threads : ∀ i : Nat, Option.Rel ThreadAgrees s.threads[i]? s'.threads[i]?
  stdout_eq : s.stdout = s'.stdout
  storage : s.storage.Same s'.storage
  newfork_eq : s.newfork = s'.newfork

omit [DecidableEq V] [PyValue V] in
theorem rel_cases {α β : Type} {r : α → β → Prop} {x : Option α} {y : Option β}
    (h : Option.Rel r x y) :
    (x = none ∧ y = none) ∨ ∃ a b, x = some a ∧ y = some b ∧ r a b := by
  cases h with
  | none => exact Or.inl ⟨rfl, rfl⟩
  | some hab => exact Or.inr ⟨_, _, rfl, rfl, hab⟩

section Agrees

variable {s s' : System V G T} (h : s.Agrees s')

include h

omit [PyValue V]

theorem agrees_contexts : s.threads.map Thread.context = s'.threads.map Thread.context := by
  refine List.ext_getElem? fun i => ?_
  rw [List.getElem?_map, List.getElem?_map]
  rcases rel_cases (h.threads i) with ⟨hx, hy⟩ | ⟨th, th', hx, hy, hth⟩
  · rw [hx, hy]
  · rw [hx, hy, Option.map_some, Option.map_some, hth.1]

theorem agrees_length : s.threads.length = s'.threads.length := by
  have hlen := congrArg List.length (agrees_contexts h)
  simpa using hlen

/-- Both systems have a thread, or both have none. -/
theorem agrees_thread (tid : Nat) :
    (s.thread tid = .error .indexError ∧ s'.thread tid = .error .indexError) ∨
      ∃ th th', s.thread tid = .ok th ∧ s'.thread tid = .ok th' ∧ ThreadAgrees th th' := by
  rw [System.thread, System.thread]
  rcases rel_cases (h.threads tid) with ⟨hx, hy⟩ | ⟨th, th', hx, hy, hth⟩
  · exact Or.inl ⟨by rw [hx], by rw [hy]⟩
  · exact Or.inr ⟨th, th', by rw [hx], by rw [hy], hth⟩

theorem agrees_current {th th' : Thread G} (hth : s.thread s.current = .ok th)
    (hth' : s'.thread s'.current = .ok th') : ThreadAgrees th th' := by
  rcases agrees_thread h s.current with ⟨hx, -⟩ | ⟨x, x', hx, hx', hxx⟩
  · rw [hth] at hx
    cases hx
  · rw [h.current_eq, hth'] at hx'
    rw [hth] at hx
    cases hx
    cases hx'
    exact hxx

theorem agrees_sched : s.sched = s'.sched := by
  have hsched : ∀ s : System V G T, s.sched =
      Dict.ofList (((s.threads.map Thread.context).zipIdx.filter fun x => x.1.alive).map fun x =>
        (.str ("t" ++ toString (x.2 + 1)), .switch x.2)) := by
    intro s
    rw [System.sched, List.zipIdx_map, List.filter_map, List.map_map]
    rfl
  rw [hsched s, hsched s', agrees_contexts h]

/-- One more thread on both sides. -/
theorem threads_concat {th th' : Thread G} (hth : ThreadAgrees th th') (i : Nat) :
    Option.Rel ThreadAgrees (s.threads ++ [th])[i]? (s'.threads ++ [th'])[i]? := by
  rw [List.getElem?_append, List.getElem?_append, agrees_length h]
  split
  · exact h.threads i
  · rw [List.getElem?_singleton, List.getElem?_singleton]
    split
    · exact .some hth
    · exact .none

theorem agrees_setContext
    (hcur : ∀ th th', s.thread s.current = .ok th → s'.thread s'.current = .ok th' →
      th.heap = th'.heap)
    (ctx : Context G) (cs cs' : Option (Choices V G T)) :
    ({ s.setContext ctx with choices := cs } : System V G T).Agrees
      { s'.setContext ctx with choices := cs' } where
  current_eq := h.current_eq
  threads := by
    intro i
    simp only [System.setContext, List.getElem?_modify, h.current_eq]
    rcases rel_cases (h.threads i) with ⟨hx, hy⟩ | ⟨th, th', hx, hy, hth⟩
    · rw [hx, hy]
      exact .none
    · rw [hx, hy]
      refine .some ?_
      split
      next hi =>
        subst hi
        have hx' : s.thread s.current = .ok th := thread_eq_ok.mpr (h.current_eq ▸ hx)
        exact ⟨rfl, fun _ => hcur th th' hx' (thread_eq_ok.mpr hy)⟩
      next => exact hth
  stdout_eq := h.stdout_eq
  storage := h.storage
  newfork_eq := h.newfork_eq

end Agrees

/-- Actions with the same effect keep systems in agreement. -/
theorem act_agrees {s s' : System V G T} (h : s.Agrees s') {k k' : T → Thread G}
    (hk : ∀ c, ThreadAgrees (k c) (k' c)) {a a' : Action V G T} (ha : a.Same a')
    (hlive : ∀ child th, a = .spawn child → s.thread s.current = .ok th →
      th.context.alive = true) :
    (∃ e, s.act k a = .error e ∧ s'.act k' a' = .error e) ∨
      ∃ res r r', s.act k a = .ok (res, r) ∧ s'.act k' a' = .ok (res, r') ∧ r.Agrees r' := by
  cases ha with
  | @device act act' hact =>
      obtain ⟨hres, hst⟩ := hact s.storage s'.storage h.storage
      have hs' : s'.act k' (.device act') =
          .ok ((act s.storage).1, { s' with storage := (act' s'.storage).2 }) := by
        rw [System.act, hres]
      exact Or.inr ⟨_, _, _, rfl, hs', { h with storage := hst }⟩
  | same hdev =>
      cases a with
      | device act => exact absurd rfl (hdev act)
      | nothing => exact Or.inr ⟨_, _, _, rfl, rfl, h⟩
      | value v => exact Or.inr ⟨_, _, _, rfl, rfl, h⟩
      | write args =>
          exact Or.inr ⟨_, _, _, rfl, rfl, { h with stdout_eq := by rw [h.stdout_eq] }⟩
      | fork c =>
          have hlen : (s'.threads ++ [k' c]).length = (s.threads ++ [k c]).length := by
            simp [agrees_length h]
          have hs' : s'.act k' (.fork c) =
              .ok (PyValue.int (1000 + (s.threads ++ [k c]).length),
                { s' with
                  threads := s'.threads ++ [k' c]
                  newfork := insert ((s.threads ++ [k c]).length - 1) s.newfork }) := by
            simp only [System.act, hlen, h.newfork_eq]
          exact Or.inr ⟨_, _, _, rfl, hs',
            { h with threads := threads_concat h (hk c), newfork_eq := rfl }⟩
      | spawn child =>
          simp only [System.act, ← h.current_eq]
          rcases agrees_thread h s.current with ⟨hx, hy⟩ | ⟨th, th', hx, hy, hth⟩
          · rw [hx, hy]
            exact Or.inl ⟨_, rfl, rfl⟩
          · have hheap := hth.2 (hlive child th rfl hx)
            rw [hx, hy]
            exact Or.inr ⟨_, _, _, rfl, rfl,
              { h with current_eq := rfl, threads := threads_concat h ⟨rfl, fun _ => hheap⟩ }⟩
      | switch tid =>
          simp only [System.act]
          rcases agrees_thread h tid with ⟨hx, hy⟩ | ⟨th, th', hx, hy, hth⟩
          · rw [hx, hy]
            exact Or.inl ⟨_, rfl, rfl⟩
          · rw [hx, hy]
            simp only [bind, Except.bind, System.switchTo, h.newfork_eq]
            split
            · exact Or.inr ⟨_, _, _, rfl, rfl, { h with current_eq := rfl, newfork_eq := rfl }⟩
            · exact Or.inr ⟨_, _, _, rfl, rfl, { h with current_eq := rfl, newfork_eq := rfl }⟩

section Offered

variable (app : App V G H L S)

/-- The current thread is at a crash. -/
def System.AtCrash (s : System V G T) : Prop :=
  ∃ th g, s.thread s.current = .ok th ∧ th.context = .suspended g ∧
    app.call g = .device .crash

theorem offered_same {s s' : System V G Unit} (h : s.Agrees s') (ctx : Context G)
    (horder : ∀ g, ctx = .suspended g → app.call g = .device .crash →
      s.storage.buf.keys = s'.storage.buf.keys) :
    ChoicesSame (s.offered app ctx) (s'.offered app ctx) := by
  have hsched : ∀ c act, s'.sched.get? c ≠ some (.device act) := by
    intro c act hc
    obtain ⟨tid, th, ha, -, -⟩ := sched_switch hc
    cases ha
  have hone : ∀ (label : String) (a : Action V G Unit), (∀ act, a ≠ .device act) →
      ChoicesSame (oneChoice label a) (oneChoice label a) := fun label a ha =>
    choicesSame_refl fun c act hc => ha act (get?_oneChoice.mp hc).2.symm
  cases ctx with
  | fresh g => exact hone app.name .nothing (by simp)
  | finished =>
      rw [System.offered, System.offered, agrees_sched h]
      exact choicesSame_refl hsched
  | suspended g =>
      have hcrash := horder g rfl
      rw [System.offered, System.offered]
      cases hcall : app.call g with
      | spawn child => exact hone "spawn" (.spawn child) (by simp)
      | fork => exact hone "fork" (.fork ()) (by simp)
      | write args => exact hone "write" (.write args) (by simp)
      | sched =>
          rw [System.handler, System.handler, agrees_sched h]
          exact choicesSame_refl hsched
      | choose choices =>
          refine choicesSame_refl fun c act hc => ?_
          have hmem := Dict.get?_ofList_some hc
          simp at hmem
      | device call =>
          refine device_same h.storage call fun he => hcrash ?_
          rw [hcall, he]

theorem keys_offered {s s' : System V G Unit} (h : s.Agrees s') (ctx : Context G) :
    (s.offered app ctx).keys = (s'.offered app ctx).keys := by
  cases ctx with
  | fresh g => rfl
  | finished => rw [System.offered, System.offered, agrees_sched h]
  | suspended g =>
      rw [System.offered, System.offered]
      cases app.call g with
      | sched => rw [System.handler, System.handler, agrees_sched h]
      | device call =>
          simp only [System.handler, Dict.keys_mapValues]
          exact keys_handle h.storage call
      | _ => rfl

end Offered

/-! ## Machines that agree -/

section Machines

variable (app : App V G H L S)

/-- Machines that agree: their systems do, the heaps of live threads have the same
contents, and all heaps show the same. -/
structure Machine.Agrees (m m' : Machine V G H) : Prop where
  sys : m.sys.Agrees m'.sys
  count_eq : m.count = m'.count
  live : ∀ th ∈ m.sys.threads, th.context.alive = true → m.heaps th.heap = m'.heaps th.heap
  shown : ∀ i < m.count, app.showHeap (m.heaps i) = app.showHeap (m'.heaps i)

section Step

variable {m m' : Machine V G H} (hag : m.Agrees app m') (hm : m.Valid app) (hm' : m'.Valid app)

include hag hm hm'

/-- The part of a step before the thread is resumed: both machines fail in the
same way, or both resume the same context in the same heap with the same value. -/
theorem advance_agrees (choice : Label)
    (horder : m.sys.AtCrash app → m.sys.storage.buf.keys = m'.sys.storage.buf.keys) :
    (∃ e, m.sys.advance (fun parent _ => ⟨parent.context, m.count⟩) choice = .error e ∧
        m'.sys.advance (fun parent _ => ⟨parent.context, m'.count⟩) choice = .error e) ∨
      ∃ a a' res sys sys' th th',
        m.sys.advance (fun parent _ => ⟨parent.context, m.count⟩) choice = .ok (a, res, sys, th) ∧
        m'.sys.advance (fun parent _ => ⟨parent.context, m'.count⟩) choice =
          .ok (a', res, sys', th') ∧
        a.Same a' ∧ sys.Agrees sys' ∧ ThreadAgrees th th' := by
  obtain ⟨parent, hp, hcs⟩ := hm.offers
  obtain ⟨parent', hp', hcs'⟩ := hm'.offers
  have hpar := agrees_current hag.sys hp hp'
  have hcur : ∀ s : System V G Unit, s.ForksWait app → (s.switchTo s.current).2 = s :=
    fun s hs => switchTo_current app hs
  have hsame := offered_same app hag.sys parent.context fun g hg hcall =>
    horder ⟨parent, g, hp, hg, hcall⟩
  simp only [System.advance, hcur m.sys hm.forksWait, hcur m'.sys hm'.forksWait, hp, hp', bind,
    Except.bind, System.lookup, hcs, hcs', ← hpar.1]
  rcases rel_cases (hsame choice) with ⟨hx, hy⟩ | ⟨a, a', hx, hy, ha⟩
  · rw [hx, hy]
    exact Or.inl ⟨_, rfl, rfl⟩
  · rw [hx, hy]
    simp only
    have hlive : ∀ child th, a = .spawn child → m.sys.thread m.sys.current = .ok th →
        th.context.alive = true := by
      intro child th hspawn hth
      cases Except.ok.inj (hp.symm.trans hth)
      cases hspawn
      exact alive_of_offered app hx (by simp)
    have hk : ∀ c : Unit, ThreadAgrees (⟨parent.context, m.count⟩ : Thread G)
        ⟨parent'.context, m'.count⟩ := fun _ => ⟨hpar.1, fun _ => hag.count_eq⟩
    rw [← hpar.1] at hk
    rcases act_agrees hag.sys hk ha hlive with ⟨e, hact, hact'⟩ | ⟨res, r, r', hact, hact', hr⟩
    · simp only [hact, hact']
      exact Or.inl ⟨e, rfl, rfl⟩
    · simp only [hact, hact', ← hr.current_eq]
      rcases agrees_thread hr r.current with ⟨hx, hy⟩ | ⟨th, th', hx, hy, hth⟩
      · simp only [hx, hy]
        exact Or.inl ⟨_, rfl, rfl⟩
      · simp only [hx, hy]
        exact Or.inr ⟨a, a', res, r, r', th, th', rfl, rfl, ha, hr, hth⟩

omit [PyValue V] hm hm' in
/-- A fork adds the same heap to both machines. -/
theorem agrees_fork {parent parent' : Thread G} {sys sys' : System V G Unit}
    (hbelow : ∀ x ∈ m.sys.threads, x.heap < m.count) (hp : m.sys.thread m.sys.current = .ok parent)
    (hp' : m'.sys.thread m'.sys.current = .ok parent')
    (hheap : m.heaps parent.heap = m'.heaps parent'.heap)
    (hthreads : sys.threads = m.sys.threads ++ [⟨parent.context, m.count⟩])
    (hsys : sys.Agrees sys') :
    ({ m.afterAction (.fork ()) with sys := sys } : Machine V G H).Agrees app
      { m'.afterAction (.fork ()) with sys := sys' } := by
  rw [afterAction_fork hp, afterAction_fork hp', ← hag.count_eq, ← hheap]
  have hne : ∀ i < m.count, ∀ h : H, ∀ heaps : Nat → H,
      Function.update heaps m.count h i = heaps i := fun i hi h heaps =>
    Function.update_of_ne hi.ne h heaps
  refine ⟨hsys, rfl, ?_, ?_⟩
  · intro x hx hlive
    simp only [hthreads] at hx
    rcases List.mem_append.mp hx with hx | hx
    · simp only [hne _ (hbelow x hx)]
      exact hag.live x hx hlive
    · rw [List.mem_singleton.mp hx]
      simp only [Function.update_self]
  · intro i hi
    rcases Nat.lt_succ_iff_lt_or_eq.mp hi with hi | rfl
    · simp only [hne _ hi]
      exact hag.shown i hi
    · simp only [Function.update_self]

/-- After an action the machines agree, with the systems after it. -/
theorem agrees_afterAction {choice : Label} {a a' : Action V G Unit} {res : V}
    {sys sys' : System V G Unit} {th th' : Thread G}
    (hadv : m.sys.advance (fun parent _ => ⟨parent.context, m.count⟩) choice =
      .ok (a, res, sys, th))
    (hadv' : m'.sys.advance (fun parent _ => ⟨parent.context, m'.count⟩) choice =
      .ok (a', res, sys', th'))
    (ha : a.Same a') (hsys : sys.Agrees sys') :
    ({ m.afterAction a with sys := sys } : Machine V G H).Agrees app
      { m'.afterAction a' with sys := sys' } := by
  obtain ⟨parent, hp, hget, hact, -⟩ := advance_valid app hm hadv
  obtain ⟨parent', hp', -, -, -⟩ := advance_valid app hm' hadv'
  rcases eq_or_ne a (.fork ()) with rfl | hfork
  · cases ha with
    | same _ =>
        have halive := alive_of_offered app hget nofun
        have hheap : m.heaps parent.heap = m'.heaps parent'.heap := by
          rw [← (agrees_current hag.sys hp hp').2 halive]
          exact hag.live parent (mem_of_thread hp) halive
        have hbelow : ∀ x ∈ m.sys.threads, x.heap < m.count := fun x hx =>
          hm.inOrder.lt (List.mem_map_of_mem hx)
        cases hact
        exact agrees_fork app hag hbelow hp hp' hheap rfl hsys
  · have hfork' : a' ≠ .fork () := by
      cases ha with
      | same _ => exact hfork
      | device _ => exact nofun
    rw [afterAction_other hfork, afterAction_other hfork']
    refine ⟨hsys, hag.count_eq, ?_, hag.shown⟩
    intro x hx hlive
    rcases threads_act hact with hsame | ⟨child, y, rfl, hy, hthreads⟩ | ⟨c, he, -⟩
    · exact hag.live x (hsame ▸ hx) hlive
    · rw [hthreads] at hx
      rcases List.mem_append.mp hx with hx | hx
      · exact hag.live x hx hlive
      · cases Except.ok.inj (hp.symm.trans hy)
        have halive := alive_of_offered app hget nofun
        rw [List.mem_singleton.mp hx]
        exact hag.live parent (mem_of_thread hp) halive
    · exact absurd he hfork

end Step

omit [DecidableEq V] [PyValue V] in
theorem mem_setContext {s : System V G T} {ctx : Context G} {x : Thread G}
    (h : x ∈ (s.setContext ctx).threads) :
    x ∈ s.threads ∨ ∃ th, s.thread s.current = .ok th ∧ x = { th with context := ctx } := by
  obtain ⟨i, hi⟩ := List.getElem?_of_mem h
  rcases eq_or_ne s.current i with rfl | hne
  · cases hth : s.threads[s.current]? with
    | none => simp [System.setContext, hth] at hi
    | some th =>
        simp only [System.setContext, List.getElem?_modify_eq, hth, Option.map_eq_map,
          Option.map_some, Option.some.injEq] at hi
        exact Or.inr ⟨th, thread_eq_ok.mpr hth, hi.symm⟩
  · have hget : (s.setContext ctx).threads[i]? = s.threads[i]? := List.getElem?_modify_ne _ _ hne
    exact Or.inl (List.mem_of_getElem? (hget ▸ hi))

variable {m m' : Machine V G H}

omit [PyValue V] in
/-- The current thread of both machines gets the same context and writes the same
contents to its heap. -/
theorem agrees_write (hag : m.Agrees app m') {th th' : Thread G}
    (hth : m.sys.thread m.sys.current = .ok th) (hth' : m'.sys.thread m'.sys.current = .ok th')
    (hheap : th.heap = th'.heap) (ctx : Context G) (h : H) (cs cs' : Choices V G Unit) :
    ({ m with
        sys := { m.sys.setContext ctx with choices := some cs }
        heaps := Function.update m.heaps th.heap h } : Machine V G H).Agrees app
      { m' with
        sys := { m'.sys.setContext ctx with choices := some cs' }
        heaps := Function.update m'.heaps th'.heap h } := by
  rw [← hheap]
  constructor
  · refine agrees_setContext hag.sys ?_ ctx _ _
    intro x x' hx hx'
    cases Except.ok.inj (hth.symm.trans hx)
    cases Except.ok.inj (hth'.symm.trans hx')
    exact hheap
  · exact hag.count_eq
  · intro x hx hlive
    rcases eq_or_ne x.heap th.heap with he | hne
    · simp only [he, Function.update_self]
    · simp only [Function.update_of_ne hne]
      rcases mem_setContext hx with hx | ⟨y, hy, rfl⟩
      · exact hag.live x hx hlive
      · cases Except.ok.inj (hth.symm.trans hy)
        exact absurd rfl hne
  · intro i hi
    rcases eq_or_ne i th.heap with rfl | hne
    · simp only [Function.update_self]
    · simp only [Function.update_of_ne hne]
      exact hag.shown i hi

/-- Both results are failures of the same kind, or the machines agree. -/
def ResultsAgree (x y : Except Fault (Machine V G H)) : Prop :=
  (∃ e, x = .error e ∧ y = .error e) ∨ ∃ m m', x = .ok m ∧ y = .ok m' ∧ m.Agrees app m'

/-- A step keeps machines in agreement. -/
theorem step_agrees (hag : m.Agrees app m') (hm : m.Valid app) (hm' : m'.Valid app) (choice : Label)
    (horder : m.sys.AtCrash app → m.sys.storage.buf.keys = m'.sys.storage.buf.keys) :
    ResultsAgree app (m.step app choice) (m'.step app choice) := by
  rw [Machine.step, Machine.step]
  rcases advance_agrees app hag hm hm' choice horder with
    ⟨e, hadv, hadv'⟩ | ⟨a, a', res, sys, sys', th, th', hadv, hadv', ha, hsys, hth⟩
  · rw [hadv, hadv']
    exact Or.inl ⟨e, rfl, rfl⟩
  · have hmid := agrees_afterAction app hag hm hm' hadv hadv' ha hsys
    have halive := advance_alive app hm hadv
    have hcur := (advance_valid app hm hadv).choose_spec.2.2.2
    have hcur' := (advance_valid app hm' hadv').choose_spec.2.2.2
    have hheap : th.heap = th'.heap := hth.2 halive
    have hcont : (m.afterAction a).heaps th.heap = (m'.afterAction a').heaps th'.heap := by
      rw [← hheap]
      exact hmid.live th (mem_of_thread hcur) halive
    rw [hadv, hadv']
    simp only [bind, Except.bind, ← hcont, ← hth.1]
    cases resume app ((m.afterAction a).heaps th.heap) res th.context with
    | error e => exact Or.inl ⟨e, rfl, rfl⟩
    | ok r =>
        cases r with
        | raises => exact Or.inl ⟨.raised, rfl, rfl⟩
        | returns x =>
            exact Or.inr ⟨_, _, rfl, rfl, agrees_write app hmid hcur hcur' hheap .finished x _ _⟩
        | yields g x =>
            exact Or.inr ⟨_, _, rfl, rfl,
              agrees_write app hmid hcur hcur' hheap (.suspended g) x _ _⟩

/-- Machines that agree go on in agreement, as long as the buffers have the same
order at every crash. -/
theorem run_agrees {ext : List Label} (hag : m.Agrees app m') (hm : m.Valid app)
    (hm' : m'.Valid app)
    (horder : ∀ e c rest n n', ext = e ++ c :: rest → Machine.run app e m = .ok n →
      Machine.run app e m' = .ok n' → n.sys.AtCrash app →
        n.sys.storage.buf.keys = n'.sys.storage.buf.keys) :
    ResultsAgree app (Machine.run app ext m) (Machine.run app ext m') := by
  induction ext generalizing m m' with
  | nil => exact Or.inr ⟨m, m', rfl, rfl, hag⟩
  | cons c ext ih =>
      rw [Machine.run, Machine.run]
      rcases step_agrees app hag hm hm' c (horder [] c ext m m' rfl rfl rfl) with
        ⟨e, hs, hs'⟩ | ⟨n, n', hs, hs', hn⟩
      · rw [hs, hs']
        exact Or.inl ⟨e, rfl, rfl⟩
      · rw [hs, hs']
        refine ih hn (step_valid app hm hs) (step_valid app hm' hs') ?_
        intro e d rest k k' hext hk hk'
        have hcons : ∀ {m n : Machine V G H}, m.step app c = .ok n →
            Machine.run app (c :: e) m = Machine.run app e n := by
          intro m n hmn
          rw [Machine.run, hmn]
          rfl
        exact horder (c :: e) d rest k k' (by rw [hext]; rfl) ((hcons hs).trans hk)
          ((hcons hs').trans hk')

/-! ## Dumps of machines -/

/-- The heaps in the dump of a machine. -/
theorem get?_dump_heaps (hm : m.Valid app) (i : Nat) :
    (m.dump app).heaps.get? (i + 1) =
      if i < m.count then some (app.showHeap (m.heaps i)) else none := by
  have hlist : (m.sys.threads.map fun th => (th.heap + 1, app.showHeap (m.heaps th.heap))) =
      ((m.sys.threads.map Thread.heap).map (· + 1)).map fun k =>
        (k, app.showHeap (m.heaps (k - 1))) := by
    rw [List.map_map, List.map_map]
    rfl
  have hmem : i + 1 ∈ (m.sys.threads.map Thread.heap).map (· + 1) ↔ i < m.count := by
    rw [List.mem_map]
    constructor
    · rintro ⟨j, hj, he⟩
      cases he
      exact hm.inOrder.lt hj
    · intro hi
      exact ⟨i, hm.inOrder.mem hi, rfl⟩
  rw [Machine.dump, System.dump, hlist, Dict.get?_ofList_fun]
  simp only [hmem, Nat.add_sub_cancel]

omit [DecidableEq V] [PyValue V] in
theorem get?_dump_zero (m : Machine V G H) : (m.dump app).heaps.get? 0 = none := by
  rw [Option.eq_none_iff_forall_ne_some]
  intro x hx
  have hmem := Dict.get?_ofList_some hx
  simp at hmem

/-- Machines that agree have equal dumps. -/
theorem dump_same (hag : m.Agrees app m') (hm : m.Valid app) (hm' : m'.Valid app) :
    (m.dump app).Same (m'.dump app) where
  current_eq := hag.sys.current_eq
  choices_eq := by
    obtain ⟨th, hth, hcs⟩ := hm.offers
    obtain ⟨th', hth', hcs'⟩ := hm'.offers
    have hctx := (agrees_current hag.sys hth hth').1
    simp only [Machine.dump, System.dump, hcs, hcs', Option.map_some, Option.getD_some, ← hctx,
      keys_offered app hag.sys]
  contexts_eq := by
    refine List.ext_getElem? fun i => ?_
    simp only [Machine.dump, System.dump, List.getElem?_map]
    rcases rel_cases (hag.sys.threads i) with ⟨hx, hy⟩ | ⟨th, th', hx, hy, hth⟩
    · rw [hx, hy]
    · rw [hx, hy, Option.map_some, Option.map_some, ← hth.1]
      cases hctx : th.context with
      | finished => rfl
      | fresh g => rw [hth.2 (by rw [hctx]; rfl)]
      | suspended g => rw [hth.2 (by rw [hctx]; rfl)]
  heaps_same := by
    intro k
    cases k with
    | zero => rw [get?_dump_zero, get?_dump_zero]
    | succ i =>
        rw [get?_dump_heaps app hm, get?_dump_heaps app hm', ← hag.count_eq]
        split
        next hi => rw [hag.shown i hi]
        next => rfl
  stdout_eq := hag.sys.stdout_eq
  persist_same := hag.sys.storage.persist
  buffer_same := hag.sys.storage.buf

/-- Two systems, with the contents of heaps by address, are alike: live threads in
the same place have the same continuation, and their heaps have the same
contents. -/
structure Alike (s : System V G T) (heaps : Nat → H) (s' : System V G U) (heaps' : Nat → H) :
    Prop where
  context_eq : ∀ (i : Nat) (th th' : Thread G), s.threads[i]? = some th →
    s'.threads[i]? = some th' → th.context.alive = true → th'.context.alive = true →
      th.context = th'.context
  heap_eq : ∀ (i : Nat) (th th' : Thread G), s.threads[i]? = some th →
    s'.threads[i]? = some th' → th.context.alive = true → th'.context.alive = true →
      heaps th.heap = heaps' th'.heap

section Recover

variable {m m' : Machine V G H} (hm : m.Valid app) (hm' : m'.Valid app)
  (hsame : (m.dump app).Same (m'.dump app)) (halike : Alike m.sys m.heaps m'.sys m'.heaps)

include hsame halike in
omit [PyValue V] in
/-- Equal dumps show threads that agree, if the continuations are the same. -/
theorem threads_of_dump (i : Nat) :
    Option.Rel ThreadAgrees m.sys.threads[i]? m'.sys.threads[i]? := by
  have hi := congrArg (fun l => l[i]?) hsame.contexts_eq
  simp only [Machine.dump, System.dump, List.getElem?_map] at hi
  cases hx : m.sys.threads[i]? with
  | none =>
      rw [hx] at hi
      cases hy : m'.sys.threads[i]? with
      | none => exact .none
      | some th' => rw [hy] at hi; cases hi
  | some th =>
      rw [hx] at hi
      cases hy : m'.sys.threads[i]? with
      | none => rw [hy] at hi; cases hi
      | some th' =>
          rw [hy] at hi
          obtain ⟨halive, hheap⟩ := thread_of_shown app (Option.some.inj hi)
          refine .some ⟨?_, fun hlive => Nat.succ.inj (hheap hlive)⟩
          cases hlive : th.context.alive with
          | true => exact halike.context_eq i th th' hx hy hlive (halive ▸ hlive)
          | false =>
              rw [alive_eq_false_iff.mp hlive, alive_eq_false_iff.mp (halive.symm.trans hlive)]

include hm hm' hsame in
theorem count_of_dump : m.count = m'.count := by
  have hiff : ∀ i, i < m.count ↔ i < m'.count := by
    intro i
    have hi := congrArg Option.isSome (hsame.heaps_same (i + 1))
    rw [get?_dump_heaps app hm, get?_dump_heaps app hm'] at hi
    split at hi
    next h =>
      split at hi
      next h' => exact iff_of_true h h'
      next => cases hi
    next h =>
      split at hi
      next => cases hi
      next h' => exact iff_of_false h h'
  have h1 := hiff m.count
  have h2 := hiff m'.count
  omega

include hm hm' hsame halike

/-- Machines with equal dumps that are alike agree. -/
theorem agrees_of_dump : m.Agrees app m' := by
  have hthreads := threads_of_dump app hsame halike
  have hcount := count_of_dump app hm hm' hsame
  refine ⟨⟨hsame.current_eq, hthreads, hsame.stdout_eq,
      ⟨hsame.persist_same, hsame.buffer_same⟩, ?_⟩,
    hcount, ?_, ?_⟩
  · -- who waits at a fork follows from the contexts
    ext i
    rw [hm.forksWait i, hm'.forksWait i, show m.sys.current = m'.sys.current from hsame.current_eq]
    refine and_congr_right fun _ => ?_
    rcases rel_cases (hthreads i) with ⟨hx, hy⟩ | ⟨th, th', hx, hy, hth⟩
    · simp [hx, hy]
    · simp [hx, hy, hth.1]
  · intro th hmem hlive
    obtain ⟨i, hx⟩ := List.getElem?_of_mem hmem
    rcases rel_cases (hthreads i) with ⟨hx', -⟩ | ⟨x, th', hx', hy, hth⟩
    · rw [hx] at hx'
      cases hx'
    · cases Option.some.inj (hx.symm.trans hx')
      have hheap := halike.heap_eq i th th' hx hy hlive (hth.1 ▸ hlive)
      rw [hheap, hth.2 hlive]
  · intro i hi
    have hget := hsame.heaps_same (i + 1)
    rw [get?_dump_heaps app hm, get?_dump_heaps app hm', if_pos hi, if_pos (hcount ▸ hi)] at hget
    exact Option.some.inj hget

end Recover

/-! ## Replays -/

/-- The replays of two traces end in states that are alike. -/
def EndAlike (w w' : World H) (trace trace' : List Label) : Prop :=
  ∀ x x', replay app trace.length trace w = .ok x → replay app trace'.length trace' w' = .ok x' →
    Alike x.2.sys x.1.heaps x'.2.sys x'.1.heaps

/-- If a crash is pending after the replays of two traces, the keys of the buffers
stand in the same order. -/
def EndInOrder (w w' : World H) (trace trace' : List Label) : Prop :=
  ∀ x x', replay app trace.length trace w = .ok x → replay app trace'.length trace' w' = .ok x' →
    x.2.sys.AtCrash app → x.2.sys.storage.buf.keys = x'.2.sys.storage.buf.keys

/-- Two replays fail in the same way, or they end in states with equal dumps. -/
def DumpsAgree (x y : Except Fault (World H × Dump V L S)) : Prop :=
  (∃ e, x = .error e ∧ y = .error e) ∨ ∃ p q, x = .ok p ∧ y = .ok q ∧ p.2.Same q.2

variable {w w' : World H} {trace trace' : List Label} {m m' : Machine V G H}
  (hrun : Machine.run app trace (Machine.init app) = .ok m)
  (hrun' : Machine.run app trace' (Machine.init app) = .ok m')

include hrun hrun'

/-- Machines are alike if the systems of the replays are. -/
theorem alike_of_end (h : EndAlike app w w' trace trace') :
    Alike m.sys m.heaps m'.sys m'.heaps := by
  obtain ⟨x, f, clone, hx, hrel⟩ := replay_rel app w hrun
  obtain ⟨x', f', clone', hx', hrel'⟩ := replay_rel app w' hrun'
  have halike := h x x' hx hx'
  have hget : ∀ {base : Nat} {f : Nat → Nat} {clone : Thread G} {w : World H}
      {os : OperatingSystem V G} {m : Machine V G H}, Rel base f clone w os m → ∀ {i : Nat}
      {th : Thread G}, m.sys.threads[i]? = some th → os.sys.threads[i]? = some (th.map f) := by
    intro base f clone w os m hrel i th hth
    rw [hrel.sys_eq, System.map, List.getElem?_map, hth]
    rfl
  constructor
  · intro i th th' hth hth' hlive hlive'
    exact halike.context_eq i (th.map f) (th'.map f') (hget hrel hth) (hget hrel' hth') hlive hlive'
  · intro i th th' hth hth' hlive hlive'
    have hheap := halike.heap_eq i (th.map f) (th'.map f') (hget hrel hth) (hget hrel' hth') hlive
      hlive'
    have hb := hrel.below th (List.mem_of_getElem? hth)
    have hb' := hrel'.below th' (List.mem_of_getElem? hth')
    exact (hrel.embeds.heap_eq _ hb).symm.trans (hheap.trans (hrel'.embeds.heap_eq _ hb'))

theorem order_of_end (h : EndInOrder app w w' trace trace') (hcrash : m.sys.AtCrash app) :
    m.sys.storage.buf.keys = m'.sys.storage.buf.keys := by
  obtain ⟨x, f, clone, hx, hrel⟩ := replay_rel app w hrun
  obtain ⟨x', f', clone', hx', hrel'⟩ := replay_rel app w' hrun'
  obtain ⟨th, g, hth, hctx, hcall⟩ := hcrash
  have hat : x.2.sys.AtCrash app := by
    refine ⟨th.map f, g, ?_, hctx, hcall⟩
    rw [hrel.sys_eq, thread_map, current_map, hth]
    rfl
  have hkeys := h x x' hx hx' hat
  rw [hrel.sys_eq, hrel'.sys_eq] at hkeys
  exact hkeys

end Machines

/-- For every application and any two traces with equal dumps: if the states are
alike, and the buffers have the same order whenever one of the further choices is
that of a crash, then after any further choices both replays fail in the same way
or end in states with equal dumps, which offer the same choices. -/
theorem merged_runs (app : App V G H L S) {trace trace' ext : List Label} {w w' : World H}
    (hsame : ∃ x x', replayDump app trace w = .ok x ∧ replayDump app trace' w' = .ok x' ∧
      x.2.Same x'.2)
    (halike : EndAlike app w w' trace trace')
    (horder : ∀ e c rest, ext = e ++ c :: rest → EndInOrder app w w' (trace ++ e) (trace' ++ e)) :
    DumpsAgree (replayDump app (trace ++ ext) w) (replayDump app (trace' ++ ext) w') := by
  obtain ⟨x, x', hx, hx', hdump⟩ := hsame
  obtain ⟨m, hrun, he⟩ := run_of_replayDump app hx
  obtain ⟨m', hrun', he'⟩ := run_of_replayDump app hx'
  rw [he, he'] at hdump
  have hm := run_valid app (valid_init app) hrun
  have hm' := run_valid app (valid_init app) hrun'
  have hag := agrees_of_dump app hm hm' hdump (alike_of_end app hrun hrun' halike)
  have hcat : ∀ {t e : List Label} {n k : Machine V G H},
      Machine.run app t (Machine.init app) = .ok n → Machine.run app e n = .ok k →
        Machine.run app (t ++ e) (Machine.init app) = .ok k := by
    intro t e n k hn hk
    rw [run_append, hn]
    exact hk
  have hords : ∀ e c rest n n', ext = e ++ c :: rest → Machine.run app e m = .ok n →
      Machine.run app e m' = .ok n' → n.sys.AtCrash app →
        n.sys.storage.buf.keys = n'.sys.storage.buf.keys := fun e c rest n n' hext hn hn' =>
    order_of_end app (hcat hrun hn) (hcat hrun' hn') (horder e c rest hext)
  rcases run_agrees app hag hm hm' hords with ⟨e, hn, hn'⟩ | ⟨n, n', hn, hn', hagree⟩
  · refine Or.inl ⟨e, replayDump_error app w ?_, replayDump_error app w' ?_⟩
    · rw [run_append, hrun]; exact hn
    · rw [run_append, hrun']; exact hn'
  · obtain ⟨p, hp, hpd⟩ := replayDump_of_run app w (hcat hrun hn)
    obtain ⟨q, hq, hqd⟩ := replayDump_of_run app w' (hcat hrun' hn')
    refine Or.inr ⟨p, q, hp, hq, ?_⟩
    rw [hpd, hqd]
    exact dump_same app hagree (run_valid app hm hn) (run_valid app hm' hn')

/-- The application `while True: sys_sched()`. -/
def schedLoop : App (Option Int) Nat Unit (List (String × Int)) Unit where
  name := "main"
  main := 0
  emptyHeap := ()
  call := fun _ => .sched
  send := fun _ _ _ => .yields 1 ()
  startFrame := fun _ => ⟨"main", 1, []⟩
  frame := fun _ => ⟨"main", 3, []⟩
  showHeap := id

/-- The state after one round of the loop is taken for the state after two. -/
theorem merged_runs_schedLoop :
    DumpsAgree (replayDump schedLoop [.str "main", .str "t1"] (World.new ()))
      (replayDump schedLoop [.str "main", .str "t1", .str "t1"] (World.new ())) := by
  have hsame : ∃ x x', replayDump schedLoop [.str "main"] (World.new ()) = .ok x ∧
      replayDump schedLoop [.str "main", .str "t1"] (World.new ()) = .ok x' ∧ x.2.Same x'.2 :=
    ⟨_, _, rfl, rfl, rfl, rfl, rfl, fun _ => rfl, rfl, fun _ => rfl, fun _ => rfl⟩
  have halike : EndAlike schedLoop (World.new ()) (World.new ()) [.str "main"]
      [.str "main", .str "t1"] := by
    intro x x' hx hx'
    cases hx
    cases hx'
    constructor
    · rintro (_ | i) th th' hth hth' - -
      · cases hth
        cases hth'
        rfl
      · cases hth
    · exact fun _ _ _ _ _ _ _ => rfl
  have horder : ∀ e c rest, [Label.str "t1"] = e ++ c :: rest →
      EndInOrder schedLoop (World.new ()) (World.new ()) ([.str "main"] ++ e)
        ([.str "main", .str "t1"] ++ e) := by
    rintro e c rest - x x' - - ⟨th, g, -, -, hcall⟩
    cases hcall
  exact merged_runs schedLoop hsame halike horder

/-- The application `for x in [0, 0]: sys_sched()`.  The iterator of the loop is
not a local variable. -/
def loopTwice : App (Option Int) Nat Unit (List (String × Int)) Unit where
  name := "main"
  main := 0
  emptyHeap := ()
  call := fun _ => .sched
  send := fun g _ _ => if g < 2 then .yields (g + 1) () else .returns ()
  startFrame := fun _ => ⟨"main", 1, []⟩
  frame := fun _ => ⟨"main", 3, [("x", 0)]⟩
  showHeap := id

/-- In the first round of the loop the dump is that of the second round, but only
the second round leads to the end. -/
theorem merge_hides_end :
    ¬ ∀ (trace trace' : List Label) (c : Label)
        (x x' : World Unit × Dump (Option Int) (List (String × Int)) Unit),
        replayDump loopTwice trace (World.new ()) = .ok x →
        replayDump loopTwice trace' (World.new ()) = .ok x' → x.2.Same x'.2 → c ∈ x.2.choices →
          DumpsAgree (replayDump loopTwice (trace ++ [c]) (World.new ()))
            (replayDump loopTwice (trace' ++ [c]) (World.new ())) := by
  intro h
  have hsame := h [.str "main"] [.str "main", .str "t1"] (.str "t1") _ _ rfl rfl
    ⟨rfl, rfl, rfl, fun _ => rfl, rfl, fun _ => rfl, fun _ => rfl⟩ (List.mem_singleton_self _)
  rcases hsame with ⟨e, he, -⟩ | ⟨p, q, hp, hq, hpq⟩
  · cases he
  · cases hp
    cases hq
    have hctx := hpq.contexts_eq
    cases hctx

end OsCourse.Mosaic
