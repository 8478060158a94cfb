import OsCourse.Mosaic.Machine

/-!
# Replay refines copying

The operating system model, with its forks by replay, does what the machine with
the copying fork does.  A system of the model lies in a world with the heaps of
other systems.  `Embeds` maps the heap numbers of the machine to addresses, one
to one, and `Rel` relates a system in a world to a machine.

A step keeps the relation if the fork it may end in delivers a clone that fits
(`step_sim`).  A fork delivers it if replays up to the length of the trace keep
the relation, since the replayed system is then related to the same machine as
the forking one.  So the induction is on the bound for nested forks
(`replay_fits`).  It shows that a bound as large as the trace is enough, and that
no system touches the heaps that existed before it was created.
-/

namespace OsCourse.Mosaic

variable {V G H L S T : Type} [DecidableEq V] [PyValue V] (app : App V G H L S)

/-! ## A step in parts -/

omit [DecidableEq V] in
theorem thread_act {s : System V G T} {k : T → Thread G} {a : Action V G T} {r : V × System V G T}
    {parent : Thread G} (ha : ∀ tid, a ≠ .switch tid) (hp : s.thread s.current = .ok parent)
    (h : s.act k a = .ok r) : r.2.thread r.2.current = .ok parent := by
  have happ : ∀ th : Thread G, (s.threads ++ [th])[s.current]? = some parent := by
    intro th
    rw [System.thread] at hp
    cases hth : s.threads[s.current]? with
    | none => rw [hth] at hp; cases hp
    | some x =>
        rw [hth] at hp
        cases hp
        rw [List.getElem?_append_left (List.getElem?_eq_some_iff.mp hth).1, hth]
  cases a with
  | nothing => cases h; exact hp
  | spawn child =>
      rw [System.act, hp] at h
      cases h
      simp only [System.thread, happ]
  | fork clone =>
      cases h
      simp only [System.thread, happ]
  | switch tid => exact absurd rfl (ha tid)
  | value v => cases h; exact hp
  | write args => cases h; exact hp
  | device act => cases h; exact hp

/-- `_step` before the thread is resumed: the world and the system, the action, its
result and the thread that runs. -/
def prepare (w : World H) (os : OperatingSystem V G) (choice : Label) :
    Except Fault (World H × OperatingSystem V G × Action V G (Thread G) × V × Thread G) := do
  let (w, _, os) ← switchTo w os os.sys.current
  let os := { os with trace := os.trace ++ [choice] }
  let action ← os.sys.lookup choice
  let (w, res, os) ← takeAction w os action
  let th ← os.sys.thread os.sys.current
  .ok (w, os, action, res, th)

omit [DecidableEq V] in
/-- The global variables are those of the thread that runs. -/
theorem prepare_eq (w : World H) (os : OperatingSystem V G) (choice : Label) :
    prepare w os choice = (os.sys.advance (fun _ => id) choice).bind fun x =>
      .ok ({ w with os := os.id, heap := x.2.2.2.heap },
        ⟨os.id, x.2.2.1, os.trace ++ [choice]⟩, x.1, x.2.1, x.2.2.2) := by
  simp only [prepare, switchTo, System.advance, bind, Except.bind]
  cases hp : os.sys.thread os.sys.current with
  | error e => rfl
  | ok parent =>
      simp only
      have hp' := thread_switchTo hp
      generalize (os.sys.switchTo os.sys.current).2 = s at hp'
      cases ha : s.lookup choice with
      | error e => rfl
      | ok a =>
          simp only
          rcases Classical.em (∃ tid, a = .switch tid) with ⟨tid, rfl⟩ | hno
          · simp only [takeAction, switchTo, System.act, bind, Except.bind]
            cases hth : s.thread tid with
            | error e => rfl
            | ok th =>
                have hcur : (s.switchTo tid).2.thread (s.switchTo tid).2.current = .ok th := by
                  rw [System.switchTo]
                  split <;> exact hth
                simp only [hcur]
          · have htake : takeAction { w with os := os.id, heap := parent.heap }
                ⟨os.id, s, os.trace ++ [choice]⟩ a = (s.act id a).bind fun r =>
                  .ok ({ w with os := os.id, heap := parent.heap }, r.1,
                    ⟨os.id, r.2, os.trace ++ [choice]⟩) := by
              cases a with
              | switch tid => exact absurd ⟨tid, rfl⟩ hno
              | _ => rfl
            rw [htake]
            cases hact : s.act id a with
            | error e => rfl
            | ok r =>
                have hth := thread_act (fun tid he => hno ⟨tid, he⟩) hp' hact
                simp only [Except.bind, hth]

section
variable (fork : List Bool → World H → OperatingSystem V G →
      Except Fault (World H × Option (Choices V G (Thread G))))
  (stack : List Bool) (w : World H) (os : OperatingSystem V G) (choice : Label) (flag : Bool)

theorem stepWith_prepare :
    stepWith app fork stack w os choice flag = (do
      let (w, os, _, res, th) ← prepare w os choice
      let r ← resume app (w.heaps w.heap) res th.context
      conclude app fork (flag :: stack) w os r) := by
  simp only [stepWith, prepare, bind_assoc]
  rfl

theorem stepWith_eq :
    stepWith app fork stack w os choice flag =
      (os.sys.advance (fun _ => id) choice).bind fun x =>
        (resume app (w.heaps x.2.2.2.heap) x.2.1 x.2.2.2.context).bind
          (conclude app fork (flag :: stack) { w with os := os.id, heap := x.2.2.2.heap }
            ⟨os.id, x.2.2.1, os.trace ++ [choice]⟩) := by
  rw [stepWith_prepare, prepare_eq]
  cases os.sys.advance (fun _ => id) choice <;> rfl

end

/-! ## Heaps in a world -/

/-- The heaps of a machine lie in a world, at addresses from `base` on. -/
structure Embeds (base : Nat) (f : Nat → Nat) (w : World H) (heaps : Nat → H) (count : Nat) :
    Prop where
  heap_eq : ∀ i < count, w.heaps (f i) = heaps i
  base_le : ∀ i < count, base ≤ f i
  lt_next : ∀ i < count, f i < w.nextHeap
  inj : ∀ i < count, ∀ j < count, f i = f j → i = j

/-- The heaps up to the address `n` are the same in the second world, and it has
no fewer heaps. -/
structure Extends (n : Nat) (w w' : World H) : Prop where
  heap_eq : ∀ i < n, w'.heaps i = w.heaps i
  next_le : w.nextHeap ≤ w'.nextHeap

variable {w : World H} {base count : Nat} {f : Nat → Nat} {heaps : Nat → H}

omit [DecidableEq V] [PyValue V] in
theorem Extends.trans {n n' : Nat} {w' w'' : World H} (hn : n ≤ n') (h : Extends n w w')
    (h' : Extends n' w' w'') : Extends n w w'' :=
  ⟨fun i hi => (h'.heap_eq i (hi.trans_le hn)).trans (h.heap_eq i hi), h.next_le.trans h'.next_le⟩

theorem Embeds.extends {w' : World H} (h : Embeds base f w heaps count)
    (hext : Extends w.nextHeap w w') :
    Embeds base f w' heaps count where
  heap_eq i hi := (hext.heap_eq _ (h.lt_next i hi)).trans (h.heap_eq i hi)
  base_le := h.base_le
  lt_next i hi := (h.lt_next i hi).trans_le hext.next_le
  inj := h.inj

/-- Writing a heap on both sides. -/
theorem Embeds.write {i os : Nat} (h : Embeds base f w heaps count) (hi : i < count) (x : H) :
    Embeds base f { w with os := os, heap := f i, heaps := Function.update w.heaps (f i) x }
      (Function.update heaps i x) count where
  heap_eq j hj := by
    rcases eq_or_ne j i with rfl | hne
    · simp only [Function.update_self]
    · have hne' : f j ≠ f i := fun he => hne (h.inj j hj i hi he)
      simp only [Function.update_of_ne hne, Function.update_of_ne hne']
      exact h.heap_eq j hj
  base_le := h.base_le
  lt_next := h.lt_next
  inj := h.inj

/-- One more heap. -/
theorem Embeds.add {c : Nat} {x : H} (h : Embeds base f w heaps count) (hc : w.heaps c = x)
    (hbase : base ≤ c) (hlt : c < w.nextHeap) (hnew : ∀ i < count, f i ≠ c) :
    Embeds base (Function.update f count c) w (Function.update heaps count x) (count + 1) := by
  have hold : ∀ i < count, Function.update f count c i = f i := fun i hi =>
    Function.update_of_ne hi.ne c f
  have hcases : ∀ i < count + 1, i = count ∨ i < count := fun i hi => by omega
  constructor
  · intro i hi
    rcases hcases i hi with rfl | hi
    · rw [Function.update_self, Function.update_self, hc]
    · rw [hold i hi, Function.update_of_ne hi.ne]
      exact h.heap_eq i hi
  · intro i hi
    rcases hcases i hi with rfl | hi
    · rw [Function.update_self]; exact hbase
    · rw [hold i hi]; exact h.base_le i hi
  · intro i hi
    rcases hcases i hi with rfl | hi
    · rw [Function.update_self]; exact hlt
    · rw [hold i hi]; exact h.lt_next i hi
  · intro i hi j hj he
    rcases hcases i hi with rfl | hi <;> rcases hcases j hj with rfl | hj
    · rfl
    · rw [Function.update_self, hold j hj] at he
      exact absurd he.symm (hnew j hj)
    · rw [Function.update_self, hold i hi] at he
      exact absurd he (hnew i hi)
    · rw [hold i hi, hold j hj] at he
      exact h.inj i hi j hj he

theorem Embeds.congr {f' : Nat → Nat} (h : Embeds base f w heaps count)
    (hf : ∀ i < count, f' i = f i) :
    Embeds base f' w heaps count where
  heap_eq i hi := by rw [hf i hi]; exact h.heap_eq i hi
  base_le i hi := by rw [hf i hi]; exact h.base_le i hi
  lt_next i hi := by rw [hf i hi]; exact h.lt_next i hi
  inj i hi j hj he := by
    rw [hf i hi, hf j hj] at he
    exact h.inj i hi j hj he

/-! ## The relation -/

/-- A clone of a thread of a machine: the same context and a heap of its own with
the same contents. -/
structure Clones (base : Nat) (f : Nat → Nat) (w : World H) (m : Machine V G H)
    (parent clone : Thread G) : Prop where
  context_eq : clone.context = parent.context
  heap_eq : w.heaps clone.heap = m.heaps parent.heap
  base_le : base ≤ clone.heap
  lt_next : clone.heap < w.nextHeap
  fresh : ∀ i < m.count, f i ≠ clone.heap

/-- A system in a world is related to a machine: it is the machine with addresses
for heap numbers, and a pending fork holds a clone of the current thread. -/
structure Rel (base : Nat) (f : Nat → Nat) (clone : Thread G) (w : World H)
    (os : OperatingSystem V G) (m : Machine V G H) : Prop where
  sys_eq : os.sys = m.sys.map f fun _ => clone
  embeds : Embeds base f w m.heaps m.count
  below : m.sys.HeapsBelow m.count
  clones : m.ForkPending → ∀ parent, m.sys.thread m.sys.current = .ok parent →
    Clones base f w m parent clone

/-! ## One step -/

/-- The map of heap numbers, with the clone as the next heap. -/
abbrev withClone (f : Nat → Nat) (count : Nat) (clone : Thread G) : Nat → Nat :=
  Function.update f count clone.heap

section Step

variable {base : Nat} {f : Nat → Nat} {clone : Thread G} {w : World H} {os : OperatingSystem V G}
  {m : Machine V G H} (hrel : Rel base f clone w os m)

include hrel

omit [DecidableEq V] in
theorem advance_sim (choice : Label) :
    os.sys.advance (fun _ => id) choice =
      (m.sys.advance (fun parent _ => ⟨parent.context, m.count⟩) choice).map fun r =>
        (r.1.map fun _ => clone, r.2.1, r.2.2.1.map (withClone f m.count clone) fun _ => clone,
          r.2.2.2.map (withClone f m.count clone)) := by
  have hsys : os.sys = m.sys.map (withClone f m.count clone) fun _ => clone := by
    rw [hrel.sys_eq]
    exact map_congr hrel.below (fun i hi => (Function.update_of_ne hi.ne _ _).symm) _
  rw [hsys]
  refine advance_map fun parent u hp hlook => ?_
  have hlook' : m.sys.lookup choice = .ok (.fork ()) := by
    rw [← hlook, System.switchTo]
    split <;> rfl
  have hclone := hrel.clones ⟨choice, hlook'⟩ parent hp
  simp only [id, Thread.map, Function.update_self, ← hclone.context_eq]

omit [DecidableEq V] [PyValue V] in
theorem embeds_afterAction {choice : Label} {a : Action V G Unit} {parent : Thread G}
    (hp : m.sys.thread m.sys.current = .ok parent) (ha : m.sys.lookup choice = .ok a) :
    Embeds base (withClone f m.count clone) w (m.afterAction a).heaps (m.afterAction a).count := by
  rcases eq_or_ne a (.fork ()) with rfl | hne
  · have hclone := hrel.clones ⟨choice, ha⟩ parent hp
    rw [afterAction_fork hp]
    exact hrel.embeds.add hclone.heap_eq hclone.base_le hclone.lt_next hclone.fresh
  · rw [afterAction_other hne]
    exact hrel.embeds.congr fun i hi => Function.update_of_ne hi.ne _ _

end Step

/-- The handler of `sys_fork` delivers clones for systems with this trace: the
context and the heap contents of the current thread of the machine, in a heap
that is new. -/
def Delivers
    (fork : List Bool → World H → OperatingSystem V G →
      Except Fault (World H × Option (Choices V G (Thread G))))
    (stack : List Bool) (trace : List Label) (m : Machine V G H) : Prop :=
  ∀ (w : World H) (os : OperatingSystem V G) (parent : Thread G), os.trace = trace →
    m.sys.thread m.sys.current = .ok parent →
      ∃ w' clone, fork (false :: stack) w os =
          .ok (w', some (oneChoice "fork" (.fork clone))) ∧
        clone.context = parent.context ∧ w'.heaps clone.heap = m.heaps parent.heap ∧
        w.nextHeap ≤ clone.heap ∧ clone.heap < w'.nextHeap ∧ Extends w.nextHeap w w'

theorem handler_congr {s : System V G T} {call : Syscall V G} (h : call ≠ .fork)
    (x y : Choices V G T) : s.handler x call = s.handler y call := by
  cases call with
  | fork => exact absurd rfl h
  | _ => rfl

/-- The world after the current thread wrote its heap. -/
abbrev World.wrote (w : World H) (os heap : Nat) (h : H) : World H :=
  { w with os := os, heap := heap, heaps := Function.update w.heaps heap h }

section Conclude

variable {fork : List Bool → World H → OperatingSystem V G →
    Except Fault (World H × Option (Choices V G (Thread G)))} {stack : List Bool}
  {base : Nat} {f : Nat → Nat} {w : World H} {m m' : Machine V G H}
  {sys : System V G Unit} {th : Thread G}

theorem extends_wrote (hbase : base ≤ f th.heap) (id : Nat) (h : H) :
    Extends base w (w.wrote id (f th.heap) h) where
  heap_eq _ hi := Function.update_of_ne (hi.trans_le hbase).ne _ _
  next_le := le_rfl

omit [DecidableEq V] [PyValue V] in
/-- After a run that does not end in a fork the relation holds with any clone. -/
theorem rel_of_noFork (hemb : Embeds base f w m.heaps m.count) (hbelow : sys.HeapsBelow m.count)
    (hth : th.heap < m.count) (clone : Thread G) (id : Nat) (trace : List Label) (ctx : Context G)
    (h : H) {cs : Choices V G Unit} (hno : ∀ choice, cs.get? choice ≠ some (.fork ())) :
    Rel base f clone (w.wrote id (f th.heap) h)
      ⟨id, { (sys.map f fun _ => clone).setContext ctx with
        choices := some (cs.mapValues (Action.map fun _ => clone)) }, trace⟩
      { m with
        sys := { sys.setContext ctx with choices := some cs }
        heaps := Function.update m.heaps th.heap h } where
  sys_eq := by rw [setContext_map, map_choices]; rfl
  embeds := hemb.write hth h
  below := below_setContext hbelow ctx
  clones := by
    rintro ⟨choice, hlook⟩
    exact absurd (lookup_eq_ok.mp hlook) (hno choice)

omit [DecidableEq V] [PyValue V] in
/-- After a fork the relation holds with the clone that it delivered. -/
theorem rel_of_fork (hemb : Embeds base f w m.heaps m.count) (hbelow : sys.HeapsBelow m.count)
    (hcur : sys.thread sys.current = .ok th) (old clone : Thread G) (id : Nat)
    (trace : List Label) (ctx : Context G) (h : H) {w' : World H} (hctx : clone.context = ctx)
    (hheap : w'.heaps clone.heap = h) (hle : w.nextHeap ≤ clone.heap)
    (hlt : clone.heap < w'.nextHeap) (hext : Extends w.nextHeap (w.wrote id (f th.heap) h) w') :
    Rel base f clone w'
      ⟨id, { (sys.map f fun _ => old).setContext ctx with
        choices := some (oneChoice "fork" (.fork clone)) }, trace⟩
      { m with
        sys := { sys.setContext ctx with choices := some forkChoice }
        heaps := Function.update m.heaps th.heap h } where
  sys_eq := by rw [setContext_map, map_choices]; rfl
  embeds := (hemb.write (hbelow th (mem_of_thread hcur)) h).extends hext
  below := below_setContext hbelow ctx
  clones := by
    intro _ parent hparent
    have hp : parent = { th with context := ctx } := by
      have hset := thread_setContext hcur ctx
      exact Except.ok.inj (hparent.symm.trans hset)
    have hth := hbelow th (mem_of_thread hcur)
    subst hp
    exact {
      context_eq := hctx
      heap_eq := hheap.trans (Function.update_self th.heap h m.heaps).symm
      base_le := (hemb.base_le _ hth).trans ((hemb.lt_next _ hth).le.trans hle)
      lt_next := hlt
      fresh := fun i hi => ((hemb.lt_next i hi).trans_le hle).ne }

/-- The end of a step keeps the relation, if a fork delivers. -/
theorem conclude_sim (hemb : Embeds base f w m.heaps m.count) (hbelow : sys.HeapsBelow m.count)
    (hcur : sys.thread sys.current = .ok th) (clone : Thread G) (id : Nat) (trace : List Label)
    {r : Resume G H} (hrun : m.afterRun app sys th r = .ok m')
    (hfork : m'.ForkPending → Delivers fork stack trace m') :
    ∃ w' os' clone', conclude app fork (false :: stack) { w with os := id, heap := f th.heap }
        ⟨id, sys.map f fun _ => clone, trace⟩ r = .ok (w', os') ∧
      Rel base f clone' w' os' m' ∧ os'.trace = trace ∧ Extends base w w' := by
  have hth : th.heap < m.count := hbelow th (mem_of_thread hcur)
  have hbase := hemb.base_le th.heap hth
  cases r with
  | raises => cases hrun
  | returns h =>
      cases hrun
      refine ⟨_, _, clone, rfl, ?_, rfl, extends_wrote hbase id h⟩
      have hrel := rel_of_noFork hemb hbelow hth clone id trace .finished h
        fun choice => sched_noFork (s := sys.setContext .finished)
      rw [← sched_map f fun _ => clone, ← setContext_map] at hrel
      exact hrel
  | yields g h =>
      cases hrun
      rcases Classical.em (app.call g = .fork) with hcall | hcall
      · -- the run ends in a fork
        have hpend : ({ m with
            sys := { sys.setContext (.suspended g) with
              choices := some ((sys.setContext (.suspended g)).handler forkChoice (app.call g)) }
            heaps := Function.update m.heaps th.heap h } : Machine V G H).ForkPending := by
          rw [hcall]
          exact ⟨.str "fork", rfl⟩
        obtain ⟨w', clone', hf, hctx, hheap, hle, hlt, hext⟩ :=
          hfork hpend (w.wrote id (f th.heap) h)
            ⟨id, (sys.map f fun _ => clone).setContext (.suspended g), trace⟩ _ rfl
            (thread_setContext hcur (.suspended g))
        refine ⟨w', ⟨id, { (sys.map f fun _ => clone).setContext (.suspended g) with
          choices := some (oneChoice "fork" (.fork clone')) }, trace⟩, clone', ?_, ?_, rfl,
            (extends_wrote hbase id h).trans ?_ hext⟩
        · simp only [conclude, hcall, hf, bind, Except.bind]
        · simp only [hcall]
          exact rel_of_fork hemb hbelow hcur clone clone' id trace (.suspended g) h hctx
            (hheap.trans (Function.update_self ..)) hle hlt hext
        · exact hbase.trans (hemb.lt_next _ hth).le
      · have hconc : conclude app fork (false :: stack) { w with os := id, heap := f th.heap }
            ⟨id, sys.map f fun _ => clone, trace⟩ (.yields g h) =
            .ok (w.wrote id (f th.heap) h,
              ⟨id, { (sys.map f fun _ => clone).setContext (.suspended g) with
                choices := some (((sys.map f fun _ => clone).setContext (.suspended g)).handler
                  Dict.empty (app.call g)) }, trace⟩) := by
          simp only [conclude]
        refine ⟨_, _, clone, hconc, ?_, rfl, extends_wrote hbase id h⟩
        have hno : ∀ choice, ((sys.setContext (.suspended g)).handler forkChoice
            (app.call g)).get? choice ≠ some (.fork ()) := fun _ => handler_noFork hcall
        have hrel := rel_of_noFork hemb hbelow hth clone id trace (.suspended g) h hno
        rw [← handler_map f fun _ => clone, ← setContext_map] at hrel
        rw [handler_congr hcall Dict.empty (forkChoice.mapValues (Action.map fun _ => clone))]
        exact hrel

end Conclude

/-! ## Steps and replays -/

/-- A result of the model fits a result of the machine: both fail in the same
way, or both succeed and are related, with the trace grown by `new`. -/
def Fits (base : Nat) (w : World H) (trace : List Label)
    (x : Except Fault (World H × OperatingSystem V G)) (y : Except Fault (Machine V G H)) : Prop :=
  match y with
  | .error e => x = .error e
  | .ok m' => ∃ w' os' f clone, x = .ok (w', os') ∧ Rel base f clone w' os' m' ∧
      os'.trace = trace ∧ Extends base w w'

section Sim

variable {fork : List Bool → World H → OperatingSystem V G →
    Except Fault (World H × Option (Choices V G (Thread G)))} {stack : List Bool}
  {base : Nat} {f : Nat → Nat} {clone : Thread G} {w : World H} {os : OperatingSystem V G}
  {m : Machine V G H}

/-- A step up to the run of the current thread: both sides fail in the same way,
or both resume the same generator with the same value and heap contents. -/
theorem step_split (hrel : Rel base f clone w os m) (choice : Label) :
    (∃ e, m.step app choice = .error e ∧
      ∀ fork stack flag, stepWith app fork stack w os choice flag = .error e) ∨
    ∃ (m1 : Machine V G H) (f1 : Nat → Nat) (sys : System V G Unit) (th : Thread G)
      (r : Resume G H), Embeds base f1 w m1.heaps m1.count ∧ sys.HeapsBelow m1.count ∧
      sys.thread sys.current = .ok th ∧ m.step app choice = m1.afterRun app sys th r ∧
      ∀ fork stack flag, stepWith app fork stack w os choice flag =
        conclude app fork (flag :: stack) { w with os := os.id, heap := f1 th.heap }
          ⟨os.id, sys.map f1 fun _ => clone, os.trace ++ [choice]⟩ r := by
  simp only [stepWith_eq, advance_sim hrel]
  cases hadv : m.sys.advance (fun parent _ => ⟨parent.context, m.count⟩) choice with
  | error e => exact Or.inl ⟨e, by rw [Machine.step, hadv]; rfl, fun _ _ _ => rfl⟩
  | ok x =>
      obtain ⟨a, res, sys, th⟩ := x
      obtain ⟨parent, hp, hlook, -, hcur⟩ := advance_ok hadv
      have hemb := embeds_afterAction hrel hp hlook
      have hbelow := advance_below hrel.below hadv
      have hheap : w.heaps (th.map (withClone f m.count clone)).heap =
          (m.afterAction a).heaps th.heap := hemb.heap_eq _ (hbelow th (mem_of_thread hcur))
      have hctx : (th.map (withClone f m.count clone)).context = th.context := rfl
      have hm : m.step app choice =
          (resume app ((m.afterAction a).heaps th.heap) res th.context).bind
            ((m.afterAction a).afterRun app sys th) := by
        rw [Machine.step, hadv]
        rfl
      simp only [hm, Except.map, Except.bind, hheap, hctx]
      cases resume app ((m.afterAction a).heaps th.heap) res th.context with
      | error e => exact Or.inl ⟨e, rfl, fun _ _ _ => rfl⟩
      | ok r => exact Or.inr ⟨_, _, sys, th, r, hemb, hbelow, hcur, rfl, fun _ _ _ => rfl⟩

/-- A step of the model fits the step of the machine. -/
theorem step_sim (hrel : Rel base f clone w os m) (choice : Label)
    (hfork : ∀ m', m.step app choice = .ok m' → m'.ForkPending →
      Delivers fork stack (os.trace ++ [choice]) m') :
    Fits base w (os.trace ++ [choice]) (stepWith app fork stack w os choice false)
      (m.step app choice) := by
  rcases step_split app hrel choice with ⟨e, hm, hos⟩
      | ⟨m1, f1, sys, th, r, hemb, hbelow, hcur, hm, hos⟩
  · rw [hm]
    exact hos fork stack false
  · rw [hm] at hfork ⊢
    rw [hos]
    cases hrun : m1.afterRun app sys th r with
    | error e =>
        cases r with
        | raises => cases hrun; rfl
        | returns h => cases hrun
        | yields g h => cases hrun
    | ok m' =>
        obtain ⟨w', os', clone', hconc, hrel', htrace, hext⟩ :=
          conclude_sim app hemb hbelow hcur clone os.id (os.trace ++ [choice]) hrun
            fun hpend => hfork m' hrun hpend
        exact ⟨w', os', f1, clone', hconc, hrel', htrace, hext⟩

/-- A step with the flag: its fork is overridden, and the current thread is that
of the machine. -/
theorem step_flagged (hrel : Rel base f clone w os m) {choice : Label} {m' : Machine V G H}
    (hstep : m.step app choice = .ok m') (hpend : m'.ForkPending)
    (hoff : ∀ w os, fork (true :: stack) w os = .ok (w, none)) :
    ∃ w' os' f', stepWith app fork stack w os choice true = .ok (w', os') ∧
      os'.sys.thread os'.sys.current = (m'.sys.thread m'.sys.current).map (Thread.map f') ∧
      Embeds base f' w' m'.heaps m'.count ∧ m'.sys.HeapsBelow m'.count ∧ Extends base w w' := by
  rcases step_split app hrel choice with ⟨e, hm, -⟩
      | ⟨m1, f1, sys, th, r, hemb, hbelow, hcur, hm, hos⟩
  · rw [hm] at hstep
    cases hstep
  · rw [hm] at hstep
    have hth : th.heap < m1.count := hbelow th (mem_of_thread hcur)
    have hbase := hemb.base_le th.heap hth
    obtain ⟨c, hc⟩ := hpend
    cases r with
    | raises => cases hstep
    | returns h =>
        -- a thread that ends leaves no fork
        cases hstep
        exact absurd (lookup_eq_ok.mp hc) sched_noFork
    | yields g h =>
        cases hstep
        have hcall : app.call g = .fork := by
          by_contra hne
          exact absurd (lookup_eq_ok.mp hc) (handler_noFork hne)
        refine ⟨w.wrote os.id (f1 th.heap) h,
          ⟨os.id, { (sys.map f1 fun _ => clone).setContext (.suspended g) with choices := none },
            os.trace ++ [choice]⟩, f1, ?_, ?_, hemb.write hth h, below_setContext hbelow _,
          extends_wrote hbase os.id h⟩
        · rw [hos]
          simp only [conclude, hcall, hoff, bind, Except.bind]
        · have hmap := thread_map f1 (fun _ => clone) (sys.setContext (.suspended g)) sys.current
          rw [← setContext_map] at hmap
          exact hmap

/-- A replay fits the run of the machine, if the forks in it deliver. -/
theorem replayWith_sim (hrel : Rel base f clone w os m) (trace : List Label)
    (hfork : ∀ done c rest m', trace = done ++ c :: rest →
      Machine.run app (done ++ [c]) m = .ok m' → m'.ForkPending →
        Delivers fork stack (os.trace ++ (done ++ [c])) m') :
    Fits base w (os.trace ++ trace) (replayWith app fork stack trace w os)
      (Machine.run app trace m) := by
  induction trace generalizing w os m f clone with
  | nil =>
      rw [List.append_nil]
      exact ⟨w, os, f, clone, rfl, hrel, rfl, ⟨fun _ _ => rfl, le_rfl⟩⟩
  | cons c trace ih =>
      have hone : Machine.run app ([] ++ [c]) m = m.step app c := by
        simp only [List.nil_append, Machine.run, bind, Except.bind]
        cases m.step app c <;> rfl
      have hfit := step_sim app hrel c fun m' hm' hpend =>
        hfork [] c trace m' rfl (hone.trans hm') hpend
      rw [Machine.run, replayWith]
      cases hstep : m.step app c with
      | error e =>
          rw [hstep] at hfit
          have hos : stepWith app fork stack w os c false = .error e := hfit
          rw [hos]
          exact rfl
      | ok m1 =>
          rw [hstep] at hfit
          obtain ⟨w1, os1, f1, clone1, hos, hrel1, htrace1, hext1⟩ := hfit
          simp only [hos, bind, Except.bind]
          have hrest := ih hrel1 fun done d rest m' htr hrun hpend => by
            have hd := hfork (c :: done) d rest m' (by rw [htr]; rfl)
              (by
                simp only [List.cons_append, Machine.run, hstep, bind, Except.bind]
                exact hrun) hpend
            rw [htrace1, List.append_assoc]
            exact hd
          rw [htrace1, List.append_assoc] at hrest
          cases hfin : Machine.run app trace m1 with
          | error e =>
              rw [hfin] at hrest
              exact hrest
          | ok m' =>
              rw [hfin] at hrest
              obtain ⟨w', os', f', clone', hos', hrel', htrace', hext'⟩ := hrest
              exact ⟨w', os', f', clone', hos', hrel', htrace', hext1.trans le_rfl hext'⟩

end Sim

/-! ## Forks by replay -/

theorem run_append (xs ys : List Label) (m : Machine V G H) :
    Machine.run app (xs ++ ys) m = (Machine.run app xs m).bind (Machine.run app ys) := by
  induction xs generalizing m with
  | nil => rfl
  | cons x xs ih =>
      simp only [List.cons_append, Machine.run, bind, Except.bind]
      cases m.step app x with
      | error e => rfl
      | ok m1 => exact ih m1

omit [DecidableEq V] [PyValue V] in
/-- A new system is related to the initial machine. -/
theorem rel_create (w : World H) (clone : Thread G) :
    Rel w.nextHeap (fun _ => w.nextHeap) clone (create app w).1 (create app w).2
      (Machine.init app) where
  sys_eq := rfl
  embeds :=
    { heap_eq := fun _ _ => Function.update_self ..
      base_le := fun _ _ => le_rfl
      lt_next := fun _ _ => Nat.lt_succ_self _
      inj := fun i hi j hj _ => by
        have hi' : i < 1 := hi
        have hj' : j < 1 := hj
        omega }
  below := fun th hth => by
    rw [List.mem_singleton.mp hth]
    exact Nat.zero_lt_one
  clones := by
    rintro ⟨choice, hlook⟩
    have hget := (lookup_eq_ok (s := (Machine.init app).sys)).mp hlook
    cases (get?_oneChoice.mp hget).2

omit [DecidableEq V] [PyValue V] in
theorem extends_create (w : World H) : Extends w.nextHeap w (create app w).1 where
  heap_eq _ hi := Function.update_of_ne hi.ne _ _
  next_le := Nat.le_succ _

/-- Replays of traces up to the bound fit the machine, in every world. -/
def ReplayFits (fuel : Nat) : Prop :=
  ∀ stack : List Bool, stack.all (! ·) = true → ∀ (trace : List Label) (w : World H),
    trace.length ≤ fuel →
      Fits w.nextHeap (create app w).1 trace
        (replayWith app (sysFork app fuel) stack trace (create app w).1 (create app w).2)
        (Machine.run app trace (Machine.init app))

theorem sysFork_flagged (fuel : Nat) (stack : List Bool) (w : World H) (os : OperatingSystem V G) :
    sysFork app fuel (true :: stack) w os = .ok (w, none) := by
  cases fuel <;> rfl

/-- If replays fit, a fork delivers. -/
theorem sysFork_delivers {fuel : Nat} (hfits : ReplayFits app fuel) {stack : List Bool}
    (hstack : stack.all (! ·) = true) {done : List Label} {c : Label} (hlen : done.length ≤ fuel)
    {m' : Machine V G H} (hrun : Machine.run app (done ++ [c]) (Machine.init app) = .ok m')
    (hpend : m'.ForkPending) : Delivers (sysFork app (fuel + 1)) stack (done ++ [c]) m' := by
  intro w os parent htrace hparent
  have hall : (false :: stack).all (! ·) = true := by simpa using hstack
  have hfit := hfits (false :: stack) hall done w hlen
  rw [run_append] at hrun
  cases hm : Machine.run app done (Machine.init app) with
  | error e => rw [hm] at hrun; cases hrun
  | ok m0 =>
      rw [hm] at hrun hfit
      obtain ⟨w1, os1, f1, clone1, hreplay, hrel, -, hext1⟩ := hfit
      have hone : Machine.run app [c] m0 = .ok m' := hrun
      have hstep : m0.step app c = .ok m' := by
        rw [Machine.run] at hone
        obtain ⟨m1, hm1, hrest⟩ := bind_ok hone
        cases hrest
        exact hm1
      obtain ⟨w2, os2, f2, hlast, hcur, hemb, hbelow, hext2⟩ :=
        step_flagged app hrel hstep hpend (sysFork_flagged app fuel (false :: stack))
      have hp := hbelow parent (mem_of_thread hparent)
      rw [hparent] at hcur
      refine ⟨w2, parent.map f2, ?_, rfl, hemb.heap_eq _ hp, hemb.base_le _ hp, hemb.lt_next _ hp,
        ?_⟩
      · simp only [sysFork, hall, if_true, htrace, List.dropLast_concat, hreplay,
          List.getLast?_concat, hlast, hcur, bind, Except.bind, Except.map]
      · exact (extends_create app w).trans le_rfl (hext1.trans le_rfl hext2)

/-- A bound as large as the trace is enough for every replay. -/
theorem replay_fits (fuel : Nat) : ReplayFits app fuel := by
  induction fuel with
  | zero =>
      intro stack _ trace w hlen
      have hnil : trace = [] := List.eq_nil_of_length_eq_zero (Nat.le_zero.mp hlen)
      subst hnil
      exact ⟨_, _, _, ⟨.finished, 0⟩, rfl, rel_create app w _, rfl, ⟨fun _ _ => rfl, le_rfl⟩⟩
  | succ fuel ih =>
      intro stack hstack trace w hlen
      refine replayWith_sim app (rel_create app w ⟨.finished, 0⟩) trace
        fun done c rest m' htr hrun hpend => ?_
      have hdone : done.length ≤ fuel := by
        rw [htr, List.length_append, List.length_cons] at hlen
        omega
      exact sysFork_delivers app ih hstack hdone hrun hpend

/-! ## The clone -/

omit [DecidableEq V] [PyValue V] in
theorem thread_ne_outOfFuel (s : System V G T) (tid : Nat) : s.thread tid ≠ .error .outOfFuel := by
  rw [System.thread]
  cases s.threads[tid]? <;> simp

omit [DecidableEq V] [PyValue V] in
theorem lookup_ne_outOfFuel (s : System V G T) (choice : Label) :
    s.lookup choice ≠ .error .outOfFuel := by
  rw [System.lookup]
  cases s.choices with
  | none => simp
  | some cs =>
      simp only
      cases cs.get? choice <;> simp

omit [DecidableEq V] in
theorem act_ne_outOfFuel (s : System V G T) (k : T → Thread G) (a : Action V G T) :
    s.act k a ≠ .error .outOfFuel := by
  cases a with
  | spawn child => exact bind_ne_error (thread_ne_outOfFuel s _) fun _ => nofun
  | switch tid => exact bind_ne_error (thread_ne_outOfFuel s _) fun _ => nofun
  | _ => exact nofun

theorem resume_ne_outOfFuel (h : H) (res : V) (ctx : Context G) :
    resume app h res ctx ≠ .error .outOfFuel := by
  cases ctx with
  | fresh g =>
      rw [resume]
      split <;> simp
  | suspended g => exact nofun
  | finished => exact nofun

/-- The machine has no bound to run out of. -/
theorem step_ne_outOfFuel (m : Machine V G H) (choice : Label) :
    m.step app choice ≠ .error .outOfFuel := by
  have hadv : m.sys.advance (fun parent _ => ⟨parent.context, m.count⟩) choice ≠
      .error .outOfFuel :=
    bind_ne_error (thread_ne_outOfFuel _ _) fun _ =>
      bind_ne_error (lookup_ne_outOfFuel _ _) fun _ =>
        bind_ne_error (act_ne_outOfFuel _ _ _) fun _ =>
          bind_ne_error (thread_ne_outOfFuel _ _) fun _ => nofun
  refine bind_ne_error hadv fun x => bind_ne_error (resume_ne_outOfFuel app _ _ _) fun r => ?_
  cases r <;> exact nofun

theorem run_ne_outOfFuel (trace : List Label) (m : Machine V G H) :
    Machine.run app trace m ≠ .error .outOfFuel := by
  induction trace generalizing m with
  | nil => exact nofun
  | cons c trace ih => exact bind_ne_error (step_ne_outOfFuel app m c) fun m' => ih m'

/-- After a step the choices are those of the call that the current thread has
yielded. -/
theorem choices_of_step {m m' : Machine V G H} {choice : Label} {th : Thread G} {g : G}
    (h : m.step app choice = .ok m') (hcur : m'.sys.thread m'.sys.current = .ok th)
    (hctx : th.context = .suspended g) :
    m'.sys.choices = some (m'.sys.handler forkChoice (app.call g)) := by
  obtain ⟨⟨a, res, sys, run⟩, hadv, h⟩ := bind_ok h
  obtain ⟨r, -, h⟩ := bind_ok h
  obtain ⟨parent, -, -, -, hrun⟩ := advance_ok hadv
  cases r with
  | raises => cases h
  | returns x =>
      cases h
      have hset := thread_setContext hrun .finished
      have hth := Except.ok.inj (hcur.symm.trans hset)
      rw [hth] at hctx
      cases hctx
  | yields g' x =>
      cases h
      have hset := thread_setContext hrun (.suspended g')
      have hth := Except.ok.inj (hcur.symm.trans hset)
      rw [hth] at hctx
      cases hctx
      exact congrArg some (handler_choices ..).symm

theorem choices_of_run {trace : List Label} {m : Machine V G H} {th : Thread G} {g : G}
    (h : Machine.run app trace (Machine.init app) = .ok m)
    (hcur : m.sys.thread m.sys.current = .ok th) (hctx : th.context = .suspended g) :
    m.sys.choices = some (m.sys.handler forkChoice (app.call g)) := by
  induction trace using List.reverseRecOn with
  | nil =>
      cases h
      cases hcur
      cases hctx
  | append_singleton trace c _ =>
      rw [run_append] at h
      obtain ⟨m0, -, h⟩ := bind_ok h
      rw [Machine.run] at h
      obtain ⟨m1, hstep, hrest⟩ := bind_ok h
      cases hrest
      exact choices_of_step app hstep hcur hctx

/-- For every trace and every bound at least as large: the recursion of replays
ends, and where the current thread has yielded a fork, the thread that the fork
obtained by replay has the same context and a heap of its own with the same
contents. -/
theorem fork_clones {fuel : Nat} {trace : List Label} (hfuel : trace.length ≤ fuel) (w : World H) :
    replay app fuel trace w ≠ .error .outOfFuel ∧
      ∀ w' os' th g, replay app fuel trace w = .ok (w', os') →
        os'.sys.thread os'.sys.current = .ok th → th.context = .suspended g →
        app.call g = .fork →
          ∃ clone, os'.sys.choices = some (oneChoice "fork" (.fork clone)) ∧
            clone.context = th.context ∧ w'.heaps clone.heap = w'.heaps th.heap ∧
            ∀ t ∈ os'.sys.threads, t.heap ≠ clone.heap := by
  have hfit := replay_fits app fuel [] rfl trace w hfuel
  rw [replay]
  cases hrun : Machine.run app trace (Machine.init app) with
  | error e =>
      rw [hrun] at hfit
      have hos : replayWith app (sysFork app fuel) [] trace (create app w).1 (create app w).2 =
          .error e := hfit
      rw [hos]
      refine ⟨fun he => ?_, fun w' os' th g he => by cases he⟩
      cases he
      exact run_ne_outOfFuel app trace _ hrun
  | ok m =>
      rw [hrun] at hfit
      obtain ⟨w1, os1, f, clone, hos, hrel, -, -⟩ := hfit
      rw [hos]
      refine ⟨nofun, ?_⟩
      intro w' os' th g he hcur hctx hcall
      cases he
      rw [hrel.sys_eq, thread_map, current_map] at hcur
      cases hth : m.sys.thread m.sys.current with
      | error e => rw [hth] at hcur; cases hcur
      | ok parent =>
          rw [hth] at hcur
          cases hcur
          have hchoices := choices_of_run app hrun hth hctx
          rw [hcall] at hchoices
          have hpend : m.ForkPending := by
            refine ⟨.str "fork", ?_⟩
            rw [System.lookup, hchoices]
            rfl
          have hclone := hrel.clones hpend parent hth
          have hp := hrel.below parent (mem_of_thread hth)
          refine ⟨clone, ?_, hclone.context_eq, ?_, ?_⟩
          · rw [hrel.sys_eq, System.map, hchoices]
            rfl
          · rw [hclone.heap_eq]
            exact (hrel.embeds.heap_eq _ hp).symm
          · intro t ht
            rw [hrel.sys_eq] at ht
            obtain ⟨t', ht', rfl⟩ := List.mem_map.mp ht
            exact hclone.fresh _ (hrel.below t' ht')

/-- An application whose threads fork without end and count their resumptions in
the heap. -/
def forkLoop : App (Option Int) Nat Nat Nat Nat where
  name := "main"
  main := 0
  emptyHeap := 0
  call := fun _ => .fork
  send := fun g _ h => .yields (g + 1) (h + 1)
  startFrame := fun g => ⟨"main", 1, g⟩
  frame := fun g => ⟨"main", 2, g⟩
  showHeap := id

/-- A world without heaps and systems. -/
def World.new (h : H) : World H := ⟨fun _ => h, 0, 0, 0, 0⟩

/-- The second fork of the application: the replay for its clone forks once
itself. -/
theorem fork_clones_twice :
    ∃ w os th clone,
      replay forkLoop 2 [.str "main", .str "fork"] (World.new 0) = .ok (w, os) ∧
        os.sys.thread os.sys.current = .ok th ∧ th.context = .suspended 2 ∧
        os.sys.choices = some (oneChoice "fork" (.fork clone)) ∧
        clone.context = th.context ∧ w.heaps clone.heap = w.heaps th.heap ∧
        ∀ t ∈ os.sys.threads, t.heap ≠ clone.heap := by
  have hlen : [Label.str "main", .str "fork"].length ≤ 2 := Nat.le_refl 2
  obtain ⟨clone, hchoices, hctx, hheap, hfresh⟩ :=
    (fork_clones forkLoop hlen (World.new 0)).2 _ _ _ _ rfl rfl rfl rfl
  exact ⟨_, _, _, clone, rfl, rfl, rfl, hchoices, hctx, hheap, hfresh⟩

end OsCourse.Mosaic
