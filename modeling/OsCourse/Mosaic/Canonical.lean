import OsCourse.Mosaic.Dump

/-!
# Dumps and the addresses of heaps

`state_dump` looks at heaps through `id`, which is an address.  It gives each heap
the number of its place among the heaps of the threads, with repetitions left out
(`heapNumber`), and shows only these numbers.

`Renamed` relates two states that differ by a renaming of the heaps.  The renaming
has to be injective on the heaps that threads have, since these are all that a dump
looks at.  Such states have equal dumps.  In the other direction a dump determines
which live threads share a heap and what is in it (`SameSharing`): numbers are
injective, and the contents are kept under the number.
-/

namespace OsCourse.Mosaic

variable {V G H L S : Type}

/-! ## The numbers -/

/-- The heaps of the threads. -/
def System.heapIds {T : Type} (s : System V G T) : List Nat := s.threads.map Thread.heap

/-- The place of a heap among the heaps of the threads, counted from 1, where a heap
counts at its first occurrence only. -/
def System.heapNumber {T : Type} (s : System V G T) (h : Nat) : Nat :=
  s.heapIds.eraseDups.idxOf h + 1

theorem mem_heapIds {T : Type} {s : System V G T} {th : Thread G} (h : th ∈ s.threads) :
    th.heap ∈ s.heapIds :=
  List.mem_map_of_mem h

/-- The contexts and heaps of a dump, by the numbers of the heaps. -/
structure Numbered (app : App V G H L S) (w : World H) (os : OperatingSystem V G)
    (d : Dump V L S) : Prop where
  contexts : d.contexts = os.sys.threads.map fun th =>
    (th.context.frame app).map fun f => ⟨f, os.sys.heapNumber th.heap⟩
  heaps : ∀ th ∈ os.sys.threads,
    d.heaps.get? (os.sys.heapNumber th.heap) = some (app.showHeap (w.heaps th.heap))

theorem heapNumber_inj {T : Type} {s : System V G T} {x y : Thread G} (hx : x ∈ s.threads)
    (h : s.heapNumber x.heap = s.heapNumber y.heap) : x.heap = y.heap :=
  (List.idxOf_inj (List.mem_eraseDups.mpr (mem_heapIds hx))).mp (Nat.succ.inj h)

section Dump

variable (app : App V G H L S)

/-- A dump is a record of the numbers. -/
theorem dump_congr {T : Type} (s : System V G T) {number number' : Nat → Nat} (heaps : Nat → H)
    (choices : List Label) (h : ∀ th ∈ s.threads, number th.heap = number' th.heap) :
    s.dump app number heaps choices = s.dump app number' heaps choices := by
  simp only [System.dump, Dump.mk.injEq, true_and, and_true]
  constructor
  · exact List.map_congr_left fun th hth => by rw [h th hth]
  · exact congrArg Dict.ofList (List.map_congr_left fun th hth => by rw [h th hth])

theorem stateDump_heapNumber (w : World H) (os : OperatingSystem V G) :
    stateDump app w os =
      match os.sys.choices with
      | none => .error .typeError
      | some choices => .ok (os.sys.dump app os.sys.heapNumber w.heaps choices.keys) := by
  unfold stateDump
  cases os.sys.choices with
  | none => rfl
  | some choices =>
      refine congrArg Except.ok (dump_congr app _ _ _ fun th hth => ?_)
      have hget := Dict.get?_number_of_mem (mem_heapIds hth)
      rw [System.heapIds] at hget
      rw [hget]
      rfl

variable {w : World H} {os : OperatingSystem V G} {d : Dump V L S}

/-- The dump of a state that has choices. -/
theorem stateDump_ok (h : stateDump app w os = .ok d) :
    ∃ choices, os.sys.choices = some choices ∧
      d = os.sys.dump app os.sys.heapNumber w.heaps choices.keys := by
  rw [stateDump_heapNumber] at h
  cases hcs : os.sys.choices with
  | none => rw [hcs] at h; cases h
  | some choices =>
      rw [hcs] at h
      exact ⟨choices, rfl, (Except.ok.inj h).symm⟩

theorem numbered_stateDump (h : stateDump app w os = .ok d) : Numbered app w os d := by
  obtain ⟨choices, -, rfl⟩ := stateDump_ok app h
  refine ⟨rfl, fun th hth => ?_⟩
  have hone : ∀ x ∈ os.sys.threads, ∀ y ∈ os.sys.threads,
      os.sys.heapNumber x.heap = os.sys.heapNumber y.heap →
      app.showHeap (w.heaps x.heap) = app.showHeap (w.heaps y.heap) := by
    intro x hx y _ hxy
    rw [heapNumber_inj hx hxy]
  exact Dict.get?_ofList_map hone hth

/-! ## Renaming -/

/-- The second state is the first with the heaps renamed by `f`. -/
structure Renamed (f : Nat → Nat) (w : World H) (os : OperatingSystem V G) (w' : World H)
    (os' : OperatingSystem V G) : Prop where
  sys_eq : os'.sys = os.sys.map f (Thread.map f)
  heaps_eq : ∀ th ∈ os.sys.threads, w'.heaps (f th.heap) = w.heaps th.heap
  inj : ∀ x ∈ os.sys.threads, ∀ y ∈ os.sys.threads, f x.heap = f y.heap → x.heap = y.heap

theorem heapNumber_map {T U : Type} {s : System V G T} {f : Nat → Nat} (c : T → U)
    (hf : ∀ x ∈ s.threads, ∀ y ∈ s.threads, f x.heap = f y.heap → x.heap = y.heap)
    {th : Thread G} (hth : th ∈ s.threads) :
    (s.map f c).heapNumber (f th.heap) = s.heapNumber th.heap := by
  have hids : (s.map f c).heapIds = s.heapIds.map f := by
    simp only [System.heapIds, System.map, List.map_map]
    rfl
  rw [System.heapNumber, System.heapNumber, hids, Dict.idxOf_eraseDups_map _ (mem_heapIds hth)]
  intro i hi j hj he
  obtain ⟨x, hx, rfl⟩ := List.mem_map.mp hi
  obtain ⟨y, hy, rfl⟩ := List.mem_map.mp hj
  exact hf x hx y hy he

theorem stateDump_renamed {f : Nat → Nat} {w' : World H} {os' : OperatingSystem V G}
    (h : Renamed f w os w' os') : stateDump app w' os' = stateDump app w os := by
  rw [stateDump_heapNumber, stateDump_heapNumber, h.sys_eq]
  cases hcs : os.sys.choices with
  | none => simp only [System.map, hcs, Option.map_none]
  | some choices =>
      have hkeys := Dict.keys_mapValues (Action.map (Thread.map f)) choices
      have hnum : ∀ th ∈ os.sys.threads,
          (os.sys.map f (Thread.map f)).heapNumber (f th.heap) = os.sys.heapNumber th.heap :=
        fun th hth => heapNumber_map (Thread.map f) h.inj hth
      generalize (os.sys.map f (Thread.map f)).heapNumber = number at hnum
      simp only [System.map, hcs, Option.map_some, hkeys, System.dump, List.map_map,
        Except.ok.injEq, Dump.mk.injEq, true_and, and_true]
      constructor
      · exact List.map_congr_left fun th hth => by
          simp only [Function.comp_apply, Thread.map, hnum th hth]
      · exact congrArg Dict.ofList (List.map_congr_left fun th hth => by
          simp only [Function.comp_apply, Thread.map, hnum th hth, h.heaps_eq th hth])

/-! ## What a dump determines -/

/-- The threads of two states are live at the same places, the live ones share heaps
in the same pattern, and these heaps show the same. -/
structure SameSharing (w : World H) (os : OperatingSystem V G) (w' : World H)
    (os' : OperatingSystem V G) : Prop where
  length_eq : os.sys.threads.length = os'.sys.threads.length
  alive_eq : ∀ (i : Nat) (x x' : Thread G),
    os.sys.threads[i]? = some x → os'.sys.threads[i]? = some x' →
    x.context.alive = x'.context.alive
  share_iff : ∀ (i j : Nat) (x y x' y' : Thread G),
    os.sys.threads[i]? = some x → os.sys.threads[j]? = some y →
    os'.sys.threads[i]? = some x' → os'.sys.threads[j]? = some y' →
    x.context.alive = true → y.context.alive = true → (x.heap = y.heap ↔ x'.heap = y'.heap)
  contents_eq : ∀ (i : Nat) (x x' : Thread G),
    os.sys.threads[i]? = some x → os'.sys.threads[i]? = some x' →
    x.context.alive = true → app.showHeap (w.heaps x.heap) = app.showHeap (w'.heaps x'.heap)

/-- Two dumps with one list of contexts agree on a live thread. -/
theorem context_eq {s s' : System V G (Thread G)}
    (h : (s.threads.map fun th => (th.context.frame app).map fun f =>
        (⟨f, s.heapNumber th.heap⟩ : ContextDump L)) =
      s'.threads.map fun th => (th.context.frame app).map fun f => ⟨f, s'.heapNumber th.heap⟩)
    {i : Nat} {x x' : Thread G} (hx : s.threads[i]? = some x) (hx' : s'.threads[i]? = some x') :
    x.context.alive = x'.context.alive ∧
      (x.context.alive = true → s.heapNumber x.heap = s'.heapNumber x'.heap) := by
  have hi := congrArg (fun l => l[i]?) h
  simp only [List.getElem?_map, hx, hx', Option.map_some, Option.some.injEq] at hi
  exact thread_of_shown app hi

theorem sameSharing_of_same [DecidableEq V] {w' : World H} {os' : OperatingSystem V G}
    {d' : Dump V L S} (h : stateDump app w os = .ok d) (h' : stateDump app w' os' = .ok d')
    (hsame : d.Same d') :
    SameSharing app w os w' os' := by
  have hd := numbered_stateDump app h
  have hd' := numbered_stateDump app h'
  have hctx := hsame.contexts_eq
  rw [hd.contexts, hd'.contexts] at hctx
  constructor
  case length_eq => simpa using congrArg List.length hctx
  case alive_eq =>
    intro i x x' hx hx'
    exact (context_eq app hctx hx hx').1
  case share_iff =>
    intro i j x y x' y' hx hy hx' hy' hax hay
    have hnx := (context_eq app hctx hx hx').2 hax
    have hny := (context_eq app hctx hy hy').2 hay
    constructor
    · intro he
      refine heapNumber_inj (List.mem_of_getElem? hx') ?_
      rw [← hnx, ← hny, he]
    · intro he
      refine heapNumber_inj (List.mem_of_getElem? hx) ?_
      rw [hnx, hny, he]
  case contents_eq =>
    intro i x x' hx hx' hax
    have hnx := (context_eq app hctx hx hx').2 hax
    have hget := hd.heaps x (List.mem_of_getElem? hx)
    rw [hsame.heaps_same, hnx, hd'.heaps x' (List.mem_of_getElem? hx')] at hget
    exact (Option.some.inj hget).symm

/-- There is a dump exactly if there are choices. -/
theorem exists_stateDump_iff (w : World H) (os : OperatingSystem V G) :
    (∃ d, stateDump app w os = .ok d) ↔ os.sys.choices ≠ none := by
  rw [stateDump_heapNumber]
  cases os.sys.choices with
  | none => simp
  | some choices => simp

/-- Every replay that ends has a dump. -/
theorem replayDump_of_replay [DecidableEq V] [PyValue V] {trace : List Label}
    {x : World H × OperatingSystem V G} (h : replay app trace.length trace w = .ok x) :
    ∃ d, stateDump app x.1 x.2 = .ok d ∧ replayDump app trace w = .ok (x.1, d) := by
  obtain ⟨m, f, clone, hrun, hrel⟩ := replay_machine app le_rfl h
  have hdump := stateDump_eq app hrel (run_valid app (valid_init app) hrun)
  refine ⟨m.dump app, hdump, ?_⟩
  simp only [replayDump, h, hdump, bind, Except.bind]

/-- There is a dump of every state with choices, and of every replay that ends.  A dump
numbers the heaps by first occurrence and does not depend on their identities.  It
determines the sharing among live threads and the contents.  Two replays of a trace have
one hash code, whatever the hash function and whatever heaps there were before. -/
theorem stateDump_canonical [DecidableEq V] [PyValue V] :
    (∀ (w : World H) (os : OperatingSystem V G),
      (∃ d, stateDump app w os = .ok d) ↔ os.sys.choices ≠ none) ∧
    (∀ (trace : List Label) (w : World H) x, replay app trace.length trace w = .ok x →
      ∃ d, stateDump app x.1 x.2 = .ok d ∧ replayDump app trace w = .ok (x.1, d)) ∧
    (∀ (w : World H) (os : OperatingSystem V G) d, stateDump app w os = .ok d →
      Numbered app w os d) ∧
    (∀ f (w : World H) (os : OperatingSystem V G) w' os', Renamed f w os w' os' →
      stateDump app w' os' = stateDump app w os) ∧
    (∀ (w : World H) (os : OperatingSystem V G) w' os' d d', stateDump app w os = .ok d →
      stateDump app w' os' = .ok d' → d.Same d' → SameSharing app w os w' os') ∧
    ∀ (K : Type) (hash : Dump V L S → K) (trace : List Label) (w w' : World H),
      (replayDump app trace w).map (fun x => hash x.2) =
        (replayDump app trace w').map fun x => hash x.2 := by
  refine ⟨exists_stateDump_iff app, fun trace w x h => replayDump_of_replay app h,
    fun w os d h => numbered_stateDump app h, fun f w os w' os' h => stateDump_renamed app h,
    fun w os w' os' d d' h h' hsame => sameSharing_of_same app h h' hsame,
    fun K hash trace w w' => ?_⟩
  have hmap : ∀ w : World H, (replayDump app trace w).map (fun x => hash x.2) =
      ((replayDump app trace w).map Prod.snd).map hash := by
    intro w
    cases replayDump app trace w <;> rfl
  rw [hmap, hmap, replayDump_eq, replayDump_eq]

end Dump

/-- The state after a fork, in two worlds that have had different numbers of heaps: the heaps
are others, and the dumps are the same. -/
theorem stateDump_canonical_forkLoop : ∃ x y d,
    replay forkLoop 2 [.str "main", .str "fork"] (World.new 0) = .ok x ∧
    replay forkLoop 2 [.str "main", .str "fork"] { World.new 0 with nextHeap := 7 } = .ok y ∧
    x.2.sys.heapIds = [0, 1] ∧ y.2.sys.heapIds = [7, 8] ∧
    stateDump forkLoop x.1 x.2 = .ok d ∧ stateDump forkLoop y.1 y.2 = .ok d ∧
    Numbered forkLoop x.1 x.2 d ∧ SameSharing forkLoop x.1 x.2 y.1 y.2 := by
  obtain ⟨-, -, hnumbered, -, hsharing, -⟩ := stateDump_canonical forkLoop
  exact ⟨_, _, _, rfl, rfl, by decide, by decide, rfl, rfl, hnumbered _ _ _ rfl,
    hsharing _ _ _ _ _ _ rfl rfl (Dump.same_refl _)⟩

end OsCourse.Mosaic
