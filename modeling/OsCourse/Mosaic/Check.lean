import OsCourse.Mosaic.Dump
import OsCourse.Lib.Search

/-!
# The model checker

`check` explores the states of an application in the order of their distance from
the initial one.  A state is a trace: to look at it, a new system replays the
trace from the start and its dump is taken.  States with equal hash codes are
taken for one state.

The hash code is a function of the dump.  Under the assumption that it is a
congruence for the choices, `check` is a breadth-first search over the traces
with the hash code as the key (`exploreAll_eq`), and the results of that search
carry over.
-/

namespace OsCourse.Mosaic

variable {V G H L S K : Type}

/-! ## The checker -/

/-- A dump with its hash code and its depth. -/
structure Vertex (V L S K : Type) where
  /-- The dump. -/
  dump : Dump V L S
  /-- The hash code of the dump. -/
  hashcode : K
  /-- The number of choices that lead to the state. -/
  depth : Nat

/-- `State`: a trace and the state it leads to. -/
structure State (V L S K : Type) where
  /-- The choices. -/
  trace : List Label
  /-- The state. -/
  state : Vertex V L S K

/-- The variables of the loop in `check`. -/
structure Exploration (V L S K : Type) where
  /-- The states to explore. -/
  queued : List (State V L S K)
  /-- The vertices by hash code. -/
  vertices : Dict K (Vertex V L S K)
  /-- The edges. -/
  edges : List (K × K × Label)

/-- The result of `check`, without the source text. -/
structure Explored (V L S K : Type) where
  /-- The vertices. -/
  vertices : List (Vertex V L S K)
  /-- The edges: source, target and label. -/
  edges : List (K × K × Label)

section Check

variable [DecidableEq V] [PyValue V] [DecidableEq K] (app : App V G H L S) (hash : Dump V L S → K)

/-- `State(trace)`. -/
def State.new (trace : List Label) (w : World H) : Except Fault (World H × State V L S K) := do
  let (w, d) ← replayDump app trace w
  .ok (w, ⟨trace, ⟨d, hash d, 0⟩⟩)

/-- `st.extend(c)`. -/
def State.extend (st : State V L S K) (c : Label) (w : World H) :
    Except Fault (World H × State V L S K) := do
  let (w, st1) ← State.new app hash (st.trace ++ [c]) w
  .ok (w, { st1 with state := { st1.state with depth := st.state.depth + 1 } })

/-- The body of the inner loop. -/
def exploreChoice (st : State V L S K) (x : World H × Exploration V L S K) (choice : Label) :
    Except Fault (World H × Exploration V L S K) := do
  let (w, st1) ← st.extend app hash choice x.1
  let edges := x.2.edges ++ [(st.state.hashcode, st1.state.hashcode, choice)]
  if st1.state.hashcode ∈ x.2.vertices.keys then .ok (w, { x.2 with edges := edges })
  else
    .ok (w,
      { queued := x.2.queued ++ [st1]
        vertices := x.2.vertices.set st1.state.hashcode st1.state
        edges := edges })

/-- The inner loop. -/
def exploreState (st : State V L S K) (x : World H × Exploration V L S K) :
    Except Fault (World H × Exploration V L S K) :=
  st.state.dump.choices.foldlM (exploreChoice app hash st) x

/-- The outer loop, with a bound on the number of rounds. -/
def exploreAll : Nat → World H × Exploration V L S K → Except Fault (World H × Exploration V L S K)
  | 0, x =>
      match x.2.queued with
      | [] => .ok x
      | _ :: _ => .error .outOfFuel
  | fuel + 1, x =>
      match x.2.queued with
      | [] => .ok x
      | st :: queued => do
          let y ← exploreState app hash st (x.1, { x.2 with queued := queued })
          exploreAll fuel y

/-- `check`. -/
def check (fuel : Nat) (w : World H) : Except Fault (World H × Explored V L S K) := do
  let (w, st0) ← State.new app hash [] w
  let (w, x) ← exploreAll app hash fuel
    (w, ⟨[st0], Dict.ofList [(st0.state.hashcode, st0.state)], []⟩)
  .ok (w,
    { vertices := (x.vertices.entries.map Prod.snd).insertionSort fun a b => a.depth ≤ b.depth
      edges := x.edges })

end Check

/-! ## States of an application -/

section Reaches

variable [DecidableEq V] [PyValue V] (app : App V G H L S)

/-- Replaying a trace gives a dump, in whatever world. -/
def Reaches (trace : List Label) (d : Dump V L S) : Prop :=
  ∀ w, ∃ w', replayDump app trace w = .ok (w', d)

/-- Traces whose choices are offered. -/
inductive Offered : List Label → Prop where
  | nil : Offered []
  | snoc {trace : List Label} {d : Dump V L S} {c : Label} : Offered trace → Reaches app trace d →
      c ∈ d.choices → Offered (trace ++ [c])

variable {trace : List Label} {d : Dump V L S}

theorem reaches_iff :
    Reaches app trace d ↔
      ∃ m, Machine.run app trace (Machine.init app) = .ok m ∧ m.dump app = d := by
  constructor
  · intro h
    obtain ⟨w', hw⟩ := h (World.new app.emptyHeap)
    obtain ⟨m, hm, hd⟩ := run_of_replayDump app hw
    exact ⟨m, hm, hd.symm⟩
  · rintro ⟨m, hm, rfl⟩ w
    obtain ⟨x, hx, hd⟩ := replayDump_of_run app w hm
    exact ⟨x.1, by rw [hx, ← hd]⟩

/-- The labels of a dump are distinct. -/
theorem nodup_choices (h : Reaches app trace d) :
    d.choices.Nodup := by
  obtain ⟨m, -, rfl⟩ := (reaches_iff app).mp h
  have hkeys : ((m.sys.choices.map Dict.keys).getD []).Nodup := by
    cases m.sys.choices with
    | none => exact List.nodup_nil
    | some cs => exact cs.nodup
  exact (List.perm_insertionSort _ _).nodup_iff.mpr hkeys

/-- The dump of a trace. -/
def dumpOf (trace : List Label) : Dump V L S :=
  match Machine.run app trace (Machine.init app) with
  | .ok m => m.dump app
  | .error _ => (Machine.init app).dump app

theorem dumpOf_eq (h : Reaches app trace d) :
    dumpOf app trace = d := by
  obtain ⟨m, hm, rfl⟩ := (reaches_iff app).mp h
  rw [dumpOf, hm]

end Reaches

/-! ## The checker as a search -/

section Search

variable [DecidableEq V] [PyValue V] [DecidableEq K] (app : App V G H L S) (hash : Dump V L S → K)

/-- The key of a trace. -/
def traceKey (trace : List Label) : K := hash (dumpOf app trace)

/-- The extensions of a trace by the choices that it offers. -/
def traceNext (trace : List Label) : List (Label × List Label) :=
  (dumpOf app trace).choices.map fun c => (c, trace ++ [c])

/-- The vertex of a trace. -/
def vertexOf (x : List Label × Nat) : Vertex V L S K := ⟨dumpOf app x.1, traceKey app hash x.1, x.2⟩

/-- The state of a trace. -/
def stateOf (x : List Label × Nat) : State V L S K := ⟨x.1, vertexOf app hash x⟩

/-- A search over traces, as an exploration. -/
def explorationOf (s : Search.State (List Label) K Label) : Exploration V L S K where
  queued := s.queue.map (stateOf app hash)
  vertices := s.seen.mapValues (vertexOf app hash)
  edges := s.edges

theorem exploreChoice_eq {x : List Label × Nat} {c : Label}
    (h : Reaches app (x.1 ++ [c]) (dumpOf app (x.1 ++ [c]))) (w : World H)
    (s : Search.State (List Label) K Label) :
    ∃ w', exploreChoice app hash (stateOf app hash x) (w, explorationOf app hash s) c =
      .ok (w', explorationOf app hash
        (Search.visit (traceKey app hash) x s (c, x.1 ++ [c]))) := by
  obtain ⟨w', hw⟩ := h w
  have hext : (stateOf app hash x).extend app hash c w =
      .ok (w', stateOf app hash (x.1 ++ [c], x.2 + 1)) := by
    simp only [State.extend, State.new, stateOf, hw, bind, Except.bind]
    rfl
  refine ⟨w', ?_⟩
  simp only [exploreChoice, hext, bind, Except.bind]
  have hkeys : (explorationOf app hash s).vertices.keys = s.seen.keys := Dict.keys_mapValues _ _
  have hkey : (stateOf app hash (x.1 ++ [c], x.2 + 1)).state.hashcode =
      traceKey app hash (x.1 ++ [c]) := rfl
  rw [hkeys, hkey]
  split
  next hseen =>
    rw [Search.visit_seen hseen]
    rfl
  next hnew =>
    rw [Search.visit_new hnew]
    simp only [explorationOf, List.map_append, List.map_singleton, Dict.mapValues_set]
    rfl

theorem exploreState_eq {x : List Label × Nat}
    (h : ∀ c ∈ (dumpOf app x.1).choices, Reaches app (x.1 ++ [c]) (dumpOf app (x.1 ++ [c])))
    (w : World H) (s : Search.State (List Label) K Label) :
    ∃ w', exploreState app hash (stateOf app hash x) (w, explorationOf app hash s) =
      .ok (w', explorationOf app hash
        (Search.expand (traceKey app hash) (traceNext app) x s)) := by
  rw [exploreState, Search.expand, traceNext]
  have hchoices : (stateOf app hash x).state.dump.choices = (dumpOf app x.1).choices := rfl
  rw [hchoices]
  generalize (dumpOf app x.1).choices = choices at h
  induction choices generalizing w s with
  | nil => exact ⟨w, rfl⟩
  | cons c choices ih =>
      obtain ⟨w1, hw1⟩ := exploreChoice_eq app hash (h c (List.mem_cons_self ..)) w s
      obtain ⟨w2, hw2⟩ := ih w1 (Search.visit (traceKey app hash) x s (c, x.1 ++ [c]))
        fun d hd => h d (List.mem_cons_of_mem _ hd)
      refine ⟨w2, ?_⟩
      rw [List.foldlM_cons, hw1]
      exact hw2

variable {fuel : Nat} {trace : List Label}

theorem exploreAll_nil {x : World H × Exploration V L S K} (h : x.2.queued = []) :
    exploreAll app hash fuel x = .ok x := by
  cases fuel <;> simp only [exploreAll, h]

theorem exploreAll_cons {x : World H × Exploration V L S K} {st : State V L S K}
    {queued : List (State V L S K)} (h : x.2.queued = st :: queued) :
    exploreAll app hash (fuel + 1) x =
      (exploreState app hash st (x.1, { x.2 with queued := queued })).bind
        (exploreAll app hash fuel) := by
  rw [exploreAll]
  simp only [h]
  rfl

/-- The outer loop does what the search does, as long as traces have dumps. -/
theorem exploreAll_eq
    (h : ∀ d trace, Search.Path (traceNext app) [] d trace → Reaches app trace (dumpOf app trace))
    {done : List (List Label × Nat)} {s s' : Search.State (List Label) K Label}
    (hinv : Search.Inv (traceKey app hash) (traceNext app) [] done s)
    (hs : Search.search (traceKey app hash) (traceNext app) fuel s = some s') (w : World H) :
    ∃ w', exploreAll app hash fuel (w, explorationOf app hash s) =
      .ok (w', explorationOf app hash s') := by
  have hempty : ∀ (fuel : Nat) (s : Search.State (List Label) K Label) (w : World H),
      s.queue = [] → exploreAll app hash fuel (w, explorationOf app hash s) =
        .ok (w, explorationOf app hash s) := by
    intro fuel s w hq
    exact exploreAll_nil app hash (congrArg (List.map (stateOf app hash)) hq)
  induction fuel generalizing done s w with
  | zero =>
      rw [Search.search] at hs
      cases hq : s.queue with
      | nil =>
          rw [hq] at hs
          cases hs
          exact ⟨w, hempty 0 _ w hq⟩
      | cons x queue => rw [hq] at hs; cases hs
  | succ fuel ih =>
      rw [Search.search] at hs
      cases hq : s.queue with
      | nil =>
          rw [hq] at hs
          cases hs
          exact ⟨w, hempty (fuel + 1) _ w hq⟩
      | cons x queue =>
          rw [hq] at hs
          have hx : x ∈ s.found := by
            rw [hinv.found_eq, hq]
            exact List.mem_append_right _ (List.mem_cons_self ..)
          have hpath := hinv.paths x hx
          have hreach : ∀ c ∈ (dumpOf app x.1).choices,
              Reaches app (x.1 ++ [c]) (dumpOf app (x.1 ++ [c])) := fun c hc =>
            h _ _ (hpath.step (List.mem_map_of_mem hc))
          obtain ⟨w1, hw1⟩ := exploreState_eq app hash hreach w { s with queue := queue }
          obtain ⟨w2, hw2⟩ := ih (Search.inv_expand hinv hq) hs w1
          have hcons : (explorationOf app hash s).queued =
              stateOf app hash x :: queue.map (stateOf app hash) :=
            congrArg (List.map (stateOf app hash)) hq
          refine ⟨w2, (exploreAll_cons app hash hcons).trans ?_⟩
          exact (congrArg (Except.bind · (exploreAll app hash fuel)) hw1).trans hw2

/-! ## Completeness -/

/-- The hash code is a congruence: traces with equal hash codes offer the same
choices, and their extensions by the same choice have equal hash codes. -/
def HashCongruent : Prop :=
  ∀ trace trace' d d', Offered app trace → Offered app trace' → Reaches app trace d →
    Reaches app trace' d' → hash d = hash d' →
      d.choices = d'.choices ∧ ∀ c ∈ d.choices, ∃ e e', Reaches app (trace ++ [c]) e ∧
        Reaches app (trace' ++ [c]) e' ∧ hash e = hash e'

/-- A state that some trace reaches has this hash code. -/
def HashReached (trace : List Label) (k : K) : Prop :=
  Offered app trace ∧ ∃ d, Reaches app trace d ∧ hash d = k

variable {app hash}

omit [DecidableEq K] in
/-- Under a congruence all traces have dumps. -/
theorem reaches_dumpOf (hcongr : HashCongruent app hash) (h : Offered app trace) :
    Reaches app trace (dumpOf app trace) := by
  have hex : ∃ d, Reaches app trace d := by
    cases h with
    | nil => exact ⟨_, (reaches_iff app).mpr ⟨_, rfl, rfl⟩⟩
    | @snoc trace d c h hd hc =>
        obtain ⟨e, -, he, -, -⟩ := (hcongr trace trace d d h h hd hd rfl).2 c hc
        exact ⟨e, he⟩
  obtain ⟨d, hd⟩ := hex
  rw [dumpOf_eq app hd]
  exact hd

omit [DecidableEq K] in
/-- Paths of the search are traces. -/
theorem path_iff (hcongr : HashCongruent app hash) {n : Nat} :
    Search.Path (traceNext app) [] n trace ↔ Offered app trace ∧ trace.length = n := by
  constructor
  · intro h
    induction h with
    | start => exact ⟨.nil, rfl⟩
    | @step n trace y _ hy ih =>
        obtain ⟨c, hc, rfl⟩ := List.mem_map.mp hy
        exact ⟨.snoc ih.1 (reaches_dumpOf hcongr ih.1) hc, by simp [ih.2]⟩
  · rintro ⟨h, rfl⟩
    induction h with
    | nil => exact .start
    | @snoc trace d c _ hd hc ih =>
        rw [← dumpOf_eq app hd] at hc
        rw [List.length_append]
        exact ih.step (List.mem_map_of_mem hc)

omit [DecidableEq K] in
theorem hashReached_iff (hcongr : HashCongruent app hash) {k : K} :
    HashReached app hash trace k ↔ Offered app trace ∧ traceKey app hash trace = k := by
  refine and_congr_right fun h => ⟨?_, fun hk => ⟨_, reaches_dumpOf hcongr h, hk⟩⟩
  rintro ⟨d, hd, hk⟩
  rw [traceKey, dumpOf_eq app hd, hk]

omit [DecidableEq K] in
/-- Traces with equal hash codes behave alike. -/
theorem congruent_traces (hcongr : HashCongruent app hash) :
    Search.Congruent (traceKey app hash) (traceNext app) [] := by
  intro n n' trace trace' hpath hpath' hkey y hy
  obtain ⟨h, -⟩ := (path_iff hcongr).mp hpath
  obtain ⟨h', -⟩ := (path_iff hcongr).mp hpath'
  obtain ⟨hcs, hext⟩ := hcongr trace trace' _ _ h h' (reaches_dumpOf hcongr h)
    (reaches_dumpOf hcongr h') hkey
  obtain ⟨c, hc, rfl⟩ := List.mem_map.mp hy
  obtain ⟨e, e', he, he', hk⟩ := hext c hc
  refine ⟨(c, trace' ++ [c]), List.mem_map_of_mem (hcs ▸ hc), rfl, ?_⟩
  rw [traceKey, traceKey, dumpOf_eq app he, dumpOf_eq app he', hk]

/-- What `check` has to deliver. -/
structure ExploredAll (app : App V G H L S) (hash : Dump V L S → K) (r : Explored V L S K) :
    Prop where
  /-- Every vertex is a state with its hash code. -/
  states : ∀ v ∈ r.vertices, v.hashcode = hash v.dump ∧
    ∃ trace, Offered app trace ∧ Reaches app trace v.dump
  /-- There is one vertex for every hash code that some trace reaches. -/
  hashcodes_nodup : (r.vertices.map Vertex.hashcode).Nodup
  mem_hashcodes : ∀ k, k ∈ r.vertices.map Vertex.hashcode ↔ ∃ trace, HashReached app hash trace k
  /-- The depth of a vertex is the length of the shortest trace to it. -/
  depths : ∀ v ∈ r.vertices,
    IsLeast { n | ∃ trace, HashReached app hash trace v.hashcode ∧ trace.length = n } v.depth
  /-- There is one edge for every state and every choice that it offers. -/
  edges_nodup : r.edges.Nodup
  mem_edges : ∀ e, e ∈ r.edges ↔ ∃ trace d c d', Offered app trace ∧ Reaches app trace d ∧
    c ∈ d.choices ∧ Reaches app (trace ++ [c]) d' ∧ e = (hash d, hash d', c)
  /-- The first vertex is the initial state. -/
  first : ∃ d, Reaches app [] d ∧ r.vertices.head? = some ⟨d, hash d, 0⟩

omit [DecidableEq K] in
/-- A complete search delivers what `check` has to deliver. -/
theorem exploredAll_of_complete (hcongr : HashCongruent app hash)
    {s : Search.State (List Label) K Label}
    (h : Search.Complete (traceKey app hash) (traceNext app) [] s) :
    ExploredAll app hash ⟨s.found.map (vertexOf app hash), s.edges⟩ where
  states := by
    intro v hv
    obtain ⟨x, hx, rfl⟩ := List.mem_map.mp hv
    obtain ⟨hoff, -⟩ := (path_iff hcongr).mp (h.paths x hx)
    exact ⟨rfl, x.1, hoff, reaches_dumpOf hcongr hoff⟩
  hashcodes_nodup := by
    rw [List.map_map]
    exact h.keys_nodup
  mem_hashcodes := by
    intro k
    rw [List.map_map, List.mem_map]
    constructor
    · rintro ⟨x, hx, rfl⟩
      obtain ⟨hoff, -⟩ := (path_iff hcongr).mp (h.paths x hx)
      exact ⟨x.1, (hashReached_iff hcongr).mpr ⟨hoff, rfl⟩⟩
    · rintro ⟨trace, hk⟩
      obtain ⟨hoff, rfl⟩ := (hashReached_iff hcongr).mp hk
      obtain ⟨x, hx, hkey, -⟩ := h.shortest ((path_iff hcongr).mpr ⟨hoff, rfl⟩)
      exact ⟨x, hx, hkey⟩
  depths := by
    intro v hv
    obtain ⟨x, hx, rfl⟩ := List.mem_map.mp hv
    obtain ⟨hoff, hlen⟩ := (path_iff hcongr).mp (h.paths x hx)
    refine ⟨⟨x.1, (hashReached_iff hcongr).mpr ⟨hoff, rfl⟩, hlen⟩, ?_⟩
    rintro n ⟨trace, hk, rfl⟩
    obtain ⟨hoff', hkey⟩ := (hashReached_iff hcongr).mp hk
    obtain ⟨z, hz, hkz, hle⟩ := h.shortest ((path_iff hcongr).mpr ⟨hoff', rfl⟩)
    -- the node with this key is unique
    have hzx : z = x := List.inj_on_of_nodup_map h.keys_nodup hz hx (hkz.trans hkey)
    exact hzx ▸ hle
  edges_nodup := h.edges_nodup
  mem_edges := by
    intro e
    rw [h.mem_edges]
    constructor
    · rintro ⟨n, trace, y, hy, hpath, rfl⟩
      obtain ⟨hoff, -⟩ := (path_iff hcongr).mp hpath
      obtain ⟨c, hc, rfl⟩ := List.mem_map.mp hy
      have hreach := reaches_dumpOf hcongr hoff
      exact ⟨trace, _, c, _, hoff, hreach, hc, reaches_dumpOf hcongr (hoff.snoc hreach hc), rfl⟩
    · rintro ⟨trace, d, c, d', hoff, hd, hc, hd', rfl⟩
      cases dumpOf_eq app hd
      cases dumpOf_eq app hd'
      exact ⟨trace.length, trace, (c, trace ++ [c]), List.mem_map_of_mem hc,
        (path_iff hcongr).mpr ⟨hoff, rfl⟩, rfl⟩
  first := by
    refine ⟨dumpOf app [], reaches_dumpOf hcongr .nil, ?_⟩
    rw [List.head?_map, h.first]
    rfl

/-- For every application whose hash codes are a congruence and finitely many,
`check` ends and delivers the whole state space. -/
theorem check_complete (hcongr : HashCongruent app hash)
    (hfin : { k | ∃ trace, HashReached app hash trace k }.Finite) :
    ∃ bound, ∀ fuel, bound ≤ fuel → ∀ w, ∃ w' r,
      check app hash fuel w = .ok (w', r) ∧ ExploredAll app hash r := by
  have hkeys : ∀ n trace, Search.Path (traceNext app) [] n trace →
      traceKey app hash trace ∈ hfin.toFinset := by
    intro n trace hpath
    obtain ⟨hoff, -⟩ := (path_iff hcongr).mp hpath
    exact hfin.mem_toFinset.mpr ⟨trace, (hashReached_iff hcongr).mpr ⟨hoff, rfl⟩⟩
  have hreach : ∀ n trace, Search.Path (traceNext app) [] n trace →
      Reaches app trace (dumpOf app trace) := fun n trace hpath =>
    reaches_dumpOf hcongr ((path_iff hcongr).mp hpath).1
  have hlabels : ∀ n trace, Search.Path (traceNext app) [] n trace →
      ((traceNext app trace).map Prod.fst).Nodup := by
    intro n trace hpath
    have hmap : (traceNext app trace).map Prod.fst = (dumpOf app trace).choices := by
      rw [traceNext, List.map_map]
      exact List.map_id _
    rw [hmap]
    exact nodup_choices app (hreach n trace hpath)
  refine ⟨hfin.toFinset.card, fun fuel hfuel w => ?_⟩
  obtain ⟨s, hs, hcomplete⟩ := Search.search_complete hkeys hlabels (congruent_traces hcongr) hfuel
  obtain ⟨w0, hw0⟩ := hreach 0 [] .start w
  obtain ⟨w', hw'⟩ := exploreAll_eq app hash hreach Search.inv_initial hs w0
  refine ⟨w', _, ?_, exploredAll_of_complete hcongr hcomplete⟩
  have hnew : State.new app hash [] w = .ok (w0, stateOf app hash ([], 0)) := by
    rw [State.new, hw0]
    rfl
  have hvertices : ((explorationOf app hash s).vertices.entries.map Prod.snd) =
      s.found.map (vertexOf app hash) := by
    simp only [explorationOf, Dict.mapValues, Search.State.found, List.map_map]
    rfl
  have hsorted : (s.found.map (vertexOf app hash)).Pairwise fun a b => a.depth ≤ b.depth :=
    List.pairwise_map.mpr hcomplete.sorted
  have hall : exploreAll app hash fuel (w0, ⟨[stateOf app hash ([], 0)],
      Dict.ofList [((stateOf app hash ([], 0)).state.hashcode, (stateOf app hash ([], 0)).state)],
        []⟩) = .ok (w', explorationOf app hash s) := hw'
  rw [check, hnew]
  simp only [bind, Except.bind, hall, hvertices, hsorted.insertionSort_eq]
  rfl

end Search

/-- The application `sys_choose([0, 1])`. -/
def chooseOnce : App (Option Int) Nat Unit Unit Unit where
  name := "main"
  main := 0
  emptyHeap := ()
  call := fun _ => .choose [some 0, some 1]
  send := fun g _ _ => if g = 0 then .yields 1 () else .returns ()
  startFrame := fun _ => ⟨"main", 1, ()⟩
  frame := fun _ => ⟨"main", 2, ()⟩
  showHeap := id

/-- The traces of the application.  The last two end in the same state. -/
def chooseTraces : List (List Label) :=
  [[], [.str "main"], [.str "main", .str "choose 0"], [.str "main", .str "choose 1"]]

theorem chooseOnce_reaches {trace : List Label} (h : trace ∈ chooseTraces) :
    Reaches chooseOnce trace (dumpOf chooseOnce trace) := by
  have hok : ∀ t ∈ chooseTraces,
      (Machine.run chooseOnce t (Machine.init chooseOnce)).isOk = true := by decide +kernel
  cases hrun : Machine.run chooseOnce trace (Machine.init chooseOnce) with
  | error e =>
      have hbad := hok trace h
      rw [hrun] at hbad
      cases hbad
  | ok m =>
      have hreach := (reaches_iff chooseOnce).mpr ⟨m, hrun, rfl⟩
      rw [dumpOf_eq chooseOnce hreach]
      exact hreach

theorem chooseOnce_offered {trace : List Label} (h : Offered chooseOnce trace) :
    trace ∈ chooseTraces := by
  have hclosed : ∀ t ∈ chooseTraces, ∀ c ∈ (dumpOf chooseOnce t).choices,
      t ++ [c] ∈ chooseTraces := by decide +kernel
  induction h with
  | nil => exact List.mem_cons_self ..
  | @snoc trace d c _ hd hc ih =>
      rw [← dumpOf_eq chooseOnce hd] at hc
      exact hclosed trace ih c hc

/-- The number of choices tells the three states of the application apart. -/
theorem check_complete_chooseOnce :
    ∃ bound, ∀ fuel, bound ≤ fuel → ∀ w, ∃ w' r,
      check chooseOnce (fun d => d.choices.length) fuel w = .ok (w', r) ∧
        ExploredAll chooseOnce (fun d => d.choices.length) r := by
  have hfacts : ∀ t ∈ chooseTraces, ∀ t' ∈ chooseTraces,
      (dumpOf chooseOnce t).choices.length = (dumpOf chooseOnce t').choices.length →
        (dumpOf chooseOnce t).choices = (dumpOf chooseOnce t').choices ∧
        ∀ c ∈ (dumpOf chooseOnce t).choices, t ++ [c] ∈ chooseTraces ∧ t' ++ [c] ∈ chooseTraces ∧
          (dumpOf chooseOnce (t ++ [c])).choices.length =
            (dumpOf chooseOnce (t' ++ [c])).choices.length := by decide +kernel
  refine check_complete ?_ ?_
  · intro trace trace' d d' h h' hd hd' hk
    cases dumpOf_eq chooseOnce hd
    cases dumpOf_eq chooseOnce hd'
    obtain ⟨hcs, hext⟩ := hfacts trace (chooseOnce_offered h) trace' (chooseOnce_offered h') hk
    refine ⟨hcs, fun c hc => ?_⟩
    obtain ⟨ht, ht', hlen⟩ := hext c hc
    exact ⟨_, _, chooseOnce_reaches ht, chooseOnce_reaches ht', hlen⟩
  · refine (List.finite_toSet
      (chooseTraces.map fun t => (dumpOf chooseOnce t).choices.length)).subset ?_
    rintro k ⟨trace, h, d, hd, rfl⟩
    cases dumpOf_eq chooseOnce hd
    exact List.mem_map.mpr ⟨trace, chooseOnce_offered h, rfl⟩

end OsCourse.Mosaic
