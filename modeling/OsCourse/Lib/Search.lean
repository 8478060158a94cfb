import OsCourse.Lib.Dict
import Mathlib.Data.Finset.Card

/-!
# Breadth-first search over keys

The search explores a graph of nodes from a start node.  It tells nodes apart by
their keys only: a node whose key has been seen is not explored again.  For each
edge it follows it records the two keys and the label.

If nodes with equal keys have edges with the same labels to nodes with equal
keys, nothing is lost.  When there are finitely many keys, the search ends with
one node for each key that a path reaches, at the length of the shortest such
path, and with one edge for each edge between these keys (`search_complete`).

The nodes found are, in the order in which they were found, those that have been
explored and then those in the queue (`Inv`).  Their depths ascend, and the
deepest is at most one deeper than the head of the queue.
-/

namespace OsCourse.Search

variable {N K C : Type} [DecidableEq K]

/-! ## The search -/

/-- The state of a search. -/
structure State (N K C : Type) where
  /-- The nodes to explore, with their depths. -/
  queue : List (N × Nat)
  /-- The nodes found, by key. -/
  seen : Dict K (N × Nat)
  /-- The edges followed. -/
  edges : List (K × K × C)

/-- The nodes found. -/
def State.found (s : State N K C) : List (N × Nat) := s.seen.entries.map Prod.snd

section Graph

variable (key : N → K) (next : N → List (C × N)) (start : N)

/-- The edge from a node, as it is recorded. -/
def edge (n : N) (y : C × N) : K × K × C := (key n, key y.2, y.1)

/-- Follow an edge. -/
def visit (x : N × Nat) (s : State N K C) (y : C × N) : State N K C :=
  let edges := s.edges ++ [edge key x.1 y]
  if key y.2 ∈ s.seen.keys then { s with edges := edges }
  else
    { queue := s.queue ++ [(y.2, x.2 + 1)]
      seen := s.seen.set (key y.2) (y.2, x.2 + 1)
      edges := edges }

/-- Follow all edges of a node. -/
def expand (x : N × Nat) (s : State N K C) : State N K C := (next x.1).foldl (visit key x) s

/-- Explore nodes until the queue is empty. -/
def search : Nat → State N K C → Option (State N K C)
  | 0, s =>
      match s.queue with
      | [] => some s
      | _ :: _ => none
  | fuel + 1, s =>
      match s.queue with
      | [] => some s
      | x :: queue => search fuel (expand key next x { s with queue := queue })

/-- The state before the search. -/
def initial : State N K C := ⟨[(start, 0)], Dict.ofList [(key start, (start, 0))], []⟩

/-- A node at the end of a path. -/
inductive Path : Nat → N → Prop where
  | start : Path 0 start
  | step {d : Nat} {n : N} {y : C × N} : Path d n → y ∈ next n → Path (d + 1) y.2

/-! ## The invariant -/

/-- The nodes found are at the ends of paths and stand in the order of depth. -/
structure Sound (s : State N K C) : Prop where
  keyed : ∀ e ∈ s.seen.entries, e.1 = key e.2.1
  paths : ∀ x ∈ s.found, Path next start x.2 x.1
  first : s.found.head? = some (start, 0)
  sorted : s.found.Pairwise fun x y => x.2 ≤ y.2

/-- An edge leads to a node that was found at most one deeper. -/
def Closed (s : State N K C) (x : N × Nat) (y : C × N) : Prop :=
  ∃ z ∈ s.found, key z.1 = key y.2 ∧ z.2 ≤ x.2 + 1

/-- The invariant, where the nodes `done` have been explored. -/
structure Inv (done : List (N × Nat)) (s : State N K C) : Prop extends
    Sound key next start s where
  found_eq : s.found = done ++ s.queue
  closed : ∀ x ∈ done, ∀ y ∈ next x.1, Closed key s x y
  near : ∀ q ∈ s.queue, ∀ z ∈ s.found, z.2 ≤ q.2 + 1
  edges_eq : s.edges = done.flatMap fun x => (next x.1).map (edge key x.1)

/-- The invariant while `x` is explored and the edges `ys` have been followed. -/
structure Mid (done : List (N × Nat)) (x : N × Nat) (ys : List (C × N)) (s : State N K C) :
    Prop extends Sound key next start s where
  found_eq : s.found = done ++ x :: s.queue
  closed : ∀ z ∈ done, ∀ y ∈ next z.1, Closed key s z y
  closedHere : ∀ y ∈ ys, Closed key s x y
  near : ∀ z ∈ s.found, z.2 ≤ x.2 + 1
  edges_eq : s.edges =
    (done.flatMap fun z => (next z.1).map (edge key z.1)) ++ ys.map (edge key x.1)

variable {key next start}

variable {s : State N K C} {x : N × Nat} {y : C × N} {done : List (N × Nat)} {keys : Finset K}

omit [DecidableEq K] in
theorem mem_keys (h : Sound key next start s) {k : K} :
    k ∈ s.seen.keys ↔ ∃ z ∈ s.found, key z.1 = k := by
  constructor
  · intro hk
    obtain ⟨e, he, rfl⟩ := List.mem_map.mp hk
    exact ⟨e.2, List.mem_map_of_mem he, (h.keyed e he).symm⟩
  · rintro ⟨z, hz, rfl⟩
    obtain ⟨e, he, rfl⟩ := List.mem_map.mp hz
    exact h.keyed e he ▸ List.mem_map_of_mem he

omit [DecidableEq K] in
theorem keys_eq (h : Sound key next start s) :
    s.found.map (fun x => key x.1) = s.seen.keys := by
  rw [State.found, Dict.keys, List.map_map]
  exact List.map_congr_left fun e he => (h.keyed e he).symm

theorem inv_initial : Inv key next start [] (initial key start) where
  keyed := by
    intro e he
    rw [List.mem_singleton.mp he]
  paths := by
    intro x hx
    rw [List.mem_singleton.mp hx]
    exact .start
  first := rfl
  sorted := List.pairwise_singleton _ _
  found_eq := rfl
  closed := nofun
  near := by
    intro q hq z hz
    rw [List.mem_singleton.mp hz]
    exact Nat.zero_le _
  edges_eq := rfl

omit [DecidableEq K] in
theorem Closed.mono {s' : State N K C} (h : Closed key s x y) (hsub : s.found ⊆ s'.found) :
    Closed key s' x y := by
  obtain ⟨z, hz, hk, hd⟩ := h
  exact ⟨z, hsub hz, hk, hd⟩

/-! ## One edge -/

/-- Following an edge to a key that was seen. -/
theorem visit_seen (h : key y.2 ∈ s.seen.keys) :
    visit key x s y = { s with edges := s.edges ++ [edge key x.1 y] } := by
  rw [visit, if_pos h]

/-- Following an edge to a new key. -/
theorem visit_new (h : key y.2 ∉ s.seen.keys) :
    visit key x s y =
      { queue := s.queue ++ [(y.2, x.2 + 1)]
        seen := s.seen.set (key y.2) (y.2, x.2 + 1)
        edges := s.edges ++ [edge key x.1 y] } := by
  rw [visit, if_neg h]

theorem entries_visit (h : key y.2 ∉ s.seen.keys) :
    (visit key x s y).seen.entries = s.seen.entries ++ [(key y.2, (y.2, x.2 + 1))] := by
  rw [visit_new h]
  exact Dict.setEntry_of_not_mem h

theorem found_visit (h : key y.2 ∉ s.seen.keys) :
    (visit key x s y).found = s.found ++ [(y.2, x.2 + 1)] := by
  rw [State.found, entries_visit h, List.map_append]
  rfl

theorem mem_found_visit {z : N × Nat} (h : key y.2 ∉ s.seen.keys) :
    z ∈ (visit key x s y).found ↔ z ∈ s.found ∨ z = (y.2, x.2 + 1) := by
  rw [found_visit h, List.mem_append, List.mem_singleton]

/-- A new node keeps what is found sound, if it is as deep as any. -/
theorem sound_visit (h : Sound key next start s) (hx : x ∈ s.found)
    (hnear : ∀ z ∈ s.found, z.2 ≤ x.2 + 1) (hy : y ∈ next x.1) (hnew : key y.2 ∉ s.seen.keys) :
    Sound key next start (visit key x s y) := by
  constructor
  · intro e he
    rw [entries_visit hnew] at he
    rcases List.mem_append.mp he with he | he
    · exact h.keyed e he
    · rw [List.mem_singleton.mp he]
  · intro z hz
    rcases (mem_found_visit hnew).mp hz with hz | rfl
    · exact h.paths z hz
    · exact .step (h.paths x hx) hy
  · rw [found_visit hnew, List.head?_append, h.first]
    rfl
  · rw [found_visit hnew, List.pairwise_append]
    refine ⟨h.sorted, List.pairwise_singleton _ _, fun z hz u hu => ?_⟩
    rw [List.mem_singleton.mp hu]
    exact hnear z hz

theorem mid_visit {ys : List (C × N)} (h : Mid key next start done x ys s) (hy : y ∈ next x.1) :
    Mid key next start done x (ys ++ [y]) (visit key x s y) := by
  have hedges : s.edges ++ [edge key x.1 y] =
      (done.flatMap fun z => (next z.1).map (edge key z.1)) ++ (ys ++ [y]).map (edge key x.1) := by
    rw [h.edges_eq, List.map_append, List.append_assoc]
    rfl
  rcases Classical.em (key y.2 ∈ s.seen.keys) with hseen | hnew
  · rw [visit_seen hseen]
    obtain ⟨z, hz, hk⟩ := (mem_keys h.toSound).mp hseen
    refine ⟨⟨h.keyed, h.paths, h.first, h.sorted⟩, h.found_eq, h.closed, ?_, h.near, hedges⟩
    intro y' hy'
    rcases List.mem_append.mp hy' with hy' | hy'
    · exact h.closedHere y' hy'
    · rw [List.mem_singleton.mp hy']
      exact ⟨z, hz, hk, h.near z hz⟩
  · have hsub : s.found ⊆ (visit key x s y).found := fun z hz =>
      (mem_found_visit hnew).mpr (Or.inl hz)
    have hx : x ∈ s.found := by
      rw [h.found_eq]
      exact List.mem_append_right _ (List.mem_cons_self ..)
    refine ⟨sound_visit h.toSound hx h.near hy hnew, ?_, ?_, ?_, ?_, ?_⟩
    · rw [found_visit hnew, h.found_eq, visit_new hnew, List.append_assoc]
      rfl
    · exact fun z hz y' hy' => (h.closed z hz y' hy').mono hsub
    · intro y' hy'
      rcases List.mem_append.mp hy' with hy' | hy'
      · exact (h.closedHere y' hy').mono hsub
      · rw [List.mem_singleton.mp hy']
        exact ⟨(y.2, x.2 + 1), (mem_found_visit hnew).mpr (Or.inr rfl), rfl, le_rfl⟩
    · intro z hz
      rcases (mem_found_visit hnew).mp hz with hz | rfl
      · exact h.near z hz
      · exact le_rfl
    · rw [visit_new hnew]
      exact hedges

/-! ## One node -/

theorem mid_foldl {ys rest : List (C × N)} (h : Mid key next start done x ys s)
    (hsub : rest ⊆ next x.1) :
    Mid key next start done x (ys ++ rest) (rest.foldl (visit key x) s) := by
  induction rest generalizing ys s with
  | nil => rw [List.append_nil]; exact h
  | cons y rest ih =>
      obtain ⟨hy, hrest⟩ := List.cons_subset.mp hsub
      have hmid := ih (mid_visit h hy) hrest
      rw [List.append_assoc] at hmid
      exact hmid

/-- Exploring a node keeps the invariant. -/
theorem inv_expand {queue : List (N × Nat)} (h : Inv key next start done s)
    (hq : s.queue = x :: queue) :
    Inv key next start (done ++ [x]) (expand key next x { s with queue := queue }) := by
  have hmid : Mid key next start done x [] { s with queue := queue } := by
    refine ⟨⟨h.keyed, h.paths, h.first, h.sorted⟩, ?_, h.closed, nofun, ?_, ?_⟩
    · exact hq ▸ h.found_eq
    · exact h.near x (hq ▸ List.mem_cons_self ..)
    · rw [List.map_nil, List.append_nil]
      exact h.edges_eq
  have hend := mid_foldl hmid (List.Subset.refl (next x.1))
  rw [List.nil_append] at hend
  have hsorted := hend.sorted
  rw [hend.found_eq, List.pairwise_append, List.pairwise_cons] at hsorted
  refine ⟨hend.toSound, ?_, ?_, ?_, ?_⟩
  · rw [List.append_assoc]
    exact hend.found_eq
  · intro z hz
    rcases List.mem_append.mp hz with hz | hz
    · exact hend.closed z hz
    · rw [List.mem_singleton.mp hz]
      exact hend.closedHere
  · intro q hq' z hz
    have hle := hsorted.2.1.1 q hq'
    have hnear := hend.near z hz
    omega
  · rw [List.flatMap_append, List.flatMap_singleton]
    exact hend.edges_eq

/-! ## The whole search -/

/-- No more nodes are found than there are keys. -/
theorem length_found_le (h : Sound key next start s)
    (hkeys : ∀ d n, Path next start d n → key n ∈ keys) : s.found.length ≤ keys.card := by
  have hsub : s.seen.keys.toFinset ⊆ keys := by
    intro k hk
    obtain ⟨z, hz, rfl⟩ := (mem_keys h).mp (List.mem_toFinset.mp hk)
    exact hkeys z.2 z.1 (h.paths z hz)
  have hlen : s.found.length = s.seen.keys.length := by rw [← keys_eq h, List.length_map]
  have hnodup : s.seen.keys.Nodup := s.seen.nodup
  rw [hlen, ← List.toFinset_card_of_nodup hnodup]
  exact Finset.card_le_card hsub

/-- With finitely many keys the search ends, and the invariant holds at its end. -/
theorem search_ends (hkeys : ∀ d n, Path next start d n → key n ∈ keys) {fuel : Nat}
    (h : Inv key next start done s) (hfuel : keys.card ≤ fuel + done.length) :
    ∃ s', search key next fuel s = some s' ∧ Inv key next start s'.found s' := by
  have hlen := length_found_le h.toSound hkeys
  rw [h.found_eq, List.length_append] at hlen
  induction fuel generalizing done s with
  | zero =>
      have hq : s.queue = [] := List.eq_nil_of_length_eq_zero (by omega)
      have hfound : s.found = done := by rw [h.found_eq, hq, List.append_nil]
      exact ⟨s, by rw [search, hq], hfound ▸ h⟩
  | succ fuel ih =>
      cases hq : s.queue with
      | nil =>
          have hfound : s.found = done := by rw [h.found_eq, hq, List.append_nil]
          exact ⟨s, by rw [search, hq], hfound ▸ h⟩
      | cons x queue =>
          have hinv := inv_expand h hq
          have hlen' := length_found_le hinv.toSound hkeys
          rw [hinv.found_eq, List.length_append] at hlen'
          have hfuel' : keys.card ≤ fuel + (done ++ [x]).length := by
            rw [List.length_append, List.length_singleton]
            omega
          obtain ⟨s', hs', hend⟩ := ih hinv hfuel' hlen'
          exact ⟨s', by rw [search, hq]; exact hs', hend⟩

/-- Nodes with equal keys have edges with the same labels to nodes with equal
keys. -/
def Congruent (key : N → K) (next : N → List (C × N)) (start : N) : Prop :=
  ∀ {d d' : Nat} {n n' : N}, Path next start d n → Path next start d' n' → key n = key n' →
    ∀ y ∈ next n, ∃ y' ∈ next n', y'.1 = y.1 ∧ key y'.2 = key y.2

/-- What a search has to deliver: a node for every key, at the length of the
shortest path to the key, and every edge once. -/
structure Complete (key : N → K) (next : N → List (C × N)) (start : N) (s : State N K C) :
    Prop where
  keys_nodup : (s.found.map fun x => key x.1).Nodup
  paths : ∀ x ∈ s.found, Path next start x.2 x.1
  shortest : ∀ {d n}, Path next start d n → ∃ x ∈ s.found, key x.1 = key n ∧ x.2 ≤ d
  edges_nodup : s.edges.Nodup
  mem_edges : ∀ e, e ∈ s.edges ↔ ∃ d n, ∃ y ∈ next n, Path next start d n ∧ e = edge key n y
  first : s.found.head? = some (start, 0)
  sorted : s.found.Pairwise fun x y => x.2 ≤ y.2

section Complete

variable {s : State N K C} (h : Inv key next start s.found s)

include h

omit [DecidableEq K] in
/-- Every key is found, no deeper than any path to it.  The induction is on the
path: its last node but one has the key of an explored node. -/
theorem shortest_of_inv (hcongr : Congruent key next start) {d : Nat} {n : N}
    (hpath : Path next start d n) : ∃ x ∈ s.found, key x.1 = key n ∧ x.2 ≤ d := by
  induction hpath with
  | start => exact ⟨(start, 0), List.mem_of_mem_head? h.first, rfl, le_rfl⟩
  | @step d n y hpath hy ih =>
      obtain ⟨x, hx, hk, hd⟩ := ih
      obtain ⟨y', hy', -, hk'⟩ := hcongr hpath (h.paths x hx) hk.symm y hy
      obtain ⟨z, hz, hkz, hdz⟩ := h.closed x hx y' hy'
      exact ⟨z, hz, hkz.trans hk', hdz.trans (Nat.succ_le_succ hd)⟩

omit [DecidableEq K] in
theorem edges_nodup_of_inv (hlabels : ∀ d n, Path next start d n → ((next n).map Prod.fst).Nodup) :
    s.edges.Nodup := by
  have hkeys : (s.found.map fun x => key x.1).Nodup := by
    rw [keys_eq h.toSound]
    exact s.seen.nodup
  rw [h.edges_eq, List.nodup_flatMap]
  constructor
  · intro x hx
    have hlab := hlabels x.2 x.1 (h.paths x hx)
    refine List.Nodup.of_map (fun e : K × K × C => e.2.2) ?_
    rw [List.map_map]
    exact hlab
  · refine (List.pairwise_map.mp hkeys).imp fun {a b} hne => ?_
    intro e ha hb
    obtain ⟨y, -, rfl⟩ := List.mem_map.mp ha
    obtain ⟨y', -, he⟩ := List.mem_map.mp hb
    exact hne (congrArg Prod.fst he).symm

omit [DecidableEq K] in
theorem mem_edges_of_inv (hcongr : Congruent key next start) (e : K × K × C) :
    e ∈ s.edges ↔ ∃ d n, ∃ y ∈ next n, Path next start d n ∧ e = edge key n y := by
  rw [h.edges_eq, List.mem_flatMap]
  constructor
  · rintro ⟨x, hx, he⟩
    obtain ⟨y, hy, rfl⟩ := List.mem_map.mp he
    exact ⟨x.2, x.1, y, hy, h.paths x hx, rfl⟩
  · rintro ⟨d, n, y, hy, hpath, rfl⟩
    obtain ⟨x, hx, hk, -⟩ := shortest_of_inv h hcongr hpath
    obtain ⟨y', hy', hl, hk'⟩ := hcongr hpath (h.paths x hx) hk.symm y hy
    refine ⟨x, hx, List.mem_map.mpr ⟨y', hy', ?_⟩⟩
    rw [edge, edge, hk, hk', hl]

end Complete

/-- With finitely many keys, distinct labels at every node and equal keys that
behave alike, the search ends and is complete. -/
theorem search_complete (hkeys : ∀ d n, Path next start d n → key n ∈ keys)
    (hlabels : ∀ d n, Path next start d n → ((next n).map Prod.fst).Nodup)
    (hcongr : Congruent key next start) {fuel : Nat} (hfuel : keys.card ≤ fuel) :
    ∃ s, search key next fuel (initial key start) = some s ∧ Complete key next start s := by
  obtain ⟨s, hs, h⟩ := search_ends hkeys inv_initial hfuel
  exact ⟨s, hs, {
    keys_nodup := by rw [keys_eq h.toSound]; exact s.seen.nodup
    paths := h.paths
    shortest := shortest_of_inv h hcongr
    edges_nodup := edges_nodup_of_inv h hlabels
    mem_edges := mem_edges_of_inv h hcongr
    first := h.first
    sorted := h.sorted }⟩

end Graph

end OsCourse.Search
