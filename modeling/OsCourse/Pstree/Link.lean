import OsCourse.Pstree.Table
import OsCourse.Lib.Forest

/-!
# Linking children to parents

`main` walks all buckets and puts every process at the head of the child list of
its parent.  The child list of a node starts at `children` and goes on through
`sibling`.

`Chain nodes o l` says that the list from the pointer `o` is `l`.  The invariant
of the loop (`Linked`) is that the child list of every node holds the processes
handled so far whose parent it is, the last one first.  A turn changes the
sibling of the process it handles and the head of one list.  Both are safe
because the walk meets every process once.
-/

namespace OsCourse.Pstree

/-! ## The loop -/

/-- `node->parent = p`. -/
def setParent (nodes : Nodes) (n : Nat) (p : Option Nat) : Nodes :=
  Function.update nodes n { nodes n with parent := p }

/-- `node->sibling = s`. -/
def setSibling (nodes : Nodes) (n : Nat) (s : Option Nat) : Nodes :=
  Function.update nodes n { nodes n with sibling := s }

/-- `node->children = c`. -/
def setChildren (nodes : Nodes) (n : Nat) (c : Option Nat) : Nodes :=
  Function.update nodes n { nodes n with children := c }

/-- Make `n` the first child of `p`, one assignment after the other. -/
def linkTo (nodes : Nodes) (n p : Nat) : Nodes :=
  let nodes := setParent nodes n (some p)
  let nodes := setSibling nodes n (nodes p).children
  setChildren nodes p (some n)

/-- The message for a parent that is not in the table. -/
def noParent (node : ProcessNode) : List Char :=
  "找不到父进程".toList ++ (toString node.ppid).toList ++ "(子进程".toList ++
    (toString node.pid).toList ++ ")\n".toList

/-- One turn of the loop: the nodes after it and what it writes to `stderr`. -/
def linkNode (ht : HashTable Nat) (nodes : Nodes) (n : Nat) : Nodes × List Char :=
  if (nodes n).ppid ≠ 0 then
    match hashTableLookup ht (nodes n).ppid with
    | some p => (linkTo nodes n p, [])
    | none => (nodes, noParent (nodes n))
  else (nodes, [])

/-- The loop over the processes in the order of the walk. -/
def linkAll (ht : HashTable Nat) : List Nat → Nodes → Nodes × List Char
  | [], nodes => (nodes, [])
  | n :: ns, nodes =>
      let (nodes, err) := linkNode ht nodes n
      let (nodes, errs) := linkAll ht ns nodes
      (nodes, err ++ errs)

/-- What `main` has built when it starts to print. -/
structure Built where
  /-- The linked nodes. -/
  nodes : Nodes
  /-- The node of pid 1. -/
  root : Option Nat
  /-- The messages on `stderr`. -/
  stderr : List Char

/-- `main` from the first directory entry to the lookup of pid 1. -/
def build (rs : List Record) : Built :=
  let m := insertAll rs Memory.empty
  let (nodes, err) := linkAll m.ht m.ht.walk m.nodes
  ⟨nodes, hashTableLookup m.ht 1, err⟩

/-! ## One turn -/

section LinkTo

variable (nodes : Nodes) (n p q : Nat)

theorem children_linkTo :
    (linkTo nodes n p q).children = if q = p then some n else (nodes q).children := by
  simp only [linkTo, setChildren, setSibling, setParent, Function.update_apply]
  split_ifs <;> simp_all

theorem sibling_linkTo :
    (linkTo nodes n p q).sibling = if q = n then (nodes p).children else (nodes q).sibling := by
  simp only [linkTo, setChildren, setSibling, setParent, Function.update_apply]
  split_ifs <;> simp_all

theorem pid_linkTo : (linkTo nodes n p q).pid = (nodes q).pid := by
  simp only [linkTo, setChildren, setSibling, setParent, Function.update_apply]
  split_ifs <;> simp_all

theorem ppid_linkTo : (linkTo nodes n p q).ppid = (nodes q).ppid := by
  simp only [linkTo, setChildren, setSibling, setParent, Function.update_apply]
  split_ifs <;> simp_all

theorem name_linkTo : (linkTo nodes n p q).name = (nodes q).name := by
  simp only [linkTo, setChildren, setSibling, setParent, Function.update_apply]
  split_ifs <;> simp_all

end LinkTo

/-- The node of the parent: none for `ppid` 0 or a pid not in the table. -/
def parentOf (ht : HashTable Nat) (nodes : Nodes) (n : Nat) : Option Nat :=
  if (nodes n).ppid ≠ 0 then hashTableLookup ht (nodes n).ppid else none

variable {ht : HashTable Nat} {nodes nodes' : Nodes} {n p i : Nat} {par : Nat → Option Nat}
  {done : List Nat} {rs : List Record}

theorem linkNode_some (h : parentOf ht nodes n = some p) :
    (linkNode ht nodes n).1 = linkTo nodes n p := by
  rw [parentOf] at h
  split at h
  next hp => rw [linkNode, if_pos hp, h]
  next hp => cases h

theorem linkNode_none (h : parentOf ht nodes n = none) : (linkNode ht nodes n).1 = nodes := by
  rw [parentOf] at h
  split at h
  next hp => rw [linkNode, if_pos hp, h]
  next hp => rw [linkNode, if_neg hp]

theorem linkAll_cons (ht : HashTable Nat) (nodes : Nodes) (n : Nat) (ns : List Nat) :
    (linkAll ht (n :: ns) nodes).1 = (linkAll ht ns (linkNode ht nodes n).1).1 := rfl

/-- The processes agree in everything but their links. -/
def SameProcesses (nodes nodes' : Nodes) : Prop :=
  ∀ n, (nodes' n).pid = (nodes n).pid ∧ (nodes' n).ppid = (nodes n).ppid ∧
    (nodes' n).name = (nodes n).name

theorem SameProcesses.refl (nodes : Nodes) : SameProcesses nodes nodes :=
  fun _ => ⟨rfl, rfl, rfl⟩

theorem SameProcesses.trans {nodes'' : Nodes} (h : SameProcesses nodes nodes')
    (h' : SameProcesses nodes' nodes'') : SameProcesses nodes nodes'' := fun n =>
  ⟨(h' n).1.trans (h n).1, (h' n).2.1.trans (h n).2.1, (h' n).2.2.trans (h n).2.2⟩

theorem sameProcesses_linkNode (ht : HashTable Nat) (nodes : Nodes) (n : Nat) :
    SameProcesses nodes (linkNode ht nodes n).1 := by
  cases h : parentOf ht nodes n with
  | none => rw [linkNode_none h]; exact SameProcesses.refl nodes
  | some p =>
      rw [linkNode_some h]
      exact fun q => ⟨pid_linkTo .., ppid_linkTo .., name_linkTo ..⟩

theorem sameProcesses_linkAll (ht : HashTable Nat) (ns : List Nat) (nodes : Nodes) :
    SameProcesses nodes (linkAll ht ns nodes).1 := by
  induction ns generalizing nodes with
  | nil => exact SameProcesses.refl nodes
  | cons n ns ih =>
      rw [linkAll_cons]
      exact (sameProcesses_linkNode ht nodes n).trans (ih _)

theorem SameProcesses.parentOf_eq (h : SameProcesses nodes nodes') (ht : HashTable Nat) (n : Nat) :
    parentOf ht nodes' n = parentOf ht nodes n := by
  rw [parentOf, parentOf, (h n).2.1]

/-! ## Child lists -/

/-- The list from the pointer `o` through the siblings is `l`. -/
def Chain (nodes : Nodes) : Option Nat → List Nat → Prop
  | o, [] => o = none
  | o, a :: l => o = some a ∧ Chain nodes (nodes a).sibling l

theorem Chain.frame {o : Option Nat} {l : List Nat} (h : Chain nodes o l)
    (hsib : ∀ a ∈ l, (nodes' a).sibling = (nodes a).sibling) :
    Chain nodes' o l := by
  induction l generalizing o with
  | nil => exact h
  | cons a l ih =>
      obtain ⟨ho, hl⟩ := h
      refine ⟨ho, ?_⟩
      rw [hsib a (List.mem_cons_self ..)]
      exact ih hl fun b hb => hsib b (List.mem_cons_of_mem _ hb)

/-- The processes among `done` with parent `p`, the last one first. -/
def kidsOf (par : Nat → Option Nat) (done : List Nat) (p : Nat) : List Nat :=
  (done.filter fun n => par n = some p).reverse

theorem kidsOf_concat_self (h : par n = some p) (done : List Nat) :
    kidsOf par (done ++ [n]) p = n :: kidsOf par done p := by
  rw [kidsOf, List.filter_append, List.reverse_append, List.filter_singleton]
  simp [h, kidsOf]

theorem kidsOf_concat_other (h : par n ≠ some p) (done : List Nat) :
    kidsOf par (done ++ [n]) p = kidsOf par done p := by
  rw [kidsOf, List.filter_append, List.filter_singleton]
  simp [h, kidsOf]

theorem mem_kidsOf :
    n ∈ kidsOf par done p ↔ n ∈ done ∧ par n = some p := by
  simp [kidsOf]

/-- The invariant of the loop: every child list holds the processes handled so
far that belong to it. -/
def Linked (par : Nat → Option Nat) (done : List Nat) (nodes : Nodes) : Prop :=
  ∀ p, Chain nodes (nodes p).children (kidsOf par done p)

theorem Linked.link (h : Linked par done nodes) (hn : n ∉ done) (hp : par n = some p) :
    Linked par (done ++ [n]) (linkTo nodes n p) := by
  intro q
  have hframe : Chain (linkTo nodes n p) (nodes q).children (kidsOf par done q) := by
    refine (h q).frame fun a ha => ?_
    have han : a ≠ n := fun he => hn (he ▸ (mem_kidsOf.mp ha).1)
    rw [sibling_linkTo, if_neg han]
  rw [children_linkTo]
  rcases eq_or_ne q p with rfl | hq
  · rw [if_pos rfl, kidsOf_concat_self hp]
    refine ⟨rfl, ?_⟩
    rw [sibling_linkTo, if_pos rfl]
    exact hframe
  · have hother : par n ≠ some q := fun he => hq (by rw [hp] at he; cases he; rfl)
    rw [if_neg hq, kidsOf_concat_other hother]
    exact hframe

theorem Linked.skip (h : Linked par done nodes) (hp : par n = none) :
    Linked par (done ++ [n]) nodes := by
  intro q
  have hother : par n ≠ some q := by
    rw [hp]
    exact (Option.some_ne_none q).symm
  rw [kidsOf_concat_other hother]
  exact h q

theorem Linked.turn (h : Linked par done nodes) (hn : n ∉ done)
    (hpar : par n = parentOf ht nodes n) :
    Linked par (done ++ [n]) (linkNode ht nodes n).1 := by
  cases hp : parentOf ht nodes n with
  | none =>
      rw [linkNode_none hp]
      exact h.skip (hpar.trans hp)
  | some p =>
      rw [linkNode_some hp]
      exact h.link hn (hpar.trans hp)

theorem Linked.all {ns : List Nat} (h : Linked par done nodes) (hnodup : (done ++ ns).Nodup)
    (hpar : ∀ n, par n = parentOf ht nodes n) :
    Linked par (done ++ ns) (linkAll ht ns nodes).1 := by
  induction ns generalizing done nodes with
  | nil => rw [List.append_nil]; exact h
  | cons n ns ih =>
      have hsplit : done ++ n :: ns = done ++ [n] ++ ns := by simp
      have hn : n ∉ done := fun hd =>
        (List.nodup_append'.mp hnodup).2.2 hd (List.mem_cons_self ..)
      rw [linkAll_cons, hsplit]
      refine ih (h.turn hn (hpar n)) (hsplit ▸ hnodup) fun m => ?_
      rw [hpar m, (sameProcesses_linkNode ht nodes n).parentOf_eq]

/-! ## After the loop -/

/-- The parent of the record at a position: the position of the record whose pid
is its ppid, unless that is 0. -/
def parentIndex (rs : List Record) (i : Nat) : Option Nat :=
  parentOf (insertAll rs Memory.empty).ht (insertAll rs Memory.empty).nodes i

/-- The child lists after the loop. -/
def childrenIndex (rs : List Record) (p : Nat) : List Nat :=
  kidsOf (parentIndex rs) (insertAll rs Memory.empty).ht.walk p

theorem nodes_insertAll_of_le {m : Memory} (hi : m.next + rs.length ≤ i) :
    (insertAll rs m).nodes i = m.nodes i := by
  induction rs generalizing m with
  | nil => rfl
  | cons r rs ih =>
      rw [List.length_cons] at hi
      have hne : i ≠ m.next := by omega
      have hnext : (m.insert r).next = m.next + 1 := rfl
      rw [insertAll, ih (by rw [hnext]; omega), nodes_insert, Function.update_of_ne hne]

theorem parentIndex_iff (hpids : (rs.map Record.pid).Nodup) :
    parentIndex rs i = some p ↔
      ∃ r q, rs[i]? = some r ∧ rs[p]? = some q ∧ r.ppid ≠ 0 ∧ q.pid = r.ppid := by
  have hst := stored_records hpids
  rw [parentIndex, parentOf]
  cases hr : rs[i]? with
  | none =>
      have hi : rs.length ≤ i := List.getElem?_eq_none_iff.mp hr
      have hfresh : (insertAll rs Memory.empty).nodes i = Memory.empty.nodes i :=
        nodes_insertAll_of_le (by simpa [Memory.empty] using hi)
      rw [hfresh]
      simp [Memory.empty]
  | some r =>
      have hppid : ((insertAll rs Memory.empty).nodes i).ppid = r.ppid := by
        rw [hst.node_eq i r hr, newNode]
      rw [hppid]
      split
      next h0 =>
        rw [hst.lookup_iff]
        constructor
        · rintro ⟨q, hq, hqp⟩
          exact ⟨r, q, rfl, hq, h0, hqp⟩
        · rintro ⟨r', q, hr', hq, -, hqp⟩
          cases hr'
          exact ⟨q, hq, hqp⟩
      next h0 =>
        constructor
        · intro h; cases h
        · rintro ⟨r', q, hr', -, h0', -⟩
          cases hr'
          exact absurd h0' h0

theorem mem_childrenIndex (hpids : (rs.map Record.pid).Nodup) :
    n ∈ childrenIndex rs p ↔ parentIndex rs n = some p := by
  rw [childrenIndex, mem_kidsOf, (stored_records hpids).walk_perm.mem_iff, List.mem_range]
  constructor
  · exact And.right
  · intro h
    obtain ⟨r, -, hr, -⟩ := (parentIndex_iff hpids).mp h
    exact ⟨(List.getElem?_eq_some_iff.mp hr).1, h⟩

theorem nodup_walk (hpids : (rs.map Record.pid).Nodup) :
    (insertAll rs Memory.empty).ht.walk.Nodup :=
  (stored_records hpids).walk_perm.nodup_iff.mpr List.nodup_range

theorem nodup_childrenIndex (hpids : (rs.map Record.pid).Nodup) (p : Nat) :
    (childrenIndex rs p).Nodup :=
  List.nodup_reverse.mpr ((nodup_walk hpids).filter _)

theorem children_none_insertAll {m : Memory} (h : ∀ i, (m.nodes i).children = none) (i : Nat) :
    ((insertAll rs m).nodes i).children = none := by
  induction rs generalizing m with
  | nil => exact h i
  | cons r rs ih =>
      refine ih fun j => ?_
      rw [nodes_insert, Function.update_apply]
      split
      · rfl
      · exact h j

/-- The child lists that `main` builds. -/
theorem chain_build (hpids : (rs.map Record.pid).Nodup) (p : Nat) :
    Chain (build rs).nodes ((build rs).nodes p).children (childrenIndex rs p) := by
  have hstart : Linked (parentIndex rs) [] (insertAll rs Memory.empty).nodes := fun q =>
    children_none_insertAll (fun _ => rfl) q
  exact hstart.all (nodup_walk hpids) (fun _ => rfl) p

theorem sameProcesses_build (rs : List Record) :
    SameProcesses (insertAll rs Memory.empty).nodes (build rs).nodes :=
  sameProcesses_linkAll _ _ _

theorem root_build_iff (hpids : (rs.map Record.pid).Nodup) :
    (build rs).root = some i ↔ ∃ r, rs[i]? = some r ∧ r.pid = 1 :=
  (stored_records hpids).lookup_iff 1 i

end OsCourse.Pstree
