import OsCourse.Pstree.Print
import Mathlib.Data.List.Sort

/-!
# The sorted listing

With the option `-n` the children of a node are collected in an array, sorted by
`qsort` and printed in this order.  `qsort` is a parameter here.  It is assumed to
sort by comparators that are total orders on the array (`Sorts`), and nothing is
assumed for other comparators.  `compare_pid` subtracts two pids in 32 bits, so it
is a total order only where no difference of pids overflows.  Between positive
pids none does (`comparePid_eq_sub`).

What a node prints then depends on its record alone: the sorted children are the
one strictly increasing list of the records that name it as their parent
(`Children`).  So two runs over the same records, in whatever order they were
read, print the same text, call by call (`printNodeSorted_perm`).
-/

namespace OsCourse.Pstree

/-! ## The program -/

/-- `compare_pid`, a subtraction of `int`. -/
def comparePid (nodes : Nodes) (a b : Nat) : Int := ((nodes a).pid - (nodes b).pid).bmod (2 ^ 32)

/-- The child list from the pointer `o`, with a bound on its length. -/
def siblings (nodes : Nodes) : Nat → Option Nat → Option (List Nat)
  | _, none => some []
  | 0, some _ => none
  | fuel + 1, some child => do
      let others ← siblings nodes fuel (nodes child).sibling
      some (child :: others)

section Program

variable (qsort : (Nat → Nat → Int) → List Nat → List Nat)

/-- `sort_children`. -/
def sortChildren (nodes : Nodes) (fuel parent : Nat) : Option (List Nat) :=
  match (nodes parent).children with
  | none => some []
  | some child => do
      let childArray ← siblings nodes fuel (some child)
      some (qsort (comparePid nodes) childArray)

/-- The loop over an array of children.  `print` gets the child and whether it is
the last one. -/
def printEach (print : Nat → Bool → Option (List Char)) : List Nat → Option (List Char)
  | [] => some []
  | child :: rest => do
      let first ← print child rest.isEmpty
      let others ← printEach print rest
      some (first ++ others)

/-- `print_node_sorted`, with a bound on the depth of the calls. -/
def printNodeSorted (nodes : Nodes) : Nat → Nat → Nat → Bool → Option (List Char)
  | 0, _, _, _ => none
  | fuel + 1, node, depth, isLast => do
      let sortedChild ← sortChildren qsort nodes fuel node
      let below ← printEach (fun child last => printNodeSorted nodes fuel child (depth + 1) last)
        sortedChild
      some (indent depth isLast ++ label (nodes node).name (nodes node).pid ++ ['\n'] ++ below)

/-- `print_process_tree_sorted`. -/
def printProcessTreeSorted (nodes : Nodes) (fuel : Nat) : Option Nat → Option (List Char)
  | none => some "没有找到进程树\n".toList
  | some root => do
      let sortedChild ← sortChildren qsort nodes fuel root
      let below ← printEach (fun child last => printNodeSorted qsort nodes fuel child 1 last)
        sortedChild
      some (label (nodes root).name (nodes root).pid ++ ['\n'] ++ below)

/-- What is printed below a node, its children at depth `depth`. -/
def printBelow (nodes : Nodes) (fuel node depth : Nat) : Option (List Char) :=
  (sortChildren qsort nodes fuel node).bind
    (printEach fun child last => printNodeSorted qsort nodes fuel child depth last)

theorem printNodeSorted_succ (nodes : Nodes) (fuel node depth : Nat) (isLast : Bool) :
    printNodeSorted qsort nodes (fuel + 1) node depth isLast =
      (printBelow qsort nodes fuel node (depth + 1)).map fun below =>
        indent depth isLast ++ label (nodes node).name (nodes node).pid ++ ['\n'] ++ below := by
  rw [printNodeSorted, printBelow, Option.map_eq_bind, Option.bind_assoc]
  rfl

theorem printProcessTreeSorted_some (nodes : Nodes) (fuel root : Nat) :
    printProcessTreeSorted qsort nodes fuel (some root) =
      (printBelow qsort nodes fuel root 1).map fun below =>
        label (nodes root).name (nodes root).pid ++ ['\n'] ++ below := by
  rw [printProcessTreeSorted, printBelow, Option.map_eq_bind, Option.bind_assoc]
  rfl

/-- The test of `main` for the option. -/
def sortedOption (argv : List String) : Bool := argv[1]? = some "-n"

/-- What `main` prints on `stdout`. -/
def pstree (argv : List String) (rs : List Record) (fuel : Nat) : Option (List Char) :=
  let built := build rs
  match built.root with
  | none => some []
  | some root =>
      if sortedOption argv then printProcessTreeSorted qsort built.nodes fuel (some root)
      else printProcessTree built.nodes fuel (some root)

end Program

/-! ## Sorting -/

/-- The comparator is a total order on the elements of a list. -/
structure TotalOrderOn (cmp : Nat → Nat → Int) (l : List Nat) : Prop where
  neg_iff : ∀ a ∈ l, ∀ b ∈ l, cmp a b < 0 ↔ 0 < cmp b a
  eq_of_zero : ∀ a ∈ l, ∀ b ∈ l, cmp a b = 0 → a = b
  trans : ∀ a ∈ l, ∀ b ∈ l, ∀ c ∈ l, cmp a b ≤ 0 → cmp b c ≤ 0 → cmp a c ≤ 0

/-- What `qsort` is assumed to do: it sorts by total orders. -/
def Sorts (qsort : (Nat → Nat → Int) → List Nat → List Nat) : Prop :=
  ∀ cmp l, TotalOrderOn cmp l → (qsort cmp l).Perm l ∧ (qsort cmp l).Pairwise fun a b => cmp a b ≤ 0

/-- The pids are positive values of an `int`. -/
def PositivePids (rs : List Record) : Prop := ∀ r ∈ rs, 0 < r.pid ∧ r.pid < 2 ^ 31

instance (rs : List Record) : Decidable (PositivePids rs) :=
  inferInstanceAs (Decidable (∀ r ∈ rs, _))

/-- The record at an address. -/
def recordAt (rs : List Record) (i : Nat) : Record := rs.getD i ⟨0, 0, []⟩

variable {rs : List Record}

theorem recordAt_eq {i : Nat} {r : Record} (h : rs[i]? = some r) :
    recordAt rs i = r := by
  rw [recordAt, List.getD_eq_getElem?_getD, h, Option.getD_some]

/-- The sorted children of a process: in strictly increasing order of their pids. -/
structure Children (rs : List Record) (r : Record) (l : List Record) : Prop where
  increasing : l.Pairwise fun q q' => q.pid < q'.pid
  mem_iff : ∀ q, q ∈ l ↔ q ∈ rs ∧ ParentIn rs q r

/-- There is one such list, and the order of the records has no part in it. -/
theorem Children.unique {rs' : List Record} (hperm : rs.Perm rs') {r : Record} {l l' : List Record}
    (h : Children rs r l) (h' : Children rs' r l') : l = l' := by
  have hnodup : ∀ {l : List Record}, l.Pairwise (fun q q' => q.pid < q'.pid) → l.Nodup :=
    fun hl => hl.imp fun {a b} hlt heq => by rw [heq] at hlt; exact lt_irrefl _ hlt
  have hmem : ∀ q, q ∈ l ↔ q ∈ l' := by
    intro q
    rw [h.mem_iff, h'.mem_iff, ParentIn, ParentIn, hperm.mem_iff, hperm.mem_iff]
  have hl : l.Perm l' :=
    (List.perm_ext_iff_of_nodup (hnodup h.increasing) (hnodup h'.increasing)).mpr hmem
  refine hl.eq_of_pairwise (fun a b _ _ hab hba => ?_) h.increasing h'.increasing
  exact absurd (hab.trans hba) (lt_irrefl _)

section Sorted

variable {qsort : (Nat → Nat → Int) → List Nat → List Nat} {rs : List Record}
  (hpids : (rs.map Record.pid).Nodup) (hpos : PositivePids rs)

include hpids hpos

variable {i p : Nat}

/-- Between positive pids the subtraction does not overflow. -/
theorem comparePid_eq_sub {j : Nat} {r q : Record} (hr : rs[i]? = some r) (hq : rs[j]? = some q) :
    comparePid (build rs).nodes i j = r.pid - q.pid := by
  have hrange := hpos r (List.mem_of_getElem? hr)
  have hrange' := hpos q (List.mem_of_getElem? hq)
  rw [comparePid, (node_build hpids hr).1, (node_build hpids hq).1]
  apply Int.bmod_eq_of_le <;> omega

/-- `compare_pid` is a total order on nodes that hold records. -/
theorem totalOrderOn_comparePid {l : List Nat} (hl : ∀ i ∈ l, ∃ r, rs[i]? = some r) :
    TotalOrderOn (comparePid (build rs).nodes) l := by
  refine ⟨fun i hi j hj => ?_, fun i hi j hj h => ?_, fun i hi j hj k hk h h' => ?_⟩
  · obtain ⟨r, hr⟩ := hl i hi
    obtain ⟨q, hq⟩ := hl j hj
    rw [comparePid_eq_sub hpids hpos hr hq, comparePid_eq_sub hpids hpos hq hr]
    omega
  · obtain ⟨r, hr⟩ := hl i hi
    obtain ⟨q, hq⟩ := hl j hj
    rw [comparePid_eq_sub hpids hpos hr hq] at h
    exact eq_of_pid_eq hpids hr hq (by omega)
  · obtain ⟨r, hr⟩ := hl i hi
    obtain ⟨q, hq⟩ := hl j hj
    obtain ⟨t, ht⟩ := hl k hk
    rw [comparePid_eq_sub hpids hpos hr hq] at h
    rw [comparePid_eq_sub hpids hpos hq ht] at h'
    rw [comparePid_eq_sub hpids hpos hr ht]
    omega

omit hpos in
theorem record_of_mem_children (h : i ∈ childrenIndex rs p) :
    rs[i]? = some (recordAt rs i) := by
  obtain ⟨r, -, hr, -⟩ := (parentIndex_iff hpids).mp ((mem_childrenIndex hpids).mp h)
  rw [hr, recordAt_eq hr]

/-- The child list of a node after `qsort`. -/
abbrev sortedIndex (qsort : (Nat → Nat → Int) → List Nat → List Nat) (rs : List Record) (p : Nat) :
    List Nat :=
  qsort (comparePid (build rs).nodes) (childrenIndex rs p)

theorem sorts_childrenIndex (hsorts : Sorts qsort) (p : Nat) :
    (sortedIndex qsort rs p).Perm (childrenIndex rs p) ∧
      (sortedIndex qsort rs p).Pairwise fun a b => comparePid (build rs).nodes a b ≤ 0 :=
  hsorts _ _ (totalOrderOn_comparePid hpids hpos fun _ hi => ⟨_, record_of_mem_children hpids hi⟩)

theorem mem_sortedIndex (hsorts : Sorts qsort) :
    i ∈ sortedIndex qsort rs p ↔ parentIndex rs i = some p := by
  rw [(sorts_childrenIndex hpids hpos hsorts p).1.mem_iff, mem_childrenIndex hpids]

theorem record_of_mem_sortedIndex (hsorts : Sorts qsort) (h : i ∈ sortedIndex qsort rs p) :
    rs[i]? = some (recordAt rs i) :=
  record_of_mem_children hpids ((sorts_childrenIndex hpids hpos hsorts p).1.mem_iff.mp h)

/-- The sorted child list holds the children of the process. -/
theorem children_sortedIndex (hsorts : Sorts qsort) {r : Record} (hr : rs[p]? = some r) :
    Children rs r ((sortedIndex qsort rs p).map (recordAt rs)) := by
  obtain ⟨hperm, hsorted⟩ := sorts_childrenIndex hpids hpos hsorts p
  constructor
  · have hnodup : (sortedIndex qsort rs p).Nodup :=
      hperm.nodup_iff.mpr (nodup_childrenIndex hpids p)
    rw [List.pairwise_map]
    refine (hsorted.and hnodup).imp_of_mem fun {a b} ha hb h => ?_
    have hra := record_of_mem_sortedIndex hpids hpos hsorts ha
    have hrb := record_of_mem_sortedIndex hpids hpos hsorts hb
    have hle := h.1
    rw [comparePid_eq_sub hpids hpos hra hrb] at hle
    have hne : (recordAt rs a).pid ≠ (recordAt rs b).pid := fun he =>
      h.2 (eq_of_pid_eq hpids hra hrb he)
    omega
  · intro q
    rw [List.mem_map]
    constructor
    · intro hq
      obtain ⟨i, hi, rfl⟩ := hq
      obtain ⟨q, r', hq, hr', h0, hpid⟩ :=
        (parentIndex_iff hpids).mp ((mem_sortedIndex hpids hpos hsorts).mp hi)
      rw [hr] at hr'
      cases hr'
      rw [recordAt_eq hq]
      exact ⟨List.mem_of_getElem? hq, List.mem_of_getElem? hr, h0, hpid⟩
    · intro hq
      obtain ⟨hmem, -, h0, hpid⟩ := hq
      obtain ⟨i, hi⟩ := List.getElem?_of_mem hmem
      have hpar : parentIndex rs i = some p := (parentIndex_iff hpids).mpr ⟨q, r, hi, hr, h0, hpid⟩
      exact ⟨i, (mem_sortedIndex hpids hpos hsorts).mpr hpar, recordAt_eq hi⟩

/-! ## The array of children -/

omit hpids hpos in
theorem siblings_chain {nodes : Nodes} : ∀ {l : List Nat} {o : Option Nat} {fuel : Nat},
    Chain nodes o l → siblings nodes fuel o = if l.length ≤ fuel then some l else none
  | [], o, fuel, h => by
      rw [show o = none from h]
      cases fuel <;> rfl
  | a :: l, o, 0, h => by
      rw [h.1]
      rfl
  | a :: l, o, fuel + 1, h => by
      rw [h.1, siblings, siblings_chain h.2, List.length_cons]
      by_cases hle : l.length ≤ fuel
      · rw [if_pos hle, if_pos (Nat.succ_le_succ hle)]
        rfl
      · rw [if_neg hle, if_neg (fun h => hle (Nat.le_of_succ_le_succ h))]
        rfl

/-- `sort_children` returns the sorted child list, given enough calls to collect it. -/
theorem sortChildren_build (hsorts : Sorts qsort) (fuel p : Nat) :
    sortChildren qsort (build rs).nodes fuel p =
      if (sortedIndex qsort rs p).length ≤ fuel then some (sortedIndex qsort rs p) else none := by
  have hperm := (sorts_childrenIndex hpids hpos hsorts p).1
  have hchain := chain_build hpids p
  rw [sortChildren]
  cases hchild : ((build rs).nodes p).children with
  | none =>
      have hnil : childrenIndex rs p = [] := by
        cases hl : childrenIndex rs p with
        | nil => rfl
        | cons a l =>
            rw [hl, hchild] at hchain
            cases hchain.1
      rw [hnil] at hperm
      rw [hperm.eq_nil]
      exact (if_pos (Nat.zero_le fuel)).symm
  | some child =>
      rw [hchild] at hchain
      simp only [siblings_chain hchain]
      rw [hperm.length_eq]
      split
      · rfl
      · rfl

end Sorted

/-! ## Two runs over the same records -/

theorem printEach_congr {print print' : Nat → Bool → Option (List Char)} {f f' : Nat → Record} :
    ∀ {l l' : List Nat}, l.map f = l'.map f' →
      (∀ a ∈ l, ∀ b ∈ l', f a = f' b → ∀ last, print a last = print' b last) →
      printEach print l = printEach print' l'
  | [], [], _, _ => rfl
  | [], _ :: _, h, _ => by cases h
  | _ :: _, [], h, _ => by cases h
  | a :: l, b :: l', h, hprint => by
      rw [List.map_cons, List.map_cons, List.cons.injEq] at h
      have hrest := printEach_congr h.2 fun x hx y hy =>
        hprint x (List.mem_cons_of_mem _ hx) y (List.mem_cons_of_mem _ hy)
      have hlast : l.isEmpty = l'.isEmpty := by
        rw [← List.isEmpty_map (f := f), h.2, List.isEmpty_map]
      rw [printEach, printEach, hrest, hlast,
        hprint a (List.mem_cons_self ..) b (List.mem_cons_self ..) h.1]

section TwoRuns

variable {qsort : (Nat → Nat → Int) → List Nat → List Nat} (hsorts : Sorts qsort)
  {rs rs' : List Record} (hperm : rs.Perm rs') (hpids : (rs.map Record.pid).Nodup)
  (hpos : PositivePids rs)

include hsorts hperm hpids hpos

variable {i j : Nat} {r : Record}

/-- The children of one process in both runs. -/
theorem sortedIndex_perm (hi : rs[i]? = some r) (hj : rs'[j]? = some r) :
    (sortedIndex qsort rs i).map (recordAt rs) = (sortedIndex qsort rs' j).map (recordAt rs') := by
  have hpids' : (rs'.map Record.pid).Nodup := (hperm.map _).nodup_iff.mp hpids
  have hpos' : PositivePids rs' := fun r hr => hpos r (hperm.mem_iff.mpr hr)
  exact (children_sortedIndex hpids hpos hsorts hi).unique hperm
    (children_sortedIndex hpids' hpos' hsorts hj)

/-- What is printed below a process agrees when what its children print does. -/
theorem printBelow_congr (fuel depth : Nat)
    (hnodes : ∀ a b q last, rs[a]? = some q → rs'[b]? = some q →
      printNodeSorted qsort (build rs).nodes fuel a depth last =
        printNodeSorted qsort (build rs').nodes fuel b depth last) (hi : rs[i]? = some r)
    (hj : rs'[j]? = some r) :
    printBelow qsort (build rs).nodes fuel i depth =
      printBelow qsort (build rs').nodes fuel j depth := by
  have hpids' : (rs'.map Record.pid).Nodup := (hperm.map _).nodup_iff.mp hpids
  have hpos' : PositivePids rs' := fun r hr => hpos r (hperm.mem_iff.mpr hr)
  have hkids := sortedIndex_perm hsorts hperm hpids hpos hi hj
  have hlen := congrArg List.length hkids
  rw [List.length_map, List.length_map] at hlen
  rw [printBelow, printBelow, sortChildren_build hpids hpos hsorts,
    sortChildren_build hpids' hpos' hsorts, hlen]
  split
  · refine printEach_congr hkids fun a ha b hb hab last => ?_
    have hra := record_of_mem_sortedIndex hpids hpos hsorts ha
    have hrb := record_of_mem_sortedIndex hpids' hpos' hsorts hb
    exact hnodes a b _ last hra (hab ▸ hrb)
  · rfl

/-- A process prints the same text in both runs, for every bound on the calls. -/
theorem printNodeSorted_perm (fuel : Nat) {depth : Nat} {isLast : Bool} (hi : rs[i]? = some r)
    (hj : rs'[j]? = some r) :
    printNodeSorted qsort (build rs).nodes fuel i depth isLast =
      printNodeSorted qsort (build rs').nodes fuel j depth isLast := by
  have hpids' : (rs'.map Record.pid).Nodup := (hperm.map _).nodup_iff.mp hpids
  induction fuel generalizing i j depth isLast r with
  | zero => rfl
  | succ fuel ih =>
      have hbelow := printBelow_congr hsorts hperm hpids hpos fuel (depth + 1)
        (fun a b q last ha hb => ih ha hb) hi hj
      obtain ⟨hpid, hname⟩ := node_build hpids hi
      obtain ⟨hpid', hname'⟩ := node_build hpids' hj
      rw [printNodeSorted_succ, printNodeSorted_succ, hbelow, hpid, hpid', hname, hname']

theorem pstree_perm {argv : List String} (hn : sortedOption argv = true) (fuel : Nat) :
    pstree qsort argv rs fuel = pstree qsort argv rs' fuel := by
  have hpids' : (rs'.map Record.pid).Nodup := (hperm.map _).nodup_iff.mp hpids
  simp only [pstree, hn, if_true]
  cases hroot : (build rs).root with
  | none =>
      cases hroot' : (build rs').root with
      | none => rfl
      | some j =>
          -- a root in one run is the record of pid 1, which the other run has too
          obtain ⟨r, hj, hone⟩ := (root_build_iff hpids').mp hroot'
          obtain ⟨i, hi⟩ := List.getElem?_of_mem (hperm.mem_iff.mpr (List.mem_of_getElem? hj))
          rw [(root_build_iff hpids).mpr ⟨r, hi, hone⟩] at hroot
          cases hroot
  | some i =>
      obtain ⟨r, hi, hone⟩ := (root_build_iff hpids).mp hroot
      obtain ⟨j, hj⟩ := List.getElem?_of_mem (hperm.mem_iff.mp (List.mem_of_getElem? hi))
      rw [(root_build_iff hpids').mpr ⟨r, hj, hone⟩]
      have hbelow := printBelow_congr hsorts hperm hpids hpos fuel 1
        (fun a b q last ha hb => printNodeSorted_perm hsorts hperm hpids hpos fuel ha hb) hi hj
      obtain ⟨hpid, hname⟩ := node_build hpids hi
      obtain ⟨hpid', hname'⟩ := node_build hpids' hj
      simp only [printProcessTreeSorted_some, hbelow, hpid, hpid', hname, hname']

end TwoRuns

/-! ## The listing -/

/-- The lines of a forest, its top nodes at depth `d`. -/
def treeLines (d : Nat) : Forest Record → List Line
  | .nil => []
  | .cons r kids rest => ⟨d, rest.tops.isEmpty, r⟩ :: (treeLines (d + 1) kids ++ treeLines d rest)

theorem map_treeLines (F : Forest Record) (d : Nat) :
    (treeLines d F).map (fun l => (l.depth, l.record)) = F.preorder d := by
  induction F generalizing d with
  | nil => rfl
  | cons r kids rest ihk ihr =>
      simp only [treeLines, Forest.preorder, List.map_cons, List.map_append, ihk, ihr]

/-- The text of lines. -/
def linesText (lines : List Line) : List Char := lines.flatMap fun l => l.text ++ ['\n']

/-- The program ends and prints the lines. -/
def Prints (qsort : (Nat → Nat → Int) → List Nat → List Nat) (argv : List String)
    (rs : List Record) (lines : List Line) : Prop :=
  ∃ bound, ∀ fuel, bound ≤ fuel → pstree qsort argv rs fuel = some (linesText lines)

/-- The forest below a process, with the children of every node in order. -/
def SortedBelow (rs : List Record) (r : Record) (F : Forest Record) : Prop :=
  Children rs r F.tops ∧ F.Every fun q kids => Children rs q kids.tops

section Listing

variable {qsort : (Nat → Nat → Int) → List Nat → List Nat} (hsorts : Sorts qsort)
  {rs : List Record} (hpids : (rs.map Record.pid).Nodup) (hpos : PositivePids rs)

include hsorts hpids hpos

/-- A forest that has the sorted children of every node is printed line by line. -/
theorem printEach_every {F : Forest Nat} {fuel d : Nat}
    (hF : F.Every fun a kids => kids.tops = sortedIndex qsort rs a)
    (hrec : ∀ a ∈ F.ids, rs[a]? = some (recordAt rs a)) (hfuel : F.ids.length ≤ fuel) :
    printEach (fun a last => printNodeSorted qsort (build rs).nodes fuel a d last) F.tops =
      some (linesText (treeLines d (F.map (recordAt rs)))) := by
  induction F generalizing fuel d with
  | nil => rfl
  | cons a kids rest ihk ihr =>
      obtain ⟨hkids, hFkids, hFrest⟩ := hF
      rw [Forest.ids, List.length_cons, List.length_append] at hfuel
      obtain ⟨f, rfl⟩ : ∃ f, fuel = f + 1 := ⟨fuel - 1, by omega⟩
      have hmem : ∀ b, b ∈ kids.ids ∨ b ∈ rest.ids → rs[b]? = some (recordAt rs b) := fun b hb =>
        hrec b (List.mem_cons_of_mem _ (List.mem_append.mpr hb))
      have hfkids : kids.ids.length ≤ f := by omega
      have hfrest : rest.ids.length ≤ f + 1 := by omega
      have hbelow := ihk (d := d + 1) hFkids (fun b hb => hmem b (Or.inl hb)) hfkids
      have hrest := ihr (d := d) hFrest (fun b hb => hmem b (Or.inr hb)) hfrest
      have hlen : kids.tops.length ≤ f := kids.length_tops_le.trans hfkids
      rw [hkids] at hbelow hlen
      obtain ⟨hpid, hname⟩ := node_build hpids (hrec a (List.mem_cons_self ..))
      have hfirst : printNodeSorted qsort (build rs).nodes (f + 1) a d rest.tops.isEmpty =
          some ((Line.mk d rest.tops.isEmpty (recordAt rs a)).text ++ ['\n'] ++
            linesText (treeLines (d + 1) (kids.map (recordAt rs)))) := by
        rw [printNodeSorted_succ, printBelow, sortChildren_build hpids hpos hsorts, if_pos hlen,
          Option.bind_some, hbelow, Option.map_some, hpid, hname, Line.text]
      have hempty : (rest.map (recordAt rs)).tops.isEmpty = rest.tops.isEmpty := by
        rw [Forest.tops_map, List.isEmpty_map]
      simp only [Forest.tops, printEach, hfirst, hrest, Forest.map, treeLines, hempty, linesText,
        Option.bind_eq_bind, Option.bind_some, List.flatMap_cons, List.flatMap_append,
        List.append_assoc]

variable {root : Nat} {init : Record} (hroot : rs[root]? = some init) (hpid : init.pid = 1)
  (hself : ∀ k, Forest.anc (parentIndex rs) (k + 1) root ≠ some root)

/-- The forest of the sorted listing. -/
abbrev sortedBelow (qsort : (Nat → Nat → Int) → List Nat → List Nat) (rs : List Record)
    (root : Nat) : Forest Nat :=
  Forest.grow (sortedIndex qsort rs) rs.length (sortedIndex qsort rs root)

include hroot hself

/-- It has the sorted children of every node. -/
theorem every_sortedBelow : (sortedBelow qsort rs root).tops = sortedIndex qsort rs root ∧
    (sortedBelow qsort rs root).Every fun a kids => kids.tops = sortedIndex qsort rs a := by
  refine Forest.every_grow (k := 1) (fun _ _ => mem_sortedIndex hpids hpos hsorts)
    (fun _ _ => level_lt_length hpids hroot hself) (Nat.le_succ _) fun a ha => ?_
  exact level_kids hpids ((mem_childrenIndex hpids).mpr ((mem_sortedIndex hpids hpos hsorts).mp ha))

omit hroot hself in
/-- It has the nodes of the listing without the option, on the same levels. -/
theorem perm_sortedBelow : ((sortedBelow qsort rs root).preorder 1).Perm
    ((below rs root).preorder 1) :=
  Forest.perm_preorder_grow (fun a => (sorts_childrenIndex hpids hpos hsorts a).1) rs.length
    (sorts_childrenIndex hpids hpos hsorts root).1 1

theorem record_of_mem_sortedBelow {a : Nat} (ha : a ∈ (sortedBelow qsort rs root).ids) :
    rs[a]? = some (recordAt rs a) := by
  rw [← Forest.map_snd_preorder _ 1] at ha
  obtain ⟨x, hx, rfl⟩ := List.mem_map.mp ha
  have hmem : x ∈ entries rs root := List.mem_cons_of_mem _
    ((perm_sortedBelow hsorts hpids hpos).mem_iff.mp hx)
  obtain ⟨r, hr⟩ := record_of_mem_entries hpids hroot hself hmem
  rw [hr, recordAt_eq hr]

theorem sortedBelow_records :
    SortedBelow rs init ((sortedBelow qsort rs root).map (recordAt rs)) := by
  obtain ⟨htops, hevery⟩ := every_sortedBelow hsorts hpids hpos hroot hself
  constructor
  · rw [Forest.tops_map, htops]
    exact children_sortedIndex hpids hpos hsorts hroot
  · refine Forest.Every.map (hevery.imp fun a ha kids hkids => ?_)
    rw [Forest.tops_map, hkids]
    exact children_sortedIndex hpids hpos hsorts
      (record_of_mem_sortedBelow hsorts hpids hpos hroot hself ha)

include hpid

/-- With the option the listing is the preorder of the sorted forest. -/
theorem prints_sorted {argv : List String} (hn : sortedOption argv = true) :
    Prints qsort argv rs
      (⟨0, true, init⟩ :: treeLines 1 ((sortedBelow qsort rs root).map (recordAt rs))) := by
  refine ⟨(sortedBelow qsort rs root).ids.length, fun fuel hfuel => ?_⟩
  obtain ⟨htops, hevery⟩ := every_sortedBelow hsorts hpids hpos hroot hself
  have hlines := printEach_every hsorts hpids hpos (d := 1) hevery
    (fun a => record_of_mem_sortedBelow hsorts hpids hpos hroot hself) hfuel
  have hlen := (Forest.length_tops_le _).trans hfuel
  rw [htops] at hlines hlen
  have hbelow : printBelow qsort (build rs).nodes fuel root 1 =
      some (linesText (treeLines 1 ((sortedBelow qsort rs root).map (recordAt rs)))) := by
    rw [printBelow, sortChildren_build hpids hpos hsorts, if_pos hlen]
    exact hlines
  obtain ⟨hrootPid, hrootName⟩ := node_build hpids hroot
  simp only [pstree, (root_build_iff hpids).mpr ⟨init, hroot, hpid⟩, hn, if_true,
    printProcessTreeSorted_some, hbelow, hrootPid, hrootName]
  rfl

omit hsorts hpos in
/-- Without the option it is the listing of `print_process_tree`. -/
theorem prints_unsorted {argv : List String} (hn : sortedOption argv = false) :
    Prints qsort argv rs ((entries rs root).map (lineOf rs)) := by
  refine ⟨2 * (below rs root).ids.length, fun fuel hfuel => ?_⟩
  have hprint := printProcessTree_build hpids hroot hpid hself hfuel
  have hr : (build rs).root = some root := (root_build_iff hpids).mpr ⟨init, hroot, hpid⟩
  simp only [pstree, hr, hn, Bool.false_eq_true, if_false] at hprint ⊢
  exact hprint

end Listing

/-- A process that is not its own ancestor is on no cycle of the parent function. -/
theorem anc_ne_of_acyclic (hpids : (rs.map Record.pid).Nodup) {root : Nat} {init : Record}
    (hroot : rs[root]? = some init) (hacyclic : ¬ Relation.TransGen (ParentIn rs) init init)
    (k : Nat) :
    Forest.anc (parentIndex rs) (k + 1) root ≠ some root := by
  intro h
  rw [Forest.anc, Option.bind_eq_some_iff] at h
  obtain ⟨p, hp, h⟩ := h
  obtain ⟨r, q, hr, hq, h0, hpid⟩ := (parentIndex_iff hpids).mp hp
  rw [hroot] at hr
  cases hr
  have hstep : ParentIn rs init q := ⟨List.mem_of_getElem? hq, h0, hpid⟩
  exact hacyclic (.head' hstep (reaches_of_anc hpids hq hroot h))

/-- For any two orders of the same records, the listing with `-n` is the same text,
for every bound on the calls.  Where pid 1 is the root of a tree, the listing ends,
and it is the preorder of that tree with the children of every node in strictly
increasing order, with the lines of the listing without the option.  Pids are
compared by a total order, without overflow. -/
theorem sorted_listing {qsort : (Nat → Nat → Int) → List Nat → List Nat} (hsorts : Sorts qsort)
    {rs rs' : List Record} (hperm : rs.Perm rs') (hpids : (rs.map Record.pid).Nodup)
    (hpos : PositivePids rs) {argv argv' : List String} (hn : sortedOption argv = true)
    (hn' : sortedOption argv' = false) :
    (∀ fuel, pstree qsort argv rs fuel = pstree qsort argv rs' fuel) ∧
    (∀ init ∈ rs, init.pid = 1 → ¬ Relation.TransGen (ParentIn rs) init init →
      ∃ (F : Forest Record) (lines lines' : List Line),
        SortedBelow rs init F ∧
        Prints qsort argv rs lines ∧
        lines.map (fun l => (l.depth, l.record)) = (0, init) :: F.preorder 1 ∧
        Prints qsort argv' rs lines' ∧
        (lines'.map fun l => (l.depth, l.record)).Perm (lines.map fun l => (l.depth, l.record))) ∧
    TotalOrderOn (comparePid (build rs).nodes) (List.range rs.length) ∧
    ∀ i j r q, rs[i]? = some r → rs[j]? = some q →
      comparePid (build rs).nodes i j = r.pid - q.pid := by
  refine ⟨pstree_perm hsorts hperm hpids hpos hn, fun init hmem hpid hacyclic => ?_, ?_,
    fun i j r q => comparePid_eq_sub hpids hpos⟩
  · obtain ⟨root, hroot⟩ := List.getElem?_of_mem hmem
    have hself := anc_ne_of_acyclic hpids hroot hacyclic
    have hpreorder := map_treeLines ((sortedBelow qsort rs root).map (recordAt rs)) 1
    refine ⟨(sortedBelow qsort rs root).map (recordAt rs), _, _,
      sortedBelow_records hsorts hpids hpos hroot hself,
      prints_sorted hsorts hpids hpos hroot hpid hself hn, ?_,
      prints_unsorted hpids hroot hpid hself hn', ?_⟩
    · rw [List.map_cons, hpreorder]
    · have hinit : (0, init) = Prod.map id (recordAt rs) (0, root) := by
        rw [Prod.map, id_eq, recordAt_eq hroot]
      rw [List.map_map, List.map_cons (l := treeLines _ _), hpreorder, Forest.preorder_map, hinit,
        ← List.map_cons]
      exact ((perm_sortedBelow hsorts hpids hpos).symm.cons (0, root)).map _
  · refine totalOrderOn_comparePid hpids hpos fun i hi => ?_
    exact ⟨_, List.getElem?_eq_getElem (List.mem_range.mp hi)⟩

/-- Merge sort, on elements that remember that they are in the list. -/
def mergeSortBy (cmp : Nat → Nat → Int) (l : List Nat) : List Nat :=
  (l.attach.mergeSort fun a b => cmp a.1 b.1 ≤ 0).map Subtype.val

theorem sorts_mergeSortBy : Sorts mergeSortBy := by
  intro cmp l h
  have htrans : ∀ a b c : {x // x ∈ l}, decide (cmp a.1 b.1 ≤ 0) = true →
      decide (cmp b.1 c.1 ≤ 0) = true → decide (cmp a.1 c.1 ≤ 0) = true := by
    intro a b c hab hbc
    simp only [decide_eq_true_eq] at hab hbc ⊢
    exact h.trans a.1 a.2 b.1 b.2 c.1 c.2 hab hbc
  have htotal : ∀ a b : {x // x ∈ l},
      (decide (cmp a.1 b.1 ≤ 0) || decide (cmp b.1 a.1 ≤ 0)) = true := by
    intro a b
    have hneg := h.neg_iff b.1 b.2 a.1 a.2
    simp only [Bool.or_eq_true, decide_eq_true_eq]
    omega
  constructor
  · have hperm := (List.mergeSort_perm l.attach fun a b => cmp a.1 b.1 ≤ 0).map Subtype.val
    rwa [List.attach_map_subtype_val] at hperm
  · rw [mergeSortBy, List.pairwise_map]
    exact (List.pairwise_mergeSort htrans htotal l.attach).imp
      fun {a b} hab => of_decide_eq_true hab

/-- A process and its two children, read in two orders. -/
theorem sorted_listing_twoChildren :
    pstree mergeSortBy ["pstree", "-n"] [⟨1, 0, ['i']⟩, ⟨7, 1, ['b']⟩, ⟨3, 1, ['a']⟩] 3 =
      pstree mergeSortBy ["pstree", "-n"] [⟨3, 1, ['a']⟩, ⟨1, 0, ['i']⟩, ⟨7, 1, ['b']⟩] 3 := by
  have hperm : [⟨1, 0, ['i']⟩, ⟨7, 1, ['b']⟩, ⟨3, 1, ['a']⟩].Perm
      [⟨3, 1, ['a']⟩, ⟨1, 0, ['i']⟩, (⟨7, 1, ['b']⟩ : Record)] := by decide
  have hoption : sortedOption ["pstree"] = false := rfl
  exact (sorted_listing sorts_mergeSortBy hperm (by decide) (by decide) rfl hoption).1 3

end OsCourse.Pstree
