import OsCourse.Pstree.Link
import Mathlib.Logic.Relation

/-!
# Printing the process tree

`print_node` prints a line and then, one level deeper, every node of the child
list.  The two functions below follow it through the links and take a bound on
the number of calls.  On a cyclic list no bound is enough.

`Reps nodes o F` says that the links from the pointer `o` spell the finite
forest `F`.  Then the printing ends and the text is one line for each entry of
the preorder of `F` (`printSiblings_reps`).  The links that `main` builds spell
the forest below pid 1 (`reps_below`): a process on a cycle, or below a parent
that does not exist, is on no level of it.

Put together, this is a statement about the records alone (`PrintsTree`): the
lines printed are those of the processes whose chain of parents reaches pid 1,
one line each, and the nearest line above a line that is one level up is the
line of its parent.
-/

namespace OsCourse.Pstree

/-! ## The printer -/

/-- The lines of a tree in front of a name. -/
def indent (depth : Nat) (isLast : Bool) : List Char :=
  (List.range depth).flatMap fun i =>
    if i = depth - 1 then (if isLast then "'--".toList else "|--".toList) else "    ".toList

/-- `name(pid)`. -/
def label (name : List Char) (pid : Int) : List Char :=
  name ++ "(".toList ++ (toString pid).toList ++ ")".toList

mutual

/-- `print_node`, with a bound on the calls. -/
def printNode (nodes : Nodes) : Nat → Nat → Nat → Bool → Option (List Char)
  | 0, _, _, _ => none
  | fuel + 1, node, depth, isLast => do
      let below ← printSiblings nodes fuel (nodes node).children (depth + 1)
      some (indent depth isLast ++ label (nodes node).name (nodes node).pid ++ ['\n'] ++ below)

/-- The loop over a child list. -/
def printSiblings (nodes : Nodes) : Nat → Option Nat → Nat → Option (List Char)
  | _, none, _ => some []
  | 0, some _, _ => none
  | fuel + 1, some child, depth => do
      let first ← printNode nodes fuel child depth (nodes child).sibling.isNone
      let others ← printSiblings nodes fuel (nodes child).sibling depth
      some (first ++ others)

end

/-- `print_process_tree`. -/
def printProcessTree (nodes : Nodes) (fuel : Nat) : Option Nat → Option (List Char)
  | none => some "没有找到进程树\n".toList
  | some root => do
      let below ← printSiblings nodes fuel (nodes root).children 1
      some (label (nodes root).name (nodes root).pid ++ ['\n'] ++ below)

/-! ## Links that spell a forest -/

/-- The links from the pointer `o` spell the forest. -/
def Reps (nodes : Nodes) : Option Nat → Forest Nat → Prop
  | o, .nil => o = none
  | o, .cons a kids rest =>
      o = some a ∧ Reps nodes (nodes a).children kids ∧ Reps nodes (nodes a).sibling rest

/-- The line of the node `a` at depth `d`. -/
def nodeLine (nodes : Nodes) (x : Nat × Nat) : List Char :=
  indent x.1 (nodes x.2).sibling.isNone ++ label (nodes x.2).name (nodes x.2).pid ++ ['\n']

variable {d i j k root : Nat} {rs : List Record} {r q init : Record}

theorem printSiblings_reps {nodes : Nodes} {F : Forest Nat} {o : Option Nat} {fuel : Nat}
    (h : Reps nodes o F) (hfuel : 2 * F.ids.length ≤ fuel) :
    printSiblings nodes fuel o d = some ((F.preorder d).flatMap (nodeLine nodes)) := by
  induction F generalizing o fuel d with
  | nil =>
      rw [Reps] at h
      subst h
      rw [printSiblings.eq_1]
      rfl
  | cons a kids rest ihk ihr =>
      obtain ⟨rfl, hk, hr⟩ := h
      rw [Forest.ids, List.length_cons, List.length_append] at hfuel
      obtain ⟨f, rfl⟩ : ∃ f, fuel = f + 1 + 1 := ⟨fuel - 2, by omega⟩
      have hkfuel : 2 * kids.ids.length ≤ f := by omega
      have hrfuel : 2 * rest.ids.length ≤ f + 1 := by omega
      have hkids := ihk (d := d + 1) hk hkfuel
      have hrest := ihr (d := d) hr hrfuel
      simp only [printSiblings, printNode, hkids, hrest, Forest.preorder, List.flatMap_cons,
        List.flatMap_append, nodeLine, Option.bind_eq_bind, Option.bind_some, List.append_assoc]

/-- The chains of the child lists spell a forest that has all children. -/
theorem reps_of_every {nodes : Nodes} {F : Forest Nat} {o : Option Nat}
    (hF : F.Every fun a kids => Chain nodes (nodes a).children kids.tops)
    (ho : Chain nodes o F.tops) : Reps nodes o F := by
  induction F generalizing o with
  | nil => exact ho
  | cons a kids rest ihk ihr =>
      obtain ⟨rfl, hrest⟩ := ho
      exact ⟨rfl, ihk hF.2.1 hF.1, ihr hF.2.2 hrest⟩

/-! ## The forest below pid 1 -/

/-- `q` has the pid that `r` names as its parent. -/
def NamedParent (rs : List Record) (r q : Record) : Prop := q ∈ rs ∧ q.pid = r.ppid

/-- `q` is the parent of `r` among the records.  A ppid of 0 names no parent. -/
def ParentIn (rs : List Record) (r q : Record) : Prop := q ∈ rs ∧ r.ppid ≠ 0 ∧ q.pid = r.ppid

/-- The chain of parents of `r` reaches pid 1. -/
def Reaches (parent : Record → Record → Prop) (r : Record) : Prop :=
  ∃ q, Relation.ReflTransGen parent r q ∧ q.pid = 1

theorem eq_of_pid_eq (hpids : (rs.map Record.pid).Nodup) (hr : rs[i]? = some r)
    (hq : rs[j]? = some q) (h : r.pid = q.pid) : i = j := by
  have hr' : (rs.map Record.pid)[i]? = some r.pid := by rw [List.getElem?_map, hr]; rfl
  have hq' : (rs.map Record.pid)[j]? = some r.pid := by rw [List.getElem?_map, hq, h]; rfl
  have hi : i < (rs.map Record.pid).length := (List.getElem?_eq_some_iff.mp hr').1
  exact (List.getElem?_inj hi hpids).mp (hr'.trans hq'.symm)

theorem reaches_of_anc (hpids : (rs.map Record.pid).Nodup) (hr : rs[i]? = some r)
    (hq : rs[j]? = some q) (h : Forest.anc (parentIndex rs) k i = some j) :
    Relation.ReflTransGen (ParentIn rs) r q := by
  induction k generalizing i r with
  | zero =>
      rw [Forest.anc, Option.some.injEq] at h
      subst h
      rw [hr] at hq
      cases hq
      exact .refl
  | succ k ih =>
      rw [Forest.anc, Option.bind_eq_some_iff] at h
      obtain ⟨p, hp, h⟩ := h
      obtain ⟨r', q', hr', hq', h0, hpid⟩ := (parentIndex_iff hpids).mp hp
      rw [hr] at hr'
      cases hr'
      exact .head ⟨List.mem_of_getElem? hq', h0, hpid⟩ (ih hq' h)

theorem anc_of_reaches (hpids : (rs.map Record.pid).Nodup) (hr : rs[i]? = some r)
    (hq : rs[j]? = some q) (h : Relation.ReflTransGen (ParentIn rs) r q) :
    ∃ k, Forest.anc (parentIndex rs) k i = some j := by
  induction h using Relation.ReflTransGen.head_induction_on generalizing i with
  | refl =>
      have hij : i = j := eq_of_pid_eq hpids hr hq rfl
      exact ⟨0, by rw [hij]; rfl⟩
  | head hstep _ ih =>
      obtain ⟨hmem, h0, hpid⟩ := hstep
      obtain ⟨p, hp⟩ := List.getElem?_of_mem hmem
      obtain ⟨k, hk⟩ := ih hp
      have hpar : parentIndex rs i = some p := (parentIndex_iff hpids).mpr ⟨_, _, hr, hp, h0, hpid⟩
      exact ⟨k + 1, by rw [Forest.anc, hpar]; exact hk⟩

/-- The processes below the root are those on some level. -/
theorem mem_tree_iff (hpids : (rs.map Record.pid).Nodup)
    (hbound : ∀ k x, Forest.anc (parentIndex rs) k x = some root → k < rs.length) :
    (i = root ∨ i ∈ (Forest.grow (childrenIndex rs) rs.length (childrenIndex rs root)).ids) ↔
      ∃ k, Forest.anc (parentIndex rs) k i = some root := by
  rw [Forest.mem_ids_grow fun a b => mem_childrenIndex hpids]
  constructor
  · rintro (rfl | ⟨a, ha, j, -, hj⟩)
    · exact ⟨0, rfl⟩
    · exact ⟨j + 1, Forest.anc_succ hj ((mem_childrenIndex hpids).mp ha)⟩
  · rintro ⟨k, hk⟩
    cases k with
    | zero =>
        rw [Forest.anc, Option.some.injEq] at hk
        exact Or.inl hk
    | succ k =>
        obtain ⟨y, hy, hyr⟩ := Forest.anc_split hk
        rw [Forest.anc, Option.bind_eq_some_iff] at hyr
        obtain ⟨z, hz, hzr⟩ := hyr
        rw [Forest.anc, Option.some.injEq] at hzr
        subst hzr
        have hlt := hbound (k + 1) i hk
        exact Or.inr ⟨y, (mem_childrenIndex hpids).mpr hz, k, by omega, hy⟩

/-- A process on a level has a record. -/
theorem record_of_anc (hpids : (rs.map Record.pid).Nodup) (hroot : rs[root]? = some init)
    (h : Forest.anc (parentIndex rs) k i = some root) : ∃ r, rs[i]? = some r := by
  cases k with
  | zero =>
      rw [Forest.anc, Option.some.injEq] at h
      exact ⟨init, h ▸ hroot⟩
  | succ k =>
      rw [Forest.anc, Option.bind_eq_some_iff] at h
      obtain ⟨p, hp, -⟩ := h
      obtain ⟨r, -, hr, -⟩ := (parentIndex_iff hpids).mp hp
      exact ⟨r, hr⟩

theorem level_lt_length (hpids : (rs.map Record.pid).Nodup) (hroot : rs[root]? = some init)
    (hself : ∀ k, Forest.anc (parentIndex rs) (k + 1) root ≠ some root) {x : Nat}
    (h : Forest.anc (parentIndex rs) k x = some root) : k < rs.length := by
  have hrange : ∀ i r, rs[i]? = some r → i ∈ Finset.range rs.length := fun i r hr =>
    Finset.mem_range.mpr (List.getElem?_eq_some_iff.mp hr).1
  have hcard := Forest.level_lt_card (S := Finset.range rs.length) hself ?_ (hrange _ _ hroot) h
  · rwa [Finset.card_range] at hcard
  · intro y hy
    obtain ⟨p, hp⟩ := Option.ne_none_iff_exists'.mp hy
    obtain ⟨r, -, hr, -⟩ := (parentIndex_iff hpids).mp hp
    exact hrange y r hr

/-! ## The lines -/

/-- A line of the output, without its end. -/
structure Line where
  /-- The depth of the node. -/
  depth : Nat
  /-- Whether it is the last child. -/
  isLast : Bool
  /-- The process. -/
  record : Record
deriving DecidableEq

/-- The text of a line. -/
def Line.text (l : Line) : List Char :=
  indent l.depth l.isLast ++ label (storedName l.record.name) l.record.pid

theorem newline_not_mem_indent (depth : Nat) (isLast : Bool) : '\n' ∉ indent depth isLast := by
  rw [indent, List.mem_flatMap]
  rintro ⟨i, -, hi⟩
  split at hi
  · cases isLast <;> revert hi <;> decide
  · revert hi
    decide

theorem newline_not_mem_toString (n : Int) : '\n' ∉ (toString n).toList := by
  have hdigits : ∀ m : Nat, '\n' ∉ Nat.toDigits 10 m := fun m hm =>
    absurd (Nat.isDigit_of_mem_toDigits (by decide) le_rfl hm) (by decide)
  cases n with
  | ofNat m => simpa [ToString.toString, Int.repr] using hdigits m
  | negSucc m => simpa [ToString.toString, Int.repr] using hdigits (m + 1)

theorem Line.newline_not_mem_text {l : Line} (h : '\n' ∉ l.record.name) : '\n' ∉ l.text := by
  have hname : '\n' ∉ storedName l.record.name := fun hm =>
    h ((List.takeWhile_subset _) (List.mem_of_mem_take hm))
  simp only [Line.text, label, List.mem_append, not_or]
  exact ⟨newline_not_mem_indent _ _, ⟨⟨hname, by decide⟩, newline_not_mem_toString _⟩, by decide⟩

/-- The line of an entry of the preorder. -/
def lineOf (rs : List Record) (x : Nat × Nat) : Line :=
  ⟨x.1, ((build rs).nodes x.2).sibling.isNone, rs.getD x.2 ⟨0, 0, []⟩⟩

theorem record_lineOf (h : rs[i]? = some r) :
    (lineOf rs (d, i)).record = r := by
  rw [lineOf, List.getD_eq_getElem?_getD, h, Option.getD_some]

theorem node_build (hpids : (rs.map Record.pid).Nodup) (h : rs[i]? = some r) :
    ((build rs).nodes i).pid = r.pid ∧ ((build rs).nodes i).name = storedName r.name := by
  obtain ⟨hpid, -, hname⟩ := sameProcesses_build rs i
  rw [(stored_records hpids).node_eq i r h, newNode] at hpid hname
  exact ⟨hpid, hname⟩

theorem nodeLine_build (hpids : (rs.map Record.pid).Nodup) (h : rs[i]? = some r) :
    nodeLine (build rs).nodes (d, i) = (lineOf rs (d, i)).text ++ ['\n'] := by
  obtain ⟨hpid, hname⟩ := node_build hpids h
  rw [nodeLine, Line.text, record_lineOf h, hpid, hname]
  rfl

/-- The output of `print_process_tree` on pid 1 is complete: it ends, every line
is the line of one process, the processes are those that reach pid 1 and each
line is nested below its parent. -/
def PrintsTree (rs : List Record) (parent : Record → Record → Prop) : Prop :=
  ∃ lines : List Line,
    (∃ bound, ∀ fuel, bound ≤ fuel →
      printProcessTree (build rs).nodes fuel (build rs).root =
        some (lines.flatMap fun l => l.text ++ ['\n'])) ∧
    (∀ l ∈ lines, '\n' ∉ l.text) ∧
    (lines.map Line.record).Nodup ∧
    (∀ r, r ∈ lines.map Line.record ↔ r ∈ rs ∧ Reaches parent r) ∧
    ∀ above l below, lines = above ++ l :: below → 0 < l.depth →
      ∃ q, above.reverse.find? (fun x => x.depth + 1 = l.depth) = some q ∧
        parent l.record q.record

theorem parentIndex_root (hpids : (rs.map Record.pid).Nodup) (hroot : rs[root]? = some init)
    (hppid : init.ppid = 0) :
    parentIndex rs root = none := by
  cases h : parentIndex rs root with
  | none => rfl
  | some p =>
      obtain ⟨r, -, hr, -, h0, -⟩ := (parentIndex_iff hpids).mp h
      rw [hroot] at hr
      cases hr
      exact absurd hppid h0

section Tree

variable {rs : List Record} {root : Nat} {init : Record} (hpids : (rs.map Record.pid).Nodup)
  (hroot : rs[root]? = some init) (hpid : init.pid = 1)
  (hself : ∀ k, Forest.anc (parentIndex rs) (k + 1) root ≠ some root)

include hpids hroot hself

/-- The forest below pid 1. -/
abbrev below (rs : List Record) (root : Nat) : Forest Nat :=
  Forest.grow (childrenIndex rs) rs.length (childrenIndex rs root)

/-- The entries of the listing. -/
abbrev entries (rs : List Record) (root : Nat) : List (Nat × Nat) :=
  (0, root) :: (below rs root).preorder 1

omit hroot hself in
theorem level_kids {a : Nat} (ha : a ∈ childrenIndex rs root) :
    Forest.anc (parentIndex rs) 1 a = some root := by
  rw [Forest.anc, (mem_childrenIndex hpids).mp ha]
  rfl

variable {i : Nat}

theorem mem_entries_iff : i ∈ (entries rs root).map Prod.snd ↔
    ∃ k, Forest.anc (parentIndex rs) k i = some root := by
  rw [List.map_cons, Forest.map_snd_preorder, List.mem_cons]
  exact mem_tree_iff hpids fun k x =>
    level_lt_length hpids hroot hself

theorem record_of_mem_entries {d : Nat} (h : (d, i) ∈ entries rs root) :
    ∃ r, rs[i]? = some r := by
  obtain ⟨k, hk⟩ := (mem_entries_iff hpids hroot hself).mp (List.mem_map_of_mem (f := Prod.snd) h)
  exact record_of_anc hpids hroot hk

omit hroot in
theorem nodup_entries : ((entries rs root).map Prod.snd).Nodup := by
  rw [List.map_cons, Forest.map_snd_preorder, List.nodup_cons]
  constructor
  · rw [Forest.mem_ids_grow fun a b => mem_childrenIndex hpids]
    rintro ⟨a, ha, j, -, hj⟩
    exact hself j (Forest.anc_succ hj ((mem_childrenIndex hpids).mp ha))
  · exact Forest.nodup_ids_grow (fun a b => mem_childrenIndex hpids) hself
      (nodup_childrenIndex hpids) (nodup_childrenIndex hpids root)
      fun a ha => level_kids hpids ha

theorem every_below : (below rs root).tops = childrenIndex rs root ∧
    (below rs root).Every fun a kids => kids.tops = childrenIndex rs a :=
  Forest.every_grow (k := 1) (fun _ _ => mem_childrenIndex hpids)
    (fun _ _ => level_lt_length hpids hroot hself) (Nat.le_succ _) fun _ ha => level_kids hpids ha

theorem reps_below : Reps (build rs).nodes ((build rs).nodes root).children (below rs root) := by
  obtain ⟨htops, hevery⟩ := every_below hpids hroot hself
  have hroot' := chain_build hpids root
  refine reps_of_every (hevery.imp fun a _ kids hkids => ?_) (htops.symm ▸ hroot')
  rw [hkids]
  exact chain_build hpids a

include hpid in
theorem printProcessTree_build {fuel : Nat} (hfuel : 2 * (below rs root).ids.length ≤ fuel) :
    printProcessTree (build rs).nodes fuel (build rs).root =
      some (((entries rs root).map (lineOf rs)).flatMap fun l => l.text ++ ['\n']) := by
  have hr : (build rs).root = some root := (root_build_iff hpids).mpr ⟨init, hroot, hpid⟩
  have hlines : (entries rs root).flatMap (nodeLine (build rs).nodes) =
      ((entries rs root).map (lineOf rs)).flatMap fun l => l.text ++ ['\n'] := by
    rw [List.flatMap_map]
    refine List.flatMap_congr fun x hx => ?_
    obtain ⟨r, hxr⟩ := record_of_mem_entries hpids hroot hself hx
    exact nodeLine_build hpids hxr
  rw [hr, ← hlines, printProcessTree, printSiblings_reps (reps_below hpids hroot hself) hfuel]
  rfl

theorem nodup_records : (((entries rs root).map (lineOf rs)).map Line.record).Nodup := by
  have hnodup := nodup_entries hpids hself
  rw [List.map_map]
  refine List.Nodup.map_on ?_ (List.Nodup.of_map _ hnodup)
  intro x hx y hy hxy
  obtain ⟨r, hr⟩ := record_of_mem_entries hpids hroot hself hx
  obtain ⟨q, hq⟩ := record_of_mem_entries hpids hroot hself hy
  rw [Function.comp_apply, Function.comp_apply, record_lineOf hr, record_lineOf hq] at hxy
  have hij : x.2 = y.2 := eq_of_pid_eq hpids hr hq (by rw [hxy])
  exact List.inj_on_of_nodup_map hnodup hx hy hij

include hpid in
theorem mem_records_iff (r : Record) :
    r ∈ ((entries rs root).map (lineOf rs)).map Line.record ↔
      r ∈ rs ∧ Reaches (ParentIn rs) r := by
  rw [List.map_map, List.mem_map]
  constructor
  · rintro ⟨x, hx, rfl⟩
    obtain ⟨q, hq⟩ := record_of_mem_entries hpids hroot hself hx
    rw [Function.comp_apply, record_lineOf hq]
    obtain ⟨k, hk⟩ :=
      (mem_entries_iff hpids hroot hself).mp (List.mem_map_of_mem (f := Prod.snd) hx)
    exact ⟨List.mem_of_getElem? hq, init, reaches_of_anc hpids hq hroot hk, hpid⟩
  · rintro ⟨hr, q, hreach, hq⟩
    obtain ⟨i, hi⟩ := List.getElem?_of_mem hr
    -- the chain ends in the record of pid 1, since the pids are distinct
    have hqrs : q ∈ rs := by
      cases hreach with
      | refl => exact hr
      | tail _ hlast => exact hlast.1
    obtain ⟨j, hj⟩ := List.getElem?_of_mem hqrs
    have hjr : j = root := eq_of_pid_eq hpids hj hroot (hq.trans hpid.symm)
    subst hjr
    obtain ⟨k, hk⟩ := anc_of_reaches hpids hi hj hreach
    obtain ⟨x, hx, rfl⟩ := List.mem_map.mp ((mem_entries_iff hpids hroot hself).mpr ⟨k, hk⟩)
    exact ⟨x, hx, record_lineOf hi⟩

omit hroot hself in
theorem nested_entries {s t : List (Nat × Nat)} {e : Nat}
    (h : entries rs root = s ++ (e + 1, i) :: t) :
    ∃ b, Forest.nearest e s = some (e, b) ∧ parentIndex rs i = some b := by
  cases s with
  | nil => simp at h
  | cons x s =>
      rw [List.cons_append, List.cons.injEq] at h
      obtain ⟨rfl, h⟩ := h
      exact Forest.nearest_preorder (below rs root) 0 root [(0, root)]
        (Forest.respects_grow (fun a b => mem_childrenIndex hpids)
          fun a ha => (mem_childrenIndex hpids).mp ha) rfl s e i t h

omit hroot hself in
theorem nested_lines {above below : List Line} {l : Line}
    (h : (entries rs root).map (lineOf rs) = above ++ l :: below) (hd : 0 < l.depth) :
    ∃ q, above.reverse.find? (fun x => x.depth + 1 = l.depth) = some q ∧
      ParentIn rs l.record q.record := by
  rw [List.map_eq_append_iff] at h
  obtain ⟨s, t, hst, rfl, ht⟩ := h
  rw [List.map_eq_cons_iff] at ht
  obtain ⟨⟨d, i⟩, t, rfl, rfl, rfl⟩ := ht
  obtain ⟨e, rfl⟩ : ∃ e, d = e + 1 := ⟨d - 1, (Nat.succ_pred_eq_of_pos hd).symm⟩
  obtain ⟨b, hb, hpar⟩ := nested_entries hpids hst
  obtain ⟨r, q, hr, hq, h0, hqp⟩ := (parentIndex_iff hpids).mp hpar
  refine ⟨lineOf rs (e, b), ?_, ?_⟩
  · rw [← List.map_reverse, List.find?_map]
    have hfun : (fun x : Line => decide (x.depth + 1 = (lineOf rs (e + 1, i)).depth)) ∘ lineOf rs =
        fun x : Nat × Nat => decide (x.1 = e) := by
      funext x
      simp [lineOf]
    rw [hfun]
    rw [Forest.nearest] at hb
    rw [hb]
    rfl
  · rw [record_lineOf hr, record_lineOf hq]
    exact ⟨List.mem_of_getElem? hq, h0, hqp⟩

end Tree

/-- For every list of records with distinct pids and names without newlines, in
any order and with any parents, that has pid 1 with ppid 0: the tree printed is
complete, where a ppid of 0 names no parent. -/
theorem tree_printed {rs : List Record} (hpids : (rs.map Record.pid).Nodup)
    (hnames : ∀ r ∈ rs, '\n' ∉ r.name) (hinit : ∃ r ∈ rs, r.pid = 1 ∧ r.ppid = 0) :
    PrintsTree rs (ParentIn rs) := by
  obtain ⟨init, hmem, hpid, hppid⟩ := hinit
  obtain ⟨root, hroot⟩ := List.getElem?_of_mem hmem
  have hself := Forest.anc_ne_of_none (parentIndex_root hpids hroot hppid)
  refine ⟨(entries rs root).map (lineOf rs), ?_, ?_, ?_, ?_, ?_⟩
  · exact ⟨_, fun fuel => printProcessTree_build hpids hroot hpid hself⟩
  · intro l hl
    have hrec := (mem_records_iff hpids hroot hpid hself l.record).mp (List.mem_map_of_mem hl)
    exact Line.newline_not_mem_text (hnames _ hrec.1)
  · exact nodup_records hpids hroot hself
  · exact mem_records_iff hpids hroot hpid hself
  · intro above l below h hd
    exact nested_lines hpids h hd

/-- A process below a parent that is missing, and two on a cycle. -/
theorem tree_printed_orphans : PrintsTree
    [⟨7, 9, ['a']⟩, ⟨1, 0, ['i']⟩, ⟨3, 4, ['b']⟩, ⟨4, 3, ['c']⟩, ⟨5, 1, ['d']⟩, ⟨6, 5, ['e']⟩]
    (ParentIn
      [⟨7, 9, ['a']⟩, ⟨1, 0, ['i']⟩, ⟨3, 4, ['b']⟩, ⟨4, 3, ['c']⟩, ⟨5, 1, ['d']⟩,
        ⟨6, 5, ['e']⟩]) :=
  tree_printed (by decide) (by decide) ⟨⟨1, 0, ['i']⟩, by decide, rfl, rfl⟩

/-! ## A record of pid 0 -/

/-- A list with a record of pid 0, which pid 5 names as its parent. -/
def withPidZero : List Record := [⟨1, 0, ['i']⟩, ⟨0, 1, ['k']⟩, ⟨5, 0, ['s']⟩]

theorem printed_withPidZero (fuel : Nat) :
    printProcessTree (build withPidZero).nodes (fuel + 2) (build withPidZero).root =
      some "i(1)\n'--k(0)\n".toList := by
  have hroot : (build withPidZero).root = some 0 := by decide +kernel
  have hfirst : ((build withPidZero).nodes 0).children = some 1 := by decide +kernel
  have hkids : ((build withPidZero).nodes 1).children = none := by decide +kernel
  have hnext : ((build withPidZero).nodes 1).sibling = none := by decide +kernel
  have hinit : label ((build withPidZero).nodes 0).name ((build withPidZero).nodes 0).pid =
      "i(1)".toList := by decide +kernel
  have hkernel : label ((build withPidZero).nodes 1).name ((build withPidZero).nodes 1).pid =
      "k(0)".toList := by decide +kernel
  simp only [hroot, printProcessTree, hfirst, printSiblings, printNode, hkids, hnext, hinit,
    hkernel]
  rfl

/-- The loop takes a ppid of 0 for "no parent" also when pid 0 has a record. -/
theorem tree_misses_child_of_zero :
    (withPidZero.map Record.pid).Nodup ∧ (∀ r ∈ withPidZero, '\n' ∉ r.name) ∧
      (∃ r ∈ withPidZero, r.pid = 1 ∧ r.ppid = 0) ∧
      ¬PrintsTree withPidZero (NamedParent withPidZero) := by
  refine ⟨by decide, by decide, ⟨⟨1, 0, ['i']⟩, by decide, rfl, rfl⟩, ?_⟩
  rintro ⟨lines, ⟨bound, hout⟩, -, -, hmem, -⟩
  have hreach : Reaches (NamedParent withPidZero) ⟨5, 0, ['s']⟩ := by
    refine ⟨⟨1, 0, ['i']⟩, ?_, rfl⟩
    have hzero : NamedParent withPidZero ⟨5, 0, ['s']⟩ ⟨0, 1, ['k']⟩ := ⟨by decide, rfl⟩
    have hone : NamedParent withPidZero ⟨0, 1, ['k']⟩ ⟨1, 0, ['i']⟩ := ⟨by decide, rfl⟩
    exact .head hzero (.single hone)
  obtain ⟨l, hl, hrec⟩ := List.mem_map.mp ((hmem ⟨5, 0, ['s']⟩).mpr ⟨by decide, hreach⟩)
  have htext : 's' ∈ l.text := by
    rw [Line.text, hrec]
    exact List.mem_append_right _ (by decide)
  have hout := (hout (bound + 2) (Nat.le_add_right ..)).symm.trans (printed_withPidZero bound)
  have hmem : 's' ∈ "i(1)\n'--k(0)\n".toList := by
    rw [← Option.some.inj hout]
    exact List.mem_flatMap.mpr ⟨l, hl, List.mem_append_left _ htext⟩
  exact absurd hmem (by decide)

end OsCourse.Pstree
