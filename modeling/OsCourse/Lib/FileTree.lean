import Mathlib.Data.List.Nodup
import Mathlib.Tactic

/-!
# File trees

A tree of directories and regular files, and the files that paths name in it.  A
directory is the list of what reading it delivers, in any order, with the entries `.`
and `..` among the others.  A file is identified by its location, the names on the way
from the root.

`resolve` follows the components of a path: an empty component and `.` stay in a
directory, `..` goes back, and a name goes to that entry.  A path that is continued
with a slash and a name names the entry (`resolve_child`).

`walk` is a recursion over directories that are given by paths.  It need not end, so
it has fuel.
-/

namespace OsCourse

abbrev Path := List Char

/-- The names on the way from the root to a file. -/
abbrev Location := List (List Char)

/-- A name of an entry. -/
structure FileName where
  text : List Char
  ne_nil : text ≠ []
  no_slash : '/' ∉ text
  ne_dot : text ≠ ['.']
  ne_dots : text ≠ ['.', '.']

/-- The kinds of files. -/
inductive Kind where
  | file
  | dir
deriving DecidableEq

/-- What reading a directory delivers. -/
inductive Listing where
  | nil
  /-- The entry `.`. -/
  | self (rest : Listing)
  /-- The entry `..`. -/
  | parent (rest : Listing)
  | file (name : FileName) (rest : Listing)
  | dir (name : FileName) (below rest : Listing)

/-- A file or a directory. -/
inductive Node where
  | file
  | dir (l : Listing)

def Node.kind : Node → Kind
  | .file => .file
  | .dir _ => .dir

/-- An entry as it is read. -/
structure Dirent where
  name : List Char
  kind : Kind

namespace Listing

def dirents : Listing → List Dirent
  | nil => []
  | self rest => ⟨['.'], .dir⟩ :: rest.dirents
  | parent rest => ⟨['.', '.'], .dir⟩ :: rest.dirents
  | file name rest => ⟨name.text, .file⟩ :: rest.dirents
  | dir name _ rest => ⟨name.text, .dir⟩ :: rest.dirents

/-- The entries other than `.` and `..`. -/
def entries : Listing → List (FileName × Node)
  | nil => []
  | self rest | parent rest => rest.entries
  | file name rest => (name, .file) :: rest.entries
  | dir name below rest => (name, .dir below) :: rest.entries

def names (l : Listing) : List (List Char) := l.entries.map fun e => e.1.text

/-- No name occurs twice in a directory. -/
def Distinct : Listing → Prop
  | nil => True
  | self rest | parent rest => rest.Distinct
  | file name rest => name.text ∉ rest.names ∧ rest.Distinct
  | dir name below rest => name.text ∉ rest.names ∧ below.Distinct ∧ rest.Distinct

/-- The entry of a name. -/
def lookup (l : Listing) (name : List Char) : Option Node :=
  (l.entries.find? fun e => e.1.text = name).map Prod.snd

/-- How deep directories are nested. -/
def depth : Listing → Nat
  | nil => 0
  | self rest | parent rest | file _ rest => rest.depth
  | dir _ below rest => max (below.depth + 1) rest.depth

end Listing

/-- What is at a location below a node. -/
def Node.at : Node → Location → Option Node
  | n, [] => some n
  | .dir l, name :: loc => (l.lookup name).bind fun n => n.at loc
  | .file, _ :: _ => none

/-- A tree with a working directory. -/
structure FileSystem where
  root : Listing
  distinct : root.Distinct
  cwd : Location

namespace FileSystem

variable (fs : FileSystem)

/-- What is at a location. -/
def node (loc : Location) : Option Node := (Node.dir fs.root).at loc

/-- One component of a path. -/
def step (loc : Location) (component : List Char) : Option Location :=
  match fs.node loc with
  | some (.dir l) =>
      if component = [] ∨ component = ['.'] then some loc
      else if component = ['.', '.'] then some loc.dropLast
      else (l.lookup component).map fun _ => loc ++ [component]
  | _ => none

/-- The location that a path names. -/
def resolve (path : Path) : Option Location :=
  if path = [] then none
  else (path.splitOn '/').foldlM fs.step (if path.head? = some '/' then [] else fs.cwd)

/-- `opendir`: the location and what reading the directory delivers. -/
def opendir (path : Path) : Option (Location × Listing) :=
  (fs.resolve path).bind fun loc =>
    match fs.node loc with
    | some (.dir l) => some (loc, l)
    | _ => none

/-- `stat`: the kind of the file. -/
def stat (path : Path) : Option Kind :=
  (fs.resolve path).bind fun loc => (fs.node loc).map Node.kind

end FileSystem

/-! ## Walks -/

section
variable {E : Type}

/-- The visits of entries, one after the other. -/
def visitAll (visit : Dirent → Option (List E)) : List Dirent → Option (List E)
  | [] => some []
  | d :: ds => do
      let out ← visit d
      let outs ← visitAll visit ds
      return out ++ outs

variable {visit : Dirent → Option (List E)} {ds : List Dirent} {out : List E}

theorem visitAll_cons {d : Dirent} {outs : List E} (hd : visit d = some out)
    (hds : visitAll visit ds = some outs) :
    visitAll visit (d :: ds) = some (out ++ outs) := by
  rw [visitAll, hd, hds]
  rfl

/-- What happens in visits that end is what happens in each of them. -/
theorem visitAll_eq_some (h : visitAll visit ds = some out) :
    (∀ d ∈ ds, ∃ o, visit d = some o) ∧ out = ds.flatMap fun d => (visit d).getD [] := by
  induction ds generalizing out with
  | nil =>
      cases h
      exact ⟨fun d hd => absurd hd List.not_mem_nil, rfl⟩
  | cons d ds ih =>
      obtain ⟨o, hd, h⟩ := Option.bind_eq_some_iff.mp h
      obtain ⟨os, hds, h⟩ := Option.bind_eq_some_iff.mp h
      cases h
      obtain ⟨hall, hflat⟩ := ih hds
      refine ⟨List.forall_mem_cons.mpr ⟨⟨o, hd⟩, hall⟩, ?_⟩
      rw [List.flatMap_cons, hd, Option.getD_some, hflat]

theorem mem_visitAll (h : visitAll visit ds = some out) {x : E} (hx : x ∈ out) :
    ∃ d ∈ ds, ∃ o, visit d = some o ∧ x ∈ o := by
  obtain ⟨hall, rfl⟩ := visitAll_eq_some h
  obtain ⟨d, hd, hx⟩ := List.mem_flatMap.mp hx
  obtain ⟨o, ho⟩ := hall d hd
  rw [ho] at hx
  exact ⟨d, hd, o, ho, hx⟩

/-- Opens a directory and visits what reading it delivers.  A visit can walk other
paths. -/
def walk (fs : FileSystem) (enter : Location → Path → E) (fail : Path → E)
    (visit : (Path → Option (List E)) → Path → Dirent → Option (List E)) :
    Nat → Path → Option (List E)
  | 0, _ => none
  | fuel + 1, path =>
      match fs.opendir path with
      | none => some [fail path]
      | some (loc, l) =>
          (visitAll (visit (walk fs enter fail visit fuel) path) l.dirents).map
            (enter loc path :: ·)

theorem walk_succ {fs : FileSystem} {enter : Location → Path → E} {fail : Path → E}
    {visit : (Path → Option (List E)) → Path → Dirent → Option (List E)} {path : Path}
    {loc : Location} {l : Listing} (hopen : fs.opendir path = some (loc, l)) (fuel : Nat) :
    walk fs enter fail visit (fuel + 1) path =
      (visitAll (visit (walk fs enter fail visit fuel) path) l.dirents).map
        (enter loc path :: ·) := by
  rw [walk, hopen]

theorem walk_fail {fs : FileSystem} {enter : Location → Path → E} {fail : Path → E}
    {visit : (Path → Option (List E)) → Path → Dirent → Option (List E)} {path : Path}
    (hopen : fs.opendir path = none) (fuel : Nat) :
    walk fs enter fail visit (fuel + 1) path = some [fail path] := by
  rw [walk, hopen]

end

/-! ## Entries and locations -/

section
variable {l : Listing} {name : List Char} {n : Node}

theorem Listing.Distinct.nodup_names (h : l.Distinct) : l.names.Nodup := by
  induction l with
  | nil => exact List.nodup_nil
  | self rest ih | parent rest ih => exact ih h
  | file name rest ih => exact List.nodup_cons.mpr ⟨h.1, ih h.2⟩
  | dir name below rest _ ih => exact List.nodup_cons.mpr ⟨h.1, ih h.2.2⟩

variable {e : FileName}

theorem Listing.Distinct.below (h : l.Distinct) {b : Listing} (he : (e, Node.dir b) ∈ l.entries) :
    b.Distinct := by
  induction l with
  | nil => cases he
  | self rest ih | parent rest ih => exact ih h he
  | file name rest ih =>
      rcases List.mem_cons.mp he with heq | he
      · cases heq
      · exact ih h.2 he
  | dir name below rest _ ih =>
      rcases List.mem_cons.mp he with heq | he
      · cases heq
        exact h.2.1
      · exact ih h.2.2 he

theorem Listing.mem_dirents (he : (e, n) ∈ l.entries) :
    ⟨e.text, n.kind⟩ ∈ l.dirents := by
  induction l with
  | nil => cases he
  | self rest ih | parent rest ih => exact List.mem_cons_of_mem _ (ih he)
  | file name rest ih | dir name below rest _ ih =>
      rcases List.mem_cons.mp he with heq | he
      · cases heq
        exact List.mem_cons_self
      · exact List.mem_cons_of_mem _ (ih he)

/-- What is read of a directory, but for `.` and `..`, are its names. -/
theorem Listing.name_of_mem_dirents {d : Dirent} (h : d ∈ l.dirents) :
    d.name = ['.'] ∨ d.name = ['.', '.'] ∨ ∃ e : FileName, e.text = d.name ∧ e.text ∈ l.names := by
  induction l with
  | nil => cases h
  | self rest ih =>
      rcases List.mem_cons.mp h with rfl | h
      · exact .inl rfl
      · exact ih h
  | parent rest ih =>
      rcases List.mem_cons.mp h with rfl | h
      · exact .inr (.inl rfl)
      · exact ih h
  | file name rest ih | dir name below rest _ ih =>
      rcases List.mem_cons.mp h with rfl | h
      · exact .inr (.inr ⟨name, rfl, List.mem_cons_self⟩)
      · rcases ih h with h | h | ⟨e, he, hmem⟩
        · exact .inl h
        · exact .inr (.inl h)
        · exact .inr (.inr ⟨e, he, List.mem_cons_of_mem _ hmem⟩)

theorem Listing.no_slash_of_mem_dirents {d : Dirent} (h : d ∈ l.dirents) : '/' ∉ d.name := by
  rcases name_of_mem_dirents h with h | h | ⟨e, h, -⟩
  · simp [h]
  · simp [h]
  · exact h ▸ e.no_slash

theorem Listing.mem_of_lookup (h : l.lookup name = some n) :
    ∃ e : FileName, (e, n) ∈ l.entries ∧ e.text = name := by
  obtain ⟨⟨e, n'⟩, hfind, rfl⟩ := Option.map_eq_some_iff.mp h
  exact ⟨e, List.mem_of_find?_eq_some hfind, by simpa using List.find?_some hfind⟩

/-- The names of a directory are looked up as they are. -/
theorem Listing.Distinct.lookup_eq (h : l.Distinct) (he : (e, n) ∈ l.entries) :
    l.lookup e.text = some n := by
  cases hfind : l.entries.find? fun e' => e'.1.text = e.text with
  | none => simpa using List.find?_eq_none.mp hfind (e, n) he
  | some e' =>
      have hmem := List.mem_of_find?_eq_some hfind
      have htext : e'.1.text = e.text := by simpa using List.find?_some hfind
      have heq : e' = (e, n) :=
        List.inj_on_of_nodup_map h.nodup_names hmem he htext
      rw [Listing.lookup, hfind, heq]
      rfl

theorem Node.at_append (n : Node) (a b : Location) :
    n.at (a ++ b) = (n.at a).bind fun n' => n'.at b := by
  induction a generalizing n with
  | nil => cases n <;> rfl
  | cons name a ih =>
      cases n with
      | file => rfl
      | dir l =>
          simp only [List.cons_append, Node.at]
          cases l.lookup name with
          | none => rfl
          | some n' => exact ih n'

@[simp] theorem Node.at_nil (n : Node) : n.at [] = some n := by cases n <;> rfl

theorem Listing.Distinct.at (h : l.Distinct) {loc : Location} {l' : Listing}
    (hat : (Node.dir l).at loc = some (.dir l')) : l'.Distinct := by
  induction loc generalizing l with
  | nil =>
      cases hat
      exact h
  | cons name loc ih =>
      obtain ⟨n, hlookup, hat⟩ := Option.bind_eq_some_iff.mp hat
      obtain ⟨e, he, -⟩ := Listing.mem_of_lookup hlookup
      cases n with
      | file => cases loc <;> cases hat
      | dir b => exact ih (h.below he) hat

theorem Listing.lookup_eq_none (h : name ∉ l.names) : l.lookup name = none := by
  cases hlookup : l.lookup name with
  | none => rfl
  | some n =>
      obtain ⟨e, he, rfl⟩ := Listing.mem_of_lookup hlookup
      exact absurd (List.mem_map_of_mem he) h

end

/-! ## Everything below a directory -/

namespace Listing

/-- All files below a directory, a directory before what is in it. -/
def all : Listing → List (Location × Node)
  | nil => []
  | self rest | parent rest => rest.all
  | file name rest => ([name.text], .file) :: rest.all
  | dir name below rest =>
      ([name.text], .dir below) ::
        (below.all.map (fun e => (name.text :: e.1, e.2)) ++ rest.all)

theorem lookup_file (e : FileName) (rest : Listing) (name : List Char) :
    (file e rest).lookup name = if e.text = name then some .file else rest.lookup name := by
  by_cases h : e.text = name <;> simp [lookup, entries, h]

theorem lookup_dir (e : FileName) (below rest : Listing) (name : List Char) :
    (dir e below rest).lookup name =
      if e.text = name then some (.dir below) else rest.lookup name := by
  by_cases h : e.text = name <;> simp [lookup, entries, h]

variable {l : Listing} {loc : Location}

theorem ne_nil_of_mem_all {e : Location × Node} (h : e ∈ l.all) : e.1 ≠ [] := by
  induction l generalizing e with
  | nil => cases h
  | self rest ih | parent rest ih => exact ih h
  | file name rest ih =>
      rcases List.mem_cons.mp h with rfl | h
      · exact List.cons_ne_nil _ _
      · exact ih h
  | dir name below rest _ ih =>
      rcases List.mem_cons.mp h with rfl | h
      · exact List.cons_ne_nil _ _
      · rcases List.mem_append.mp h with h | h
        · obtain ⟨f, -, rfl⟩ := List.mem_map.mp h
          exact List.cons_ne_nil _ _
        · exact ih h

theorem mem_all (h : l.Distinct) {n : Node} :
    (loc, n) ∈ l.all ↔ loc ≠ [] ∧ (Node.dir l).at loc = some n := by
  induction l generalizing loc n with
  | nil => cases loc <;> simp [all, Node.at, lookup, entries]
  | self rest ih | parent rest ih =>
      rw [all, ih h]
      cases loc with
      | nil => simp
      | cons name loc => exact Iff.rfl
  | file e rest ih =>
      rw [all, List.mem_cons, ih h.2]
      cases loc with
      | nil => simp
      | cons name loc =>
          simp only [Node.at, lookup_file]
          by_cases hname : e.text = name
          · subst hname
            cases loc <;> simp [lookup_eq_none h.1, Node.at, eq_comm]
          · simp [hname, Ne.symm hname]
  | dir e below rest ihBelow ihRest =>
      rw [all, List.mem_cons, List.mem_append, ihRest h.2.2]
      cases loc with
      | nil => simp
      | cons name loc =>
          have hmap : (name :: loc, n) ∈ below.all.map (fun f => (e.text :: f.1, f.2)) ↔
              e.text = name ∧ (loc, n) ∈ below.all := by
            simp [and_comm, and_assoc]
          rw [hmap, ihBelow h.2.1]
          simp only [Node.at, lookup_dir]
          by_cases hname : e.text = name
          · subst hname
            cases loc <;> simp [lookup_eq_none h.1, eq_comm]
          · simp [hname, Ne.symm hname]

theorem mem_names_of_at {name : List Char} {n : Node} (h : (Node.dir l).at (name :: loc) = some n) :
    name ∈ l.names := by
  obtain ⟨n', hlookup, -⟩ := Option.bind_eq_some_iff.mp h
  obtain ⟨e, he, rfl⟩ := mem_of_lookup hlookup
  exact List.mem_map_of_mem he

theorem head_mem_names (h : l.Distinct) {name : List Char}
    (hloc : name :: loc ∈ l.all.map Prod.fst) : name ∈ l.names := by
  obtain ⟨⟨_, n⟩, hmem, rfl⟩ := List.mem_map.mp hloc
  exact mem_names_of_at ((mem_all h).mp hmem).2

theorem nodup_all (h : l.Distinct) : (l.all.map Prod.fst).Nodup := by
  induction l with
  | nil => exact List.nodup_nil
  | self rest ih | parent rest ih => exact ih h
  | file e rest ih =>
      exact List.nodup_cons.mpr ⟨fun hmem => h.1 (head_mem_names h.2 hmem), ih h.2⟩
  | dir e below rest ihBelow ihRest =>
      have hbelow : (below.all.map (fun f => (e.text :: f.1, f.2))).map Prod.fst =
          (below.all.map Prod.fst).map (e.text :: ·) := by
        simp
      rw [all, List.map_cons, List.map_append, hbelow]
      refine List.nodup_cons.mpr ⟨fun hmem => ?_, List.nodup_append'.mpr
        ⟨(ihBelow h.2.1).map (List.cons_injective), ihRest h.2.2, fun loc hloc hrest => ?_⟩⟩
      · rcases List.mem_append.mp hmem with hmem | hmem
        · -- What is in the directory has at least two names.
          obtain ⟨loc, hloc, heq⟩ := List.mem_map.mp hmem
          obtain ⟨⟨_, n⟩, hn, rfl⟩ := List.mem_map.mp hloc
          exact ((mem_all h.2.1).mp hn).1 (List.cons.inj heq).2
        · exact h.1 (head_mem_names h.2.2 hmem)
      · obtain ⟨loc', -, rfl⟩ := List.mem_map.mp hloc
        exact h.1 (head_mem_names h.2.2 hrest)

end Listing

/-! ## Paths -/

namespace FileSystem

variable {fs : FileSystem} {path : Path} {loc : Location} {l : Listing}

theorem node_append (loc rel : Location) :
    fs.node (loc ++ rel) = (fs.node loc).bind fun n => n.at rel :=
  Node.at_append _ _ _

variable {n : Node} {e : FileName}

theorem node_below (h : fs.node loc = some n) (rel : Location) :
    fs.node (loc ++ rel) = n.at rel := by
  rw [node_append, h, Option.bind_some]

theorem distinct_of_node (h : fs.node loc = some (.dir l)) : l.Distinct :=
  fs.distinct.at h

theorem opendir_eq_some : fs.opendir path = some (loc, l) ↔
    fs.resolve path = some loc ∧ fs.node loc = some (.dir l) := by
  rw [opendir]
  cases fs.resolve path with
  | none => simp
  | some loc' =>
      simp only [Option.bind_some, Option.some.injEq]
      cases hnode : fs.node loc' with
      | none => grind
      | some n => cases n <;> grind

theorem stat_of_opendir (hopen : fs.opendir path = some (loc, l)) : fs.stat path = some .dir := by
  obtain ⟨hresolve, hnode⟩ := opendir_eq_some.mp hopen
  rw [stat, hresolve, Option.bind_some, hnode]
  rfl

theorem exists_opendir_of_stat (h : fs.stat path = some .dir) :
    ∃ loc l, fs.opendir path = some (loc, l) := by
  obtain ⟨loc, hresolve, hkind⟩ := Option.bind_eq_some_iff.mp h
  obtain ⟨n, hnode, hdir⟩ := Option.map_eq_some_iff.mp hkind
  cases n with
  | file => cases hdir
  | dir l => exact ⟨loc, l, opendir_eq_some.mpr ⟨hresolve, hnode⟩⟩

theorem ne_nil_of_resolve (h : fs.resolve path = some loc) : path ≠ [] := by
  rintro rfl
  cases h

/-- A component stays, goes back or goes to an entry. -/
theorem step_cases {loc' : Location} {component : List Char}
    (h : fs.step loc component = some loc') :
    ((component = [] ∨ component = ['.']) ∧ loc' = loc) ∨
      (component = ['.', '.'] ∧ loc' = loc.dropLast) ∨
      (component ≠ [] ∧ component ≠ ['.'] ∧ component ≠ ['.', '.'] ∧
        loc' = loc ++ [component]) := by
  rw [step] at h
  split at h
  · split at h
    · next hstay =>
        cases h
        exact .inl ⟨hstay, rfl⟩
    · next hstay =>
        rw [not_or] at hstay
        split at h
        · next hback =>
            cases h
            exact .inr (.inl ⟨hback, rfl⟩)
        · next hback =>
            obtain ⟨n, -, rfl⟩ := Option.map_eq_some_iff.mp h
            exact .inr (.inr ⟨hstay.1, hstay.2, hback, rfl⟩)
  · cases h

theorem step_name (hnode : fs.node loc = some (.dir l)) (e : FileName) :
    fs.step loc e.text = (l.lookup e.text).map fun _ => loc ++ [e.text] := by
  simp [step, hnode, e.ne_nil, e.ne_dot, e.ne_dots]

/-- A path continued by a slash and one more component. -/
theorem resolve_append_cons (h : fs.resolve path = some loc) {component : List Char}
    (hslash : '/' ∉ component) :
    fs.resolve (path ++ '/' :: component) = fs.step loc component := by
  have hpath := ne_nil_of_resolve h
  have hhead : (path ++ '/' :: component).head? = path.head? := by
    cases path with
    | nil => exact absurd rfl hpath
    | cons c path => rfl
  rw [resolve, if_neg hpath] at h
  rw [resolve, if_neg (by simp [hpath]), hhead, List.splitOn_append_cons_self,
    List.splitOn_eq_singleton hslash, List.foldlM_append, h]
  simp

theorem resolve_child (hopen : fs.opendir path = some (loc, l)) (he : (e, n) ∈ l.entries) :
    fs.resolve (path ++ '/' :: e.text) = some (loc ++ [e.text]) := by
  obtain ⟨hresolve, hnode⟩ := opendir_eq_some.mp hopen
  rw [resolve_append_cons hresolve e.no_slash, step_name hnode,
    (distinct_of_node hnode).lookup_eq he, Option.map_some]

theorem node_child (hnode : fs.node loc = some (.dir l)) (he : (e, n) ∈ l.entries) :
    fs.node (loc ++ [e.text]) = some n := by
  rw [node_below hnode, Node.at, (distinct_of_node hnode).lookup_eq he, Option.bind_some,
    Node.at_nil]

theorem opendir_child (hopen : fs.opendir path = some (loc, l)) {b : Listing}
    (he : (e, .dir b) ∈ l.entries) :
    fs.opendir (path ++ '/' :: e.text) = some (loc ++ [e.text], b) :=
  opendir_eq_some.mpr
    ⟨resolve_child hopen he, node_child (opendir_eq_some.mp hopen).2 he⟩

/-- A child of a directory is one of its entries. -/
theorem mem_entries_of_node (hnode : fs.node loc = some (.dir l)) {name : List Char}
    (hchild : fs.node (loc ++ [name]) = some n) : ∃ e, (e, n) ∈ l.entries ∧ e.text = name := by
  rw [node_below hnode, Node.at] at hchild
  obtain ⟨n', hlookup, hat⟩ := Option.bind_eq_some_iff.mp hchild
  rw [Node.at_nil, Option.some.injEq] at hat
  exact hat ▸ Listing.mem_of_lookup hlookup

theorem stat_child (hopen : fs.opendir path = some (loc, l)) (he : (e, n) ∈ l.entries) :
    fs.stat (path ++ '/' :: e.text) = some n.kind := by
  rw [stat, resolve_child hopen he, Option.bind_some,
    node_child (opendir_eq_some.mp hopen).2 he, Option.map_some]

theorem exists_last_slash {path : Path} (h : '/' ∈ path) :
    ∃ before last, path = before ++ '/' :: last ∧ '/' ∉ last := by
  obtain ⟨last, before, heq, hlast⟩ := List.eq_append_cons_of_mem (List.mem_reverse.mpr h)
  refine ⟨before.reverse, last.reverse, ?_, fun hmem => hlast (List.mem_reverse.mp hmem)⟩
  rw [← List.reverse_reverse path, heq]
  simp

theorem getLast?_append_cons (before : Path) {last : List Char} (h : '/' ∉ last) :
    last = [] ↔ (before ++ '/' :: last).getLast? = some '/' := by
  rw [List.getLast?_append, List.getLast?_cons]
  cases hlast : last.getLast? with
  | none => simp [List.getLast?_eq_none_iff.mp hlast]
  | some c =>
      have hmem := List.mem_of_getLast? hlast
      have hc : c ≠ '/' := by
        rintro rfl
        exact h hmem
      simp [hc, List.ne_nil_of_mem hmem]

/-- The last component takes up what is appended without a slash. -/
theorem splitOn_append (hpath : path ≠ []) :
    ∃ before last, '/' ∉ last ∧ (last = [] ↔ path.getLast? = some '/') ∧
      ∀ w, '/' ∉ w → (path ++ w).splitOn '/' = before ++ [last ++ w] := by
  by_cases hslash : '/' ∈ path
  · obtain ⟨before, last, rfl, hlast⟩ := exists_last_slash hslash
    refine ⟨before.splitOn '/', last, hlast, getLast?_append_cons before hlast, fun w hw => ?_⟩
    have hword : '/' ∉ last ++ w := fun h => (List.mem_append.mp h).elim hlast hw
    rw [List.append_assoc, List.cons_append, List.splitOn_append_cons_self,
      List.splitOn_eq_singleton hword]
  · refine ⟨[], path, hslash, ?_, fun w hw => ?_⟩
    · exact iff_of_false hpath fun h => hslash (List.mem_of_getLast? h)
    · exact List.splitOn_eq_singleton fun h => (List.mem_append.mp h).elim hslash hw

/-- A path that is continued without a slash names an entry of the directory that the
path itself is in. -/
theorem resolve_append (h : fs.resolve path = some loc) :
    ∃ parent last, fs.step parent last = some loc ∧ (last = [] ↔ path.getLast? = some '/') ∧
      ∀ w, '/' ∉ w → fs.resolve (path ++ w) = fs.step parent (last ++ w) := by
  have hpath := ne_nil_of_resolve h
  obtain ⟨before, last, -, hlast, hsplit⟩ := splitOn_append hpath
  have hfold (w : List Char) (hw : '/' ∉ w) : fs.resolve (path ++ w) =
      (before.foldlM fs.step (if path.head? = some '/' then [] else fs.cwd)).bind
        fun parent => fs.step parent (last ++ w) := by
    have hhead : (path ++ w).head? = path.head? := by
      cases path with
      | nil => exact absurd rfl hpath
      | cons c path => rfl
    rw [resolve, if_neg (by simp [hpath]), hhead, hsplit w hw, List.foldlM_append]
    simp
  have hself := hfold [] List.not_mem_nil
  rw [List.append_nil, List.append_nil, h] at hself
  obtain ⟨parent, hparent, hstep⟩ := Option.bind_eq_some_iff.mp hself.symm
  refine ⟨parent, last, hstep, hlast, fun w hw => ?_⟩
  rw [hfold w hw, hparent, Option.bind_some]

end FileSystem

/-! ## Full paths -/

/-- A start path continued by the names of a location. -/
def fullPath (base : Path) (rel : Location) : Path := base ++ rel.flatMap fun name => '/' :: name

@[simp] theorem fullPath_nil (base : Path) : fullPath base [] = base := by simp [fullPath]

@[simp] theorem fullPath_cons (base : Path) (name : List Char) (rel : Location) :
    fullPath base (name :: rel) = fullPath (base ++ '/' :: name) rel := by
  simp [fullPath]

theorem length_le_fullPath (base : Path) (rel : Location) :
    base.length ≤ (fullPath base rel).length := by
  simp [fullPath]

theorem splitOn_fullPath (base : Path) {rel : Location} (h : ∀ name ∈ rel, '/' ∉ name) :
    (fullPath base rel).splitOn '/' = base.splitOn '/' ++ rel := by
  induction rel generalizing base with
  | nil => simp
  | cons name rel ih =>
      rw [fullPath_cons, ih _ fun m hm => h m (List.mem_cons_of_mem _ hm),
        List.splitOn_append_cons_self, List.splitOn_eq_singleton (h name List.mem_cons_self),
        List.append_assoc, List.singleton_append]

/-- The names of what is below a directory have no slash. -/
theorem Node.no_slash_of_at {n m : Node} {loc : Location} (h : n.at loc = some m) :
    ∀ name ∈ loc, '/' ∉ name := by
  induction loc generalizing n with
  | nil => exact fun _ hmem => absurd hmem List.not_mem_nil
  | cons name loc ih =>
      cases n with
      | file => cases h
      | dir l =>
          obtain ⟨n', hlookup, hat⟩ := Option.bind_eq_some_iff.mp h
          obtain ⟨e, -, rfl⟩ := Listing.mem_of_lookup hlookup
          exact List.forall_mem_cons.mpr ⟨e.no_slash, ih hat⟩

theorem fullPath_inj {base : Path} {rel rel' : Location} (h : ∀ name ∈ rel, '/' ∉ name)
    (h' : ∀ name ∈ rel', '/' ∉ name) (heq : fullPath base rel = fullPath base rel') :
    rel = rel' := by
  have hsplit := congrArg (List.splitOn '/') heq
  rw [splitOn_fullPath base h, splitOn_fullPath base h'] at hsplit
  exact List.append_cancel_left hsplit

end OsCourse
