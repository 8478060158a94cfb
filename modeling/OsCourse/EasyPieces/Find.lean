import OsCourse.Lib.FileTree

/-!
# The recursive find

`find_recursively` opens a directory by its path, prints the path of each entry that
the options select, and calls itself with the path of each entry that is a directory.
A path is built with `snprintf` into an array of 1024 bytes, which cuts it.

As long as no path is cut, a call prints what `found` says, which is a recursion over
the tree and not over paths.  A path that is cut can name a directory: the one it was
built in, and then the recursion does not end, or one that is visited on its own, and then
it is visited twice.  This is all that can go wrong (`findRecursively_opensOnce_iff`).
-/

namespace OsCourse.Find

/-- `struct SearchOptions`. -/
structure SearchOptions where
  namePattern : Option (List Char)
  type : Char

/-- What `find_recursively` does, in order. -/
inductive Event where
  /-- `opendir` of the directory at `loc`, and
  `printf("Listing directory: %s\n", base_path)`. -/
  | heading (loc : Location) (path : Path)
  /-- `perror("opendir")`. -/
  | openError (path : Path)
  /-- `printf("Error getting stats for %s: \n", path)` and `perror("stat")`. -/
  | statError (path : Path)
  /-- `printf("%s\n", path)`. -/
  | entry (path : Path)
deriving DecidableEq

/-- `sizeof(path)`. -/
def pathSize : Nat := 1024

/-- `snprintf(path, sizeof(path), …)`. -/
def snprintf (text : List Char) : Path := text.take (pathSize - 1)

theorem snprintf_of_lt {text : List Char} (h : text.length < pathSize) : snprintf text = text :=
  List.take_of_length_le (by omega)

/-- `type_match`. -/
def typeMatch (opts : SearchOptions) (kind : Kind) : Bool :=
  if opts.type = '\x00' then true
  else if opts.type = 'd' ∧ kind = .dir then true
  else if opts.type = 'f' ∧ kind = .file then true
  else false

/-- `name_match`. -/
def nameMatch (fnmatch : List Char → List Char → Bool) (opts : SearchOptions)
    (name : List Char) : Bool :=
  match opts.namePattern with
  | none => true
  | some pattern => fnmatch pattern name

section
variable (fs : FileSystem) (fnmatch : List Char → List Char → Bool) (opts : SearchOptions)

/-- The line of an entry. -/
def line (path : Path) (name : List Char) (kind : Kind) : List Event :=
  if typeMatch opts kind && nameMatch fnmatch opts name then [.entry path] else []

/-- The body of the loop over the entries. -/
def findEntry (recurse : Path → Option (List Event)) (base : Path) (dp : Dirent) :
    Option (List Event) :=
  if dp.name ≠ ['.'] ∧ dp.name ≠ ['.', '.'] then
    let path := snprintf (base ++ '/' :: dp.name)
    match fs.stat path with
    | none => some [.statError path]
    | some kind =>
        if dp.kind = .dir then (recurse path).map (line fnmatch opts path dp.name kind ++ ·)
        else some (line fnmatch opts path dp.name kind)
  else some []

def findRecursively : Nat → Path → Option (List Event) :=
  walk fs .heading .openError (findEntry fs fnmatch opts)

/-- The loop over the arguments after the start path.  An error has the type that is
refused. -/
def parseOptions : List (List Char) → SearchOptions → Except Char SearchOptions
  | [], opts => .ok opts
  | [_], opts => .ok opts
  | arg :: next :: rest, opts =>
      if arg = ['-', 'n'] then parseOptions rest { opts with namePattern := some next }
      else if arg = ['-', 't'] then
        let type := next.headD '\x00'
        if type ≠ 'd' ∧ type ≠ 'f' then .error type
        else parseOptions rest { opts with type }
      else parseOptions (next :: rest) opts

/-- How `main` ends. -/
inductive Outcome where
  | usage
  /-- `Error: Invalid type '%c'. Use 'd' for directory or 'f' for file.` -/
  | invalidType (type : Char)
  /-- `Error: %s is not a directory or does not exist.` -/
  | notDirectory (path : Path)
  | done (out : List Event)

def main (fuel : Nat) : List (List Char) → Option Outcome
  | [] => some .usage
  | startPath :: args =>
      match parseOptions args ⟨none, '\x00'⟩ with
      | .error type => some (.invalidType type)
      | .ok opts =>
          if fs.stat startPath = some .dir then
            (findRecursively fs fnmatch opts fuel startPath).map .done
          else some (.notDirectory startPath)

/-- What is printed for a directory after its heading, by recursion over the tree. -/
def found : Path → Location → Listing → List Event
  | _, _, .nil => []
  | base, loc, .self rest | base, loc, .parent rest => found base loc rest
  | base, loc, .file name rest =>
      line fnmatch opts (base ++ '/' :: name.text) name.text .file ++ found base loc rest
  | base, loc, .dir name below rest =>
      line fnmatch opts (base ++ '/' :: name.text) name.text .dir ++
        .heading (loc ++ [name.text]) (base ++ '/' :: name.text) ::
          found (base ++ '/' :: name.text) (loc ++ [name.text]) below ++
        found base loc rest

end

section
variable {fs : FileSystem} {fnmatch : List Char → List Char → Bool} {opts : SearchOptions}
  {base : Path} {loc : Location} {l : Listing}

/-- An entry of an open directory, when its path is not cut. -/
theorem findEntry_eq (hopen : fs.opendir base = some (loc, l)) {e : FileName} {n : Node}
    (he : (e, n) ∈ l.entries) (hlen : (base ++ '/' :: e.text).length < pathSize)
    (recurse : Path → Option (List Event)) :
    findEntry fs fnmatch opts recurse base ⟨e.text, n.kind⟩ =
      if n.kind = .dir then
        (recurse (base ++ '/' :: e.text)).map
          (line fnmatch opts (base ++ '/' :: e.text) e.text n.kind ++ ·)
      else some (line fnmatch opts (base ++ '/' :: e.text) e.text n.kind) := by
  rw [findEntry, if_pos ⟨e.ne_dot, e.ne_dots⟩]
  simp only [snprintf_of_lt hlen, FileSystem.stat_child hopen he]

theorem findRecursively_succ (hopen : fs.opendir base = some (loc, l)) (fuel : Nat) :
    findRecursively fs fnmatch opts (fuel + 1) base =
      (visitAll (findEntry fs fnmatch opts (findRecursively fs fnmatch opts fuel) base)
        l.dirents).map (.heading loc base :: ·) :=
  walk_succ hopen fuel

variable {fuel : Nat}

/-- A directory that is visited, when the visits of what is in it are known. -/
theorem findEntry_dir (hopen : fs.opendir base = some (loc, l)) {e : FileName} {below : Listing}
    (he : (e, .dir below) ∈ l.entries) (hlen : (base ++ '/' :: e.text).length < pathSize)
    {inner : List Event}
    (hinner : visitAll (findEntry fs fnmatch opts (findRecursively fs fnmatch opts fuel)
      (base ++ '/' :: e.text)) below.dirents = some inner) :
    findEntry fs fnmatch opts (findRecursively fs fnmatch opts (fuel + 1)) base
        ⟨e.text, .dir⟩ =
      some (line fnmatch opts (base ++ '/' :: e.text) e.text .dir ++
        .heading (loc ++ [e.text]) (base ++ '/' :: e.text) :: inner) := by
  refine (findEntry_eq hopen he hlen _).trans ?_
  rw [findRecursively_succ (FileSystem.opendir_child hopen he), hinner]
  rfl

/-- The directory itself and the one above it are passed over. -/
theorem findEntry_dots (recurse : Path → Option (List Event)) (base : Path) {name : List Char}
    (h : name = ['.'] ∨ name = ['.', '.']) (kind : Kind) :
    findEntry fs fnmatch opts recurse base ⟨name, kind⟩ = some [] := by
  rw [findEntry, if_neg fun hname => h.elim hname.1 hname.2]

end

/-! ## What is printed -/

/-- The paths that are printed on lines of their own. -/
def printed (out : List Event) : List Path :=
  out.filterMap fun
    | .entry path => some path
    | _ => none

/-- The directories that are opened. -/
def opened (out : List Event) : List Location :=
  out.filterMap fun
    | .heading loc _ => some loc
    | _ => none

/-- Both filters, for an entry that is at `rel` below the start directory. -/
def selected (fnmatch : List Char → List Char → Bool) (opts : SearchOptions) (rel : Location)
    (kind : Kind) : Bool :=
  typeMatch opts kind && nameMatch fnmatch opts (rel.getLastD [])

section
variable {fs : FileSystem} {fnmatch : List Char → List Char → Bool} {opts : SearchOptions}
  {base : Path} {loc : Location} {l : Listing}

@[simp] theorem printed_append (out out' : List Event) :
    printed (out ++ out') = printed out ++ printed out' :=
  List.filterMap_append

theorem mem_printed {path : Path} {out : List Event} :
    path ∈ printed out ↔ .entry path ∈ out := by
  simp only [printed, List.mem_filterMap]
  constructor
  · rintro ⟨ev, hev, heq⟩
    cases ev with
    | entry p =>
        cases heq
        exact hev
    | heading | openError | statError => cases heq
  · exact fun h => ⟨_, h, rfl⟩

theorem mem_opened {d : Location} {out : List Event} :
    d ∈ opened out ↔ ∃ path, .heading d path ∈ out := by
  simp only [opened, List.mem_filterMap]
  constructor
  · rintro ⟨ev, hev, heq⟩
    cases ev with
    | heading d' path =>
        cases heq
        exact ⟨path, hev⟩
    | entry | openError | statError => cases heq
  · exact fun ⟨path, h⟩ => ⟨_, h, rfl⟩

@[simp] theorem opened_append (out out' : List Event) :
    opened (out ++ out') = opened out ++ opened out' :=
  List.filterMap_append

@[simp] theorem printed_heading (loc : Location) (path : Path) (out : List Event) :
    printed (.heading loc path :: out) = printed out :=
  rfl

@[simp] theorem opened_heading (loc : Location) (path : Path) (out : List Event) :
    opened (.heading loc path :: out) = loc :: opened out :=
  rfl

@[simp] theorem opened_line (path : Path) (name : List Char) (kind : Kind) :
    opened (line fnmatch opts path name kind) = [] := by
  rw [line]
  split <;> rfl

theorem printed_line (path : Path) (name : List Char) (kind : Kind) :
    printed (line fnmatch opts path name kind) =
      if selected fnmatch opts [name] kind then [path] else [] := by
  rw [line, selected, List.getLastD_cons, List.getLastD_nil]
  split <;> rfl

variable {rel : Location}

theorem selected_cons (name : List Char) (h : rel ≠ []) (kind : Kind) :
    selected fnmatch opts (name :: rel) kind = selected fnmatch opts rel kind := by
  cases rel with
  | nil => exact absurd rfl h
  | cons m rel => rfl

theorem printed_found (base : Path) (loc : Location) (l : Listing) :
    printed (found fnmatch opts base loc l) =
      (l.all.filter fun e => selected fnmatch opts e.1 e.2.kind).map
        fun e => fullPath base e.1 := by
  induction l generalizing base loc with
  | nil => rfl
  | self rest ih | parent rest ih => exact ih base loc
  | file e rest ih =>
      rw [found, printed_append, printed_line, ih, Listing.all, List.filter_cons]
      split <;> simp_all [Node.kind]
  | dir e below rest ihBelow ihRest =>
      have hbelow : (below.all.map fun f => (e.text :: f.1, f.2)).filter
            (fun f => selected fnmatch opts f.1 f.2.kind) =
          (below.all.filter fun f => selected fnmatch opts f.1 f.2.kind).map
            fun f => (e.text :: f.1, f.2) := by
        rw [List.filter_map]
        congr 1
        exact List.filter_congr fun f hf => selected_cons _ (Listing.ne_nil_of_mem_all hf) _
      rw [found, printed_append, printed_append, printed_line, printed_heading, ihBelow, ihRest,
        Listing.all, List.filter_cons, List.filter_append, hbelow]
      split <;> simp_all [Node.kind]

/-- The directories below a directory. -/
def directories (l : Listing) : List Location :=
  (l.all.filter fun e => e.2.kind = .dir).map Prod.fst

theorem directories_dir (e : FileName) (below rest : Listing) :
    directories (.dir e below rest) =
      [e.text] :: ((directories below).map (e.text :: ·) ++ directories rest) := by
  simp [directories, Listing.all, List.filter_map, Node.kind, Function.comp_def]

/-- An entry that is not a directory opens nothing, also when its path is cut. -/
theorem findEntry_file (base : Path) (e : FileName) :
    ∃ out, opened out = [] ∧
      ∀ recurse, findEntry fs fnmatch opts recurse base ⟨e.text, .file⟩ = some out := by
  simp only [findEntry, if_pos (And.intro e.ne_dot e.ne_dots)]
  cases fs.stat (snprintf (base ++ '/' :: e.text)) with
  | none => exact ⟨[.statError _], rfl, fun _ => rfl⟩
  | some kind => exact ⟨_, opened_line _ _ _, fun _ => if_neg (by decide)⟩

/-- A directory whose path does not name a directory is not opened. -/
theorem findEntry_missed (base : Path) (e : FileName)
    (hstat : fs.stat (snprintf (base ++ '/' :: e.text)) ≠ some .dir) :
    ∃ out, opened out = [] ∧ ∀ fuel,
      findEntry fs fnmatch opts (findRecursively fs fnmatch opts (fuel + 1)) base
        ⟨e.text, .dir⟩ = some out := by
  have hopen : fs.opendir (snprintf (base ++ '/' :: e.text)) = none := by
    rw [Option.eq_none_iff_forall_ne_some]
    exact fun x hx => hstat (FileSystem.stat_of_opendir hx)
  have hcall (fuel : Nat) : findRecursively fs fnmatch opts (fuel + 1)
      (snprintf (base ++ '/' :: e.text)) = some [.openError (snprintf (base ++ '/' :: e.text))] :=
    walk_fail hopen fuel
  simp only [findEntry, if_pos (And.intro e.ne_dot e.ne_dots)]
  cases fs.stat (snprintf (base ++ '/' :: e.text)) with
  | none => exact ⟨[.statError _], rfl, fun _ => rfl⟩
  | some kind =>
      refine ⟨line fnmatch opts (snprintf (base ++ '/' :: e.text)) e.text kind ++
        [.openError (snprintf (base ++ '/' :: e.text))], ?_, fun fuel => ?_⟩
      · rw [opened_append, opened_line]
        rfl
      · rw [hcall]
        rfl

/-- The directories below whose paths are not cut. -/
def reached (base : Path) (s : Listing) : List Location :=
  (directories s).filter fun rel => (fullPath base rel).length < pathSize

theorem reached_dir (base : Path) (e : FileName) (below rest : Listing) :
    reached base (.dir e below rest) =
      (if (base ++ '/' :: e.text).length < pathSize then
        [e.text] :: (reached (base ++ '/' :: e.text) below).map (e.text :: ·) else []) ++
      reached base rest := by
  have hbelow : ((directories below).map (e.text :: ·)).filter
        (fun rel => (fullPath base rel).length < pathSize) =
      (reached (base ++ '/' :: e.text) below).map (e.text :: ·) := by
    rw [List.filter_map, reached]
    congr 2
    funext rel
    rw [Function.comp_apply, fullPath_cons]
  rw [reached, directories_dir, List.filter_cons, List.filter_append, hbelow, ← reached,
    fullPath_cons, fullPath_nil]
  by_cases hlen : (base ++ '/' :: e.text).length < pathSize
  · simp only [hlen, decide_true, if_true, List.cons_append]
  · -- what is below has a longer path
    have hnone : reached (base ++ '/' :: e.text) below = [] := by
      refine List.filter_eq_nil_iff.mpr fun rel _ => ?_
      have hle := length_le_fullPath (base ++ '/' :: e.text) rel
      simp only [decide_eq_true_eq]
      omega
    simp only [hlen, decide_false, if_false, hnone, List.map_nil, Bool.false_eq_true]

/-- The output of the visits of the entries `s` of a directory. -/
structure Visited (fs : FileSystem) (fnmatch : List Char → List Char → Bool)
    (opts : SearchOptions) (base : Path) (loc : Location) (s : Listing) (out : List Event) :
    Prop where
  /-- The directories are opened whose paths are not cut. -/
  opened_eq : opened out = (reached base s).map (loc ++ ·)
  /-- The output is that of the tree when no path is cut. -/
  found_eq : (∀ e ∈ s.all, (fullPath base e.1).length < pathSize) →
    out = found fnmatch opts base loc s
  visitAll_eq : ∀ fuel, s.depth ≤ fuel →
    visitAll (findEntry fs fnmatch opts (findRecursively fs fnmatch opts fuel) base) s.dirents =
      some out

section
variable {rest below : Listing} {e : FileName} {out inner : List Event}

theorem Visited.file (hopen : fs.opendir base = some (loc, l)) (he : (e, .file) ∈ l.entries)
    (h : Visited fs fnmatch opts base loc rest out) :
    ∃ out', Visited fs fnmatch opts base loc (.file e rest) out' := by
  obtain ⟨first, hnone, hfirst⟩ := findEntry_file base e
  refine ⟨first ++ out, ?_, fun hlen => ?_,
    fun fuel hfuel => visitAll_cons (hfirst _) (h.visitAll_eq fuel hfuel)⟩
  · rw [opened_append, hnone, List.nil_append, h.opened_eq]
    rfl
  · have hhead : (base ++ '/' :: e.text).length < pathSize := by
      simpa using hlen _ List.mem_cons_self
    have hline := (hfirst fun _ => none).symm.trans (findEntry_eq hopen he hhead _)
    rw [h.found_eq fun f hf => hlen f (List.mem_cons_of_mem _ hf), Option.some.inj hline]
    rfl

theorem Visited.dir (hopen : fs.opendir base = some (loc, l)) (he : (e, .dir below) ∈ l.entries)
    (hhead : (base ++ '/' :: e.text).length < pathSize)
    (hinner : Visited fs fnmatch opts (base ++ '/' :: e.text) (loc ++ [e.text]) below inner)
    (h : Visited fs fnmatch opts base loc rest out) :
    Visited fs fnmatch opts base loc (.dir e below rest)
      (line fnmatch opts (base ++ '/' :: e.text) e.text .dir ++
        .heading (loc ++ [e.text]) (base ++ '/' :: e.text) :: inner ++ out) := by
  refine ⟨?_, fun hlen => ?_, fun fuel hfuel => ?_⟩
  · rw [opened_append, opened_append, opened_line, opened_heading, hinner.opened_eq, h.opened_eq,
      reached_dir, if_pos hhead]
    simp
  · rw [h.found_eq fun f hf => hlen f (List.mem_cons_of_mem _ (List.mem_append_right _ hf)),
      hinner.found_eq fun f hf => ?_]
    · rfl
    · rw [← fullPath_cons]
      exact hlen (e.text :: f.1, f.2) (List.mem_cons_of_mem _
        (List.mem_append_left _ (List.mem_map_of_mem hf)))
  · have hdepth : below.depth + 1 ≤ fuel ∧ rest.depth ≤ fuel := max_le_iff.mp hfuel
    obtain ⟨fuel, rfl⟩ : ∃ k, fuel = k + 1 := ⟨fuel - 1, by omega⟩
    exact visitAll_cons (findEntry_dir hopen he hhead
      (hinner.visitAll_eq fuel (Nat.le_of_succ_le_succ hdepth.1))) (h.visitAll_eq _ hdepth.2)

/-- A directory whose path is cut and then names none. -/
theorem Visited.missed (hlong : ¬ (base ++ '/' :: e.text).length < pathSize)
    (hstat : fs.stat (snprintf (base ++ '/' :: e.text)) ≠ some .dir)
    (h : Visited fs fnmatch opts base loc rest out) :
    ∃ out', Visited fs fnmatch opts base loc (.dir e below rest) out' := by
  obtain ⟨first, hnone, hfirst⟩ := findEntry_missed base e hstat
  refine ⟨first ++ out, ?_, fun hlen => ?_, fun fuel hfuel => ?_⟩
  · rw [opened_append, hnone, h.opened_eq, reached_dir, if_neg hlong]
    rfl
  · exact absurd (by simpa using hlen _ List.mem_cons_self) hlong
  · have hdepth : below.depth + 1 ≤ fuel ∧ rest.depth ≤ fuel := max_le_iff.mp hfuel
    obtain ⟨fuel, rfl⟩ : ∃ k, fuel = k + 1 := ⟨fuel - 1, by omega⟩
    exact visitAll_cons (hfirst fuel) (h.visitAll_eq _ hdepth.2)

end

/-- The entries `s` of an open directory are visited when no path that is cut names a
directory. -/
theorem exists_visited (s : Listing) (hopen : fs.opendir base = some (loc, l))
    (hsub : ∀ e ∈ s.entries, e ∈ l.entries)
    (hcut : ∀ rel ∈ directories s, pathSize ≤ (fullPath base rel).length →
      fs.stat (snprintf (fullPath base rel)) ≠ some .dir) :
    ∃ out, Visited fs fnmatch opts base loc s out := by
  induction s generalizing base loc l with
  | nil => exact ⟨[], rfl, fun _ => rfl, fun _ _ => rfl⟩
  | self rest ih | parent rest ih =>
      obtain ⟨out, h⟩ := ih hopen hsub hcut
      exact ⟨out, h.opened_eq, h.found_eq, fun fuel hfuel =>
        visitAll_cons (findEntry_dots _ _ (by simp) _) (h.visitAll_eq fuel hfuel)⟩
  | file e rest ih =>
      obtain ⟨out, h⟩ := ih hopen (fun f hf => hsub f (List.mem_cons_of_mem _ hf)) hcut
      exact h.file hopen (hsub (e, .file) List.mem_cons_self)
  | dir e below rest ihBelow ihRest =>
      rw [directories_dir] at hcut
      have hmem := hsub (e, .dir below) List.mem_cons_self
      obtain ⟨out, h⟩ := ihRest hopen (fun f hf => hsub f (List.mem_cons_of_mem _ hf))
        (fun rel hrel => hcut rel (List.mem_cons_of_mem _ (List.mem_append_right _ hrel)))
      by_cases hhead : (base ++ '/' :: e.text).length < pathSize
      · obtain ⟨inner, hinner⟩ :=
          ihBelow (FileSystem.opendir_child hopen hmem) (fun f hf => hf) fun rel hrel => by
            rw [← fullPath_cons]
            exact hcut _
              (List.mem_cons_of_mem _ (List.mem_append_left _ (List.mem_map_of_mem hrel)))
        exact ⟨_, hinner.dir hopen hmem hhead h⟩
      · have hstat := hcut [e.text] List.mem_cons_self
        rw [fullPath_cons, fullPath_nil] at hstat
        exact h.missed hhead (hstat (Nat.not_lt.mp hhead))

/-- A call, when no path below the directory is cut. -/
theorem findRecursively_eq (hopen : fs.opendir base = some (loc, l))
    (hlen : ∀ e ∈ l.all, (fullPath base e.1).length < pathSize) {fuel : Nat}
    (hfuel : l.depth < fuel) :
    findRecursively fs fnmatch opts fuel base =
      some (.heading loc base :: found fnmatch opts base loc l) := by
  have hcut : ∀ rel ∈ directories l, pathSize ≤ (fullPath base rel).length →
      fs.stat (snprintf (fullPath base rel)) ≠ some .dir := by
    intro rel hrel hlong
    obtain ⟨e, he, rfl⟩ := List.mem_map.mp hrel
    exact absurd hlong (Nat.not_le.mpr (hlen e (List.mem_of_mem_filter he)))
  obtain ⟨fuel, rfl⟩ : ∃ k, fuel = k + 1 := ⟨fuel - 1, by omega⟩
  obtain ⟨out, h⟩ := exists_visited l hopen (fun e he => he) hcut
  rw [findRecursively_succ hopen, h.visitAll_eq fuel (by omega), h.found_eq hlen, Option.map_some]

/-- The files below an open directory, by their locations. -/
theorem mem_all_iff (hopen : fs.opendir base = some (loc, l)) {n : Node} :
    (rel, n) ∈ l.all ↔ rel ≠ [] ∧ fs.node (loc ++ rel) = some n := by
  have hnode := (FileSystem.opendir_eq_some.mp hopen).2
  rw [Listing.mem_all (FileSystem.distinct_of_node hnode), FileSystem.node_below hnode]

theorem mem_directories_iff (hopen : fs.opendir base = some (loc, l)) :
    rel ∈ directories l ↔ rel ≠ [] ∧ ∃ l', fs.node (loc ++ rel) = some (.dir l') := by
  constructor
  · intro hmem
    obtain ⟨⟨_, n⟩, hn, rfl⟩ := List.mem_map.mp hmem
    obtain ⟨hn, hkind⟩ := List.mem_filter.mp hn
    obtain ⟨hne, hnode⟩ := (mem_all_iff hopen).mp hn
    cases n with
    | file => simp [Node.kind] at hkind
    | dir l' => exact ⟨hne, l', hnode⟩
  · rintro ⟨hne, l', hnode⟩
    have hmem := (mem_all_iff hopen).mpr ⟨hne, hnode⟩
    exact List.mem_map.mpr ⟨_, List.mem_filter.mpr ⟨hmem, by simp [Node.kind]⟩, rfl⟩

theorem distinct_of_opendir (hopen : fs.opendir base = some (loc, l)) : l.Distinct :=
  FileSystem.distinct_of_node (FileSystem.opendir_eq_some.mp hopen).2

theorem nodup_printed (hopen : fs.opendir base = some (loc, l)) :
    (printed (found fnmatch opts base loc l)).Nodup := by
  have hdistinct := distinct_of_opendir hopen
  have hall := Listing.nodup_all hdistinct
  rw [printed_found]
  refine List.Nodup.map_on (fun e he f hf heq => ?_) (hall.of_map.filter _)
  have he := List.mem_of_mem_filter he
  have hf := List.mem_of_mem_filter hf
  -- The names have no slash, so the path gives them back.
  have hrel : e.1 = f.1 := fullPath_inj
    (Node.no_slash_of_at ((Listing.mem_all hdistinct).mp he).2)
    (Node.no_slash_of_at ((Listing.mem_all hdistinct).mp hf).2) heq
  exact List.inj_on_of_nodup_map hall he hf hrel

theorem nodup_directories (h : l.Distinct) : (directories l).Nodup :=
  List.Nodup.sublist (List.Sublist.map _ List.filter_sublist) (Listing.nodup_all h)

theorem heading_or_entry (base : Path) (loc : Location) (l : Listing) :
    ∀ ev ∈ found fnmatch opts base loc l,
      (∃ d path, ev = .heading d path) ∨ ∃ path, ev = .entry path := by
  have hline : ∀ (path : Path) (name : List Char) (kind : Kind),
      ∀ ev ∈ line fnmatch opts path name kind, ∃ path, ev = .entry path := by
    intro path name kind ev hev
    rw [line] at hev
    split at hev
    · exact ⟨path, List.mem_singleton.mp hev⟩
    · cases hev
  induction l generalizing base loc with
  | nil => exact fun ev hev => absurd hev List.not_mem_nil
  | self rest ih | parent rest ih => exact ih base loc
  | file e rest ih =>
      intro ev hev
      rcases List.mem_append.mp hev with hev | hev
      · exact .inr (hline _ _ _ ev hev)
      · exact ih base loc ev hev
  | dir e below rest ihBelow ihRest =>
      intro ev hev
      rw [found, List.append_assoc, List.mem_append, List.mem_append, List.mem_cons] at hev
      rcases hev with hev | (rfl | hev) | hev
      · exact .inr (hline _ _ _ ev hev)
      · exact .inl ⟨_, _, rfl⟩
      · exact ihBelow _ _ ev hev
      · exact ihRest base loc ev hev

end

/-! ## Whole runs -/

/-- A name of `n + 1` letters. -/
def letters (n : Nat) : FileName where
  text := List.replicate (n + 1) 'a'
  ne_nil := by simp
  no_slash h := absurd (List.eq_of_mem_replicate h) (by decide)
  ne_dot := by simp [List.replicate_succ]
  ne_dots := by simp [List.replicate_succ]

theorem length_letters (n : Nat) : (letters n).text.length = n + 1 := List.length_replicate

theorem opendir_slash (fs : FileSystem) : fs.opendir ['/'] = some ([], fs.root) := by
  refine FileSystem.opendir_eq_some.mpr ⟨?_, rfl⟩
  have hsplit : ['/'].splitOn '/' = [[], []] := by decide
  simp [FileSystem.resolve, hsplit, FileSystem.step, FileSystem.node]

/-- A directory with one file. -/
def smallTree : FileSystem where
  root := .parent (.dir (letters 0) (.file (letters 1) .nil) (.self .nil))
  distinct := by simp [Listing.Distinct, Listing.names, Listing.entries]
  cwd := []

theorem smallTree_short (rel : Location) (n : Node) (hne : rel ≠ [])
    (hnode : smallTree.node ([] ++ rel) = some n) :
    (fullPath ['/'] rel).length < pathSize := by
  have hmem := (mem_all_iff (opendir_slash smallTree)).mpr ⟨hne, hnode⟩
  have hcases : rel = [(letters 0).text] ∨ rel = [(letters 0).text, (letters 1).text] := by
    simp only [smallTree, Listing.all, List.map_cons, List.map_nil, List.mem_cons, Prod.mk.injEq,
      List.singleton_append, List.not_mem_nil, or_false] at hmem
    exact hmem.imp And.left And.left
  rcases hcases with rfl | rfl <;> simp [length_letters, pathSize]

/-- Every entry below the directory at `loc` that the options select is printed exactly
once, and apart from the headings nothing else is. -/
theorem findRecursively_exact (fs : FileSystem) (fnmatch : List Char → List Char → Bool)
    (opts : SearchOptions) {base : Path} {loc : Location} {l : Listing}
    (hopen : fs.opendir base = some (loc, l))
    (hshort : ∀ rel n, rel ≠ [] → fs.node (loc ++ rel) = some n →
      (fullPath base rel).length < pathSize) :
    ∃ out, (∀ fuel, l.depth < fuel → findRecursively fs fnmatch opts fuel base = some out) ∧
      (∀ ev ∈ out, (∃ d path, ev = .heading d path) ∨ ∃ path, ev = .entry path) ∧
      (printed out).Nodup ∧
      ∀ path, path ∈ printed out ↔ ∃ rel n, rel ≠ [] ∧ fs.node (loc ++ rel) = some n ∧
        selected fnmatch opts rel n.kind = true ∧ path = fullPath base rel := by
  have hlen : ∀ e ∈ l.all, (fullPath base e.1).length < pathSize := by
    intro e he
    obtain ⟨hne, hnode⟩ := (mem_all_iff hopen).mp he
    exact hshort e.1 e.2 hne hnode
  refine ⟨_, fun fuel hfuel => findRecursively_eq hopen hlen hfuel, ?_, ?_, fun path => ?_⟩
  · exact List.forall_mem_cons.mpr ⟨.inl ⟨_, _, rfl⟩, heading_or_entry base loc l⟩
  · exact nodup_printed hopen
  · rw [printed_heading, printed_found]
    simp only [List.mem_map, List.mem_filter, Prod.exists, mem_all_iff hopen]
    grind

theorem smallTree_printed : smallTree.opendir ['/'] = some ([], smallTree.root) ∧
    ∃ out, (∀ fuel, smallTree.root.depth < fuel →
        findRecursively smallTree (fun _ _ => false) ⟨none, 'f'⟩ fuel ['/'] = some out) ∧
      (printed out).Nodup ∧ ['/', '/', 'a', '/', 'a', 'a'] ∈ printed out := by
  obtain ⟨out, hout, -, hnodup, hmem⟩ := findRecursively_exact smallTree (fun _ _ => false)
    ⟨none, 'f'⟩ (opendir_slash smallTree) smallTree_short
  refine ⟨opendir_slash smallTree, out, hout, hnodup, (hmem _).mpr ?_⟩
  exact ⟨[['a'], ['a', 'a']], .file, by decide, rfl, rfl, rfl⟩

/-! ## Paths that are cut -/

section
variable {fs : FileSystem} {fnmatch : List Char → List Char → Bool} {opts : SearchOptions}
  {base : Path} {loc : Location} {l : Listing} {e : FileName} {below : Listing} {fuel : Nat}
  {out : List Event}

theorem opened_flatMap {α : Type} (ds : List α) (F : α → List Event) :
    opened (ds.flatMap F) = ds.flatMap fun d => opened (F d) := by
  induction ds with
  | nil => rfl
  | cons d ds ih => rw [List.flatMap_cons, opened_append, ih, List.flatMap_cons]

/-- A call that ends, by the visits of the entries. -/
theorem findRecursively_some (hopen : fs.opendir base = some (loc, l))
    (h : findRecursively fs fnmatch opts (fuel + 1) base = some out) :
    ∃ F : Dirent → List Event, opened out = loc :: l.dirents.flatMap (fun d => opened (F d)) ∧
      ∀ d ∈ l.dirents,
        findEntry fs fnmatch opts (findRecursively fs fnmatch opts fuel) base d = some (F d) := by
  rw [findRecursively_succ hopen] at h
  obtain ⟨inner, hinner, rfl⟩ := Option.map_eq_some_iff.mp h
  obtain ⟨hall, hflat⟩ := visitAll_eq_some hinner
  refine ⟨fun d =>
      (findEntry fs fnmatch opts (findRecursively fs fnmatch opts fuel) base d).getD [],
    ?_, fun d hd => ?_⟩
  · rw [opened_heading, hflat, opened_flatMap]
  · obtain ⟨o, ho⟩ := hall d hd
    simp only [ho, Option.getD_some]

/-- The visit of a directory calls `find_recursively` with its path. -/
theorem findEntry_some (hstat : fs.stat (snprintf (base ++ '/' :: e.text)) = some .dir)
    (h : findEntry fs fnmatch opts (findRecursively fs fnmatch opts fuel) base ⟨e.text, .dir⟩ =
      some out) :
    ∃ inner, findRecursively fs fnmatch opts fuel (snprintf (base ++ '/' :: e.text)) = some inner ∧
      opened out = opened inner := by
  simp only [findEntry, if_pos (And.intro e.ne_dot e.ne_dots), hstat, if_true] at h
  obtain ⟨inner, hinner, rfl⟩ := Option.map_eq_some_iff.mp h
  exact ⟨inner, hinner, by rw [opened_append, opened_line, List.nil_append]⟩

/-- The visit of a directory ends only if that of each directory in it does. -/
theorem findRecursively_child (hopen : fs.opendir base = some (loc, l))
    (he : (e, .dir below) ∈ l.entries)
    (hstat : fs.stat (snprintf (base ++ '/' :: e.text)) = some .dir)
    (hcall : findRecursively fs fnmatch opts fuel (snprintf (base ++ '/' :: e.text)) = none) :
    findRecursively fs fnmatch opts (fuel + 1) base = none := by
  refine Option.eq_none_iff_forall_ne_some.mpr fun out h => ?_
  obtain ⟨F, -, hF⟩ := findRecursively_some hopen h
  obtain ⟨inner, hinner, -⟩ := findEntry_some hstat (hF _ (Listing.mem_dirents he))
  cases hcall.symm.trans hinner

/-- A path that fills the array names the directory itself when it is continued. -/
theorem snprintf_of_full {text : List Char} (h : base.length = pathSize - 1) :
    snprintf (base ++ text) = base := by
  rw [snprintf, ← h, List.take_left]

theorem findRecursively_loop (hopen : fs.opendir base = some (loc, l))
    (hfull : base.length = pathSize - 1) (he : (e, .dir below) ∈ l.entries) (fuel : Nat) :
    findRecursively fs fnmatch opts fuel base = none := by
  induction fuel with
  | zero => rfl
  | succ fuel ih =>
      refine findRecursively_child hopen he ?_ ?_
      · rw [snprintf_of_full hfull, FileSystem.stat_of_opendir hopen]
      · rw [snprintf_of_full hfull, ih]

/-- The recursion does not end where some directory below has subdirectories and a path
that fills the array. -/
theorem findRecursively_diverges (hopen : fs.opendir base = some (loc, l)) {rel : Location}
    {l' : Listing} (hat : (Node.dir l).at rel = some (.dir l'))
    (hfull : (fullPath base rel).length = pathSize - 1) (he : (e, .dir below) ∈ l'.entries)
    (fuel : Nat) :
    findRecursively fs fnmatch opts fuel base = none := by
  induction rel generalizing base loc l fuel with
  | nil =>
      cases hat
      rw [fullPath_nil] at hfull
      exact findRecursively_loop hopen hfull he fuel
  | cons name rel ih =>
      obtain ⟨n, hlookup, hat⟩ := Option.bind_eq_some_iff.mp hat
      obtain ⟨f, hf, rfl⟩ := Listing.mem_of_lookup hlookup
      cases n with
      | file => cases rel <;> cases hat
      | dir b =>
          rw [fullPath_cons] at hfull
          have hlen : (base ++ '/' :: f.text).length < pathSize := by
            have hle := length_le_fullPath (base ++ '/' :: f.text) rel
            simp only [pathSize] at hfull ⊢
            omega
          cases fuel with
          | zero => rfl
          | succ fuel =>
              refine findRecursively_child hopen hf ?_ ?_
              · rw [snprintf_of_lt hlen, FileSystem.stat_child hopen hf]
                rfl
              · rw [snprintf_of_lt hlen]
                exact ih (FileSystem.opendir_child hopen hf) hat hfull fuel

/-- The cut does not see what comes after. -/
theorem snprintf_append {text : List Char} (h : pathSize ≤ text.length) (more : List Char) :
    snprintf (text ++ more) = snprintf text :=
  List.take_append_of_le_length (by omega)

/-- What the path of a directory can name when it is cut: a directory with a subdirectory,
or another entry of the directory that it is in. -/
theorem cut_names (hopen : fs.opendir base = some (loc, l)) (hbase : base.length < pathSize)
    (he : (e, .dir below) ∈ l.entries) (hlong : pathSize ≤ (base ++ '/' :: e.text).length)
    {d : Location} {ld : Listing}
    (hcut : fs.opendir (snprintf (base ++ '/' :: e.text)) = some (d, ld)) :
    (∃ f b, (f, .dir b) ∈ ld.entries) ∨
      ∃ g, (g, .dir ld) ∈ l.entries ∧ g.text ≠ e.text ∧ d = loc ++ [g.text] ∧
        snprintf (base ++ '/' :: e.text) = base ++ '/' :: g.text := by
  obtain ⟨hresolve, hnode⟩ := FileSystem.opendir_eq_some.mp hopen
  by_cases hfull : base.length = pathSize - 1
  · rw [snprintf_of_full hfull, hopen] at hcut
    cases hcut
    exact .inl ⟨e, below, he⟩
  · have hname : snprintf (base ++ '/' :: e.text) =
        base ++ '/' :: e.text.take (pathSize - 2 - base.length) := by
      have hsub : pathSize - 1 - base.length = (pathSize - 2 - base.length) + 1 := by omega
      rw [snprintf, List.take_append, List.take_of_length_le (by omega), hsub, List.take_succ_cons]
    have hslash : '/' ∉ e.text.take (pathSize - 2 - base.length) :=
      fun h => e.no_slash (List.mem_of_mem_take h)
    rw [hname] at hcut ⊢
    obtain ⟨hd, hld⟩ := FileSystem.opendir_eq_some.mp hcut
    rw [FileSystem.resolve_append_cons hresolve hslash] at hd
    rcases FileSystem.step_cases hd with ⟨-, rfl⟩ | ⟨-, rfl⟩ | ⟨-, -, -, rfl⟩
    · rw [hnode] at hld
      cases hld
      exact .inl ⟨e, below, he⟩
    · -- the directory above, which has this one
      rcases List.eq_nil_or_concat loc with rfl | ⟨above, name, rfl⟩
      · rw [List.dropLast_nil, hnode] at hld
        cases hld
        exact .inl ⟨e, below, he⟩
      · rw [List.concat_eq_append, List.dropLast_concat] at hld
        rw [List.concat_eq_append] at hnode
        obtain ⟨f, hf, -⟩ := FileSystem.mem_entries_of_node hld hnode
        exact .inl ⟨f, l, hf⟩
    · obtain ⟨g, hg, htext⟩ := FileSystem.mem_entries_of_node hnode hld
      refine .inr ⟨g, hg, ?_, by rw [htext], by rw [htext]⟩
      intro hsame
      have hlen := congrArg List.length (hsame.symm.trans htext)
      rw [List.length_take] at hlen
      simp only [List.length_append, List.length_cons] at hlong
      omega

theorem count_flatMap_of_mem {α β : Type} [BEq β] [LawfulBEq β]
    {F : α → List β} {ds : List α} {x : β} {a b : α}
    (ha : a ∈ ds) (hb : b ∈ ds) (hab : a ≠ b) (hxa : x ∈ F a) (hxb : x ∈ F b) :
    2 ≤ (ds.flatMap F).count x := by
  obtain ⟨before, behind, rfl⟩ := List.append_of_mem ha
  have hone := List.one_le_count_iff.mpr hxa
  have hmem : b ∈ before ∨ b ∈ behind := by simpa [hab.symm] using hb
  rw [List.flatMap_append, List.flatMap_cons, List.count_append, List.count_append]
  rcases hmem with hb | hb
  all_goals
    have htwo := List.one_le_count_iff.mpr (List.mem_flatMap.mpr ⟨b, hb, hxb⟩)
    omega

/-- A call that ends has opened the directory. -/
theorem mem_opened_of_some {d : Location} (hopen : fs.opendir base = some (d, l))
    (h : findRecursively fs fnmatch opts fuel base = some out) :
    d ∈ opened out := by
  cases fuel with
  | zero => cases h
  | succ fuel =>
      obtain ⟨F, hopened, -⟩ := findRecursively_some hopen h
      rw [hopened]
      exact List.mem_cons_self

/-- When the path of a directory below names a directory after it is cut, the recursion does
not end or opens a directory of the tree twice. -/
theorem opened_twice (hopen : fs.opendir base = some (loc, l)) (hbase : base.length < pathSize)
    {rel : Location} {l' : Listing} (hat : (Node.dir l).at rel = some (.dir l'))
    (hlong : pathSize ≤ (fullPath base rel).length)
    (hstat : fs.stat (snprintf (fullPath base rel)) = some .dir)
    (h : findRecursively fs fnmatch opts fuel base = some out) :
    ∃ rel', 2 ≤ (opened out).count (loc ++ rel') := by
  -- along the way to the directory; the first path that is cut is the one of the directory
  induction rel generalizing base loc l fuel out with
  | nil =>
      rw [fullPath_nil] at hlong
      omega
  | cons name rel ih =>
      cases fuel with
      | zero => cases h
      | succ fuel =>
      obtain ⟨n, hlookup, hat⟩ := Option.bind_eq_some_iff.mp hat
      obtain ⟨f, hf, rfl⟩ := Listing.mem_of_lookup hlookup
      cases n with
      | file => cases rel <;> cases hat
      | dir b =>
      rw [fullPath_cons] at hlong hstat
      obtain ⟨F, hopened, hF⟩ := findRecursively_some hopen h
      have hmem : (⟨f.text, .dir⟩ : Dirent) ∈ l.dirents := Listing.mem_dirents hf
      rw [hopened]
      by_cases hlen : (base ++ '/' :: f.text).length < pathSize
      · have hchild : fs.stat (snprintf (base ++ '/' :: f.text)) = some .dir := by
          rw [snprintf_of_lt hlen, FileSystem.stat_child hopen hf]
          rfl
        obtain ⟨inner, hinner, hsame⟩ := findEntry_some hchild (hF _ hmem)
        rw [snprintf_of_lt hlen] at hinner
        obtain ⟨rel', hcount⟩ :=
          ih (FileSystem.opendir_child hopen hf) hlen hat hlong hstat hinner
        refine ⟨f.text :: rel', ?_⟩
        rw [← hsame, List.append_assoc, List.singleton_append] at hcount
        refine hcount.trans (List.Sublist.count_le _ ?_)
        have hpart : opened (F ⟨f.text, .dir⟩) ∈ l.dirents.map fun d => opened (F d) :=
          List.mem_map.mpr ⟨_, hmem, rfl⟩
        rw [List.flatMap_def]
        exact (List.sublist_flatten_of_mem hpart).cons _
      · have hlen := Nat.not_lt.mp hlen
        have hpath : snprintf (fullPath (base ++ '/' :: f.text) rel) =
            snprintf (base ++ '/' :: f.text) := snprintf_append hlen _
        rw [hpath] at hstat
        obtain ⟨d, ld, hcut⟩ := FileSystem.exists_opendir_of_stat hstat
        obtain ⟨inner, hinner, hsame⟩ := findEntry_some hstat (hF _ hmem)
        have hfull : (snprintf (base ++ '/' :: f.text)).length = pathSize - 1 := by
          rw [snprintf, List.length_take]
          omega
        rcases cut_names hopen hbase hf hlen hcut with ⟨g, bg, hg⟩ | ⟨g, hg, hne, rfl, hname⟩
        · rw [findRecursively_loop hcut hfull hg fuel] at hinner
          cases hinner
        · -- the other entry is visited, too
          have hother : fs.stat (snprintf (base ++ '/' :: g.text)) = some .dir := by
            rw [← hname, snprintf_of_lt (by omega)]
            exact hstat
          have hmem' : (⟨g.text, .dir⟩ : Dirent) ∈ l.dirents := Listing.mem_dirents hg
          obtain ⟨inner', hinner', hsame'⟩ := findEntry_some hother (hF _ hmem')
          rw [← hname, snprintf_of_lt (by omega)] at hinner'
          have hd := mem_opened_of_some hcut hinner
          have hd' := mem_opened_of_some hcut hinner'
          refine ⟨[g.text], ?_⟩
          refine (count_flatMap_of_mem hmem' hmem ?_ ?_ ?_).trans
            (List.Sublist.count_le _ (List.sublist_cons_self _ _))
          · exact fun heq => hne (Dirent.mk.inj heq).1
          · rw [hsame']
            exact hd'
          · rw [hsame]
            exact hd

end

/-- No path of a directory below names a directory when it is cut. -/
def CutsMiss (fs : FileSystem) (base : Path) (loc : Location) : Prop :=
  ∀ rel l', rel ≠ [] → fs.node (loc ++ rel) = some (.dir l') →
    pathSize ≤ (fullPath base rel).length → fs.stat (snprintf (fullPath base rel)) ≠ some .dir

/-- The recursion ends and opens each directory of the tree at most once exactly if no path of
a directory names a directory when it is cut.  It then opens the directories whose paths are
not cut, each exactly once. -/
theorem findRecursively_opensOnce_iff (fs : FileSystem) (fnmatch : List Char → List Char → Bool)
    (opts : SearchOptions) {base : Path} {loc : Location} {l : Listing}
    (hopen : fs.opendir base = some (loc, l)) :
    (CutsMiss fs base loc → ∃ out,
      (∀ fuel, l.depth < fuel → findRecursively fs fnmatch opts fuel base = some out) ∧
      (opened out).Nodup ∧
      ∀ d, d ∈ opened out ↔ ∃ rel l', d = loc ++ rel ∧ fs.node d = some (.dir l') ∧
        (rel = [] ∨ (fullPath base rel).length < pathSize)) ∧
    (base.length < pathSize → (∃ fuel out, findRecursively fs fnmatch opts fuel base = some out ∧
      ∀ rel, (opened out).count (loc ++ rel) ≤ 1) → CutsMiss fs base loc) := by
  have hnode := (FileSystem.opendir_eq_some.mp hopen).2
  constructor
  · intro hmiss
    have hcut : ∀ rel ∈ directories l, pathSize ≤ (fullPath base rel).length →
        fs.stat (snprintf (fullPath base rel)) ≠ some .dir := by
      intro rel hrel
      obtain ⟨hne, l', hdir⟩ := (mem_directories_iff hopen).mp hrel
      exact hmiss rel l' hne hdir
    obtain ⟨out, hopened, -, hout⟩ := exists_visited l hopen (fun e he => he) hcut
    refine ⟨.heading loc base :: out, fun fuel hfuel => ?_, ?_, fun d => ?_⟩
    · obtain ⟨fuel, rfl⟩ : ∃ k, fuel = k + 1 := ⟨fuel - 1, by omega⟩
      rw [findRecursively_succ hopen, hout fuel (by omega), Option.map_some]
    · rw [opened_heading, hopened]
      refine List.nodup_cons.mpr ⟨fun hmem => ?_, ?_⟩
      · obtain ⟨rel, hrel, heq⟩ := List.mem_map.mp hmem
        exact ((mem_directories_iff hopen).mp (List.mem_of_mem_filter hrel)).1
          (List.append_right_eq_self.mp heq)
      · exact ((nodup_directories (distinct_of_opendir hopen)).filter _).map
          (List.append_right_injective loc)
    · rw [opened_heading, hopened, List.mem_cons, List.mem_map]
      constructor
      · rintro (rfl | ⟨rel, hrel, rfl⟩)
        · exact ⟨[], l, (List.append_nil d).symm, hnode, .inl rfl⟩
        · obtain ⟨hrel, hlen⟩ := List.mem_filter.mp hrel
          obtain ⟨-, l', hdir⟩ := (mem_directories_iff hopen).mp hrel
          exact ⟨rel, l', rfl, hdir, .inr (of_decide_eq_true hlen)⟩
      · rintro ⟨rel, l', rfl, hdir, hlen⟩
        by_cases hne : rel = []
        · exact .inl (by rw [hne, List.append_nil])
        · exact .inr ⟨rel, List.mem_filter.mpr ⟨(mem_directories_iff hopen).mpr ⟨hne, l', hdir⟩,
            decide_eq_true (hlen.resolve_left hne)⟩, rfl⟩
  · rintro hbase ⟨fuel, out, hout, honce⟩ rel l' - hdir hlong hstat
    rw [FileSystem.node_below hnode] at hdir
    obtain ⟨rel', htwice⟩ := opened_twice hopen hbase hdir hlong hstat hout
    have hle := honce rel'
    omega

/-- Five nested directories, the last with the name `aa`. -/
def longTree : FileSystem where
  root := .dir (letters 253) (.dir (letters 253) (.dir (letters 253) (.dir (letters 253)
    (.dir (letters 1) .nil .nil) .nil) .nil) .nil) .nil
  distinct := by simp [Listing.Distinct, Listing.names, Listing.entries]
  cwd := []

/-- The way to the fourth of them. -/
def longLocation : Location := List.replicate 4 (letters 253).text

theorem longTree_opendir : longTree.opendir (fullPath ['/'] longLocation) =
    some (longLocation, .dir (letters 1) .nil .nil) := by
  have h1 := FileSystem.opendir_child (opendir_slash longTree) List.mem_cons_self
  have h2 := FileSystem.opendir_child h1 List.mem_cons_self
  have h3 := FileSystem.opendir_child h2 List.mem_cons_self
  simpa [longLocation, List.replicate_succ] using FileSystem.opendir_child h3 List.mem_cons_self

theorem longTree_length : (fullPath ['/'] longLocation).length = 1021 := by
  simp [fullPath, longLocation, List.replicate_succ, length_letters]

/-- The path of the fifth directory is cut behind the first letter of its name. -/
theorem longTree_cut : snprintf (fullPath ['/'] (longLocation ++ [(letters 1).text])) =
    fullPath ['/'] longLocation ++ '/' :: ['a'] := by
  have hpath : fullPath ['/'] (longLocation ++ [(letters 1).text]) =
      fullPath ['/'] longLocation ++ ['/', 'a', 'a'] := by
    simp [fullPath, letters]
  rw [hpath, snprintf, List.take_append, longTree_length, List.take_of_length_le
    (by rw [longTree_length]; decide)]
  rfl

theorem longTree_stat : longTree.stat (fullPath ['/'] longLocation ++ '/' :: ['a']) = none := by
  obtain ⟨hresolve, hnode⟩ := FileSystem.opendir_eq_some.mp longTree_opendir
  have hstep : longTree.step longLocation ['a'] = none := by
    simp only [FileSystem.step, hnode]
    decide
  rw [FileSystem.stat, FileSystem.resolve_append_cons hresolve (by decide), hstep, Option.bind_none]

theorem longTree_cutsMiss : CutsMiss longTree ['/'] [] := by
  intro rel l' hne hnode hlong
  have hmem := (mem_directories_iff (opendir_slash longTree)).mpr ⟨hne, l', hnode⟩
  have hnil : directories .nil = [] := rfl
  simp only [longTree, directories_dir, hnil, List.map_cons, List.map_nil, List.append_nil,
    List.mem_cons, List.not_mem_nil, or_false] at hmem
  rcases hmem with rfl | rfl | rfl | rfl | rfl
  case inr.inr.inr.inr =>
    have hcut := longTree_cut
    simp only [longLocation, List.replicate_succ, List.replicate_zero, List.cons_append,
      List.nil_append] at hcut
    rw [hcut]
    exact fun h => Option.some_ne_none _ (h.symm.trans longTree_stat)
  -- the paths of the others are not cut
  all_goals simp [length_letters, pathSize] at hlong

/-- The path of the fifth directory is cut and names nothing, and the other four are opened. -/
theorem longTree_opened : longTree.opendir ['/'] = some ([], longTree.root) ∧
    ∃ out, (∀ fuel, longTree.root.depth < fuel →
        findRecursively longTree (fun _ _ => false) ⟨none, 'f'⟩ fuel ['/'] = some out) ∧
      (opened out).Nodup ∧ longLocation ∈ opened out ∧
      longLocation ++ [(letters 1).text] ∉ opened out := by
  obtain ⟨out, hout, hnodup, hmem⟩ := (findRecursively_opensOnce_iff longTree (fun _ _ => false)
    ⟨none, 'f'⟩ (opendir_slash longTree)).1 longTree_cutsMiss
  refine ⟨opendir_slash longTree, out, hout, hnodup, (hmem _).mpr ?_, fun hlast => ?_⟩
  · refine ⟨longLocation, _, rfl, (FileSystem.opendir_eq_some.mp longTree_opendir).2, .inr ?_⟩
    rw [longTree_length]
    decide
  · obtain ⟨rel, -, heq, -, hshort⟩ := (hmem _).mp hlast
    rw [List.nil_append] at heq
    subst heq
    rcases hshort with hnil | hshort
    · cases hnil
    · simp [fullPath, longLocation, List.replicate_succ, length_letters, pathSize] at hshort

/-- Six nested directories. -/
def deepTree : FileSystem where
  root := .dir (letters 253) (.dir (letters 253) (.dir (letters 253) (.dir (letters 253)
    (.dir (letters 0) (.dir (letters 0) .nil .nil) .nil) .nil) .nil) .nil) .nil
  distinct := by simp [Listing.Distinct, Listing.names, Listing.entries]
  cwd := []

/-- The way to the fifth of them, whose path from `/` has 1023 bytes. -/
def deepLocation : Location :=
  List.replicate 4 (letters 253).text ++ [(letters 0).text]

theorem deepTree_at : (Node.dir deepTree.root).at deepLocation =
    some (.dir (.dir (letters 0) .nil .nil)) := by
  simp [deepTree, deepLocation, List.replicate_succ, Node.at, Listing.lookup_dir]

theorem deepTree_full : (fullPath ['/'] deepLocation).length = pathSize - 1 := by
  simp [fullPath, deepLocation, List.replicate_succ, length_letters, pathSize]

/-- From `/` the recursion comes to the fifth directory.  There the path of the sixth is
cut to the path of the fifth, which is opened again, without end. -/
theorem deepTree_reenters :
    snprintf (fullPath ['/'] deepLocation ++ '/' :: (letters 0).text) =
        fullPath ['/'] deepLocation ∧
      ∀ fuel, findRecursively deepTree (fun _ _ => false) ⟨none, '\x00'⟩ fuel ['/'] = none :=
  ⟨snprintf_of_full deepTree_full, fun fuel =>
    findRecursively_diverges (opendir_slash deepTree) deepTree_at deepTree_full
      List.mem_cons_self fuel⟩

end OsCourse.Find
