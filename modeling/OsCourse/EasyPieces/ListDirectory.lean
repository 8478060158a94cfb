import OsCourse.EasyPieces.Find

/-!
# The recursive listing

`list_directory_recursively` prints the path of every entry and calls itself with the
path of each entry that is a directory.  It joins the two parts of a path without a
slash.

So everything that a call prints is the start path with some letters more
(`eq_append_of_printed`), and names a file next to the start directory, or one in it
if the start path ends with a slash.  Nothing that is deeper is ever named.
-/

namespace OsCourse.ListDirectory

open Find (Event snprintf pathSize printed opened)

/-- The body of the loop over the entries. -/
def listEntry (recurse : Path → Option (List Event)) (base : Path) (dp : Dirent) :
    Option (List Event) :=
  if dp.name ≠ ['.'] ∧ dp.name ≠ ['.', '.'] then
    let path := snprintf (base ++ dp.name)
    if dp.kind = .dir then (recurse path).map (.entry path :: ·)
    else some [.entry path]
  else some []

def listDirectoryRecursively (fs : FileSystem) : Nat → Path → Option (List Event) :=
  walk fs .heading .openError listEntry

/-- `Error: %s is not a directory or does not exist.` is the error. -/
def main (fs : FileSystem) (fuel : Nat) (args : List Path) : Option (Except Path (List Event)) :=
  let startPath := args.headD ['.']
  if fs.stat startPath = some .dir then
    (listDirectoryRecursively fs fuel startPath).map .ok
  else some (.error startPath)

/-- Every file below the directory at `loc` is named by exactly one printed path, and
every directory below it is opened. -/
def VisitsWholeTree (fs : FileSystem) (base : Path) (loc : Location) : Prop :=
  ∃ out, (∃ bound, ∀ fuel, bound ≤ fuel → listDirectoryRecursively fs fuel base = some out) ∧
    ∀ rel n, rel ≠ [] → fs.node (loc ++ rel) = some n →
      (printed out).countP (fun path => fs.resolve path = some (loc ++ rel)) = 1 ∧
        (n.kind = .dir → loc ++ rel ∈ opened out)

/-! ## The paths that are printed -/

section
variable {fs : FileSystem} {base path : Path} {loc : Location} {l : Listing}

theorem listDirectoryRecursively_succ (hopen : fs.opendir base = some (loc, l)) (fuel : Nat) :
    listDirectoryRecursively fs (fuel + 1) base =
      (visitAll (listEntry (listDirectoryRecursively fs fuel) base) l.dirents).map
        (.heading loc base :: ·) :=
  walk_succ hopen fuel

variable {out : List Event} {fuel : Nat} {rel : Location} {name : List Char} {n : Node}

/-- What is printed for an entry is its path or comes from the call with it. -/
theorem printed_listEntry {recurse : Path → Option (List Event)} {dp : Dirent}
    (h : listEntry recurse base dp = some out) (hpath : path ∈ printed out) :
    dp.name ≠ ['.'] ∧ dp.name ≠ ['.', '.'] ∧
      (path = snprintf (base ++ dp.name) ∨
        ∃ inner, recurse (snprintf (base ++ dp.name)) = some inner ∧ path ∈ printed inner) := by
  rw [listEntry] at h
  split at h
  · next hname =>
      refine ⟨hname.1, hname.2, ?_⟩
      simp only at h
      split at h
      · obtain ⟨inner, hinner, rfl⟩ := Option.map_eq_some_iff.mp h
        rcases List.mem_cons.mp (Find.mem_printed.mp hpath) with heq | hmem
        · exact .inl (Event.entry.inj heq)
        · exact .inr ⟨inner, hinner, Find.mem_printed.mpr hmem⟩
      · cases h
        exact .inl (List.mem_singleton.mp hpath)
  · cases h
    cases hpath

theorem printed_call (h : listDirectoryRecursively fs (fuel + 1) base = some out)
    (hpath : path ∈ printed out) :
    ∃ loc l, fs.opendir base = some (loc, l) ∧ ∃ dp ∈ l.dirents, ∃ o,
      listEntry (listDirectoryRecursively fs fuel) base dp = some o ∧ path ∈ printed o := by
  cases hopen : fs.opendir base with
  | none =>
      rw [listDirectoryRecursively, walk, hopen] at h
      cases h
      cases hpath
  | some opened =>
      obtain ⟨loc, l⟩ := opened
      rw [listDirectoryRecursively_succ hopen] at h
      obtain ⟨visited, hvisited, rfl⟩ := Option.map_eq_some_iff.mp h
      have hmem : .entry path ∈ visited := Find.mem_printed.mp hpath
      obtain ⟨dp, hdp, o, ho, hmem⟩ := mem_visitAll hvisited hmem
      exact ⟨loc, l, rfl, dp, hdp, o, ho, Find.mem_printed.mpr hmem⟩

theorem snprintf_append (hbase : base.length < pathSize) (name : List Char) :
    ∃ w, snprintf (base ++ name) = base ++ w ∧ ∀ c ∈ w, c ∈ name := by
  refine ⟨name.take (pathSize - 1 - base.length), ?_, fun c hc => List.mem_of_mem_take hc⟩
  rw [snprintf, List.take_append, List.take_of_length_le (by omega)]

theorem length_snprintf (text : List Char) : (snprintf text).length < pathSize := by
  rw [snprintf, List.length_take, pathSize]
  omega

/-- A call prints its path with letters appended, and no slash among them. -/
theorem eq_append_of_printed (hbase : base.length < pathSize)
    (h : listDirectoryRecursively fs fuel base = some out) (hpath : path ∈ printed out) :
    ∃ w, '/' ∉ w ∧ path = base ++ w := by
  induction fuel generalizing base out with
  | zero => cases h
  | succ fuel ih =>
      obtain ⟨loc, l, -, dp, hdp, o, ho, hpath⟩ := printed_call h hpath
      obtain ⟨w, hw, hmem⟩ := snprintf_append hbase dp.name
      have hslash : '/' ∉ w := fun h => Listing.no_slash_of_mem_dirents hdp (hmem _ h)
      obtain ⟨-, -, heq | ⟨inner, hinner, hpath⟩⟩ := printed_listEntry ho hpath
      · exact ⟨w, hslash, heq.trans hw⟩
      · obtain ⟨w', hslash', heq⟩ := ih (length_snprintf _) hinner hpath
        refine ⟨w ++ w', fun h => (List.mem_append.mp h).elim hslash hslash', ?_⟩
        rw [heq, hw, List.append_assoc]

/-- The letters begin with a name of the directory. -/
theorem eq_name_append_of_printed (hopen : fs.opendir base = some (loc, l))
    (hlen : ∀ name ∈ l.names, (base ++ '/' :: name).length < pathSize)
    (h : listDirectoryRecursively fs fuel base = some out) (hpath : path ∈ printed out) :
    ∃ e : FileName, e.text ∈ l.names ∧ ∃ w, '/' ∉ w ∧ path = base ++ (e.text ++ w) := by
  cases fuel with
  | zero => cases h
  | succ fuel =>
      obtain ⟨loc', l', hopen', dp, hdp, o, ho, hpath⟩ := printed_call h hpath
      cases hopen.symm.trans hopen'
      obtain ⟨hdot, hdots, hcases⟩ := printed_listEntry ho hpath
      rcases Listing.name_of_mem_dirents hdp with hname | hname | ⟨e, hname, he⟩
      · exact absurd hname hdot
      · exact absurd hname hdots
      · have hshort : (base ++ e.text).length < pathSize := by
          have := hlen _ he
          simp only [List.length_append, List.length_cons] at this ⊢
          omega
        rw [← hname, Find.snprintf_of_lt hshort] at hcases
        refine ⟨e, he, ?_⟩
        rcases hcases with heq | ⟨inner, hinner, hpath⟩
        · exact ⟨[], List.not_mem_nil, by rw [heq, List.append_nil]⟩
        · obtain ⟨w, hslash, heq⟩ := eq_append_of_printed hshort hinner hpath
          exact ⟨w, hslash, by rw [heq, List.append_assoc]⟩

/-! ## What the paths name -/

/-- In the directory itself a single component names at most an entry. -/
theorem length_of_step {w : List Char} (h : fs.step loc w = some (loc ++ rel)) :
    rel.length ≤ 1 := by
  rcases FileSystem.step_cases h with ⟨-, heq⟩ | ⟨-, heq⟩ | ⟨-, -, -, heq⟩
  · rw [List.append_right_eq_self.mp heq]
    exact Nat.zero_le 1
  · have := congrArg List.length heq
    simp only [List.length_append, List.length_dropLast] at this
    omega
  · rw [List.append_cancel_left heq]
    exact Nat.le_refl 1

theorem eq_of_step_nil {parent : Location} (h : fs.step parent [] = some loc) : parent = loc := by
  rcases FileSystem.step_cases h with ⟨-, heq⟩ | ⟨hnil, -⟩ | ⟨hnil, -⟩
  · exact heq.symm
  · cases hnil
  · exact absurd rfl hnil

/-- A last component with letters appended names an entry of the directory only if it is
`.` (or `..` in the root directory), and then the entry has all these letters. -/
theorem eq_append_of_step {parent : Location} {last w m : List Char}
    (hstep : fs.step parent last = some loc) (hlast : last ≠ []) (hw : w ≠ [])
    (h : fs.step parent (last ++ w) = some (loc ++ [m])) : m = last ++ w := by
  have hlen : 1 < (last ++ w).length := by
    have h1 := List.length_pos_iff.mpr hlast
    have h2 := List.length_pos_iff.mpr hw
    rw [List.length_append]
    omega
  rcases FileSystem.step_cases h with ⟨hstay, -⟩ | ⟨hback, heq⟩ | ⟨-, -, -, heq⟩
  · rcases hstay with hstay | hstay <;> simp [hstay] at hlen
  · -- `..` leads away from the directory, wherever the start path led.
    have hsize := congrArg List.length heq
    simp only [List.length_append, List.length_dropLast, List.length_singleton] at hsize
    rcases FileSystem.step_cases hstep with ⟨-, rfl⟩ | ⟨rfl, -⟩ | ⟨-, -, -, rfl⟩
    · omega
    · exact absurd (List.append_right_eq_self.mp hback) hw
    · simp only [List.length_append, List.length_singleton] at hsize
      omega
  · exact (List.cons.inj (List.append_inj' heq rfl).2).1

/-- The head of a location below a directory is one of its names. -/
theorem head_mem_names (hopen : fs.opendir base = some (loc, l))
    (h : fs.node (loc ++ name :: rel) = some n) : name ∈ l.names := by
  rw [FileSystem.node_below (FileSystem.opendir_eq_some.mp hopen).2] at h
  exact Listing.mem_names_of_at h

theorem mem_names_iff (hopen : fs.opendir base = some (loc, l)) :
    name ∈ l.names ↔ ∃ n, fs.node (loc ++ [name]) = some n := by
  constructor
  · intro hname
    obtain ⟨⟨e, n⟩, he, rfl⟩ := List.mem_map.mp hname
    exact ⟨n, FileSystem.node_child (FileSystem.opendir_eq_some.mp hopen).2 he⟩
  · rintro ⟨n, hn⟩
    exact head_mem_names hopen hn

/-- A file below the directory is named by letters after the start path. -/
theorem VisitsWholeTree.resolve_eq (hvisits : VisitsWholeTree fs base loc)
    (hopen : fs.opendir base = some (loc, l))
    (hlen : ∀ name ∈ l.names, (base ++ '/' :: name).length < pathSize) (hne : rel ≠ [])
    (hnode : fs.node (loc ++ rel) = some n) :
    ∃ e : FileName, e.text ∈ l.names ∧ ∃ w, '/' ∉ e.text ++ w ∧
      fs.resolve (base ++ (e.text ++ w)) = some (loc ++ rel) := by
  obtain ⟨out, ⟨bound, hout⟩, hnamed⟩ := hvisits
  have hcount := (hnamed rel n hne hnode).1
  obtain ⟨path, hpath, hresolve⟩ := List.countP_pos_iff.mp (hcount ▸ Nat.one_pos)
  obtain ⟨e, he, w, hw, rfl⟩ :=
    eq_name_append_of_printed hopen hlen (hout bound le_rfl) hpath
  exact ⟨e, he, w, fun h => (List.mem_append.mp h).elim e.no_slash hw, of_decide_eq_true hresolve⟩

/-- Without a slash at the end of the start path a name is only named by letters that
contain another, shorter name. -/
theorem VisitsWholeTree.getLast? (hvisits : VisitsWholeTree fs base loc)
    (hopen : fs.opendir base = some (loc, l))
    (hlen : ∀ name ∈ l.names, (base ++ '/' :: name).length < pathSize) (hnames : l.names ≠ []) :
    base.getLast? = some '/' := by
  obtain ⟨parent, last, hstep, hlast, happend⟩ :=
    FileSystem.resolve_append (FileSystem.opendir_eq_some.mp hopen).1
  by_contra hend
  rw [← hlast] at hend
  have hshorter : ∀ m ∈ l.names, ∃ m' ∈ l.names, m'.length < m.length := by
    intro m hm
    obtain ⟨n, hn⟩ := (mem_names_iff hopen).mp hm
    obtain ⟨e, he, w, hslash, hresolve⟩ :=
      hvisits.resolve_eq hopen hlen (List.cons_ne_nil m []) hn
    rw [happend _ hslash] at hresolve
    have hm := eq_append_of_step hstep hend (by simp [e.ne_nil]) hresolve
    refine ⟨e.text, he, ?_⟩
    have hpos := List.length_pos_iff.mpr hend
    rw [hm, List.length_append, List.length_append]
    omega
  have hnone : ∀ (k : Nat), ∀ m ∈ l.names, m.length ≠ k := by
    intro k
    induction k using Nat.strong_induction_on with
    | _ k ih =>
        rintro m hm rfl
        obtain ⟨m', hm', hlt⟩ := hshorter m hm
        exact ih _ hlt m' hm' rfl
  obtain ⟨m, hm⟩ := List.exists_mem_of_ne_nil _ hnames
  exact hnone _ m hm rfl

/-- With a slash at the end only the entries of the directory itself are named. -/
theorem VisitsWholeTree.length_le (hvisits : VisitsWholeTree fs base loc)
    (hopen : fs.opendir base = some (loc, l))
    (hlen : ∀ name ∈ l.names, (base ++ '/' :: name).length < pathSize)
    (hend : base.getLast? = some '/') (hnode : fs.node (loc ++ rel) = some n) : rel.length ≤ 1 := by
  by_cases hne : rel = []
  · rw [hne]
    exact Nat.zero_le 1
  · obtain ⟨parent, last, hstep, hlast, happend⟩ :=
      FileSystem.resolve_append (FileSystem.opendir_eq_some.mp hopen).1
    obtain ⟨e, -, w, hslash, hresolve⟩ := hvisits.resolve_eq hopen hlen hne hnode
    rw [happend _ hslash, hlast.mpr hend, List.nil_append] at hresolve
    rw [hlast.mpr hend] at hstep
    rw [eq_of_step_nil hstep] at hresolve
    exact length_of_step hresolve

/-! ## A flat directory -/

theorem listEntry_dots (recurse : Path → Option (List Event)) (base : Path)
    (h : name = ['.'] ∨ name = ['.', '.']) (kind : Kind) :
    listEntry recurse base ⟨name, kind⟩ = some [] := by
  rw [listEntry, if_neg fun hname => h.elim hname.1 hname.2]

/-- Only `.` and `..` in a directory: nothing is printed. -/
theorem visitAll_of_entries_eq_nil {s : Listing} (h : s.entries = [])
    (recurse : Path → Option (List Event)) (base : Path) :
    visitAll (listEntry recurse base) s.dirents = some [] := by
  induction s with
  | nil => rfl
  | self rest ih => exact visitAll_cons (listEntry_dots _ _ (.inl rfl) _) (ih h)
  | parent rest ih => exact visitAll_cons (listEntry_dots _ _ (.inr rfl) _) (ih h)
  | file | dir => cases h

theorem listDirectoryRecursively_of_entries_eq_nil (hopen : fs.opendir base = some (loc, l))
    (h : l.entries = []) (fuel : Nat) :
    listDirectoryRecursively fs (fuel + 1) base = some [.heading loc base] := by
  rw [listDirectoryRecursively_succ hopen, visitAll_of_entries_eq_nil h, Option.map_some]

/-- After a slash a name names the entry. -/
theorem resolve_append_name (hopen : fs.opendir base = some (loc, l))
    (hend : base.getLast? = some '/') (e : FileName) (he : e.text ∈ l.names) :
    fs.resolve (base ++ e.text) = some (loc ++ [e.text]) := by
  obtain ⟨hresolve, hnode⟩ := FileSystem.opendir_eq_some.mp hopen
  obtain ⟨parent, last, hstep, hlast, happend⟩ := FileSystem.resolve_append hresolve
  rw [hlast.mpr hend] at hstep happend
  rw [happend _ e.no_slash, List.nil_append, eq_of_step_nil hstep, FileSystem.step_name hnode]
  obtain ⟨⟨e', n⟩, hn, heq⟩ := List.mem_map.mp he
  rw [← heq, (FileSystem.distinct_of_node hnode).lookup_eq hn, Option.map_some]

/-- What is printed for an entry of a flat directory. -/
def lines (base : Path) (loc : Location) (e : FileName × Node) : List Event :=
  .entry (base ++ e.1.text) ::
    if e.2.kind = .dir then [.heading (loc ++ [e.1.text]) (base ++ e.1.text)] else []

theorem visitAll_flat (s : Listing) (hopen : fs.opendir base = some (loc, l))
    (hend : base.getLast? = some '/') (hsub : ∀ e ∈ s.entries, e ∈ l.entries)
    (hlen : ∀ name ∈ l.names, (base ++ '/' :: name).length < pathSize)
    (hflat : ∀ e b, (e, .dir b) ∈ l.entries → b.entries = []) (fuel : Nat) :
    visitAll (listEntry (listDirectoryRecursively fs (fuel + 1)) base) s.dirents =
      some (s.entries.flatMap (lines base loc)) := by
  have hshort : ∀ e : FileName × Node, e ∈ l.entries → (base ++ e.1.text).length < pathSize := by
    intro e he
    have := hlen e.1.text (List.mem_map_of_mem he)
    simp only [List.length_append, List.length_cons] at this ⊢
    omega
  induction s with
  | nil => rfl
  | self rest ih => exact visitAll_cons (listEntry_dots _ _ (.inl rfl) _) (ih hsub)
  | parent rest ih => exact visitAll_cons (listEntry_dots _ _ (.inr rfl) _) (ih hsub)
  | file e rest ih =>
      have he := hsub (e, .file) List.mem_cons_self
      refine visitAll_cons ?_ (ih fun f hf => hsub f (List.mem_cons_of_mem _ hf))
      simp [listEntry, e.ne_dot, e.ne_dots, Find.snprintf_of_lt (hshort _ he), lines, Node.kind]
  | dir e below rest _ ih =>
      have he := hsub (e, .dir below) List.mem_cons_self
      have hbelow : fs.opendir (base ++ e.text) = some (loc ++ [e.text], below) :=
        FileSystem.opendir_eq_some.mpr
          ⟨resolve_append_name hopen hend e (List.mem_map_of_mem he),
            FileSystem.node_child (FileSystem.opendir_eq_some.mp hopen).2 he⟩
      refine visitAll_cons ?_ (ih fun f hf => hsub f (List.mem_cons_of_mem _ hf))
      simp [listEntry, e.ne_dot, e.ne_dots, Find.snprintf_of_lt (hshort _ he), lines, Node.kind,
        listDirectoryRecursively_of_entries_eq_nil hbelow (hflat e below he)]

theorem printed_lines (base : Path) (loc : Location) (es : List (FileName × Node)) :
    printed (es.flatMap (lines base loc)) = es.map fun e => base ++ e.1.text := by
  induction es with
  | nil => rfl
  | cons e es ih =>
      rw [List.flatMap_cons, Find.printed_append, ih, lines]
      split <;> rfl

/-- Each name is named by one of the paths only. -/
theorem countP_named (hopen : fs.opendir base = some (loc, l)) (hend : base.getLast? = some '/')
    (hname : name ∈ l.names) :
    (l.entries.map fun e => base ++ e.1.text).countP
      (fun path => fs.resolve path = some (loc ++ [name])) = 1 := by
  have hnodup := (Find.distinct_of_opendir hopen).nodup_names
  have hiff : ∀ e ∈ l.entries, decide (fs.resolve (base ++ e.1.text) = some (loc ++ [name])) =
      (e.1.text == name) := by
    intro e he
    rw [resolve_append_name hopen hend e.1 (List.mem_map_of_mem he)]
    simp [beq_eq_decide]
  calc (l.entries.map fun e => base ++ e.1.text).countP
        (fun path => fs.resolve path = some (loc ++ [name]))
      = l.entries.countP (fun e => e.1.text == name) := by
        rw [List.countP_map]
        exact List.countP_congr fun e he => by rw [Function.comp_apply, hiff e he]
    _ = l.names.count name := by
        rw [List.count_eq_countP, Listing.names, List.countP_map]
        rfl
    _ = 1 := List.count_eq_one_of_mem hnodup hname

/-- In a flat directory whose path ends with a slash everything is visited. -/
theorem visitsWholeTree_of_flat (hopen : fs.opendir base = some (loc, l))
    (hend : base.getLast? = some '/')
    (hlen : ∀ name ∈ l.names, (base ++ '/' :: name).length < pathSize)
    (hflat : ∀ rel n, fs.node (loc ++ rel) = some n → rel.length ≤ 1) :
    VisitsWholeTree fs base loc := by
  have hnode := (FileSystem.opendir_eq_some.mp hopen).2
  have hempty : ∀ e b, (e, .dir b) ∈ l.entries → b.entries = [] := by
    intro e b he
    refine List.eq_nil_iff_forall_not_mem.mpr fun f hf => ?_
    have hchild := FileSystem.node_child (FileSystem.node_child hnode he) hf
    rw [List.append_assoc] at hchild
    exact absurd (hflat _ _ hchild) (by simp)
  refine ⟨.heading loc base :: l.entries.flatMap (lines base loc),
    ⟨2, fun fuel hfuel => ?_⟩, fun rel n hne hn => ?_⟩
  · obtain ⟨fuel, rfl⟩ : ∃ k, fuel = k + 2 := ⟨fuel - 2, by omega⟩
    rw [listDirectoryRecursively_succ hopen,
      visitAll_flat l hopen hend (fun e he => he) hlen hempty fuel, Option.map_some]
  · obtain ⟨name, rfl⟩ : ∃ name, rel = [name] :=
      List.length_eq_one_iff.mp (by
        have := List.length_pos_iff.mpr hne
        have := hflat rel n hn
        omega)
    have hname := (mem_names_iff hopen).mpr ⟨n, hn⟩
    refine ⟨?_, fun hkind => ?_⟩
    · rw [Find.printed_heading, printed_lines]
      exact countP_named hopen hend hname
    · obtain ⟨⟨e, n'⟩, he, rfl⟩ := List.mem_map.mp hname
      have hsame := (FileSystem.node_child hnode he).symm.trans hn
      cases hsame
      refine Find.mem_opened.mpr ⟨base ++ e.text, List.mem_cons_of_mem _ ?_⟩
      exact List.mem_flatMap.mpr ⟨_, he, by simp [lines, hkind]⟩

end

/-- The listing visits the whole tree exactly when there is nothing to visit, or the
start path ends with a slash and nothing is deeper than the entries of the directory. -/
theorem visitsWholeTree_iff (fs : FileSystem) {base : Path} {loc : Location} {l : Listing}
    (hopen : fs.opendir base = some (loc, l))
    (hshort : ∀ rel n, rel ≠ [] → fs.node (loc ++ rel) = some n →
      (fullPath base rel).length < pathSize) :
    VisitsWholeTree fs base loc ↔
      (∀ rel, rel ≠ [] → fs.node (loc ++ rel) = none) ∨
        (base.getLast? = some '/' ∧
          ∀ rel n, fs.node (loc ++ rel) = some n → rel.length ≤ 1) := by
  have hlen : ∀ name ∈ l.names, (base ++ '/' :: name).length < pathSize := by
    intro name hname
    obtain ⟨n, hn⟩ := (mem_names_iff hopen).mp hname
    simpa using hshort [name] n (List.cons_ne_nil _ _) hn
  constructor
  · intro hvisits
    by_cases hnames : l.names = []
    · refine .inl fun rel hne => ?_
      cases rel with
      | nil => exact absurd rfl hne
      | cons name rel =>
          refine Option.eq_none_iff_forall_ne_some.mpr fun n hn => ?_
          have := head_mem_names hopen hn
          rw [hnames] at this
          cases this
    · have hend := hvisits.getLast? hopen hlen hnames
      exact .inr ⟨hend, fun rel n hn => hvisits.length_le hopen hlen hend hn⟩
  · rintro (hnone | ⟨hend, hflat⟩)
    · have hentries : l.entries = [] := by
        refine List.eq_nil_iff_forall_not_mem.mpr fun e he => ?_
        have hchild := FileSystem.node_child (FileSystem.opendir_eq_some.mp hopen).2 he
        rw [hnone _ (List.cons_ne_nil _ _)] at hchild
        cases hchild
      refine ⟨[.heading loc base], ⟨1, fun fuel hfuel => ?_⟩, fun rel n hne hn => ?_⟩
      · obtain ⟨fuel, rfl⟩ : ∃ k, fuel = k + 1 := ⟨fuel - 1, by omega⟩
        exact listDirectoryRecursively_of_entries_eq_nil hopen hentries fuel
      · rw [hnone rel hne] at hn
        cases hn
    · exact visitsWholeTree_of_flat hopen hend hlen hflat

/-- A directory with one file in it, that has a path with a slash at its end. -/
theorem smallTree_flat : Find.smallTree.opendir ['/', 'a', '/'] =
      some ([['a']], .file (Find.letters 1) .nil) ∧
    VisitsWholeTree Find.smallTree ['/', 'a', '/'] [['a']] := by
  have hopen : Find.smallTree.opendir ['/', 'a', '/'] =
      some ([['a']], .file (Find.letters 1) .nil) := by rfl
  have hrel : ∀ rel n, rel ≠ [] → Find.smallTree.node ([['a']] ++ rel) = some n →
      rel = [['a', 'a']] := by
    intro rel n hne hn
    have hmem := (Find.mem_all_iff hopen).mpr ⟨hne, hn⟩
    exact (Prod.mk.inj (List.mem_singleton.mp hmem)).1
  refine ⟨hopen, (visitsWholeTree_iff _ hopen fun rel n hne hn => ?_).mpr
    (.inr ⟨rfl, fun rel n hn => ?_⟩)⟩
  · rw [hrel rel n hne hn]
    decide
  · by_cases hne : rel = []
    · rw [hne]
      decide
    · rw [hrel rel n hne hn]
      decide

/-- The file `/a/aa` is printed as `/aaa`, which does not exist. -/
theorem smallTree_joined : main Find.smallTree 3 [['/']] =
      some (.ok [.heading [] ['/'], .entry ['/', 'a'], .heading [['a']] ['/', 'a'],
        .entry ['/', 'a', 'a', 'a']]) ∧
    Find.smallTree.resolve ['/', 'a', 'a', 'a'] = none ∧
    ¬ VisitsWholeTree Find.smallTree ['/'] [] := by
  refine ⟨rfl, rfl, fun hvisits => ?_⟩
  have hlen : ∀ name ∈ Find.smallTree.root.names, (['/'] ++ '/' :: name).length < pathSize := by
    intro name hname
    rw [List.mem_singleton.mp hname]
    decide
  have hfile : Find.smallTree.node ([] ++ [['a'], ['a', 'a']]) = some .file := rfl
  exact absurd (hvisits.length_le (Find.opendir_slash _) hlen rfl hfile) (by decide)

end OsCourse.ListDirectory
