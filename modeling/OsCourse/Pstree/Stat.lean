import Mathlib.Data.List.TakeWhile
import OsCourse.Lib.CString
import OsCourse.Pstree.Table

/-!
# Reading `/proc`

`read_process_info` takes the name and the parent of a process from the line
`pid (name) state ppid ...` of its `stat` file.  The name is what the process chose,
and may have blanks and parentheses.  The function ends it at the first closing
parenthesis of the line and counts the fields behind it from there.  So it reads the
line correctly exactly if the name has no closing parenthesis.

`readProc` is the loop of `main` over the directory entries.  It delivers the records
from which the table is built.
-/

namespace OsCourse.Pstree

open CString

/-! ## The model -/

/-- The path of the `stat` file. -/
def statPath (pid : Int) : List Char := "/proc/".toList ++ (toString pid).toList ++ "/stat".toList

/-- `read_process_info`: the parent and the name, or `none` for the result `-1`.
`files` gives the contents of the files that can be opened. -/
def readProcessInfo (files : List Char → Option (List Char)) (pid : Int) (nameSize : Nat) :
    Option (Int × List Char) := do
  let content ← files (statPath pid)
  let buffer ← fgets 1024 content
  let start ← strchr '(' buffer
  let end' ← strchr ')' buffer
  -- of two pointers into the buffer the greater one has less behind it
  if start.length ≤ end'.length then none
  else
    let start := start.tail
    let nameLen := start.length - end'.length
    let nameLen := if nameLen > nameSize - 1 then nameSize - 1 else nameLen
    let name := (start.take nameLen).takeWhile (· ≠ nul)
    let p := end'.tail.dropWhile (· = ' ')
    if p.headD nul = nul then none
    else
      let p := p.tail.dropWhile (· = ' ')
      some (atoi p, name)

/-- An entry of the directory `/proc`. -/
structure Dirent where
  /-- `d_type == DT_DIR`. -/
  isDir : Bool
  /-- `d_name`. -/
  name : List Char

/-- `is_numeric`. -/
def isNumeric (str : List Char) : Bool := str.all Char.isDigit

/-- One turn of the loop over the entries. -/
def readEntry (files : List Char → Option (List Char)) (entry : Dirent) : Option Record :=
  if entry.isDir ∧ isNumeric entry.name then
    let pid := atoi entry.name
    (readProcessInfo files pid 256).map fun r => ⟨pid, r.1, r.2⟩
  else none

/-- The loop of `main`: an entry that cannot be read is left out. -/
def readProc (files : List Char → Option (List Char)) (entries : List Dirent) : List Record :=
  entries.filterMap (readEntry files)

/-! ## Processes -/

/-- A process as the kernel describes it. -/
structure Process where
  pid : Nat
  name : List Char
  state : Char
  ppid : Nat
  /-- The rest of the line. -/
  rest : List Char
  pid_lt : pid < 2 ^ 31
  name_pos : 1 ≤ name.length
  name_le : name.length ≤ 15
  newline : '\n' ∉ name
  letter : state.isAlpha = true
  ppid_lt : ppid < 2 ^ 31
  rest_head : ∀ c ∈ rest.head?, c.isDigit = false

/-- The line `pid (name) state ppid ...`. -/
def Process.statLine (p : Process) : List Char :=
  decimal p.pid ++ " (".toList ++ p.name ++ ") ".toList ++ [p.state] ++ " ".toList ++
    decimal p.ppid ++ p.rest

/-! ## What is read -/

/-- What is between an opening parenthesis and the first closing one behind it. -/
theorem between_parens {buffer start end' : List Char} (hstart : strchr '(' buffer = some start)
    (hend : strchr ')' buffer = some end') (hlt : end'.length < start.length) :
    ∃ inside, start.tail = inside ++ end' ∧ ')' ∉ inside := by
  obtain ⟨before, rfl, -, -⟩ := strchr_some hstart
  obtain ⟨front, hfront, hclose, -⟩ := strchr_some hend
  rcases List.append_eq_append_iff.mp hfront with ⟨inside, rfl, rfl⟩ | ⟨other, -, rfl⟩
  · cases inside with
    | nil => exact absurd hlt (Nat.lt_irrefl _)
    | cons c inside =>
        refine ⟨inside, rfl, fun hmem => hclose ?_⟩
        exact List.mem_append_right _ (List.mem_cons_of_mem c hmem)
  · rw [List.length_append] at hlt
    omega

/-- A name that is read has no closing parenthesis. -/
theorem readProcessInfo_name {files : List Char → Option (List Char)} {pid : Int} {nameSize : Nat}
    {r : Int × List Char} (h : readProcessInfo files pid nameSize = some r) :
    ')' ∉ r.2 ∧ nul ∉ r.2 := by
  obtain ⟨content, -, h⟩ := Option.bind_eq_some_iff.mp h
  obtain ⟨buffer, -, h⟩ := Option.bind_eq_some_iff.mp h
  obtain ⟨start, hstart, h⟩ := Option.bind_eq_some_iff.mp h
  obtain ⟨end', hend, h⟩ := Option.bind_eq_some_iff.mp h
  split at h
  · cases h
  next hlt =>
    obtain ⟨inside, htail, hclose⟩ := between_parens hstart hend (Nat.not_le.mp hlt)
    dsimp only at h
    split at h
    · cases h
    · obtain rfl := Option.some.inj h
      constructor
      · intro hmem
        have hmem := (List.takeWhile_sublist _).subset hmem
        rw [htail, List.length_append, Nat.add_sub_cancel] at hmem
        have hle : (if inside.length > nameSize - 1 then nameSize - 1 else inside.length) ≤
            inside.length := by split <;> omega
        rw [List.take_append_of_le_length hle] at hmem
        exact hclose (List.mem_of_mem_take hmem)
      · intro hmem
        have hne := List.mem_takeWhile_imp hmem
        simp at hne

theorem length_decimal {n : Nat} (h : n < 2 ^ 31) : (decimal n).length ≤ 10 :=
  (Nat.length_toDigits_le_iff (by decide) (by decide)).mpr (by omega)

/-- The line behind the name. -/
def Process.behind (p : Process) (rest : List Char) : List Char :=
  ' ' :: p.state :: ' ' :: (decimal p.ppid ++ rest)

/-- The line with another rest. -/
def Process.line (p : Process) (rest : List Char) : List Char :=
  decimal p.pid ++ ' ' :: '(' :: (p.name ++ ')' :: p.behind rest)

section
variable (p : Process)

theorem Process.line_append (rest : List Char) : p.line [] ++ rest = p.line rest := by
  simp [Process.line, Process.behind]

theorem Process.state_ne {c : Char} (hc : c.isAlpha = false) : p.state ≠ c := by
  rintro rfl
  have hletter := p.letter
  rw [hc] at hletter
  cases hletter

/-- The first fields of the line fit into the buffer. -/
theorem fgets_statLine : ∃ rest, (∀ c ∈ rest.head?, c.isDigit = false) ∧
    fgets 1024 p.statLine = some (p.line rest) := by
  have hline : p.statLine = p.line [] ++ p.rest := by
    simp [Process.statLine, Process.line, Process.behind]
  have hnewline : '\n' ∉ p.line [] := by
    have hpid := not_mem_decimal (n := p.pid) (c := '\n') (by decide)
    have hppid := not_mem_decimal (n := p.ppid) (c := '\n') (by decide)
    have hstate : '\n' ≠ p.state := (p.state_ne (by decide)).symm
    simp [Process.line, Process.behind, hpid, hppid, hstate, p.newline]
  have hlength : (p.line []).length ≤ 1023 := by
    have hpid := length_decimal p.pid_lt
    have hppid := length_decimal p.ppid_lt
    have hname := p.name_le
    simp only [Process.line, Process.behind, List.length_append, List.length_cons, List.length_nil]
    omega
  refine ⟨line (1023 - (p.line []).length) p.rest,
    fun c hc => p.rest_head c (mem_head_line hc), ?_⟩
  have hne : p.statLine ≠ [] := by simp [Process.statLine]
  rw [fgets, if_neg hne, hline, line_append hnewline hlength, p.line_append]

/-- The first opening parenthesis is the one in front of the name. -/
theorem Process.strchr_open (rest : List Char) :
    strchr '(' (p.line rest) = some ('(' :: (p.name ++ ')' :: p.behind rest)) := by
  have hdigits (c : Char) (hc : c.isDigit = false) : c ∉ decimal p.pid := not_mem_decimal hc
  have hopen : '(' ∉ decimal p.pid ++ [' '] := by simp [hdigits]
  have hnul : nul ∉ decimal p.pid ++ [' '] := by
    simp [hdigits nul (by decide), show nul ≠ ' ' by decide]
  have hfound := strchr_append hopen hnul (p.name ++ ')' :: p.behind rest)
  rwa [List.append_assoc, List.singleton_append] at hfound

/-- The first closing parenthesis is the one behind the name. -/
theorem Process.strchr_close (hclose : ')' ∉ p.name) (hnul : nul ∉ p.name) (rest : List Char) :
    strchr ')' (p.line rest) = some (')' :: p.behind rest) := by
  have hdigits (c : Char) (hc : c.isDigit = false) : c ∉ decimal p.pid := not_mem_decimal hc
  have hfront : ')' ∉ decimal p.pid ++ ' ' :: '(' :: p.name := by simp [hdigits, hclose]
  have hterm : nul ∉ decimal p.pid ++ ' ' :: '(' :: p.name := by
    simp [hdigits nul (by decide), hnul, show nul ≠ ' ' by decide, show nul ≠ '(' by decide]
  have hfound := strchr_append hfront hterm (p.behind rest)
  rwa [List.append_assoc, List.cons_append, List.cons_append] at hfound

/-- What is copied is the name. -/
theorem Process.copied_name (hnul : nul ∉ p.name) (s : List Char) :
    ((p.name ++ s).take p.name.length).takeWhile (· ≠ nul) = p.name := by
  rw [List.take_left', List.takeWhile_eq_self_iff]
  · intro c hc
    have hne : c ≠ nul := fun hcn => hnul (hcn ▸ hc)
    simpa using hne
  · rfl

/-- The blank in front of the state. -/
theorem Process.skip_state (rest : List Char) :
    (p.behind rest).dropWhile (· = ' ') = p.state :: ' ' :: (decimal p.ppid ++ rest) := by
  have hstate : p.state ≠ ' ' := p.state_ne (by decide)
  simp [Process.behind, hstate]

/-- The blank in front of the parent. -/
theorem Process.skip_blank (rest : List Char) :
    (' ' :: (decimal p.ppid ++ rest)).dropWhile (· = ' ') = decimal p.ppid ++ rest := by
  obtain ⟨c, cs, hcs⟩ := List.exists_cons_of_ne_nil (Nat.toDigits_ne_nil (n := p.ppid) (b := 10))
  have hdecimal : decimal p.ppid = c :: cs := hcs
  have hc : c ≠ ' ' := by
    rintro rfl
    exact not_mem_decimal (by decide) (hdecimal ▸ List.mem_cons_self ..)
  simp [hdecimal, hc]

end

/-- The line of a process is taken apart where it was put together. -/
theorem readProcessInfo_statLine {files : List Char → Option (List Char)} {p : Process}
    (hfile : files (statPath p.pid) = some p.statLine) (hclose : ')' ∉ p.name)
    (hnul : nul ∉ p.name) :
    readProcessInfo files p.pid 256 = some ((p.ppid : Int), p.name) := by
  obtain ⟨rest, hrest, hline⟩ := fgets_statLine p
  have hlt :
      ¬ ('(' :: (p.name ++ ')' :: p.behind rest)).length ≤ (')' :: p.behind rest).length := by
    simp only [List.length_cons, List.length_append]
    omega
  have hlen : (p.name ++ ')' :: p.behind rest).length - (')' :: p.behind rest).length =
      p.name.length := by
    rw [List.length_append, Nat.add_sub_cancel]
  have hshort : ¬ p.name.length > 256 - 1 := by
    have hle := p.name_le
    omega
  simp only [readProcessInfo, Option.bind_eq_bind, hfile, Option.bind_some, hline, p.strchr_open,
    p.strchr_close hclose hnul, if_neg hlt, List.tail_cons, List.headD_cons, hlen, if_neg hshort,
    p.copied_name hnul, p.skip_state, p.skip_blank]
  rw [if_neg (p.state_ne (by decide)), atoi_decimal p.ppid_lt hrest]

/-- The name and the parent of a process are read exactly if its name has no closing
parenthesis.  (A name is a string, so it has no zero character either.) -/
theorem readProcessInfo_iff (files : List Char → Option (List Char)) (p : Process)
    (hfile : files (statPath p.pid) = some p.statLine) :
    readProcessInfo files p.pid 256 = some ((p.ppid : Int), p.name) ↔
      ')' ∉ p.name ∧ nul ∉ p.name := by
  constructor
  · intro h
    exact readProcessInfo_name h
  · rintro ⟨hclose, hnul⟩
    exact readProcessInfo_statLine hfile hclose hnul

/-- The files of a system in which this is the only process. -/
def Process.files (p : Process) (path : List Char) : Option (List Char) :=
  if path = statPath p.pid then some p.statLine else none

/-- `7 (a (b) S 1 0`. -/
def openParen : Process where
  pid := 7
  name := "a (b".toList
  state := 'S'
  ppid := 1
  rest := " 0\n".toList
  pid_lt := by decide
  name_pos := by decide
  name_le := by decide
  newline := by decide
  letter := by decide
  ppid_lt := by decide
  rest_head := by
    intro c hc
    cases hc
    rfl

theorem readProcessInfo_iff_openParen :
    readProcessInfo openParen.files 7 256 = some (1, "a (b".toList) :=
  (readProcessInfo_iff openParen.files openParen (if_pos rfl)).mpr (by decide)

/-- `7 (a)b) S 1 0`. -/
def closeParen : Process :=
  { openParen with
    name := "a)b".toList
    name_pos := by decide
    name_le := by decide
    newline := by decide }

/-- The name is cut, and the process becomes one without a parent. -/
theorem readProcessInfo_closeParen :
    closeParen.statLine = "7 (a)b) S 1 0\n".toList ∧
      readProcessInfo closeParen.files 7 256 = some (0, "a".toList) := by
  decide +kernel

/-! ## The directory -/

/-- The entry of a process. -/
def Process.entry (p : Process) : Dirent := ⟨true, decimal p.pid⟩

/-- The record of a process. -/
def Process.record (p : Process) : Record := ⟨p.pid, p.ppid, p.name⟩

/-- The loop over the directory delivers the processes as they are, if no name has a
closing parenthesis. -/
theorem readProc_eq {files : List Char → Option (List Char)} {ps : List Process}
    (hfiles : ∀ p ∈ ps, files (statPath p.pid) = some p.statLine)
    (hnames : ∀ p ∈ ps, ')' ∉ p.name ∧ nul ∉ p.name) :
    readProc files (ps.map Process.entry) = ps.map Process.record := by
  have hentry : ∀ p ∈ ps, readEntry files p.entry = some p.record := by
    intro p hp
    have hnumeric : isNumeric (decimal p.pid) = true :=
      List.all_eq_true.mpr fun c hc => isDigit_of_mem_decimal hc
    have hpid : atoi (decimal p.pid) = p.pid := by
      have hread := atoi_decimal p.pid_lt (s := []) (by simp)
      rwa [List.append_nil] at hread
    simp only [readEntry, Process.entry, hnumeric, and_self, if_true, hpid,
      readProcessInfo_statLine (hfiles p hp) (hnames p hp).1 (hnames p hp).2, Option.map_some]
    rfl
  rw [readProc, List.filterMap_map, ← List.filterMap_eq_map]
  exact List.filterMap_congr hentry

end OsCourse.Pstree
