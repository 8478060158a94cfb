import OsCourse.Labyrinth.Process
import OsCourse.Lib.Except
import OsCourse.Lib.Getopt

/-!
# The command line

`main` from its argument vector on.  A loop over `getopt_long` sets five globals,
and the rest of `main` reads them.

The long options `--move` and `--version` return the same value.  The loop tells
them apart by the name at `option_index`, which a short option leaves as it is.
The index starts at 0 and is only ever set to the index of an option, so the name
is never null, and every option that takes a value has one (`parseOption_ok`).  So
the loop never ends the program, and what it ends in depends on the globals alone:
`Answers` are the ones with which `main` returns a status.  With the others it
hands a null pointer to `fopen` or to `strcmp`.
-/

namespace OsCourse.Maze

open Getopt

/-! ## The loop of `main` -/

/-- `long_options`, without the entry of zeros at its end. -/
def longOptions : List LongOption :=
  [⟨ascii "map", true, 'm'.toUInt8⟩,
   ⟨ascii "player", true, 'p'.toUInt8⟩,
   ⟨ascii "move", true, '0'.toUInt8⟩,
   ⟨ascii "version", false, '0'.toUInt8⟩]

/-- The options of `main`: the short ones are `"m:p:0:"`. -/
def optionTable : Table where
  short := [('m'.toUInt8, true), ('p'.toUInt8, true), ('0'.toUInt8, true)]
  long := longOptions

/-- `long_options[option_index].name`.  After the last option the name is null. -/
def longName (optionIndex : Nat) : Option Arg := longOptions[optionIndex]?.map LongOption.name

/-- The text of an argument. -/
def argText (arg : Arg) : String := String.ofList (arg.map Char.ofUInt8)

/-- The variables of the loop. -/
structure Parsing where
  globals : Options
  optionIndex : Nat

/-- The variables before the loop. -/
def Parsing.init : Parsing := ⟨⟨none, 0, none, false, false⟩, 0⟩

/-- The `switch` of the loop.  An error is the end of the program. -/
def handleOption (o : Options) (optionIndex : Nat) (opt : UInt8) (optarg : Option Arg) :
    Except Exit Options :=
  if opt = 'm'.toUInt8 then
    match optarg with
    | none => .error (.status 1)
    | some optarg => .ok { o with otherOptions := true, mapFile := some (argText optarg) }
  else if opt = 'p'.toUInt8 then
    match optarg with
    | none => .error (.status 1)
    -- the first byte of an empty string is its terminator
    | some optarg => .ok { o with otherOptions := true, playerId := optarg.headD 0 }
  else if opt = '0'.toUInt8 then
    match longName optionIndex with
    | none => .error .nullPointer
    | some name =>
        if name = ascii "move" then
          match optarg with
          | none => .error (.status 1)
          | some optarg => .ok { o with otherOptions := true, direction := some (argText optarg) }
        else if name = ascii "version" then .ok { o with versionFlag := true }
        else .ok o
  else .ok o

/-- One round of the loop. -/
def parseOption (s : Parsing) (found : Found) : Except Exit Parsing := do
  let optionIndex := found.indexAfter s.optionIndex
  let globals ← handleOption s.globals optionIndex found.returned found.optarg
  return ⟨globals, optionIndex⟩

/-- The loop, on what the calls of `getopt_long` find. -/
def parseOptions (found : List Found) : Except Exit Parsing := found.foldlM parseOption .init

/-- The program.  `posix` says whether the environment sets `POSIXLY_CORRECT`. -/
def runMain (posix : Bool) (mem : Nat → UInt8) (fs : FileSystem) (argv : List Arg) :
    Exit × FileSystem :=
  match parseOptions (options optionTable posix argv.tail) with
  | .error e => (e, fs)
  | .ok s => main mem fs s.globals

/-- The command line of the frontends sets the globals of `moveOptions`. -/
theorem invoke_eq_runMain (posix : Bool) (mem : Nat → UInt8) (fs : FileSystem)
    (program mapFile direction : Arg) (playerId : UInt8) :
    invoke mem (argText mapFile) fs (playerId, argText direction) =
      (runMain posix mem fs [program, ascii "--map", mapFile, ascii "--player", [playerId],
        ascii "--move", direction]).2 := by
  rfl

/-! ## The loop ends -/

variable {optionIndex : Nat} {found : Found} {l : Labyrinth}

theorem longName_isSome (h : optionIndex < longOptions.length) :
    ∃ name, longName optionIndex = some name :=
  ⟨_, by rw [longName, List.getElem?_eq_getElem h, Option.map_some]⟩

/-- Where `optarg` is set for every option but `--version`, the `switch` goes on. -/
theorem handleOption_ok (o : Options) {opt : UInt8} {optarg : Option Arg}
    (hindex : optionIndex < longOptions.length) (harg : optarg = none →
      opt = '?'.toUInt8 ∨ opt = '0'.toUInt8 ∧ longName optionIndex = some (ascii "version")) :
    ∃ o', handleOption o optionIndex opt optarg = .ok o' := by
  obtain ⟨name, hname⟩ := longName_isSome hindex
  unfold handleOption
  cases optarg with
  | some value =>
      simp only [hname]
      split_ifs <;> exact ⟨_, rfl⟩
  | none =>
      rcases harg rfl with rfl | ⟨rfl, hversion⟩
      · exact ⟨o, rfl⟩
      · simp only [hversion]
        exact ⟨_, rfl⟩

/-- A call without a value is an error, or it found `--version`. -/
theorem valueless (h : found.Valid optionTable) (optionIndex : Nat) (harg : found.optarg = none) :
    found.returned = '?'.toUInt8 ∨ found.returned = '0'.toUInt8 ∧
      longName (found.indexAfter optionIndex) = some (ascii "version") := by
  cases found with
  | error => exact Or.inl rfl
  | short c optarg =>
      obtain ⟨takes, hmem, htakes⟩ := h
      have hall : optionTable.short.all Prod.snd = true := rfl
      have htrue : takes = true := List.all_eq_true.mp hall _ hmem
      rw [show optarg = none from harg, htrue] at htakes
      cases htakes
  | long index opt optarg =>
      obtain ⟨hopt, htakes⟩ := h
      rw [show optarg = none from harg] at htakes
      have hopt' : longOptions[index]? = some opt := hopt
      have hall : ∀ o ∈ longOptions, o.takesValue = false →
          o.val = '0'.toUInt8 ∧ o.name = ascii "version" := by decide
      obtain ⟨hval, hname⟩ := hall opt (List.mem_of_getElem? hopt') htakes.symm
      exact Or.inr ⟨hval, by rw [Found.indexAfter, longName, hopt', Option.map_some, hname]⟩

theorem indexAfter_lt (h : found.Valid optionTable) (hindex : optionIndex < longOptions.length) :
    found.indexAfter optionIndex < longOptions.length := by
  cases found with
  | error => exact hindex
  | short c optarg => exact hindex
  | long index opt optarg => exact (List.getElem?_eq_some_iff.mp h.1).1

/-- No round ends the program, and the index stays the index of an option. -/
theorem parseOption_ok {s : Parsing} (hs : s.optionIndex < longOptions.length)
    (h : found.Valid optionTable) :
    ∃ s', parseOption s found = .ok s' ∧ s'.optionIndex < longOptions.length := by
  have hindex := indexAfter_lt h hs
  obtain ⟨o, ho⟩ := handleOption_ok s.globals hindex (valueless h s.optionIndex)
  exact ⟨⟨o, _⟩, by rw [parseOption, ho]; rfl, hindex⟩

/-- The loop ends for every argument vector. -/
theorem parseOptions_ok (posix : Bool) (args : List Arg) :
    ∃ s, parseOptions (options optionTable posix args) = .ok s := by
  have hinit : Parsing.init.optionIndex < longOptions.length := by decide
  obtain ⟨s, hs, -⟩ := foldlM_ok (P := fun s : Parsing => s.optionIndex < longOptions.length)
    (fun found hfound s hs => parseOption_ok hs (options_valid posix args found hfound)) hinit
  exact ⟨s, hs⟩

/-! ## The rest of `main` -/

/-- The globals with which `main` returns a status. -/
def Answers (mem : Nat → UInt8) (fs : FileSystem) (o : Options) : Prop :=
  (o.versionFlag = true ∧ o.otherOptions = true) ∨
  ∃ mapFile, o.mapFile = some mapFile ∧
    (loadMap mem fs mapFile = none ∨ isValidPlayer o.playerId = false ∨ o.direction.isSome = true)

theorem startPosition_of_connected (h : isConnected l = true) (p : UInt8) :
    ∃ r c : Nat, startPosition l p = ⟨r, c⟩ := by
  rcases startPosition_cases l p with hmiss | ⟨r, c, hstart, _⟩
  · -- then there is no empty space either, and the map is not connected
    have hfirst : findFirstEmptySpace l = .missing := by
      simp only [startPosition] at hmiss
      split at hmiss
      next => exact hmiss
      next hne => exact absurd (by rw [hmiss]; exact ⟨rfl, rfl⟩) hne
    have hfalse : isConnected l = false := by
      simp only [isConnected, hfirst, Position.missing, and_self, if_true]
    rw [hfalse] at h
    cases h
  · exact ⟨r, c, hstart⟩

/-- On a map with an empty space a null direction is compared. -/
theorem movePlayer_nullPointer (fs : FileSystem) (p : UInt8) (h : isConnected l = true) :
    (movePlayer fs l p none).ret = .nullPointer := by
  obtain ⟨r, c, hstart⟩ := startPosition_of_connected h p
  have hne : ¬ ((r : Int) = -1 ∧ (c : Int) = -1) := by omega
  simp only [movePlayer, hstart, if_neg hne]

/-- A direction that is not null is only compared. -/
theorem movePlayer_returned (fs : FileSystem) (l : Labyrinth) (p : UInt8) (d : String) :
    ∃ b, (movePlayer fs l p (some d)).ret = .returned b := by
  rcases movePlayer_cases fs l p d with ⟨r, c, r', c', hm⟩ | ⟨hret, _⟩
  · exact ⟨true, (movePlayer_moves fs hm).1⟩
  · exact ⟨false, hret⟩

/-- The process ends with status 0 or 1. -/
def Exit.isStatus (e : Exit) : Prop := e = .status 0 ∨ e = .status 1

instance (e : Exit) : Decidable e.isStatus := inferInstanceAs (Decidable (_ ∨ _))

theorem not_isStatus_nullPointer : ¬ Exit.isStatus .nullPointer := by decide

/-- The end of `main` on a map it loaded, for a valid player. -/
theorem main_of_loaded {mem : Nat → UInt8} {fs : FileSystem} {o : Options} {mapFile : String}
    (hboth : ¬ (o.versionFlag = true ∧ o.otherOptions = true)) (hfile : o.mapFile = some mapFile)
    (hload : loadMap mem fs mapFile = some l) (hplayer : isValidPlayer o.playerId = true) :
    (main mem fs o).1.isStatus ↔ o.direction.isSome = true := by
  simp only [main, if_neg hboth, hfile, hload, hplayer, if_true]
  cases hd : o.direction with
  | none =>
      obtain ⟨bytes, _, hbytes⟩ := loadMap_eq_some.mp hload
      have hnull := movePlayer_nullPointer fs o.playerId (loadBytes_loaded hbytes).connected
      simp only [hnull, Option.isSome_none, Bool.false_eq_true, iff_false]
      exact not_isStatus_nullPointer
  | some d =>
      obtain ⟨b, hb⟩ := movePlayer_returned fs l o.playerId d
      simp only [hb, Option.isSome_some, iff_true]
      cases b
      · exact Or.inr rfl
      · exact Or.inl rfl

/-- `main` returns a status exactly with the globals of `Answers`. -/
theorem main_isStatus_iff (mem : Nat → UInt8) (fs : FileSystem) (o : Options) :
    (main mem fs o).1.isStatus ↔ Answers mem fs o := by
  by_cases hboth : o.versionFlag = true ∧ o.otherOptions = true
  · have hmain : (main mem fs o).1 = .status 1 := by rw [main, if_pos hboth]
    exact ⟨fun _ => Or.inl hboth, fun _ => Or.inr hmain⟩
  simp only [Answers, hboth, false_or]
  cases hfile : o.mapFile with
  | none =>
      have hmain : (main mem fs o).1 = .nullPointer := by simp only [main, if_neg hboth, hfile]
      rw [hmain]
      constructor
      · exact fun h => absurd h not_isStatus_nullPointer
      · intro h
        obtain ⟨_, h, _⟩ := h
        cases h
  | some mapFile =>
      simp only [Option.some.injEq, exists_eq_left']
      cases hload : loadMap mem fs mapFile with
      | none =>
          have hmain : (main mem fs o).1 = .status 1 := by
            simp only [main, if_neg hboth, hfile, hload]
          exact ⟨fun _ => Or.inl rfl, fun _ => Or.inr hmain⟩
      | some l =>
          cases hplayer : isValidPlayer o.playerId with
          | false =>
              have hmain : (main mem fs o).1 = .status 1 := by
                simp only [main, if_neg hboth, hfile, hload, hplayer, Bool.false_eq_true, if_false]
              exact ⟨fun _ => Or.inr (Or.inl rfl), fun _ => Or.inr hmain⟩
          | true =>
              rw [main_of_loaded hboth hfile hload hplayer]
              simp

/-- For every argument vector and every file system the options are read, and the
process ends with status 0 or 1, with no null pointer handed on, exactly when the
globals they set are ones `main` answers to. -/
theorem runMain_isStatus_iff (posix : Bool) (mem : Nat → UInt8) (fs : FileSystem)
    (argv : List Arg) :
    ∃ s, parseOptions (options optionTable posix argv.tail) = .ok s ∧
      ((runMain posix mem fs argv).1.isStatus ↔ Answers mem fs s.globals) := by
  obtain ⟨s, hs⟩ := parseOptions_ok posix argv.tail
  refine ⟨s, hs, ?_⟩
  rw [runMain, hs]
  exact main_isStatus_iff mem fs s.globals

/-- `labyrinth --map board.txt --player 1`, as the frontends show a map, compares
the null direction, and `labyrinth --version` opens the null file name. -/
theorem runMain_nullPointer :
    (runMain false (fun _ => 0) boardFiles
      (["labyrinth", "--map", "board.txt", "--player", "1"].map ascii)).1 = .nullPointer ∧
    (runMain false (fun _ => 0) boardFiles (["labyrinth", "--version"].map ascii)).1
      = .nullPointer := by
  decide

end OsCourse.Maze
