import Mathlib.Data.List.Basic
import Mathlib.Tactic

/-!
# Command lines

The options that `getopt_long` finds in a list of arguments, as its manual
describes it.  An argument is the list of its bytes.

An argument that starts with a dash and has more characters holds options.  After
two dashes stands one long option, whose name may be abbreviated when the
abbreviation is unique, and whose value may follow an equals sign.  After one dash
stand any number of short options.  An option that takes a value takes the rest
of its argument, or else the next argument.  Two dashes alone end the options.
Other arguments are skipped, or end the options where the environment asks for
the behaviour of POSIX.

`options` lists what the calls of `getopt_long` return until the last one.  What
an element of this list can be is `Valid`: an option of the table, with a value
exactly when it takes one, or an error (`options_valid`).
-/

namespace OsCourse.Getopt

/-- A string of an argument vector, without its terminator. -/
abbrev Arg := List UInt8

/-- The bytes of a text of ASCII characters. -/
def ascii (s : String) : Arg := s.toList.map Char.toUInt8

/-- The dash. -/
def dash : UInt8 := '-'.toUInt8

/-- The equals sign. -/
def equalsSign : UInt8 := '='.toUInt8

/-- An entry of the table of long options. -/
structure LongOption where
  name : Arg
  /-- Whether it takes a value. -/
  takesValue : Bool
  /-- What a call returns for it. -/
  val : UInt8

/-- The options of a program. -/
structure Table where
  /-- Short options, and whether they take a value. -/
  short : List (UInt8 × Bool)
  long : List LongOption

/-- What a call finds. -/
inductive Found where
  /-- A short option with its value. -/
  | short (c : UInt8) (optarg : Option Arg)
  /-- The long option at an index of the table, with its value. -/
  | long (index : Nat) (opt : LongOption) (optarg : Option Arg)
  /-- No option of the table, or one without its value or with one too many: `'?'`. -/
  | error

/-- What the call returns. -/
def Found.returned : Found → UInt8
  | .short c _ => c
  | .long _ opt _ => opt.val
  | .error => '?'.toUInt8

/-- What the call leaves in `optarg`. -/
def Found.optarg : Found → Option Arg
  | .short _ optarg => optarg
  | .long _ _ optarg => optarg
  | .error => none

/-- The index of the last long option, which only a long option changes. -/
def Found.indexAfter (optionIndex : Nat) : Found → Nat
  | .long index _ _ => index
  | _ => optionIndex

variable (table : Table)

/-! ## Long options -/

/-- The long options whose names start with a text, with their indices. -/
def Table.candidates (name : Arg) : List (LongOption × Nat) :=
  table.long.zipIdx.filter fun o => name.isPrefixOf o.1.name

/-- The long option that a text names: the one of this name, or else the only one
whose name starts so. -/
def Table.named (name : Arg) : Option (LongOption × Nat) :=
  match (table.candidates name).find? fun o => o.1.name = name with
  | some o => some o
  | none =>
      match table.candidates name with
      | [o] => some o
      | _ => none

/-- The value after the equals sign, if there is one. -/
def inlineValue (text : Arg) : Option Arg :=
  match text.dropWhile (· ≠ equalsSign) with
  | [] => none
  | _ :: value => some value

/-- A long option.  `next` is the argument that follows.  The second part says
whether it is taken as the value. -/
def scanLong (text : Arg) (next : Option Arg) : Found × Bool :=
  match table.named (text.takeWhile (· ≠ equalsSign)) with
  | none => (.error, false)
  | some (opt, index) =>
      match inlineValue text, opt.takesValue, next with
      | some value, true, _ => (.long index opt (some value), false)
      | some _, false, _ => (.error, false)
      | none, false, _ => (.long index opt none, false)
      | none, true, some value => (.long index opt (some value), true)
      | none, true, none => (.error, false)

/-! ## Short options -/

/-- The short options of one argument. -/
def scanShort (next : Option Arg) : Arg → List Found × Bool
  | [] => ([], false)
  | c :: cs =>
      match table.short.find? fun o => o.1 = c with
      | none => let (found, taken) := scanShort next cs; (.error :: found, taken)
      | some (_, false) => let (found, taken) := scanShort next cs; (.short c none :: found, taken)
      | some (_, true) =>
          match cs, next with
          | [], some value => ([.short c (some value)], true)
          | [], none => ([.error], false)
          | _ :: _, _ => ([.short c (some cs)], false)

/-! ## All arguments -/

/-- What one argument with options holds, and whether it takes the next one. -/
def scanArg (arg : Arg) (next : Option Arg) : List Found × Bool :=
  if arg.take 2 = [dash, dash] then
    let (found, taken) := scanLong table (arg.drop 2) next
    ([found], taken)
  else scanShort table next (arg.drop 1)

/-- An argument that holds options. -/
def isOption (arg : Arg) : Bool := arg.head? = some dash && 2 ≤ arg.length

/-- What the calls of `getopt_long` find, one after the other. -/
def options (posix : Bool) : List Arg → List Found
  | [] => []
  | arg :: args =>
      if arg = [dash, dash] then []
      else if isOption arg then
        match args with
        | [] => (scanArg table arg none).1
        | next :: rest =>
            let (found, taken) := scanArg table arg (some next)
            if taken then found ++ options posix rest else found ++ options posix (next :: rest)
      else if posix then []
      else options posix args

/-! ## What is found -/

variable {table}

/-- An option of the table with its value. -/
def Found.Valid (table : Table) : Found → Prop
  | .short c optarg => ∃ takes, (c, takes) ∈ table.short ∧ optarg.isSome = takes
  | .long index opt optarg => table.long[index]? = some opt ∧ optarg.isSome = opt.takesValue
  | .error => True

theorem getElem?_of_candidates {name : Arg} {o : LongOption × Nat} (h : o ∈ table.candidates name) :
    table.long[o.2]? = some o.1 :=
  List.mk_mem_zipIdx_iff_getElem?.mp (List.mem_of_mem_filter h)

theorem getElem?_of_named {name : Arg} {opt : LongOption} {index : Nat}
    (h : table.named name = some (opt, index)) : table.long[index]? = some opt := by
  unfold Table.named at h
  split at h
  next o ho =>
    obtain rfl := Option.some.inj h
    exact getElem?_of_candidates (List.mem_of_find?_eq_some ho)
  next =>
    split at h
    next o ho =>
      obtain rfl := Option.some.inj h
      exact getElem?_of_candidates (ho ▸ List.mem_singleton_self _)
    next => cases h

theorem scanLong_valid (text : Arg) (next : Option Arg) :
    (scanLong table text next).1.Valid table := by
  unfold scanLong
  split
  next => exact trivial
  next opt index hnamed =>
    have hopt := getElem?_of_named hnamed
    split
    next h => exact ⟨hopt, h.symm⟩
    next => exact trivial
    next h => exact ⟨hopt, h.symm⟩
    next h => exact ⟨hopt, h.symm⟩
    next => exact trivial

theorem scanShort_valid (next : Option Arg) : ∀ cs : Arg,
    ∀ f ∈ (scanShort table next cs).1, f.Valid table
  | [], f, hf => by cases hf
  | c :: cs, f, hf => by
      unfold scanShort at hf
      split at hf
      next =>
        rcases List.mem_cons.mp hf with rfl | hf
        · exact trivial
        · exact scanShort_valid next cs f hf
      next c' hc =>
        have hmem := List.mem_of_find?_eq_some hc
        obtain rfl : c' = c := by simpa using List.find?_some hc
        rcases List.mem_cons.mp hf with rfl | hf
        · exact ⟨false, hmem, rfl⟩
        · exact scanShort_valid next cs f hf
      next c' hc =>
        have hmem := List.mem_of_find?_eq_some hc
        obtain rfl : c' = c := by simpa using List.find?_some hc
        split at hf
        next => rw [List.mem_singleton.mp hf]; exact ⟨true, hmem, rfl⟩
        next => rw [List.mem_singleton.mp hf]; exact trivial
        next => rw [List.mem_singleton.mp hf]; exact ⟨true, hmem, rfl⟩

theorem scanArg_valid (arg : Arg) (next : Option Arg) :
    ∀ f ∈ (scanArg table arg next).1, f.Valid table := by
  intro f hf
  unfold scanArg at hf
  split at hf
  next => rw [List.mem_singleton.mp hf]; exact scanLong_valid _ _
  next => exact scanShort_valid _ _ f hf

/-- Every call finds an option of the table with its value, or an error. -/
theorem options_valid (posix : Bool) : ∀ args : List Arg,
    ∀ f ∈ options table posix args, f.Valid table
  | [], f, hf => by cases hf
  | [arg], f, hf => by
      simp only [options] at hf
      split at hf
      · cases hf
      · split at hf
        · exact scanArg_valid arg none f hf
        · split at hf <;> cases hf
  | arg :: next :: rest, f, hf => by
      rw [options] at hf
      split at hf
      next => cases hf
      next =>
        split at hf
        next =>
          dsimp only at hf
          split at hf
          · rcases List.mem_append.mp hf with hf | hf
            · exact scanArg_valid arg (some next) f hf
            · exact options_valid posix rest f hf
          · rcases List.mem_append.mp hf with hf | hf
            · exact scanArg_valid arg (some next) f hf
            · exact options_valid posix (next :: rest) f hf
        next =>
          split at hf
          next => cases hf
          next => exact options_valid posix (next :: rest) f hf

end OsCourse.Getopt
