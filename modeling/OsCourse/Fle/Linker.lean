import OsCourse.Fle.Load
import OsCourse.Lib.Dict
import OsCourse.Lib.Except

/-!
# The linker

`FLE_ld` collects the sections of its object files under their names and runs
twice over them.  Labels are entered in one symbol table: a global label under
its own name, a local label and the start of a section under the name of the
file, a dot and the name.  The first pass takes a symbol it does not know for 0.
The second looks a symbol up as a local one first.

An item is kept as what `item.split(': ')` and the evaluation of a relocation
make of it.  Relocations are `i32(sym + c - here)`, where the constant carries
its sign and the symbol is a name that Python looks up: for the evaluation `True` is
a constant and `raise` is an error, whatever the table holds.  The table also holds
`i32` itself, so the name is looked up like any other.  What the file system and the
JSON reader deliver is a parameter: a function from file names to objects.
-/

namespace OsCourse.Fle

/-! ## Objects -/

/-- The keywords of Python, and the one name that is a constant. -/
def keywords : List Text :=
  ["False", "None", "True", "__debug__", "and", "as", "assert", "async", "await", "break", "class",
    "continue", "def", "del", "elif", "else", "except", "finally", "for", "from", "global", "if",
    "import", "in", "is", "lambda", "nonlocal", "not", "or", "pass", "raise", "return", "try",
    "while", "with", "yield"].map String.toList

/-- A name that Python looks up: letters, digits and underscores, and no keyword. -/
def isIdentifier (name : Text) : Bool :=
  (match name with
    | [] => false
    | c :: _ => c.isAlpha || c = '_') &&
  name.all (fun c => c.isAlphanum || c = '_') && keywords.all (· != name)

/-- A name in a relocation. -/
structure Ident where
  /-- The name. -/
  text : Text
  /-- Other texts are constants or no names for Python. -/
  valid : isIdentifier text = true
deriving DecidableEq

/-- A dot would select an attribute. -/
theorem Ident.noDot (sym : Ident) : '.' ∉ sym.text := by
  intro hdot
  have h := sym.valid
  simp only [isIdentifier, Bool.and_eq_true, List.all_eq_true] at h
  exact absurd (h.1.2 '.' hdot) (by decide)

/-- An item of a section. -/
inductive Item where
  /-- `📤: symb`. -/
  | globalLabel (symb : Text)
  /-- `🏷️: symb`. -/
  | localLabel (symb : Text)
  /-- `🔢: xs`. -/
  | bytes (xs : List UInt8)
  /-- `❓: i32(sym + addend - 📍)`. -/
  | reloc (sym : Ident) (addend : Int)
deriving DecidableEq

/-- A file as the JSON reader delivers it: its type and the lists under its keys. -/
structure Obj where
  /-- The type. -/
  type : Text
  /-- The other entries.  The keys of sections start with a dot. -/
  entries : Dict Text (List Item)

/-- A value of the symbol table. -/
inductive Value where
  /-- An offset. -/
  | int (n : Int)
  /-- The function that encodes a number in four bytes. -/
  | i32
deriving DecidableEq

/-- The symbol table. -/
abbrev Symbols := Dict Text Value

/-- What stops the linker. -/
inductive LinkError where
  /-- A file does not exist. -/
  | noSuchFile (fle : Text)
  /-- A file is not an object. -/
  | notObj (fle : Text)
  /-- There is no `-o`. -/
  | noDest
  /-- `Multiple definition of symb`. -/
  | multipleDefinition (symb : Text)
  /-- `Undefined symbol: key`. -/
  | undefinedSymbol (key : Text)
  /-- An offset is called or the function is used as a number. -/
  | typeError
  /-- A value does not fit in four bytes. -/
  | overflow
deriving DecidableEq

/-- The executable that is written. -/
structure Exe where
  /-- The global symbols. -/
  symbols : List (Text × Int)
  /-- The lines of `.load`. -/
  load : List Text
deriving DecidableEq

/-! ## Relocations -/

/-- The key of a name local to a file: `f'{fle}.{name}'`. -/
def localKey (fle name : Text) : Text := fle ++ '.' :: name

/-- `sec_name.replace('.', '_')`. -/
def mangle (secName : Text) : Text := secName.map fun c => if c = '.' then '_' else c

/-- The name of the encoding function. -/
def i32Name : Text := "i32".toList

/-- `x.to_bytes(4, 'little', signed=True)`. -/
def toBytes (x : Int) : Except LinkError (List UInt8) :=
  if -2 ^ 31 ≤ x ∧ x < 2 ^ 31 then
    .ok ((List.range 4).map fun i => UInt8.ofNat ((x % 2 ^ 32).toNat / 256 ^ i))
  else .error .overflow

/-- `Symbols.__getitem__`. -/
def getItem (iter : Nat) (fle : Text) (symbols : Symbols) (key : Text) : Except LinkError Value :=
  if iter = 0 then .ok ((symbols.get? key).getD (.int 0))
  else
    match symbols.get? (localKey fle key) with
    | some v => .ok v
    | none =>
        match symbols.get? key with
        | some v => .ok v
        | none => .error (.undefinedSymbol key)

/-- The evaluation of `i32(sym + addend - here)`. -/
def evalReloc (iter : Nat) (fle : Text) (symbols : Symbols) (here : Nat) (sym : Ident)
    (addend : Int) : Except LinkError (List UInt8) := do
  let f ← getItem iter fle symbols i32Name
  let x ← getItem iter fle symbols sym.text
  match x, f with
  | .int v, .i32 => toBytes (v + addend - here)
  | _, _ => .error .typeError

/-! ## The passes -/

/-- The table and the image so far. -/
structure State where
  /-- The symbol table. -/
  symbols : Symbols
  /-- The image. -/
  res : List UInt8

/-- Enter the current offset in the table. -/
def State.define (st : State) (key : Text) : State :=
  { st with symbols := st.symbols.set key (.int st.res.length) }

/-- One item of a section body. -/
def linkItem (iter : Nat) (fle : Text) (st : State) : Item → Except LinkError State
  | .globalLabel symb =>
      if iter = 0 ∧ symb ∈ st.symbols.keys then .error (.multipleDefinition symb)
      else .ok (st.define symb)
  | .localLabel symb => .ok (st.define (localKey fle symb))
  | .bytes xs => .ok { st with res := st.res ++ xs }
  | .reloc sym addend => do
      let bs ← evalReloc iter fle st.symbols st.res.length sym addend
      .ok { st with res := st.res ++ bs }

/-- One section body of one file. -/
def linkBody (iter : Nat) (secName : Text) (st : State) (body : Text × List Item) :
    Except LinkError State :=
  body.2.foldlM (linkItem iter body.1) (st.define (localKey body.1 (mangle secName)))

/-- All bodies of the sections of one name. -/
def linkSection (iter : Nat) (st : State) (sec : Text × List (Text × List Item)) :
    Except LinkError State :=
  sec.2.foldlM (linkBody iter sec.1) st

/-- The collected sections. -/
abbrev Sections := Dict Text (List (Text × List Item))

/-- One pass over all sections. -/
def linkPass (iter : Nat) (sections : Sections) (symbols : Symbols) : Except LinkError State :=
  sections.entries.foldlM (linkSection iter) ⟨symbols, []⟩

/-- The table before the first pass. -/
def initSymbols : Symbols := Dict.set Dict.empty i32Name .i32

/-- The offsets of the table whose keys have no dot. -/
def symbolsGlobal (symbols : Symbols) : List (Text × Int) :=
  symbols.entries.filterMap fun x =>
    match x.2 with
    | .int n => if '.' ∉ x.1 then some (x.1, n) else none
    | .i32 => none

/-! ## The command line -/

/-- The sections of an object in the order of its keys. -/
def Obj.sections (o : Obj) : List (Text × List Item) :=
  o.entries.entries.filter fun x => x.1.head? = some '.'

/-- What the loop over the arguments has read. -/
structure Args where
  /-- The destination. -/
  dest : Option Text
  /-- The sections. -/
  sections : Sections

/-- Add the sections of one file. -/
def Args.addFile (a : Args) (fle : Text) (o : Obj) : Args :=
  { a with sections := o.sections.foldl (fun d x => d.push x.1 (fle, x.2)) a.sections }

/-- The option for the destination. -/
def destFlag : Text := "-o".toList

/-- The type of an object file. -/
def objType : Text := ".obj".toList

/-- The loop over the arguments, where `prev` is the argument before. -/
def readArgs (files : Text → Option Obj) :
    Option Text → List Text → Args → Except LinkError Args
  | _, [], a => .ok a
  | prev, fle :: args, a =>
      if fle = destFlag then readArgs files (some fle) args a
      else if prev = some destFlag then readArgs files (some fle) args { a with dest := some fle }
      else
        match files fle with
        | none => .error (.noSuchFile fle)
        | some o =>
            if o.type = objType then readArgs files (some fle) args (a.addFile fle o)
            else .error (.notObj fle)

/-- `FLE_ld`: the destination and what is written to it. -/
def ld (files : Text → Option Obj) (args : List Text) : Except LinkError (Text × Exe) := do
  let a ← readArgs files none args ⟨none, Dict.empty⟩
  match a.dest with
  | none => .error .noDest
  | some dest =>
      let pass0 ← linkPass 0 a.sections initSymbols
      let pass1 ← linkPass 1 a.sections pass0.symbols
      .ok (dest, ⟨symbolsGlobal pass1.symbols, loadLines pass1.res⟩)

/-! ## Inversion -/

theorem evalReloc_ok {iter : Nat} {fle : Text} {symbols : Symbols} {here : Nat} {sym : Ident}
    {addend : Int} {bs : List UInt8} (h : evalReloc iter fle symbols here sym addend = .ok bs) :
    ∃ v, getItem iter fle symbols sym.text = .ok (.int v) ∧
      toBytes (v + addend - here) = .ok bs := by
  obtain ⟨f, -, h⟩ := bind_ok h
  obtain ⟨x, hx, h⟩ := bind_ok h
  cases x with
  | i32 => cases h
  | int v =>
      cases f with
      | int n => cases h
      | i32 => exact ⟨v, hx, h⟩

theorem ld_ok {files : Text → Option Obj} {args : List Text} {dest : Text} {exe : Exe}
    (h : ld files args = .ok (dest, exe)) :
    ∃ a pass0 pass1, readArgs files none args ⟨none, Dict.empty⟩ = .ok a ∧
      linkPass 0 a.sections initSymbols = .ok pass0 ∧
      linkPass 1 a.sections pass0.symbols = .ok pass1 ∧
      exe = ⟨symbolsGlobal pass1.symbols, loadLines pass1.res⟩ := by
  obtain ⟨⟨dst, sections⟩, ha, h⟩ := bind_ok h
  cases dst with
  | none => cases h
  | some dst =>
      obtain ⟨pass0, h0, h⟩ := bind_ok h
      obtain ⟨pass1, h1, h⟩ := bind_ok h
      cases h
      exact ⟨_, pass0, pass1, ha, h0, h1, rfl⟩

end OsCourse.Fle
