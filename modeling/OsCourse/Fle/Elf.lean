import OsCourse.Fle.Linker
import Mathlib.Data.List.Infix

/-!
# Objects from ELF files

`elf_to_fle` turns a section of an ELF object into the items of an FLE object.  It
gets the symbols from `objdump -t` and the relocations from `readelf -r`.  What the
patterns of the source cut out of a line is a field of the records here.  The last
field of a symbol is what `objdump` prints to the end of the line, where `.hidden` may
come before the name.  The last field of a relocation stays a text, `name + addend` or
`name - addend` with the addend in hexadecimal, because `elf_to_fle` rewrites it:
numbers get the prefix `0x`, dots become underscores, and `- 📍` is appended, whatever
the kind of the relocation.

`FLE_ld` reads the texts back (`readItem`).  Of the expressions that Python can
evaluate only the form that `elf_to_fle` writes is modelled.  A name has to be an
identifier for it, since Python would take a keyword for something else.  Then a
relocation is read back with its name, with dots replaced, and its addend
(`readItem_field`).

The loop over the bytes of a section makes pieces, each of which becomes one item.
-/

namespace OsCourse.Fle

/-! ## ELF objects -/

/-- How a symbol is bound. -/
inductive Binding where
  | l
  | g
  /-- Weak symbols, and others without a line that the pattern takes. -/
  | other
deriving DecidableEq

/-- Who can see a symbol. -/
inductive Visibility where
  | stvDefault
  | stvInternal
  | stvHidden
  | stvProtected
deriving DecidableEq

/-- What `objdump -t` prints before the name. -/
def Visibility.text : Visibility → Text
  | .stvDefault => []
  | .stvInternal => ".internal ".toList
  | .stvHidden => ".hidden ".toList
  | .stvProtected => ".protected ".toList

/-- An entry of the symbol table. -/
structure Symbol where
  symbType : Binding
  /-- The section that defines it, if one does. -/
  sec : Option Text
  offset : Nat
  name : Text
  visibility : Visibility
deriving DecidableEq

/-- The last group of the pattern for a line of `objdump -t`: what follows the blanks
after the size, to the end of the line. -/
def Symbol.shown (s : Symbol) : Text :=
  (s.visibility.text ++ s.name).dropWhile Char.isWhitespace

/-- The kinds of relocations. -/
inductive RelocKind where
  /-- `R_X86_64_PC32`. -/
  | pc32
  /-- `R_X86_64_PLT32`. -/
  | plt32
  /-- `R_X86_64_32`. -/
  | abs32
  | other (name : Text)
deriving DecidableEq

/-- A relocation entry. -/
structure Reloc where
  offset : Nat
  kind : RelocKind
  symbol : Symbol
  addend : Int
deriving DecidableEq

/-- An object with its allocated sections. -/
structure Elf where
  /-- The bytes of the sections. -/
  sections : Dict Text (List UInt8)
  symbols : List Symbol
  /-- The output of `readelf -r`: headings with the entries below them. -/
  relocs : List (Text × List Reloc)
  /-- `FLE_cc` takes the sections whose names start with a dot. -/
  dotted : ∀ secName ∈ sections.keys, secName.head? = some '.'

/-- The lines of `objdump -t` that the pattern takes. -/
def Elf.labels (elf : Elf) : List Symbol :=
  elf.symbols.filter fun s => s.symbType ≠ .other ∧ s.sec.isSome

/-- The digits of a number in base 16, where `fuel` bounds their number. -/
def hexDigits : Nat → Nat → Text
  | 0, _ => []
  | fuel + 1, n => if n < 16 then [hexDigit n] else hexDigits fuel (n / 16) ++ [hexDigit (n % 16)]

/-- A number in hexadecimal. -/
def hexText (n : Nat) : Text := hexDigits (n + 1) n

/-- The sign of an addend. -/
def signText (addend : Int) : Text := if 0 ≤ addend then ['+'] else ['-']

/-- The last field of a line of `readelf -r`. -/
def Reloc.nameAndAddend (r : Reloc) : Text :=
  joinBlank [r.symbol.name, signText r.addend, hexText r.addend.natAbs]

/-! ## `elf_to_fle` -/

/-- What stops the conversion. -/
inductive CcError where
  /-- `Unsupported relocation`. -/
  | unsupported (kind : RelocKind)
  | indexError

/-- A hexadecimal digit of a pattern. -/
def isHexDigit (c : Char) : Bool := (digitValue c).isSome

/-- `re.sub(r'([0-9a-fA-F]+)', '0x' + ..)`, where `inRun` says whether the character
before was a digit. -/
def prefixHex : Bool → Text → Text
  | _, [] => []
  | inRun, c :: cs =>
      if isHexDigit c then
        if inRun then c :: prefixHex true cs else '0' :: 'x' :: c :: prefixHex true cs
      else c :: prefixHex false cs

/-- A value of the dictionary `relocations`, with the entry it was made from. -/
structure RelocField where
  skip : Nat
  expr : Text
  origin : Reloc

/-- The kinds that are accepted. -/
def RelocKind.supported : RelocKind → Bool
  | .other _ => false
  | _ => true

/-- The body of the loop over the lines of `readelf -r`. -/
def addReloc (relocations : Dict Nat RelocField) (r : Reloc) :
    Except CcError (Dict Nat RelocField) :=
  match splitWords [] r.nameAndAddend with
  | [] => .error .indexError
  | first :: rest =>
      let expr := joinBlank (first :: rest.map (prefixHex false)) ++ " - 📍".toList
      if r.kind.supported then
        .ok (relocations.set r.offset ⟨4, mangle ("i32(".toList ++ expr ++ ")".toList), r⟩)
      else .error (.unsupported r.kind)

/-- The expression that is written for an entry. -/
def Reloc.expr (r : Reloc) : Text :=
  let rs := splitWords [] r.nameAndAddend
  mangle ("i32(".toList ++ (joinBlank (rs.take 1 ++ (rs.drop 1).map (prefixHex false)) ++
    " - 📍".toList) ++ ")".toList)

/-- The field of an entry. -/
def Reloc.field (r : Reloc) : RelocField := ⟨4, r.expr, r⟩

/-- Whether the entries below a heading belong to a section. -/
def enabled (secName heading : Text) : Bool := (".rela".toList ++ secName) <:+: heading

/-- The entries that are read for a section. -/
def Elf.entries (elf : Elf) (secName : Text) : List Reloc :=
  (elf.relocs.filter fun block => enabled secName block.1).flatMap Prod.snd

/-- The dictionary `relocations`. -/
def relocations (elf : Elf) (secName : Text) : Except CcError (Dict Nat RelocField) :=
  (elf.entries secName).foldlM addReloc Dict.empty

/-- What the loop appends to `res`. -/
inductive Piece where
  | label (s : Symbol)
  | bytes (xs : List UInt8)
  | field (f : RelocField)

/-- The mark of a label. -/
def labelMark (s : Symbol) : Text := if s.symbType = .l then "🏷️".toList else "📤".toList

/-- The text that is appended. -/
def Piece.text : Piece → Text
  | .label s => labelMark s ++ ": ".toList ++ mangle s.shown
  | .bytes xs => loadLine xs
  | .field f => "❓: ".toList ++ f.expr

/-- The variables of the loop over the bytes. -/
structure Scan where
  res : List Piece
  skip : Nat
  holding : List UInt8

/-- `do_dump`. -/
def Scan.dump (l : Scan) : Scan :=
  if l.holding = [] then l else { l with res := l.res ++ [.bytes l.holding], holding := [] }

/-- Append a piece after the bytes that are held. -/
def Scan.append (l : Scan) (p : Piece) : Scan := { l.dump with res := l.dump.res ++ [p] }

/-- The label of a symbol, if it is at the offset `i`. -/
def Scan.addLabel (secName : Text) (i : Nat) (l : Scan) (s : Symbol) : Scan :=
  if s.sec = some secName ∧ s.offset = i then l.append (.label s) else l

/-- The labels at the offset `i`. -/
def Scan.addLabels (secName : Text) (symbols : List Symbol) (i : Nat) (l : Scan) : Scan :=
  symbols.foldl (Scan.addLabel secName i) l

/-- The relocation at the offset `i`. -/
def Scan.addField (relocations : Dict Nat RelocField) (i : Nat) (l : Scan) : Scan :=
  match relocations.get? i with
  | some f => { l.append (.field f) with skip := f.skip }
  | none => l

/-- The byte itself, unless it is part of a field. -/
def Scan.addByte (b : UInt8) (l : Scan) : Scan :=
  if 0 < l.skip then { l with skip := l.skip - 1 }
  else
    let l := { l with holding := l.holding ++ [b] }
    if l.holding.length = 16 then l.dump else l

/-- The body of the loop over the bytes. -/
def Scan.step (secName : Text) (symbols : List Symbol)
    (relocations : Dict Nat RelocField) (l : Scan) (x : UInt8 × Nat) : Scan :=
  ((l.addLabels secName symbols x.2).addField relocations x.2).addByte x.1

/-- The pieces of a section. -/
def elfPieces (elf : Elf) (secName : Text) : Except CcError (List Piece) := do
  let relocations ← relocations elf secName
  let sectionData := (elf.sections.get? secName).getD []
  .ok (sectionData.zipIdx.foldl (Scan.step secName elf.labels relocations) ⟨[], 0, []⟩).dump.res

/-- `elf_to_fle`. -/
def elfToFle (elf : Elf) (secName : Text) : Except CcError (List Text) :=
  (elfPieces elf secName).map fun pieces => pieces.map Piece.text

/-! ## Reading items -/

/-- `item.split(': ')`, where `word` is the part of the current word already read. -/
def splitColon : Text → Text → List Text
  | word, [] => [word]
  | word, ':' :: ' ' :: cs => word :: splitColon [] cs
  | word, c :: cs => splitColon (word ++ [c]) cs

/-- A literal such as `0x4`. -/
def readHex : Text → Option Nat
  | '0' :: 'x' :: digits => int16 digits
  | _ => none

/-- The signed constant of an expression. -/
def readConstant (sign digits : Text) : Option Int :=
  (readHex digits).bind fun n =>
    if sign = ['+'] then some n else if sign = ['-'] then some (-n) else none

/-- The expression `i32(name + c - 📍)` or `i32(name - c - 📍)`. -/
def readExpr (expr : Text) : Option Item :=
  if expr.take 4 = "i32(".toList ∧ expr.getLast? = some ')' then
    match splitWords [] (expr.drop 4).dropLast with
    | [name, sign, digits, ['-'], ['📍']] =>
        if h : isIdentifier name = true then
          (readConstant sign digits).map fun c => .reloc ⟨name, h⟩ c
        else none
    | _ => none
  else none

/-- One item of a section as `FLE_ld` takes it. -/
def readItem (text : Text) : Option Item :=
  match splitColon [] text with
  | [mark, body] =>
      if mark = "📤".toList then some (.globalLabel body)
      else if mark = "🏷️".toList then some (.localLabel body)
      else if mark = [bytesMark] then (readBytes (splitWords [] body)).map .bytes
      else if mark = "❓".toList then readExpr body
      else none
  | _ => none

/-- All items of a section. -/
def readItems : List Text → Option (List Item)
  | [] => some []
  | text :: texts => do
      let i ← readItem text
      let is ← readItems texts
      some (i :: is)

/-- The items of the sections of an object, one section after the other. -/
def readSections (elf : Elf) : List Text → Option (List (Text × List Item))
  | [] => some []
  | secName :: rest => do
      let texts ← (elfToFle elf secName).toOption
      let items ← readItems texts
      let others ← readSections elf rest
      some ((secName, items) :: others)

/-- The object that `FLE_cc` writes, as `FLE_ld` reads it. -/
def fleObject (elf : Elf) : Option Obj :=
  (readSections elf elf.sections.keys).map fun entries => ⟨objType, Dict.ofList entries⟩

/-! ## The texts come back -/

theorem mangle_append (a b : Text) : mangle (a ++ b) = mangle a ++ mangle b := List.map_append

variable {t : Text} {r : Reloc} {rs : List Reloc} {i : Item}

theorem mangle_eq_self (h : '.' ∉ t) : mangle t = t := by
  refine (List.map_congr_left fun c hc => ?_).trans (List.map_id t)
  have hne : c ≠ '.' := fun he => h (he ▸ hc)
  rw [if_neg hne, id_eq]

theorem mangle_joinBlank : ∀ words : List Text,
    mangle (joinBlank words) = joinBlank (words.map mangle)
  | [] => rfl
  | [w] => rfl
  | w :: w' :: words => by
      have ih := mangle_joinBlank (w' :: words)
      have hblank : ∀ t : Text, mangle (' ' :: t) = ' ' :: mangle t := fun _ => rfl
      rw [joinBlank, mangle_append, hblank, ih]
      · rfl
      · exact List.cons_ne_nil _ _

theorem isWord_mangle (h : IsWord t) : IsWord (mangle t) := by
  refine ⟨fun hnil => h.1 (List.map_eq_nil_iff.mp hnil), fun c hc => ?_⟩
  obtain ⟨d, hd, rfl⟩ := List.mem_map.mp hc
  split
  · decide
  · exact h.2 d hd

section HexText

variable {n : Nat}

theorem exists_digit_of_mem {fuel : Nat} {c : Char} (h : c ∈ hexDigits fuel n) :
    ∃ k < 16, c = hexDigit k := by
  induction fuel generalizing n with
  | zero => cases h
  | succ fuel ih =>
      rw [hexDigits] at h
      split at h
      next hn => exact ⟨n, hn, List.mem_singleton.mp h⟩
      next =>
        rcases List.mem_append.mp h with h | h
        · exact ih h
        · exact ⟨n % 16, Nat.mod_lt _ (by decide), List.mem_singleton.mp h⟩

theorem digitValue_hexDigit {k : Nat} (h : k < 16) : digitValue (hexDigit k) = some k := by
  have hall : ∀ k < 16, digitValue (hexDigit k) = some k := by decide
  exact hall k h

theorem digitsValue_concat (acc : Nat) (ds : Text) (c : Char) :
    digitsValue acc (ds ++ [c]) =
      (digitsValue acc ds).bind fun v => (digitValue c).map fun d => 16 * v + d := by
  induction ds generalizing acc with
  | nil =>
      rw [List.nil_append, digitsValue.eq_2, digitsValue.eq_1, Option.bind_some]
      cases digitValue c <;> rfl
  | cons d ds ih =>
      rw [List.cons_append, digitsValue, digitsValue]
      cases digitValue d with
      | none => rfl
      | some v => exact ih (16 * acc + v)

theorem digitsValue_hexDigits {fuel : Nat} (h : n < fuel) :
    digitsValue 0 (hexDigits fuel n) = some n := by
  induction fuel generalizing n with
  | zero => omega
  | succ fuel ih =>
      rw [hexDigits]
      split
      next hn =>
        rw [digitsValue, digitValue_hexDigit hn]
        simp [digitsValue]
      next hn =>
        have hdiv : n / 16 < fuel := by omega
        rw [digitsValue_concat, ih hdiv, digitValue_hexDigit (Nat.mod_lt _ (by decide)),
          Option.bind_some, Option.map_some, Nat.div_add_mod]

theorem hexText_ne_nil (n : Nat) : hexText n ≠ [] := by
  rw [hexText, hexDigits]
  split <;> simp

theorem int16_hexText (n : Nat) : int16 (hexText n) = some n := by
  have hvalue := digitsValue_hexDigits (Nat.lt_succ_self n)
  cases ht : hexText n with
  | nil => exact absurd ht (hexText_ne_nil n)
  | cons c cs =>
      rw [int16, ← ht]
      exact hvalue

theorem isWord_hexText (n : Nat) : IsWord (hexText n) := by
  refine ⟨hexText_ne_nil n, fun c hc => ?_⟩
  obtain ⟨k, hk, rfl⟩ := exists_digit_of_mem hc
  exact hexDigit_not_blank hk

theorem isHexDigit_of_mem {c : Char} (h : c ∈ hexText n) : isHexDigit c = true := by
  obtain ⟨k, hk, rfl⟩ := exists_digit_of_mem h
  rw [isHexDigit, digitValue_hexDigit hk]
  rfl

theorem dot_not_mem_hexText (n : Nat) : '.' ∉ hexText n := fun h =>
  absurd (isHexDigit_of_mem h) (by decide)

theorem prefixHex_run : ∀ {t : Text}, (∀ c ∈ t, isHexDigit c = true) → prefixHex true t = t
  | [], _ => rfl
  | c :: cs, h => by
      rw [prefixHex, if_pos (h c (List.mem_cons_self ..)), if_pos rfl,
        prefixHex_run fun d hd => h d (List.mem_cons_of_mem _ hd)]

/-- A number gets its prefix. -/
theorem prefixHex_hexText (n : Nat) : prefixHex false (hexText n) = '0' :: 'x' :: hexText n := by
  have hdigits : ∀ c ∈ hexText n, isHexDigit c = true := fun c => isHexDigit_of_mem
  cases ht : hexText n with
  | nil => exact absurd ht (hexText_ne_nil n)
  | cons c cs =>
      rw [ht] at hdigits
      rw [prefixHex, if_pos (hdigits c (List.mem_cons_self ..)), if_neg Bool.false_ne_true,
        prefixHex_run fun d hd => hdigits d (List.mem_cons_of_mem _ hd)]

end HexText

/-- The words of the expression that is written for a relocation. -/
def Reloc.words (r : Reloc) : List Text :=
  [mangle r.symbol.name, signText r.addend, '0' :: 'x' :: hexText r.addend.natAbs, ['-'], ['📍']]

theorem isWord_signText (addend : Int) : IsWord (signText addend) := by
  rw [signText]
  split
  · decide
  · decide

theorem isWord_words (hname : IsWord r.symbol.name) : ∀ w ∈ r.words, IsWord w := by
  have hhex := isWord_hexText r.addend.natAbs
  have hnum : IsWord ('0' :: 'x' :: hexText r.addend.natAbs) := by
    refine ⟨List.cons_ne_nil _ _, fun c hc => ?_⟩
    rcases List.mem_cons.mp hc with rfl | hc
    · decide
    · rcases List.mem_cons.mp hc with rfl | hc
      · decide
      · exact hhex.2 c hc
  intro w hw
  simp only [Reloc.words, List.mem_cons, List.not_mem_nil, or_false] at hw
  rcases hw with rfl | rfl | rfl | rfl | rfl
  · exact isWord_mangle hname
  · exact isWord_signText _
  · exact hnum
  · decide
  · decide

theorem splitWords_nameAndAddend (hname : IsWord r.symbol.name) :
    splitWords [] r.nameAndAddend =
      [r.symbol.name, signText r.addend, hexText r.addend.natAbs] := by
  refine splitWords_joinBlank fun w hw => ?_
  simp only [List.mem_cons, List.not_mem_nil, or_false] at hw
  rcases hw with rfl | rfl | rfl
  · exact hname
  · exact isWord_signText _
  · exact isWord_hexText _

theorem prefixHex_signText (addend : Int) :
    prefixHex false (signText addend) = signText addend := by
  rw [signText]
  split <;> decide

theorem mangle_signText (addend : Int) : mangle (signText addend) = signText addend := by
  rw [signText]
  split <;> decide

theorem mangle_number (n : Nat) : mangle ('0' :: 'x' :: hexText n) = '0' :: 'x' :: hexText n := by
  have hmangle : ∀ t : Text, mangle ('0' :: 'x' :: t) = '0' :: 'x' :: mangle t := fun _ => rfl
  rw [hmangle, mangle_eq_self (dot_not_mem_hexText n)]

/-- The expression of a relocation against a symbol whose name is one word. -/
theorem Reloc.expr_eq (hname : IsWord r.symbol.name) :
    r.expr = "i32(".toList ++ joinBlank r.words ++ ")".toList := by
  have hexpr : joinBlank (r.symbol.name ::
      [signText r.addend, hexText r.addend.natAbs].map (prefixHex false)) ++ " - 📍".toList =
      joinBlank [r.symbol.name, signText r.addend, '0' :: 'x' :: hexText r.addend.natAbs, ['-'],
        ['📍']] := by
    simp [joinBlank, prefixHex_signText, prefixHex_hexText]
  have hopen : mangle "i32(".toList = "i32(".toList := rfl
  have hclose : mangle ")".toList = ")".toList := rfl
  rw [Reloc.expr, splitWords_nameAndAddend hname, List.take_succ_cons, List.take_zero,
    List.drop_succ_cons, List.drop_zero, List.singleton_append, hexpr, mangle_append,
    mangle_append, mangle_joinBlank, hopen, hclose, List.map_cons, List.map_cons, List.map_cons,
    mangle_signText, mangle_number]
  rfl

/-! ## The dictionary of relocations -/

theorem splitWords_eq_nil {acc : Text} (h : splitWords acc t = []) :
    acc = [] ∧ ∀ c ∈ t, c.isWhitespace = true := by
  induction t generalizing acc with
  | nil =>
      rw [splitWords] at h
      split at h
      next hacc => exact ⟨hacc, fun c hc => absurd hc List.not_mem_nil⟩
      next => cases h
  | cons c t ih =>
      rw [splitWords] at h
      split at h
      next hc =>
        split at h
        next hacc => exact ⟨hacc, List.forall_mem_cons.mpr ⟨hc, (ih h).2⟩⟩
        next => cases h
      next => exact absurd (ih h).1 (by simp)

/-- There is a sign in the last field. -/
theorem splitWords_nameAndAddend_ne_nil (r : Reloc) : splitWords [] r.nameAndAddend ≠ [] := by
  intro hnil
  obtain ⟨c, hc⟩ := List.exists_mem_of_ne_nil _ (isWord_signText r.addend).1
  have hmem : c ∈ r.nameAndAddend := by simp [Reloc.nameAndAddend, joinBlank, hc]
  have hblank := (splitWords_eq_nil hnil).2 c hmem
  rw [(isWord_signText r.addend).2 c hc] at hblank
  cases hblank

/-- The entry is accepted or the conversion stops. -/
theorem addReloc_eq (d : Dict Nat RelocField) (r : Reloc) :
    addReloc d r = if r.kind.supported then .ok (d.set r.offset r.field)
      else .error (.unsupported r.kind) := by
  rw [addReloc]
  split
  next hnil => exact absurd hnil (splitWords_nameAndAddend_ne_nil r)
  next first rest hwords =>
    have hexpr : r.expr = mangle ("i32(".toList ++
        (joinBlank (first :: rest.map (prefixHex false)) ++ " - 📍".toList) ++ ")".toList) := by
      rw [Reloc.expr, hwords]
      rfl
    rw [Reloc.field, hexpr]

/-- The last of the entries at an offset. -/
def lastAt (k : Nat) (rs : List Reloc) : Option Reloc := (rs.filter fun r => r.offset = k).getLast?

theorem lastAt_cons (k : Nat) (r : Reloc) (rs : List Reloc) :
    lastAt k (r :: rs) = (lastAt k rs).or (if r.offset = k then some r else none) := by
  rw [lastAt, List.filter_cons]
  split
  next h => rw [if_pos (of_decide_eq_true h), List.getLast?_cons, Option.or_some]; rfl
  next h => rw [if_neg fun he => h (decide_eq_true he), Option.or_none]; rfl

theorem lastAt_eq_some {k : Nat} (h : lastAt k rs = some r) :
    r ∈ rs ∧ r.offset = k := by
  have hmem := List.mem_filter.mp (List.mem_of_getLast? h)
  exact ⟨hmem.1, of_decide_eq_true hmem.2⟩

theorem lastAt_eq_none {k : Nat} :
    lastAt k rs = none ↔ ∀ r ∈ rs, r.offset ≠ k := by
  rw [lastAt, List.getLast?_eq_none_iff, List.filter_eq_nil_iff]
  simp

theorem exists_lastAt (h : r ∈ rs) :
    ∃ r', lastAt r.offset rs = some r' := by
  cases hlast : lastAt r.offset rs with
  | none => exact absurd rfl (lastAt_eq_none.mp hlast r h)
  | some r' => exact ⟨r', rfl⟩

/-- Entries are accepted if all of them are of supported kinds, and then each offset has
the field of its last entry. -/
theorem foldlM_addReloc {d d' : Dict Nat RelocField} (h : rs.foldlM addReloc d = .ok d') :
    (∀ r ∈ rs, r.kind.supported = true) ∧
      ∀ k, d'.get? k = ((lastAt k rs).map Reloc.field).or (d.get? k) := by
  induction rs generalizing d with
  | nil =>
      cases h
      exact ⟨fun r hr => absurd hr List.not_mem_nil, fun k => rfl⟩
  | cons r rs ih =>
      obtain ⟨mid, hmid, h⟩ := foldlM_cons_ok h
      obtain ⟨hkinds, hget⟩ := ih h
      rw [addReloc_eq] at hmid
      split at hmid
      next hkind =>
        cases hmid
        refine ⟨List.forall_mem_cons.mpr ⟨hkind, hkinds⟩, fun k => ?_⟩
        rw [hget, Dict.get?_set, lastAt_cons]
        cases lastAt k rs with
        | some r' => rfl
        | none => split <;> rfl
      next => cases hmid

theorem exists_foldlM_addReloc (h : ∀ r ∈ rs, r.kind.supported = true) (d : Dict Nat RelocField) :
    ∃ d', rs.foldlM addReloc d = .ok d' := by
  obtain ⟨d', hd', -⟩ := foldlM_ok (P := fun _ => True) (f := addReloc) (s := d)
    (fun r hr d _ => ⟨_, by rw [addReloc_eq, if_pos (h r hr)], trivial⟩) trivial
  exact ⟨d', hd'⟩

/-- The dictionary of a section. -/
theorem relocations_get? {elf : Elf} {secName : Text} {d : Dict Nat RelocField}
    (h : relocations elf secName = .ok d) (k : Nat) :
    d.get? k = (lastAt k (elf.entries secName)).map Reloc.field := by
  rw [(foldlM_addReloc h).2 k, Dict.get?_empty, Option.or_none]

/-! ## Reading them -/

theorem splitColon_mark {mark : Text} (h : ':' ∉ mark) (acc rest : Text) :
    splitColon acc (mark ++ ':' :: ' ' :: rest) = (acc ++ mark) :: splitColon [] rest := by
  induction mark generalizing acc with
  | nil => rw [List.nil_append, splitColon, List.append_nil]
  | cons c mark ih =>
      have hc : c ≠ ':' := fun he => h (he ▸ List.mem_cons_self ..)
      rw [List.cons_append, splitColon, ih fun hm => h (List.mem_cons_of_mem _ hm),
        List.append_assoc, List.singleton_append]
      intro cs he
      exact fun _ => hc he

theorem splitColon_ne_nil (acc t : Text) : splitColon acc t ≠ [] := by
  induction acc, t using splitColon.induct with
  | case1 word => exact List.cons_ne_nil _ _
  | case2 word cs ih => exact List.cons_ne_nil _ _
  | case3 word c cs hne ih =>
      rw [splitColon]
      · exact ih
      · exact hne

/-- A text that is one part is that part. -/
theorem splitColon_single {acc body : Text} (h : splitColon acc t = [body]) : body = acc ++ t := by
  induction acc, t using splitColon.induct with
  | case1 word =>
      rw [splitColon] at h
      rw [List.append_nil, ← List.singleton_inj.mp h]
  | case2 word cs ih =>
      rw [splitColon, List.cons.injEq] at h
      exact absurd h.2 (splitColon_ne_nil _ _)
  | case3 word c cs hne ih =>
      rw [splitColon] at h
      · rw [ih h, List.append_assoc, List.singleton_append]
      · exact hne

/-- An item with a mark is read by its mark. -/
theorem readItem_marked {mark rest : Text} (hmark : ':' ∉ mark)
    (h : readItem (mark ++ ':' :: ' ' :: rest) = some i) :
    (if mark = "📤".toList then some (.globalLabel rest)
      else if mark = "🏷️".toList then some (.localLabel rest)
      else if mark = [bytesMark] then (readBytes (splitWords [] rest)).map .bytes
      else if mark = "❓".toList then readExpr rest
      else none) = some i := by
  unfold readItem at h
  split at h
  next mark' body hsplit =>
    rw [splitColon_mark hmark, List.nil_append, List.cons.injEq] at hsplit
    obtain ⟨rfl, hbody⟩ := hsplit
    have hrest : body = rest := splitColon_single hbody
    rw [hrest] at h
    exact h
  next => cases h

/-- The item of a label. -/
def labelItem (s : Symbol) : Item :=
  if s.symbType = .l then .localLabel (mangle s.shown) else .globalLabel (mangle s.shown)

theorem readItem_label {s : Symbol} (h : readItem (Piece.label s).text = some i) :
    i = labelItem s := by
  have htext : (Piece.label s).text = labelMark s ++ ':' :: ' ' :: mangle s.shown := by
    rw [Piece.text, List.append_assoc]
    rfl
  rw [htext] at h
  rw [labelItem]
  by_cases hl : s.symbType = .l
  · rw [labelMark, if_pos hl] at h
    have hread := readItem_marked (by decide) h
    rw [if_neg (by decide), if_pos rfl] at hread
    rw [if_pos hl]
    exact (Option.some.inj hread).symm
  · rw [labelMark, if_neg hl] at h
    have hread := readItem_marked (by decide) h
    rw [if_pos rfl] at hread
    rw [if_neg hl]
    exact (Option.some.inj hread).symm

theorem readItem_bytes {xs : List UInt8} (h : readItem (Piece.bytes xs).text = some i) :
    i = .bytes xs := by
  have hmark : ':' ∉ [bytesMark] := by decide
  have hread := readItem_marked hmark h
  rw [if_neg (by decide), if_neg (by decide), if_pos rfl, splitWords_join, readBytes_hex] at hread
  exact (Option.some.inj hread).symm

theorem readConstant_addend (addend : Int) :
    readConstant (signText addend) ('0' :: 'x' :: hexText addend.natAbs) = some addend := by
  rw [readConstant, readHex, int16_hexText, Option.bind_some, signText]
  split
  next h => rw [if_pos rfl, Int.natAbs_of_nonneg h]
  next h =>
    rw [if_neg (by decide), if_pos rfl]
    exact congrArg some (by omega)

/-- An expression is read as a relocation. -/
theorem readExpr_some {expr : Text} (h : readExpr expr = some i) :
    ∃ sym addend, i = .reloc sym addend := by
  unfold readExpr at h
  split at h
  next =>
    split at h
    next =>
      split at h
      next =>
        obtain ⟨c, -, rfl⟩ := Option.map_eq_some_iff.mp h
        exact ⟨_, c, rfl⟩
      next => cases h
    next => cases h
  next => cases h

/-- The expression of a relocation is read as its name and its addend. -/
theorem readExpr_words (hname : IsWord r.symbol.name) {sym : Ident} {addend : Int}
    (h : readExpr ("i32(".toList ++ joinBlank r.words ++ ")".toList) = some (.reloc sym addend)) :
    sym.text = mangle r.symbol.name ∧ addend = r.addend := by
  have hopen : ("i32(".toList ++ joinBlank r.words ++ ")".toList).drop 4 =
      joinBlank r.words ++ [')'] := rfl
  unfold readExpr at h
  split at h
  next =>
    rw [hopen, List.dropLast_concat, splitWords_joinBlank (isWord_words hname)] at h
    simp only [Reloc.words] at h
    split at h
    next hident =>
      rw [readConstant_addend, Option.map_some] at h
      cases h
      exact ⟨rfl, rfl⟩
    next => cases h
  next => cases h

/-- The field of an entry is read as a relocation, with its name and its addend if the name
is one word. -/
theorem readItem_field (h : readItem (Piece.field r.field).text = some i) :
    ∃ sym addend, i = .reloc sym addend ∧
      (IsWord r.symbol.name → sym.text = mangle r.symbol.name ∧ addend = r.addend) := by
  have htext : (Piece.field r.field).text = "❓".toList ++ ':' :: ' ' :: r.expr := rfl
  rw [htext] at h
  have hread := readItem_marked (by decide) h
  rw [if_neg (by decide), if_neg (by decide), if_neg (by decide), if_pos rfl] at hread
  obtain ⟨sym, addend, rfl⟩ := readExpr_some hread
  refine ⟨sym, addend, rfl, fun hname => ?_⟩
  rw [Reloc.expr_eq hname] at hread
  exact readExpr_words hname hread

end OsCourse.Fle
