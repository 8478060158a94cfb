import OsCourse.Fle.Link

/-!
# Link errors

When `FLE_ld` refuses its inputs, and what it leaves behind when it does.

A loop that fails does so at one entry, after the entries before it were entered
in the table.  In the first pass this is a global label whose name is a key
already, in the second a relocation that finds no key, and in both a relocation
whose value is no number or does not fit (`linkEntry_error`).  So the errors are
exact as far as the keys of the table are the names that the inputs define.

Two things spoil this.  The table also has the key `i32`, for the function that
encodes values.  And a value is encoded in the first pass already, where unknown
symbols count as 0, so a value that does not fit stops the linker before it has
seen all labels.  Which relocations do so can be read off the items, their sizes
and the labels before them (`Stops`, `ld_stops_iff`).
-/

namespace OsCourse.Fle

/-! ## The program with its files -/

/-- What the program raises. -/
inductive LdError where
  | link (e : LinkError)
  /-- `dest.write_text` or `dest.chmod` is refused. -/
  | osError
deriving DecidableEq

/-- The files that can be written. -/
structure Disk where
  content : Text → Option Exe
  writable : Text → Bool
  /-- Whether the mode of the file may be changed. -/
  owned : Text → Bool

/-- `FLE_ld`, to its last line. -/
def fleLd (files : Text → Option Obj) (args : List Text) (disk : Disk) :
    Except LdError Unit × Disk :=
  match ld files args with
  | .error e => (.error (.link e), disk)
  | .ok (dest, exe) =>
      if disk.writable dest then
        let disk := { disk with content := Function.update disk.content dest (some exe) }
        (if disk.owned dest then .ok () else .error .osError, disk)
      else (.error .osError, disk)

/-! ## What the inputs define -/

/-- The name of a global label. -/
def Item.global? : Item → Option Text
  | .globalLabel symb => some symb
  | _ => none

/-- The name of a label. -/
def Item.label? : Item → Option Text
  | .globalLabel symb => some symb
  | .localLabel symb => some symb
  | _ => none

/-- All items of the inputs with their files. -/
def items (inputs : List (Text × Obj)) : List (Text × Item) :=
  inputs.flatMap fun x => x.2.sections.flatMap fun sec => sec.2.map fun i => (x.1, i)

/-- The names of all global labels. -/
def globalNames (inputs : List (Text × Obj)) : List Text :=
  (items inputs).filterMap fun x => x.2.global?

/-- The name is a local label of the file or one of its sections. -/
def LocalName (inputs : List (Text × Obj)) (fle name : Text) : Prop :=
  (fle, .localLabel name) ∈ items inputs ∨
    ∃ x ∈ inputs, x.1 = fle ∧ ∃ sec ∈ x.2.sections, mangle sec.1 = name

instance (inputs : List (Text × Obj)) (fle name : Text) : Decidable (LocalName inputs fle name) :=
  inferInstanceAs (Decidable (_ ∨ _))

/-- Some relocation names a symbol that is defined neither in its file nor globally. -/
def Unresolved (inputs : List (Text × Obj)) : Prop :=
  ∃ fle sym addend, (fle, .reloc sym addend) ∈ items inputs ∧
    ¬ LocalName inputs fle sym.text ∧ sym.text ∉ globalNames inputs

/-! ## The entries of the inputs -/

/-- The entries of all bodies, in the order of the command line. -/
def bodiesEntries (inputs : List (Text × Obj)) : List (Text × Entry) :=
  (bodies inputs).flatMap fun b => bodyEntries b.1 b.2

/-- All bodies in the order of the image. -/
def orderedBodies (inputs : List (Text × Obj)) : List (Text × (Text × List Item)) :=
  (grouped inputs).flatMap fun g => g.2.map (Prod.mk g.1)

theorem flatEntries_grouped (inputs : List (Text × Obj)) :
    flatEntries (grouped inputs) = (orderedBodies inputs).flatMap fun b => bodyEntries b.1 b.2 := by
  rw [flatEntries, orderedBodies, List.flatMap_assoc]
  exact List.flatMap_congr fun g _ => by rw [List.flatMap_map]

/-- Grouping by section changes the order only. -/
theorem perm_orderedBodies (inputs : List (Text × Obj)) :
    (orderedBodies inputs).Perm (bodies inputs) := Dict.perm_groups (bodies inputs)

theorem perm_flatEntries (inputs : List (Text × Obj)) :
    (flatEntries (grouped inputs)).Perm (bodiesEntries inputs) := by
  rw [flatEntries_grouped]
  exact (perm_orderedBodies inputs).flatMap fun _ _ => .refl _

variable {inputs : List (Text × Obj)} {fle : Text} {symbols : Symbols} {iter : Nat} {e : LinkError}
  {files : Text → Option Obj} {args : List Text}

theorem mem_bodiesEntries {e : Entry} :
    (fle, e) ∈ bodiesEntries inputs ↔
      ∃ x ∈ inputs, x.1 = fle ∧ ∃ sec ∈ x.2.sections,
        e = .start sec.1 ∨ ∃ i ∈ sec.2, e = .item i := by
  simp only [bodiesEntries, bodies, bodyEntries, List.mem_flatMap, List.mem_map, List.mem_cons,
    Prod.mk.injEq]
  constructor
  · rintro ⟨_, ⟨x, hx, sec, hsec, rfl⟩, ⟨rfl, rfl⟩ | ⟨i, hi, rfl, rfl⟩⟩
    · exact ⟨x, hx, rfl, sec, hsec, Or.inl rfl⟩
    · exact ⟨x, hx, rfl, sec, hsec, Or.inr ⟨i, hi, rfl⟩⟩
  · rintro ⟨x, hx, rfl, sec, hsec, rfl | ⟨i, hi, rfl⟩⟩
    · exact ⟨_, ⟨x, hx, sec, hsec, rfl⟩, Or.inl ⟨rfl, rfl⟩⟩
    · exact ⟨_, ⟨x, hx, sec, hsec, rfl⟩, Or.inr ⟨i, hi, rfl, rfl⟩⟩

theorem mem_items {i : Item} :
    (fle, i) ∈ items inputs ↔ (fle, .item i) ∈ flatEntries (grouped inputs) := by
  rw [(perm_flatEntries inputs).mem_iff, mem_bodiesEntries]
  simp only [items, List.mem_flatMap, List.mem_map, Prod.mk.injEq, reduceCtorEq, false_or,
    Entry.item.injEq]
  constructor
  · rintro ⟨x, hx, sec, hsec, j, hj, rfl, rfl⟩
    exact ⟨x, hx, rfl, sec, hsec, j, hj, rfl⟩
  · rintro ⟨x, hx, rfl, sec, hsec, j, hj, rfl⟩
    exact ⟨x, hx, sec, hsec, i, hj, rfl, rfl⟩

/-- The global label that an entry is. -/
def entryGlobal? (x : Text × Entry) : Option Text :=
  match x.2 with
  | .start _ => none
  | .item i => i.global?

theorem entryGlobal?_eq_some {x : Text × Entry} {symb : Text} :
    entryGlobal? x = some symb ↔ x.2 = .item (.globalLabel symb) := by
  obtain ⟨fle, e⟩ := x
  cases e with
  | start secName => simp [entryGlobal?]
  | item i => cases i <;> simp [entryGlobal?, Item.global?]

/-- The global labels of some entries. -/
def globalsOf (es : List (Text × Entry)) : List Text := es.filterMap entryGlobal?

theorem perm_globalNames (inputs : List (Text × Obj)) :
    (globalsOf (flatEntries (grouped inputs))).Perm (globalNames inputs) := by
  refine ((perm_flatEntries inputs).filterMap _).trans (.of_eq ?_)
  have hbody : ∀ (secName : Text) (body : Text × List Item),
      (bodyEntries secName body).filterMap entryGlobal? = body.2.filterMap Item.global? := by
    intro secName body
    rw [bodyEntries, List.filterMap_cons_none rfl, List.filterMap_map]
    rfl
  rw [bodiesEntries, List.filterMap_flatMap, globalNames, items, bodies, List.flatMap_assoc,
    List.filterMap_flatMap]
  refine List.flatMap_congr fun x _ => ?_
  rw [List.flatMap_map, List.filterMap_flatMap]
  refine List.flatMap_congr fun sec _ => ?_
  rw [hbody, List.filterMap_map]
  rfl

theorem globalsOf_mem_iff {symb : Text} :
    symb ∈ globalsOf (flatEntries (grouped inputs)) ↔ symb ∈ globalNames inputs :=
  (perm_globalNames inputs).mem_iff

theorem globalsOf_nodup_iff :
    (globalsOf (flatEntries (grouped inputs))).Nodup ↔ (globalNames inputs).Nodup :=
  (perm_globalNames inputs).nodup_iff

/-! ## The keys of the table -/

theorem mem_keys_enterAll {ps : List Placed} {k : Text} :
    k ∈ (enterAll ps symbols).keys ↔ (∃ p ∈ ps, p.key? = some k) ∨ k ∈ symbols.keys := by
  rw [Dict.mem_keys_iff, Dict.mem_keys_iff, enterAll_get?]
  cases hlast : lastOffset k ps with
  | none =>
      have hnone : ¬ ∃ p ∈ ps, p.key? = some k := by simpa using lastOffset_eq_none.mp hlast
      simp [hnone]
  | some n =>
      obtain ⟨p, hp, hk, -⟩ := lastOffset_eq_some hlast
      exact ⟨fun _ => Or.inl ⟨p, hp, hk⟩, fun _ => ⟨_, rfl⟩⟩

theorem mem_keys_initSymbols {k : Text} : k ∈ initSymbols.keys ↔ k = i32Name := by
  rw [initSymbols, Dict.mem_keys_set]
  exact or_iff_left (fun h => by cases h)

/-- Labels of the inputs have no dots. -/
def NoDots (inputs : List (Text × Obj)) : Prop :=
  ∀ x ∈ items inputs, ∀ symb ∈ x.2.label?, '.' ∉ symb

instance (inputs : List (Text × Obj)) : Decidable (NoDots inputs) :=
  inferInstanceAs (Decidable (∀ x ∈ items inputs, _))

section Keys

variable {inputs : List (Text × Obj)} (hdots : NoDots inputs)

include hdots

theorem noDots_layout : ∀ p ∈ layout inputs, ∀ symb ∈ p.labelName?, '.' ∉ symb := by
  intro p hp symb hsymb
  have hmem := mem_of_mem_place hp
  obtain ⟨offset, fle, e⟩ := p
  cases e with
  | start secName => cases hsymb
  | item i =>
      refine hdots (fle, i) (mem_items.mpr hmem) symb ?_
      cases i with
      | globalLabel _ => exact hsymb
      | localLabel _ => exact hsymb
      | bytes _ => cases hsymb
      | reloc _ _ => cases hsymb

/-- The key of a local name is there when the file defines the name. -/
theorem localKey_mem_iff {fle name : Text} (hname : '.' ∉ name) :
    (∃ p ∈ layout inputs, p.key? = some (localKey fle name)) ↔ LocalName inputs fle name := by
  constructor
  · intro h
    obtain ⟨p, hp, hk⟩ := h
    obtain ⟨hfile, hlocal⟩ := localName_of_key (noDots_layout hdots) hp hname hk
    have hmem := mem_of_mem_place hp
    obtain ⟨offset, f, e⟩ := p
    cases hfile
    cases e with
    | start secName =>
        rw [(perm_flatEntries inputs).mem_iff, mem_bodiesEntries] at hmem
        obtain ⟨x, hx, hfle, sec, hsec, hstart | ⟨i, -, hi⟩⟩ := hmem
        · cases hstart
          exact Or.inr ⟨x, hx, hfle, sec, hsec, Option.some.inj hlocal⟩
        · cases hi
    | item i =>
        cases i with
        | localLabel symb =>
            cases hlocal
            exact Or.inl (mem_items.mpr hmem)
        | globalLabel _ => cases hlocal
        | bytes _ => cases hlocal
        | reloc _ _ => cases hlocal
  · intro h
    rcases h with hlabel | ⟨x, hx, hfle, sec, hsec, hsecName⟩
    · obtain ⟨offset, hp⟩ := exists_place (mem_items.mp hlabel) 0
      exact ⟨_, hp, rfl⟩
    · have hstart : (fle, Entry.start sec.1) ∈ flatEntries (grouped inputs) := by
        rw [(perm_flatEntries inputs).mem_iff, mem_bodiesEntries]
        exact ⟨x, hx, hfle, sec, hsec, Or.inl rfl⟩
      obtain ⟨offset, hp⟩ := exists_place hstart 0
      refine ⟨_, hp, ?_⟩
      rw [Placed.key?, ← hsecName]

omit hdots in
/-- A key without a dot is that of a global label. -/
theorem globalKey_mem_iff {name : Text} (hname : '.' ∉ name) :
    (∃ p ∈ layout inputs, p.key? = some name) ↔ name ∈ globalNames inputs := by
  rw [← (perm_globalNames inputs).mem_iff, globalsOf, List.mem_filterMap]
  constructor
  · intro h
    obtain ⟨p, hp, hk⟩ := h
    rcases key?_cases hk with ⟨n, -, rfl⟩ | hglobal
    · exact absurd (dot_mem_localKey p.file n) hname
    · exact ⟨_, mem_of_mem_place hp, entryGlobal?_eq_some.mpr hglobal⟩
  · intro h
    obtain ⟨⟨fle, e⟩, hmem, hglobal⟩ := h
    obtain ⟨offset, hp⟩ := exists_place hmem 0
    exact ⟨_, hp, by rw [Placed.key?, show e = _ from entryGlobal?_eq_some.mp hglobal]⟩

end Keys

/-! ## The values of relocations -/

/-- An error that is not about the name of a label or a symbol. -/
def OfValue (e : LinkError) : Prop := e = .typeError ∨ e = .overflow

/-- The number can be encoded in four bytes. -/
def Encodable32 (x : Int) : Prop := -2 ^ 31 ≤ x ∧ x < 2 ^ 31

theorem toBytes_error {x : Int} : toBytes x = .error e ↔ e = .overflow ∧ ¬ Encodable32 x := by
  rw [toBytes]
  split
  next h => simp [show Encodable32 x from h]
  next h => simp [show ¬ Encodable32 x from h, eq_comm]

/-- The value of a relocation in the first pass, after these entries: a symbol that
is not defined yet counts as 0. -/
def firstValue (pre : List (Text × Entry)) (sym : Ident) (addend : Int) : Int :=
  ((lastOffset sym.text (place 0 pre)).getD 0 : Nat) + addend - totalSize pre

/-- What is defined before a relocation in the second pass: everything, and then once
more the entries before it. -/
def defined (inputs : List (Text × Obj)) (pre : List (Text × Entry)) : List Placed :=
  layout inputs ++ place 0 pre

/-- The value of a relocation in the second pass. -/
def secondValue (inputs : List (Text × Obj)) (pre : List (Text × Entry)) (fle : Text) (sym : Ident)
    (addend : Int) : Int :=
  (((lastOffset (localKey fle sym.text) (defined inputs pre)).or
    (lastOffset sym.text (defined inputs pre))).getD 0 : Nat) + addend - totalSize pre

/-- The symbol is defined in the file or globally. -/
def Resolved (inputs : List (Text × Obj)) (fle name : Text) : Prop :=
  LocalName inputs fle name ∨ name ∈ globalNames inputs

instance (inputs : List (Text × Obj)) (fle name : Text) : Decidable (Resolved inputs fle name) :=
  inferInstanceAs (Decidable (_ ∨ _))

/-- Some relocation stops the linker with an error that is not about its symbol. -/
inductive Stops (inputs : List (Text × Obj)) : Prop where
  /-- In the first pass, before a label is refused: the symbol is `i32`, which is a
  function, or the value does not fit. -/
  | first {pre post : List (Text × Entry)} {fle : Text} {sym : Ident} {addend : Int}
      (split : flatEntries (grouped inputs) = pre ++ (fle, .item (.reloc sym addend)) :: post)
      (fresh : i32Name ∉ globalsOf pre ∧ (globalsOf pre).Nodup)
      (value : sym.text = i32Name ∨ ¬ Encodable32 (firstValue pre sym addend))
  /-- In the second pass, before a symbol is missed: the file has a local name `i32`, so
  that a number is called, or the value does not fit. -/
  | second {pre post : List (Text × Entry)} {fle : Text} {sym : Ident} {addend : Int}
      (split : flatEntries (grouped inputs) = pre ++ (fle, .item (.reloc sym addend)) :: post)
      (fresh : i32Name ∉ globalNames inputs ∧ (globalNames inputs).Nodup)
      (resolved : ∀ x ∈ pre ++ [(fle, .item (.reloc sym addend))], ∀ s c,
        x.2 = .item (.reloc s c) → Resolved inputs x.1 s.text)
      (value : LocalName inputs fle i32Name ∨ ¬ Encodable32 (secondValue inputs pre fle sym addend))

variable {pre post es : List (Text × Entry)} {sym : Ident} {addend : Int} {st mid : State}

theorem evalReloc_first (hi32 : i32Name ∉ globalsOf pre) (fle : Text) (sym : Ident)
    (addend : Int) :
    evalReloc 0 fle (enterAll (place 0 pre) initSymbols) (totalSize pre) sym addend =
      if sym.text = i32Name then .error .typeError else toBytes (firstValue pre sym addend) := by
  have hnone : lastOffset i32Name (place 0 pre) = none := by
    refine lastOffset_eq_none.mpr fun p hp hk => ?_
    rcases key?_cases hk with ⟨n, -, hkey⟩ | hglobal
    · exact absurd (hkey ▸ dot_mem_localKey p.file n) (by decide)
    · exact hi32 (List.mem_filterMap.mpr
        ⟨_, mem_of_mem_place hp, entryGlobal?_eq_some.mpr hglobal⟩)
  have hf : getItem 0 fle (enterAll (place 0 pre) initSymbols) i32Name = .ok .i32 := by
    rw [getItem, if_pos rfl, enterAll_get?, hnone]
    rfl
  by_cases hsym : sym.text = i32Name
  · simp only [evalReloc, hsym, hf, bind, Except.bind, if_pos]
  · have hx : getItem 0 fle (enterAll (place 0 pre) initSymbols) sym.text =
        .ok (.int ((lastOffset sym.text (place 0 pre)).getD 0 : Nat)) := by
      rw [getItem, if_pos rfl, enterAll_get?, initSymbols, Dict.get?_set_of_ne _ (Ne.symm hsym)]
      cases lastOffset sym.text (place 0 pre) <;> rfl
    simp only [evalReloc, hf, hx, bind, Except.bind, if_neg hsym, firstValue]

/-- The second pass takes a local definition of a name, or a global one without it. -/
theorem getItem_second (ps : List Placed) (fle name : Text) :
    getItem 1 fle (enterAll ps initSymbols) name =
      match (lastOffset (localKey fle name) ps).or (lastOffset name ps) with
      | some n => .ok (.int n)
      | none => if name = i32Name then .ok .i32 else .error (.undefinedSymbol name) := by
  rw [getItem, if_neg Nat.one_ne_zero, enterAll_get?, enterAll_get?, initSymbols_get?_localKey,
    initSymbols, Dict.get?_set, Dict.get?_empty]
  cases lastOffset (localKey fle name) ps with
  | some n => rfl
  | none =>
      cases lastOffset name ps with
      | some n => rfl
      | none => by_cases hname : name = i32Name <;> simp [hname, eq_comm]

theorem mem_layout_of_defined (hsplit : flatEntries (grouped inputs) = pre ++ post) {p : Placed}
    (hp : p ∈ defined inputs pre) : p ∈ layout inputs := by
  rcases List.mem_append.mp hp with hp | hp
  · exact hp
  · rw [layout, hsplit, place_append]
    exact List.mem_append_left _ hp

theorem lastOffset_defined_eq_none (hsplit : flatEntries (grouped inputs) = pre ++ post)
    {key : Text} :
    lastOffset key (defined inputs pre) = none ↔ ¬ ∃ p ∈ layout inputs, p.key? = some key := by
  rw [lastOffset_eq_none]
  constructor
  · rintro h ⟨p, hp, hk⟩
    exact h p (List.mem_append_left _ hp) hk
  · intro h p hp hk
    exact h ⟨p, mem_layout_of_defined hsplit hp, hk⟩

/-- A symbol is resolved in the second pass if it is defined, and then has the offset of a
definition. -/
theorem evalReloc_second (hdots : NoDots inputs)
    (hsplit : flatEntries (grouped inputs) = pre ++ post) (hi32 : i32Name ∉ globalNames inputs)
    (hne : sym.text ≠ i32Name) :
    evalReloc 1 fle (enterAll (defined inputs pre) initSymbols) (totalSize pre) sym addend =
      if Resolved inputs fle sym.text then
        if LocalName inputs fle i32Name then .error .typeError
        else toBytes (secondValue inputs pre fle sym addend)
      else .error (.undefinedSymbol sym.text) := by
  have hlocal (name : Text) (hname : '.' ∉ name) :
      lastOffset (localKey fle name) (defined inputs pre) = none ↔ ¬ LocalName inputs fle name :=
    (lastOffset_defined_eq_none hsplit).trans (not_congr (localKey_mem_iff hdots hname))
  have hglobal (name : Text) (hname : '.' ∉ name) :
      lastOffset name (defined inputs pre) = none ↔ name ∉ globalNames inputs :=
    (lastOffset_defined_eq_none hsplit).trans (not_congr (globalKey_mem_iff hname))
  have hresolved : (lastOffset (localKey fle sym.text) (defined inputs pre)).or
      (lastOffset sym.text (defined inputs pre)) = none ↔ ¬ Resolved inputs fle sym.text := by
    rw [Option.or_eq_none_iff, hlocal _ sym.noDot, hglobal _ sym.noDot, Resolved, not_or]
  have hf := getItem_second (defined inputs pre) fle i32Name
  rw [(hglobal _ (by decide)).mpr hi32, Option.or_none, if_pos rfl] at hf
  simp only [evalReloc, hf, getItem_second, if_neg hne, secondValue]
  cases hx : (lastOffset (localKey fle sym.text) (defined inputs pre)).or
      (lastOffset sym.text (defined inputs pre)) with
  | none =>
      rw [if_neg (hresolved.mp hx)]
      cases lastOffset (localKey fle i32Name) (defined inputs pre) <;> rfl
  | some n =>
      rw [if_pos (by by_contra hno; rw [hresolved.mpr hno] at hx; cases hx)]
      cases hl : lastOffset (localKey fle i32Name) (defined inputs pre) with
      | none =>
          rw [if_neg ((hlocal _ (by decide)).mp hl)]
          rfl
      | some m =>
          rw [if_pos (by by_contra hno; rw [(hlocal _ (by decide)).mpr hno] at hl; cases hl)]
          rfl

/-! ## Where a pass fails -/

theorem linkEntry_reloc (iter : Nat) (st : State) (fle : Text) (sym : Ident) (addend : Int) :
    linkEntry iter st (fle, .item (.reloc sym addend)) =
      (evalReloc iter fle st.symbols st.res.length sym addend).bind fun bs =>
        .ok { st with res := st.res ++ bs } := rfl

/-- An entry that fails is a label defined before or a relocation. -/
theorem linkEntry_error {x : Text × Entry} (h : linkEntry iter st x = .error e) :
    (∃ symb, x.2 = .item (.globalLabel symb) ∧ iter = 0 ∧ symb ∈ st.symbols.keys ∧
      e = .multipleDefinition symb) ∨
    ∃ sym addend, x.2 = .item (.reloc sym addend) ∧
      evalReloc iter x.1 st.symbols st.res.length sym addend = .error e := by
  obtain ⟨fle, entry⟩ := x
  cases entry with
  | start secName => cases h
  | item i =>
      cases i with
      | globalLabel symb =>
          simp only [linkEntry, linkItem] at h
          split at h
          next hdup =>
            cases h
            exact Or.inl ⟨symb, rfl, hdup.1, hdup.2, rfl⟩
          next => cases h
      | localLabel symb => cases h
      | bytes xs => cases h
      | reloc sym addend =>
          rw [linkEntry_reloc] at h
          refine Or.inr ⟨sym, addend, rfl, ?_⟩
          cases hr : evalReloc iter fle st.symbols st.res.length sym addend with
          | error e' =>
              rw [hr] at h
              cases h
              rfl
          | ok bs =>
              rw [hr] at h
              cases h

/-- After a first pass that succeeds no global label is defined twice, and none is `i32`. -/
theorem nodup_of_pass0 (h : es.foldlM (linkEntry 0) ⟨initSymbols, []⟩ = .ok st) :
    i32Name ∉ globalsOf es ∧ (globalsOf es).Nodup := by
  obtain ⟨hnew, hfresh⟩ := pass_global_fresh h
  have hplace : globalsOf es = (place ([] : List UInt8).length es).filterMap
      (entryGlobal? ∘ fun p => (p.file, p.entry)) := by
    rw [globalsOf, ← List.filterMap_map, map_place]
  rw [hplace]
  constructor
  · intro hmem
    obtain ⟨p, hp, hglobal⟩ := List.mem_filterMap.mp hmem
    exact hnew p hp i32Name (entryGlobal?_eq_some.mp hglobal) (mem_keys_initSymbols.mpr rfl)
  · refine hfresh.filterMap _ fun p q hpq symb hsymb symb' hsymb' heq => ?_
    have hp : p.entry = .item (.globalLabel symb) := entryGlobal?_eq_some.mp hsymb
    have hq : q.entry = .item (.globalLabel symb') := entryGlobal?_eq_some.mp hsymb'
    refine hpq symb' hq ?_
    rw [Placed.key?, hp, heq]

/-- A relocation that the first pass comes to. -/
theorem linkEntry_first (h : pre.foldlM (linkEntry 0) ⟨initSymbols, []⟩ = .ok mid) :
    evalReloc 0 fle mid.symbols mid.res.length sym addend =
      if sym.text = i32Name then .error .typeError else toBytes (firstValue pre sym addend) := by
  obtain ⟨htable, hlen⟩ := pass_table h
  rw [htable, hlen, List.length_nil, Nat.zero_add]
  exact evalReloc_first (nodup_of_pass0 h).1 fle sym addend

/-- It fails there as `Stops` says. -/
theorem first_error (h : pre.foldlM (linkEntry 0) ⟨initSymbols, []⟩ = .ok mid) :
    (∃ e, evalReloc 0 fle mid.symbols mid.res.length sym addend = .error e) ↔
      sym.text = i32Name ∨ ¬ Encodable32 (firstValue pre sym addend) := by
  rw [linkEntry_first h]
  split
  next hsym => simp [hsym]
  next hsym => simp [hsym, toBytes_error]

theorem ofValue_of_first (h : pre.foldlM (linkEntry 0) ⟨initSymbols, []⟩ = .ok mid)
    (he : evalReloc 0 fle mid.symbols mid.res.length sym addend = .error e) : OfValue e := by
  rw [linkEntry_first h] at he
  split at he
  next =>
    cases he
    exact Or.inl rfl
  next => exact Or.inr (toBytes_error.mp he).1

/-- The first pass fails at a global label that is `i32` or defined before, or at a value. -/
theorem pass0_error (hdots : ∀ symb ∈ globalsOf es, '.' ∉ symb)
    (h : es.foldlM (linkEntry 0) ⟨initSymbols, []⟩ = .error e) :
    (∃ symb, e = .multipleDefinition symb ∧ (i32Name ∈ globalsOf es ∨ ¬ (globalsOf es).Nodup)) ∨
      OfValue e := by
  obtain ⟨pre, x, post, mid, rfl, hpre, hx⟩ := foldlM_error h
  rcases linkEntry_error hx with ⟨symb, hentry, -, hmem, rfl⟩ | ⟨sym, addend, -, hreloc⟩
  · refine Or.inl ⟨symb, rfl, ?_⟩
    have hglobal : entryGlobal? x = some symb := entryGlobal?_eq_some.mpr hentry
    have hsymb : symb ∈ globalsOf (pre ++ x :: post) :=
      List.mem_filterMap.mpr ⟨x, by simp, hglobal⟩
    rw [(pass_table hpre).1, mem_keys_enterAll, mem_keys_initSymbols] at hmem
    rcases hmem with ⟨p, hp, hk⟩ | rfl
    · -- an earlier entry with this key is a global label of this name
      rcases key?_cases hk with ⟨n, -, rfl⟩ | hp'
      · exact absurd (dot_mem_localKey p.file n) (hdots _ hsymb)
      · refine Or.inr fun hnodup => ?_
        rw [globalsOf, List.filterMap_append, List.filterMap_cons_some hglobal] at hnodup
        exact (List.nodup_append'.mp hnodup).2.2 (List.mem_filterMap.mpr
          ⟨_, mem_of_mem_place hp, entryGlobal?_eq_some.mpr hp'⟩) (List.mem_cons_self ..)
    · exact Or.inl hsymb
  · exact Or.inr (ofValue_of_first hpre hreloc)

/-- The table and the offset in the second pass. -/
theorem second_table {pass0 : State}
    (h0 : (flatEntries (grouped inputs)).foldlM (linkEntry 0) ⟨initSymbols, []⟩ = .ok pass0)
    (h : pre.foldlM (linkEntry 1) ⟨pass0.symbols, []⟩ = .ok mid) :
    mid.symbols = enterAll (defined inputs pre) initSymbols ∧ mid.res.length = totalSize pre := by
  obtain ⟨htable, hlen⟩ := pass_table h
  refine ⟨?_, hlen.trans (Nat.zero_add _)⟩
  rw [htable, show pass0.symbols = enterAll (layout inputs) initSymbols from (pass_table h0).1,
    defined, enterAll, enterAll, enterAll, List.foldl_append]
  rfl

section Passes

variable (hdots : NoDots inputs)

include hdots

theorem noDots_globalsOf {rest : List (Text × Entry)}
    (hes : flatEntries (grouped inputs) = es ++ rest) : ∀ symb ∈ globalsOf es, '.' ∉ symb := by
  intro symb hsymb
  obtain ⟨⟨fle, e⟩, hx, hglobal⟩ := List.mem_filterMap.mp hsymb
  have he : e = .item (.globalLabel symb) := entryGlobal?_eq_some.mp hglobal
  refine hdots (fle, .globalLabel symb) (mem_items.mpr ?_) symb rfl
  rw [hes, ← he]
  exact List.mem_append_left _ hx

/-- Whether a relocation stops the linker in the first pass. -/
theorem stops_iff_pass0
    (h : (flatEntries (grouped inputs)).foldlM (linkEntry 0) ⟨initSymbols, []⟩ = .error e) :
    Stops inputs ↔ OfValue e := by
  constructor
  · intro hstops
    cases hstops with
    | @first pre post fle sym addend split fresh value =>
        have hfails : ∃ e, OfValue e ∧ (pre ++ (fle, Entry.item (.reloc sym addend)) :: post).foldlM
            (linkEntry 0) ⟨initSymbols, []⟩ = .error e := by
          refine foldlM_append_error post (fun e he => ?_) (fun mid hmid => ?_)
          · rcases pass0_error (noDots_globalsOf hdots split) he with ⟨symb, -, hbad⟩ | hvalue
            · exact absurd hbad (not_or.mpr ⟨fresh.1, not_not.mpr fresh.2⟩)
            · exact hvalue
          · obtain ⟨e, he⟩ := (first_error hmid).mpr value
            exact ⟨e, ofValue_of_first hmid he, by rw [linkEntry_reloc, he]; rfl⟩
        obtain ⟨e', hvalue, he'⟩ := hfails
        rw [← split, h] at he'
        cases he'
        exact hvalue
    | second split fresh resolved value =>
        rcases pass0_error (noDots_globalsOf hdots (List.append_nil _).symm) h with
          ⟨symb, -, hbad⟩ | hvalue
        · rw [globalsOf_nodup_iff, globalsOf_mem_iff] at hbad
          exact absurd hbad (not_or.mpr ⟨fresh.1, not_not.mpr fresh.2⟩)
        · exact hvalue
  · intro hvalue
    obtain ⟨pre, ⟨fle, entry⟩, post, mid, hsplit, hpre, hx⟩ := foldlM_error h
    rcases linkEntry_error hx with ⟨symb, -, -, -, rfl⟩ | ⟨sym, addend, hentry, hreloc⟩
    · simp [OfValue] at hvalue
    · cases hentry
      exact Stops.first hsplit (nodup_of_pass0 hpre) ((first_error hpre).mp ⟨e, hreloc⟩)

variable {pass0 : State}
  (h0 : (flatEntries (grouped inputs)).foldlM (linkEntry 0) ⟨initSymbols, []⟩ = .ok pass0)

include h0

/-- A relocation that the second pass comes to. -/
theorem linkEntry_second
    (hsplit : flatEntries (grouped inputs) = pre ++ (fle, .item (.reloc sym addend)) :: post)
    (h : pre.foldlM (linkEntry 1) ⟨pass0.symbols, []⟩ = .ok mid) :
    evalReloc 1 fle mid.symbols mid.res.length sym addend =
      if Resolved inputs fle sym.text then
        if LocalName inputs fle i32Name then .error .typeError
        else toBytes (secondValue inputs pre fle sym addend)
      else .error (.undefinedSymbol sym.text) := by
  have hne : sym.text ≠ i32Name := by
    rw [hsplit] at h0
    obtain ⟨first, _, hfirst, hx, -⟩ := foldlM_append_ok h0
    intro hsym
    rw [linkEntry_reloc, linkEntry_first hfirst, if_pos hsym] at hx
    cases hx
  have hi32 := mt globalsOf_mem_iff.mpr (nodup_of_pass0 h0).1
  obtain ⟨htable, hlen⟩ := second_table h0 h
  rw [htable, hlen]
  exact evalReloc_second hdots hsplit hi32 hne

/-- When the second pass succeeds, every symbol is resolved. -/
theorem resolved_of_pass1 {rest : List (Text × Entry)}
    (hes : flatEntries (grouped inputs) = es ++ rest)
    (h : es.foldlM (linkEntry 1) ⟨pass0.symbols, []⟩ = .ok st) :
    ∀ x ∈ es, ∀ sym addend, x.2 = .item (.reloc sym addend) → Resolved inputs x.1 sym.text := by
  rintro ⟨fle, -⟩ hx sym addend rfl
  obtain ⟨pre, post, rfl⟩ := List.append_of_mem hx
  obtain ⟨mid, mid', hpre, hmid, -⟩ := foldlM_append_ok h
  by_contra hun
  rw [linkEntry_reloc, linkEntry_second hdots h0 (hes.trans (List.append_assoc ..)) hpre,
    if_neg hun] at hmid
  cases hmid

/-- The second pass fails at a relocation after others that are resolved, because it is not
resolved, or at its value. -/
theorem pass1_error {rest : List (Text × Entry)}
    (hes : flatEntries (grouped inputs) = es ++ rest)
    (h : es.foldlM (linkEntry 1) ⟨pass0.symbols, []⟩ = .error e) :
    ∃ pre fle sym addend post, es = pre ++ (fle, .item (.reloc sym addend)) :: post ∧
      (∀ x ∈ pre, ∀ s c, x.2 = .item (.reloc s c) → Resolved inputs x.1 s.text) ∧
      (¬ Resolved inputs fle sym.text ∧ e = .undefinedSymbol sym.text ∨
        Resolved inputs fle sym.text ∧ OfValue e ∧ (LocalName inputs fle i32Name ∨
          ¬ Encodable32 (secondValue inputs pre fle sym addend))) := by
  obtain ⟨pre, ⟨fle, entry⟩, post, mid, rfl, hpre, hx⟩ := foldlM_error h
  rcases linkEntry_error hx with ⟨symb, -, hiter, -⟩ | ⟨sym, addend, hentry, hreloc⟩
  · cases hiter
  cases hentry
  have hsplit := hes.trans (List.append_assoc ..)
  refine ⟨pre, fle, sym, addend, post, rfl, resolved_of_pass1 hdots h0 hsplit hpre, ?_⟩
  rw [linkEntry_second hdots h0 hsplit hpre] at hreloc
  split at hreloc
  next hres =>
    refine Or.inr ⟨hres, ?_⟩
    split at hreloc
    next hlocal =>
      cases hreloc
      exact ⟨Or.inl rfl, Or.inl hlocal⟩
    next =>
      obtain ⟨rfl, hbig⟩ := toBytes_error.mp hreloc
      exact ⟨Or.inr rfl, Or.inr hbig⟩
  next hun =>
    cases hreloc
    exact Or.inl ⟨hun, rfl⟩

/-- Whether a relocation stops the linker after the first pass. -/
theorem stops_iff_pass1 : Stops inputs ↔ ∃ e, OfValue e ∧
    (flatEntries (grouped inputs)).foldlM (linkEntry 1) ⟨pass0.symbols, []⟩ = .error e := by
  constructor
  · intro hstops
    cases hstops with
    | @first pre post fle sym addend split fresh value =>
        -- the first pass got past this relocation
        rw [split] at h0
        obtain ⟨mid, _, hpre, hx, -⟩ := foldlM_append_ok h0
        obtain ⟨e, he⟩ := (first_error hpre).mpr value
        rw [linkEntry_reloc, he] at hx
        cases hx
    | @second pre post fle sym addend split fresh resolved value =>
        rw [split]
        refine foldlM_append_error post (fun e he => ?_) (fun mid hmid => ?_)
        · obtain ⟨pre', f, s, c, post', rfl, -, ⟨hun, -⟩ | ⟨-, hvalue, -⟩⟩ :=
            pass1_error hdots h0 split he
          · exact absurd (resolved (f, .item (.reloc s c)) (by simp) s c rfl) hun
          · exact hvalue
        · have hres := resolved (fle, .item (.reloc sym addend)) (by simp) sym addend rfl
          rw [linkEntry_reloc, linkEntry_second hdots h0 split hmid, if_pos hres]
          split
          next => exact ⟨_, Or.inl rfl, rfl⟩
          next hlocal =>
            rw [toBytes_error.mpr ⟨rfl, value.resolve_left hlocal⟩]
            exact ⟨_, Or.inr rfl, rfl⟩
  · rintro ⟨e, hvalue, h⟩
    obtain ⟨pre, fle, sym, addend, post, hsplit, hpre, ⟨-, rfl⟩ | ⟨hres, -, hbad⟩⟩ :=
      pass1_error hdots h0 (List.append_nil _).symm h
    · simp [OfValue] at hvalue
    · obtain ⟨hi32, hnodup⟩ := nodup_of_pass0 h0
      refine Stops.second hsplit ⟨mt globalsOf_mem_iff.mpr hi32, globalsOf_nodup_iff.mp hnodup⟩
        (fun x hx s c hxs => ?_) hbad
      rcases List.mem_append.mp hx with hx | hx
      · exact hpre x hx s c hxs
      · cases List.mem_singleton.mp hx
        cases hxs
        exact hres

end Passes

/-! ## The errors of the linker -/

/-- `FLE_ld` on arguments that it can read. -/
theorem ld_eq {a : Args} {dest : Text} (ha : readArgs files none args ⟨none, Dict.empty⟩ = .ok a)
    (hdest : a.dest = some dest) :
    ld files args = linkPass 0 a.sections initSymbols >>= fun pass0 =>
      linkPass 1 a.sections pass0.symbols >>= fun pass1 =>
        .ok (dest, ⟨symbolsGlobal pass1.symbols, loadLines pass1.res⟩) := by
  rw [ld, ha]
  simp only [bind, Except.bind, hdest]

section Outcome

variable {files : Text → Option Obj} {args : List Text} {a : Args} {dest : Text}
  (ha : readArgs files none args ⟨none, Dict.empty⟩ = .ok a) (hdest : a.dest = some dest)

include ha hdest

/-- The linker fails in the first pass or in the second, or it succeeds. -/
theorem ld_cases {inputs : List (Text × Obj)}
    (hinputs : objects files (inputFiles none args) = inputs) :
    (∃ e, (flatEntries (grouped inputs)).foldlM (linkEntry 0) ⟨initSymbols, []⟩ = .error e ∧
      ld files args = .error e) ∨
    ∃ pass0, (flatEntries (grouped inputs)).foldlM (linkEntry 0) ⟨initSymbols, []⟩ = .ok pass0 ∧
      ((∃ e, (flatEntries (grouped inputs)).foldlM (linkEntry 1) ⟨pass0.symbols, []⟩ = .error e ∧
        ld files args = .error e) ∨
      ∃ pass1 exe,
        (flatEntries (grouped inputs)).foldlM (linkEntry 1) ⟨pass0.symbols, []⟩ = .ok pass1 ∧
        ld files args = .ok (dest, exe)) := by
  subst hinputs
  rw [ld_eq ha hdest, linkPass_eq, entries_sections ha]
  cases h0 : (flatEntries (grouped (objects files (inputFiles none args)))).foldlM (linkEntry 0)
      ⟨initSymbols, []⟩ with
  | error e => exact Or.inl ⟨e, rfl, rfl⟩
  | ok pass0 =>
      refine Or.inr ⟨pass0, rfl, ?_⟩
      simp only [bind, Except.bind, linkPass_eq, entries_sections ha]
      cases h1 : (flatEntries (grouped (objects files (inputFiles none args)))).foldlM (linkEntry 1)
          ⟨pass0.symbols, []⟩ with
      | error e => exact Or.inl ⟨e, rfl, rfl⟩
      | ok pass1 => exact Or.inr ⟨pass1, _, rfl, rfl⟩

variable (hdots : NoDots (objects files (inputFiles none args)))

include hdots

/-- The linker stops with one of the other errors exactly at a relocation that stops it. -/
theorem ld_stops_iff :
    (ld files args = .error .typeError ∨ ld files args = .error .overflow) ↔
      Stops (objects files (inputFiles none args)) := by
  generalize hinputs : objects files (inputFiles none args) = inputs at hdots ⊢
  have hld : (ld files args = .error .typeError ∨ ld files args = .error .overflow) ↔
      ∃ e, OfValue e ∧ ld files args = .error e := by
    simp [OfValue]
  rw [hld]
  rcases ld_cases ha hdest hinputs with
    ⟨e, h0, he⟩ | ⟨pass0, h0, ⟨e, h1, he⟩ | ⟨pass1, exe, h1, he⟩⟩
  · rw [stops_iff_pass0 hdots h0]
    simp [he]
  · rw [stops_iff_pass1 hdots h0, h1]
    simp [he]
  · rw [stops_iff_pass1 hdots h0, h1]
    simp [he]

/-- The ways in which a link ends. -/
theorem ld_outcome :
    (∃ symb, ld files args = .error (.multipleDefinition symb)) ∧
        (i32Name ∈ globalNames (objects files (inputFiles none args)) ∨
          ¬ (globalNames (objects files (inputFiles none args))).Nodup) ∨
      (∃ e, OfValue e ∧ ld files args = .error e) ∨
      i32Name ∉ globalNames (objects files (inputFiles none args)) ∧
        (globalNames (objects files (inputFiles none args))).Nodup ∧
        ((∃ key, ld files args = .error (.undefinedSymbol key)) ∧
            Unresolved (objects files (inputFiles none args)) ∨
          (∃ exe, ld files args = .ok (dest, exe)) ∧
            ¬ Unresolved (objects files (inputFiles none args))) := by
  generalize hinputs : objects files (inputFiles none args) = inputs at hdots ⊢
  rcases ld_cases ha hdest hinputs with ⟨e, h0, he⟩ | ⟨pass0, h0, hpass1⟩
  · rcases pass0_error (noDots_globalsOf hdots (List.append_nil _).symm) h0 with
      ⟨symb, rfl, hbad⟩ | hvalue
    · rw [globalsOf_nodup_iff, globalsOf_mem_iff] at hbad
      exact Or.inl ⟨⟨symb, he⟩, hbad⟩
    · exact Or.inr (Or.inl ⟨e, hvalue, he⟩)
  · obtain ⟨hi32, hnodup⟩ := nodup_of_pass0 h0
    rw [globalsOf_mem_iff] at hi32
    rw [globalsOf_nodup_iff] at hnodup
    have hsplit : flatEntries (grouped inputs) = flatEntries (grouped inputs) ++ [] :=
      (List.append_nil _).symm
    rcases hpass1 with ⟨e, h1, he⟩ | ⟨pass1, exe, h1, he⟩
    · obtain ⟨pre, fle, sym, addend, post, hcut, -, ⟨hun, rfl⟩ | ⟨-, hvalue, -⟩⟩ :=
        pass1_error hdots h0 hsplit h1
      · refine Or.inr (Or.inr ⟨hi32, hnodup, Or.inl ⟨⟨_, he⟩, fle, sym, addend, ?_, not_or.mp hun⟩⟩)
        rw [mem_items, hcut]
        exact List.mem_append_right _ (List.mem_cons_self ..)
      · exact Or.inr (Or.inl ⟨e, hvalue, he⟩)
    · refine Or.inr (Or.inr ⟨hi32, hnodup, Or.inr ⟨⟨exe, he⟩, ?_⟩⟩)
      rintro ⟨fle, sym, addend, hmem, hun⟩
      exact not_or.mpr hun
        (resolved_of_pass1 hdots h0 hsplit h1 _ (mem_items.mp hmem) sym addend rfl)

end Outcome

/-- The errors of the linker are those of the program. -/
theorem fleLd_error (disk : Disk) :
    (fleLd files args disk).1 = .error (.link e) ↔ ld files args = .error e := by
  rw [fleLd]
  cases ld files args with
  | error e' => simp
  | ok r =>
      simp only [reduceCtorEq, iff_false]
      split
      · simp only
        split <;> simp
      · simp

theorem ld_dest {a : Args} {dest dest' : Text} {exe : Exe}
    (ha : readArgs files none args ⟨none, Dict.empty⟩ = .ok a) (hdest : a.dest = some dest)
    (h : ld files args = .ok (dest', exe)) : dest = dest' := by
  rw [ld_eq ha hdest] at h
  obtain ⟨pass0, -, h⟩ := bind_ok h
  obtain ⟨pass1, -, h⟩ := bind_ok h
  cases h
  rfl

/-- The file is written last, so an error leaves it as it was, unless the mode cannot
be set. -/
theorem fleLd_atomic {disk : Disk}
    (howned : ∀ dest exe, ld files args = .ok (dest, exe) → disk.owned dest = true) {e : LdError}
    (h : (fleLd files args disk).1 = .error e) :
    (fleLd files args disk).2.content = disk.content := by
  unfold fleLd at h ⊢
  cases hld : ld files args with
  | error e' => rfl
  | ok r =>
      obtain ⟨dest, exe⟩ := r
      simp only [hld] at h ⊢
      split at h
      next => rw [if_pos (howned dest exe hld)] at h; cases h
      next hw => rw [if_neg hw]

/-- The errors of the linker on a disk are exact, and it changes nothing when it raises one. -/
structure ErrorsExact (files : Text → Option Obj) (args : List Text) (disk : Disk) : Prop where
  /-- `Multiple definition` says that two global labels have one name. -/
  multiple : (∃ symb, (fleLd files args disk).1 = .error (.link (.multipleDefinition symb))) ↔
    ¬ (globalNames (objects files (inputFiles none args))).Nodup
  /-- Otherwise `Undefined symbol` says that a symbol is defined neither in its file nor
  globally. -/
  undefined : (∀ symb, (fleLd files args disk).1 ≠ .error (.link (.multipleDefinition symb))) →
    ((∃ key, (fleLd files args disk).1 = .error (.link (.undefinedSymbol key))) ↔
      Unresolved (objects files (inputFiles none args)))
  /-- An error leaves the files as they were. -/
  atomic : ∀ e, (fleLd files args disk).1 = .error e →
    (fleLd files args disk).2.content = disk.content

/-- A disk on which everything may be written. -/
def freeDisk : Disk := ⟨fun _ => none, fun _ => true, fun _ => true⟩

/-- A call of a function that no file defines. -/
def callMissing : Text → Option Obj :=
  twoFiles [.bytes [0xe8], .reloc ⟨"puts".toList, by decide⟩ (-4)] []

/-- A function named `i32`. -/
def functionI32 : Text → Option Obj := twoFiles [.globalLabel i32Name, .bytes [0xc3]] []

/-- A use of a symbol `i32` that no file defines. -/
def useI32 : Text → Option Obj := twoFiles [.reloc ⟨i32Name, by decide⟩ 0] []

/-- Two definitions of `g`, after a relocation whose constant does not fit. -/
def largeAddend : Text → Option Obj :=
  twoFiles [.reloc ⟨"g".toList, by decide⟩ (2 ^ 31), .globalLabel "g".toList]
    [.globalLabel "g".toList]

end OsCourse.Fle
