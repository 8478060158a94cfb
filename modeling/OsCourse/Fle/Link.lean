import OsCourse.Fle.Layout

/-!
# Linked images

This module says what an executable should be and proves that `FLE_ld` writes
it.  The layout of the inputs groups the section bodies by section name, the
names in the order in which they are first seen and the bodies of a group in the
order of the command line.  In the image every body stands where the layout
places it, a relocation holds its value in four bytes, and the recorded symbols
are the global labels.

The value of a name in a file is its local label, then the section of that name,
then the global label (`Address`).  The linker agrees when the keys of its table
are unambiguous.  A key can stand for two things in two ways.  A label may have
the name of its section (`mislinked_sectionLabel`), and a dot in a label may make
its key that of a local name of another file (`mislinked_dottedLabel`).  Neither
happens when labels have no dots, as those that `FLE_cc` writes, and no local name
of a file has two places (`unambiguous_of_noDots`).
-/

namespace OsCourse.Fle

/-! ## The inputs -/

/-- The input files of a command line, where `prev` is the argument before. -/
def inputFiles : Option Text → List Text → List Text
  | _, [] => []
  | prev, a :: args =>
      if a = destFlag ∨ prev = some destFlag then inputFiles (some a) args
      else a :: inputFiles (some a) args

/-- The objects in the order of the command line. -/
def objects (files : Text → Option Obj) (names : List Text) : List (Text × Obj) :=
  names.filterMap fun fle => (files fle).map fun o => (fle, o)

/-- All section bodies in the order of the command line, with their section names. -/
def bodies (inputs : List (Text × Obj)) : List (Text × (Text × List Item)) :=
  inputs.flatMap fun x => x.2.sections.map fun sec => (sec.1, (x.1, sec.2))

/-- The bodies grouped by section name, the names in the order they are first seen. -/
def grouped (inputs : List (Text × Obj)) : List (Text × List (Text × List Item)) :=
  Dict.groups (bodies inputs)

/-- The layout of the image of these inputs. -/
def layout (inputs : List (Text × Obj)) : List Placed := place 0 (flatEntries (grouped inputs))

theorem bodies_cons (x : Text × Obj) (inputs : List (Text × Obj)) :
    bodies (x :: inputs) =
      (x.2.sections.map fun sec => (sec.1, (x.1, sec.2))) ++ bodies inputs := rfl

theorem sections_addFile {a : Args} {fle : Text} {o : Obj} {done : List (Text × (Text × List Item))}
    (h : a.sections = Dict.group done) :
    (a.addFile fle o).sections =
      Dict.group (done ++ o.sections.map fun sec => (sec.1, (fle, sec.2))) := by
  rw [Dict.group_append, ← h, List.foldl_map]
  rfl

/-- The loop over the arguments groups the bodies of the inputs. -/
theorem readArgs_sections {files : Text → Option Obj} {prev : Option Text} {args : List Text}
    {a a' : Args} {done : List (Text × (Text × List Item))} (ha : a.sections = Dict.group done)
    (h : readArgs files prev args a = .ok a') :
    a'.sections = Dict.group (done ++ bodies (objects files (inputFiles prev args))) := by
  induction args generalizing prev a done with
  | nil =>
      cases h
      rw [ha, inputFiles, objects, List.filterMap_nil, bodies, List.flatMap_nil, List.append_nil]
  | cons fle args ih =>
      rw [readArgs] at h
      rw [inputFiles]
      split at h
      next hflag =>
        rw [if_pos (Or.inl hflag)]
        exact ih ha h
      next hflag =>
        split at h
        next hprev =>
          rw [if_pos (Or.inr hprev)]
          exact ih (a := { a with dest := some fle }) ha h
        next hprev =>
          rw [if_neg (not_or.mpr ⟨hflag, hprev⟩)]
          cases hfile : files fle with
          | none => rw [hfile] at h; cases h
          | some o =>
              simp only [hfile] at h
              split at h
              next =>
                have hobj : objects files (fle :: inputFiles (some fle) args) =
                    (fle, o) :: objects files (inputFiles (some fle) args) := by
                  simp [objects, hfile]
                rw [hobj, bodies_cons, ← List.append_assoc]
                exact ih (sections_addFile ha) h
              next => cases h

theorem entries_sections {files : Text → Option Obj} {args : List Text} {a : Args}
    (h : readArgs files none args ⟨none, Dict.empty⟩ = .ok a) :
    a.sections.entries = grouped (objects files (inputFiles none args)) := by
  have hempty : (⟨none, Dict.empty⟩ : Args).sections = Dict.group [] := rfl
  rw [readArgs_sections hempty h, List.nil_append, Dict.entries_group]
  rfl

/-! ## What an image should be -/

/-- The value of bytes, the lowest first. -/
def leNat : List UInt8 → Nat
  | [] => 0
  | b :: bs => b.toNat + 256 * leNat bs

/-- The signed value of four bytes, the lowest first. -/
def int32 (bs : List UInt8) : Int := if leNat bs < 2 ^ 31 then leNat bs else leNat bs - 2 ^ 32

/-- The name is a local label of the file at the offset `v`. -/
def LabelAt (L : List Placed) (fle name : Text) (v : Nat) : Prop :=
  ⟨v, fle, .item (.localLabel name)⟩ ∈ L

/-- The name is that of a section of the file that starts at `v`. -/
def SectionAt (L : List Placed) (fle name : Text) (v : Nat) : Prop :=
  ∃ secName, mangle secName = name ∧ ⟨v, fle, .start secName⟩ ∈ L

/-- The name is a global label at `v`. -/
def GlobalAt (L : List Placed) (name : Text) (v : Nat) : Prop :=
  ∃ fle, ⟨v, fle, .item (.globalLabel name)⟩ ∈ L

/-- The offset that a name in a file stands for: a local label comes before a
section, and both come before a global label. -/
def Address (L : List Placed) (fle name : Text) (v : Nat) : Prop :=
  LabelAt L fle name v ∨
    (∀ w, ¬LabelAt L fle name w) ∧ SectionAt L fle name v ∨
    (∀ w, ¬LabelAt L fle name w) ∧ (∀ w, ¬SectionAt L fle name w) ∧ GlobalAt L name v

/-- The image and the recorded symbols that a layout calls for. -/
structure LinkedImage (inputs : List (Text × Obj)) (image : List UInt8)
    (symbols : List (Text × Int)) : Prop where
  /-- The bodies fill the image. -/
  length_eq : image.length = totalSize (flatEntries (grouped inputs))
  /-- Bytes stand at their places. -/
  bytes_eq : ∀ offset fle xs, ⟨offset, fle, .item (.bytes xs)⟩ ∈ layout inputs →
    (image.drop offset).take xs.length = xs
  /-- The four bytes of a relocation hold its value. -/
  reloc_eq : ∀ offset fle sym addend, ⟨offset, fle, .item (.reloc sym addend)⟩ ∈ layout inputs →
    ∃ v, Address (layout inputs) fle sym.text v ∧
      int32 ((image.drop offset).take 4) = v + addend - offset
  /-- The recorded symbols are the global labels without a dot. -/
  symbols_iff : ∀ name v, (name, v) ∈ symbols ↔
    '.' ∉ name ∧ ∃ offset : Nat, v = offset ∧ GlobalAt (layout inputs) name offset

/-! ## Unambiguous keys -/

/-- The local name that an entry defines, a label or the name of its section. -/
def Placed.localName? (p : Placed) : Option Text :=
  match p.entry with
  | .start secName => some (mangle secName)
  | .item (.localLabel symb) => some symb
  | _ => none

/-- The name of a label of either kind. -/
def Placed.labelName? (p : Placed) : Option Text :=
  match p.entry with
  | .item (.localLabel symb) => some symb
  | .item (.globalLabel symb) => some symb
  | _ => none

/-- The keys of the table tell apart what they stand for: the key of a local name
of a file is entered for this name only and at one place, and the key under
which a relocation looks for a local name is not that of something else. -/
structure Unambiguous (L : List Placed) : Prop where
  /-- Keys of local names. -/
  local_key : ∀ p ∈ L, ∀ name, p.localName? = some name → ∀ q ∈ L,
    q.key? = some (localKey p.file name) →
      q.file = p.file ∧ q.localName? = some name ∧ q.offset = p.offset
  /-- Keys that relocations try. -/
  reloc_key : ∀ p ∈ L, ∀ sym addend, p.entry = .item (.reloc sym addend) → ∀ q ∈ L,
    q.key? = some (localKey p.file sym.text) →
      q.file = p.file ∧ q.localName? = some sym.text

theorem key?_cases {p : Placed} {k : Text} (h : p.key? = some k) :
    (∃ name, p.localName? = some name ∧ k = localKey p.file name) ∨
      p.entry = .item (.globalLabel k) := by
  obtain ⟨offset, fle, e⟩ := p
  cases e with
  | start secName => cases h; exact Or.inl ⟨_, rfl, rfl⟩
  | item i =>
      cases i with
      | globalLabel symb => cases h; exact Or.inr rfl
      | localLabel symb => cases h; exact Or.inl ⟨symb, rfl, rfl⟩
      | bytes xs => cases h
      | reloc sym addend => cases h

theorem dot_mem_localKey (fle name : Text) : '.' ∈ localKey fle name := by simp [localKey]

theorem dot_not_mem_mangle (secName : Text) : '.' ∉ mangle secName := by
  rw [mangle, List.mem_map]
  rintro ⟨c, -, hc⟩
  split at hc
  · revert hc; decide
  · exact absurd hc ‹_›

theorem localKey_inj {f f' n n' : Text} (hn : '.' ∉ n) (hn' : '.' ∉ n')
    (h : localKey f n = localKey f' n') : f = f' ∧ n = n' := by
  -- the last dot of the key ends the name of the file
  have key : ∀ {f f' n n' c : Text}, '.' ∉ n → f' = f ++ c → '.' :: n = c ++ '.' :: n' →
      f = f' ∧ n = n' := by
    intro f f' n n' c hn hf hc
    cases c with
    | nil =>
        rw [List.nil_append, List.cons.injEq] at hc
        exact ⟨by rw [hf, List.append_nil], hc.2⟩
    | cons d c =>
        rw [List.cons_append, List.cons.injEq] at hc
        exact absurd (by rw [hc.2]; simp) hn
  rw [localKey, localKey, List.append_eq_append_iff] at h
  rcases h with ⟨c, hf, hc⟩ | ⟨c, hf, hc⟩
  · exact key hn hf hc
  · obtain ⟨h1, h2⟩ := key hn' hf hc
    exact ⟨h1.symm, h2.symm⟩

section NoDots

variable {L : List Placed} (hlabels : ∀ p ∈ L, ∀ symb ∈ p.labelName?, '.' ∉ symb)

include hlabels

theorem dot_not_mem_localName {p : Placed} (hp : p ∈ L) {name : Text}
    (hname : p.localName? = some name) : '.' ∉ name := by
  obtain ⟨offset, fle, e⟩ := p
  cases e with
  | start secName => cases hname; exact dot_not_mem_mangle secName
  | item i =>
      cases i with
      | localLabel symb => cases hname; exact hlabels _ hp _ rfl
      | globalLabel symb => cases hname
      | bytes xs => cases hname
      | reloc sym addend => cases hname

/-- The key of a local name belongs to that name of that file. -/
theorem localName_of_key {q : Placed} (hq : q ∈ L) {fle name : Text} (hname : '.' ∉ name)
    (hk : q.key? = some (localKey fle name)) : q.file = fle ∧ q.localName? = some name := by
  rcases key?_cases hk with ⟨n, hn, hkey⟩ | hglob
  · obtain ⟨hf, hnn⟩ := localKey_inj hname (dot_not_mem_localName hlabels hq hn) hkey
    exact ⟨hf.symm, hnn ▸ hn⟩
  · have hlabel : q.labelName? = some (localKey fle name) := by rw [Placed.labelName?, hglob]
    exact absurd (dot_mem_localKey fle name) (hlabels q hq _ hlabel)

/-- Labels without dots, and one place for every local name of a file, make the
keys unambiguous. -/
theorem unambiguous_of_noDots
    (hplace : ∀ p ∈ L, ∀ q ∈ L, p.file = q.file → p.localName? = q.localName? →
      p.localName? ≠ none → p.offset = q.offset) : Unambiguous L := by
  constructor
  · intro p hp name hname q hq hk
    obtain ⟨hf, hn⟩ :=
      localName_of_key hlabels hq (dot_not_mem_localName hlabels hp hname) hk
    refine ⟨hf, hn, hplace q hq p hp hf (hn.trans hname.symm) ?_⟩
    rw [hn]
    exact Option.some_ne_none name
  · intro p hp sym addend _ q hq hk
    exact localName_of_key hlabels hq sym.noDot hk

end NoDots

/-! ## The table that both passes use -/

theorem int32_toBytes {x : Int} {bs : List UInt8} (h : toBytes x = .ok bs) : int32 bs = x := by
  rw [toBytes] at h
  split at h
  next hx =>
    cases h
    have hm : ((x % 2 ^ 32).toNat : Int) = x % 2 ^ 32 := Int.toNat_of_nonneg (by omega)
    generalize (x % 2 ^ 32).toNat = m at hm
    have hle : leNat ((List.range 4).map fun i => UInt8.ofNat (m / 256 ^ i)) = m := by
      simp only [List.range, List.range.loop, List.map_cons, List.map_nil, leNat,
        UInt8.toNat_ofNat']
      omega
    rw [int32, hle]
    split <;> omega
  next => cases h

/-- Two definitions with one key have one offset, when the first pass succeeds. -/
theorem pairwise_offset {L : List Placed} (hkeys : Unambiguous L)
    (hfresh : L.Pairwise fun p q =>
      ∀ symb, q.entry = .item (.globalLabel symb) → p.key? ≠ some symb) :
    L.Pairwise fun p q => ∀ k, p.key? = some k → q.key? = some k → p.offset = q.offset := by
  refine hfresh.imp_of_mem fun {p q} hp hq hpq k hpk hqk => ?_
  rcases key?_cases hqk with ⟨name, hname, rfl⟩ | hglobal
  · exact (hkeys.local_key q hq name hname p hp hpk).2.2
  · exact absurd hpk (hpq k hglobal)

theorem initSymbols_get? {k : Text} {n : Int} : initSymbols.get? k ≠ some (.int n) := by
  rw [initSymbols, Dict.get?_set, Dict.get?_empty]
  split
  · intro h; cases h
  · intro h; cases h

theorem initSymbols_get?_localKey (fle name : Text) :
    initSymbols.get? (localKey fle name) = none := by
  have hne : i32Name ≠ localKey fle name := fun h =>
    absurd (h ▸ dot_mem_localKey fle name) (by decide)
  rw [initSymbols, Dict.get?_set_of_ne _ hne, Dict.get?_empty]

section Table

variable {L : List Placed} (hkeys : Unambiguous L)
  (hset : Settled L (enterAll L initSymbols))

include hkeys hset

omit hkeys in
/-- A key without a dot belongs to a global label. -/
theorem table_global {name : Text} {v : Int} (hdot : '.' ∉ name) :
    (enterAll L initSymbols).get? name = some (.int v) ↔
      ∃ offset : Nat, v = offset ∧ GlobalAt L name offset := by
  constructor
  · intro h
    rcases enterAll_get?_some h with hinit | ⟨q, hq, hk, hv⟩
    · exact absurd hinit initSymbols_get?
    · cases hv
      rcases key?_cases hk with ⟨n, -, rfl⟩ | hglobal
      · exact absurd (dot_mem_localKey q.file n) hdot
      · exact ⟨q.offset, rfl, q.file, by rw [← hglobal]; exact hq⟩
  · rintro ⟨offset, rfl, fle, hmem⟩
    exact hset _ hmem name rfl

omit hset in
/-- The key of a local name that a relocation uses belongs to that name. -/
theorem table_local {p : Placed} (hp : p ∈ L) {sym : Ident} {addend : Int}
    (hreloc : p.entry = .item (.reloc sym addend)) {v : Value}
    (h : (enterAll L initSymbols).get? (localKey p.file sym.text) = some v) :
    ∃ offset : Nat, v = .int offset ∧ ((∃ w, LabelAt L p.file sym.text w) →
      LabelAt L p.file sym.text offset) ∧
      (LabelAt L p.file sym.text offset ∨ SectionAt L p.file sym.text offset) := by
  rcases enterAll_get?_some h with hinit | ⟨q, hq, hk, rfl⟩
  · rw [initSymbols_get?_localKey] at hinit
    cases hinit
  · obtain ⟨hfile, hname⟩ := hkeys.reloc_key p hp sym addend hreloc q hq hk
    refine ⟨q.offset, rfl, ?_, ?_⟩
    · rintro ⟨w, hw⟩
      have hsame := (hkeys.local_key q hq _ hname _ hw (by rw [hfile]; rfl)).2.2
      exact hsame ▸ hw
    · obtain ⟨offset, fle, e⟩ := q
      subst hfile
      cases e with
      | start secName => exact Or.inr ⟨secName, Option.some.inj hname, hq⟩
      | item i =>
          cases i with
          | localLabel symb => exact Or.inl (Option.some.inj hname ▸ hq)
          | globalLabel symb => cases hname
          | bytes xs => cases hname
          | reloc sym' addend' => cases hname

/-- The second pass finds the address of a name. -/
theorem getItem_address {p : Placed} (hp : p ∈ L) {sym : Ident} {addend v : Int}
    (hreloc : p.entry = .item (.reloc sym addend))
    (h : getItem 1 p.file (enterAll L initSymbols) sym.text = .ok (.int v)) :
    ∃ offset : Nat, v = offset ∧ Address L p.file sym.text offset := by
  rw [getItem, if_neg Nat.one_ne_zero] at h
  cases hloc : (enterAll L initSymbols).get? (localKey p.file sym.text) with
  | some x =>
      rw [hloc] at h
      cases h
      obtain ⟨offset, hv, hlabel, hcases⟩ := table_local hkeys hp hreloc hloc
      cases hv
      refine ⟨offset, rfl, ?_⟩
      rcases Classical.em (∃ w, LabelAt L p.file sym.text w) with hex | hno
      · exact Or.inl (hlabel hex)
      · rcases hcases with hl | hs
        · exact Or.inl hl
        · exact Or.inr (Or.inl ⟨not_exists.mp hno, hs⟩)
  | none =>
      rw [hloc] at h
      cases hglob : (enterAll L initSymbols).get? sym.text with
      | none => rw [hglob] at h; cases h
      | some x =>
          rw [hglob] at h
          cases h
          obtain ⟨offset, rfl, hat⟩ := (table_global hset sym.noDot).mp hglob
          refine ⟨offset, rfl, Or.inr (Or.inr ⟨fun w hw => ?_, fun w hw => ?_, hat⟩)⟩
          · have := hset _ hw _ rfl
            rw [hloc] at this
            cases this
          · obtain ⟨secName, hsec, hmem⟩ := hw
            have := hset _ hmem (localKey p.file sym.text) (by rw [← hsec]; rfl)
            rw [hloc] at this
            cases this

omit hkeys hset in
theorem mem_symbolsGlobal {symbols : Symbols} {name : Text} {v : Int} :
    (name, v) ∈ symbolsGlobal symbols ↔ '.' ∉ name ∧ symbols.get? name = some (.int v) := by
  rw [symbolsGlobal, List.mem_filterMap, Dict.get?_eq_some_iff]
  constructor
  · rintro ⟨⟨k, x⟩, hmem, hx⟩
    cases x with
    | i32 => cases hx
    | int n =>
        simp only at hx
        split at hx
        next hdot =>
          cases hx
          exact ⟨hdot, hmem⟩
        next => cases hx
  · rintro ⟨hdot, hmem⟩
    exact ⟨(name, .int v), hmem, if_pos hdot⟩

end Table

/-! ## The linker is correct -/

/-- For all inputs on which `FLE_ld` succeeds and whose keys are unambiguous: the
image that `FLE_exec` reads back and the recorded symbols are those of the
layout, and both passes compute the same offsets. -/
theorem link_correct {files : Text → Option Obj} {args : List Text} {dest : Text} {exe : Exe}
    (h : ld files args = .ok (dest, exe))
    (hkeys : Unambiguous (layout (objects files (inputFiles none args)))) :
    ∃ a pass0 pass1, readArgs files none args ⟨none, Dict.empty⟩ = .ok a ∧
      linkPass 0 a.sections initSymbols = .ok pass0 ∧
      linkPass 1 a.sections pass0.symbols = .ok pass1 ∧
      pass0.symbols = pass1.symbols ∧ pass0.res.length = pass1.res.length ∧
      execImage exe.load = some pass1.res ∧
      LinkedImage (objects files (inputFiles none args)) pass1.res exe.symbols := by
  obtain ⟨a, pass0, pass1, ha, h0, h1, rfl⟩ := ld_ok h
  have hrun0 := h0
  have hrun1 := h1
  rw [linkPass_eq, entries_sections ha] at hrun0 hrun1
  obtain ⟨htab, hlen0⟩ := pass_table hrun0
  obtain ⟨-, hlen1⟩ := pass_table hrun1
  have hset : Settled (layout (objects files (inputFiles none args)))
      (enterAll (layout (objects files (inputFiles none args))) initSymbols) :=
    settled_enterAll (pairwise_offset hkeys (pass_global_fresh hrun0).2) initSymbols
  rw [htab] at hrun1
  have hset0 : Settled (place ([] : List UInt8).length
      (flatEntries (grouped (objects files (inputFiles none args))))) _ := hset
  obtain ⟨hsame, hfound⟩ := pass_image hset0 hrun1
  refine ⟨a, pass0, pass1, ha, h0, h1, htab.trans hsame.symm, hlen0.trans hlen1.symm,
    execImage_loadLines _, ?_, ?_, ?_, ?_⟩
  · exact hlen1.trans (Nat.zero_add _)
  · intro offset fle xs hmem
    exact hfound _ hmem
  · intro offset fle sym addend hmem
    obtain ⟨v, hv, hbytes⟩ := evalReloc_ok (hfound _ hmem)
    obtain ⟨w, rfl, haddr⟩ := getItem_address hkeys hset hmem rfl hv
    exact ⟨w, haddr, int32_toBytes hbytes⟩
  · intro name v
    rw [mem_symbolsGlobal, hsame]
    exact and_congr_right fun hdot => table_global hset hdot

/-! ## Files that link and files that do not -/

/-- An object with one section of code. -/
def textObj (body : List Item) : Obj := ⟨objType, Dict.set Dict.empty ".text".toList body⟩

/-- A file system with the files `a` and `b`. -/
def twoFiles (a b : List Item) (fle : Text) : Option Obj :=
  if fle = ['a'] then some (textObj a) else if fle = ['b'] then some (textObj b) else none

/-- `ld a b -o x`. -/
def twoArgs : List Text := [['a'], ['b'], destFlag, ['x']]

/-- A call across two files.  Each has a label for its section, as `FLE_cc` writes it. -/
def callAcross : Text → Option Obj :=
  twoFiles
    [.localLabel "_text".toList, .globalLabel "_start".toList, .bytes [0xe8],
      .reloc ⟨"f".toList, by decide⟩ (-4)]
    [.localLabel "_text".toList, .bytes [0x90], .globalLabel "f".toList, .bytes [0xc3]]

theorem link_callAcross : ∃ a pass0 pass1,
    readArgs callAcross none twoArgs ⟨none, Dict.empty⟩ = .ok a ∧
      linkPass 0 a.sections initSymbols = .ok pass0 ∧
      linkPass 1 a.sections pass0.symbols = .ok pass1 ∧
      pass0.symbols = pass1.symbols ∧ pass0.res.length = pass1.res.length ∧
      execImage ["🔢: e8 01 00 00 00 90 c3".toList] = some pass1.res ∧
      LinkedImage (objects callAcross (inputFiles none twoArgs)) pass1.res
        [("_start".toList, 0), ("f".toList, 6)] :=
  have hld : ld callAcross twoArgs = .ok (['x'],
      ⟨[("_start".toList, 0), ("f".toList, 6)], ["🔢: e8 01 00 00 00 90 c3".toList]⟩) := by
    decide +kernel
  link_correct hld (unambiguous_of_noDots (by decide +kernel) (by decide +kernel))

/-- The local labels of an object. -/
def Obj.localLabels (o : Obj) : List Text :=
  o.sections.flatMap fun sec => sec.2.filterMap fun i =>
    match i with
    | .localLabel symb => some symb
    | _ => none

/-- Distinct files, none with two local labels of one name, that are linked to
something else than the image of their layout. -/
def Mislinked (files : Text → Option Obj) (args : List Text) : Prop :=
  (inputFiles none args).Nodup ∧
    (∀ x ∈ objects files (inputFiles none args), x.2.localLabels.Nodup) ∧
    ∃ dest exe, ld files args = .ok (dest, exe) ∧
      ¬∃ image, execImage exe.load = some image ∧
        LinkedImage (objects files (inputFiles none args)) image exe.symbols

/-- A label named like its section, after a relocation that uses it. -/
def sectionLabel : Text → Option Obj :=
  twoFiles [.reloc ⟨"_text".toList, by decide⟩ 0, .localLabel "_text".toList] []

/-- A global label of `b` whose name is the key of a local name of `a`. -/
def dottedLabel : Text → Option Obj :=
  twoFiles [.reloc ⟨"f".toList, by decide⟩ 0]
    [.globalLabel "f".toList, .bytes [0xc3], .globalLabel "a.f".toList]

/-- It is enough that one relocation does not hold the only address of its name. -/
theorem mislinked_of_reloc {files : Text → Option Obj} {args : List Text} {dest : Text} {exe : Exe}
    {image : List UInt8} {offset v : Nat} {fle : Text} {sym : Ident} {addend : Int}
    (hfiles : (inputFiles none args).Nodup)
    (hlabels : ∀ x ∈ objects files (inputFiles none args), x.2.localLabels.Nodup)
    (hld : ld files args = .ok (dest, exe)) (himage : execImage exe.load = some image)
    (hmem : ⟨offset, fle, .item (.reloc sym addend)⟩ ∈
      layout (objects files (inputFiles none args)))
    (haddr : ∀ w, Address (layout (objects files (inputFiles none args))) fle sym.text w → w = v)
    (hv : int32 ((image.drop offset).take 4) ≠ v + addend - offset) : Mislinked files args := by
  refine ⟨hfiles, hlabels, dest, exe, hld, ?_⟩
  rintro ⟨image', himage', hlinked⟩
  rw [himage, Option.some.injEq] at himage'
  subst himage'
  obtain ⟨w, hw, hval⟩ := hlinked.reloc_eq offset fle sym addend hmem
  rw [haddr w hw] at hval
  exact hv hval

theorem mislinked_sectionLabel : Mislinked sectionLabel twoArgs := by
  have hlayout : layout (objects sectionLabel (inputFiles none twoArgs)) =
      [⟨0, ['a'], .start ".text".toList⟩, ⟨0, ['a'], .item (.reloc ⟨"_text".toList, by decide⟩ 0)⟩,
        ⟨4, ['a'], .item (.localLabel "_text".toList)⟩, ⟨4, ['b'], .start ".text".toList⟩] := by
    decide +kernel
  have hld : ld sectionLabel twoArgs = .ok (['x'], ⟨[], ["🔢: 00 00 00 00".toList]⟩) := by
    decide +kernel
  have himage : execImage ["🔢: 00 00 00 00".toList] = some [0, 0, 0, 0] := by decide +kernel
  have hmem : ⟨0, ['a'], .item (.reloc ⟨"_text".toList, by decide⟩ 0)⟩ ∈
      layout (objects sectionLabel (inputFiles none twoArgs)) := by decide +kernel
  refine mislinked_of_reloc (v := 4) (by decide) (by decide +kernel) hld himage hmem
    (fun w hw => ?_) (by decide +kernel)
  have hlabel : LabelAt (layout (objects sectionLabel (inputFiles none twoArgs))) ['a']
      "_text".toList 4 := by
    rw [LabelAt, hlayout]
    decide +kernel
  rcases hw with h | h | h
  · rw [LabelAt, hlayout] at h
    simpa using h
  · exact absurd hlabel (h.1 4)
  · exact absurd hlabel (h.1 4)

theorem mislinked_dottedLabel : Mislinked dottedLabel twoArgs := by
  have hlayout : layout (objects dottedLabel (inputFiles none twoArgs)) =
      [⟨0, ['a'], .start ".text".toList⟩, ⟨0, ['a'], .item (.reloc ⟨"f".toList, by decide⟩ 0)⟩,
        ⟨4, ['b'], .start ".text".toList⟩, ⟨4, ['b'], .item (.globalLabel "f".toList)⟩,
        ⟨4, ['b'], .item (.bytes [0xc3])⟩, ⟨5, ['b'], .item (.globalLabel "a.f".toList)⟩] := by
    decide +kernel
  have hld : ld dottedLabel twoArgs =
      .ok (['x'], ⟨[("f".toList, 4)], ["🔢: 05 00 00 00 c3".toList]⟩) := by decide +kernel
  have himage : execImage ["🔢: 05 00 00 00 c3".toList] = some [5, 0, 0, 0, 0xc3] := by
    decide +kernel
  have hmem : ⟨0, ['a'], .item (.reloc ⟨"f".toList, by decide⟩ 0)⟩ ∈
      layout (objects dottedLabel (inputFiles none twoArgs)) := by decide +kernel
  refine mislinked_of_reloc (v := 4) (by decide) (by decide +kernel) hld himage hmem
    (fun w hw => ?_) (by decide +kernel)
  rcases hw with h | ⟨-, secName, hname, h⟩ | ⟨-, -, fle, h⟩
  · rw [LabelAt, hlayout] at h
    simp at h
  · -- the only section of `a` is `.text`
    rw [hlayout] at h
    simp only [List.mem_cons, Placed.mk.injEq, Entry.start.injEq] at h
    have hsec : secName = ".text".toList := by simp_all
    subst hsec
    exact absurd hname (by decide)
  · rw [hlayout] at h
    simp at h
    exact h.1

/-- Two ways in which the keys of labels clash. -/
theorem link_misplaces_names : Mislinked sectionLabel twoArgs ∧ Mislinked dottedLabel twoArgs :=
  ⟨mislinked_sectionLabel, mislinked_dottedLabel⟩

end OsCourse.Fle
