import OsCourse.Fle.Pieces

/-!
# Whole sections

The items that `elf_to_fle` writes, told apart by their marks as in `item.split(': ')`, and
laid out as a list of cells, one for each byte: a byte item fills its cells with its
bytes, a relocation leaves its four cells open, and a label takes none.  The loop makes
the cells of the section (`cells_elfPieces`): after `n` bytes the pieces and the bytes that
are held have the cells of the first `n` bytes, and open cells for those that are still to
be skipped (`Scan.Fills`).
-/

namespace OsCourse.Fle

/-! ## Items by their marks -/

/-- An item that is written, by its mark. -/
inductive Marked where
  /-- `📤: name`. -/
  | globalLabel (name : Text)
  /-- `🏷️: name`. -/
  | localLabel (name : Text)
  /-- `🔢: xs`. -/
  | bytes (xs : List UInt8)
  /-- `❓: expr`. -/
  | reloc (expr : Text)
deriving DecidableEq

/-- A text cut at the first `: `. -/
def cutColon : Text → Option (Text × Text)
  | [] => none
  | ':' :: ' ' :: cs => some ([], cs)
  | c :: cs => (cutColon cs).map fun x => (c :: x.1, x.2)

/-- The item with a mark and what follows it. -/
def markedAs (mark body : Text) : Option Marked :=
  if mark = "📤".toList then some (.globalLabel body)
  else if mark = "🏷️".toList then some (.localLabel body)
  else if mark = [bytesMark] then (readBytes (splitWords [] body)).map .bytes
  else if mark = "❓".toList then some (.reloc body)
  else none

/-- What a text is by its mark. -/
def readMarked (text : Text) : Option Marked := (cutColon text).bind fun x => markedAs x.1 x.2

/-- The label of a symbol, with the mark of its kind. -/
def Symbol.marked (s : Symbol) : Marked :=
  if s.symbType = .l then .localLabel (mangle s.shown) else .globalLabel (mangle s.shown)

/-- What a piece is written as. -/
def Piece.marked : Piece → Marked
  | .label s => s.marked
  | .bytes xs => .bytes xs
  | .field f => .reloc f.expr

theorem cutColon_mark {mark : Text} (h : ':' ∉ mark) (rest : Text) :
    cutColon (mark ++ ':' :: ' ' :: rest) = some (mark, rest) := by
  induction mark with
  | nil => rfl
  | cons c mark ih =>
      have hc : c ≠ ':' := fun he => h (he ▸ List.mem_cons_self ..)
      rw [List.cons_append, cutColon, ih fun hm => h (List.mem_cons_of_mem _ hm)]
      · rfl
      · exact fun cs he _ => hc he

theorem readMarked_mark {mark : Text} (h : ':' ∉ mark) (rest : Text) :
    readMarked (mark ++ ':' :: ' ' :: rest) = markedAs mark rest := by
  rw [readMarked, cutColon_mark h, Option.bind_some]

theorem readMarked_text (p : Piece) : readMarked p.text = some p.marked := by
  cases p with
  | label s =>
      have htext : (Piece.label s).text = labelMark s ++ ':' :: ' ' :: mangle s.shown := by
        rw [Piece.text, List.append_assoc]
        rfl
      rw [htext, Piece.marked, Symbol.marked, labelMark]
      split
      · rw [readMarked_mark (by decide), markedAs, if_neg (by decide), if_pos rfl]
      · rw [readMarked_mark (by decide), markedAs, if_pos rfl]
  | bytes xs =>
      have htext : (Piece.bytes xs).text = [bytesMark] ++ ':' :: ' ' :: joinBlank (xs.map hex) :=
        rfl
      rw [htext, readMarked_mark (by decide), markedAs, if_neg (by decide), if_neg (by decide),
        if_pos rfl, splitWords_join, readBytes_hex]
      rfl
  | field f =>
      have htext : (Piece.field f).text = "❓".toList ++ ':' :: ' ' :: f.expr := rfl
      rw [htext, readMarked_mark (by decide), markedAs, if_neg (by decide), if_neg (by decide),
        if_neg (by decide), if_pos rfl]
      rfl

/-- The texts of pieces are read one by one. -/
theorem mapM_readMarked (ps : List Piece) :
    (ps.map Piece.text).mapM readMarked = some (ps.map Piece.marked) := by
  induction ps with
  | nil => rfl
  | cons p ps ih =>
      rw [List.map_cons, List.mapM_cons, readMarked_text, ih]
      rfl

/-! ## Cells -/

/-- The room of an item. -/
def Marked.size : Marked → Nat
  | .bytes xs => xs.length
  | .reloc _ => 4
  | _ => 0

/-- The room of items. -/
def room (items : List Marked) : Nat := (items.map Marked.size).sum

/-- The cells of an item, a byte each or open. -/
def Marked.cells : Marked → List (Option UInt8)
  | .bytes xs => xs.map some
  | .reloc _ => List.replicate 4 none
  | _ => []

/-- The cells of items that are laid out in order. -/
def cells (items : List Marked) : List (Option UInt8) := items.flatMap Marked.cells

theorem Symbol.size_marked (s : Symbol) : s.marked.size = 0 := by
  rw [Symbol.marked]
  split <;> rfl

theorem Symbol.cells_marked (s : Symbol) : s.marked.cells = [] := by
  rw [Symbol.marked]
  split <;> rfl

theorem room_marked (ps : List Piece) : room (ps.map Piece.marked) = piecesSize ps := by
  rw [room, piecesSize, List.map_map]
  refine congrArg List.sum (List.map_congr_left fun p _ => ?_)
  cases p with
  | label s => exact s.size_marked
  | bytes xs => rfl
  | field f => rfl

theorem length_cells (items : List Marked) : (cells items).length = room items := by
  rw [cells, List.length_flatMap, room]
  refine congrArg List.sum (List.map_congr_left fun i _ => ?_)
  cases i with
  | globalLabel name => rfl
  | localLabel name => rfl
  | bytes xs => exact List.length_map _
  | reloc expr => rfl

/-- The offset is in the field of some entry. -/
def covered (entries : List Reloc) (i : Nat) : Bool :=
  entries.any fun r => r.offset ≤ i ∧ i < r.offset + 4

/-- The cell of a byte of a section. -/
def cell (entries : List Reloc) (x : UInt8 × Nat) : Option UInt8 :=
  if covered entries x.2 then none else some x.1

theorem covered_iff {entries : List Reloc} {i : Nat} :
    covered entries i = true ↔ ∃ r ∈ entries, r.offset ≤ i ∧ i < r.offset + 4 := by
  simp [covered]

/-! ## The loop -/

/-- The cells of the pieces and of the bytes that are held. -/
def Scan.cells (l : Scan) : List (Option UInt8) :=
  Fle.cells (l.res.map Piece.marked) ++ l.holding.map some

theorem Scan.cells_dump (l : Scan) : l.dump.cells = l.cells := by
  rw [Scan.dump]
  split
  next => rfl
  next => simp [Scan.cells, Fle.cells, Piece.marked, Marked.cells]

theorem Scan.cells_append (l : Scan) (p : Piece) :
    (l.append p).cells = l.cells ++ p.marked.cells := by
  have hdump : Fle.cells (l.dump.res.map Piece.marked) = l.cells := by
    rw [← l.cells_dump, Scan.cells, l.dump_holding, List.map_nil, List.append_nil]
  rw [← hdump]
  simp [Scan.cells, Scan.append, Fle.cells, l.dump_holding]

/-- Labels take no cells. -/
theorem Scan.cells_addLabels (secName : Text) (symbols : List Symbol) (n : Nat) (l : Scan) :
    (l.addLabels secName symbols n).cells = l.cells := by
  refine Scan.addLabels_induction (P := fun l' : Scan => l'.cells = l.cells) rfl
    fun l' s _ _ _ hl => ?_
  rw [Scan.cells_append, Piece.marked, s.cells_marked, List.append_nil]
  exact hl

theorem Scan.cells_addByte (b : UInt8) (l : Scan) :
    (l.addByte b).cells = l.cells ++ if l.skip = 0 then [some b] else [] := by
  refine Scan.addByte_induction
    (P := fun l' : Scan => l'.cells = l.cells ++ if l.skip = 0 then [some b] else []) b
    (fun l' hl => l'.cells_dump.trans hl) (fun h => ?_) fun h => ?_
  · rw [if_neg h.ne', List.append_nil]
    rfl
  · rw [if_pos h, Scan.cells, List.map_append, ← List.append_assoc]
    rfl

section
variable {elf : Elf} {secName : Text} {pieces : List Piece} {d : Dict Nat RelocField} {n : Nat}
  {l : Scan}

/-- Fields that start below `bound` end where skipping ends, at the latest. -/
def Scan.Past (elf : Elf) (secName : Text) (bound n : Nat) (l : Scan) : Prop :=
  ∀ r ∈ elf.entries secName, r.offset < bound → r.offset + 4 ≤ n + l.skip

theorem Scan.Past.addLabels (h : l.Past elf secName n n) :
    (l.addLabels secName elf.labels n).Past elf secName n n := by
  intro r hr hlt
  rw [(l.room_addLabels secName elf.labels n).2]
  exact h r hr hlt

theorem Scan.Past.addByte (b : UInt8) (h : l.Past elf secName (n + 1) n) :
    (l.addByte b).Past elf secName (n + 1) (n + 1) := by
  intro r hr hlt
  have hle := h r hr hlt
  rw [Scan.skip_addByte]
  omega

/-- The cells of the bytes that the loop has run over, and open ones for the bytes to be
skipped. -/
def Scan.Filled (done : List (Option UInt8)) (l : Scan) : Prop :=
  l.cells = done ++ List.replicate l.skip none

variable {done : List (Option UInt8)}

theorem Scan.Filled.addLabels (h : l.Filled done) :
    (l.addLabels secName elf.labels n).Filled done := by
  rw [Scan.Filled, Scan.cells_addLabels, (l.room_addLabels secName elf.labels n).2]
  exact h

/-- A byte is in a field exactly if it is skipped. -/
theorem Scan.Past.covered_iff_skip (hgood : l.Good elf secName (n + 1) n)
    (h : l.Past elf secName (n + 1) n) :
    covered (elf.entries secName) n = true ↔ l.skip ≠ 0 := by
  constructor
  · intro hcov
    obtain ⟨r, hr, hle, hlt⟩ := covered_iff.mp hcov
    have hend := h r hr (by omega)
    omega
  · intro hskip
    obtain ⟨r, hr, hlt, heq⟩ := hgood.inside.resolve_left hskip
    exact covered_iff.mpr ⟨r, hr, by omega⟩

theorem Scan.Filled.addByte (b : UInt8)
    (hcov : covered (elf.entries secName) n = true ↔ l.skip ≠ 0) (h : l.Filled done) :
    (l.addByte b).Filled (done ++ [cell (elf.entries secName) (b, n)]) := by
  rw [Scan.Filled, Scan.cells_addByte, Scan.skip_addByte, show l.cells = _ from h, cell,
    List.append_assoc, List.append_assoc]
  congr 1
  cases hskip : l.skip with
  | zero =>
      rw [if_neg (mt hcov.mp (not_not.mpr hskip))]
      rfl
  | succ m =>
      rw [if_pos (hcov.mpr (by omega)), List.replicate_succ, if_neg (by omega), List.append_nil]
      rfl

variable (hd : relocations elf secName = .ok d)

include hd

theorem Scan.Past.addField (h : l.Past elf secName n n) :
    (l.addField d n).Past elf secName (n + 1) n := by
  intro r hr hlt
  rw [Scan.addField]
  cases hf : d.get? n with
  | none =>
      refine h r hr ?_
      have hne : r.offset ≠ n := by
        rintro rfl
        obtain ⟨r', -, hr'⟩ := exists_field hd hr
        cases hf.symm.trans hr'
      omega
  | some f =>
      obtain ⟨r', -, -, -, rfl⟩ := eq_field hd hf
      show r.offset + 4 ≤ n + 4
      omega

theorem Scan.Filled.addField (hskip : ∀ f, d.get? n = some f → l.skip = 0) (h : l.Filled done) :
    (l.addField d n).Filled done := by
  rw [Scan.addField]
  cases hf : d.get? n with
  | none => exact h
  | some f =>
      obtain ⟨r, -, -, -, rfl⟩ := eq_field hd hf
      have hcells : l.cells = done ++ List.replicate l.skip none := h
      rw [hskip _ hf, List.replicate_zero, List.append_nil] at hcells
      show (l.append (.field r.field)).cells = done ++ List.replicate 4 none
      rw [Scan.cells_append, hcells]
      rfl

/-- The invariant of the loop after `n` bytes. -/
structure Scan.Fills (elf : Elf) (secName : Text) (n : Nat) (l : Scan) : Prop where
  good : l.Good elf secName n n
  past : l.Past elf secName n n
  filled : l.Filled (((elf.data secName).take n).zipIdx.map (cell (elf.entries secName)))

/-- The loop fills the cells of the section. -/
theorem Scan.Fills.run (hapart : Apart (elf.entries secName) (elf.data secName).length) :
    ((elf.data secName).zipIdx.foldl (Scan.step secName elf.labels d) ⟨[], 0, []⟩).Fills elf secName
      (elf.data secName).length := by
  refine Scan.run_induction (P := Scan.Fills elf secName)
    ⟨Scan.Good.start, fun r _ hlt => absurd hlt (Nat.not_lt_zero _), rfl⟩ fun n l b hb h => ?_
  obtain ⟨hn, -⟩ := List.getElem?_eq_some_iff.mp hb
  have hlabels := h.good.addLabels hn
  have hgood := hlabels.addField hd hapart hn
  have hpast := h.past.addLabels.addField hd
  have hfilled := h.filled.addLabels.addField hd fun f hf =>
    hlabels.skip_of_field hd hapart hn hf
  refine ⟨hgood.addByte b, hpast.addByte b, ?_⟩
  rw [List.take_add_one, hb, List.zipIdx_append, List.map_append, List.length_take,
    Nat.min_eq_left hn.le, Nat.zero_add]
  exact hfilled.addByte b (hpast.covered_iff_skip hgood)

end

section
variable {elf : Elf} {secName : Text} {pieces : List Piece}

/-- The pieces have the cells of the section, when no field starts inside of another one
and the loop does not end inside of one. -/
theorem cells_elfPieces (h : elfPieces elf secName = .ok pieces)
    (hapart : Apart (elf.entries secName) (elf.data secName).length)
    (hfits : ∀ r ∈ elf.entries secName, r.offset < (elf.data secName).length →
      r.offset + 4 ≤ (elf.data secName).length) :
    cells (pieces.map Piece.marked) =
      (elf.data secName).zipIdx.map (cell (elf.entries secName)) := by
  obtain ⟨d, hd, rfl⟩ := elfPieces_ok h
  have hrun := Scan.Fills.run hd hapart
  generalize (elf.data secName).zipIdx.foldl (Scan.step secName elf.labels d)
    ⟨[], 0, []⟩ = l at hrun
  have hcells : l.cells = _ ++ _ := hrun.filled
  have hskip : l.skip = 0 := by
    rcases hrun.good.inside with h0 | ⟨r, hr, hlt, heq⟩
    · exact h0
    · have hfit := hfits r hr (by omega)
      omega
  have hdump := l.cells_dump
  rw [Scan.cells, l.dump_holding, List.map_nil, List.append_nil] at hdump
  rw [hdump, hcells, hskip, List.replicate_zero, List.append_nil, List.take_length]

/-- The pieces of a section whose entries are of supported kinds. -/
theorem exists_elfPieces (h : ∀ r ∈ elf.entries secName, r.kind.supported = true) :
    ∃ pieces, elfPieces elf secName = .ok pieces := by
  obtain ⟨d, hd⟩ := exists_foldlM_addReloc h Dict.empty
  exact bind_defined ⟨d, hd⟩ fun d' _ => ⟨_, rfl⟩

theorem supported_of_elfPieces (h : elfPieces elf secName = .ok pieces) :
    ∀ r ∈ elf.entries secName, r.kind.supported = true := by
  obtain ⟨d, hd, -⟩ := elfPieces_ok h
  exact (foldlM_addReloc hd).1

theorem elfToFle_eq (h : elfPieces elf secName = .ok pieces) :
    elfToFle elf secName = .ok (pieces.map Piece.text) := by
  rw [elfToFle, h]
  rfl

end

/-! ## Faithful conversion -/

/-- The relocations of the section are of the kinds that are accepted.  Their fields
lie inside of the section, do not overlap, and have no symbol inside. -/
structure Elf.Convertible (elf : Elf) (secName : Text) (data : List UInt8) : Prop where
  content : elf.sections.get? secName = some data
  kinds : ∀ r ∈ elf.entries secName, r.kind.supported = true
  fits : ∀ r ∈ elf.entries secName, r.offset + 4 ≤ data.length
  apart : (elf.entries secName).Pairwise fun r r' =>
    r.offset + 4 ≤ r'.offset ∨ r'.offset + 4 ≤ r.offset
  free : ∀ r ∈ elf.entries secName, ∀ s ∈ elf.labels, s.sec = some secName → ¬ r.Inside s.offset

/-- The items, laid out in order, are the section. -/
structure Faithful (elf : Elf) (secName : Text) (data : List UInt8) (items : List Marked) :
    Prop where
  size : room items = data.length
  /-- The label of a symbol has the mark of its kind and stands at its offset. -/
  label : ∀ s ∈ elf.labels, s.sec = some secName →
    ∃ pre post, items = pre ++ s.marked :: post ∧ room pre = s.offset
  /-- The item of a relocation stands at its offset. -/
  field : ∀ r ∈ elf.entries secName,
    ∃ pre post, items = pre ++ .reloc r.expr :: post ∧ room pre = r.offset
  /-- The bytes stand at their own offsets, except those in fields. -/
  bytes : cells items = data.zipIdx.map (cell (elf.entries secName))

section
variable {elf : Elf} {secName : Text} {data : List UInt8}

theorem Elf.Convertible.one (h : elf.Convertible secName data) {r r' : Reloc}
    (hr : r ∈ elf.entries secName) (hr' : r' ∈ elf.entries secName)
    (hlt : r'.offset < r.offset + 4) (hle : r.offset ≤ r'.offset) : r' = r := by
  by_contra hne
  have hsymm : Std.Symm fun r r' : Reloc =>
      r.offset + 4 ≤ r'.offset ∨ r'.offset + 4 ≤ r.offset := ⟨fun _ _ => Or.symm⟩
  rcases h.apart.forall hr' hr hne with hover | hover <;> omega

theorem Elf.Convertible.data_eq (h : elf.Convertible secName data) : elf.data secName = data := by
  rw [Elf.data, h.content, Option.getD_some]

theorem Elf.Convertible.isApart (h : elf.Convertible secName data) (size : Nat) :
    Apart (elf.entries secName) size := by
  intro r hr r' hr' _ hin
  obtain rfl := h.one hr hr' hin.2 hin.1.le
  exact Nat.lt_irrefl _ hin.1

end

/-- The conversion of a section is faithful: what it writes is read as items that are the
section. -/
theorem elfToFle_faithful (elf : Elf) (secName : Text) (data : List UInt8)
    (h : elf.Convertible secName data)
    (hsymbols : ∀ s ∈ elf.labels, s.sec = some secName → s.offset < data.length) :
    ∃ texts items, elfToFle elf secName = .ok texts ∧ texts.mapM readMarked = some items ∧
      Faithful elf secName data items := by
  obtain ⟨pieces, hpieces⟩ := exists_elfPieces h.kinds
  have hdata := h.data_eq
  have hapart := h.isApart (elf.data secName).length
  have hcells := cells_elfPieces hpieces hapart fun r hr _ => by
    rw [hdata]
    exact h.fits r hr
  rw [hdata] at hcells
  refine ⟨_, pieces.map Piece.marked, elfToFle_eq hpieces, mapM_readMarked pieces, ?_⟩
  exact {
    size := by rw [← length_cells, hcells, List.length_map, List.length_zipIdx]
    label := by
      intro s hs hsec
      have hlt : s.offset < (elf.data secName).length := hdata ▸ hsymbols s hs hsec
      obtain ⟨pre, post, rfl, hpre⟩ := label_placed hpieces hapart hs hsec
        (fun r hr => h.free r hr s hs hsec) hlt
      exact ⟨pre.map Piece.marked, post.map Piece.marked, by rw [List.map_append]; rfl,
        (room_marked pre).trans hpre⟩
    field := by
      intro r hr
      have hfit := h.fits r hr
      rw [← hdata] at hfit
      obtain ⟨r', pre, post, hlast, rfl, hpre⟩ := field_placed hpieces hapart hr (by omega)
      -- the last entry at the offset is the only one
      obtain ⟨hr', hoff⟩ := lastAt_eq_some hlast
      cases h.one hr hr' (by omega) (by omega)
      exact ⟨pre.map Piece.marked, post.map Piece.marked, by rw [List.map_append]; rfl,
        (room_marked pre).trans hpre⟩
    bytes := hcells }

/-- `call puts` at `main`, and `ret` behind it. -/
def callPuts : Elf where
  sections := Dict.set Dict.empty ".text".toList [0xe8, 0, 0, 0, 0, 0xc3]
  symbols := [⟨.g, some ".text".toList, 0, "main".toList, .stvDefault⟩,
    ⟨.l, some ".text".toList, 5, "out".toList, .stvDefault⟩]
  relocs := [("Relocation section '.rela.text'".toList,
    [⟨1, .plt32, ⟨.g, none, 0, "puts".toList, .stvDefault⟩, -4⟩])]
  dotted := by
    intro secName hsec
    rw [show secName = ".text".toList from List.mem_singleton.mp hsec]
    decide

theorem convertible_callPuts :
    callPuts.Convertible ".text".toList [0xe8, 0, 0, 0, 0, 0xc3] := by
  constructor
  all_goals decide +kernel

theorem elfToFle_faithful_callPuts :
    ∃ texts items, elfToFle callPuts ".text".toList = .ok texts ∧
      texts.mapM readMarked = some items ∧
      Faithful callPuts ".text".toList [0xe8, 0, 0, 0, 0, 0xc3] items :=
  elfToFle_faithful callPuts ".text".toList _ convertible_callPuts (by decide +kernel)

end OsCourse.Fle
