import OsCourse.Labyrinth.File
import OsCourse.Labyrinth.Connect

/-!
# Map files that load

Which files `loadMap` accepts, and which of them can be saved and loaded again.

A file without zero bytes loads when it has at most `MAX_ROWS` lines, every line
has at most `MAX_COLS` bytes with its newline counted, and the passable cells in
the columns of the first line are connected (`loadBytes_isSome_iff`).  The format
says less about a line and more about the cells: its characters may be
`MAX_COLS`, and all passable characters of the file must be connected
(`WellFormed`).  `loadMap_exact_iff` says for which files the two agree.

A line that is too long for `fgets` comes in pieces.  The first piece fills the
buffer and is refused for its length (`exists_full_piece`), so the pieces need
not be looked at: a file is either refused or read line by line
(`fgetsAll_eq_linesFrom`).
-/

namespace OsCourse.Maze

/-! ## The format -/

/-- The lines of a text with their newlines, where `line` is the part of the first
one that is already read.  The last one may lack its newline. -/
def linesFrom (line : List UInt8) : List UInt8 → List (List UInt8)
  | [] => if line = [] then [] else [line]
  | b :: bs =>
      if b = newline then (line ++ [b]) :: linesFrom [] bs else linesFrom (line ++ [b]) bs

/-- The lines of a file. -/
def fileLines (bytes : List UInt8) : List (List UInt8) := linesFrom [] bytes

/-- The characters of a line, those before its newline. -/
def characters (line : List UInt8) : List UInt8 := line.takeWhile (· != newline)

/-- The passable characters of a file, by line and column. -/
def fileSpaces (bytes : List UInt8) : Set Cell :=
  {a | ∃ line b, (fileLines bytes)[a.1]? = some line ∧ (characters line)[a.2]? = some b ∧
    passable b = true}

/-- The number of characters of the first line. -/
def fileWidth (bytes : List UInt8) : Nat := (characters ((fileLines bytes).headD [])).length

/-- The passable characters in the columns of the first line, which are all that
`isConnected` looks at. -/
def gridSpaces (bytes : List UInt8) : Set Cell := {a | a ∈ fileSpaces bytes ∧ a.2 < fileWidth bytes}

/-- What a map file should be. -/
structure WellFormed (bytes : List UInt8) : Prop where
  rows_pos : 1 ≤ (fileLines bytes).length
  rows_le : (fileLines bytes).length ≤ maxRows
  cols_le : ∀ line ∈ fileLines bytes, (characters line).length ≤ maxCols
  connected : Connected (fileSpaces bytes)

/-! ## Lines -/

theorem flatten_linesFrom :
    ∀ (bytes line : List UInt8), (linesFrom line bytes).flatten = line ++ bytes
  | [], line => by
      rw [linesFrom]
      split
      next h => simp [h]
      next => simp
  | b :: bs, line => by
      rw [linesFrom]
      split
      next => rw [List.flatten_cons, flatten_linesFrom bs, List.nil_append, List.append_assoc]; rfl
      next => rw [flatten_linesFrom bs, List.append_assoc]; rfl

theorem flatten_fgetsAll (size : Nat) : ∀ (bytes line : List UInt8),
    (fgetsAll size line bytes).flatten = line ++ bytes
  | [], line => by
      rw [fgetsAll]
      split
      next h => simp [h]
      next => simp
  | b :: bs, line => by
      rw [fgetsAll]
      split
      next =>
          rw [List.flatten_cons, flatten_fgetsAll size bs, List.nil_append, List.append_assoc]; rfl
      next => rw [flatten_fgetsAll size bs, List.append_assoc]; rfl

/-- The line that is being read is at least as long as what is read of it. -/
theorem exists_long_line : ∀ (bytes line : List UInt8), line ≠ [] →
    ∃ l ∈ linesFrom line bytes, line.length ≤ l.length
  | [], line, h => by
      rw [linesFrom, if_neg h]
      exact ⟨line, List.mem_singleton_self line, le_rfl⟩
  | b :: bs, line, _ => by
      rw [linesFrom]
      split
      next => exact ⟨line ++ [b], List.mem_cons_self .., by simp⟩
      next =>
        obtain ⟨l, hl, hlen⟩ := exists_long_line bs (line ++ [b]) (by simp)
        exact ⟨l, hl, by rw [List.length_append] at hlen; omega⟩

/-- Where every line leaves room in the buffer, `fgets` reads line by line. -/
theorem fgetsAll_eq_linesFrom (size : Nat) : ∀ (bytes line : List UInt8),
    (∀ l ∈ linesFrom line bytes, l.length < size - 1) →
      fgetsAll size line bytes = linesFrom line bytes
  | [], line, _ => rfl
  | b :: bs, line, h => by
      rw [linesFrom] at h
      rw [linesFrom, fgetsAll]
      by_cases hb : b = newline
      · rw [if_pos hb] at h
        rw [if_pos hb, if_pos (Or.inl hb), fgetsAll_eq_linesFrom size bs [] fun l hl =>
          h l (List.mem_cons_of_mem _ hl)]
      · rw [if_neg hb] at h
        obtain ⟨l, hl, hlen⟩ := exists_long_line bs (line ++ [b]) (by simp)
        have hroom := h l hl
        rw [List.length_append, List.length_singleton] at hlen
        have hgo : ¬ (b = newline ∨ line.length + 1 = size - 1) := by
          rintro (he | he)
          · exact hb he
          · omega
        rw [if_neg hb, if_neg hgo, fgetsAll_eq_linesFrom size bs (line ++ [b]) h]

/-- A line that fills the buffer comes in pieces, and one piece fills it. -/
theorem exists_full_piece (size : Nat) : ∀ (bytes line l : List UInt8), line.length < size - 1 →
    l ∈ linesFrom line bytes → size - 1 ≤ l.length →
      ∃ piece ∈ fgetsAll size line bytes, piece.length = size - 1
  | [], line, l, hroom, hl, hlen => by
      rw [linesFrom] at hl
      split at hl
      · cases hl
      · rw [List.mem_singleton.mp hl] at hlen
        omega
  | b :: bs, line, l, hroom, hl, hlen => by
      rw [linesFrom] at hl
      rw [fgetsAll]
      by_cases hfull : line.length + 1 = size - 1
      · rw [if_pos (Or.inr hfull)]
        exact ⟨line ++ [b], List.mem_cons_self .., by simp [hfull]⟩
      · by_cases hb : b = newline
        · rw [if_pos hb] at hl
          rw [if_pos (Or.inl hb)]
          rcases List.mem_cons.mp hl with rfl | hl
          · rw [List.length_append, List.length_singleton] at hlen
            omega
          · obtain ⟨piece, hpiece, hfull⟩ := exists_full_piece size bs [] l (by simp; omega) hl hlen
            exact ⟨piece, List.mem_cons_of_mem _ hpiece, hfull⟩
        · rw [if_neg hb] at hl
          rw [if_neg (not_or.mpr ⟨hb, hfull⟩)]
          exact exists_full_piece size bs (line ++ [b]) l (by simp; omega) hl hlen

/-- Only the last line can lack its newline. -/
theorem linesFrom_tail : ∀ (bytes line : List UInt8) {l : List UInt8} {rest : List (List UInt8)},
    linesFrom line bytes = l :: rest → newline ∉ l → rest = []
  | [], line, l, rest, h, _ => by
      rw [linesFrom] at h
      split at h
      · cases h
      · exact (List.cons.inj h).2.symm
  | b :: bs, line, l, rest, h, hl => by
      rw [linesFrom] at h
      split at h
      next hb =>
        rw [← (List.cons.inj h).1, hb] at hl
        exact absurd (List.mem_append_right _ (List.mem_singleton_self _)) hl
      next => exact linesFrom_tail bs (line ++ [b]) h hl

/-! ## What is stored of a line -/

variable {line bytes : List UInt8} {a : Cell}

/-- Without a newline all bytes of a line are characters. -/
theorem characters_eq_self (h : newline ∉ line) : characters line = line := by
  refine List.takeWhile_eq_self_iff.mpr fun a ha => ?_
  rw [bne_iff_ne]
  rintro rfl
  exact h ha

/-- A newline at the end is no character. -/
theorem characters_concat {text : List UInt8} (h : newline ∉ text) (b : UInt8) :
    characters (text ++ [b]) = if b = newline then text else text ++ [b] := by
  split
  next hb =>
    have htext := List.takeWhile_eq_self_iff.mp (characters_eq_self h)
    rw [characters, List.takeWhile_append_of_pos htext, hb]
    simp
  next hb =>
    refine characters_eq_self fun hmem => ?_
    rcases List.mem_append.mp hmem with hmem | hmem
    · exact h hmem
    · exact hb (List.mem_singleton.mp hmem).symm

/-- A row holds the characters of its line. -/
theorem lineText_eq_characters (h0 : 0 ∉ line) (hn : newline ∉ line.dropLast) :
    lineText line = characters line := by
  rw [lineText, cstr_eq_self h0]
  rcases List.eq_nil_or_concat line with rfl | ⟨text, b, rfl⟩
  · rfl
  · rw [List.concat_eq_append] at hn ⊢
    rw [List.dropLast_concat] at hn
    rw [characters_concat hn]
    simp

/-- The string at the start of the array, read off its bytes. -/
theorem stringAt_zero_eq {map : Nat → UInt8} {text : List UInt8} (h0 : 0 ∉ text)
    (hlen : text.length < maxRows * maxCols) (hcells : ∀ c < text.length, map c = text.getD c 0)
    (hend : map text.length = 0) : stringAt map 0 = text := by
  obtain ⟨more, hmore⟩ : ∃ more, maxRows * maxCols - 0 = text.length + (more + 1) :=
    ⟨maxRows * maxCols - text.length - 1, by omega⟩
  have htext : (List.range' 0 text.length).map map = text := by
    refine List.ext_getElem (by simp) fun c hc hc' => ?_
    rw [List.getElem_map, List.getElem_range', Nat.zero_add, Nat.one_mul, hcells c hc',
      List.getD_eq_getElem _ _ hc']
  rw [stringAt, hmore, ← List.range'_append_1, List.map_append, htext, Nat.zero_add,
    List.range'_succ, List.map_cons, hend]
  exact cstr_append_zero h0

/-! ## Files that load -/

section
variable {bytes : List UInt8} (h0 : 0 ∉ bytes)
include h0

variable {line : List UInt8} {n : Nat} {mem map : Nat → UInt8}

theorem zero_notMem_of_flatten {lines : List (List UInt8)} (hlines : lines.flatten = bytes)
    (h : line ∈ lines) : 0 ∉ line := by
  intro hmem
  apply h0
  rw [← hlines]
  exact List.mem_flatten.mpr ⟨line, h, hmem⟩

theorem zero_notMem_of_mem_fileLines (h : line ∈ fileLines bytes) : 0 ∉ line :=
  zero_notMem_of_flatten h0 (flatten_linesFrom bytes []) h

/-- A line that is too long is refused. -/
theorem loadBytes_long (mem : Nat → UInt8) (hline : line ∈ fileLines bytes)
    (hlen : maxCols < line.length) : loadBytes mem bytes = none := by
  have hroom : ([] : List UInt8).length < maxCols + 2 - 1 := Nat.succ_pos _
  obtain ⟨piece, hpiece, hfull⟩ := exists_full_piece (maxCols + 2) bytes [] line hroom hline hlen
  have hzero := zero_notMem_of_flatten h0 (flatten_fgetsAll (maxCols + 2) bytes []) hpiece
  have hstrlen : maxCols < strlen piece := by
    rw [strlen, cstr_eq_self hzero, hfull]
    omega
  rw [loadBytes, loadRows_none hpiece hstrlen]

/-- A first line that fills its row is the only one, and its terminator stands behind
the row. -/
theorem terminator_of_full {first : List UInt8} {rest : List (List UInt8)}
    (hlines : fileLines bytes = first :: rest)
    (hload : loadRows (fileLines bytes) 0 mem = some (n, map)) (hfull : first.length = maxCols)
    (hno : newline ∉ first) : map maxCols = 0 := by
  have hz : 0 ∉ first := zero_notMem_of_mem_fileLines h0 (hlines ▸ List.mem_cons_self ..)
  have hrest := linesFrom_tail bytes [] hlines hno
  have hstrlen : strlen first = maxCols := by rw [strlen, cstr_eq_self hz, hfull]
  rw [hlines, hrest] at hload
  simp only [loadRows, hstrlen, if_neg (lt_irrefl maxCols),
    if_neg (show ¬ 0 ≥ maxRows by decide), Option.some.injEq, Prod.mk.injEq] at hload
  rw [← hload.2]
  exact Function.update_self ..

/-- The columns of the first line, counted in the array. -/
theorem length_stringAt_loaded {first : List UInt8} {rest : List (List UInt8)}
    (hlines : fileLines bytes = first :: rest)
    (hload : loadRows (fileLines bytes) 0 mem = some (n, map)) (hlen : first.length ≤ maxCols)
    (htext : lineText first = characters first) :
    (stringAt map 0).length = (characters first).length := by
  have hz : 0 ∉ first := zero_notMem_of_mem_fileLines h0 (hlines ▸ List.mem_cons_self ..)
  have hchars : characters first <+: first := List.takeWhile_prefix _
  have hle := hchars.length_le
  have hcell : ∀ c < maxCols, map c = (characters first).getD c 0 := by
    intro c hc
    have hfirst : (fileLines bytes)[0]? = some first := by rw [hlines]; rfl
    have := loadRows_cell hload hfirst c hc
    rwa [htext, Nat.add_zero, addr, Nat.mul_zero, Nat.zero_add] at this
  have hend : map (characters first).length = 0 := by
    by_cases hshort : (characters first).length < maxCols
    · rw [hcell _ hshort]
      exact List.getD_eq_default _ _ le_rfl
    · have hfull : first.length = maxCols := by omega
      have hsame : characters first = first := hchars.eq_of_length (by omega)
      rw [hsame, hfull]
      refine terminator_of_full h0 hlines hload hfull fun hmem => ?_
      rw [← hsame] at hmem
      simpa using List.mem_takeWhile_imp hmem
  have hbound : (characters first).length < maxRows * maxCols := by
    refine hle.trans_lt (hlen.trans_lt ?_)
    decide
  refine congrArg List.length
    (stringAt_zero_eq (fun hmem => hz (hchars.subset hmem)) hbound ?_ hend)
  exact fun c hc => hcell c (by omega)

omit h0 in
theorem fileWidth_le (hlen : ∀ line ∈ fileLines bytes, line.length ≤ maxCols) :
    fileWidth bytes ≤ maxCols := by
  rw [fileWidth]
  cases hlines : fileLines bytes with
  | nil => exact Nat.zero_le _
  | cons first rest =>
      exact ((List.takeWhile_prefix _).length_le).trans
        (hlen first (hlines ▸ List.mem_cons_self ..))

/-- The passable cells of a map that was read line by line. -/
theorem spaces_loaded (hload : loadRows (fileLines bytes) 0 mem = some (n, map))
    (hlen : ∀ line ∈ fileLines bytes, line.length ≤ maxCols)
    (htext : ∀ line ∈ fileLines bytes, lineText line = characters line) :
    (⟨map, n, (stringAt map 0).length⟩ : Labyrinth).spaces =
      gridSpaces bytes := by
  have hn : n = (fileLines bytes).length := by
    rw [(loadRows_length hload).1, Nat.zero_add]
  have hcols : ∀ r < (fileLines bytes).length, (stringAt map 0).length = fileWidth bytes := by
    intro r hr
    cases hlines : fileLines bytes with
    | nil => rw [hlines] at hr; cases hr
    | cons first rest =>
        have hmem : first ∈ fileLines bytes := hlines ▸ List.mem_cons_self ..
        rw [length_stringAt_loaded h0 hlines hload (hlen first hmem) (htext first hmem), fileWidth,
          hlines, List.headD_cons]
  have hwidth := fileWidth_le hlen
  -- a cell in the columns of the first line holds the character of its line there
  have hcell : ∀ r c line, (fileLines bytes)[r]? = some line → c < fileWidth bytes →
      map (addr r c) = (characters line).getD c 0 := by
    intro r c line hr hc
    have := loadRows_cell hload hr c (by omega)
    rwa [htext line (List.mem_of_getElem? hr), Nat.zero_add] at this
  ext ⟨r, c⟩
  constructor
  · rintro ⟨hr, hc, hp⟩
    change r < n at hr
    change c < (stringAt map 0).length at hc
    change passable (map (addr r c)) = true at hp
    rw [hn] at hr
    rw [hcols r hr] at hc
    have hline := List.getElem?_eq_getElem hr
    rw [hcell r c _ hline hc, List.getD_eq_getElem?_getD] at hp
    refine ⟨⟨(fileLines bytes)[r], ?_⟩, hc⟩
    cases hb : (characters ((fileLines bytes)[r]))[c]? with
    | none => rw [hb] at hp; exact absurd hp (by decide)
    | some b => exact ⟨b, hline, rfl, by rwa [hb] at hp⟩
  · rintro ⟨⟨line, b, hline, hb, hp⟩, hc⟩
    have hr := (List.getElem?_eq_some_iff.mp hline).1
    change c < fileWidth bytes at hc
    refine ⟨hn ▸ hr, (hcols r hr).symm ▸ hc, ?_⟩
    change passable (map (addr r c)) = true
    rw [hcell r c line hline hc, List.getD_eq_getElem?_getD, hb]
    exact hp

/-- The files that load. -/
theorem loadBytes_isSome_iff (mem : Nat → UInt8) :
    (loadBytes mem bytes).isSome = true ↔
      (fileLines bytes).length ≤ maxRows ∧ (∀ line ∈ fileLines bytes, line.length ≤ maxCols) ∧
      Connected (gridSpaces bytes) := by
  by_cases hlen : ∀ line ∈ fileLines bytes, line.length ≤ maxCols
  · have hlines : fgetsAll (maxCols + 2) [] bytes = fileLines bytes :=
      fgetsAll_eq_linesFrom _ bytes [] fun l hl => Nat.lt_succ_of_le (hlen l hl)
    by_cases hrows : (fileLines bytes).length ≤ maxRows
    · have hstrlen : ∀ line ∈ fileLines bytes, strlen line ≤ maxCols := fun line hline =>
        ((List.takeWhile_prefix _).length_le).trans (hlen line hline)
      have htext : ∀ line ∈ fileLines bytes, lineText line = characters line := fun line hline =>
        lineText_eq_characters (zero_notMem_of_mem_fileLines h0 hline)
          (newline_notMem_dropLast _ bytes [] (by simp) line (hlines ▸ hline))
      obtain ⟨map, hload⟩ := loadRows_isSome (fileLines bytes) 0 mem (by omega) hstrlen
      rw [Nat.zero_add] at hload
      have hsome : (loadBytes mem bytes).isSome =
          isConnected ⟨map, (fileLines bytes).length, (stringAt map 0).length⟩ := by
        rw [loadBytes, hlines, hload]
        cases h : isConnected ⟨map, (fileLines bytes).length, (stringAt map 0).length⟩ with
        | true => simp [h]
        | false => simp [h]
      rw [hsome, isConnected_eq_true, spaces_loaded h0 hload hlen htext]
      exact ⟨fun h => ⟨hrows, hlen, h⟩, fun h => h.2.2⟩
    · refine iff_of_false ?_ fun h => hrows h.1
      rw [loadBytes, hlines]
      cases hload : loadRows (fileLines bytes) 0 mem with
      | none => simp
      | some res =>
          obtain ⟨n, map⟩ := res
          obtain ⟨hn, hle, -⟩ := loadRows_length hload
          have := hle (Nat.zero_le _)
          omega
  · refine iff_of_false ?_ fun h => hlen h.2.1
    push Not at hlen
    obtain ⟨line, hline, hlong⟩ := hlen
    rw [loadBytes_long h0 mem hline hlong]
    simp

end

/-! ## Files in the format -/

/-- Only the last byte of a line can be its newline. -/
theorem newline_notMem_dropLast_line (h : line ∈ fileLines bytes) :
    newline ∉ line.dropLast := by
  -- with a buffer for the whole file `fgets` reads line by line
  have hshort : ∀ l ∈ fileLines bytes, l.length < bytes.length + 2 - 1 := by
    intro l hl
    have hle := (List.sublist_flatten_of_mem hl).length_le
    rw [fileLines, flatten_linesFrom, List.nil_append] at hle
    omega
  have hlines := fgetsAll_eq_linesFrom (bytes.length + 2) bytes [] hshort
  refine newline_notMem_dropLast (bytes.length + 2) bytes [] (by simp) line ?_
  rw [hlines]
  exact h

/-- A newline is one more byte than the characters. -/
theorem length_line (hn : newline ∉ line.dropLast) :
    line.length = (characters line).length + if newline ∈ line then 1 else 0 := by
  rcases List.eq_nil_or_concat line with rfl | ⟨text, b, rfl⟩
  · rfl
  · rw [List.concat_eq_append] at hn ⊢
    rw [List.dropLast_concat] at hn
    have hmem : newline ∈ text ++ [b] ↔ b = newline := by simp [hn, eq_comm]
    rw [characters_concat hn, if_congr hmem rfl rfl]
    split
    · rw [List.length_append, List.length_singleton]
    · rfl

/-- The file has more than `MAX_ROWS` lines, or a line of more than `MAX_COLS` characters. -/
def TooLarge (bytes : List UInt8) : Prop :=
  maxRows < (fileLines bytes).length ∨ ∃ line ∈ fileLines bytes, maxCols < (characters line).length

/-- A line has `MAX_COLS` characters and a newline after them. -/
def FullLine (bytes : List UInt8) : Prop :=
  ∃ line ∈ fileLines bytes, newline ∈ line ∧ (characters line).length = maxCols

theorem wellFormed_iff :
    WellFormed bytes ↔ ¬ TooLarge bytes ∧ Connected (fileSpaces bytes) := by
  simp only [TooLarge, not_or, not_exists, not_and, Nat.not_lt]
  constructor
  · intro h
    exact ⟨⟨h.rows_le, h.cols_le⟩, h.connected⟩
  · rintro ⟨⟨hrows, hcols⟩, hconn⟩
    refine ⟨?_, hrows, hcols, hconn⟩
    obtain ⟨⟨a, line, b, hline, -⟩, -⟩ := hconn
    exact Nat.one_le_iff_ne_zero.mpr fun h => by simp [List.length_eq_zero_iff.mp h] at hline

/-- The bytes of a line are too many if the characters are, or with the newline. -/
theorem length_le_iff :
    (∀ line ∈ fileLines bytes, line.length ≤ maxCols) ↔
      (∀ line ∈ fileLines bytes, (characters line).length ≤ maxCols) ∧ ¬ FullLine bytes := by
  have hlength {line : List UInt8} (h : line ∈ fileLines bytes) :=
    length_line (newline_notMem_dropLast_line h)
  constructor
  · intro h
    refine ⟨fun line hline => ?_, ?_⟩
    · have hle := h line hline
      rw [hlength hline] at hle
      omega
    · rintro ⟨line, hline, hnewline, hfull⟩
      have hle := h line hline
      rw [hlength hline, if_pos hnewline] at hle
      omega
  · rintro ⟨hcols, hfull⟩ line hline
    have hle := hcols line hline
    rw [hlength hline]
    split
    next hnewline =>
      have hne : (characters line).length ≠ maxCols := fun h => hfull ⟨line, hline, hnewline, h⟩
      omega
    next => exact hle

/-- The files that load, in the terms of the format. -/
theorem loadBytes_accepts_iff (h0 : 0 ∉ bytes) (mem : Nat → UInt8) :
    (loadBytes mem bytes).isSome = true ↔
      ¬ TooLarge bytes ∧ ¬ FullLine bytes ∧ Connected (gridSpaces bytes) := by
  rw [loadBytes_isSome_iff h0, length_le_iff]
  simp only [TooLarge, not_or, not_exists, not_and, Nat.not_lt, and_assoc]

/-- `loadMap` accepts a file exactly if it is in the format, for exactly these files: those
that are too large, those with a full line that are not connected, and those without a full
line whose grid is connected exactly if all of the file is. -/
theorem loadMap_exact_iff {fs : FileSystem} {filename : String} {bytes : List UInt8}
    (hfile : fs.read filename = some bytes) (h0 : 0 ∉ bytes) (mem : Nat → UInt8) :
    ((loadMap mem fs filename).isSome = true ↔ WellFormed bytes) ↔
      TooLarge bytes ∨ FullLine bytes ∧ ¬ Connected (fileSpaces bytes) ∨
        ¬ FullLine bytes ∧ (Connected (gridSpaces bytes) ↔ Connected (fileSpaces bytes)) := by
  have hload : loadMap mem fs filename = loadBytes mem bytes := by rw [loadMap, hfile]
  rw [hload, loadBytes_accepts_iff h0, wellFormed_iff]
  by_cases hlarge : TooLarge bytes
  · simp [hlarge]
  · by_cases hfull : FullLine bytes
    · simp [hlarge, hfull]
    · simp [hlarge, hfull]

/-- A file system with one file. -/
def oneFile (bytes : List UInt8) : FileSystem where
  file := fun _ => 0
  content := fun _ => some bytes
  writing := fun _ => .done

/-- The passable characters of a file, one after the other. -/
def spaceList (bytes : List UInt8) : List Cell :=
  (fileLines bytes).zipIdx.flatMap fun x =>
    ((characters x.1).zipIdx.filter fun y => passable y.1).map fun y => (x.2, y.2)

theorem mem_spaceList : a ∈ spaceList bytes ↔ a ∈ fileSpaces bytes := by
  obtain ⟨r, c⟩ := a
  simp only [spaceList, List.mem_flatMap, List.mem_map, List.mem_filter, Prod.exists,
    List.mk_mem_zipIdx_iff_getElem?, Prod.mk.injEq]
  constructor
  · rintro ⟨line, _, hline, b, _, ⟨hb, hp⟩, rfl, rfl⟩
    exact ⟨line, b, hline, hb, hp⟩
  · rintro ⟨line, b, hline, hb, hp⟩
    exact ⟨line, r, hline, b, c, ⟨hb, hp⟩, rfl, rfl⟩

/-- The two lines `1.` and `#.`. -/
def twoLines : List UInt8 := ['1'.toUInt8, dot, newline, '#'.toUInt8, dot, newline]

/-- The two lines `.` and `..`. -/
def stairs : List UInt8 := [dot, newline, dot, dot, newline]

theorem mem_fileSpaces_stairs :
    a ∈ fileSpaces stairs ↔ a = (0, 0) ∨ a = (1, 0) ∨ a = (1, 1) := by
  rw [← mem_spaceList, show spaceList stairs = [(0, 0), (1, 0), (1, 1)] from rfl]
  simp

/-- The second line goes on to the right of the first one, and is connected there. -/
theorem loadMap_exact_stairs :
    (loadMap (fun _ => 0) (oneFile stairs) "map").isSome = true ∧ WellFormed stairs := by
  have hread : (oneFile stairs).read "map" = some stairs := rfl
  have hlines : fileLines stairs = [[dot, newline], [dot, dot, newline]] := rfl
  have hsome : (loadMap (fun _ => 0) (oneFile stairs) "map").isSome = true := by decide
  have hbytes : (loadBytes (fun _ => 0) stairs).isSome = true := hsome
  have hgrid : Connected (gridSpaces stairs) :=
    ((loadBytes_isSome_iff (by decide) fun _ => 0).mp hbytes).2.2
  have htop : (0, 0) ∈ fileSpaces stairs := mem_fileSpaces_stairs.mpr (.inl rfl)
  have hleft : (1, 0) ∈ fileSpaces stairs := mem_fileSpaces_stairs.mpr (.inr (.inl rfl))
  have hright : (1, 1) ∈ fileSpaces stairs := mem_fileSpaces_stairs.mpr (.inr (.inr rfl))
  have hdown : Joined (fileSpaces stairs) (0, 0) (1, 0) :=
    .single ⟨.inr ⟨rfl, .inl rfl⟩, htop, hleft⟩
  have hall : Connected (fileSpaces stairs) := by
    refine (connected_iff_joined htop).mpr fun a ha => ?_
    rcases mem_fileSpaces_stairs.mp ha with rfl | rfl | rfl
    · exact .refl
    · exact hdown
    · exact hdown.tail ⟨.inl ⟨rfl, .inl rfl⟩, hleft, hright⟩
  have hfull : ¬ FullLine stairs := by
    rintro ⟨line, hline, -, hlen⟩
    rw [hlines] at hline
    revert line
    decide
  exact ⟨hsome, ((loadMap_exact_iff hread (by decide) fun _ => 0).mpr
    (.inr (.inr ⟨hfull, iff_of_true hgrid hall⟩))).mp hsome⟩

/-! ## Files that are refused or accepted by mistake -/

/-- A line of `MAX_COLS` characters with one empty space, its last. -/
def wideLine : List UInt8 := List.replicate 99 '#'.toUInt8 ++ [dot]

/-- The line is connected, with or without its newline. -/
theorem connected_wideLine (rest : List UInt8) (h : rest = [] ∨ rest = [newline]) :
    fileLines (wideLine ++ rest) = [wideLine ++ rest] ∧
      ∀ a, a ∈ fileSpaces (wideLine ++ rest) ↔ a = (0, 99) := by
  have hspaces : spaceList (wideLine ++ rest) = [(0, 99)] := by
    rcases h with rfl | rfl <;> decide +kernel
  refine ⟨?_, fun a => ?_⟩
  · rcases h with rfl | rfl <;> decide +kernel
  · rw [← mem_spaceList, hspaces, List.mem_singleton]

theorem connected_singleton {S : Set Cell} (h : ∀ b, b ∈ S ↔ b = a) : Connected S := by
  refine ⟨⟨a, (h a).mpr rfl⟩, fun b hb c hc => ?_⟩
  rw [(h b).mp hb, (h c).mp hc]
  exact .refl

/-- The two lines `.` and `#.`. -/
def ragged : List UInt8 := [dot, newline, '#'.toUInt8, dot, newline]

/-- The second space of the ragged file touches nothing. -/
theorem not_connected_ragged : ¬ Connected (fileSpaces ragged) := by
  have hspaces : ∀ a, a ∈ fileSpaces ragged ↔ a = (0, 0) ∨ a = (1, 1) := by
    intro a
    rw [← mem_spaceList, show spaceList ragged = [(0, 0), (1, 1)] from rfl]
    simp
  rintro ⟨-, h⟩
  have hfar := h (0, 0) ((hspaces _).mpr (.inl rfl)) (1, 1) ((hspaces _).mpr (.inr rfl))
  rcases hfar.cases_head with heq | ⟨b, ⟨hnear, -, hb⟩, -⟩
  · cases heq
  · rcases (hspaces b).mp hb with rfl | rfl
    · unfold Neighbours at hnear
      omega
    · unfold Neighbours at hnear
      omega

/-- A file in the format that is refused, for a newline after `MAX_COLS` characters,
and one that is accepted although a space to the right of its first line is cut off. -/
theorem loadMap_not_exact :
    (0 ∉ wideLine ++ [newline] ∧ WellFormed (wideLine ++ [newline]) ∧
      loadMap (fun _ => 0) (oneFile (wideLine ++ [newline])) "map" = none) ∧
    0 ∉ ragged ∧ ¬ WellFormed ragged ∧
      (loadMap (fun _ => 0) (oneFile ragged) "map").isSome = true := by
  obtain ⟨hlines, hspaces⟩ := connected_wideLine [newline] (Or.inr rfl)
  have h0 : 0 ∉ wideLine ++ [newline] := by decide +kernel
  refine ⟨⟨h0, ⟨?_, ?_, ?_, connected_singleton hspaces⟩, ?_⟩, by decide,
    fun h => not_connected_ragged h.connected, by decide⟩
  · rw [hlines]
    decide
  · rw [hlines]
    decide
  · rw [hlines]
    intro line hline
    rw [List.mem_singleton.mp hline]
    decide +kernel
  · exact loadBytes_long h0 (fun _ => 0) (hlines ▸ List.mem_singleton_self _) (by decide)

/-! ## Saving and loading again -/

/-- A row ends inside its bytes when its line is shorter than the row. -/
theorem rowsEnd_iff {mem : Nat → UInt8} {l : Labyrinth} (h : loadBytes mem bytes = some l) :
    l.RowsEnd ↔ ∀ line ∈ fgetsAll (maxCols + 2) [] bytes, (lineText line).length < maxCols := by
  have hrows := (loadBytes_length h).1
  constructor
  · intro hend line hline
    obtain ⟨r, hr⟩ := List.getElem?_of_mem hline
    obtain ⟨c, hc, hz⟩ := hend r (hrows ▸ (List.getElem?_eq_some_iff.mp hr).1)
    rw [loadBytes_cell h hr hc] at hz
    by_contra hlen
    rw [List.getD_eq_getElem _ _ (by omega)] at hz
    exact zero_notMem_lineText line (hz ▸ List.getElem_mem _)
  · intro hlen r hr
    have hline := List.getElem?_eq_getElem (hrows ▸ hr)
    refine ⟨_, hlen _ (List.mem_of_getElem? hline), ?_⟩
    rw [loadBytes_cell h hline (hlen _ (List.mem_of_getElem? hline))]
    exact List.getD_eq_default _ _ le_rfl

/-- A map comes back from the file it is saved to exactly when every row ends
inside its own bytes. -/
theorem loadMap_saveMap_iff {mem : Nat → UInt8} {fs : FileSystem} {filename path : String}
    {l : Labyrinth} (hload : loadMap mem fs filename = some l)
    (hwritable : fs.writable (fs.file path) = true) (mem' : Nat → UInt8) :
    (∃ l', loadMap mem' (saveMap fs l path).2 path = some l' ∧ l'.rows = l.rows ∧ l'.cols = l.cols ∧
      ∀ i < l.rows, ∀ j < l.cols, l'.cell i j = l.cell i j) ↔ l.RowsEnd := by
  obtain ⟨bytes, -, hbytes⟩ := loadMap_eq_some.mp hload
  have hloaded := loadBytes_loaded hbytes
  have hsaved : loadMap mem' (saveMap fs l path).2 path = loadBytes mem' (saveText l) := by
    rw [loadMap, FileSystem.read, saveMap, write_file, write_content_self _ _ _ hwritable]
  rw [hsaved]
  constructor
  · rintro ⟨l', hl', -⟩
    by_contra hend
    rw [loadBytes_saveText_none mem' hloaded.rows_le hloaded.clean hend] at hl'
    cases hl'
  · intro hend
    obtain ⟨l', hl', hsame⟩ := loadBytes_saveText mem' hloaded hend
    refine ⟨l', hl', hsame.rows, hsame.cols, fun i hi j hj => ?_⟩
    exact hsame.cells i (hsame.rows ▸ hi) j (Or.inr (hsame.cols ▸ hj))

theorem loadMap_saveMap_twoLines : ∃ l l',
    loadMap (fun _ => 0) (oneFile twoLines) "map" = some l ∧
      loadMap (fun _ => 0) (saveMap (oneFile twoLines) l "copy").2 "copy" = some l' ∧
      l'.cell 1 1 = l.cell 1 1 := by
  have hsome : (loadMap (fun _ => 0) (oneFile twoLines) "map").isSome = true := by decide
  obtain ⟨l, hl⟩ := Option.isSome_iff_exists.mp hsome
  have hbytes : loadBytes (fun _ => 0) twoLines = some l := hl
  have hend : l.RowsEnd := (rowsEnd_iff hbytes).mpr (by decide)
  obtain ⟨l', hl', -, -, hcells⟩ := (loadMap_saveMap_iff hl rfl fun _ => 0).mpr hend
  have hsize : (loadMap (fun _ => 0) (oneFile twoLines) "map").map (fun l => (l.rows, l.cols)) =
      some (2, 2) := by decide
  rw [hl, Option.map_some, Option.some.injEq, Prod.mk.injEq] at hsize
  exact ⟨l, l', hl, hl', hcells 1 (by omega) 1 (by omega)⟩

/-- A map of one row that loads and does not come back: its row has no room for the
terminator, and with the newline it is too long. -/
theorem wideLine_not_saved : ∃ l, loadMap (fun _ => 0) (oneFile wideLine) "map" = some l ∧
    loadMap (fun _ => 0) (saveMap (oneFile wideLine) l "map").2 "map" = none := by
  obtain ⟨hlines, hspaces⟩ := connected_wideLine [] (Or.inl rfl)
  rw [List.append_nil] at hlines hspaces
  have hwidth : fileWidth wideLine = 100 := by decide +kernel
  have hsome : (loadBytes (fun _ => 0) wideLine).isSome = true := by
    refine (loadBytes_isSome_iff (by decide +kernel) _).mpr ⟨?_, ?_, ?_⟩
    · rw [hlines]
      decide
    · rw [hlines]
      intro line hline
      rw [List.mem_singleton.mp hline]
      decide
    · refine connected_singleton (a := (0, 99)) fun b => ?_
      rw [gridSpaces, hwidth]
      constructor
      · intro hb
        exact (hspaces b).mp hb.1
      · rintro rfl
        exact ⟨(hspaces _).mpr rfl, by decide⟩
  obtain ⟨l, hl⟩ := Option.isSome_iff_exists.mp hsome
  have hloaded := loadBytes_loaded hl
  have hend : ¬ l.RowsEnd := fun hend =>
    absurd ((rowsEnd_iff hl).mp hend wideLine (by decide +kernel)) (by decide +kernel)
  refine ⟨l, hl, ?_⟩
  rw [loadMap, FileSystem.read, saveMap, write_file, write_content_self _ _ _ rfl]
  exact loadBytes_saveText_none _ hloaded.rows_le hloaded.clean hend

end OsCourse.Maze
