import Mathlib.Data.List.TakeWhile
import Mathlib.Data.List.GetD
import OsCourse.Labyrinth.Map

/-!
# Map files

`loadMap` and `saveMap`, with the part of the C library they use: `fgets` with
a buffer of `MAX_COLS + 2` bytes, `strlen` and `strncpy`.  A file is a list of
bytes, zero bytes included.

`loadMap` reads a line, finds its length with the newline counted, cuts the
newline, and stores the line in the next row.  What a row holds afterwards is
`lineText`, the line up to its first zero byte without a final newline
(`loadRows_cell`).  The terminator goes to column `len`, which is outside the
row when a line without newline has `MAX_COLS` characters.

`saveMap` writes each row up to its zero byte and always adds a newline.  So a
map loads back from what it is saved as when every row ends inside its own
bytes (`loadBytes_saveText`), and is refused when one does not
(`loadBytes_saveText_none`).
-/

namespace OsCourse.Maze

/-! ## Files -/

/-- What becomes of writes to a file. -/
inductive Writing where
  /-- `fopen(_, "w")` fails. -/
  | refused
  /-- The file is emptied, and every call of `fputs` returns `EOF`. -/
  | full
  | done
deriving DecidableEq

/-- The files a process sees.  Several paths may name one file. -/
structure FileSystem where
  /-- The file a path names. -/
  file : String → Nat
  /-- The bytes of a file, `none` where `fopen(_, "r")` fails. -/
  content : Nat → Option (List UInt8)
  writing : Nat → Writing

/-- All that is written to the file gets there. -/
def FileSystem.writable (fs : FileSystem) (f : Nat) : Bool := fs.writing f = .done

/-- `fopen(path, "r")` and everything that can be read from it. -/
def FileSystem.read (fs : FileSystem) (path : String) : Option (List UInt8) :=
  fs.content (fs.file path)

/-- `fopen(path, "w")`, the bytes written, and `fclose`. -/
def FileSystem.write (fs : FileSystem) (path : String) (bytes : List UInt8) : FileSystem :=
  match fs.writing (fs.file path) with
  | .refused => fs
  | .full => { fs with content := Function.update fs.content (fs.file path) (some []) }
  | .done => { fs with content := Function.update fs.content (fs.file path) (some bytes) }

/-! ## Strings -/

/-- `'\n'`. -/
def newline : UInt8 := '\n'.toUInt8

/-- The C string in a buffer: the bytes before the first zero. -/
def cstr (bytes : List UInt8) : List UInt8 := bytes.takeWhile (· != 0)

/-- `strlen`. -/
def strlen (bytes : List UInt8) : Nat := (cstr bytes).length

/-- The lines `fgets(line, size, file)` returns until the end of the file.
`line` is what the buffer holds so far.  A line ends with its newline, or after
`size - 1` bytes without one. -/
def fgetsAll (size : Nat) (line : List UInt8) : List UInt8 → List (List UInt8)
  | [] => if line = [] then [] else [line]
  | b :: bs =>
      if b = newline ∨ line.length + 1 = size - 1 then (line ++ [b]) :: fgetsAll size [] bs
      else fgetsAll size (line ++ [b]) bs

/-- `strncpy(dst, src, n)`: the string, then zeros up to `n` bytes. -/
def strncpy (map : Nat → UInt8) (dst : Nat) (src : List UInt8) (n : Nat) : Nat → UInt8 :=
  fun i => if dst ≤ i ∧ i < dst + n then (cstr src).getD (i - dst) 0 else map i

/-- The C string at an address of the array.  It is cut where the array ends. -/
def stringAt (map : Nat → UInt8) (a : Nat) : List UInt8 :=
  cstr ((List.range' a (maxRows * maxCols - a)).map map)

/-! ## `loadMap` and `saveMap` -/

/-- The loop of `loadMap`, over the lines.  `none` is a line or a row too many. -/
def loadRows : List (List UInt8) → Nat → (Nat → UInt8) → Option (Nat × (Nat → UInt8))
  | [], row, map => some (row, map)
  | line :: lines, row, map =>
      let len := strlen line
      let line := if 0 < len ∧ line.getD (len - 1) 0 = newline then line.set (len - 1) 0 else line
      if len > maxCols then none
      else if row ≥ maxRows then none
      else
        let map := strncpy map (addr row 0) line maxCols
        let map := Function.update map (addr row len) 0
        loadRows lines (row + 1) map

/-- `loadMap` on the bytes of a file.  `mem` is what the array holds before. -/
def loadBytes (mem : Nat → UInt8) (bytes : List UInt8) : Option Labyrinth :=
  match loadRows (fgetsAll (maxCols + 2) [] bytes) 0 mem with
  | none => none
  | some (row, map) =>
      let l : Labyrinth := { map, rows := row, cols := (stringAt map 0).length }
      if isConnected l then some l else none

/-- `loadMap`.  `none` is `false`. -/
def loadMap (mem : Nat → UInt8) (fs : FileSystem) (filename : String) : Option Labyrinth :=
  match fs.read filename with
  | none => none
  | some bytes => loadBytes mem bytes

/-- The bytes `saveMap` writes. -/
def saveText (l : Labyrinth) : List UInt8 :=
  (List.range l.rows).flatMap fun row => stringAt l.map (addr row 0) ++ [newline]

/-- `saveMap`, with what it prints to `stderr` where it returns `false`. -/
def saveMap (fs : FileSystem) (l : Labyrinth) (filename : String) : Option String × FileSystem :=
  (match fs.writing (fs.file filename) with
    | .refused => some s!"Error opening file for writing: {filename}\n"
    -- without rows `fputs` is not called
    | .full => if l.rows = 0 then none else some s!"Error writing to file: {filename}\n"
    | .done => none,
  fs.write filename (saveText l))

/-! ## Lines -/

/-- What a row holds of a line. -/
def lineText (line : List UInt8) : List UInt8 :=
  if (cstr line).getLast? = some newline then (cstr line).dropLast else cstr line

theorem zero_notMem_cstr (bytes : List UInt8) : 0 ∉ cstr bytes := by
  intro h
  have := List.mem_takeWhile_imp h
  simp at this

variable {bytes text line : List UInt8} {r c : Nat} {l : Labyrinth} {mem : Nat → UInt8}

theorem cstr_eq_self (h : 0 ∉ bytes) : cstr bytes = bytes := by
  rw [cstr, List.takeWhile_eq_self_iff]
  intro b hb
  simp only [bne_iff_ne, ne_eq]
  rintro rfl
  exact h hb

theorem cstr_append_zero {rest : List UInt8} (h : 0 ∉ bytes) :
    cstr (bytes ++ 0 :: rest) = bytes := by
  rw [cstr, List.takeWhile_append_of_pos]
  · simp
  · intro b hb
    simp only [bne_iff_ne, ne_eq]
    rintro rfl
    exact h hb

theorem cstr_append (front back : List UInt8) :
    cstr (front ++ back)
      = if (cstr front).length = front.length then front ++ cstr back else cstr front :=
  List.takeWhile_append

theorem getElem?_cstr_of_lt {i : Nat} (h : i < (cstr bytes).length) :
    (cstr bytes)[i]? = bytes[i]? := by
  have hpre : cstr bytes ++ bytes.dropWhile (· != 0) = bytes := List.takeWhile_append_dropWhile
  conv_rhs => rw [← hpre]
  rw [List.getElem?_append_left h]

/-- A C string that is shorter than its buffer is followed by a zero. -/
theorem getElem?_length_cstr : ∀ (bytes : List UInt8), (cstr bytes).length < bytes.length →
    bytes[(cstr bytes).length]? = some 0
  | [], h => by simp at h
  | b :: bs, h => by
      by_cases hb : b = 0
      · simp [cstr, hb]
      · have hcons : cstr (b :: bs) = b :: cstr bs := by simp [cstr, hb]
        rw [hcons, List.length_cons] at h ⊢
        rw [List.getElem?_cons_succ]
        exact getElem?_length_cstr bs (by simpa using h)

theorem zero_notMem_lineText (line : List UInt8) : 0 ∉ lineText line := by
  unfold lineText
  split
  · exact fun h => zero_notMem_cstr line (List.dropLast_subset _ h)
  · exact zero_notMem_cstr line

theorem length_lineText_le (line : List UInt8) : (lineText line).length ≤ strlen line := by
  unfold lineText strlen
  split
  · rw [List.length_dropLast]; omega
  · exact le_rfl

theorem lineText_append_newline (h0 : 0 ∉ text) :
    lineText (text ++ [newline]) = text := by
  have hz : (0 : UInt8) ∉ text ++ [newline] := by
    simp only [List.mem_append, List.mem_singleton, not_or]
    exact ⟨h0, by decide⟩
  rw [lineText, cstr_eq_self hz]
  simp

/-- The buffer after the newline is cut holds `lineText`. -/
theorem cstr_cut (line : List UInt8) :
    cstr (if 0 < strlen line ∧ line.getD (strlen line - 1) 0 = newline then
      line.set (strlen line - 1) 0 else line) = lineText line := by
  have hpre : line = cstr line ++ line.dropWhile (· != 0) := by
    rw [cstr, List.takeWhile_append_dropWhile]
  rcases List.eq_nil_or_concat (cstr line) with hnil | ⟨text, b, hb⟩
  · -- an empty line is stored as it is
    simp [strlen, lineText, hnil]
  · rw [List.concat_eq_append] at hb
    have hlen : strlen line - 1 = text.length := by simp [strlen, hb]
    have hpos : 0 < strlen line := by simp [strlen, hb]
    have hline : line = text ++ b :: line.dropWhile (· != 0) := by
      rw [hb] at hpre
      rw [List.append_assoc] at hpre
      exact hpre
    have hget : line.getD text.length 0 = b := by
      rw [hline]
      simp
    have h0 : (0 : UInt8) ∉ text := fun h => zero_notMem_cstr line (by rw [hb]; simp [h])
    rw [hlen, hget, lineText, hb]
    by_cases hn : b = newline
    · rw [if_pos ⟨hpos, hn⟩]
      simp only [hn, List.getLast?_append, List.getLast?_singleton, Option.some_or, if_true,
        List.dropLast_concat]
      rw [hline, List.set_append_right _ _ (le_refl _), Nat.sub_self, List.set_cons_zero]
      exact cstr_append_zero h0
    · rw [if_neg fun h => hn h.2, if_neg (by simpa using hn), hb]

/-! ## What `loadMap` stores -/

theorem addr_lt_addr {r' c' : Nat} (hr : r < r') (hc : c < maxCols) : addr r c < addr r' c' := by
  simp only [addr, maxCols] at *
  omega

/-- The bytes one round of the loop stores in its own row. -/
theorem storeLine_cell {map : Nat → UInt8} {row : Nat} (hc : c < maxCols) :
    Function.update (strncpy map (addr row 0)
      (if 0 < strlen line ∧ line.getD (strlen line - 1) 0 = newline then
        line.set (strlen line - 1) 0 else line) maxCols) (addr row (strlen line)) 0 (addr row c)
      = (lineText line).getD c 0 := by
  have hsub : addr row c - addr row 0 = c := by simp only [addr]; omega
  by_cases h : addr row c = addr row (strlen line)
  · -- the terminator sits at or behind the end of the text
    have hc' : c = strlen line := by simp only [addr] at h; omega
    rw [h, Function.update_self, hc']
    symm
    apply List.getD_eq_default
    exact length_lineText_le line
  · rw [Function.update_of_ne h, strncpy, cstr_cut, hsub, if_pos]
    simp only [addr, maxCols] at *
    omega

theorem storeLine_below {map : Nat → UInt8} {row len i : Nat} (h : i < addr row 0) :
    Function.update (strncpy map (addr row 0) line maxCols) (addr row len) 0 i = map i := by
  have hne : i ≠ addr row len := by simp only [addr] at *; omega
  rw [Function.update_of_ne hne, strncpy, if_neg (by omega)]

/-- The rounds after `row` leave the rows before it alone. -/
theorem loadRows_below : ∀ {lines : List (List UInt8)} {row n : Nat} {map map' : Nat → UInt8},
    loadRows lines row map = some (n, map') → ∀ i < addr row 0, map' i = map i
  | [], row, n, map, map', h, i, _ => by
      simp only [loadRows, Option.some.injEq, Prod.mk.injEq] at h
      rw [h.2]
  | line :: lines, row, n, map, map', h, i, hi => by
      simp only [loadRows] at h
      split at h
      · cases h
      · split at h
        · cases h
        · have hi' : i < addr (row + 1) 0 := by simp only [addr, maxCols] at *; omega
          rw [loadRows_below h i hi']
          exact storeLine_below hi

/-- A load that succeeds: how many lines there are and how long they may be. -/
theorem loadRows_length : ∀ {lines : List (List UInt8)} {row n : Nat} {map map' : Nat → UInt8},
    loadRows lines row map = some (n, map') →
      n = row + lines.length ∧ (row ≤ maxRows → n ≤ maxRows) ∧
      ∀ line ∈ lines, strlen line ≤ maxCols
  | [], row, n, map, map', h => by
      simp only [loadRows, Option.some.injEq, Prod.mk.injEq] at h
      simp [h.1]
  | line :: lines, row, n, map, map', h => by
      simp only [loadRows] at h
      split at h
      next => cases h
      next hlen =>
        split at h
        next => cases h
        next hrow =>
          obtain ⟨hn, hle, hlines⟩ := loadRows_length h
          refine ⟨by rw [hn, List.length_cons]; omega, fun _ => hle (by omega), ?_⟩
          intro line' hline'
          cases List.mem_cons.mp hline' with
          | inl he => rw [he]; omega
          | inr hmem => exact hlines line' hmem

/-- What the rows hold after a load. -/
theorem loadRows_cell : ∀ {lines : List (List UInt8)} {row n : Nat} {map map' : Nat → UInt8},
    loadRows lines row map = some (n, map') → ∀ {k : Nat} {line : List UInt8},
      lines[k]? = some line → ∀ c < maxCols, map' (addr (row + k) c) = (lineText line).getD c 0
  | [], row, n, map, map', h, k, line, hk, c, hc => by simp at hk
  | line' :: lines, row, n, map, map', h, k, line, hk, c, hc => by
      simp only [loadRows] at h
      split at h
      · cases h
      · split at h
        · cases h
        · cases k with
          | zero =>
              simp only [List.getElem?_cons_zero, Option.some.injEq] at hk
              subst hk
              rw [Nat.add_zero, loadRows_below h _ (addr_lt_addr (Nat.lt_succ_self row) hc)]
              exact storeLine_cell hc
          | succ k =>
              rw [List.getElem?_cons_succ] at hk
              rw [show row + (k + 1) = row + 1 + k by omega]
              exact loadRows_cell h hk c hc

/-- Lines that fit are loaded. -/
theorem loadRows_isSome : ∀ (lines : List (List UInt8)) (row : Nat) (map : Nat → UInt8),
    row + lines.length ≤ maxRows → (∀ line ∈ lines, strlen line ≤ maxCols) →
      ∃ map', loadRows lines row map = some (row + lines.length, map')
  | [], row, map, _, _ => ⟨map, rfl⟩
  | line :: lines, row, map, hrows, hlen => by
      rw [List.length_cons] at hrows
      have h1 : ¬ strlen line > maxCols := by
        have := hlen line (List.mem_cons_self ..)
        omega
      have h2 : ¬ row ≥ maxRows := by omega
      obtain ⟨map', h⟩ := loadRows_isSome lines (row + 1)
        (Function.update (strncpy map (addr row 0)
          (if 0 < strlen line ∧ line.getD (strlen line - 1) 0 = newline then
            line.set (strlen line - 1) 0 else line) maxCols) (addr row (strlen line)) 0)
        (by omega) (fun l hl => hlen l (List.mem_cons_of_mem _ hl))
      refine ⟨map', ?_⟩
      simp only [loadRows, if_neg h1, if_neg h2, h, List.length_cons]
      congr 2
      omega

/-! ## Rows as text -/

/-- The bytes of a row. -/
def Labyrinth.rowBytes (l : Labyrinth) (row : Nat) : List UInt8 :=
  (List.range maxCols).map (l.cell row)

/-- A row up to its first zero byte. -/
def Labyrinth.rowText (l : Labyrinth) (row : Nat) : List UInt8 := cstr (l.rowBytes row)

/-- Every row ends inside its own bytes. -/
def Labyrinth.RowsEnd (l : Labyrinth) : Prop := ∀ r < l.rows, ∃ c < maxCols, l.cell r c = 0

/-- The rows hold no newline, and nothing but zeros behind a zero. -/
structure Labyrinth.CleanRows (l : Labyrinth) : Prop where
  newline : ∀ r < l.rows, ∀ c < maxCols, l.cell r c ≠ Maze.newline
  zeros : ∀ r < l.rows, ∀ c < maxCols, l.cell r c = 0 → ∀ d, c ≤ d → d < maxCols → l.cell r d = 0

/-- The same rows and columns, and the same characters in every row and cell. -/
structure SameMap (l l' : Labyrinth) : Prop where
  rows : l.rows = l'.rows
  cols : l.cols = l'.cols
  cells : ∀ r < l.rows, ∀ c, c < maxCols ∨ c < l.cols → l.cell r c = l'.cell r c

theorem SameMap.refl (l : Labyrinth) : SameMap l l := ⟨rfl, rfl, fun _ _ _ _ => rfl⟩

theorem SameMap.trans {l1 l2 l3 : Labyrinth} (h1 : SameMap l1 l2) (h2 : SameMap l2 l3) :
    SameMap l1 l3 := by
  refine ⟨h1.rows.trans h2.rows, h1.cols.trans h2.cols, fun r hr c hc => ?_⟩
  rw [h1.cells r hr c hc]
  exact h2.cells r (h1.rows ▸ hr) c (h1.cols ▸ hc)

theorem SameMap.sameSpaces {l' : Labyrinth} (h : SameMap l l') : SameSpaces l l' :=
  ⟨h.rows, h.cols, fun r hr c hc => by rw [h.cells r hr c (Or.inr hc)]⟩

theorem getElem?_rowBytes (hc : c < maxCols) :
    (l.rowBytes r)[c]? = some (l.cell r c) := by
  simp [Labyrinth.rowBytes, hc]

theorem length_rowBytes (l : Labyrinth) (r : Nat) : (l.rowBytes r).length = maxCols := by
  simp [Labyrinth.rowBytes]

theorem length_rowText_le (l : Labyrinth) (r : Nat) : (l.rowText r).length ≤ maxCols := by
  rw [← length_rowBytes l r]
  exact (List.takeWhile_prefix _).length_le

theorem rowText_initial (l : Labyrinth) (r : Nat) : l.rowText r <+: l.rowBytes r :=
  List.takeWhile_prefix _

theorem zero_notMem_rowText (l : Labyrinth) (r : Nat) : 0 ∉ l.rowText r :=
  zero_notMem_cstr (l.rowBytes r)

/-- A row is its text with zeros behind it. -/
theorem cell_eq_rowText (h : l.CleanRows) (hr : r < l.rows) (hc : c < maxCols) :
    l.cell r c = (l.rowText r).getD c 0 := by
  by_cases hlt : c < (l.rowText r).length
  · rw [List.getD_eq_getElem?_getD, Labyrinth.rowText, getElem?_cstr_of_lt hlt,
      getElem?_rowBytes hc, Option.getD_some]
  · -- the text ends at a zero, so its end and everything behind it is zero
    have hle : (l.rowText r).length ≤ c := by omega
    have hend : (l.rowText r).length < maxCols := by omega
    have hz := getElem?_length_cstr (l.rowBytes r)
      (by rw [length_rowBytes]; exact hend)
    change (l.rowBytes r)[(l.rowText r).length]? = some 0 at hz
    rw [getElem?_rowBytes hend, Option.some.injEq] at hz
    rw [List.getD_eq_default _ _ hle]
    exact h.zeros r hr _ hend hz c hle hc

/-- A row ends inside its bytes iff its text is shorter than the row. -/
theorem exists_zero_iff (l : Labyrinth) (r : Nat) :
    (∃ c < maxCols, l.cell r c = 0) ↔ (l.rowText r).length < maxCols := by
  constructor
  · rintro ⟨c, hc, hz⟩
    by_contra hlen
    have hlt : c < (l.rowText r).length := by omega
    have hget : (l.rowText r)[c]? = some 0 := by
      rw [Labyrinth.rowText, getElem?_cstr_of_lt hlt, getElem?_rowBytes hc, hz]
    exact zero_notMem_cstr _ (List.mem_of_getElem? hget)
  · intro hlen
    have hz := getElem?_length_cstr (l.rowBytes r)
      (by rw [length_rowBytes]; exact hlen)
    change (l.rowBytes r)[(l.rowText r).length]? = some 0 at hz
    rw [getElem?_rowBytes hlen, Option.some.injEq] at hz
    exact ⟨_, hlen, hz⟩

theorem newline_notMem_rowText (h : l.CleanRows) (hr : r < l.rows) :
    newline ∉ l.rowText r := by
  intro hmem
  have hmem' := (rowText_initial l r).subset hmem
  simp only [Labyrinth.rowBytes, List.mem_map, List.mem_range] at hmem'
  obtain ⟨c, hc, hn⟩ := hmem'
  exact h.newline r hr c hc hn

/-- The array from a row on: the bytes of the row, then the rest. -/
theorem stringAt_row (l : Labyrinth) (hr : r < maxRows) :
    ∃ rest, stringAt l.map (addr r 0) = cstr (l.rowBytes r ++ rest) := by
  have hsplit : maxRows * maxCols - addr r 0
      = maxCols + (maxRows * maxCols - addr r 0 - maxCols) := by
    simp only [addr, maxCols, maxRows] at *
    omega
  refine ⟨(List.range' (addr r 0 + maxCols) (maxRows * maxCols - addr r 0 - maxCols)).map l.map, ?_⟩
  have hrow : (List.range' (addr r 0) maxCols).map l.map = l.rowBytes r := by
    rw [List.range'_eq_map_range, List.map_map, Labyrinth.rowBytes]
    apply List.map_congr_left
    intro c _
    simp [Labyrinth.cell, addr]
  rw [stringAt]
  conv_lhs => rw [hsplit]
  rw [← List.range'_append_1, List.map_append, hrow]

/-- A row that ends inside its bytes is written as its text. -/
theorem stringAt_eq_rowText (hr : r < maxRows) (hz : ∃ c < maxCols, l.cell r c = 0) :
    stringAt l.map (addr r 0) = l.rowText r := by
  obtain ⟨rest, hrest⟩ := stringAt_row l hr
  have hlen : (cstr (l.rowBytes r)).length ≠ (l.rowBytes r).length := by
    rw [length_rowBytes]
    exact Nat.ne_of_lt ((exists_zero_iff l r).mp hz)
  rw [hrest, cstr_append, if_neg hlen]
  rfl

/-- A row without a zero runs on into what follows it. -/
theorem rowBytes_prefix_stringAt (hr : r < maxRows) (hz : ¬ ∃ c < maxCols, l.cell r c = 0) :
    l.rowBytes r <+: stringAt l.map (addr r 0) := by
  obtain ⟨rest, hrest⟩ := stringAt_row l hr
  have hlen : (cstr (l.rowBytes r)).length = (l.rowBytes r).length := by
    rw [length_rowBytes]
    exact Nat.le_antisymm (length_rowText_le l r)
      (Nat.le_of_not_lt (mt (exists_zero_iff l r).mpr hz))
  rw [hrest, cstr_append, if_pos hlen]
  exact List.prefix_append _ _

/-! ## Lines of a file -/

/-- `fgets` stops at the first newline, so only the last byte of a line can be
one. -/
theorem newline_notMem_dropLast (size : Nat) : ∀ (bytes buf : List UInt8), newline ∉ buf →
    ∀ line ∈ fgetsAll size buf bytes, newline ∉ line.dropLast
  | [], buf, hbuf, line, hline => by
      unfold fgetsAll at hline
      split at hline
      · cases hline
      · rw [List.mem_singleton] at hline
        rw [hline]
        exact fun h => hbuf (List.dropLast_subset _ h)
  | b :: bs, buf, hbuf, line, hline => by
      unfold fgetsAll at hline
      split at hline
      · cases List.mem_cons.mp hline with
        | inl he => rw [he, List.dropLast_concat]; exact hbuf
        | inr hmem => exact newline_notMem_dropLast size bs [] (by simp) line hmem
      next hstop =>
        refine newline_notMem_dropLast size bs (buf ++ [b]) ?_ line hline
        simp only [List.mem_append, List.mem_singleton, not_or]
        exact ⟨hbuf, fun h => hstop (Or.inl h.symm)⟩

/-- A line that fits into the buffer is read whole. -/
theorem fgetsAll_line (size : Nat) (rest : List UInt8) : ∀ (text buf : List UInt8),
    newline ∉ text → buf.length + text.length + 1 < size →
      fgetsAll size buf (text ++ newline :: rest)
        = (buf ++ text ++ [newline]) :: fgetsAll size [] rest
  | [], buf, _, _ => by simp [fgetsAll]
  | b :: text, buf, hn, hlen => by
      simp only [List.mem_cons, not_or] at hn
      rw [List.length_cons] at hlen
      have hgo : ¬ (b = newline ∨ buf.length + 1 = size - 1) := by
        rintro (h | h)
        · exact hn.1 h.symm
        · omega
      rw [List.cons_append, fgetsAll, if_neg hgo,
        fgetsAll_line size rest text (buf ++ [b]) hn.2 (by simp; omega)]
      simp

/-- A line that does not fit is cut after `size - 1` bytes. -/
theorem fgetsAll_long (size : Nat) : ∀ (text buf : List UInt8) (b : UInt8) (rest : List UInt8),
    newline ∉ text → buf.length + text.length + 1 = size - 1 →
      fgetsAll size buf (text ++ b :: rest)
        = (buf ++ text ++ [b]) :: fgetsAll size [] rest
  | [], buf, b, rest, _, hlen => by
      rw [List.nil_append, fgetsAll, if_pos (Or.inr (by simpa using hlen))]
      simp
  | a :: text, buf, b, rest, hn, hlen => by
      simp only [List.mem_cons, not_or] at hn
      rw [List.length_cons] at hlen
      have hgo : ¬ (a = newline ∨ buf.length + 1 = size - 1) := by
        rintro (h | h)
        · exact hn.1 h.symm
        · omega
      rw [List.cons_append, fgetsAll, if_neg hgo,
        fgetsAll_long size text (buf ++ [a]) b rest hn.2 (by simp; omega)]
      simp

/-- Short texts with their newlines are read back as they were written. -/
theorem fgetsAll_flatMap : ∀ (texts : List (List UInt8)) (rest : List UInt8),
    (∀ text ∈ texts, newline ∉ text ∧ text.length < maxCols) →
      fgetsAll (maxCols + 2) [] (texts.flatMap (· ++ [newline]) ++ rest)
        = texts.map (· ++ [newline]) ++ fgetsAll (maxCols + 2) [] rest
  | [], rest, _ => by simp
  | text :: texts, rest, h => by
      obtain ⟨hn, hlen⟩ := h text (List.mem_cons_self ..)
      have ih := fgetsAll_flatMap texts rest fun t ht => h t (List.mem_cons_of_mem _ ht)
      rw [List.flatMap_cons, List.append_assoc, List.append_assoc, List.singleton_append,
        fgetsAll_line _ _ _ _ hn (by simp; omega), ih]
      simp

/-! ## Loading and saving -/

/-- What a successful load says about the map. -/
structure Loaded (l : Labyrinth) : Prop where
  rows_le : l.rows ≤ maxRows
  clean : l.CleanRows
  cols : l.cols = (stringAt l.map 0).length
  connected : isConnected l = true

theorem newline_notMem_lineText (h : newline ∉ line.dropLast) :
    newline ∉ lineText line := by
  have hpre : newline ∉ (cstr line).dropLast := by
    intro hmem
    obtain ⟨t, ht⟩ : cstr line <+: line := List.takeWhile_prefix _
    apply h
    rw [← ht, List.dropLast_append]
    split
    · exact hmem
    · exact List.mem_append_left _ (List.dropLast_subset _ hmem)
  unfold lineText
  split
  next => exact hpre
  next hlast =>
    intro hmem
    rcases List.eq_nil_or_concat (cstr line) with hnil | ⟨text, b, hb⟩
    · rw [hnil] at hmem; cases hmem
    · rw [List.concat_eq_append] at hb
      rw [hb] at hmem hlast hpre
      simp only [List.dropLast_concat] at hpre
      simp only [List.getLast?_append, List.getLast?_singleton, Option.some_or,
        Option.some.injEq] at hlast
      cases List.mem_append.mp hmem with
      | inl h' => exact hpre h'
      | inr h' => exact hlast (List.mem_singleton.mp h').symm

theorem getD_ne_newline (h : newline ∉ text) (c : Nat) :
    text.getD c 0 ≠ newline := by
  rw [List.getD_eq_getElem?_getD]
  cases hc : text[c]? with
  | none => decide
  | some b =>
      rw [Option.getD_some]
      rintro rfl
      exact h (List.mem_of_getElem? hc)

theorem getD_zero_tail (h : 0 ∉ text) {d : Nat} (hc : text.getD c 0 = 0) (hcd : c ≤ d) :
    text.getD d 0 = 0 := by
  have hlen : text.length ≤ c := by
    by_contra hlt
    rw [List.getD_eq_getElem _ _ (by omega)] at hc
    exact h (hc ▸ List.getElem_mem _)
  exact List.getD_eq_default _ _ (by omega)

/-- The rows of a map that was loaded, and its columns. -/
theorem loadBytes_eq_some (h : loadBytes mem bytes = some l) :
    loadRows (fgetsAll (maxCols + 2) [] bytes) 0 mem = some (l.rows, l.map) ∧
      l.cols = (stringAt l.map 0).length ∧ isConnected l = true := by
  unfold loadBytes at h
  cases hrows : loadRows (fgetsAll (maxCols + 2) [] bytes) 0 mem with
  | none => rw [hrows] at h; cases h
  | some res =>
      rw [hrows] at h
      simp only [Option.ite_none_right_eq_some, Option.some.injEq] at h
      obtain ⟨hconn, rfl⟩ := h
      exact ⟨rfl, rfl, hconn⟩

/-- Every row of a map that was loaded is the text of a line of the file. -/
theorem loadBytes_cell (h : loadBytes mem bytes = some l)
    (hline : (fgetsAll (maxCols + 2) [] bytes)[r]? = some line) (hc : c < maxCols) :
    l.cell r c = (lineText line).getD c 0 := by
  have := loadRows_cell (loadBytes_eq_some h).1 hline c hc
  rwa [Nat.zero_add] at this

theorem loadBytes_length (h : loadBytes mem bytes = some l) :
    l.rows = (fgetsAll (maxCols + 2) [] bytes).length ∧ l.rows ≤ maxRows := by
  obtain ⟨hn, hle, -⟩ := loadRows_length (loadBytes_eq_some h).1
  exact ⟨by rw [hn, Nat.zero_add], hle (Nat.zero_le _)⟩

theorem loadBytes_loaded (h : loadBytes mem bytes = some l) : Loaded l := by
  obtain ⟨-, hcols, hconn⟩ := loadBytes_eq_some h
  obtain ⟨hrows, hle⟩ := loadBytes_length h
  refine ⟨hle, ⟨?_, ?_⟩, hcols, hconn⟩
  · intro r hr c hc
    have hline := List.getElem?_eq_getElem (hrows ▸ hr)
    rw [loadBytes_cell h hline hc]
    exact getD_ne_newline (newline_notMem_lineText
      (newline_notMem_dropLast _ _ _ (by simp) _ (List.mem_of_getElem? hline))) c
  · intro r hr c hc hz d hcd hd
    have hline := List.getElem?_eq_getElem (hrows ▸ hr)
    rw [loadBytes_cell h hline hc] at hz
    rw [loadBytes_cell h hline hd]
    exact getD_zero_tail (zero_notMem_lineText _) hz hcd

/-- A connected map has a row. -/
theorem rows_pos_of_connected (h : isConnected l = true) : 0 < l.rows := by
  by_contra h0
  have hz : l.rows = 0 := by omega
  have hstart : findFirstEmptySpace l = .missing := by
    rcases findCell_cases l fun row col => isEmptySpace l row col with
      ⟨r, c, _, hr, _⟩ | ⟨hmiss, _⟩
    · omega
    · exact hmiss
  simp [isConnected, hstart, Position.missing] at h

/-- The rows of a map whose rows all end, in the order `saveMap` writes them. -/
theorem saveText_eq (hle : l.rows ≤ maxRows) (hend : l.RowsEnd) :
    saveText l = ((List.range l.rows).map l.rowText).flatMap (· ++ [newline]) := by
  rw [saveText, List.flatMap_map]
  apply List.flatMap_congr
  intro r hr
  rw [List.mem_range] at hr
  rw [stringAt_eq_rowText (by omega) (hend r hr)]

/-- A row that ends fits into the buffer of `fgets`. -/
theorem rowText_fits (hclean : l.CleanRows) (hr : r < l.rows)
    (hend : ∃ c < maxCols, l.cell r c = 0) :
    newline ∉ l.rowText r ∧ (l.rowText r).length < maxCols :=
  ⟨newline_notMem_rowText hclean hr, (exists_zero_iff l r).mp hend⟩

/-- The lines that are read back are the rows. -/
theorem fgetsAll_saveText (h : Loaded l) (hend : l.RowsEnd) :
    fgetsAll (maxCols + 2) [] (saveText l) =
      ((List.range l.rows).map l.rowText).map (· ++ [newline]) := by
  have hlines := fgetsAll_flatMap ((List.range l.rows).map l.rowText) [] ?_
  · rwa [List.append_nil, ← saveText_eq h.rows_le hend, fgetsAll, if_pos rfl,
      List.append_nil] at hlines
  · intro text htext
    obtain ⟨r, hr, rfl⟩ := List.mem_map.mp htext
    rw [List.mem_range] at hr
    exact rowText_fits h.clean hr (hend r hr)

/-- The columns are counted in the first row. -/
theorem length_stringAt_zero (hend : ∃ c < maxCols, l.cell 0 c = 0) :
    (stringAt l.map 0).length = (l.rowText 0).length := by
  have htext := stringAt_eq_rowText (l := l) (r := 0) (by decide) hend
  simp only [addr, Nat.mul_zero, Nat.add_zero] at htext
  rw [htext]

/-- The rows that are read back have the cells of the map. -/
theorem loadRows_rows (mem : Nat → UInt8) (h : Loaded l) (hend : l.RowsEnd) :
    ∃ map, loadRows (((List.range l.rows).map l.rowText).map (· ++ [newline])) 0 mem =
        some (l.rows, map) ∧
      ∀ r < l.rows, ∀ c < maxCols, map (addr r c) = l.cell r c := by
  have hlen : ∀ line ∈ ((List.range l.rows).map l.rowText).map (· ++ [newline]),
      strlen line ≤ maxCols := by
    intro line hline
    obtain ⟨text, htext, rfl⟩ := List.mem_map.mp hline
    obtain ⟨r, hr, rfl⟩ := List.mem_map.mp htext
    have hfits := (rowText_fits h.clean (List.mem_range.mp hr) (hend r (List.mem_range.mp hr))).2
    refine (List.takeWhile_prefix _).length_le.trans ?_
    rw [List.length_append, List.length_singleton]
    omega
  obtain ⟨map, hload⟩ := loadRows_isSome _ 0 mem (by simpa using h.rows_le) hlen
  refine ⟨map, by simpa using hload, ?_⟩
  intro r hr c hc
  have hk : (((List.range l.rows).map l.rowText).map (· ++ [newline]))[r]?
      = some (l.rowText r ++ [newline]) := by
    simp [hr]
  have hcell := loadRows_cell hload hk c hc
  rw [Nat.zero_add, lineText_append_newline (zero_notMem_rowText l r)] at hcell
  rw [hcell, cell_eq_rowText h.clean hr hc]

/-- A map whose rows all end is read back from what `saveMap` writes. -/
theorem loadBytes_saveText (mem : Nat → UInt8) (h : Loaded l) (hend : l.RowsEnd) :
    ∃ l', loadBytes mem (saveText l) = some l' ∧ SameMap l' l := by
  have hpos := rows_pos_of_connected h.connected
  obtain ⟨map, hload, hcell⟩ := loadRows_rows mem h hend
  let l' : Labyrinth := { map, rows := l.rows, cols := (stringAt map 0).length }
  have h0 : ∃ c < maxCols, l.cell 0 c = 0 := hend 0 hpos
  have h0' : ∃ c < maxCols, l'.cell 0 c = 0 := by
    obtain ⟨c, hc, hz⟩ := h0
    exact ⟨c, hc, (hcell 0 hpos c hc).trans hz⟩
  -- the first row is the same text, so the columns agree
  have hrow0 : l'.rowText 0 = l.rowText 0 := by
    rw [Labyrinth.rowText, Labyrinth.rowBytes, Labyrinth.rowText, Labyrinth.rowBytes]
    congr 1
    apply List.map_congr_left
    intro c hc
    exact hcell 0 hpos c (List.mem_range.mp hc)
  have hcols : l'.cols = l.cols := by
    rw [h.cols, length_stringAt_zero h0, ← hrow0]
    exact length_stringAt_zero h0'
  have hshort : l.cols < maxCols := by
    rw [h.cols, length_stringAt_zero h0]
    exact (exists_zero_iff l 0).mp h0
  have hsame : SameMap l' l := by
    refine ⟨rfl, hcols, fun r hr c hc => ?_⟩
    have hc' : c < maxCols := by omega
    exact hcell r hr c hc'
  refine ⟨l', ?_, hsame⟩
  rw [loadBytes, fgetsAll_saveText h hend, hload]
  show (if isConnected l' then some l' else none) = some l'
  rw [isConnected_congr hsame.sameSpaces, h.connected, if_pos rfl]

/-- One line too long is enough to refuse a file. -/
theorem loadRows_none {lines : List (List UInt8)} (hmem : line ∈ lines)
    (hlen : maxCols < strlen line) (row : Nat) (map : Nat → UInt8) :
    loadRows lines row map = none := by
  cases h : loadRows lines row map with
  | none => rfl
  | some res =>
      have := (loadRows_length h).2.2 line hmem
      omega

/-- The first row that does not end. -/
theorem exists_first_full (hend : ¬ l.RowsEnd) :
    ∃ r < l.rows, (∀ k < r, ∃ c < maxCols, l.cell k c = 0) ∧ ∀ c < maxCols, l.cell r c ≠ 0 := by
  classical
  rw [Labyrinth.RowsEnd] at hend
  push Not at hend
  obtain ⟨hr, hnz⟩ := Nat.find_spec hend
  refine ⟨Nat.find hend, hr, ?_, hnz⟩
  intro k hk
  have hmin := Nat.find_min hend hk
  push Not at hmin
  exact hmin (hk.trans hr)

/-- What is written around such a row: it is followed by a byte that is not 0. -/
theorem saveText_full (hle : l.rows ≤ maxRows) (hr : r < l.rows)
    (hbefore : ∀ k < r, ∃ c < maxCols, l.cell k c = 0) (hnz : ∀ c < maxCols, l.cell r c ≠ 0) :
    ∃ b rest, b ≠ 0 ∧ saveText l =
      ((List.range r).map l.rowText).flatMap (· ++ [newline]) ++ (l.rowBytes r ++ b :: rest) := by
  have hfull : ¬ ∃ c < maxCols, l.cell r c = 0 := fun ⟨c, hc, hz⟩ => hnz c hc hz
  obtain ⟨m, hm⟩ : ∃ m, l.rows = r + (m + 1) := ⟨l.rows - r - 1, by omega⟩
  obtain ⟨t, ht⟩ := rowBytes_prefix_stringAt (by omega) hfull
  obtain ⟨rest, hsave⟩ : ∃ rest, saveText l
      = ((List.range r).map l.rowText).flatMap (· ++ [newline])
        ++ (l.rowBytes r ++ (t ++ newline :: rest)) := by
    refine ⟨(List.range m).flatMap fun k =>
      stringAt l.map (addr (r + (k + 1)) 0) ++ [newline], ?_⟩
    rw [saveText, hm, List.range_add, List.flatMap_append, List.range_succ_eq_map]
    simp only [List.map_cons, List.flatMap_cons, Nat.add_zero, ← ht, List.flatMap_map,
      List.map_map, List.append_assoc, List.singleton_append]
    congr 1
    apply List.flatMap_congr
    intro k hk
    rw [List.mem_range] at hk
    rw [stringAt_eq_rowText (by omega) (hbefore k hk)]
  cases t with
  | nil => exact ⟨newline, rest, by decide, hsave⟩
  | cons b t =>
      refine ⟨b, t ++ newline :: rest, ?_, hsave⟩
      intro hb
      refine zero_notMem_cstr _ (?_ : (0 : UInt8) ∈ stringAt l.map (addr r 0))
      rw [← ht, hb]
      simp

/-- A map with a row that does not end is refused when it is read back. -/
theorem loadBytes_saveText_none (mem : Nat → UInt8) (hle : l.rows ≤ maxRows) (hclean : l.CleanRows)
    (hend : ¬ l.RowsEnd) : loadBytes mem (saveText l) = none := by
  obtain ⟨r, hr, hbefore, hnz⟩ := exists_first_full hend
  obtain ⟨b, rest, hb, hsave⟩ := saveText_full hle hr hbefore hnz
  have hn : newline ∉ l.rowBytes r := by
    simp only [Labyrinth.rowBytes, List.mem_map, List.mem_range, not_exists, not_and]
    exact fun c hc => hclean.newline r hr c hc
  have hz : (0 : UInt8) ∉ l.rowBytes r ++ [b] := by
    simp only [Labyrinth.rowBytes, List.mem_append, List.mem_map, List.mem_range, not_or,
      not_exists, not_and, List.mem_singleton]
    exact ⟨fun c hc => hnz c hc, fun h => hb h.symm⟩
  -- the row and one more byte fill the buffer of `fgets`
  have hline : l.rowBytes r ++ [b] ∈ fgetsAll (maxCols + 2) [] (saveText l) := by
    rw [hsave, fgetsAll_flatMap, fgetsAll_long _ _ _ _ _ hn (by simp [length_rowBytes])]
    · simp
    · intro text htext
      obtain ⟨k, hk, rfl⟩ := List.mem_map.mp htext
      rw [List.mem_range] at hk
      exact rowText_fits hclean (hk.trans hr) (hbefore k hk)
  have hlen : maxCols < strlen (l.rowBytes r ++ [b]) := by
    rw [strlen, cstr_eq_self hz, List.length_append, length_rowBytes, List.length_singleton]
    omega
  rw [loadBytes, loadRows_none hline hlen]

/-! ## Files that are written -/

section
variable (fs : FileSystem) (path : String) (bytes : List UInt8)

theorem write_file : (fs.write path bytes).file = fs.file := by
  unfold FileSystem.write
  split <;> rfl

theorem write_writable : (fs.write path bytes).writable = fs.writable := by
  unfold FileSystem.write
  split <;> rfl

/-- A write changes no other file. -/
theorem write_content_ne {f : Nat} (h : f ≠ fs.file path) :
    (fs.write path bytes).content f = fs.content f := by
  unfold FileSystem.write
  split
  · rfl
  · exact Function.update_of_ne h _ _
  · exact Function.update_of_ne h _ _

theorem write_content_self (h : fs.writable (fs.file path) = true) :
    (fs.write path bytes).content (fs.file path) = some bytes := by
  rw [FileSystem.write, of_decide_eq_true h]
  exact Function.update_self ..

/-- Without its new contents a file has its old ones or none. -/
theorem write_content_lost (h : fs.writable (fs.file path) = false) :
    (fs.write path bytes).content (fs.file path) = fs.content (fs.file path) ∨
      (fs.write path bytes).content (fs.file path) = some [] := by
  unfold FileSystem.write
  cases hw : fs.writing (fs.file path) with
  | refused => exact .inl rfl
  | full => exact .inr (Function.update_self ..)
  | done => simp [FileSystem.writable, hw] at h

end

/-- An empty file is no map. -/
theorem loadBytes_nil (mem : Nat → UInt8) : loadBytes mem [] = none := by
  rw [loadBytes]
  exact if_neg fun h => absurd (rows_pos_of_connected h) (Nat.lt_irrefl 0)

theorem loadMap_eq_some {fs : FileSystem} {mapFile : String} :
    loadMap mem fs mapFile = some l ↔
      ∃ bytes, fs.content (fs.file mapFile) = some bytes ∧ loadBytes mem bytes = some l := by
  unfold loadMap FileSystem.read
  cases fs.content (fs.file mapFile) with
  | none => simp
  | some bytes => simp

end OsCourse.Maze
