import OsCourse.Labyrinth.File
import OsCourse.Lib.Record

/-!
# The bytes that `loadMap` stores

`loadRows` of `File.lean` with every store to the array recorded, also those of a
load that fails.  The recorded loop computes what `loadRows` computes
(`loadRowsRecorded_eq`), and its stores, replayed, give the same array
(`loadRows_eq_replay`).

The terminator of a row goes to the column `len`, the length of the line with
its newline.  The length check lets `len` be `MAX_COLS`, which is one column too
far.  So a load stays in bounds exactly when no line that it stores has this
length, and then every row has its terminator (`load_inBounds_iff`).
-/

namespace OsCourse.Maze

open OsCourse (Recorded)

/-! ## The loop with its stores -/

/-- `labyrinth->map[row][col] = byte`. -/
structure Store where
  row : Nat
  col : Nat
  byte : UInt8
deriving DecidableEq

/-- Store a byte and record it. -/
def storeByte (map : Nat → UInt8) (row col : Nat) (byte : UInt8) :
    Recorded Unit Store (Nat → UInt8) := do
  let _ ← Recorded.record ⟨row, col, byte⟩
  pure (Function.update map (addr row col) byte)

/-- `strncpy(labyrinth->map[row], line, n)`: the bytes of the string, then zeros. -/
def strncpyRecorded (map : Nat → UInt8) (row : Nat) (line : List UInt8) :
    Nat → Recorded Unit Store (Nat → UInt8)
  | 0 => pure map
  | n + 1 => do
      let map ← strncpyRecorded map row line n
      storeByte map row n ((cstr line).getD n 0)

/-- The loop of `loadMap`. -/
def loadRowsRecorded : List (List UInt8) → Nat → (Nat → UInt8) →
    Recorded Unit Store (Nat × (Nat → UInt8))
  | [], row, map => pure (row, map)
  | line :: lines, row, map =>
      let len := strlen line
      let line := if 0 < len ∧ line.getD (len - 1) 0 = newline then line.set (len - 1) 0 else line
      if len > maxCols then Recorded.lift (.error ())
      else if row ≥ maxRows then Recorded.lift (.error ())
      else do
        let map ← strncpyRecorded map row line maxCols
        let map ← storeByte map row len 0
        loadRowsRecorded lines (row + 1) map

/-- The stores `loadMap` makes on the bytes of a file, in order. -/
def loadStores (mem : Nat → UInt8) (bytes : List UInt8) : List Store :=
  (loadRowsRecorded (fgetsAll (maxCols + 2) [] bytes) 0 mem []).1

/-- The array after stores. -/
def replay (stores : List Store) (map : Nat → UInt8) : Nat → UInt8 :=
  stores.foldl (fun map s => Function.update map (addr s.row s.col) s.byte) map

/-! ## What is stored -/

/-- The stores of `strncpy`. -/
def copyStores (row : Nat) (text : List UInt8) (n : Nat) : List Store :=
  (List.range n).map fun col => ⟨row, col, text.getD col 0⟩

/-- The stores of one round. -/
def rowStores (row : Nat) (line : List UInt8) : List Store :=
  copyStores row (lineText line) maxCols ++ [⟨row, strlen line, 0⟩]

/-- The stores of the loop. -/
def rowsStores : List (List UInt8) → Nat → List Store
  | [], _ => []
  | line :: lines, row =>
      if strlen line > maxCols then []
      else if row ≥ maxRows then []
      else rowStores row line ++ rowsStores lines (row + 1)

theorem copyStores_succ (row : Nat) (text : List UInt8) (n : Nat) :
    copyStores row text (n + 1) = copyStores row text n ++ [⟨row, n, text.getD n 0⟩] := by
  rw [copyStores, List.range_succ, List.map_append]
  rfl

theorem replay_append (stores more : List Store) (map : Nat → UInt8) :
    replay (stores ++ more) map = replay more (replay stores map) := by
  rw [replay, List.foldl_append]
  rfl

theorem strncpy_zero (map : Nat → UInt8) (start : Nat) (line : List UInt8) :
    strncpy map start line 0 = map := by
  funext i
  rw [strncpy, if_neg (by omega)]

/-- One byte more of a copy. -/
theorem strncpy_succ (map : Nat → UInt8) (row : Nat) (line : List UInt8) (n : Nat) :
    strncpy map (addr row 0) line (n + 1) =
      Function.update (strncpy map (addr row 0) line n) (addr row n) ((cstr line).getD n 0) := by
  funext i
  rw [Function.update_apply]
  split
  next h =>
    have hsub : i - addr row 0 = n := by simp only [h, addr]; omega
    rw [strncpy, if_pos (by simp only [h, addr]; omega), hsub]
  next h =>
    have hi :
        (addr row 0 ≤ i ∧ i < addr row 0 + (n + 1)) ↔ addr row 0 ≤ i ∧ i < addr row 0 + n := by
      simp only [addr] at *
      omega
    rw [strncpy, strncpy]
    simp only [hi]

theorem strncpyRecorded_eq (map : Nat → UInt8) (row : Nat) (line : List UInt8) (past : List Store) :
    ∀ n, strncpyRecorded map row line n past =
      (past ++ copyStores row (cstr line) n, .ok (strncpy map (addr row 0) line n))
  | 0 => by
      rw [strncpy_zero, copyStores, List.range_zero, List.map_nil, List.append_nil]
      rfl
  | n + 1 => by
      rw [strncpyRecorded, Recorded.bind_apply, strncpyRecorded_eq map row line past n,
        strncpy_succ, copyStores_succ, ← List.append_assoc]
      rfl

/-- The recorded loop is `loadRows`, and these are its stores. -/
theorem loadRowsRecorded_eq : ∀ (lines : List (List UInt8)) (row : Nat) (map : Nat → UInt8)
    (past : List Store), loadRowsRecorded lines row map past =
      (past ++ rowsStores lines row, (loadRows lines row map).elim (.error ()) .ok)
  | [], row, map, past => by
      rw [rowsStores, List.append_nil]
      rfl
  | line :: lines, row, map, past => by
      simp only [loadRowsRecorded, rowsStores, loadRows]
      by_cases hlen : strlen line > maxCols
      · simp only [if_pos hlen, List.append_nil]
        rfl
      · by_cases hrow : row ≥ maxRows
        · simp only [if_neg hlen, if_pos hrow, List.append_nil]
          rfl
        · simp only [if_neg hlen, if_neg hrow]
          rw [Recorded.bind_apply, strncpyRecorded_eq, cstr_cut, rowStores, ← List.append_assoc,
            ← List.append_assoc]
          exact loadRowsRecorded_eq lines (row + 1) _ _

theorem strncpy_eq_replay (map : Nat → UInt8) (row : Nat) (line : List UInt8) : ∀ n,
    strncpy map (addr row 0) line n = replay (copyStores row (cstr line) n) map
  | 0 => strncpy_zero map (addr row 0) line
  | n + 1 => by
      rw [strncpy_succ, copyStores_succ, replay_append, strncpy_eq_replay map row line n]
      rfl

/-- The array of a load that succeeds is that of its stores. -/
theorem loadRows_eq_replay : ∀ {lines : List (List UInt8)} {row n : Nat} {map map' : Nat → UInt8},
    loadRows lines row map = some (n, map') → map' = replay (rowsStores lines row) map
  | [], row, n, map, map', h => by
      simp only [loadRows, Option.some.injEq, Prod.mk.injEq] at h
      exact h.2.symm
  | line :: lines, row, n, map, map', h => by
      simp only [loadRows] at h
      rw [rowsStores]
      split at h
      next => cases h
      next hlen =>
        split at h
        next => cases h
        next hrow =>
          rw [if_neg hlen, if_neg hrow, replay_append, loadRows_eq_replay h, strncpy_eq_replay,
            cstr_cut, rowStores, replay_append]
          rfl

/-! ## The lines that are stored -/

/-- The lines that a load stores: all before one that is refused. -/
def storedLines (bytes : List UInt8) : List (List UInt8) :=
  ((fgetsAll (maxCols + 2) [] bytes).takeWhile fun line => strlen line ≤ maxCols).take maxRows

/-- The lines behind a refused one store nothing. -/
theorem rowsStores_take : ∀ (lines : List (List UInt8)) (row : Nat),
    rowsStores lines row =
      rowsStores ((lines.takeWhile fun line => strlen line ≤ maxCols).take (maxRows - row)) row
  | [], _ => by simp
  | line :: lines, row => by
      rw [rowsStores]
      split
      next hlen =>
        rw [List.takeWhile_cons_of_neg (by simpa using hlen)]
        simp [rowsStores]
      next hlen =>
        rw [List.takeWhile_cons_of_pos (by simpa using hlen)]
        split
        next hrow =>
          rw [show maxRows - row = 0 by omega]
          simp [rowsStores]
        next hrow =>
          rw [show maxRows - row = maxRows - (row + 1) + 1 by omega, List.take_succ_cons,
            rowsStores, if_neg hlen, if_neg hrow, rowsStores_take lines (row + 1)]

/-- The stores of lines that are all stored. -/
theorem mem_rowsStores : ∀ {lines : List (List UInt8)} {row : Nat} {s : Store},
    (∀ line ∈ lines, strlen line ≤ maxCols) → row + lines.length ≤ maxRows →
      (s ∈ rowsStores lines row ↔ ∃ k line, lines[k]? = some line ∧ s ∈ rowStores (row + k) line)
  | [], row, s, _, _ => by simp [rowsStores]
  | line :: lines, row, s, hlen, hrows => by
      rw [List.length_cons] at hrows
      have hline : ¬ strlen line > maxCols := by
        have := hlen line (List.mem_cons_self ..)
        omega
      have hrow : ¬ row ≥ maxRows := by omega
      rw [rowsStores, if_neg hline, if_neg hrow, List.mem_append,
        mem_rowsStores (fun l hl => hlen l (List.mem_cons_of_mem _ hl)) (by omega)]
      constructor
      · rintro (hs | ⟨k, l, hk, hs⟩)
        · exact ⟨0, line, rfl, hs⟩
        · exact ⟨k + 1, l, hk, by rwa [show row + (k + 1) = row + 1 + k by omega]⟩
      · rintro ⟨k, l, hk, hs⟩
        cases k with
        | zero =>
            rw [List.getElem?_cons_zero, Option.some.injEq] at hk
            exact Or.inl (hk ▸ hs)
        | succ k =>
            exact Or.inr ⟨k, l, hk, by rwa [show row + 1 + k = row + (k + 1) by omega]⟩

theorem loadStores_eq (mem : Nat → UInt8) (bytes : List UInt8) :
    loadStores mem bytes = rowsStores (storedLines bytes) 0 := by
  rw [loadStores, loadRowsRecorded_eq]
  exact rowsStores_take _ 0

theorem storedLines_fit (bytes : List UInt8) :
    (∀ line ∈ storedLines bytes, strlen line ≤ maxCols) ∧ (storedLines bytes).length ≤ maxRows := by
  constructor
  · intro line hline
    simpa using List.mem_takeWhile_imp (List.mem_of_mem_take hline)
  · exact List.length_take_le _ _

theorem mem_loadStores {mem : Nat → UInt8} {bytes : List UInt8} {s : Store} :
    s ∈ loadStores mem bytes ↔
      ∃ k line, (storedLines bytes)[k]? = some line ∧ s ∈ rowStores k line := by
  obtain ⟨hlen, hrows⟩ := storedLines_fit bytes
  rw [loadStores_eq, mem_rowsStores hlen (by omega)]
  simp only [Nat.zero_add]

/-- The rows after a load, whether it succeeded or not. -/
theorem replay_loadStores_cell {mem : Nat → UInt8} {bytes : List UInt8} {k c : Nat}
    {line : List UInt8} (hk : (storedLines bytes)[k]? = some line) (hc : c < maxCols) :
    replay (loadStores mem bytes) mem (addr k c) = (lineText line).getD c 0 := by
  obtain ⟨hlen, hrows⟩ := storedLines_fit bytes
  obtain ⟨map, hload⟩ := loadRows_isSome (storedLines bytes) 0 mem (by omega) hlen
  have hreplay : replay (loadStores mem bytes) mem = map := by
    rw [loadStores_eq]
    exact (loadRows_eq_replay hload).symm
  rw [hreplay, ← loadRows_cell hload hk c hc, Nat.zero_add]

/-! ## Bounds -/

/-- Every store is inside the array, at a column of its own row, and every row that
was stored to has its terminator among its own bytes. -/
structure InArray (mem : Nat → UInt8) (stores : List Store) : Prop where
  rows : ∀ s ∈ stores, s.row < maxRows
  cols : ∀ s ∈ stores, s.col < maxCols
  terminated : ∀ s ∈ stores, ∃ c < maxCols, replay stores mem (addr s.row c) = 0

/-- A store of one round. -/
theorem mem_rowStores {row : Nat} {line : List UInt8} {s : Store} (h : s ∈ rowStores row line) :
    s.row = row ∧ (s.col < maxCols ∨ s.col = strlen line) := by
  rcases List.mem_append.mp h with h | h
  · obtain ⟨col, hcol, rfl⟩ := List.mem_map.mp h
    exact ⟨rfl, Or.inl (List.mem_range.mp hcol)⟩
  · rw [List.mem_singleton.mp h]
    exact ⟨rfl, Or.inr rfl⟩

/-- For every file: `loadMap` stays in bounds exactly when no line that it stores has
`MAX_COLS` bytes, its newline counted. -/
theorem load_inBounds_iff (mem : Nat → UInt8) (bytes : List UInt8) :
    InArray mem (loadStores mem bytes) ↔ ∀ line ∈ storedLines bytes, strlen line < maxCols := by
  constructor
  · intro h line hline
    obtain ⟨k, hk⟩ := List.getElem?_of_mem hline
    -- the store of the terminator
    have hmem : (⟨k, strlen line, 0⟩ : Store) ∈ loadStores mem bytes :=
      mem_loadStores.mpr ⟨k, line, hk, List.mem_append_right _ (List.mem_singleton_self _)⟩
    exact h.cols _ hmem
  · intro h
    have hrows := (storedLines_fit bytes).2
    refine ⟨fun s hs => ?_, fun s hs => ?_, fun s hs => ?_⟩
    · obtain ⟨k, line, hk, hs⟩ := mem_loadStores.mp hs
      have := (List.getElem?_eq_some_iff.mp hk).1
      rw [(mem_rowStores hs).1]
      omega
    · obtain ⟨k, line, hk, hs⟩ := mem_loadStores.mp hs
      rcases (mem_rowStores hs).2 with hcol | hcol
      · exact hcol
      · rw [hcol]
        exact h line (List.mem_of_getElem? hk)
    · obtain ⟨k, line, hk, hs⟩ := mem_loadStores.mp hs
      have hlen := (length_lineText_le line).trans_lt (h line (List.mem_of_getElem? hk))
      refine ⟨(lineText line).length, hlen, ?_⟩
      rw [(mem_rowStores hs).1, replay_loadStores_cell hk hlen]
      exact List.getD_eq_default _ _ le_rfl

/-- A line of 99 characters and a newline. -/
def fullLine : List UInt8 := List.replicate 99 dot ++ [newline]

/-- Its terminator is stored in column 100. -/
theorem fullLine_out_of_bounds :
    (⟨0, 100, 0⟩ : Store) ∈ loadStores (fun _ => 0) fullLine ∧
      ¬ InArray (fun _ => 0) (loadStores (fun _ => 0) fullLine) := by
  have hmem : (⟨0, 100, 0⟩ : Store) ∈ loadStores (fun _ => 0) fullLine := by
    refine mem_loadStores.mpr ⟨0, fullLine, by decide +kernel, ?_⟩
    exact List.mem_append_right _ (by decide +kernel)
  exact ⟨hmem, fun h => absurd (h.cols _ hmem) (by decide)⟩

end OsCourse.Maze
