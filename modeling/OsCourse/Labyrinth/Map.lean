import OsCourse.Lib.Flood

/-!
# The labyrinth map

The data of `labyrinth.h` and the functions of `labyrinth.c` that only look at
a map.

`char map[MAX_ROWS][MAX_COLS]` is modelled as flat memory, a byte per address,
with `map[row][col]` at `MAX_COLS * row + col`.  The rows lie next to each
other in memory, and `loadMap` relies on it without meaning to: it stores the
terminator of a row of `MAX_COLS` characters in the first byte of the next row.
A model of the map as a table of separate rows could not say that.

`findPlayer` and `findFirstEmptySpace` are one scan in row-major order with
two tests, so they are instances of `findCell`.  `dfs` is the source's
recursion with fuel.  It is the fill of `Lib/Flood.lean` on the positions of
the grid (`dfs_eq_flood`), so it returns with the fuel `isConnected` gives it
(`dfs_isSome`).

The functions here see a cell only through `isEmptySpace`.  A map with the same
size and the same empty spaces is connected iff this one is
(`isConnected_congr`).
-/

namespace OsCourse.Maze

open OsCourse.Flood (flood flood_isSome unmarked)

/-! ## Data -/

/-- `MAX_ROWS`. -/
def maxRows : Nat := 100

/-- `MAX_COLS`. -/
def maxCols : Nat := 100

/-- The address of `map[row][col]` in the array. -/
def addr (row col : Nat) : Nat := maxCols * row + col

/-- `Labyrinth`.  An `int` that counts rows or columns is a `Nat`. -/
structure Labyrinth where
  /-- The bytes of the array, by address. -/
  map : Nat → UInt8
  rows : Nat
  cols : Nat

/-- `labyrinth->map[row][col]`. -/
def Labyrinth.cell (l : Labyrinth) (row col : Nat) : UInt8 := l.map (addr row col)

/-- `labyrinth->map[row][col] = b`. -/
def Labyrinth.store (l : Labyrinth) (row col : Nat) (b : UInt8) : Labyrinth :=
  { l with map := Function.update l.map (addr row col) b }

/-- The grid lies inside the array. -/
structure Labyrinth.InBounds (l : Labyrinth) : Prop where
  rows_le : l.rows ≤ maxRows
  cols_le : l.cols ≤ maxCols

/-- `Position`. -/
structure Position where
  row : Int
  col : Int
deriving DecidableEq, Repr

/-- `{-1, -1}`, the answer of a search that finds nothing. -/
def Position.missing : Position := ⟨-1, -1⟩

@[simp] theorem Labyrinth.store_rows (l : Labyrinth) (r c : Nat) (b : UInt8) :
    (l.store r c b).rows = l.rows := rfl
@[simp] theorem Labyrinth.store_cols (l : Labyrinth) (r c : Nat) (b : UInt8) :
    (l.store r c b).cols = l.cols := rfl

theorem Labyrinth.store_map (l : Labyrinth) (r c : Nat) (b : UInt8) (i : Nat) :
    (l.store r c b).map i = if i = addr r c then b else l.map i := by
  simp [Labyrinth.store, Function.update_apply]

theorem Labyrinth.store_cell (l : Labyrinth) (r c : Nat) (b : UInt8) (i j : Nat) :
    (l.store r c b).cell i j = if addr i j = addr r c then b else l.cell i j :=
  l.store_map r c b (addr i j)

/-- Inside the array no two cells share an address. -/
theorem addr_inj {r c r' c' : Nat} (hc : c < maxCols) (hc' : c' < maxCols) :
    addr r c = addr r' c' ↔ r = r' ∧ c = c' := by
  simp only [addr, maxCols] at *
  omega

/-! ## Characters -/

/-- `'.'`. -/
def dot : UInt8 := '.'.toUInt8

/-- `c >= '0' && c <= '9'`. -/
def isDigit (c : UInt8) : Bool := '0'.toUInt8 ≤ c && c ≤ '9'.toUInt8

/-- The characters `isEmptySpace` accepts. -/
def passable (c : UInt8) : Bool := c == dot || isDigit c

@[simp] theorem passable_dot : passable dot = true := by decide

theorem passable_of_isDigit {c : UInt8} (h : isDigit c = true) : passable c = true := by
  simp [passable, h]

theorem isDigit_dot : isDigit dot = false := by decide

theorem ne_dot_of_isDigit {c : UInt8} (h : isDigit c = true) : c ≠ dot := by
  rintro rfl
  rw [isDigit_dot] at h
  cases h

/-- `isValidPlayer`. -/
def isValidPlayer (playerId : UInt8) : Bool := isDigit playerId

/-! ## Searching the grid -/

/-- The cells of the grid, in the order the nested loops reach them. -/
def Labyrinth.grid (l : Labyrinth) : List (Nat × Nat) := List.range l.rows ×ˢ List.range l.cols

variable {l l' : Labyrinth}

theorem Labyrinth.mem_grid {rc : Nat × Nat} :
    rc ∈ l.grid ↔ rc.1 < l.rows ∧ rc.2 < l.cols := by
  obtain ⟨r, c⟩ := rc
  simp [Labyrinth.grid]

/-- The first cell of the grid that passes a test, or `{-1, -1}`. -/
def findCell (l : Labyrinth) (test : Nat → Nat → Bool) : Position :=
  match l.grid.find? fun rc => test rc.1 rc.2 with
  | some (row, col) => ⟨row, col⟩
  | none => .missing

/-- `isEmptySpace`. -/
def isEmptySpace (l : Labyrinth) (row col : Int) : Bool :=
  if row < 0 ∨ row ≥ l.rows ∨ col < 0 ∨ col ≥ l.cols then false
  else passable (l.cell row.toNat col.toNat)

/-- `findPlayer`. -/
def findPlayer (l : Labyrinth) (playerId : UInt8) : Position :=
  findCell l fun row col => l.cell row col == playerId

/-- `findFirstEmptySpace`. -/
def findFirstEmptySpace (l : Labyrinth) : Position :=
  findCell l fun row col => isEmptySpace l row col

/-- A search ends at a cell of the grid that passes the test, or the test fails
everywhere. -/
theorem findCell_cases (l : Labyrinth) (test : Nat → Nat → Bool) :
    (∃ r c : Nat, findCell l test = ⟨r, c⟩ ∧ r < l.rows ∧ c < l.cols ∧ test r c = true) ∨
    (findCell l test = .missing ∧ ∀ r < l.rows, ∀ c < l.cols, test r c = false) := by
  unfold findCell
  cases h : l.grid.find? fun rc => test rc.1 rc.2 with
  | some rc =>
      have hmem := Labyrinth.mem_grid.mp (List.mem_of_find?_eq_some h)
      exact Or.inl ⟨rc.1, rc.2, rfl, hmem.1, hmem.2, by simpa using List.find?_some h⟩
  | none =>
      refine Or.inr ⟨rfl, fun r hr c hc => ?_⟩
      have hall := List.find?_eq_none.mp h (r, c) (Labyrinth.mem_grid.mpr ⟨hr, hc⟩)
      simpa using hall

theorem findCell_congr {test test' : Nat → Nat → Bool} (hr : l.rows = l'.rows)
    (hc : l.cols = l'.cols) (h : ∀ r < l.rows, ∀ c < l.cols, test r c = test' r c) :
    findCell l test = findCell l' test' := by
  have hgrid : l.grid = l'.grid := by simp [Labyrinth.grid, hr, hc]
  have hfind : (l.grid.find? fun rc => test rc.1 rc.2)
      = l.grid.find? fun rc => test' rc.1 rc.2 := by
    apply List.find?_congr
    intro rc hrc
    have hmem := Labyrinth.mem_grid.mp hrc
    exact h rc.1 hmem.1 rc.2 hmem.2
  rw [findCell, findCell, hfind, hgrid]

theorem Position.coe_ne_missing (r c : Nat) : (⟨r, c⟩ : Position) ≠ .missing := by
  intro h
  have := congrArg Position.row h
  simp [Position.missing] at this

/-- Inside the grid `isEmptySpace` is a test of the character. -/
theorem isEmptySpace_coe {r c : Nat} (hr : r < l.rows) (hc : c < l.cols) :
    isEmptySpace l r c = passable (l.cell r c) := by
  have h : ¬ ((r : Int) < 0 ∨ (r : Int) ≥ l.rows ∨ (c : Int) < 0 ∨ (c : Int) ≥ l.cols) := by
    omega
  rw [isEmptySpace, if_neg h]
  rfl

/-- An empty space lies in the grid. -/
theorem isEmptySpace_inGrid {row col : Int} (h : isEmptySpace l row col = true) :
    0 ≤ row ∧ row < l.rows ∧ 0 ≤ col ∧ col < l.cols := by
  unfold isEmptySpace at h
  split at h
  · cases h
  · omega

/-! ## Connectivity -/

/-- `visited[MAX_ROWS][MAX_COLS]`. -/
abbrev Visited := Position → Bool

/-- `rowOffsets` and `colOffsets`, side by side. -/
def offsets : List (Int × Int) := [(-1, 0), (1, 0), (0, -1), (0, 1)]

/-- `dfs`.  `none` is out of fuel. -/
def dfs (l : Labyrinth) : Nat → Int → Int → Visited → Option Visited
  | 0, _, _, _ => none
  | fuel + 1, row, col, visited =>
      offsets.foldlM (fun visited d =>
        let newRow := row + d.1
        let newCol := col + d.2
        if (newRow ≥ 0 ∧ newRow < l.rows ∧ newCol ≥ 0 ∧ newCol < l.cols) ∧
            visited ⟨newRow, newCol⟩ = false ∧ isEmptySpace l newRow newCol = true then
          dfs l fuel newRow newCol (Function.update visited ⟨newRow, newCol⟩ true)
        else some visited) visited

/-- The test after the fill: every empty space was visited. -/
def allVisited (l : Labyrinth) (visited : Visited) : Bool :=
  l.grid.all fun rc => !(isEmptySpace l rc.1 rc.2 && !visited ⟨rc.1, rc.2⟩)

/-- `isConnected`.  The recursion of `dfs` is at most one call deeper than the
grid has cells. -/
def isConnected (l : Labyrinth) : Bool :=
  let start := findFirstEmptySpace l
  if start.row = -1 ∧ start.col = -1 then false
  else
    let visited : Visited := Function.update (fun _ => false) start true
    match dfs l (l.rows * l.cols + 1) start.row start.col visited with
    | some visited => allVisited l visited
    | none => false

/-! ## The fill behind `dfs` -/

/-- The four positions around a position. -/
def Position.around (p : Position) : List Position :=
  offsets.map fun d => ⟨p.row + d.1, p.col + d.2⟩

/-- `dfs` is the general fill.  Its bounds check is part of `isEmptySpace`. -/
theorem dfs_eq_flood (l : Labyrinth) : ∀ (fuel : Nat) (row col : Int) (visited : Visited),
    dfs l fuel row col visited
      = flood Position.around (fun p => isEmptySpace l p.row p.col) fuel ⟨row, col⟩ visited
  | 0, _, _, _ => rfl
  | fuel + 1, row, col, visited => by
      rw [dfs, flood, Position.around, List.foldlM_map]
      congr 1
      funext v d
      by_cases h : v ⟨row + d.1, col + d.2⟩ = false ∧ isEmptySpace l (row + d.1) (col + d.2) = true
      · have hin := isEmptySpace_inGrid h.2
        rw [if_pos h, if_pos ⟨⟨hin.1, hin.2.1, hin.2.2.1, hin.2.2.2⟩, h⟩]
        exact dfs_eq_flood l fuel _ _ _
      · rw [if_neg h, if_neg fun h' => h h'.2]

/-- The positions of the grid. -/
def Labyrinth.positions (l : Labyrinth) : Finset Position :=
  (Finset.range l.rows ×ˢ Finset.range l.cols).image fun rc => ⟨rc.1, rc.2⟩

theorem Labyrinth.card_positions_le (l : Labyrinth) : l.positions.card ≤ l.rows * l.cols := by
  refine Finset.card_image_le.trans ?_
  simp

theorem mem_positions_of_isEmptySpace {p : Position} (h : isEmptySpace l p.row p.col = true) :
    p ∈ l.positions := by
  obtain ⟨row, col⟩ := p
  obtain ⟨hr, hrows, hc, hcols⟩ := isEmptySpace_inGrid h
  simp only at hr hrows hc hcols
  rw [Labyrinth.positions, Finset.mem_image]
  refine ⟨(row.toNat, col.toNat), ?_, ?_⟩
  · simp only [Finset.mem_product, Finset.mem_range]
    omega
  · simp only [Position.mk.injEq]
    omega

/-- More fuel than the grid has cells is enough from any cell and any marks. -/
theorem dfs_isSome_of_lt {fuel : Nat} (hfuel : l.rows * l.cols < fuel) (row col : Int)
    (visited : Visited) : ∃ w, dfs l fuel row col visited = some w := by
  rw [dfs_eq_flood]
  refine flood_isSome (S := l.positions) (fun p hp => mem_positions_of_isEmptySpace hp) _ _ _ ?_
  have hle : (unmarked l.positions visited).card ≤ l.positions.card :=
    Finset.card_filter_le _ _
  have := l.card_positions_le
  omega

/-- The fuel of `isConnected` is enough from any cell and any marks. -/
theorem dfs_isSome (l : Labyrinth) (row col : Int) (visited : Visited) :
    ∃ w, dfs l (l.rows * l.cols + 1) row col visited = some w :=
  dfs_isSome_of_lt (Nat.lt_succ_self _) row col visited

/-! ## What a map is seen through -/

/-- Two maps of one size with the same empty spaces. -/
structure SameSpaces (l l' : Labyrinth) : Prop where
  rows : l.rows = l'.rows
  cols : l.cols = l'.cols
  cells : ∀ r < l.rows, ∀ c < l.cols, passable (l.cell r c) = passable (l'.cell r c)

theorem SameSpaces.isEmptySpace (h : SameSpaces l l') (row col : Int) :
    isEmptySpace l row col = isEmptySpace l' row col := by
  unfold Maze.isEmptySpace
  rw [h.rows, h.cols]
  split
  · rfl
  · apply h.cells
    · have := h.rows; omega
    · have := h.cols; omega

/-- Connectivity depends on the empty spaces alone. -/
theorem isConnected_congr (h : SameSpaces l l') :
    isConnected l = isConnected l' := by
  have hstart : findFirstEmptySpace l = findFirstEmptySpace l' :=
    findCell_congr h.rows h.cols fun r _ c _ => h.isEmptySpace r c
  have hdfs : ∀ fuel row col v, dfs l fuel row col v = dfs l' fuel row col v := by
    intro fuel row col v
    rw [dfs_eq_flood, dfs_eq_flood]
    congr 1
    funext p
    exact h.isEmptySpace p.row p.col
  have hall : ∀ v, allVisited l v = allVisited l' v := by
    intro v
    simp only [allVisited, Labyrinth.grid, h.rows, h.cols, h.isEmptySpace]
  simp only [isConnected, hstart, hdfs, hall, h.rows, h.cols]

end OsCourse.Maze
