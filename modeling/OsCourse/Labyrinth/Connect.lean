import OsCourse.Labyrinth.Map

/-!
# Connected maps

What `isConnected` decides.  `Joined S` is the relation of two cells that a path
inside the set `S` joins, where a step of the path goes to a horizontal or
vertical neighbour.  A set is connected when it is not empty and joins any two
of its cells.

`isConnected` fills from the first empty space and then looks for an empty space
without a mark.  The fill marks what a path from its start leads to
(`dfs_reaches`), so it misses none exactly when all empty spaces are joined to
the start.  Paths can be walked backwards, so this is no weaker than joining any
two (`connected_iff_joined`).

A fill may also begin with other marks than that of its start.  It then follows
the steps of `FillStep`, which go around what was marked before
(`dfs_marks_iff`).
-/

namespace OsCourse.Maze

open OsCourse.Flood (Edge Step flood_marks flood_reaches)

/-! ## Paths -/

/-- A cell, by its row and its column. -/
abbrev Cell := Nat × Nat

/-- Horizontal or vertical neighbours. -/
def Neighbours (a b : Cell) : Prop :=
  a.1 = b.1 ∧ (a.2 + 1 = b.2 ∨ b.2 + 1 = a.2) ∨ a.2 = b.2 ∧ (a.1 + 1 = b.1 ∨ b.1 + 1 = a.1)

/-- A path inside the set leads from one cell to the other. -/
def Joined (S : Set Cell) : Cell → Cell → Prop :=
  Relation.ReflTransGen fun a b => Neighbours a b ∧ a ∈ S ∧ b ∈ S

/-- The set has a cell, and a path inside it joins any two. -/
def Connected (S : Set Cell) : Prop := S.Nonempty ∧ ∀ a ∈ S, ∀ b ∈ S, Joined S a b

variable {a b : Cell} {l : Labyrinth} {p : Position} {fuel : Nat} {w : Visited} {row col : Int}

theorem Neighbours.symm (h : Neighbours a b) : Neighbours b a := by
  unfold Neighbours at *
  omega

theorem Joined.symm {S : Set Cell} (h : Joined S a b) : Joined S b a := by
  induction h with
  | refl => exact .refl
  | tail _ hstep ih => exact .head ⟨hstep.1.symm, hstep.2.2, hstep.2.1⟩ ih

/-- It is enough to join every cell to one. -/
theorem connected_iff_joined {S : Set Cell} (ha : a ∈ S) :
    Connected S ↔ ∀ b ∈ S, Joined S a b := by
  constructor
  · intro h b hb
    exact h.2 a ha b hb
  · intro h
    refine ⟨⟨a, ha⟩, fun b hb c hc => ?_⟩
    exact (h b hb).symm.trans (h c hc)

/-! ## The fill -/

/-- The passable cells of the grid. -/
def Labyrinth.spaces (l : Labyrinth) : Set Cell :=
  {a | a.1 < l.rows ∧ a.2 < l.cols ∧ passable (l.cell a.1 a.2) = true}

/-- The position of a cell. -/
def cellPosition (a : Cell) : Position := ⟨a.1, a.2⟩

theorem isEmptySpace_cellPosition :
    isEmptySpace l (cellPosition a).row (cellPosition a).col = true ↔ a ∈ l.spaces := by
  constructor
  · intro h
    obtain ⟨-, hr, -, hc⟩ := isEmptySpace_inGrid h
    have hr' : a.1 < l.rows := Int.ofNat_lt.mp hr
    have hc' : a.2 < l.cols := Int.ofNat_lt.mp hc
    exact ⟨hr', hc', (isEmptySpace_coe hr' hc').symm.trans h⟩
  · rintro ⟨hr, hc, hp⟩
    exact (isEmptySpace_coe hr hc).trans hp

/-- An empty space is at a cell. -/
theorem exists_cellPosition (h : isEmptySpace l p.row p.col = true) : ∃ a, p = cellPosition a := by
  obtain ⟨hr, -, hc, -⟩ := isEmptySpace_inGrid h
  refine ⟨(p.row.toNat, p.col.toNat), ?_⟩
  obtain ⟨row, col⟩ := p
  simp only [cellPosition, Position.mk.injEq] at *
  omega

theorem mem_around_cellPosition :
    cellPosition b ∈ (cellPosition a).around ↔ Neighbours a b := by
  simp only [Position.around, offsets, cellPosition, Neighbours, List.map_cons, List.map_nil,
    List.mem_cons, Position.mk.injEq, List.not_mem_nil, or_false]
  omega

/-- A path of the fill is a path of cells. -/
theorem joined_of_steps (ha : a ∈ l.spaces) (h : Relation.ReflTransGen
      (Step Position.around fun p => isEmptySpace l p.row p.col) (cellPosition a) p) :
    ∃ b ∈ l.spaces, p = cellPosition b ∧ Joined l.spaces a b := by
  induction h with
  | refl => exact ⟨a, ha, rfl, .refl⟩
  | tail _ hstep ih =>
      obtain ⟨b, hb, rfl, hab⟩ := ih
      obtain ⟨hnear, hspace⟩ := hstep
      obtain ⟨c, rfl⟩ := exists_cellPosition hspace
      have hc : c ∈ l.spaces := isEmptySpace_cellPosition.mp hspace
      exact ⟨c, hc, rfl, hab.tail ⟨mem_around_cellPosition.mp hnear, hb, hc⟩⟩

theorem steps_of_joined (h : Joined l.spaces a b) :
    Relation.ReflTransGen (Step Position.around fun p => isEmptySpace l p.row p.col)
      (cellPosition a) (cellPosition b) :=
  Relation.ReflTransGen.lift cellPosition
    (fun _ _ hstep =>
      ⟨mem_around_cellPosition.mpr hstep.1, isEmptySpace_cellPosition.mpr hstep.2.2⟩) _ _ h

/-- The marks of the fill from a passable cell. -/
theorem dfs_reaches (ha : a ∈ l.spaces)
    (h : dfs l fuel a.1 a.2 (Function.update (fun _ => false) (cellPosition a) true) = some w)
    (b : Cell) : w (cellPosition b) = true ↔ Joined l.spaces a b := by
  rw [dfs_eq_flood] at h
  refine (flood_reaches h _).trans ⟨fun hsteps => ?_, steps_of_joined⟩
  obtain ⟨c, -, hbc, hac⟩ := joined_of_steps ha hsteps
  have hcb : c = b := by
    simp only [cellPosition, Position.mk.injEq, Nat.cast_inj] at hbc
    exact Prod.ext hbc.1.symm hbc.2.symm
  exact hcb ▸ hac

/-! ## A fill among other marks -/

/-- One step of a fill that began with the marks `visited`: up, down, left or
right, to a cell inside the grid that is passable and had no mark. -/
structure FillStep (l : Labyrinth) (visited : Visited) (p q : Position) : Prop where
  beside : p.row = q.row ∧ (q.col = p.col - 1 ∨ q.col = p.col + 1) ∨
    p.col = q.col ∧ (q.row = p.row - 1 ∨ q.row = p.row + 1)
  inside : (0 ≤ q.row ∧ q.row < l.rows) ∧ 0 ≤ q.col ∧ q.col < l.cols
  space : passable (l.cell q.row.toNat q.col.toNat) = true
  unmarked : visited q = false

theorem mem_around {q : Position} :
    q ∈ p.around ↔ p.row = q.row ∧ (q.col = p.col - 1 ∨ q.col = p.col + 1) ∨
      p.col = q.col ∧ (q.row = p.row - 1 ∨ q.row = p.row + 1) := by
  obtain ⟨prow, pcol⟩ := p
  obtain ⟨qrow, qcol⟩ := q
  simp only [Position.around, offsets, List.map_cons, List.map_nil, List.mem_cons,
    Position.mk.injEq, List.not_mem_nil, or_false]
  omega

theorem isEmptySpace_iff :
    isEmptySpace l row col = true ↔ ((0 ≤ row ∧ row < l.rows) ∧ 0 ≤ col ∧ col < l.cols) ∧
      passable (l.cell row.toNat col.toNat) = true := by
  unfold isEmptySpace
  split
  next hout => exact iff_of_false Bool.false_ne_true fun h => by omega
  next hin => exact ⟨fun h => ⟨by omega, h⟩, fun h => h.2⟩

/-- The steps of `dfs` are those of the general fill. -/
theorem edge_eq_fillStep (l : Labyrinth) (visited : Visited) :
    Edge Position.around (fun p => isEmptySpace l p.row p.col) visited = FillStep l visited := by
  funext p q
  refine propext ⟨fun h => ?_, fun h => ?_⟩
  · obtain ⟨hnear, hnew, hspace⟩ := h
    obtain ⟨hin, hpass⟩ := isEmptySpace_iff.mp hspace
    exact ⟨mem_around.mp hnear, hin, hpass, hnew⟩
  · exact ⟨mem_around.mpr h.beside, h.unmarked, isEmptySpace_iff.mpr ⟨h.inside, h.space⟩⟩

/-- What a fill that returns has marked. -/
theorem dfs_marks_iff {visited : Visited} (h : dfs l fuel row col visited = some w) (p : Position) :
    w p = true ↔ visited p = true ∨ Relation.TransGen (FillStep l visited) ⟨row, col⟩ p := by
  rw [dfs_eq_flood] at h
  rw [← edge_eq_fillStep]
  exact flood_marks h p

/-- From any start and any marks the fill returns, with any fuel above the
number of cells and the same marks for all of them.  It keeps the marks there
were and adds those of the cells a path leads to. -/
theorem dfs_exact (l : Labyrinth) (row col : Int) (visited : Visited) :
    ∃ w, (∀ fuel, l.rows * l.cols < fuel → dfs l fuel row col visited = some w) ∧
      ∀ p, w p = true ↔
        visited p = true ∨ Relation.TransGen (FillStep l visited) ⟨row, col⟩ p := by
  obtain ⟨w, hw⟩ := dfs_isSome l row col visited
  refine ⟨w, fun fuel hfuel => ?_, dfs_marks_iff hw⟩
  obtain ⟨w', hw'⟩ := dfs_isSome_of_lt hfuel row col visited
  have hsame : w' = w := by
    funext p
    exact Bool.eq_iff_iff.mpr ((dfs_marks_iff hw' p).trans (dfs_marks_iff hw p).symm)
  rw [hw', hsame]

/-! ## The check -/

/-- No empty space without a mark is left. -/
theorem allVisited_iff :
    allVisited l w = true ↔ ∀ b ∈ l.spaces, w (cellPosition b) = true := by
  rw [allVisited, List.all_eq_true]
  constructor
  · rintro h b ⟨hr, hc, hp⟩
    have hb := h b (Labyrinth.mem_grid.mpr ⟨hr, hc⟩)
    rw [isEmptySpace_coe hr hc, hp] at hb
    simpa [cellPosition] using hb
  · intro h b hb
    obtain ⟨hr, hc⟩ := Labyrinth.mem_grid.mp hb
    rw [isEmptySpace_coe hr hc]
    cases hp : passable (l.cell b.1 b.2) with
    | false => rfl
    | true =>
        have hw : w ⟨b.1, b.2⟩ = true := h b ⟨hr, hc, hp⟩
        rw [hw]
        rfl

/-- `isConnected` decides whether the passable cells are connected. -/
theorem isConnected_eq_true : isConnected l = true ↔ Connected l.spaces := by
  rcases findCell_cases l fun row col => isEmptySpace l row col with
    ⟨r, c, hpos, hr, hc, htest⟩ | ⟨hmiss, hnone⟩
  · have hstart : findFirstEmptySpace l = ⟨r, c⟩ := hpos
    have hrc : (r, c) ∈ l.spaces := ⟨hr, hc, (isEmptySpace_coe hr hc).symm.trans htest⟩
    have hfound : ¬ ((r : Int) = -1 ∧ (c : Int) = -1) := by omega
    obtain ⟨w, hw⟩ := dfs_isSome l r c
      (Function.update (fun _ => false) (cellPosition (r, c)) true)
    have hconn : isConnected l = allVisited l w := by
      simp only [isConnected, hstart, if_neg hfound]
      rw [show (⟨r, c⟩ : Position) = cellPosition (r, c) from rfl, hw]
    rw [hconn, allVisited_iff, connected_iff_joined hrc]
    exact forall₂_congr fun b _ => dfs_reaches hrc hw b
  · -- no cell is passable
    have hstart : findFirstEmptySpace l = .missing := hmiss
    have hconn : isConnected l = false := by
      simp only [isConnected, hstart, Position.missing, and_self, if_true]
    rw [hconn]
    refine iff_of_false Bool.false_ne_true ?_
    rintro ⟨⟨a, hr, hc, hp⟩, -⟩
    have hno := hnone a.1 hr a.2 hc
    rw [isEmptySpace_coe hr hc, hp] at hno
    cases hno

/-- The fill stays inside `visited`. -/
theorem dfs_inBounds (hin : l.InBounds) {visited : Visited}
    (h : dfs l fuel row col visited = some w) (hw : w p = true) (hp : visited p = false) :
    (0 ≤ p.row ∧ p.row < maxRows) ∧ 0 ≤ p.col ∧ p.col < maxCols := by
  rw [dfs_eq_flood] at h
  have hspace : isEmptySpace l p.row p.col = true := by
    rcases (flood_marks h p).mp hw with hv | hpath
    · rw [hp] at hv
      cases hv
    · cases hpath with
      | single he => exact he.2.2
      | tail _ he => exact he.2.2
  obtain ⟨hr, hrows, hc, hcols⟩ := isEmptySpace_inGrid hspace
  have hrows_le := hin.rows_le
  have hcols_le := hin.cols_le
  omega

/-- On a map inside the array the fill returns, marks nothing outside of
`visited`, and decides connectivity. -/
theorem isConnected_exact {l : Labyrinth} (hin : l.InBounds) :
    (∀ row col visited, ∃ w, dfs l (l.rows * l.cols + 1) row col visited = some w ∧
      ∀ p, w p = true → visited p = false →
        (0 ≤ p.row ∧ p.row < maxRows) ∧ 0 ≤ p.col ∧ p.col < maxCols) ∧
    (isConnected l = true ↔ Connected l.spaces) := by
  refine ⟨fun row col visited => ?_, isConnected_eq_true⟩
  obtain ⟨w, hw⟩ := dfs_isSome l row col visited
  exact ⟨w, hw, fun p => dfs_inBounds hin hw⟩

/-- A map of two rows, with a wall in one corner. -/
def corner : Labyrinth where
  map := fun i => if i = addr 0 1 then '#'.toUInt8 else if i = addr 0 0 then '1'.toUInt8 else dot
  rows := 2
  cols := 2

theorem isConnected_exact_corner : isConnected corner = true ∧ Connected corner.spaces := by
  have hconn : isConnected corner = true := by decide
  exact ⟨hconn, (isConnected_exact ⟨by decide, by decide⟩).2.mp hconn⟩

end OsCourse.Maze
