import OsCourse.Labyrinth.File

/-!
# Moving a player

`movePlayer` and what one call, or any number of calls, can do to a map.

A call changes a map only by `moveTo`: the cell the player leaves becomes `'.'`
and the cell it enters, which was `'.'`, becomes the player (`movePlayer_cases`).
Both cells are passable before and after.  `SameWalls` says just that of two
maps, and it is what every call keeps.

A player that is not on the map starts from `findFirstEmptySpace`.  That search
uses `isEmptySpace`, which takes a digit for an empty space, so the start may be
the cell of another player, and the call erases it.  `Displaces` is exactly this
case.
-/

namespace OsCourse.Maze

/-! ## `movePlayer` -/

/-- How a call ends: it returns, or it hands a null pointer to `strcmp`. -/
inductive Ret where
  | returned (value : Bool)
  | nullPointer
deriving DecidableEq, Repr

/-- What a call of `movePlayer` leaves behind. -/
structure Moved where
  ret : Ret
  lab : Labyrinth
  fs : FileSystem
  /-- What the call prints on `stderr`. -/
  err : String

/-- The path `movePlayer` saves to. -/
def savePath : String := "maps/map.txt"

/-- The offsets of a direction, `none` for a string that names none. -/
def directionOffset (direction : String) : Option (Int × Int) :=
  if direction = "up" then some (-1, 0)
  else if direction = "down" then some (1, 0)
  else if direction = "left" then some (0, -1)
  else if direction = "right" then some (0, 1)
  else none

/-- Where a move starts: at the player, or at the first empty space. -/
def startPosition (l : Labyrinth) (playerId : UInt8) : Position :=
  let playerPos := findPlayer l playerId
  if playerPos.row = -1 ∧ playerPos.col = -1 then findFirstEmptySpace l else playerPos

/-- The two stores of `movePlayer`. -/
def moveTo (l : Labyrinth) (playerId : UInt8) (pos new : Position) : Labyrinth :=
  (l.store pos.row.toNat pos.col.toNat dot).store new.row.toNat new.col.toNat playerId

/-- `movePlayer`.  A direction of `none` is the null pointer. -/
def movePlayer (fs : FileSystem) (l : Labyrinth) (playerId : UInt8) (direction : Option String) :
    Moved :=
  let playerPos := startPosition l playerId
  if playerPos.row = -1 ∧ playerPos.col = -1 then
    ⟨.returned false, l, fs, s!"No empty space found for player {Char.ofUInt8 playerId}\n"⟩
  else
    match direction with
    | none => ⟨.nullPointer, l, fs, ""⟩
    | some direction =>
        match directionOffset direction with
        | none => ⟨.returned false, l, fs, s!"Invalid direction: {direction}\n"⟩
        | some (rowOffset, colOffset) =>
            let newRow := playerPos.row + rowOffset
            let newCol := playerPos.col + colOffset
            if newRow < 0 ∨ newRow ≥ l.rows ∨ newCol < 0 ∨ newCol ≥ l.cols then
              ⟨.returned false, l, fs, s!"Move out of bounds: ({newRow}, {newCol})\n"⟩
            else if isEmptySpace l newRow newCol = false ∨
                isDigit (l.cell newRow.toNat newCol.toNat) = true then
              ⟨.returned false, l, fs,
                s!"Cannot move to ouccupied space: ({newRow}, {newCol})\n"⟩
            else
              let l := moveTo l playerId playerPos ⟨newRow, newCol⟩
              let saved := saveMap fs l savePath
              ⟨.returned true, l, saved.2, saved.1.getD ""⟩

/-! ## When a call moves -/

/-- A call for `p` in direction `d` moves from `(r, c)` to `(r', c')`. -/
structure Moves (l : Labyrinth) (p : UInt8) (d : String) (r c r' c' : Nat) : Prop where
  start : startPosition l p = ⟨r, c⟩
  offset : directionOffset d = some ((r' : Int) - r, (c' : Int) - c)
  row_lt : r' < l.rows
  col_lt : c' < l.cols
  free : l.cell r' c' = dot

variable {l l' : Labyrinth} {p : UInt8} {d : String} {r c r' c' : Nat}

/-- The move the call makes, when there is one. -/
theorem movePlayer_moves (fs : FileSystem) (h : Moves l p d r c r' c') :
    (movePlayer fs l p (some d)).ret = .returned true ∧
    (movePlayer fs l p (some d)).lab = (l.store r c dot).store r' c' p ∧
    (movePlayer fs l p (some d)).fs
      = (saveMap fs ((l.store r c dot).store r' c' p) savePath).2 := by
  have hrow : (r : Int) + (r' - r) = r' := by omega
  have hcol : (c : Int) + (c' - c) = c' := by omega
  have hmiss : ¬ ((r : Int) = -1 ∧ (c : Int) = -1) := by omega
  have hin : ¬ ((r' : Int) < 0 ∨ (r' : Int) ≥ l.rows ∨ (c' : Int) < 0 ∨ (c' : Int) ≥ l.cols) := by
    have := h.row_lt
    have := h.col_lt
    omega
  have hempty : ¬ (isEmptySpace l r' c' = false ∨ isDigit (l.cell r' c') = true) := by
    rw [isEmptySpace_coe h.row_lt h.col_lt, h.free]
    decide
  unfold movePlayer
  simp only [h.start, if_neg hmiss, h.offset, hrow, hcol, if_neg hin, Int.toNat_natCast,
    if_neg hempty, moveTo, and_self]

/-- A start that is not `{-1, -1}` lies in the grid on a passable cell.  It is
the player's cell, or the player is nowhere and it is the first empty space. -/
theorem startPosition_cases (l : Labyrinth) (p : UInt8) :
    startPosition l p = .missing ∨
    ∃ r c : Nat, startPosition l p = ⟨r, c⟩ ∧ r < l.rows ∧ c < l.cols ∧
      (l.cell r c = p ∨
        findPlayer l p = .missing ∧ findFirstEmptySpace l = ⟨r, c⟩ ∧
          passable (l.cell r c) = true) := by
  rcases findCell_cases l fun row col => l.cell row col == p with
    ⟨r, c, hpos, hr, hc, htest⟩ | ⟨hmiss, _⟩
  · have hfound : startPosition l p = ⟨r, c⟩ := by
      have hne : ¬ ((r : Int) = -1 ∧ (c : Int) = -1) := by omega
      simp only [startPosition, findPlayer, hpos, if_neg hne]
    exact Or.inr ⟨r, c, hfound, hr, hc, Or.inl (by simpa using htest)⟩
  · have hfirst : startPosition l p = findFirstEmptySpace l := by
      simp only [startPosition, findPlayer, hmiss, Position.missing, and_self, if_true]
    rcases findCell_cases l fun row col => isEmptySpace l row col with
      ⟨r, c, hpos, hr, hc, htest⟩ | ⟨hnone, _⟩
    · rw [isEmptySpace_coe hr hc] at htest
      exact Or.inr ⟨r, c, hfirst.trans hpos, hr, hc, Or.inr ⟨hmiss, hpos, htest⟩⟩
    · exact Or.inl (hfirst.trans hnone)

/-- A call that makes no move returns `false` and changes nothing. -/
theorem movePlayer_stays (fs : FileSystem) (h : ∀ r c r' c', ¬ Moves l p d r c r' c') :
    (movePlayer fs l p (some d)).ret = .returned false ∧
    (movePlayer fs l p (some d)).lab = l ∧ (movePlayer fs l p (some d)).fs = fs := by
  rcases startPosition_cases l p with hmiss | ⟨r, c, hstart, _, _, _⟩
  · unfold movePlayer
    simp only [hmiss, Position.missing, and_self, if_true]
  · have hne : ¬ ((r : Int) = -1 ∧ (c : Int) = -1) := by omega
    unfold movePlayer
    simp only [hstart, if_neg hne]
    cases hoff : directionOffset d with
    | none => simp only [and_self]
    | some off =>
        obtain ⟨dr, dc⟩ := off
        simp only
        split
        · simp only [and_self]
        next hin =>
          split
          · simp only [and_self]
          next hempty =>
            -- all four tests passed, so this is a move after all
            exfalso
            obtain ⟨r', hr'⟩ : ∃ r' : Nat, (r : Int) + dr = r' := ⟨(r + dr).toNat, by omega⟩
            obtain ⟨c', hc'⟩ : ∃ c' : Nat, (c : Int) + dc = c' := ⟨(c + dc).toNat, by omega⟩
            have hrow : r' < l.rows := by omega
            have hcol : c' < l.cols := by omega
            rw [hr', hc', isEmptySpace_coe hrow hcol,
              Int.toNat_natCast, Int.toNat_natCast] at hempty
            refine h r c r' c' ⟨hstart, ?_, hrow, hcol, ?_⟩
            · rw [hoff]
              congr 2 <;> omega
            · simp only [not_or, Bool.not_eq_false, Bool.not_eq_true, passable] at hempty
              simpa [hempty.2] using hempty.1

/-- Either a call moves or it leaves everything as it was. -/
theorem movePlayer_cases (fs : FileSystem) (l : Labyrinth) (p : UInt8) (d : String) :
    (∃ r c r' c', Moves l p d r c r' c') ∨
    ((movePlayer fs l p (some d)).ret = .returned false ∧
      (movePlayer fs l p (some d)).lab = l ∧ (movePlayer fs l p (some d)).fs = fs) := by
  by_cases h : ∃ r c r' c', Moves l p d r c r' c'
  · exact Or.inl h
  · refine Or.inr (movePlayer_stays fs fun r c r' c' hm => h ⟨r, c, r', c', hm⟩)

/-- The start of a move. -/
theorem Moves.start_cases (h : Moves l p d r c r' c') :
    r < l.rows ∧ c < l.cols ∧
      (l.cell r c = p ∨
        findPlayer l p = .missing ∧ findFirstEmptySpace l = ⟨r, c⟩ ∧
          passable (l.cell r c) = true) := by
  rcases startPosition_cases l p with hmiss | ⟨r0, c0, hstart, hr, hc, hcell⟩
  · exact absurd (h.start.symm.trans hmiss) (Position.coe_ne_missing r c)
  · have heq := h.start.symm.trans hstart
    simp only [Position.mk.injEq, Nat.cast_inj] at heq
    obtain ⟨rfl, rfl⟩ := heq
    exact ⟨hr, hc, hcell⟩

/-- A move goes to another cell. -/
theorem Moves.addr_ne (h : Moves l p d r c r' c') : addr r' c' ≠ addr r c := by
  have hoff := h.offset
  unfold directionOffset at hoff
  simp only [addr, maxCols]
  split_ifs at hoff
  all_goals
    simp only [Option.some.injEq, Prod.mk.injEq] at hoff
    omega

/-! ## What a move keeps -/

/-- The second map differs from the first only where both are passable. -/
structure SameWalls (l l' : Labyrinth) : Prop where
  rows : l'.rows = l.rows
  cols : l'.cols = l.cols
  bytes : ∀ i, l'.map i = l.map i ∨ passable (l.map i) = true ∧ passable (l'.map i) = true

theorem SameWalls.refl (l : Labyrinth) : SameWalls l l := ⟨rfl, rfl, fun _ => Or.inl rfl⟩

theorem SameWalls.trans {l1 l2 l3 : Labyrinth} (h1 : SameWalls l1 l2) (h2 : SameWalls l2 l3) :
    SameWalls l1 l3 := by
  refine ⟨h2.rows.trans h1.rows, h2.cols.trans h1.cols, fun i => ?_⟩
  rcases h1.bytes i with e1 | ⟨p1, p2⟩ <;> rcases h2.bytes i with e2 | ⟨p3, p4⟩
  · exact Or.inl (e2.trans e1)
  · exact Or.inr ⟨e1 ▸ p3, p4⟩
  · exact Or.inr ⟨p1, e2 ▸ p2⟩
  · exact Or.inr ⟨p1, p4⟩

theorem SameWalls.passable_eq (h : SameWalls l l') (i : Nat) :
    passable (l'.map i) = passable (l.map i) := by
  rcases h.bytes i with e | ⟨p1, p2⟩
  · rw [e]
  · rw [p1, p2]

theorem SameWalls.sameSpaces (h : SameWalls l l') : SameSpaces l' l :=
  ⟨h.rows, h.cols, fun r _ c _ => h.passable_eq (addr r c)⟩

/-- A passable character is no terminator and no newline. -/
theorem passable_ne {b : UInt8} (h : passable b = true) : b ≠ 0 ∧ b ≠ newline := by
  constructor
  · rintro rfl; exact absurd h (by decide)
  · rintro rfl; exact absurd h (by decide)

theorem SameWalls.eq_zero_iff (h : SameWalls l l') (i : Nat) :
    l'.map i = 0 ↔ l.map i = 0 := by
  rcases h.bytes i with e | ⟨p1, p2⟩
  · rw [e]
  · exact iff_of_false (passable_ne p2).1 (passable_ne p1).1

theorem SameWalls.rowsEnd (h : SameWalls l l') : l'.RowsEnd ↔ l.RowsEnd := by
  simp only [Labyrinth.RowsEnd, Labyrinth.cell, h.rows, h.eq_zero_iff]

theorem SameWalls.cleanRows (h : SameWalls l l') (hc : l.CleanRows) :
    l'.CleanRows := by
  constructor
  · intro r hr c hcol
    rw [h.rows] at hr
    rcases h.bytes (addr r c) with e | ⟨_, p2⟩
    · rw [Labyrinth.cell, e]; exact hc.newline r hr c hcol
    · exact (passable_ne p2).2
  · intro r hr c hcol hz d hcd hd
    rw [h.rows] at hr
    rw [Labyrinth.cell, h.eq_zero_iff] at hz ⊢
    exact hc.zeros r hr c hcol hz d hcd hd

/-- A C string keeps its length when only passable bytes change. -/
theorem length_cstr_map_congr {f g : Nat → UInt8} (h : ∀ i, f i = 0 ↔ g i = 0) :
    ∀ is : List Nat, (cstr (is.map f)).length = (cstr (is.map g)).length
  | [] => rfl
  | i :: is => by
      have ih := length_cstr_map_congr h is
      unfold cstr at ih ⊢
      by_cases hi : f i = 0
      · simp [hi, (h i).mp hi]
      · have hg : g i ≠ 0 := fun hg => hi ((h i).mpr hg)
        simpa [hi, hg] using ih

/-- A map that was loaded and moved about is like one that was loaded. -/
theorem SameWalls.loaded (h : SameWalls l l') (hl : Loaded l) : Loaded l' where
  rows_le := h.rows ▸ hl.rows_le
  clean := h.cleanRows hl.clean
  cols := by
    rw [h.cols, hl.cols, stringAt, stringAt]
    exact (length_cstr_map_congr h.eq_zero_iff _).symm
  connected := by rw [isConnected_congr h.sameSpaces]; exact hl.connected

theorem Moves.sameWalls (h : Moves l p d r c r' c') (hp : isDigit p = true) :
    SameWalls l ((l.store r c dot).store r' c' p) := by
  refine ⟨rfl, rfl, fun i => ?_⟩
  rw [Labyrinth.store_map, Labyrinth.store_map]
  split
  next hi =>
    refine Or.inr ⟨?_, passable_of_isDigit hp⟩
    have hfree : l.map i = dot := by rw [hi]; exact h.free
    rw [hfree]
    exact passable_dot
  next =>
    split
    next hi =>
      refine Or.inr ⟨?_, passable_dot⟩
      rw [hi]
      rcases h.start_cases.2.2 with hcell | ⟨_, _, hpass⟩
      · have hcell' : l.map (addr r c) = p := hcell
        rw [hcell']
        exact passable_of_isDigit hp
      · exact hpass
    next => exact Or.inl rfl

/-- One call keeps the walls. -/
theorem movePlayer_sameWalls (fs : FileSystem) (l : Labyrinth) (d : String)
    (hp : isDigit p = true) : SameWalls l (movePlayer fs l p (some d)).lab := by
  rcases movePlayer_cases fs l p d with ⟨r, c, r', c', hm⟩ | ⟨_, hlab, _⟩
  · rw [(movePlayer_moves fs hm).2.1]
    exact hm.sameWalls hp
  · rw [hlab]
    exact .refl l

/-! ## Runs -/

/-- The map and the files after one call. -/
def play (s : Labyrinth × FileSystem) (call : UInt8 × String) : Labyrinth × FileSystem :=
  let m := movePlayer s.2 s.1 call.1 (some call.2)
  (m.lab, m.fs)

/-- The map and the files after a sequence of calls in one process. -/
def playAll (s : Labyrinth × FileSystem) (calls : List (UInt8 × String)) :
    Labyrinth × FileSystem :=
  calls.foldl play s

@[simp] theorem playAll_cons (s : Labyrinth × FileSystem) (call : UInt8 × String)
    (calls : List (UInt8 × String)) : playAll s (call :: calls) = playAll (play s call) calls := rfl

theorem playAll_append (s : Labyrinth × FileSystem) (pre post : List (UInt8 × String)) :
    playAll s (pre ++ post) = playAll (playAll s pre) post := by
  rw [playAll, playAll, playAll, List.foldl_append]

/-- What one call keeps, every run keeps. -/
theorem playAll_induct {P : Labyrinth → Prop}
    (step : ∀ l fs p d, isDigit p = true → P l → P (movePlayer fs l p (some d)).lab) :
    ∀ (calls : List (UInt8 × String)) (s : Labyrinth × FileSystem),
      (∀ call ∈ calls, isDigit call.1 = true) → P s.1 → P (playAll s calls).1
  | [], _, _, h => h
  | call :: calls, s, hd, h => by
      rw [playAll_cons]
      refine playAll_induct step calls _ (fun c hc => hd c (List.mem_cons_of_mem _ hc)) ?_
      exact step s.1 s.2 call.1 call.2 (hd call (List.mem_cons_self ..)) h

/-- No run moves a wall. -/
theorem playAll_sameWalls (calls : List (UInt8 × String)) (s : Labyrinth × FileSystem)
    (hd : ∀ call ∈ calls, isDigit call.1 = true) : SameWalls s.1 (playAll s calls).1 :=
  playAll_induct (P := SameWalls s.1)
    (fun l fs _ d hp h => h.trans (movePlayer_sameWalls fs l d hp)) calls s hd (.refl _)

end OsCourse.Maze
