import OsCourse.Labyrinth.Game

/-!
# Moves that commute and moves that are taken back

Two laws of `movePlayer` that compare runs.  A player that occurs once is found
where it stands, also on the map that another move has left, so a second call
acts on known cells.

Two moves of different players write to four cells.  When each move also succeeds
after the other, no two of the four share an address, and stores to different
addresses commute (`moves_commute`).  The opposite move goes back to the cell the
player left, which holds a dot since then, and its two stores undo those of the
move (`move_reversed`).
-/

namespace OsCourse.Maze

/-! ## Players that occur once -/

/-- One cell of the grid holds the player. -/
def OccursOnce (l : Labyrinth) (p : UInt8) : Prop :=
  ∃! a : Nat × Nat, a ∈ l.grid ∧ l.cell a.1 a.2 = p

variable {l : Labyrinth} {p : UInt8} {r c r' c' : Nat} {d : String}

theorem occursOnce_of_grid (a : Nat × Nat) (ha : a ∈ l.grid ∧ l.cell a.1 a.2 = p)
    (honly : ∀ b ∈ l.grid, l.cell b.1 b.2 = p → b = a) :
    OccursOnce l p :=
  ⟨a, ha, fun b hb => honly b hb.1 hb.2⟩

/-- The player stands at `(r, c)` and nowhere else. -/
structure StandsAt (l : Labyrinth) (p : UInt8) (r c : Nat) : Prop where
  row_lt : r < l.rows
  col_lt : c < l.cols
  here : l.cell r c = p
  only : ∀ i < l.rows, ∀ j < l.cols, l.cell i j = p → i = r ∧ j = c

theorem OccursOnce.standsAt (h : OccursOnce l p) :
    ∃ r c, StandsAt l p r c := by
  obtain ⟨⟨r, c⟩, ⟨hmem, hcell⟩, honly⟩ := h
  obtain ⟨hr, hc⟩ := Labyrinth.mem_grid.mp hmem
  refine ⟨r, c, hr, hc, hcell, fun i hi j hj hij => ?_⟩
  have heq := honly (i, j) ⟨Labyrinth.mem_grid.mpr ⟨hi, hj⟩, hij⟩
  exact ⟨congrArg Prod.fst heq, congrArg Prod.snd heq⟩

/-- A move starts where the player stands. -/
theorem StandsAt.startPosition (h : StandsAt l p r c) :
    startPosition l p = ⟨r, c⟩ := by
  rcases findCell_cases l fun row col => l.cell row col == p with
    ⟨i, j, hpos, hi, hj, htest⟩ | ⟨-, hnone⟩
  · obtain ⟨rfl, rfl⟩ := h.only i hi j hj (by simpa using htest)
    have hne : ¬ ((i : Int) = -1 ∧ (j : Int) = -1) := by omega
    simp only [Maze.startPosition, findPlayer, hpos, if_neg hne]
  · have hno := hnone r h.row_lt c h.col_lt
    rw [h.here] at hno
    simp at hno

/-- A call that returns `true` makes a move. -/
theorem exists_moves_of_true {fs : FileSystem} {d : Option String}
    (h : (movePlayer fs l p d).ret = .returned true) :
    ∃ dir, d = some dir ∧ ∃ r c r' c', Moves l p dir r c r' c' := by
  cases d with
  | none =>
      unfold movePlayer at h
      dsimp only at h
      split at h
      · cases h
      · cases h
  | some dir =>
      rcases movePlayer_cases fs l p dir with hm | ⟨hret, -⟩
      · exact ⟨dir, rfl, hm⟩
      · rw [hret] at h
        cases h

/-- The move of a player that occurs once. -/
theorem StandsAt.moves {fs : FileSystem} (h : StandsAt l p r c)
    (htrue : (movePlayer fs l p (some d)).ret = .returned true) :
    ∃ r' c', Moves l p d r c r' c' := by
  obtain ⟨dir, hdir, i, j, r', c', hm⟩ := exists_moves_of_true htrue
  obtain rfl := Option.some.inj hdir
  have hstart := hm.start.symm.trans h.startPosition
  simp only [Position.mk.injEq, Nat.cast_inj] at hstart
  obtain ⟨rfl, rfl⟩ := hstart
  exact ⟨r', c', hm⟩

/-! ## Two players -/

/-- Stores to different addresses commute. -/
theorem Labyrinth.store_comm (l : Labyrinth) (b b' : UInt8) (h : addr r c ≠ addr r' c') :
    (l.store r c b).store r' c' b' = (l.store r' c' b').store r c b := by
  simp only [Labyrinth.store]
  rw [Function.update_comm h]

/-- Cells with different characters have different addresses. -/
theorem addr_ne_of_cell_ne (h : l.cell r c ≠ l.cell r' c') :
    addr r c ≠ addr r' c' := fun heq => h (congrArg l.map heq)

/-- Another player's move leaves a player where it stands. -/
theorem Moves.standsAt_other {q : UInt8} {i j : Nat} (h : Moves l p d r c r' c')
    (hp : l.cell r c = p) (hpq : p ≠ q) (hq : q ≠ dot) (hs : StandsAt l q i j) :
    StandsAt ((l.store r c dot).store r' c' p) q i j := by
  have hold : addr i j ≠ addr r c := addr_ne_of_cell_ne (by rw [hs.here, hp]; exact hpq.symm)
  have hnew : addr i j ≠ addr r' c' := addr_ne_of_cell_ne (by rw [hs.here, h.free]; exact hq)
  refine ⟨hs.row_lt, hs.col_lt, ?_, fun i' hi' j' hj' hcell => ?_⟩
  · rw [Labyrinth.store_cell, if_neg hnew, Labyrinth.store_cell, if_neg hold]
    exact hs.here
  · -- neither cell of the move holds `q` now
    rw [Labyrinth.store_cell] at hcell
    split at hcell
    · exact absurd hcell hpq
    · rw [Labyrinth.store_cell] at hcell
      split at hcell
      · exact absurd hcell.symm hq
      · exact hs.only i' hi' j' hj' hcell

/-- A move goes by the offset of its direction. -/
theorem Moves.target_eq {l' : Labyrinth} {r1 c1 r2 c2 : Nat} (h : Moves l p d r c r1 c1)
    (h' : Moves l' p d r c r2 c2) : r1 = r2 ∧ c1 = c2 := by
  have hoff := h.offset.symm.trans h'.offset
  simp only [Option.some.injEq, Prod.mk.injEq] at hoff
  omega

/-- The stores of two moves, in either order. -/
theorem stores_commute {q : UInt8} {i j i' j' : Nat} (h1 : addr r c ≠ addr i j)
    (h2 : addr r c ≠ addr i' j') (h3 : addr r' c' ≠ addr i j) (h4 : addr r' c' ≠ addr i' j') :
    (((l.store r c dot).store r' c' p).store i j dot).store i' j' q =
      (((l.store i j dot).store i' j' q).store r c dot).store r' c' p := by
  rw [Labyrinth.store_comm _ p dot h3, Labyrinth.store_comm _ p q h4,
    Labyrinth.store_comm _ dot dot h1, Labyrinth.store_comm _ dot q h2]

/-- Two players' moves that succeed in both orders lead to one map. -/
theorem moves_commute {fs : FileSystem} {l : Labyrinth} {p q : UInt8} {d e : Option String}
    (hp : isDigit p = true) (hq : isDigit q = true) (hpq : p ≠ q) (hponce : OccursOnce l p)
    (hqonce : OccursOnce l q) :
    let first := movePlayer fs l p d
    let first' := movePlayer fs l q e
    let second := movePlayer first.fs first.lab q e
    let second' := movePlayer first'.fs first'.lab p d
    first.ret = .returned true → second.ret = .returned true → first'.ret = .returned true →
      second'.ret = .returned true → second.lab = second'.lab := by
  intro first first' second second' h1 h2 h1' h2'
  obtain ⟨d, rfl, -⟩ := exists_moves_of_true h1
  obtain ⟨e, rfl, -⟩ := exists_moves_of_true h1'
  obtain ⟨r, c, hps⟩ := hponce.standsAt
  obtain ⟨i, j, hqs⟩ := hqonce.standsAt
  obtain ⟨r', c', hm⟩ := hps.moves h1
  obtain ⟨i', j', hn⟩ := hqs.moves h1'
  have hfirst : first.lab = (l.store r c dot).store r' c' p := (movePlayer_moves fs hm).2.1
  have hfirst' : first'.lab = (l.store i j dot).store i' j' q := (movePlayer_moves fs hn).2.1
  have hqs' := hm.standsAt_other hps.here hpq (ne_dot_of_isDigit hq) hqs
  have hps' := hn.standsAt_other hqs.here hpq.symm (ne_dot_of_isDigit hp) hps
  rw [← hfirst] at hqs'
  rw [← hfirst'] at hps'
  -- the second calls make the same moves as the first ones
  obtain ⟨i2, j2, hn'⟩ := hqs'.moves h2
  obtain ⟨r2, c2, hm'⟩ := hps'.moves h2'
  obtain ⟨rfl, rfl⟩ := hn.target_eq hn'
  obtain ⟨rfl, rfl⟩ := hm.target_eq hm'
  have hnew : addr r' c' ≠ addr i' j' := by
    intro heq
    have hfree := hn'.free
    rw [hfirst, Labyrinth.store_cell, if_pos heq.symm] at hfree
    exact ne_dot_of_isDigit hp hfree
  have hsecond : second.lab = _ := (movePlayer_moves first.fs hn').2.1
  have hsecond' : second'.lab = _ := (movePlayer_moves first'.fs hm').2.1
  rw [hsecond, hsecond', hfirst, hfirst']
  refine stores_commute ?_ ?_ ?_ hnew
  · exact addr_ne_of_cell_ne (by rw [hps.here, hqs.here]; exact hpq)
  · exact addr_ne_of_cell_ne (by rw [hps.here, hn.free]; exact ne_dot_of_isDigit hp)
  · exact addr_ne_of_cell_ne (by rw [hm.free, hqs.here]; exact (ne_dot_of_isDigit hq).symm)

/-- Two players with two free cells between them. -/
def corridor : Labyrinth := oneRow ['1', '.', '.', '2']

theorem corridor_once : OccursOnce corridor '1'.toUInt8 ∧ OccursOnce corridor '2'.toUInt8 :=
  ⟨occursOnce_of_grid (0, 0) (by decide) (by decide),
    occursOnce_of_grid (0, 3) (by decide) (by decide)⟩

theorem moves_commute_corridor :
    let first := movePlayer noFiles corridor '1'.toUInt8 (some "right")
    let first' := movePlayer noFiles corridor '2'.toUInt8 (some "left")
    (movePlayer first.fs first.lab '2'.toUInt8 (some "left")).lab =
      (movePlayer first'.fs first'.lab '1'.toUInt8 (some "right")).lab :=
  moves_commute (by decide) (by decide) (by decide) corridor_once.1 corridor_once.2
    (by decide) (by decide) (by decide) (by decide)

/-! ## Back again -/

/-- The opposite direction. -/
def opposite (direction : String) : String :=
  if direction = "up" then "down"
  else if direction = "down" then "up"
  else if direction = "left" then "right"
  else if direction = "right" then "left"
  else direction

theorem directionOffset_opposite {dr dc : Int} (h : directionOffset d = some (dr, dc)) :
    directionOffset (opposite d) = some (-dr, -dc) := by
  unfold directionOffset at h
  split at h
  next hd => cases h; subst hd; decide
  next =>
    split at h
    next hd => cases h; subst hd; decide
    next =>
      split at h
      next hd => cases h; subst hd; decide
      next =>
        split at h
        next hd => cases h; subst hd; decide
        next => cases h

/-- The player stands where it has moved to. -/
theorem Moves.standsAt_new (hin : l.InBounds) (h : Moves l p d r c r' c') (hp : p ≠ dot)
    (hs : StandsAt l p r c) :
    StandsAt ((l.store r c dot).store r' c' p) p r' c' := by
  refine ⟨h.row_lt, h.col_lt, by rw [Labyrinth.store_cell, if_pos rfl], fun i hi j hj hcell => ?_⟩
  rw [h.cell hin hj] at hcell
  split at hcell
  next hij => exact hij
  next =>
    split at hcell
    next => exact absurd hcell.symm hp
    next hij => exact absurd (hs.only i hi j hj hcell) hij

/-- The move back. -/
theorem Moves.back (hin : l.InBounds) (h : Moves l p d r c r' c') (hp : p ≠ dot)
    (hs : StandsAt l p r c) :
    Moves ((l.store r c dot).store r' c' p) p (opposite d) r' c' r c where
  start := (h.standsAt_new hin hp hs).startPosition
  offset := by
    rw [directionOffset_opposite h.offset]
    simp
  row_lt := hs.row_lt
  col_lt := hs.col_lt
  free := by rw [Labyrinth.store_cell, if_neg h.addr_ne.symm, Labyrinth.store_cell, if_pos rfl]

/-- The stores of a move and of the move back. -/
theorem Moves.store_back (h : Moves l p d r c r' c') (hp : l.cell r c = p) :
    ((((l.store r c dot).store r' c' p).store r' c' dot).store r c p) = l := by
  have hmap : (((l.store r c dot).store r' c' p).store r' c' dot).store r c p =
      { l with map := ((((l.store r c dot).store r' c' p).store r' c' dot).store r c p).map } := rfl
  rw [hmap]
  congr 1
  funext i
  simp only [Labyrinth.store_map]
  split
  next hi => rw [hi]; exact hp.symm
  next =>
    split
    next hi => rw [hi]; exact h.free.symm
    next => rfl

/-- A move can be taken back. -/
theorem move_reversed {fs : FileSystem} {l : Labyrinth} {p : UInt8} {d : String} (hin : l.InBounds)
    (hp : isDigit p = true) (honce : OccursOnce l p)
    (hmove : (movePlayer fs l p (some d)).ret = .returned true) :
    let moved := movePlayer fs l p (some d)
    let back := movePlayer moved.fs moved.lab p (some (opposite d))
    back.ret = .returned true ∧ back.lab = l := by
  intro moved back
  obtain ⟨r, c, hs⟩ := honce.standsAt
  obtain ⟨r', c', hm⟩ := hs.moves hmove
  have hlab : moved.lab = (l.store r c dot).store r' c' p := (movePlayer_moves fs hm).2.1
  have hback := hm.back hin (ne_dot_of_isDigit hp) hs
  rw [← hlab] at hback
  obtain ⟨hret, hresult, -⟩ := movePlayer_moves moved.fs hback
  refine ⟨hret, hresult.trans ?_⟩
  rw [hlab]
  exact hm.store_back hs.here

theorem move_reversed_corridor :
    let moved := movePlayer noFiles corridor '1'.toUInt8 (some "right")
    moved.lab.cell 0 1 = '1'.toUInt8 ∧
      (movePlayer moved.fs moved.lab '1'.toUInt8 (some "left")).lab = corridor :=
  ⟨by decide, (move_reversed (d := "right") ⟨by decide, by decide⟩ (by decide) corridor_once.1
    (by decide)).2⟩

end OsCourse.Maze
