import OsCourse.Labyrinth.Move

/-!
# Whole games

What any sequence of `movePlayer` calls does to a map.

Some things always hold: the walls stay, no digit is doubled, and a call that
fails changes nothing.  A digit is doubled only if the
player that moves is found in one cell and stands in another, so one call keeps
`DigitsOnce` (`Moves.digitsOnce`) and a run does by induction.

A player can vanish, though: another player's cell is overwritten exactly by a
call that `Displaces` it, and in a run without such a call every player stays on
the map.
-/

namespace OsCourse.Maze

/-! ## No digit twice -/

/-- No two cells of the grid hold the same digit. -/
def DigitsOnce (l : Labyrinth) : Prop :=
  ∀ r < l.rows, ∀ c < l.cols, ∀ r' < l.rows, ∀ c' < l.cols,
    isDigit (l.cell r c) = true → l.cell r c = l.cell r' c' → r = r' ∧ c = c'

theorem digitsOnce_iff_grid (l : Labyrinth) :
    (∀ a ∈ l.grid, ∀ b ∈ l.grid, isDigit (l.cell a.1 a.2) = true →
      l.cell a.1 a.2 = l.cell b.1 b.2 → a.1 = b.1 ∧ a.2 = b.2) ↔ DigitsOnce l := by
  constructor
  · intro h r hr c hc r' hr' c' hc'
    exact h (r, c) (Labyrinth.mem_grid.mpr ⟨hr, hc⟩) (r', c') (Labyrinth.mem_grid.mpr ⟨hr', hc'⟩)
  · intro h a ha b hb
    obtain ⟨ha1, ha2⟩ := Labyrinth.mem_grid.mp ha
    obtain ⟨hb1, hb2⟩ := Labyrinth.mem_grid.mp hb
    exact h a.1 ha1 a.2 ha2 b.1 hb1 b.2 hb2

instance (l : Labyrinth) : Decidable (DigitsOnce l) := decidable_of_iff _ (digitsOnce_iff_grid l)

variable {l : Labyrinth} {p q : UInt8} {d : String} {r c r' c' i j : Nat}

/-- The cells of a map after a move. -/
theorem Moves.cell (hin : l.InBounds) (h : Moves l p d r c r' c') (hj : j < l.cols) :
    ((l.store r c dot).store r' c' p).cell i j
      = if i = r' ∧ j = c' then p else if i = r ∧ j = c then dot else l.cell i j := by
  have hcols := hin.cols_le
  have hc := h.start_cases.2.1
  have hc' := h.col_lt
  rw [Labyrinth.store_cell, Labyrinth.store_cell]
  simp only [addr_inj (show j < maxCols by omega) (show c' < maxCols by omega),
    addr_inj (show j < maxCols by omega) (show c < maxCols by omega)]

/-- A player that is nowhere is in no cell. -/
theorem cell_ne_of_missing (h : findPlayer l p = .missing) (hr : r < l.rows) (hc : c < l.cols) :
    l.cell r c ≠ p := by
  rcases findCell_cases l fun row col => l.cell row col == p with ⟨r0, c0, hpos, _⟩ | ⟨_, hnone⟩
  · exact absurd (hpos.symm.trans h) (Position.coe_ne_missing r0 c0)
  · simpa using hnone r hr c hc

/-- The player that moves was in the cell it leaves, or nowhere. -/
theorem Moves.unique_start (h : Moves l p d r c r' c') (hp : isDigit p = true)
    (honce : DigitsOnce l) (hi : i < l.rows) (hj : j < l.cols) (hcell : l.cell i j = p) :
    i = r ∧ j = c := by
  obtain ⟨hr, hc, hstart⟩ := h.start_cases
  rcases hstart with hs | ⟨hmiss, _, _⟩
  · exact honce i hi j hj r hr c hc (hcell ▸ hp) (hcell.trans hs.symm)
  · exact absurd hcell (cell_ne_of_missing hmiss hi hj)

theorem Moves.digitsOnce (hin : l.InBounds) (h : Moves l p d r c r' c') (hp : isDigit p = true)
    (honce : DigitsOnce l) : DigitsOnce ((l.store r c dot).store r' c' p) := by
  intro i hi j hj i' hi' j' hj' hdig heq
  simp only [Labyrinth.store_rows, Labyrinth.store_cols] at hi hj hi' hj'
  rw [h.cell hin hj] at hdig heq
  rw [h.cell hin hj'] at heq
  by_cases h1 : i = r' ∧ j = c'
  · by_cases h2 : i' = r' ∧ j' = c'
    · omega
    · -- the player stands at the new cell only
      rw [if_pos h1, if_neg h2] at heq
      by_cases h3 : i' = r ∧ j' = c
      · rw [if_pos h3] at heq
        exact absurd heq (ne_dot_of_isDigit hp)
      · rw [if_neg h3] at heq
        exact absurd (h.unique_start hp honce hi' hj' heq.symm) h3
  · rw [if_neg h1] at hdig heq
    by_cases h3 : i = r ∧ j = c
    · rw [if_pos h3, isDigit_dot] at hdig
      cases hdig
    · rw [if_neg h3] at hdig heq
      by_cases h2 : i' = r' ∧ j' = c'
      · rw [if_pos h2] at heq
        exact absurd (h.unique_start hp honce hi hj heq) h3
      · rw [if_neg h2] at heq
        by_cases h4 : i' = r ∧ j' = c
        · rw [if_pos h4] at heq
          exact absurd heq (ne_dot_of_isDigit hdig)
        · rw [if_neg h4] at heq
          exact honce i hi j hj i' hi' j' hj' hdig heq

/-- One call doubles no digit. -/
theorem movePlayer_digitsOnce (hin : l.InBounds) (fs : FileSystem) (d : String)
    (hp : isDigit p = true) (honce : DigitsOnce l) :
    DigitsOnce (movePlayer fs l p (some d)).lab := by
  rcases movePlayer_cases fs l p d with ⟨r, c, r', c', hm⟩ | ⟨_, hlab, _⟩
  · rw [(movePlayer_moves fs hm).2.1]
    exact hm.digitsOnce hin hp honce
  · rw [hlab]
    exact honce

/-- A call that returns `false` leaves the map as it was. -/
theorem movePlayer_false {fs : FileSystem}
    (h : (movePlayer fs l p (some d)).ret = .returned false) :
    (movePlayer fs l p (some d)).lab = l := by
  rcases movePlayer_cases fs l p d with ⟨r, c, r', c', hm⟩ | ⟨_, hlab, _⟩
  · rw [(movePlayer_moves fs hm).1] at h
    cases h
  · exact hlab

/-- No run doubles a digit. -/
theorem playAll_digitsOnce (calls : List (UInt8 × String)) (s : Labyrinth × FileSystem)
    (hd : ∀ call ∈ calls, isDigit call.1 = true) (hin : s.1.InBounds) (honce : DigitsOnce s.1) :
    DigitsOnce (playAll s calls).1 := by
  have h : (playAll s calls).1.InBounds ∧ DigitsOnce (playAll s calls).1 := by
    refine playAll_induct (P := fun l => l.InBounds ∧ DigitsOnce l) ?_ calls s hd ⟨hin, honce⟩
    intro l fs p d hp ⟨hb, ho⟩
    have hw := movePlayer_sameWalls fs l d hp
    exact ⟨⟨hw.rows ▸ hb.rows_le, hw.cols ▸ hb.cols_le⟩, movePlayer_digitsOnce hb fs d hp ho⟩
  exact h.2

/-- The map after any game on a connected map without doubled digits. -/
theorem game_keeps_map {l : Labyrinth} (hin : l.InBounds) (hconn : isConnected l = true)
    (honce : DigitsOnce l) (fs : FileSystem) (calls : List (UInt8 × String))
    (hd : ∀ call ∈ calls, isDigit call.1 = true) :
    let l' := (playAll (l, fs) calls).1
    (l'.rows = l.rows ∧ l'.cols = l.cols) ∧
    (∀ r < l.rows, ∀ c < l.cols, passable (l'.cell r c) = passable (l.cell r c)) ∧
    (∀ r < l.rows, ∀ c < l.cols, passable (l.cell r c) = false → l'.cell r c = l.cell r c) ∧
    isConnected l' = true ∧
    DigitsOnce l' ∧
    (∀ pre p d post, calls = pre ++ (p, d) :: post →
      (movePlayer (playAll (l, fs) pre).2 (playAll (l, fs) pre).1 p (some d)).ret
        = .returned false →
      (movePlayer (playAll (l, fs) pre).2 (playAll (l, fs) pre).1 p (some d)).lab
        = (playAll (l, fs) pre).1) := by
  intro l'
  have hw : SameWalls l l' := playAll_sameWalls calls (l, fs) hd
  refine ⟨⟨hw.rows, hw.cols⟩, fun r _ c _ => hw.passable_eq _, ?_, ?_, ?_, ?_⟩
  · intro r _ c _ hwall
    rcases hw.bytes (addr r c) with e | ⟨p1, _⟩
    · exact e
    · have : passable (l.cell r c) = true := p1
      rw [hwall] at this
      cases this
  · rw [isConnected_congr hw.sameSpaces]
    exact hconn
  · exact playAll_digitsOnce calls (l, fs) hd hin honce
  · intro pre p d post _ hret
    exact movePlayer_false hret

/-- A map of one row. -/
def oneRow (text : List Char) : Labyrinth where
  map := fun i => (text.getD i '\x00').toUInt8
  rows := 1
  cols := text.length

/-- Files that can all be written. -/
def noFiles : FileSystem where
  file := fun path => path.length
  content := fun _ => none
  writing := fun _ => .done

theorem game_keeps_map_corridor :
    (playAll (oneRow ['#', '1', '.', '.'], noFiles)
      [('1'.toUInt8, "right"), ('2'.toUInt8, "up")]).1.cell 0 2
      = '1'.toUInt8 ∧
    isConnected (playAll (oneRow ['#', '1', '.', '.'], noFiles)
      [('1'.toUInt8, "right"), ('2'.toUInt8, "up")]).1 = true :=
  ⟨by decide,
    (game_keeps_map (l := oneRow ['#', '1', '.', '.'])
      ⟨by decide, by decide⟩ (by decide) (by decide)
      noFiles [('1'.toUInt8, "right"), ('2'.toUInt8, "up")] (by decide)).2.2.2.1⟩

/-! ## Other players -/

/-- The call leaves every cell with another player's digit as it is. -/
def KeepsOthers (fs : FileSystem) (l : Labyrinth) (p : UInt8) (d : String) : Prop :=
  ∀ r < l.rows, ∀ c < l.cols, isDigit (l.cell r c) = true → l.cell r c ≠ p →
    (movePlayer fs l p (some d)).lab.cell r c = l.cell r c

/-- The player is on the map. -/
def OnMap (l : Labyrinth) (q : UInt8) : Prop := ∃ r < l.rows, ∃ c < l.cols, l.cell r c = q

/-- The player is not on the map, the first passable cell holds a digit, and the
cell next to it in the direction of the call is free. -/
structure Displaces (l : Labyrinth) (p : UInt8) (d : String) (r c r' c' : Nat) : Prop where
  absent : findPlayer l p = .missing
  first : findFirstEmptySpace l = ⟨r, c⟩
  occupied : isDigit (l.cell r c) = true
  offset : directionOffset d = some ((r' : Int) - r, (c' : Int) - c)
  row_lt : r' < l.rows
  col_lt : c' < l.cols
  free : l.cell r' c' = dot

theorem Displaces.moves (h : Displaces l p d r c r' c') : Moves l p d r c r' c' where
  start := by
    simp only [startPosition, h.absent, Position.missing, and_self, if_true]
    exact h.first
  offset := h.offset
  row_lt := h.row_lt
  col_lt := h.col_lt
  free := h.free

/-- A move erases no other player unless it displaces one. -/
theorem Moves.keeps_cell (h : Moves l p d r c r' c') (hno : ¬ Displaces l p d r c r' c')
    (hq : isDigit q = true) (hqp : q ≠ p) (hcell : l.cell i j = q) :
    ((l.store r c dot).store r' c' p).cell i j = q := by
  have hnew : addr i j ≠ addr r' c' := by
    intro he
    have hdot : l.cell i j = dot := by rw [Labyrinth.cell, he]; exact h.free
    exact ne_dot_of_isDigit hq (hcell.symm.trans hdot)
  have hold : addr i j ≠ addr r c := by
    intro he
    have hrc : l.cell r c = q := by rw [← hcell, Labyrinth.cell, Labyrinth.cell, he]
    rcases h.start_cases.2.2 with hp | ⟨hmiss, hfirst, _⟩
    · exact hqp (hrc.symm.trans hp)
    · exact hno ⟨hmiss, hfirst, hrc ▸ hq, h.offset, h.row_lt, h.col_lt, h.free⟩
  rw [Labyrinth.store_cell, if_neg hnew, Labyrinth.store_cell, if_neg hold]
  exact hcell

theorem keepsOthers_of_not_displaces (fs : FileSystem)
    (h : ∀ r c r' c', ¬ Displaces l p d r c r' c') : KeepsOthers fs l p d := by
  intro i _ j _ hdig hne
  rcases movePlayer_cases fs l p d with ⟨r, c, r', c', hm⟩ | ⟨_, hlab, _⟩
  · rw [(movePlayer_moves fs hm).2.1]
    exact hm.keeps_cell (h r c r' c') hdig hne rfl
  · rw [hlab]

theorem Displaces.not_keepsOthers (h : Displaces l p d r c r' c') (fs : FileSystem) :
    ¬ KeepsOthers fs l p d := by
  intro hk
  obtain ⟨hr, hc, _⟩ := h.moves.start_cases
  have hcell := hk r hr c hc h.occupied (cell_ne_of_missing h.absent hr hc)
  -- the cell of the other player now holds a dot
  rw [(movePlayer_moves fs h.moves).2.1, Labyrinth.store_cell, if_neg h.moves.addr_ne.symm,
    Labyrinth.store_cell, if_pos rfl] at hcell
  exact ne_dot_of_isDigit h.occupied hcell.symm

/-- A player on the map stays on it through a call that displaces nobody. -/
theorem movePlayer_onMap (fs : FileSystem) (hq : isDigit q = true)
    (h : ∀ r c r' c', ¬ Displaces l p d r c r' c') (hon : OnMap l q) :
    OnMap (movePlayer fs l p (some d)).lab q := by
  obtain ⟨i, hi, j, hj, hcell⟩ := hon
  rcases movePlayer_cases fs l p d with ⟨r, c, r', c', hm⟩ | ⟨_, hlab, _⟩
  · rw [(movePlayer_moves fs hm).2.1]
    by_cases hqp : q = p
    · -- the player that moves is where it moved to
      refine ⟨r', hm.row_lt, c', hm.col_lt, ?_⟩
      rw [Labyrinth.store_cell, if_pos rfl, hqp]
    · exact ⟨i, hi, j, hj, hm.keeps_cell (h r c r' c') hq hqp hcell⟩
  · rw [hlab]
    exact ⟨i, hi, j, hj, hcell⟩

/-- In a run that displaces nobody every player stays on the map. -/
theorem playAll_onMap (hq : isDigit q = true) :
    ∀ (calls : List (UInt8 × String)) (s : Labyrinth × FileSystem),
      (∀ pre p d post, calls = pre ++ (p, d) :: post →
        ∀ r c r' c', ¬ Displaces (playAll s pre).1 p d r c r' c') →
      OnMap s.1 q → OnMap (playAll s calls).1 q
  | [], _, _, hon => hon
  | (p, d) :: calls, s, hno, hon => by
      rw [playAll_cons]
      refine playAll_onMap hq calls (play s (p, d)) ?_ ?_
      · intro pre p' d' post he
        have := hno ((p, d) :: pre) p' d' post (by rw [he]; rfl)
        simpa using this
      · exact movePlayer_onMap s.2 hq (hno [] p d calls rfl) hon

/-- When a call leaves the other players alone, and what follows for a run. -/
theorem others_kept_iff (fs : FileSystem) (l : Labyrinth) :
    (∀ (p : UInt8) (d : String), isDigit p = true →
      (KeepsOthers fs l p d ↔ ¬ ∃ r c r' c', Displaces l p d r c r' c')) ∧
    (∀ calls : List (UInt8 × String),
      (∀ pre p d post, calls = pre ++ (p, d) :: post →
        ¬ ∃ r c r' c', Displaces (playAll (l, fs) pre).1 p d r c r' c') →
      ∀ pre post, calls = pre ++ post → ∀ q, isDigit q = true →
        OnMap (playAll (l, fs) pre).1 q → OnMap (playAll (l, fs) calls).1 q) := by
  refine ⟨fun p d _ => ⟨?_, ?_⟩, ?_⟩
  · rintro hk ⟨r, c, r', c', hd⟩
    exact hd.not_keepsOthers fs hk
  · intro hno
    exact keepsOthers_of_not_displaces fs fun r c r' c' hd => hno ⟨r, c, r', c', hd⟩
  · intro calls hno pre post he q hq hon
    rw [he, playAll_append]
    refine playAll_onMap hq post (playAll (l, fs) pre) ?_ hon
    intro pre' p d post' he' r c r' c' hd
    rw [← playAll_append] at hd
    exact hno (pre ++ pre') p d post' (by rw [he, he', List.append_assoc]) ⟨r, c, r', c', hd⟩

/-- Player 2 enters a map on which player 1 holds the first passable cell. -/
theorem keepsOthers_fails :
    isDigit '2'.toUInt8 = true ∧
    ¬ KeepsOthers noFiles (oneRow ['1', '.']) '2'.toUInt8 "right" ∧
    OnMap (oneRow ['1', '.']) '1'.toUInt8 ∧
    ¬ OnMap (playAll (oneRow ['1', '.'], noFiles) [('2'.toUInt8, "right")]).1 '1'.toUInt8 := by
  refine ⟨by decide, ?_, ⟨0, by decide, 0, by decide, by decide⟩, ?_⟩
  · intro h
    exact absurd (h 0 (by decide) 0 (by decide) (by decide) (by decide)) (by decide)
  · rintro ⟨r, hr, c, hc, hcell⟩
    have hr0 : r = 0 := by
      change r < 1 at hr
      omega
    subst hr0
    change c < 2 at hc
    interval_cases c
    · exact absurd hcell (by decide)
    · exact absurd hcell (by decide)

/-- Player 1 steps aside and stays on the map.  Nobody is displaced, neither by
this call nor by player 2 entering next to it. -/
theorem others_kept_corridor :
    KeepsOthers noFiles (oneRow ['.', '.', '1']) '2'.toUInt8 "right" ∧
    OnMap (playAll (oneRow ['.', '.', '1'], noFiles) [('1'.toUInt8, "left")]).1 '1'.toUInt8 := by
  have hkept := others_kept_iff noFiles (oneRow ['.', '.', '1'])
  refine ⟨(hkept.1 _ "right" (by decide)).mpr ?_,
    hkept.2 _ ?_ [] _ rfl _ (by decide) ⟨0, by decide, 2, by decide, by decide⟩⟩
  · rintro ⟨r, c, r', c', hd⟩
    have hfirst : findFirstEmptySpace (oneRow ['.', '.', '1']) = ⟨(0 : Nat), (0 : Nat)⟩ := by decide
    have heq := hfirst.symm.trans hd.first
    simp only [Position.mk.injEq, Nat.cast_inj] at heq
    obtain ⟨rfl, rfl⟩ := heq
    exact absurd hd.occupied (by decide)
  · rintro pre p d post he ⟨r, c, r', c', hd⟩
    cases pre with
    | cons _ _ => simp at he
    | nil =>
        simp only [List.nil_append, List.cons.injEq, Prod.mk.injEq] at he
        obtain ⟨⟨rfl, rfl⟩, _⟩ := he
        exact absurd hd.absent (by decide)

end OsCourse.Maze
