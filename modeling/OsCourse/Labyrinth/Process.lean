import OsCourse.Labyrinth.Game

/-!
# One process per move

The frontends start `labyrinth --map F --player p --move d` for every key, so a
game is a sequence of processes that hand the map on through the file system.
This module runs `main` on such a sequence and compares it with the same calls
of `movePlayer` on one map in memory.

`movePlayer` saves to `maps/map.txt` whatever `F` is.  So the two agree for all
sequences in two cases only.  In the first no player can move at all (`CanMove`).
In the second `F` is that file, it can be written, and every row ends inside its own
bytes, so that the map can be read back.
-/

namespace OsCourse.Maze

/-! ## `main` -/

/-- The globals the options set. -/
structure Options where
  mapFile : Option String
  playerId : UInt8
  direction : Option String
  versionFlag : Bool
  otherOptions : Bool

/-- How a process ends: with an exit status, or at a null pointer handed to the
C library. -/
inductive Exit where
  | status (code : Nat)
  | nullPointer
deriving DecidableEq, Repr

/-- `main` after its options are parsed.  `mem` is what the uninitialised map on
its stack holds. -/
def main (mem : Nat → UInt8) (fs : FileSystem) (o : Options) : Exit × FileSystem :=
  if o.versionFlag ∧ o.otherOptions then (.status 1, fs)
  else
    match o.mapFile with
    | none => (.nullPointer, fs)
    | some mapFile =>
        match loadMap mem fs mapFile with
        | none => (.status 1, fs)
        | some l =>
            if isValidPlayer o.playerId then
              let m := movePlayer fs l o.playerId o.direction
              match m.ret with
              | .returned true => (.status 0, m.fs)
              | .returned false => (.status 1, m.fs)
              | .nullPointer => (.nullPointer, m.fs)
            else (.status 1, fs)

/-- `labyrinth --map F --player p --move d`, as `move_player` starts it. -/
def moveOptions (mapFile : String) (playerId : UInt8) (direction : String) : Options where
  mapFile := some mapFile
  playerId := playerId
  direction := some direction
  versionFlag := false
  otherOptions := true

/-- The files after one process. -/
def invoke (mem : Nat → UInt8) (mapFile : String) (fs : FileSystem) (call : UInt8 × String) :
    FileSystem :=
  (main mem fs (moveOptions mapFile call.1 call.2)).2

/-- The files after a sequence of processes. -/
def invokeAll (mem : Nat → UInt8) (mapFile : String) (fs : FileSystem)
    (calls : List (UInt8 × String)) : FileSystem :=
  calls.foldl (invoke mem mapFile) fs

/-! ## One process -/

variable {mem : Nat → UInt8} {mapFile d : String} {fs : FileSystem} {l l' : Labyrinth} {p : UInt8}
  {r c r' c' : Nat}

/-- A process on a map it can load is one call of `movePlayer`. -/
theorem invoke_eq (d : String) (hload : loadMap mem fs mapFile = some l) (hp : isDigit p = true) :
    invoke mem mapFile fs (p, d) = (movePlayer fs l p (some d)).fs := by
  simp only [invoke, main, moveOptions, Bool.false_eq_true, false_and, if_false, hload,
    isValidPlayer, hp, if_true]
  split <;> rfl

/-! ## Maps that look the same -/

theorem SameMap.startPosition (h : SameMap l l') (p : UInt8) :
    startPosition l p = startPosition l' p := by
  have hfind : findPlayer l p = findPlayer l' p :=
    findCell_congr h.rows h.cols fun r hr c hc => by rw [h.cells r hr c (Or.inr hc)]
  have hfirst : findFirstEmptySpace l = findFirstEmptySpace l' :=
    findCell_congr h.rows h.cols fun r _ c _ => h.sameSpaces.isEmptySpace r c
  simp only [Maze.startPosition, hfind, hfirst]

theorem SameMap.moves (h : SameMap l l') (hm : Moves l p d r c r' c') : Moves l' p d r c r' c' where
  start := (h.startPosition p).symm.trans hm.start
  offset := hm.offset
  row_lt := h.rows ▸ hm.row_lt
  col_lt := h.cols ▸ hm.col_lt
  free := by rw [← h.cells r' hm.row_lt c' (Or.inr hm.col_lt)]; exact hm.free

theorem SameMap.symm (h : SameMap l l') : SameMap l' l :=
  ⟨h.rows.symm, h.cols.symm, fun r hr c hc =>
    (h.cells r (h.rows ▸ hr) c (by rw [h.cols]; exact hc)).symm⟩

theorem SameMap.store (h : SameMap l l') (r c : Nat) (b : UInt8) :
    SameMap (l.store r c b) (l'.store r c b) := by
  refine ⟨h.rows, h.cols, fun i hi j hj => ?_⟩
  rw [Labyrinth.store_cell, Labyrinth.store_cell]
  split
  · rfl
  · exact h.cells i hi j hj

/-- The same call on maps that look the same. -/
theorem SameMap.movePlayer (h : SameMap l l') (fs fs' : FileSystem) (p : UInt8) (d : String) :
    SameMap (movePlayer fs l p (some d)).lab (movePlayer fs' l' p (some d)).lab := by
  by_cases hm : ∃ r c r' c', Moves l p d r c r' c'
  · obtain ⟨r, c, r', c', hm⟩ := hm
    rw [(movePlayer_moves fs hm).2.1, (movePlayer_moves fs' (h.moves hm)).2.1]
    exact (h.store r c dot).store r' c' p
  · rw [(movePlayer_stays fs fun r c r' c' hm' => hm ⟨r, c, r', c', hm'⟩).2.1,
      (movePlayer_stays fs' fun r c r' c' hm' => hm ⟨r, c, r', c', h.symm.moves hm'⟩).2.1]
    exact h

/-- The map after a call does not depend on the files. -/
theorem movePlayer_lab_fs (fs fs' : FileSystem) (l : Labyrinth) (p : UInt8) (d : String) :
    (movePlayer fs l p (some d)).lab = (movePlayer fs' l p (some d)).lab := by
  by_cases hm : ∃ r c r' c', Moves l p d r c r' c'
  · obtain ⟨r, c, r', c', hm⟩ := hm
    rw [(movePlayer_moves fs hm).2.1, (movePlayer_moves fs' hm).2.1]
  · have hno : ∀ r c r' c', ¬ Moves l p d r c r' c' := fun r c r' c' h => hm ⟨r, c, r', c', h⟩
    rw [(movePlayer_stays fs hno).2.1, (movePlayer_stays fs' hno).2.1]

theorem SameMap.rowsEnd (h : SameMap l l') (hend : l.RowsEnd) : l'.RowsEnd := by
  intro r hr
  obtain ⟨c, hc, hz⟩ := hend r (by rw [h.rows]; exact hr)
  exact ⟨c, hc, (h.cells r (by rw [h.rows]; exact hr) c (Or.inl hc)).symm.trans hz⟩

/-! ## Sequences of processes -/

/-- After the processes `F` loads to the map the calls lead to in memory, and no
other file changed. -/
def Persists (mem : Nat → UInt8) (fs : FileSystem) (mapFile : String) (l : Labyrinth)
    (calls : List (UInt8 × String)) : Prop :=
  let fs' := invokeAll mem mapFile fs calls
  (∃ l', loadMap mem fs' mapFile = some l' ∧ SameMap l' (playAll (l, fs) calls).1) ∧
  ∀ f, f ≠ fs.file mapFile → fs'.content f = fs.content f

/-- Some player has a free cell to step to. -/
def CanMove (l : Labyrinth) : Prop :=
  ∃ p d r c r' c', isDigit p = true ∧ Moves l p d r c r' c'

/-- The condition under which a process saves where it loads and can read back
what it saves. -/
structure SavesBack (fs : FileSystem) (mapFile : String) (l : Labyrinth) : Prop where
  path : fs.file mapFile = fs.file savePath
  writable : fs.writable (fs.file mapFile) = true
  rowsEnd : l.RowsEnd

/-- One process keeps file and memory together.  `l'` is the map in the file and
`l` the one in memory. -/
theorem invoke_savesBack (d : String) (hs : SavesBack fs mapFile l')
    (hload : loadMap mem fs mapFile = some l') (hsame : SameMap l' l) (hp : isDigit p = true) :
    let fs1 := invoke mem mapFile fs (p, d)
    (∃ l1, loadMap mem fs1 mapFile = some l1 ∧ SavesBack fs1 mapFile l1 ∧
      SameMap l1 (movePlayer fs l p (some d)).lab) ∧
    fs1.file = fs.file ∧
    ∀ f, f ≠ fs.file mapFile → fs1.content f = fs.content f := by
  intro fs1
  have hfs1 : fs1 = (movePlayer fs l' p (some d)).fs := invoke_eq d hload hp
  have hmoved := hsame.movePlayer fs fs p d
  rcases movePlayer_cases fs l' p d with ⟨r, c, r', c', hm⟩ | ⟨_, hlab, hfs⟩
  · obtain ⟨_, hlab, hfs⟩ := movePlayer_moves fs hm
    rw [hlab] at hmoved
    rw [hfs, saveMap] at hfs1
    obtain ⟨bytes, _, hbytes⟩ := loadMap_eq_some.mp hload
    have hwalls := hm.sameWalls hp
    have hend := hwalls.rowsEnd.mpr hs.rowsEnd
    obtain ⟨l1, hl1, hl1same⟩ :=
      loadBytes_saveText mem (hwalls.loaded (loadBytes_loaded hbytes)) hend
    have hfile : fs1.file = fs.file := by rw [hfs1, write_file]
    refine ⟨⟨l1, ?_, ?_, hl1same.trans hmoved⟩, hfile, ?_⟩
    · rw [loadMap_eq_some]
      refine ⟨_, ?_, hl1⟩
      rw [hfile, hs.path, hfs1]
      exact write_content_self _ _ _ (hs.path ▸ hs.writable)
    · refine ⟨by rw [hfile]; exact hs.path, ?_, hl1same.symm.rowsEnd hend⟩
      rw [hfile, hfs1, write_writable]
      exact hs.writable
    · intro f hf
      rw [hfs1]
      exact write_content_ne _ _ _ (hs.path ▸ hf)
  · rw [hfs] at hfs1
    rw [hlab] at hmoved
    rw [hfs1]
    exact ⟨⟨l', hload, hs, hmoved⟩, rfl, fun _ _ => rfl⟩

/-- The calls in memory do not depend on the files. -/
theorem playAll_fs : ∀ (calls : List (UInt8 × String)) (l : Labyrinth) (fs fs' : FileSystem),
    (playAll (l, fs) calls).1 = (playAll (l, fs') calls).1
  | [], _, _, _ => rfl
  | (p, d) :: calls, l, fs, fs' => by
      rw [playAll_cons, playAll_cons, play, play, movePlayer_lab_fs fs fs' l p d]
      exact playAll_fs calls _ _ _

/-- A sequence of processes on the file they save to. -/
theorem invokeAll_savesBack :
    ∀ (calls : List (UInt8 × String)) {fs : FileSystem} {l l' : Labyrinth},
      SavesBack fs mapFile l' → loadMap mem fs mapFile = some l' → SameMap l' l →
      (∀ call ∈ calls, isDigit call.1 = true) → Persists mem fs mapFile l calls
  | [], fs, l, l', _, hload, hsame, _ => ⟨⟨l', hload, hsame⟩, fun _ _ => rfl⟩
  | (p, d) :: calls, fs, l, l', hs, hload, hsame, hd => by
      obtain ⟨⟨l1, hload1, hs1, hsame1⟩, hfile, hother⟩ :=
        invoke_savesBack d hs hload hsame (hd (p, d) (List.mem_cons_self ..))
      obtain ⟨⟨l2, hload2, hsame2⟩, hother2⟩ :=
        invokeAll_savesBack calls hs1 hload1 hsame1 fun c hc => hd c (List.mem_cons_of_mem _ hc)
      refine ⟨⟨l2, hload2, ?_⟩, fun f hf => ?_⟩
      · rw [playAll_cons, play]
        rwa [playAll_fs calls _ _ (movePlayer fs l p (some d)).fs] at hsame2
      · have := hother2 f (by rw [hfile]; exact hf)
        exact this.trans (hother f hf)

/-- Where no player can move, nothing happens. -/
theorem invokeAll_stuck (hload : loadMap mem fs mapFile = some l) (hstuck : ¬ CanMove l) :
    ∀ calls : List (UInt8 × String), (∀ call ∈ calls, isDigit call.1 = true) →
      Persists mem fs mapFile l calls
  | [], _ => ⟨⟨l, hload, .refl l⟩, fun _ _ => rfl⟩
  | (p, d) :: calls, hd => by
      have hp : isDigit p = true := hd (p, d) (List.mem_cons_self ..)
      obtain ⟨_, hlab, hfs⟩ := movePlayer_stays fs
        fun r c r' c' hm => hstuck ⟨p, d, r, c, r', c', hp, hm⟩
      have hinv : invoke mem mapFile fs (p, d) = fs := (invoke_eq d hload hp).trans hfs
      have hplay : play (l, fs) (p, d) = (l, fs) := by simp only [play, hlab, hfs]
      have ih := invokeAll_stuck hload hstuck calls fun c hc => hd c (List.mem_cons_of_mem _ hc)
      unfold Persists at ih ⊢
      rw [invokeAll, List.foldl_cons, hinv, playAll_cons, hplay]
      exact ih

/-- A move that changes the map is not seen through a file that did not change. -/
theorem Moves.not_sameMap (h : Moves l p d r c r' c') (hp : isDigit p = true) :
    ¬ SameMap l ((l.store r c dot).store r' c' p) := by
  intro hsame
  have := hsame.cells r' h.row_lt c' (Or.inr h.col_lt)
  rw [h.free, Labyrinth.store_cell, if_pos rfl] at this
  exact ne_dot_of_isDigit hp this.symm

/-- One process loses its move, or writes what cannot be read back, unless
`SavesBack` holds. -/
theorem not_persists_of_moves (hload : loadMap mem fs mapFile = some l) (hp : isDigit p = true)
    (hm : Moves l p d r c r' c') (hs : ¬ SavesBack fs mapFile l) :
    ¬ Persists mem fs mapFile l [(p, d)] := by
  rintro ⟨⟨l', hload', hsame⟩, _⟩
  obtain ⟨_, hlab, hfs⟩ := movePlayer_moves fs hm
  have hinv : invokeAll mem mapFile fs [(p, d)]
      = fs.write savePath (saveText ((l.store r c dot).store r' c' p)) :=
    (invoke_eq d hload hp).trans hfs
  have hplay : (playAll (l, fs) [(p, d)]).1 = (l.store r c dot).store r' c' p := hlab
  rw [hinv] at hload'
  rw [hplay] at hsame
  -- a file that was not written still loads to the old map, or not at all
  have hsaved : fs.file mapFile = fs.file savePath ∧ fs.writable (fs.file mapFile) = true := by
    by_contra hno
    have hlost : (fs.write savePath (saveText ((l.store r c dot).store r' c' p))).content
          (fs.file mapFile) = fs.content (fs.file mapFile) ∨
        (fs.write savePath (saveText ((l.store r c dot).store r' c' p))).content
          (fs.file mapFile) = some [] := by
      by_cases hpath : fs.file mapFile = fs.file savePath
      · rw [hpath] at hno ⊢
        exact write_content_lost _ _ _ (Bool.eq_false_iff.mpr fun hw => hno ⟨rfl, hw⟩)
      · exact .inl (write_content_ne _ _ _ hpath)
    obtain ⟨bytes, hb, hl'⟩ := loadMap_eq_some.mp hload'
    rw [write_file] at hb
    rcases hlost with hlost | hlost
    · rw [hlost] at hb
      obtain ⟨bytes0, hb0, hl0⟩ := loadMap_eq_some.mp hload
      cases hb0.symm.trans hb
      cases hl0.symm.trans hl'
      exact hm.not_sameMap hp hsame
    · cases hlost.symm.trans hb
      cases (loadBytes_nil mem).symm.trans hl'
  -- otherwise a row does not end, and what was written is refused
  have hend : ¬ l.RowsEnd := fun hend => hs ⟨hsaved.1, hsaved.2, hend⟩
  have hwalls := hm.sameWalls hp
  obtain ⟨bytes0, _, hl0⟩ := loadMap_eq_some.mp hload
  have hloaded := hwalls.loaded (loadBytes_loaded hl0)
  have hnone := loadBytes_saveText_none mem hloaded.rows_le hloaded.clean
    (fun h => hend (hwalls.rowsEnd.mp h))
  obtain ⟨bytes, hb, hl'⟩ := loadMap_eq_some.mp hload'
  rw [write_file, hsaved.1, write_content_self _ _ _ (hsaved.1 ▸ hsaved.2),
    Option.some.injEq] at hb
  subst hb
  rw [hnone] at hl'
  cases hl'

/-- When the moves of every sequence of processes persist. -/
theorem moves_persist_iff {mem : Nat → UInt8} {fs : FileSystem} {mapFile : String} {l : Labyrinth}
    (hload : loadMap mem fs mapFile = some l) :
    (∀ calls : List (UInt8 × String), (∀ call ∈ calls, isDigit call.1 = true) →
      Persists mem fs mapFile l calls) ↔
    ¬ CanMove l ∨ SavesBack fs mapFile l := by
  constructor
  · intro hall
    by_contra hno
    simp only [not_or, not_not] at hno
    obtain ⟨⟨p, d, r, c, r', c', hp, hm⟩, hs⟩ := hno
    exact not_persists_of_moves hload hp hm hs (hall [(p, d)] (by simpa using hp))
  · rintro (hstuck | hs) calls hd
    · exact invokeAll_stuck hload hstuck calls hd
    · exact invokeAll_savesBack calls hs hload (.refl l) hd

/-- The map `1.` in `maps/map.txt` and in one other file. -/
def boardFiles : FileSystem where
  file := fun path => if path = savePath then 0 else 1
  content := fun _ => some ['1'.toUInt8, dot, newline]
  writing := fun _ => .done

/-- The map both files hold. -/
def board : Labyrinth where
  map := (loadMap (fun _ => 0) boardFiles "board.txt").elim (fun _ => 0) Labyrinth.map
  rows := 1
  cols := 2

theorem loadMap_board (path : String) : loadMap (fun _ => 0) boardFiles path = some board := by
  have hread : boardFiles.read path = boardFiles.read "board.txt" := rfl
  unfold loadMap
  rw [hread]
  rfl

/-- Player 1 steps to the right in `board.txt`.  The file still holds `1.`. -/
theorem moves_lost_elsewhere :
    loadMap (fun _ => 0) boardFiles "board.txt" = some board ∧
    isDigit '1'.toUInt8 = true ∧
    ¬ Persists (fun _ => 0) boardFiles "board.txt" board [('1'.toUInt8, "right")] := by
  refine ⟨loadMap_board _, by decide, ?_⟩
  rintro ⟨⟨l', hload, hsame⟩, _⟩
  have hfile : (loadMap (fun _ => 0) (invokeAll (fun _ => 0) "board.txt" boardFiles
      [('1'.toUInt8, "right")]) "board.txt").map (fun l => (l.rows, l.cell 0 1)) =
      some (1, dot) := by
    decide
  have hmem : (playAll (board, boardFiles) [('1'.toUInt8, "right")]).1.cell 0 1 = '1'.toUInt8 := by
    decide
  rw [hload, Option.map_some, Option.some.injEq, Prod.mk.injEq] at hfile
  have hcell := hsame.cells 0 (by omega) 1 (Or.inl (by decide))
  rw [hfile.2, hmem] at hcell
  exact absurd hcell (by decide)

/-- The same moves persist when they are made in `maps/map.txt`. -/
theorem moves_persist_in_savePath :
    Persists (fun _ => 0) boardFiles savePath board
      [('1'.toUInt8, "right"), ('1'.toUInt8, "left")] := by
  refine (moves_persist_iff (loadMap_board savePath)).mpr (Or.inr ⟨rfl, rfl, ?_⟩) _ (by decide)
  intro r hr
  change r < 1 at hr
  exact ⟨2, by decide, by interval_cases r; decide⟩

end OsCourse.Maze
