import OsCourse.Lib.Except

/-!
# The last lines of a file

`print_last_lines` goes over the file from its end, a block at a time, and counts
newlines until it has seen more than it wants or is at the start of the file.  Then it
reads from there to the end of the file into the buffer of one block.

A read of more than a block is a fault of the model, as is an index that is not below
the number of bytes that were read.  What is written where there is no fault depends on
the number of newlines (`printLastLines_whole`, `printLastLines_behind` and
`printLastLines_lastBlock`).
-/

namespace OsCourse.Tail

/-- `BLOCK_SIZE`. -/
def blockSize : Nat := 4096

/-- `'\n'`. -/
def newline : UInt8 := 10

/-- What is wrong with an access of `buffer`. -/
inductive Fault where
  /-- A read of more than `BLOCK_SIZE` bytes. -/
  | tooLong (count : Nat)
  /-- An index that is not below `bytes_read`. -/
  | badIndex (i : Nat)
deriving DecidableEq

/-- `int`, with two's complement. -/
def wrap (x : Int) : Int := x.bmod (2 ^ 32)

/-- `lseek(fd, pos, SEEK_SET)` and `read(fd, buffer, count)`: the bytes that are read. -/
def readAt (content : List UInt8) (pos count : Nat) : Except Fault (List UInt8) :=
  if count ≤ blockSize then .ok ((content.drop pos).take count) else .error (.tooLong count)

/-- `buffer[i]`. -/
def byteAt (buffer : List UInt8) (i : Nat) : Except Fault UInt8 :=
  match buffer[i]? with
  | some b => .ok b
  | none => .error (.badIndex i)

/-- The loop that counts the newlines of a block, where `i` bytes are left. -/
def countLoop (buffer : List UInt8) : Nat → Int → Except Fault Int
  | 0, lineCount => .ok lineCount
  | i + 1, lineCount => do
      let b ← byteAt buffer i
      countLoop buffer i (if b = newline then wrap (lineCount + 1) else lineCount)

/-- `seek_pos`. -/
def seekPos (currentPos : Nat) : Nat :=
  if currentPos ≥ blockSize then currentPos - blockSize else 0

theorem seekPos_eq (currentPos : Nat) : seekPos currentPos = currentPos - blockSize := by
  unfold seekPos
  split <;> omega

/-- The loop over the blocks. -/
def scan (content : List UInt8) (numLines : Int) (currentPos : Nat) (lineCount : Int) :
    Except Fault (Nat × Int) :=
  if currentPos > 0 ∧ lineCount ≤ numLines then do
    let buffer ← readAt content (seekPos currentPos) (currentPos - seekPos currentPos)
    let lineCount ← countLoop buffer buffer.length lineCount
    scan content numLines (seekPos currentPos) lineCount
  else .ok (currentPos, lineCount)
termination_by currentPos
decreasing_by
  rw [seekPos_eq, blockSize]
  omega

/-- The loop that looks for the start, where `i` bytes are left: `line_count` and
`start`. -/
def startLoop (buffer : List UInt8) (numLines : Int) : Nat → Int → Nat → Except Fault (Int × Nat)
  | 0, lineCount, start => .ok (lineCount, start)
  | i + 1, lineCount, start =>
      if lineCount < numLines then do
        let b ← byteAt buffer i
        if b = newline then
          startLoop buffer numLines i (wrap (lineCount + 1))
            (if lineCount = numLines - 1 then i + 1 else start)
        else startLoop buffer numLines i lineCount start
      else .ok (lineCount, start)

/-- `print_last_lines`: the bytes that are written. -/
def printLastLines (content : List UInt8) (numLines : Int) : Except Fault (List UInt8) :=
  let fileSize := content.length
  if fileSize = 0 then .ok []
  else do
    let (currentPos, lineCount) ← scan content numLines fileSize 0
    let buffer ← readAt content currentPos (fileSize - currentPos)
    let (lineCount, start) ← startLoop buffer numLines buffer.length lineCount 0
    let start := if lineCount < numLines ∧ start > 0 then 0 else start
    .ok (buffer.drop start ++ [newline])

/-! ## The two loops over the buffer -/

section
variable {buffer : List UInt8} {i : Nat} {lineCount numLines : Int}

theorem byteAt_eq (h : i < buffer.length) : byteAt buffer i = .ok buffer[i] := by
  rw [byteAt, List.getElem?_eq_getElem h]

theorem count_take_succ (h : i < buffer.length) :
    (buffer.take (i + 1)).count newline =
      (buffer.take i).count newline + if buffer[i] = newline then 1 else 0 := by
  rw [List.take_succ_eq_append_getElem h, List.count_append, List.count_singleton]
  simp [beq_iff_eq]

theorem wrap_eq {x : Int} (h0 : 0 ≤ x) (h : x < 2 ^ 31) : wrap x = x :=
  Int.bmod_eq_of_le (by omega) (by omega)

theorem countLoop_defined (h : i ≤ buffer.length) (lineCount : Int) :
    ∃ c, countLoop buffer i lineCount = .ok c := by
  induction i generalizing lineCount with
  | zero => exact ⟨lineCount, rfl⟩
  | succ i ih =>
      rw [countLoop, byteAt_eq h]
      exact ih (Nat.le_of_succ_le h) _

/-- The newlines of a block are counted. -/
theorem countLoop_eq (h : i ≤ buffer.length) (h0 : 0 ≤ lineCount)
    (hsmall : lineCount + i < 2 ^ 31) :
    countLoop buffer i lineCount = .ok (lineCount + (buffer.take i).count newline) := by
  induction i generalizing lineCount with
  | zero => simp [countLoop]
  | succ i ih =>
      have hi := Nat.le_of_succ_le h
      rw [countLoop, byteAt_eq h, count_take_succ h]
      show countLoop buffer i (if buffer[i] = newline then wrap (lineCount + 1) else lineCount) = _
      by_cases hb : buffer[i] = newline
      · rw [if_pos hb, if_pos hb, wrap_eq (by omega) (by omega), ih hi (by omega) (by omega)]
        congr 1
        push_cast
        omega
      · rw [if_neg hb, if_neg hb, ih hi h0 (by omega), Nat.add_zero]

/-- Where enough newlines are counted already, the start is the start of the buffer. -/
theorem startLoop_enough (h : numLines ≤ lineCount) (i start : Nat) :
    startLoop buffer numLines i lineCount start = .ok (lineCount, start) := by
  cases i with
  | zero => rfl
  | succ i => exact if_neg (Int.not_lt.mpr h)

/-- The body of the second loop. -/
theorem startLoop_succ (hlt : lineCount < numLines) (h : i < buffer.length) (start : Nat) :
    startLoop buffer numLines (i + 1) lineCount start =
      if buffer[i] = newline then
        startLoop buffer numLines i (wrap (lineCount + 1))
          (if lineCount = numLines - 1 then i + 1 else start)
      else startLoop buffer numLines i lineCount start := by
  rw [startLoop, if_pos hlt, byteAt_eq h]
  rfl

/-- Where there are too few newlines, the start stays. -/
theorem startLoop_few (h : i ≤ buffer.length) (h0 : 0 ≤ lineCount) (hsmall : lineCount + i < 2 ^ 31)
    (hfew : lineCount + (buffer.take i).count newline < numLines) (start : Nat) :
    startLoop buffer numLines i lineCount start =
      .ok (lineCount + (buffer.take i).count newline, start) := by
  induction i generalizing lineCount with
  | zero => simp [startLoop]
  | succ i ih =>
      have hi := Nat.le_of_succ_le h
      rw [count_take_succ h] at hfew ⊢
      rw [startLoop_succ (by omega) h]
      by_cases hb : buffer[i] = newline
      · rw [if_pos hb] at hfew ⊢
        rw [if_pos hb, if_neg (by omega), wrap_eq (by omega) (by omega),
          ih hi (by omega) (by omega) (by omega)]
        congr 2
        omega
      · rw [if_neg hb, Nat.add_zero] at hfew
        rw [if_neg hb, if_neg hb, Nat.add_zero, ih hi h0 (by omega) hfew]

/-- Otherwise it is put behind the newline at which the count reaches its limit. -/
theorem startLoop_many (h : i ≤ buffer.length) (h0 : 0 ≤ lineCount)
    (hsmall : lineCount + i < 2 ^ 31) (hlt : lineCount < numLines)
    (hmany : numLines ≤ lineCount + (buffer.take i).count newline) (start : Nat) :
    ∃ before after, buffer.take i = before ++ newline :: after ∧
      (after.count newline : Int) = numLines - lineCount - 1 ∧
      startLoop buffer numLines i lineCount start = .ok (numLines, before.length + 1) := by
  induction i generalizing lineCount start with
  | zero =>
      simp at hmany
      omega
  | succ i ih =>
      have hi := Nat.le_of_succ_le h
      have htake := List.take_succ_eq_append_getElem h
      rw [count_take_succ h] at hmany
      rw [startLoop_succ hlt h]
      by_cases hb : buffer[i] = newline
      · rw [if_pos hb] at hmany ⊢
        rw [wrap_eq (by omega) (by omega)]
        by_cases hlast : lineCount = numLines - 1
        · refine ⟨buffer.take i, [], by rw [htake, hb], ?_, ?_⟩
          · simp
            omega
          · rw [if_pos hlast, startLoop_enough (by omega), List.length_take, min_eq_left hi, hlast]
            congr 2
            omega
        · have hnext : 0 ≤ lineCount + 1 := by omega
          obtain ⟨before, after, hsplit, hcount, hrun⟩ :=
            ih hi hnext (by omega) (by omega) (by omega)
              (if lineCount = numLines - 1 then i + 1 else start)
          refine ⟨before, after ++ [newline], by rw [htake, hsplit, hb]; simp, ?_, hrun⟩
          rw [List.count_append, List.count_singleton_self]
          omega
      · rw [if_neg hb] at hmany ⊢
        obtain ⟨before, after, hsplit, hcount, hrun⟩ := ih hi h0 (by omega) hlt (by omega) start
        refine ⟨before, after ++ [buffer[i]], by rw [htake, hsplit]; simp, ?_, hrun⟩
        rw [List.count_append, List.count_singleton, if_neg (by simpa using hb)]
        exact hcount

end

/-! ## What is read and written -/

section
variable {content : List UInt8} {numLines : Int}

theorem readAt_block (content : List UInt8) (currentPos : Nat) :
    readAt content (seekPos currentPos) (currentPos - seekPos currentPos) =
      .ok ((content.drop (seekPos currentPos)).take (currentPos - seekPos currentPos)) := by
  refine if_pos ?_
  rw [seekPos_eq]
  omega

/-- The loop over the blocks ends, and before it ends it goes back. -/
theorem scan_defined (content : List UInt8) (numLines : Int) (currentPos : Nat) (lineCount : Int) :
    ∃ r, scan content numLines currentPos lineCount = .ok r ∧ r.1 ≤ currentPos ∧
      (currentPos > 0 → lineCount ≤ numLines → r.1 < currentPos) := by
  induction currentPos using Nat.strong_induction_on generalizing lineCount with
  | _ currentPos ih =>
      rw [scan]
      split
      next hguard =>
        have hlt : seekPos currentPos < currentPos := by
          rw [seekPos_eq, blockSize]
          omega
        rw [readAt_block, ok_bind]
        obtain ⟨c, hc⟩ := countLoop_defined (le_refl ((content.drop (seekPos currentPos)).take
          (currentPos - seekPos currentPos)).length) lineCount
        obtain ⟨r, hr, hle, -⟩ := ih (seekPos currentPos) hlt c
        exact ⟨r, by rw [hc, ok_bind, hr], by omega, fun _ _ => by omega⟩
      next hguard =>
        exact ⟨_, rfl, le_refl _, fun hpos hle => absurd ⟨hpos, hle⟩ hguard⟩

/-- The bytes of the last block. -/
def lastBlock (content : List UInt8) : List UInt8 := content.drop (content.length - blockSize)

theorem length_lastBlock_le (content : List UInt8) : (lastBlock content).length ≤ blockSize := by
  rw [lastBlock, List.length_drop]
  omega

/-- The first round reads the last block. -/
theorem scan_first (hpos : content ≠ []) (hn : 0 ≤ numLines) :
    scan content numLines content.length 0 =
      scan content numLines (content.length - blockSize) ((lastBlock content).count newline) := by
  have hlen := length_lastBlock_le content
  rw [blockSize] at hlen
  have hblock : (content.drop (seekPos content.length)).take
      (content.length - seekPos content.length) = lastBlock content := by
    rw [seekPos_eq]
    exact List.take_of_length_le (by rw [List.length_drop])
  have hcount := countLoop_eq (le_refl (lastBlock content).length) (le_refl (0 : Int)) (by omega)
  rw [List.take_length, zero_add] at hcount
  rw [scan, if_pos ⟨List.length_pos_iff.mpr hpos, hn⟩, readAt_block, hblock, ok_bind, hcount,
    ok_bind, seekPos_eq]

/-- What is written after the scan. -/
theorem printLastLines_of_scan (hpos : content ≠ []) {pos : Nat} {lineCount : Int}
    (hscan : scan content numLines content.length 0 = .ok (pos, lineCount)) :
    printLastLines content numLines =
      (do
        let buffer ← readAt content pos (content.length - pos)
        let (lineCount, start) ← startLoop buffer numLines buffer.length lineCount 0
        let start := if lineCount < numLines ∧ start > 0 then 0 else start
        .ok (buffer.drop start ++ [newline])) := by
  have hlen : content.length ≠ 0 := by simpa using hpos
  simp only [printLastLines, if_neg hlen, hscan]
  rfl

theorem readAt_end {pos : Nat} (h : content.length - pos ≤ blockSize) :
    readAt content pos (content.length - pos) = .ok (content.drop pos) := by
  rw [readAt, if_pos h, List.take_of_length_le (by rw [List.length_drop])]

/-- A file of at most a block. -/
theorem printLastLines_small (hpos : content ≠ []) (hn : 0 ≤ numLines)
    (hlen : content.length ≤ blockSize) :
    printLastLines content numLines =
      (startLoop content numLines content.length (content.count newline) 0).map fun r =>
        content.drop (if r.1 < numLines ∧ r.2 > 0 then 0 else r.2) ++ [newline] := by
  have hzero : content.length - blockSize = 0 := Nat.sub_eq_zero_of_le hlen
  have hscan : scan content numLines content.length 0 = .ok (0, (content.count newline : Int)) := by
    rw [scan_first hpos hn, lastBlock, hzero, List.drop_zero, scan]
    exact if_neg fun h => Nat.lt_irrefl 0 h.1
  rw [printLastLines_of_scan hpos hscan, readAt_end (Nat.le_trans (Nat.sub_le ..) hlen),
    List.drop_zero, ok_bind]
  cases startLoop content numLines content.length (content.count newline) 0 <;> rfl

theorem printLastLines_whole (hpos : content ≠ []) (hn : 0 ≤ numLines)
    (hlen : content.length ≤ blockSize)
    (h : numLines ≤ content.count newline ∨ 2 * (content.count newline : Int) < numLines) :
    printLastLines content numLines = .ok (content ++ [newline]) := by
  have hcount : content.count newline ≤ content.length := List.count_le_length
  rw [blockSize] at hlen
  rw [printLastLines_small hpos hn hlen]
  rcases h with h | h
  · rw [startLoop_enough h]
    simp [Except.map]
  · rw [startLoop_few le_rfl (Int.natCast_nonneg _) (by omega) (by rw [List.take_length]; omega)]
    simp [Except.map]

theorem printLastLines_behind (hpos : content ≠ []) (hlen : content.length ≤ blockSize)
    (hlt : content.count newline < numLines) (hle : numLines ≤ 2 * (content.count newline : Int)) :
    ∃ before after, content = before ++ newline :: after ∧
      (after.count newline : Int) = numLines - content.count newline - 1 ∧
      printLastLines content numLines = .ok (after ++ [newline]) := by
  have hcount : content.count newline ≤ content.length := List.count_le_length
  rw [blockSize] at hlen
  obtain ⟨before, after, hsplit, hafter, hrun⟩ := startLoop_many (le_refl content.length)
    (Int.natCast_nonneg (content.count newline)) (by omega) hlt (by rw [List.take_length]; omega) 0
  rw [List.take_length] at hsplit
  refine ⟨before, after, hsplit, hafter, ?_⟩
  have hdrop : content.drop (before.length + 1) = after := by
    rw [hsplit, ← List.drop_drop, List.drop_left, List.drop_one, List.tail_cons]
  rw [printLastLines_small hpos (by omega) hlen, hrun]
  simp [Except.map, hdrop]

/-- A larger file with enough newlines in its last block. -/
theorem printLastLines_lastBlock (hlen : blockSize < content.length) (hn : 0 ≤ numLines)
    (h : numLines < (lastBlock content).count newline) :
    printLastLines content numLines = .ok (lastBlock content ++ [newline]) := by
  have hpos : content ≠ [] := List.length_pos_iff.mp (Nat.zero_lt_of_lt hlen)
  have hscan : scan content numLines content.length 0 =
      .ok (content.length - blockSize, ((lastBlock content).count newline : Int)) := by
    rw [scan_first hpos hn, scan]
    exact if_neg fun hguard => absurd h (Int.not_lt.mpr hguard.2)
  rw [printLastLines_of_scan hpos hscan, readAt_end (by omega), ok_bind, ← lastBlock,
    startLoop_enough h.le, ok_bind]
  simp only [ite_self, List.drop_zero]

/-- In all other cases more than a block is read at once. -/
theorem printLastLines_tooLong (hlen : blockSize < content.length) (hn : 0 ≤ numLines)
    (h : (lastBlock content).count newline ≤ numLines) :
    ∃ count > blockSize, printLastLines content numLines = .error (.tooLong count) := by
  have hpos : content ≠ [] := List.length_pos_iff.mp (Nat.zero_lt_of_lt hlen)
  obtain ⟨⟨pos, lineCount⟩, hscan, -, hlt⟩ := scan_defined content numLines
    (content.length - blockSize) ((lastBlock content).count newline)
  have hback := hlt (by omega) h
  rw [← scan_first hpos hn] at hscan
  refine ⟨content.length - pos, by simp only at hback; omega, ?_⟩
  rw [printLastLines_of_scan hpos hscan, readAt, if_neg (by simp only at hback; omega)]
  rfl

end

/-- No read is longer than the buffer, and no index is outside of what was read, exactly
if the file has at most a block or more newlines than wanted in its last block. -/
theorem printLastLines_inBounds_iff (content : List UInt8) (numLines : Int) (hn : 1 ≤ numLines) :
    (∃ out, printLastLines content numLines = .ok out) ↔
      content.length ≤ blockSize ∨ numLines < (lastBlock content).count newline := by
  have hn0 : 0 ≤ numLines := by omega
  constructor
  · rintro ⟨out, hout⟩
    by_contra hcon
    rw [not_or, Nat.not_le, Int.not_lt] at hcon
    obtain ⟨count, -, herror⟩ := printLastLines_tooLong hcon.1 hn0 hcon.2
    rw [herror] at hout
    cases hout
  · intro h
    by_cases hpos : content = []
    · exact ⟨[], by rw [hpos]; rfl⟩
    by_cases hlen : content.length ≤ blockSize
    · by_cases hwhole : numLines ≤ content.count newline ∨
          2 * (content.count newline : Int) < numLines
      · exact ⟨_, printLastLines_whole hpos hn0 hlen hwhole⟩
      · have hlt : content.count newline < numLines := by omega
        obtain ⟨_, after, _, _, hout⟩ := printLastLines_behind hpos hlen hlt (by omega)
        exact ⟨_, hout⟩
    · exact ⟨_, printLastLines_lastBlock (Nat.not_le.mp hlen) hn0 (h.resolve_left hlen)⟩

/-- A long line and the line `b`, where one line is wanted: the last block has two newlines. -/
theorem printLastLines_inBounds_longFile :
    blockSize < (List.replicate 4097 (97 : UInt8) ++ [10, 98, 10]).length ∧
      ∃ out, printLastLines (List.replicate 4097 97 ++ [10, 98, 10]) 1 = .ok out := by
  have hlen : (List.replicate 4097 (97 : UInt8) ++ [10, 98, 10]).length = 4100 := by
    rw [List.length_append, List.length_replicate]
    rfl
  have hblock : lastBlock (List.replicate 4097 97 ++ [10, 98, 10]) =
      List.replicate 4093 97 ++ [10, 98, 10] := by
    rw [lastBlock, hlen, blockSize, List.drop_append_of_le_length, List.drop_replicate]
    rw [List.length_replicate]
    omega
  have hcount : (lastBlock (List.replicate 4097 97 ++ [10, 98, 10])).count newline = 2 := by
    rw [hblock, List.count_append, List.count_replicate]
    rfl
  refine ⟨by rw [hlen, blockSize]; omega, ?_⟩
  exact (printLastLines_inBounds_iff _ 1 le_rfl).mpr (.inr (by rw [hcount]; decide))

/-- A line of 4097 characters is read into the 4096 bytes of the buffer. -/
theorem longLine_overruns :
    ∃ count > blockSize,
      printLastLines (List.replicate 4097 97) 1 = .error (.tooLong count) := by
  have hlen : (List.replicate 4097 (97 : UInt8)).length = 4097 := List.length_replicate
  have hnone : newline ∉ lastBlock (List.replicate 4097 97) := fun h =>
    absurd (List.eq_of_mem_replicate (List.mem_of_mem_drop h)) (by decide)
  refine printLastLines_tooLong ?_ (by decide) ?_
  · rw [hlen, blockSize]
    omega
  · rw [List.count_eq_zero.mpr hnone]
    decide

/-! ## Lines -/

/-- The lines of a text.  A newline at the end ends the last line. -/
def lines : List UInt8 → List (List UInt8)
  | [] => []
  | b :: bs =>
      if b = newline then [] :: lines bs
      else
        match lines bs with
        | [] => [[b]]
        | l :: ls => (b :: l) :: ls

/-- The last `n` lines: the longest part at the end that has at most `n` lines. -/
def lastLines (n : Nat) : List UInt8 → List UInt8
  | [] => []
  | b :: bs => if (lines (b :: bs)).length ≤ n then b :: bs else lastLines n bs

/-- The text is empty or ends with a newline. -/
def Terminated (s : List UInt8) : Prop := ∀ b ∈ s.getLast?, b = newline

theorem lines_newline (bs : List UInt8) : lines (newline :: bs) = [] :: lines bs := if_pos rfl

/-- Another character is put in front of the first line. -/
theorem lines_cons {b : UInt8} (hb : b ≠ newline) (bs : List UInt8) :
    lines (b :: bs) = (b :: (lines bs).headD []) :: (lines bs).tail := by
  rw [lines, if_neg hb]
  cases lines bs <;> rfl

variable {s : List UInt8}

theorem lines_eq_nil : lines s = [] ↔ s = [] := by
  cases s with
  | nil => simp [lines]
  | cons b bs =>
      by_cases hb : b = newline
      · simp [hb, lines_newline]
      · simp [lines_cons hb]

theorem lastLines_of_le {n : Nat} (h : (lines s).length ≤ n) :
    lastLines n s = s := by
  cases s with
  | nil => rfl
  | cons b bs => exact if_pos h

/-- The lines of the part at the end are the last lines of the text. -/
theorem lines_lastLines (n : Nat) (s : List UInt8) :
    lines (lastLines n s) = (lines s).drop ((lines s).length - n) := by
  induction s with
  | nil => simp [lastLines, lines]
  | cons b bs ih =>
      by_cases h : (lines (b :: bs)).length ≤ n
      · rw [lastLines_of_le h, Nat.sub_eq_zero_of_le h, List.drop_zero]
      · rw [lastLines, if_neg h, ih]
        by_cases hb : b = newline
        · subst hb
          rw [lines_newline, List.length_cons] at h ⊢
          rw [Nat.succ_sub (by omega), List.drop_succ_cons]
        · rw [lines_cons hb, List.length_cons, List.length_tail] at h ⊢
          cases hl : lines bs with
          | nil =>
              simp only [hl, List.length_nil] at h ⊢
              simp [show n = 0 by omega]
          | cons l ls =>
              simp only [hl, List.length_cons, List.tail_cons] at h ⊢
              rw [Nat.add_sub_cancel, Nat.succ_sub (by omega), List.drop_succ_cons,
                List.drop_succ_cons]

theorem length_lastLines_le (n : Nat) (s : List UInt8) : (lines (lastLines n s)).length ≤ n := by
  rw [lines_lastLines, List.length_drop]
  omega

/-- Without a newline in it the first line is all in front of the first newline. -/
theorem lines_append {before : List UInt8} (h : newline ∉ before) (after : List UInt8) :
    lines (before ++ newline :: after) = before :: lines after := by
  induction before with
  | nil => exact lines_newline after
  | cons b before ih =>
      rw [List.mem_cons, not_or] at h
      rw [List.cons_append, lines_cons (Ne.symm h.1), ih h.2]
      rfl

theorem terminated_cons {b : UInt8} {bs : List UInt8} :
    Terminated (b :: bs) ↔ if bs = [] then b = newline else Terminated bs := by
  cases bs with
  | nil => simp [Terminated]
  | cons c bs => simp [Terminated, List.getLast?_cons_cons]

/-- A newline after the end of a line is a line of its own. -/
theorem lines_concat_of_terminated (h : Terminated s) :
    lines (s ++ [newline]) = lines s ++ [[]] := by
  induction s with
  | nil => rfl
  | cons b bs ih =>
      rw [terminated_cons] at h
      by_cases hbs : bs = []
      · rw [if_pos hbs] at h
        rw [hbs, h]
        rfl
      · rw [if_neg hbs] at h
        by_cases hb : b = newline
        · rw [hb, List.cons_append, lines_newline, lines_newline, ih h]
          rfl
        · obtain ⟨l, ls, hl⟩ := List.exists_cons_of_ne_nil (mt lines_eq_nil.mp hbs)
          rw [List.cons_append, lines_cons hb, lines_cons hb, ih h, hl]
          rfl

/-- A newline that ends the last line makes no line. -/
theorem lines_concat_of_not_terminated (h : ¬ Terminated s) :
    lines (s ++ [newline]) = lines s := by
  induction s with
  | nil => exact absurd (by simp [Terminated]) h
  | cons b bs ih =>
      rw [terminated_cons] at h
      by_cases hbs : bs = []
      · rw [if_pos hbs] at h
        rw [hbs, List.singleton_append, lines_cons h, lines_cons h]
        rfl
      · rw [if_neg hbs] at h
        by_cases hb : b = newline
        · rw [hb, List.cons_append, lines_newline, lines_newline, ih h]
        · rw [List.cons_append, lines_cons hb, lines_cons hb, ih h]

/-- The number of lines of a text that ends with a newline. -/
theorem length_lines_concat (s : List UInt8) :
    (lines (s ++ [newline])).length = s.count newline + 1 := by
  induction s with
  | nil => rfl
  | cons b bs ih =>
      by_cases hb : b = newline
      · rw [hb, List.cons_append, lines_newline, List.length_cons, ih, List.count_cons_self]
      · rw [List.cons_append, lines_cons hb, List.length_cons, List.length_tail, ih,
          List.count_cons_of_ne hb]
        rfl

theorem length_lines_of_terminated (h : Terminated s) :
    (lines s).length = s.count newline := by
  have hlen := length_lines_concat s
  rw [lines_concat_of_terminated h, List.length_append] at hlen
  exact Nat.succ.inj hlen

theorem length_lines_of_not_terminated (h : ¬ Terminated s) :
    (lines s).length = s.count newline + 1 := by
  rw [← lines_concat_of_not_terminated h, length_lines_concat]

theorem length_lines_le (s : List UInt8) : (lines s).length ≤ s.count newline + 1 := by
  by_cases h : Terminated s
  · rw [length_lines_of_terminated h]
    omega
  · rw [length_lines_of_not_terminated h]

/-- A text of empty lines consists of newlines. -/
theorem eq_replicate_of_lines {k : Nat} (h : lines s = List.replicate k []) :
    s = List.replicate k newline := by
  induction s generalizing k with
  | nil =>
      cases k with
      | zero => rfl
      | succ k => cases h
  | cons b bs ih =>
      cases k with
      | zero => exact absurd (lines_eq_nil.mp h) (List.cons_ne_nil b bs)
      | succ k =>
          by_cases hb : b = newline
          · rw [hb, lines_newline, List.replicate_succ] at h
            rw [hb, ih (List.cons.inj h).2, List.replicate_succ]
          · rw [lines_cons hb, List.replicate_succ] at h
            cases (List.cons.inj h).1

/-- A list that is itself when its first element is left out and another is put at the
end has only that element. -/
theorem eq_replicate_of_rotate {α : Type} {x a : α} {l : List α} (h : x :: l = l ++ [a]) :
    x :: l = List.replicate (l.length + 1) a := by
  induction l generalizing x with
  | nil => simpa using h
  | cons y l ih =>
      obtain ⟨rfl, hrest⟩ := List.cons.inj h
      have hall := ih hrest
      have hx : x = a := (List.cons.inj hall).1
      rw [List.length_cons, List.replicate_succ, ← hall, hx]

/-! ## When the last lines are written -/

/-- The text consists of `k` newlines, and twice as many lines are wanted. -/
def HalfEmpty (content : List UInt8) (n : Nat) : Prop :=
  ∃ k, content = List.replicate k newline ∧ n = 2 * k

section
variable {content : List UInt8} {n : Nat}

theorem HalfEmpty.count_eq (h : HalfEmpty content n) : n = 2 * content.count newline := by
  obtain ⟨k, rfl, rfl⟩ := h
  rw [List.count_replicate_self]

/-- With as many newlines as lines wanted, what is written has too many lines. -/
theorem lines_concat_ne {s : List UInt8} (h : n ≤ s.count newline) :
    lines (s ++ [newline]) ≠ lines (lastLines n content) := by
  intro heq
  have hlen := congrArg List.length heq
  have hle := length_lastLines_le n content
  rw [length_lines_concat] at hlen
  omega

/-- Of newlines one is left out and another one is put at the end. -/
theorem HalfEmpty.behind {before after : List UInt8} (h : HalfEmpty content n)
    (hsplit : content = before ++ newline :: after)
    (hafter : after.count newline + content.count newline + 1 = n) :
    after ++ [newline] = content := by
  obtain ⟨k, hk, rfl⟩ := h
  have hlen := congrArg List.length hk
  rw [hk, List.count_replicate_self] at hafter
  rw [hsplit, List.length_append, List.length_cons, List.length_replicate] at hlen
  have hle : after.count newline ≤ after.length := List.count_le_length
  have hbefore : before = [] := List.length_eq_zero_iff.mp (by omega)
  rw [hsplit, hbefore, List.nil_append] at hk ⊢
  cases k with
  | zero => cases hk
  | succ k => rw [(List.cons.inj hk).2, ← List.replicate_succ, List.replicate_succ']

/-- With fewer newlines, but not less than half as many, what is written lacks a line. -/
theorem lines_behind_iff {before after : List UInt8} (hsplit : content = before ++ newline :: after)
    (hafter : after.count newline + content.count newline + 1 = n)
    (hle : n ≤ 2 * content.count newline) :
    lines (after ++ [newline]) = lines content ↔ HalfEmpty content n := by
  have hcount : content.count newline = before.count newline + after.count newline + 1 := by
    rw [hsplit, List.count_append, List.count_cons_self]
    omega
  constructor
  · intro heq
    have hlen := congrArg List.length heq
    rw [length_lines_concat] at hlen
    have hterm : Terminated content := by
      by_contra hterm
      rw [length_lines_of_not_terminated hterm] at hlen
      omega
    rw [length_lines_of_terminated hterm] at hlen
    have hnone : newline ∉ before := List.count_eq_zero.mp (by omega)
    have hlast : Terminated after := by
      intro b hb
      refine hterm b ?_
      rw [hsplit, List.getLast?_append_of_ne_nil _ (List.cons_ne_nil _ _)]
      cases after with
      | nil => cases hb
      | cons c after => exact hb
    have hlines : lines content = before :: lines after := by
      rw [hsplit, lines_append hnone]
    rw [lines_concat_of_terminated hlast, hlines] at heq
    have hall := eq_replicate_of_rotate heq.symm
    refine ⟨(lines after).length + 1, eq_replicate_of_lines (hlines.trans hall), ?_⟩
    rw [length_lines_of_terminated hlast]
    omega
  · intro h
    rw [h.behind hsplit hafter]

/-- A file with few newlines is written with a newline behind it. -/
theorem printLastLines_few (hpos : content ≠ []) (hlen : content.length ≤ blockSize)
    (hfew : 2 * content.count newline < n) :
    printLastLines content n = .ok (content ++ [newline]) ∧ lastLines n content = content := by
  refine ⟨printLastLines_whole hpos (Int.natCast_nonneg n) hlen (.inr (by omega)), ?_⟩
  have hle := length_lines_le content
  exact lastLines_of_le (by omega)

/-- A file with more of them is written from behind one of them on. -/
theorem printLastLines_middle (hpos : content ≠ []) (hlen : content.length ≤ blockSize)
    (hlt : content.count newline < n) (hle : n ≤ 2 * content.count newline) :
    ∃ before after, content = before ++ newline :: after ∧
      after.count newline + content.count newline + 1 = n ∧
      printLastLines content n = .ok (after ++ [newline]) ∧ lastLines n content = content := by
  have hltn : (content.count newline : Int) < n := by omega
  obtain ⟨before, after, hsplit, hafter, hout⟩ :=
    printLastLines_behind hpos hlen hltn (by omega)
  have hlines := length_lines_le content
  exact ⟨before, after, hsplit, by omega, hout, lastLines_of_le (by omega)⟩

/-- A file that is larger, or has as many newlines as lines are wanted, is written with
too many lines, or not at all. -/
theorem printLastLines_wrong (hpos : content ≠ [])
    (h : blockSize < content.length ∨ n ≤ content.count newline) {out : List UInt8}
    (hout : printLastLines content n = .ok out) : lines out ≠ lines (lastLines n content) := by
  have hn0 := Int.natCast_nonneg n
  by_cases hlen : content.length ≤ blockSize
  · have hmany := h.resolve_left (Nat.not_lt.mpr hlen)
    rw [printLastLines_whole hpos hn0 hlen (.inl (by omega))] at hout
    obtain rfl := Except.ok.inj hout
    exact lines_concat_ne hmany
  · have hlong := Nat.not_le.mp hlen
    by_cases hblock : (n : Int) < (lastBlock content).count newline
    · rw [printLastLines_lastBlock hlong hn0 hblock] at hout
      obtain rfl := Except.ok.inj hout
      exact lines_concat_ne (by omega)
    · obtain ⟨count, -, herror⟩ := printLastLines_tooLong hlong hn0 (Int.not_lt.mp hblock)
      rw [herror] at hout
      cases hout

theorem printed_lines_iff (hpos : content ≠ []) (hn : 1 ≤ n) :
    (∃ out, printLastLines content n = .ok out ∧ lines out = lines (lastLines n content)) ↔
      content.length ≤ blockSize ∧
        (¬ Terminated content ∧ 2 * content.count newline < n ∨ HalfEmpty content n) := by
  by_cases hwrong : blockSize < content.length ∨ n ≤ content.count newline
  · refine iff_of_false ?_ ?_
    · rintro ⟨out, hout, hlines⟩
      exact printLastLines_wrong hpos hwrong hout hlines
    · rintro ⟨hlen, ⟨-, hfew⟩ | hhalf⟩
      · omega
      · have hcount := hhalf.count_eq
        omega
  rw [not_or, Nat.not_lt, Nat.not_le] at hwrong
  obtain ⟨hlen, hlt⟩ := hwrong
  rw [and_iff_right hlen]
  by_cases hfew : 2 * content.count newline < n
  · obtain ⟨hout, hlast⟩ := printLastLines_few hpos hlen hfew
    have hhalf : ¬ HalfEmpty content n := fun h => absurd h.count_eq (by omega)
    rw [or_iff_left hhalf, and_iff_left hfew, hout, hlast]
    constructor
    · rintro ⟨out, hok, hlines⟩ hterm
      obtain rfl := Except.ok.inj hok
      rw [lines_concat_of_terminated hterm] at hlines
      exact absurd (congrArg List.length hlines) (by simp)
    · intro hterm
      exact ⟨_, rfl, lines_concat_of_not_terminated hterm⟩
  · obtain ⟨before, after, hsplit, hafter, hout, hlast⟩ :=
      printLastLines_middle hpos hlen hlt (Nat.not_lt.mp hfew)
    rw [or_iff_right fun h => hfew h.2, hout, hlast,
      ← lines_behind_iff hsplit hafter (Nat.not_lt.mp hfew)]
    constructor
    · rintro ⟨out, hok, hlines⟩
      obtain rfl := Except.ok.inj hok
      exact hlines
    · intro hlines
      exact ⟨_, rfl, hlines⟩

end

/-- The lines written are the last lines exactly if the file has at most a block, does
not end with a newline and has fewer than half as many newlines as lines are wanted.
The bytes written are never those of the last lines.  (There is one exception to
both: files that consist of newlines.) -/
theorem printLastLines_lines_iff (content : List UInt8) (hpos : content ≠ []) (n : Nat)
    (hn : 1 ≤ n) :
    ((∃ out, printLastLines content n = .ok out ∧ lines out = lines (lastLines n content)) ↔
      content.length ≤ blockSize ∧
        (¬ Terminated content ∧ 2 * content.count newline < n ∨ HalfEmpty content n)) ∧
    (printLastLines content n = .ok (lastLines n content) ↔
      content.length ≤ blockSize ∧ HalfEmpty content n) := by
  refine ⟨printed_lines_iff hpos hn, ?_, ?_⟩
  · intro hbytes
    obtain ⟨hlen, ⟨-, hfew⟩ | hhalf⟩ := (printed_lines_iff hpos hn).mp ⟨_, hbytes, rfl⟩
    · obtain ⟨hout, hlast⟩ := printLastLines_few hpos hlen hfew
      rw [hout, hlast] at hbytes
      exact absurd (congrArg List.length (Except.ok.inj hbytes)) (by simp)
    · exact ⟨hlen, hhalf⟩
  · rintro ⟨hlen, hhalf⟩
    have hcount := hhalf.count_eq
    have hlt : content.count newline < n := by omega
    obtain ⟨before, after, hsplit, hafter, hout, hlast⟩ :=
      printLastLines_middle hpos hlen hlt hcount.le
    rw [hout, hlast, hhalf.behind hsplit hafter]

/-- The lines `a`, `b` and `c` without a newline at the end, where five lines are wanted. -/
theorem printLastLines_lines_threeLines :
    ∃ out, printLastLines [97, 10, 98, 10, 99] (5 : Nat) = .ok out ∧
      lines out = lines (lastLines 5 [97, 10, 98, 10, 99]) ∧
      lines (lastLines 5 [97, 10, 98, 10, 99]) = [[97], [98], [99]] := by
  obtain ⟨out, hout, hlines⟩ :=
    (printLastLines_lines_iff [97, 10, 98, 10, 99] (by decide) 5 (by decide)).1.mpr
      ⟨by decide, .inl ⟨by simp [Terminated, newline], by decide⟩⟩
  exact ⟨out, hout, hlines, by decide⟩

/-- Of the two lines `a` and `b` both are written, and an empty line, where one is
wanted. -/
theorem twoLines_written :
    lastLines 1 [97, 10, 98, 10] = [98, 10] ∧
      printLastLines [97, 10, 98, 10] 1 = .ok [97, 10, 98, 10, 10] := by
  refine ⟨by decide, ?_⟩
  exact printLastLines_whole (by decide) (by decide) (by decide) (.inl (by decide))

end OsCourse.Tail
