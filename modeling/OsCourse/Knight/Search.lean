import OsCourse.Lib.CString
import OsCourse.Lib.Except
import Mathlib.Tactic

/-!
# The memory search of knight

`knight` looks for a 32-bit value in the memory of a game.  The first search goes
through the writable regions that `pmap` lists, copies each of them with one `read` and
keeps the addresses of the words that are equal to the value.  Later searches read the
words at these addresses again and keep those that are equal to the new value.

The result of `read` is stored in the unsigned variable `size`, which bounds the loop
over the copy in steps of four bytes.  So the loop looks only at words that were
completely read when the number of bytes is a multiple of four (`scanLoop_whole`).  A
number with a remainder makes it look at a word of which some bytes were not read, and
`-1` becomes the largest unsigned number, with which the loop leaves the copy.

The process is a parameter: what `pmap` prints, whether the copy can be allocated, what
`read` returns and the memory at that time.  A look at a word that is not in the copy or
was not completely read is a `Fault`.  The exceptions of the C++ library end a search
without one.
-/

namespace OsCourse.Knight

open OsCourse.CString (isSpace isHexDigit hexValue digitsValue)

/-! ## The process -/

/-- `uint32_t`. -/
abbrev Word := BitVec 32

/-- The number of addresses. -/
def addressSpace : Nat := 2 ^ 64

/-- What `read` returns when it is asked for `size` bytes. -/
inductive ReadResult (size : Nat) where
  /-- `-1`. -/
  | failed
  /-- The number of bytes that were read. -/
  | filled (n : Nat) (le : n ≤ size)

/-- The number of bytes that were read. -/
def ReadResult.bytes {size : Nat} : ReadResult size → Nat
  | .failed => 0
  | .filled n _ => n

/-- The result in the variable `size` of type `uintptr_t`. -/
def ReadResult.unsigned {size : Nat} : ReadResult size → Nat
  | .failed => addressSpace - 1
  | .filled n _ => n

/-- What a search meets.  Regions are counted in the order in which they are read. -/
structure Process where
  /-- What `pmap` prints. -/
  maps : List Char
  /-- Whether the copy of a region can be allocated. -/
  alloc : Nat → Bool
  /-- The result of the `read` for a region. -/
  read : (i size : Nat) → ReadResult size
  /-- The memory at the time of that `read`. -/
  memory : Nat → Nat → BitVec 8
  /-- The word that `load` returns for an address. -/
  load : Nat → Word

/-- The word at an address of a memory. -/
def wordAt (memory : Nat → BitVec 8) (addr : Nat) : Word :=
  memory ((addr + 3) % addressSpace) ++ memory ((addr + 2) % addressSpace) ++
    memory ((addr + 1) % addressSpace) ++ memory (addr % addressSpace)

/-! ## The listing -/

/-- One or more characters of a class, as many as there are. -/
def spanOne (p : Char → Bool) (s : List Char) : Option (List Char × List Char) :=
  match s.span p with
  | ([], _) => none
  | (front, rest) => some (front, rest)

/-- The first two groups of `^([0-9a-f]+)\s+(\d+)\s+(\d+)\s+(\d+)\s+rw.*`.  Neighbouring
classes are disjoint, so a match takes as many characters as there are. -/
def matchLine (line : List Char) : Option (List Char × List Char) := do
  let (addr, s) ← spanOne isHexDigit line
  let (_, s) ← spanOne isSpace s
  let (kbytes, s) ← spanOne Char.isDigit s
  let (_, s) ← spanOne isSpace s
  let (_, s) ← spanOne Char.isDigit s
  let (_, s) ← spanOne isSpace s
  let (_, s) ← spanOne Char.isDigit s
  let (_, s) ← spanOne isSpace s
  if ['r', 'w'].isPrefixOf s then some (addr, kbytes) else none

/-- A region: `start` and `size` before the call to `read`. -/
structure Region where
  /-- The first address. -/
  start : Nat
  /-- The number of bytes. -/
  size : Nat

/-- A look at a word that it should not look at. -/
inductive Fault where
  /-- The word at this offset is not in the copy. -/
  | overrun (off : Nat)
  /-- The word at this offset was not completely read. -/
  | unfilled (off : Nat)
deriving DecidableEq

/-- How a search ends early. -/
inductive Stop where
  /-- `std::out_of_range`, from `stoll`. -/
  | outOfRange
  /-- `std::bad_alloc`, from `new`. -/
  | badAlloc
  /-- Undefined behaviour. -/
  | fault (f : Fault)
deriving DecidableEq

/-- The region of a line. -/
def region (addr kbytes : List Char) : Except Stop Region :=
  if hexValue addr < 2 ^ 63 ∧ digitsValue kbytes < 2 ^ 63 then
    .ok ⟨hexValue addr, digitsValue kbytes * 1024 % addressSpace⟩
  else .error .outOfRange

/-! ## The search -/

section

variable (p : Process) (val : Word)

/-- `mem[off / 4]`. -/
def copyWord (i : Nat) (r : Region) (off : Nat) : Except Stop Word :=
  if off / 4 < r.size / 4 then
    if off + 4 ≤ (p.read i r.size).bytes then .ok (wordAt (p.memory i) (r.start + off))
    else .error (.fault (.unfilled off))
  else .error (.fault (.overrun off))

/-- The loop over the copy, from an offset on.  The first argument bounds the number of
rounds, and the copy has fewer words. -/
def scanLoop (i : Nat) (r : Region) : Nat → Nat → List Nat → Except Stop (List Nat)
  | 0, off, _ => .error (.fault (.overrun off))
  | fuel + 1, off, remain =>
      if off < (p.read i r.size).unsigned then do
        let w ← copyWord p i r off
        scanLoop i r fuel (off + 4)
          (if w = val then remain ++ [(r.start + off) % addressSpace] else remain)
      else .ok remain

/-- The scan of one region. -/
def scanRegion (i : Nat) (r : Region) (remain : List Nat) : Except Stop (List Nat) :=
  if p.alloc i then scanLoop p val i r (r.size / 4 + 1) 0 remain else .error .badAlloc

/-- The body of the loop over the lines.  The first component counts the regions. -/
def scanLine (x : Nat × List Nat) (line : List Char) : Except Stop (Nat × List Nat) :=
  match matchLine line with
  | none => .ok x
  | some (addr, kbytes) => do
      let r ← region addr kbytes
      let remain ← scanRegion p val x.1 r x.2
      .ok (x.1 + 1, remain)

/-- The lines of the listing. -/
def Process.lines : List (List Char) := p.maps.splitOn '\n'

/-- `search_for`. -/
def searchFor (remain : List Nat) : Except Stop (List Nat) :=
  match remain with
  | [] => (p.lines.foldlM (scanLine p val) (0, remain)).map Prod.snd
  | _ :: _ => .ok (remain.filter fun addr => p.load addr = val)

end

/-- Several searches, one after the other. -/
def searches (remain : List Nat) (l : List (Process × Word)) : Except Stop (List Nat) :=
  l.foldlM (fun remain x => searchFor x.1 x.2 remain) remain

/-! ## What should be found -/

/-- A `read` that leaves no word half read. -/
def ReadResult.Whole {size : Nat} : ReadResult size → Prop
  | .failed => False
  | .filled n _ => n % 4 = 0

/-- The regions that are read, with their numbers.  An exception ends the search. -/
def regionsFrom (p : Process) : Nat → List (List Char) → List (Nat × Region)
  | _, [] => []
  | i, line :: lines =>
      match matchLine line with
      | none => regionsFrom p i lines
      | some (addr, kbytes) =>
          match region addr kbytes with
          | .error _ => []
          | .ok r => if p.alloc i then (i, r) :: regionsFrom p (i + 1) lines else []

/-- The regions that the first search reads. -/
def Process.regions (p : Process) : List (Nat × Region) := regionsFrom p 0 p.lines

/-- The addresses with the value among some words of a region. -/
def hitsAmong (p : Process) (val : Word) (x : Nat × Region) (js : List Nat) : List Nat :=
  (js.filter fun j => wordAt (p.memory x.1) (x.2.start + 4 * j) = val).map fun j =>
    (x.2.start + 4 * j) % addressSpace

/-- The addresses with the value among the words of a region that were read. -/
def hits (p : Process) (val : Word) (x : Nat × Region) : List Nat :=
  hitsAmong p val x (List.range ((p.read x.1 x.2.size).bytes / 4))

/-- The addresses that match at every search. -/
def narrowed (remain : List Nat) (l : List (Process × Word)) : List Nat :=
  remain.filter fun addr => l.all fun x => x.1.load addr = x.2

/-! ## The loop over a copy -/

section Loop

variable {p : Process} {val : Word} {i : Nat} {r : Region}

theorem hitsAmong_singleton (x : Nat × Region) (j : Nat) :
    hitsAmong p val x [j] =
      if wordAt (p.memory x.1) (x.2.start + 4 * j) = val then
        [(x.2.start + 4 * j) % addressSpace] else [] := by
  unfold hitsAmong
  by_cases h : wordAt (p.memory x.1) (x.2.start + 4 * j) = val <;> simp [h]

theorem hitsAmong_append (x : Nat × Region) (js js' : List Nat) :
    hitsAmong p val x (js ++ js') = hitsAmong p val x js ++ hitsAmong p val x js' := by
  rw [hitsAmong, List.filter_append, List.map_append, hitsAmong, hitsAmong]

theorem copyWord_of_le {off : Nat} (hfill : off + 4 ≤ (p.read i r.size).bytes)
    (hsize : off + 4 ≤ r.size) :
    copyWord p i r off = .ok (wordAt (p.memory i) (r.start + off)) := by
  rw [copyWord, if_pos (by omega), if_pos hfill]

theorem copyWord_fault {off : Nat} (h : (p.read i r.size).bytes < off + 4) :
    ∃ f, copyWord p i r off = .error (.fault f) := by
  unfold copyWord
  split
  · exact ⟨.unfilled off, if_neg (by omega)⟩
  · exact ⟨.overrun off, rfl⟩

section Filled

variable {n : Nat} {hn : n ≤ r.size} (hread : p.read i r.size = .filled n hn)

include hread

theorem bytes_read : (p.read i r.size).bytes = n := by
  rw [hread]
  rfl

theorem unsigned_read : (p.read i r.size).unsigned = n := by
  rw [hread]
  rfl

/-- One round of the loop, at a word that was read. -/
theorem scanLoop_word {fuel j : Nat} (hj : j < n / 4) (remain : List Nat) :
    scanLoop p val i r (fuel + 1) (4 * j) remain =
      scanLoop p val i r fuel (4 * (j + 1)) (remain ++ hitsAmong p val (i, r) [j]) := by
  have hbytes := bytes_read hread
  have hunsigned := unsigned_read hread
  have hword : copyWord p i r (4 * j) = .ok (wordAt (p.memory i) (r.start + 4 * j)) :=
    copyWord_of_le (by omega) (by omega)
  rw [scanLoop, if_pos (by omega), hword, ok_bind, hitsAmong_singleton, Nat.mul_succ]
  congr 1
  split
  · rfl
  · exact (List.append_nil _).symm

/-- The loop over the words from `j` on, when no byte is left over. -/
theorem scanLoop_whole (hwhole : n % 4 = 0) {fuel j : Nat} (hj : j ≤ n / 4)
    (hfuel : n / 4 - j < fuel) (remain : List Nat) :
    scanLoop p val i r fuel (4 * j) remain =
      .ok (remain ++ hitsAmong p val (i, r) (List.range' j (n / 4 - j))) := by
  induction fuel generalizing j remain with
  | zero => omega
  | succ fuel ih =>
      rcases Nat.lt_or_ge j (n / 4) with hlt | hge
      · have hrange : List.range' j (n / 4 - j) = [j] ++ List.range' (j + 1) (n / 4 - (j + 1)) := by
          rw [show n / 4 - j = n / 4 - (j + 1) + 1 by omega, List.range'_succ]
          rfl
        rw [scanLoop_word hread hlt, ih hlt (by omega), hrange, hitsAmong_append, List.append_assoc]
      · have hunsigned := unsigned_read hread
        have hnil : n / 4 - j = 0 := by omega
        rw [scanLoop, if_neg (by omega), hnil, List.range'_zero]
        exact congrArg Except.ok (List.append_nil remain).symm

/-- Bytes that are left over lead to a fault. -/
theorem scanLoop_rest (hrest : n % 4 ≠ 0) {fuel j : Nat} (hj : j ≤ n / 4)
    (hfuel : n / 4 - j < fuel) (remain : List Nat) :
    ∃ f, scanLoop p val i r fuel (4 * j) remain = .error (.fault f) := by
  induction fuel generalizing j remain with
  | zero => omega
  | succ fuel ih =>
      rcases Nat.lt_or_ge j (n / 4) with hlt | hge
      · rw [scanLoop_word hread hlt]
        exact ih hlt (by omega) _
      · have hbytes := bytes_read hread
        have hunsigned := unsigned_read hread
        obtain ⟨f, hf⟩ : ∃ f, copyWord p i r (4 * j) = .error (.fault f) :=
          copyWord_fault (by omega)
        refine ⟨f, ?_⟩
        rw [scanLoop, if_pos (by omega), hf]
        rfl

end Filled

/-- A failed `read` leads to a fault. -/
theorem scanLoop_failed (hread : p.read i r.size = .failed) (fuel : Nat) (remain : List Nat) :
    ∃ f, scanLoop p val i r (fuel + 1) 0 remain = .error (.fault f) := by
  have hbytes : (p.read i r.size).bytes = 0 := by rw [hread]; rfl
  have hunsigned : (p.read i r.size).unsigned = addressSpace - 1 := by rw [hread]; rfl
  obtain ⟨f, hf⟩ : ∃ f, copyWord p i r 0 = .error (.fault f) := copyWord_fault (by omega)
  refine ⟨f, ?_⟩
  rw [scanLoop, hunsigned, if_pos (by decide), hf]
  rfl

theorem scanRegion_whole (halloc : p.alloc i = true) (hwhole : (p.read i r.size).Whole)
    (remain : List Nat) : scanRegion p val i r remain = .ok (remain ++ hits p val (i, r)) := by
  rw [scanRegion, if_pos halloc, hits]
  dsimp only
  cases hread : p.read i r.size with
  | failed =>
      rw [hread] at hwhole
      cases hwhole
  | filled n hn =>
      rw [hread] at hwhole
      rw [List.range_eq_range']
      exact scanLoop_whole hread hwhole (Nat.zero_le _)
        (show n / 4 - 0 < r.size / 4 + 1 by omega) remain

theorem scanRegion_fault (halloc : p.alloc i = true) (hwhole : ¬ (p.read i r.size).Whole)
    (remain : List Nat) : ∃ f, scanRegion p val i r remain = .error (.fault f) := by
  rw [scanRegion, if_pos halloc]
  cases hread : p.read i r.size with
  | failed => exact scanLoop_failed hread _ remain
  | filled n hn =>
      rw [hread] at hwhole
      exact scanLoop_rest hread hwhole (Nat.zero_le _)
        (show n / 4 - 0 < r.size / 4 + 1 by omega) remain

end Loop

/-! ## The loop over the lines -/

section Lines

variable {p : Process} {val : Word}

theorem region_error {addr kbytes : List Char} {e : Stop} (h : region addr kbytes = .error e) :
    e = .outOfRange := by
  unfold region at h
  split at h
  · cases h
  · exact (Except.error.inj h).symm

theorem scanLine_none {line : List Char} (h : matchLine line = none) (x : Nat × List Nat) :
    scanLine p val x line = .ok x := by
  rw [scanLine, h]

theorem scanLine_region {line addr kbytes : List Char} {r : Region}
    (h : matchLine line = some (addr, kbytes)) (hr : region addr kbytes = .ok r) (i : Nat)
    (remain : List Nat) :
    scanLine p val (i, remain) line =
      (scanRegion p val i r remain >>= fun remain => .ok (i + 1, remain)) := by
  simp only [scanLine, h, hr, ok_bind]

/-- How the loop over the lines ends: the regions were whole and the hits of all of them
are found, or an exception came first, or a region was not whole. -/
inductive Ends (p : Process) (val : Word) (regions : List (Nat × Region)) (remain : List Nat) :
    Except Stop (Nat × List Nat) → Prop where
  | found (i : Nat) : (∀ x ∈ regions, (p.read x.1 x.2.size).Whole) →
      Ends p val regions remain (.ok (i, remain ++ regions.flatMap (hits p val)))
  | thrown {e : Stop} : (∀ x ∈ regions, (p.read x.1 x.2.size).Whole) → (∀ f, e ≠ .fault f) →
      Ends p val regions remain (.error e)
  | fault (f : Fault) : (∃ x ∈ regions, ¬ (p.read x.1 x.2.size).Whole) →
      Ends p val regions remain (.error (.fault f))

/-- A region that is whole comes before the others. -/
theorem Ends.cons {regions : List (Nat × Region)} {remain : List Nat} {x : Nat × Region}
    {result : Except Stop (Nat × List Nat)} (hx : (p.read x.1 x.2.size).Whole)
    (h : Ends p val regions (remain ++ hits p val x) result) :
    Ends p val (x :: regions) remain result := by
  cases h with
  | found i hall =>
      rw [List.append_assoc, ← List.flatMap_cons]
      exact .found i (List.forall_mem_cons.mpr ⟨hx, hall⟩)
  | thrown hall he => exact .thrown (List.forall_mem_cons.mpr ⟨hx, hall⟩) he
  | fault f hsome =>
      obtain ⟨y, hy, hbad⟩ := hsome
      exact .fault f ⟨y, List.mem_cons_of_mem _ hy, hbad⟩

theorem scanLines_ends (lines : List (List Char)) (i : Nat) (remain : List Nat) :
    Ends p val (regionsFrom p i lines) remain (lines.foldlM (scanLine p val) (i, remain)) := by
  induction lines generalizing i remain with
  | nil =>
      have h : Ends p val [] remain
          (.ok (i, remain ++ ([] : List (Nat × Region)).flatMap (hits p val))) :=
        .found i fun x hx => by cases hx
      rw [List.flatMap_nil, List.append_nil] at h
      exact h
  | cons line lines ih =>
      rw [List.foldlM_cons, regionsFrom]
      cases hm : matchLine line with
      | none =>
          rw [scanLine_none hm, ok_bind]
          exact ih i remain
      | some groups =>
          obtain ⟨addr, kbytes⟩ := groups
          dsimp only
          cases hr : region addr kbytes with
          | error e =>
              have hline : scanLine p val (i, remain) line = .error e := by
                simp only [scanLine, hm, hr]
                rfl
              rw [hline]
              refine .thrown (fun x hx => by cases hx) fun f hf => ?_
              rw [region_error hr] at hf
              cases hf
          | ok r =>
              rw [scanLine_region hm hr]
              dsimp only
              cases halloc : p.alloc i with
              | false =>
                  have hthrow : scanRegion p val i r remain = .error .badAlloc := by
                    rw [scanRegion, halloc]
                    rfl
                  rw [hthrow]
                  exact .thrown (fun x hx => by cases hx) fun f hf => by cases hf
              | true =>
                  rw [if_pos rfl]
                  by_cases hwhole : (p.read i r.size).Whole
                  · rw [scanRegion_whole halloc hwhole, ok_bind, ok_bind]
                    exact (ih (i + 1) _).cons hwhole
                  · obtain ⟨f, hf⟩ : ∃ f, scanRegion p val i r remain = .error (.fault f) :=
                      scanRegion_fault halloc hwhole remain
                    rw [hf]
                    exact .fault f ⟨(i, r), List.mem_cons_self .., hwhole⟩

end Lines

/-! ## Addresses -/

theorem ReadResult.bytes_le {size : Nat} (x : ReadResult size) : x.bytes ≤ size := by
  cases x with
  | failed => exact Nat.zero_le _
  | filled n le => exact le

/-- A region that is read to its end is whole. -/
theorem whole_of_full {addr kbytes : List Char} {r : Region} (h : region addr kbytes = .ok r)
    (hle : r.size ≤ r.size) : (ReadResult.filled r.size hle).Whole := by
  unfold region at h
  split at h
  · cases h
    dsimp only [ReadResult.Whole, addressSpace]
    omega
  · cases h

theorem wordAt_mod (memory : Nat → BitVec 8) (addr : Nat) :
    wordAt memory (addr % addressSpace) = wordAt memory addr := by
  simp only [wordAt, Nat.mod_add_mod, Nat.mod_mod]

/-- A hit is the address of a word that was read and held the value. -/
theorem mem_hits {p : Process} {val : Word} {x : Nat × Region} {a : Nat} :
    a ∈ hits p val x ↔ ∃ j, 4 * j + 4 ≤ (p.read x.1 x.2.size).bytes ∧
      a = (x.2.start + 4 * j) % addressSpace ∧ wordAt (p.memory x.1) a = val := by
  simp only [hits, hitsAmong, List.mem_map, List.mem_filter, List.mem_range, decide_eq_true_eq]
  constructor
  · rintro ⟨j, ⟨hj, hval⟩, rfl⟩
    exact ⟨j, by omega, rfl, by rw [wordAt_mod]; exact hval⟩
  · rintro ⟨j, hj, rfl, hval⟩
    rw [wordAt_mod] at hval
    exact ⟨j, ⟨by omega, hval⟩, rfl⟩

/-- Regions of the address space that do not overlap. -/
structure DisjointRegions (regions : List (Nat × Region)) : Prop where
  below : ∀ x ∈ regions, x.2.start + x.2.size ≤ addressSpace
  apart : regions.Pairwise fun x y =>
    x.2.start + x.2.size ≤ y.2.start ∨ y.2.start + y.2.size ≤ x.2.start

section Nodup

variable {p : Process} {val : Word} {x : Nat × Region}
  (hbelow : x.2.start + x.2.size ≤ addressSpace)

include hbelow

theorem mem_hits_bounds {a : Nat} (h : a ∈ hits p val x) :
    x.2.start ≤ a ∧ a < x.2.start + x.2.size := by
  obtain ⟨j, hj, rfl, -⟩ := mem_hits.mp h
  have hsize := (p.read x.1 x.2.size).bytes_le
  rw [Nat.mod_eq_of_lt (by omega)]
  omega

theorem nodup_hits : (hits p val x).Nodup := by
  have hsize := (p.read x.1 x.2.size).bytes_le
  refine List.Nodup.map_on ?_ (List.nodup_range.filter _)
  intro j hj k hk he
  have hj' := List.mem_range.mp (List.mem_filter.mp hj).1
  have hk' := List.mem_range.mp (List.mem_filter.mp hk).1
  rw [Nat.mod_eq_of_lt (by omega), Nat.mod_eq_of_lt (by omega)] at he
  omega

end Nodup

theorem nodup_flatMap_hits {p : Process} {val : Word} {regions : List (Nat × Region)}
    (h : DisjointRegions regions) : (regions.flatMap (hits p val)).Nodup := by
  refine List.nodup_flatMap.mpr ⟨fun x hx => nodup_hits (h.below x hx), ?_⟩
  refine h.apart.imp_of_mem fun {x y} hx hy hxy a hax hay => ?_
  have hx' := mem_hits_bounds (h.below x hx) hax
  have hy' := mem_hits_bounds (h.below y hy) hay
  omega

/-! ## Searches -/

theorem narrowed_nil (remain : List Nat) : narrowed remain [] = remain := by
  simp [narrowed]

theorem narrowed_cons (remain : List Nat) (x : Process × Word) (l : List (Process × Word)) :
    narrowed remain (x :: l) = narrowed (remain.filter fun addr => x.1.load addr = x.2) l := by
  rw [narrowed, narrowed, List.filter_filter]
  refine List.filter_congr fun addr _ => ?_
  rw [List.all_cons, Bool.and_comm]

/-- While there are addresses, further searches narrow them. -/
theorem searches_narrow {remain : List Nat} {l : List (Process × Word)}
    (h : ∀ n < l.length, narrowed remain (l.take n) ≠ []) :
    searches remain l = .ok (narrowed remain l) := by
  induction l generalizing remain with
  | nil =>
      rw [narrowed_nil]
      rfl
  | cons x l ih =>
      have hne : remain ≠ [] := by
        have h0 := h 0 (Nat.succ_pos _)
        rwa [List.take_zero, narrowed_nil] at h0
      have hfirst : searchFor x.1 x.2 remain =
          .ok (remain.filter fun addr => x.1.load addr = x.2) := by
        cases remain with
        | nil => exact absurd rfl hne
        | cons a remain => rfl
      have hrest : ∀ n < l.length,
          narrowed (remain.filter fun addr => x.1.load addr = x.2) (l.take n) ≠ [] := by
        intro n hn
        have hn' := h (n + 1) (Nat.succ_lt_succ hn)
        rwa [List.take_succ_cons, narrowed_cons] at hn'
      have hcons : searches remain (x :: l) = searchFor x.1 x.2 remain >>= fun r => searches r l :=
        rfl
      rw [hcons, hfirst, ok_bind, ih hrest, narrowed_cons]

/-- A first search looks only at words of the copy that were completely read exactly
when every `read` returns a number of bytes, and a multiple of four.  What it then finds
are the addresses of the words with the value.  Further searches leave those that match
at every search, in the same order and without duplicates. -/
theorem search_exact (p : Process) (val : Word) :
    ((∀ f, searchFor p val [] ≠ .error (.fault f)) ↔
      ∀ x ∈ p.regions, (p.read x.1 x.2.size).Whole) ∧
    ∀ remain, searchFor p val [] = .ok remain →
      remain = p.regions.flatMap (hits p val) ∧
      (∀ a ∈ remain, ∃ x ∈ p.regions, ∃ j, 4 * j + 4 ≤ (p.read x.1 x.2.size).bytes ∧
        a = (x.2.start + 4 * j) % addressSpace ∧ wordAt (p.memory x.1) a = val) ∧
      ∀ l : List (Process × Word), (∀ n < l.length, narrowed remain (l.take n) ≠ []) →
        searches remain l = .ok (narrowed remain l) ∧ (narrowed remain l).Sublist remain ∧
        (DisjointRegions p.regions → (narrowed remain l).Nodup) := by
  have hends : Ends p val p.regions [] (p.lines.foldlM (scanLine p val) (0, [])) :=
    scanLines_ends p.lines 0 []
  have hsearch : searchFor p val [] =
      (p.lines.foldlM (scanLine p val) (0, [])).map Prod.snd := rfl
  rw [hsearch]
  generalize p.lines.foldlM (scanLine p val) (0, []) = result at hends
  constructor
  · cases hends with
    | found i hall => exact iff_of_true (fun f hf => by cases hf) hall
    | thrown hall he =>
        refine iff_of_true (fun f hf => ?_) hall
        exact he f (Except.error.inj hf)
    | fault f hsome =>
        obtain ⟨x, hx, hbad⟩ := hsome
        exact iff_of_false (fun h => h f rfl) fun h => hbad (h x hx)
  · intro remain hremain
    have hfound : remain = p.regions.flatMap (hits p val) := by
      cases hends with
      | found i hall =>
          rw [List.nil_append] at hremain
          exact (Except.ok.inj hremain).symm
      | thrown hall he => cases hremain
      | fault f hsome => cases hremain
    refine ⟨hfound, fun a ha => ?_, fun l hl => ⟨searches_narrow hl, List.filter_sublist, ?_⟩⟩
    · rw [hfound] at ha
      obtain ⟨x, hx, hax⟩ := List.mem_flatMap.mp ha
      exact ⟨x, hx, mem_hits.mp hax⟩
    · intro hdis
      rw [hfound]
      exact (nodup_flatMap_hits hdis).filter _

/-- A game with one writable region of a page, whose memory is zero. -/
def onePage (read : (i size : Nat) → ReadResult size) : Process where
  maps := "0000555555559000       4       4       4 rw---   [ anon ]\n".toList
  alloc := fun _ => true
  read := read
  memory := fun _ _ => 0
  load := fun _ => 0

/-- A `read` of a number of bytes. -/
def readBytes (n : Nat) (_ size : Nat) : ReadResult size :=
  if h : n ≤ size then .filled n h else .failed

/-- The game with the value 7 in the first two words of the page.  When they are loaded
later, the second one is 8. -/
def twoWords : Process :=
  { onePage (readBytes 8) with
    memory := fun _ addr => if addr % 4 = 0 then 7 else 0
    load := fun addr => if addr = 0x555555559004 then 8 else 7 }

/-- Both addresses are found, and a search for 8 leaves the second. -/
theorem search_exact_twoWords :
    searchFor twoWords 7 [] = .ok [0x555555559000, 0x555555559004] ∧
    searches [0x555555559000, 0x555555559004] [(twoWords, 8)] = .ok [0x555555559004] := by
  have hfound : searchFor twoWords 7 [] = .ok [0x555555559000, 0x555555559004] := rfl
  obtain ⟨-, -, hnarrow⟩ := (search_exact twoWords 7).2 _ hfound
  have hfirst : ∀ n < [(twoWords, (8 : Word))].length,
      narrowed [0x555555559000, 0x555555559004] ([(twoWords, 8)].take n) ≠ [] := by
    decide
  exact ⟨hfound, (hnarrow _ hfirst).1⟩

/-- A `read` that fails leads to a word that was not read, and a `read` of six bytes to a
word of which two bytes were read. -/
theorem search_unfilled :
    searchFor (onePage fun _ _ => .failed) 0 [] = .error (.fault (.unfilled 0)) ∧
    searchFor (onePage (readBytes 6)) 0 [] = .error (.fault (.unfilled 4)) :=
  ⟨rfl, rfl⟩

end OsCourse.Knight
