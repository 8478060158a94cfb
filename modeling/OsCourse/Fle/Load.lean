import Mathlib.Data.List.TakeDrop
import Mathlib.Tactic

/-!
# The load lines of an executable

`FLE_ld` writes the image as lines of at most 16 bytes.  A line is the marker
for bytes, a colon and the bytes in hexadecimal, each after a blank.  `FLE_exec`
reads them back: it drops the marker, splits the rest at white space and reads
every word in base 16.

`execImage_loadLines` is the round trip, for images of any length.
-/

namespace OsCourse.Fle

/-- A text of a file, a list of its characters. -/
abbrev Text := List Char

/-- The marker of byte items and of load lines. -/
def bytesMark : Char := '🔢'

/-! ## Writing -/

/-- A digit of `f'{b:02x}'`. -/
def hexDigit (n : Nat) : Char := ("0123456789abcdef".toList).getD n '0'

/-- `f'{b:02x}'`. -/
def hex (b : UInt8) : Text := [hexDigit (b.toNat / 16), hexDigit (b.toNat % 16)]

/-- `' '.join(words)`. -/
def joinBlank : List Text → Text
  | [] => []
  | [w] => w
  | w :: ws => w ++ ' ' :: joinBlank ws

/-- `[res[i:i+16] for i in range(0, len(res), 16)]`. -/
def parts (res : List UInt8) : List (List UInt8) :=
  (List.range ((res.length + 15) / 16)).map fun i => (res.drop (16 * i)).take 16

/-- One line of `.load`. -/
def loadLine (part : List UInt8) : Text := bytesMark :: ':' :: ' ' :: joinBlank (part.map hex)

/-- The value of `.load`. -/
def loadLines (res : List UInt8) : List Text := (parts res).map loadLine

/-! ## Reading -/

/-- The value of a hexadecimal digit. -/
def digitValue (c : Char) : Option Nat :=
  if '0' ≤ c ∧ c ≤ '9' then some (c.toNat - '0'.toNat)
  else if 'a' ≤ c ∧ c ≤ 'f' then some (c.toNat - 'a'.toNat + 10)
  else if 'A' ≤ c ∧ c ≤ 'F' then some (c.toNat - 'A'.toNat + 10)
  else none

/-- The value of the digits of a word after the digits with value `acc`. -/
def digitsValue : Nat → Text → Option Nat
  | acc, [] => some acc
  | acc, c :: cs => (digitValue c).bind fun d => digitsValue (16 * acc + d) cs

/-- `int(b, 16)` on a word of digits. -/
def int16 : Text → Option Nat
  | [] => none
  | c :: cs => digitsValue 0 (c :: cs)

/-- `line.split()`, where `word` is the part of the current word already read. -/
def splitWords : Text → Text → List Text
  | word, [] => if word = [] then [] else [word]
  | word, c :: cs =>
      if c.isWhitespace then (if word = [] then splitWords [] cs else word :: splitWords [] cs)
      else splitWords (word ++ [c]) cs

/-- `bytes([int(b, 16) for b in words])`, which refuses values over 255. -/
def readBytes : List Text → Option (List UInt8)
  | [] => some []
  | w :: ws => do
      let n ← int16 w
      let bs ← readBytes ws
      if n < 256 then some (UInt8.ofNat n :: bs) else none

/-- The bytes of one line, none of a line without the marker. -/
def execLine : Text → Option (List UInt8)
  | c :: d :: rest => if c = bytesMark ∧ d = ':' then readBytes (splitWords [] rest) else some []
  | _ => some []

/-- The image that `FLE_exec` collects from the lines of `.load`. -/
def execImage : List Text → Option (List UInt8)
  | [] => some []
  | line :: lines => do
      let bs ← execLine line
      let rest ← execImage lines
      some (bs ++ rest)

/-! ## The round trip -/

theorem int16_hex (b : UInt8) : int16 (hex b) = some b.toNat := by
  have hall : ∀ n < 256, int16 [hexDigit (n / 16), hexDigit (n % 16)] = some n := by decide +kernel
  exact hall b.toNat b.toNat_lt

theorem hexDigit_not_blank {n : Nat} (h : n < 16) : (hexDigit n).isWhitespace = false := by
  have hall : ∀ n < 16, (hexDigit n).isWhitespace = false := by decide
  exact hall n h

/-- A word of a text: not empty and without white space. -/
def IsWord (word : Text) : Prop := word ≠ [] ∧ ∀ c ∈ word, c.isWhitespace = false

instance (word : Text) : Decidable (IsWord word) :=
  decidable_of_iff (word ≠ [] ∧ word.all (fun c => !c.isWhitespace) = true) (by simp [IsWord])

theorem splitWords_append {word : Text} (h : ∀ c ∈ word, c.isWhitespace = false) (acc cs : Text) :
    splitWords acc (word ++ cs) = splitWords (acc ++ word) cs := by
  induction word generalizing acc with
  | nil => rw [List.append_nil, List.nil_append]
  | cons c word ih =>
      have hc : c.isWhitespace = false := h c (List.mem_cons_self ..)
      rw [List.cons_append, splitWords, hc, if_neg Bool.false_ne_true,
        ih fun d hd => h d (List.mem_cons_of_mem _ hd), List.append_assoc, List.singleton_append]

theorem splitWords_blank (word cs : Text) (h : word ≠ []) :
    splitWords word (' ' :: cs) = word :: splitWords [] cs := by
  have hblank : ' '.isWhitespace = true := by decide
  rw [splitWords, if_pos hblank, if_neg h]

/-- Words that were joined come apart again. -/
theorem splitWords_joinBlank : ∀ {words : List Text}, (∀ w ∈ words, IsWord w) →
    splitWords [] (joinBlank words) = words
  | [], _ => rfl
  | [w], h => by
      have hw := h w (List.mem_cons_self ..)
      have hsplit := splitWords_append hw.2 [] []
      rw [List.append_nil, List.nil_append] at hsplit
      rw [joinBlank, hsplit, splitWords, if_neg hw.1]
  | w :: w' :: words, h => by
      have hw := h w (List.mem_cons_self ..)
      have ih := splitWords_joinBlank fun v hv => h v (List.mem_cons_of_mem _ hv)
      rw [joinBlank, splitWords_append hw.2, List.nil_append, splitWords_blank _ _ hw.1, ih]
      exact List.cons_ne_nil _ _

theorem isWord_hex (b : UInt8) : IsWord (hex b) := by
  have hlt := b.toNat_lt
  have hhigh := hexDigit_not_blank (n := b.toNat / 16) (by omega)
  have hlow := hexDigit_not_blank (n := b.toNat % 16) (by omega)
  refine ⟨List.cons_ne_nil _ _, fun c hc => ?_⟩
  rw [hex, List.mem_cons, List.mem_singleton] at hc
  rcases hc with rfl | rfl
  · exact hhigh
  · exact hlow

theorem splitWords_join (part : List UInt8) :
    splitWords [] (joinBlank (part.map hex)) = part.map hex := by
  refine splitWords_joinBlank fun w hw => ?_
  obtain ⟨b, -, rfl⟩ := List.mem_map.mp hw
  exact isWord_hex b

theorem readBytes_hex (part : List UInt8) : readBytes (part.map hex) = some part := by
  induction part with
  | nil => rfl
  | cons b part ih =>
      rw [List.map_cons, readBytes, int16_hex, ih]
      simp [b.toNat_lt]

theorem execLine_loadLine (part : List UInt8) : execLine (loadLine part) = some part := by
  have hblank : splitWords [] (' ' :: joinBlank (part.map hex)) =
      splitWords [] (joinBlank (part.map hex)) := by
    rw [splitWords, if_pos (by decide), if_pos rfl]
  rw [loadLine, execLine, if_pos ⟨rfl, rfl⟩, hblank, splitWords_join, readBytes_hex]

theorem execImage_map_loadLine (ps : List (List UInt8)) :
    execImage (ps.map loadLine) = some ps.flatten := by
  induction ps with
  | nil => rfl
  | cons p ps ih => rw [List.map_cons, execImage, execLine_loadLine, ih]; rfl

theorem flatten_range_parts (res : List UInt8) (n : Nat) :
    ((List.range n).map fun i => (res.drop (16 * i)).take 16).flatten = res.take (16 * n) := by
  induction n with
  | zero => simp
  | succ n ih =>
      rw [List.range_succ, List.map_append, List.flatten_append, ih, Nat.mul_succ, List.take_add]
      simp

theorem flatten_parts (res : List UInt8) : (parts res).flatten = res := by
  rw [parts, flatten_range_parts]
  exact List.take_of_length_le (by omega)

/-- `FLE_exec` reads back the image that `FLE_ld` wrote. -/
theorem execImage_loadLines (res : List UInt8) : execImage (loadLines res) = some res := by
  rw [loadLines, execImage_map_loadLine, flatten_parts]

end OsCourse.Fle
