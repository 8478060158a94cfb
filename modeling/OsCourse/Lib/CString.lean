import Mathlib.Tactic

/-!
# Strings of C

A pointer into a string is the list of the characters from there on.  The string ends
at a zero character or at the end of the list, where the terminator is.  The functions
here are those of the C library that find a character, read a line and read a number.
Numbers in base 16 have the digits `0` to `9` and `a` to `f`.
-/

namespace OsCourse.CString

/-- `'\0'`. -/
def nul : Char := '\x00'

/-! ## Lines -/

/-- The first `n` characters, up to a newline. -/
def line : Nat → List Char → List Char
  | 0, _ => []
  | _, [] => []
  | n + 1, c :: cs => if c = '\n' then [c] else c :: line n cs

/-- `fgets(buffer, size, fp)` at the start of a file. -/
def fgets (size : Nat) (content : List Char) : Option (List Char) :=
  if content = [] then none else some (line (size - 1) content)

variable {n : Nat} {s : List Char} {c : Char}

theorem line_append {front : List Char} (h : '\n' ∉ front) (hn : front.length ≤ n) (s : List Char) :
    line n (front ++ s) = front ++ line (n - front.length) s := by
  induction front generalizing n with
  | nil => rfl
  | cons c front ih =>
      obtain ⟨m, rfl⟩ : ∃ m, n = m + 1 := ⟨n - 1, by rw [List.length_cons] at hn; omega⟩
      have hc : c ≠ '\n' := fun hc => h (hc ▸ List.mem_cons_self ..)
      rw [List.cons_append, line, if_neg hc,
        ih (fun hm => h (List.mem_cons_of_mem _ hm)) (Nat.le_of_succ_le_succ hn), List.length_cons,
        Nat.add_sub_add_right]
      rfl

theorem mem_head_line (h : c ∈ (line n s).head?) :
    c ∈ s.head? := by
  cases n with
  | zero => cases h
  | succ n =>
      cases s with
      | nil => cases h
      | cons d s =>
          rw [line] at h
          split at h <;> exact h

/-! ## Searching -/

/-- `strchr(s, c)`, for a character other than the terminator. -/
def strchr (c : Char) : List Char → Option (List Char)
  | [] => none
  | x :: xs => if x = c then some (x :: xs) else if x = nul then none else strchr c xs

theorem strchr_append {front : List Char} (hc : c ∉ front) (hnul : nul ∉ front) (s : List Char) :
    strchr c (front ++ c :: s) = some (c :: s) := by
  induction front with
  | nil => exact if_pos rfl
  | cons x front ih =>
      rw [List.mem_cons, not_or] at hc hnul
      rw [List.cons_append, strchr, if_neg (Ne.symm hc.1), if_neg (Ne.symm hnul.1)]
      exact ih hc.2 hnul.2

/-- What is found starts with the character, and neither it nor the terminator is
before. -/
theorem strchr_some {t : List Char} (h : strchr c s = some t) :
    ∃ front, s = front ++ t ∧ c ∉ front ∧ nul ∉ front := by
  induction s with
  | nil => cases h
  | cons x s ih =>
      rw [strchr] at h
      split at h
      next =>
        cases h
        exact ⟨[], rfl, List.not_mem_nil, List.not_mem_nil⟩
      next hx =>
        split at h
        next => cases h
        next hnul =>
          obtain ⟨front, rfl, hc, hn⟩ := ih h
          refine ⟨x :: front, rfl, ?_, ?_⟩
          · exact List.not_mem_cons_of_ne_of_not_mem (Ne.symm hx) hc
          · exact List.not_mem_cons_of_ne_of_not_mem (Ne.symm hnul) hn

/-! ## Numbers -/

/-- `isspace`. -/
def isSpace (c : Char) : Bool := c = ' ' || ('\t' ≤ c && c ≤ '\r')

/-- The number that the leading digits denote. -/
def digitsValue (s : List Char) : Nat := Nat.ofDigitChars 10 (s.takeWhile Char.isDigit) 0

/-- `strtol(s, NULL, 10)`, for a `long` of 64 bits. -/
def strtol (s : List Char) : Int :=
  match s.dropWhile isSpace with
  | '-' :: ds => max (-2 ^ 63) (-digitsValue ds)
  | '+' :: ds => min (2 ^ 63 - 1) (digitsValue ds)
  | ds => min (2 ^ 63 - 1) (digitsValue ds)

/-- `atoi`, which is `strtol` cut to an `int`. -/
def atoi (s : List Char) : Int := (strtol s).bmod (2 ^ 32)

/-- A number in decimal. -/
def decimal (n : Nat) : List Char := Nat.toDigits 10 n

theorem isDigit_of_mem_decimal (h : c ∈ decimal n) : c.isDigit = true :=
  Nat.isDigit_of_mem_toDigits (by decide) le_rfl h

theorem not_mem_decimal (h : c.isDigit = false) : c ∉ decimal n := by
  intro hmem
  rw [isDigit_of_mem_decimal hmem] at h
  cases h

/-- The digits of a number, up to what is not a digit. -/
theorem takeWhile_decimal (n : Nat) (hs : ∀ c ∈ s.head?, c.isDigit = false) :
    (decimal n ++ s).takeWhile Char.isDigit = decimal n := by
  rw [List.takeWhile_append_of_pos fun c hc => isDigit_of_mem_decimal hc]
  cases s with
  | nil => simp
  | cons c s => rw [List.takeWhile_cons_of_neg (by simp [hs c rfl]), List.append_nil]

theorem not_isSpace_of_isDigit (h : c.isDigit = true) : isSpace c = false := by
  have hzero : '0' ≤ c := by
    simp only [Char.isDigit, Bool.and_eq_true, decide_eq_true_eq] at h
    exact h.1
  have hblank : c ≠ ' ' := by
    rintro rfl
    cases h
  have hlow : ¬ c ≤ '\r' := fun hle => absurd (Char.le_trans hzero hle) (by decide)
  simp [isSpace, hblank, hlow]

/-- A text that starts with a digit is the text of a number that is not negative. -/
theorem strtol_digit (h : c.isDigit = true) (s : List Char) :
    strtol (c :: s) = min (2 ^ 63 - 1) (digitsValue (c :: s) : Int) := by
  unfold strtol
  rw [List.dropWhile_cons_of_neg (by simp [not_isSpace_of_isDigit h])]
  split
  next heq =>
    obtain ⟨rfl, -⟩ := List.cons.inj heq
    cases h
  next heq =>
    obtain ⟨rfl, -⟩ := List.cons.inj heq
    cases h
  next => rfl

/-- A number that fits into an `int` is read back. -/
theorem atoi_decimal (hn : n < 2 ^ 31) (hs : ∀ c ∈ s.head?, c.isDigit = false) :
    atoi (decimal n ++ s) = n := by
  have hvalue : digitsValue (decimal n ++ s) = n := by
    rw [digitsValue, takeWhile_decimal n hs]
    exact Nat.ofDigitChars_toDigits (by decide) le_rfl
  obtain ⟨c, cs, hcs⟩ := List.exists_cons_of_ne_nil (Nat.toDigits_ne_nil (n := n) (b := 10))
  have hdecimal : decimal n = c :: cs := hcs
  have hc : c.isDigit = true := isDigit_of_mem_decimal (n := n) (hdecimal ▸ List.mem_cons_self ..)
  rw [hdecimal, List.cons_append] at hvalue ⊢
  rw [atoi, strtol_digit hc, hvalue, min_eq_right (by omega)]
  exact Int.bmod_eq_of_le (by omega) (by omega)

/-! ## Numbers in base 16 -/

/-- The characters `0` to `9` and `a` to `f`. -/
def isHexDigit (c : Char) : Bool := c.isDigit || ('a' ≤ c && c ≤ 'f')

/-- What a digit is worth. -/
def hexDigit (c : Char) : Nat := if c.isDigit then c.toNat - 48 else c.toNat - 87

/-- The number that digits denote in base 16. -/
def hexValue (ds : List Char) : Nat := Nat.ofDigits 16 (ds.reverse.map hexDigit)

theorem hexValue_append (ds es : List Char) :
    hexValue (ds ++ es) = hexValue ds * 16 ^ es.length + hexValue es := by
  rw [hexValue, List.reverse_append, List.map_append, Nat.ofDigits_append, List.length_map,
    List.length_reverse, hexValue, hexValue]
  ring

theorem hexValue_singleton (c : Char) : hexValue [c] = hexDigit c := Nat.ofDigits_singleton

theorem hexValue_cons (c : Char) (ds : List Char) :
    hexValue (c :: ds) = hexDigit c * 16 ^ ds.length + hexValue ds := by
  rw [← List.singleton_append, hexValue_append, hexValue_singleton]

end OsCourse.CString
