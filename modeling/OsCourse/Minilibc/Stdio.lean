import OsCourse.Lib.CString
import OsCourse.Lib.Except

/-!
# `printf` of the small C library

`printf` goes over its format and stores what each part stands for into a buffer of
1024 characters, which it then writes.  A store behind the end of an array, a read of
the format behind its terminating NUL, an argument that is not there and the negation of
the least `int` are faults of the model.

`parse` takes a format apart without looking at arguments or the buffer, and
`Parsed.expand` is the text that its parts stand for.  The loop stores this text
(`printfLoop_eq`).  If the arguments match (`Matches`), its only faults are an unfinished
`%` at the end of the format and a text that is too long.
-/

namespace OsCourse.Minilibc

open CString

/-- The characters of a string in memory, up to its terminating NUL. -/
structure Text where
  chars : List Char
  no_nul : nul ∉ chars

/-- What C does not allow. -/
inductive Fault where
  /-- A store to `temp[i]`. -/
  | temp (i : Nat)
  /-- A store to `buffer[i]`. -/
  | buffer (i : Nat)
  /-- A read of the format behind its terminating NUL. -/
  | format
  /-- An argument that is not there, or not of the type that is asked for. -/
  | argument
  /-- `-number` for the least number, which is not representable. -/
  | overflow
deriving DecidableEq

/-- `array[i++] = c`, for an array of `size` characters of which `i` are stored. -/
def push (size : Nat) (fault : Nat → Fault) (stored : List Char) (c : Char) :
    Except Fault (List Char) :=
  if stored.length < size then .ok (stored ++ [c]) else .error (fault stored.length)

/-! ## Integers -/

/-- The digits of a positive number, the last one first. -/
def digitsLoop (number : Int32) (temp : List Char) : Except Fault (List Char) :=
  if 0 < number then do
    let temp ← push 20 .temp temp (Char.ofNat (48 + (number % 10).toInt.toNat))
    digitsLoop (number / 10) temp
  else .ok temp
termination_by number.toInt.toNat
decreasing_by
  next h =>
    rw [Int32.lt_iff_toInt_lt] at h
    rw [Int32.toInt_div_of_ne_right _ _ (by decide)]
    have hzero : Int32.toInt 0 = 0 := rfl
    have hten : Int32.toInt 10 = 10 := rfl
    rw [hten, Int.tdiv_eq_ediv_of_nonneg (by omega)]
    omega

/-- `number` after the test of its sign. -/
def magnitude (number : Int32) : Except Fault Int32 :=
  if number < 0 then if number = Int32.minValue then .error .overflow else .ok (-number)
  else .ok number

/-- `temp` after the conversion. -/
def digits (number : Int32) : Except Fault (List Char) :=
  if number = 0 then push 20 .temp [] '0' else digitsLoop number []

/-- The characters that are stored from `buffer` on.  Their number is returned. -/
def printInt (number : Int32) : Except Fault (List Char) := do
  let temp ← digits (← magnitude number)
  return (if number < 0 then ['-'] else []) ++ temp.reverse

theorem push_of_lt {size : Nat} {fault : Nat → Fault} {stored : List Char}
    (h : stored.length < size) (c : Char) : push size fault stored c = .ok (stored ++ [c]) :=
  if_pos h

variable {number : Int32} {m : Nat}

theorem toInt_div_ten (h : 0 < number.toInt) :
    (number / 10).toInt = ((number.toInt.toNat / 10 : Nat) : Int) := by
  have hten : Int32.toInt 10 = 10 := rfl
  rw [Int32.toInt_div_of_ne_right _ _ (by decide), hten,
    Int.tdiv_eq_ediv_of_nonneg (by omega)]
  omega

theorem toInt_mod_ten (h : 0 < number.toInt) :
    (number % 10).toInt.toNat = number.toInt.toNat % 10 := by
  have hten : Int32.toInt 10 = 10 := rfl
  rw [Int32.toInt_mod, hten, Int.tmod_eq_emod_of_nonneg (by omega)]
  omega

theorem ofNat_digit {d : Nat} (h : d < 10) : Char.ofNat (48 + d) = Nat.digitChar d := by
  interval_cases d <;> rfl

theorem digitsLoop_of_pos (h : 0 < number.toInt) (temp : List Char) :
    digitsLoop number temp =
      push 20 .temp temp (Nat.digitChar (number.toInt.toNat % 10)) >>=
        digitsLoop (number / 10) := by
  have hpos : 0 < number := Int32.lt_iff_toInt_lt.mpr h
  rw [digitsLoop, if_pos hpos, toInt_mod_ten h, ofNat_digit (Nat.mod_lt _ (by omega))]

theorem digitsLoop_of_nonpos (h : number.toInt ≤ 0) (temp : List Char) :
    digitsLoop number temp = .ok temp := by
  have hpos : ¬ 0 < number := fun hpos => absurd (Int32.lt_iff_toInt_lt.mp hpos) (not_lt.mpr h)
  rw [digitsLoop, if_neg hpos]

theorem decimal_eq (m : Nat) : decimal m =
    (if m < 10 then [] else decimal (m / 10)) ++ [Nat.digitChar (m % 10)] := by
  rw [decimal, Nat.toDigits_eq_if (by decide)]
  split
  · next h => rw [Nat.mod_eq_of_lt h, List.nil_append]
  · rfl

/-- The loop appends the digits backwards, as long as `temp` has room for them. -/
theorem digitsLoop_eq (m : Nat) (hm : number.toInt = m) (hpos : 0 < m) {temp : List Char}
    (hroom : temp.length + (decimal m).length ≤ 20) :
    digitsLoop number temp = .ok (temp ++ (decimal m).reverse) := by
  induction m using Nat.strong_induction_on generalizing number temp with
  | _ m ih =>
      have htoNat : number.toInt.toNat = m := by omega
      have hnumber : 0 < number.toInt := by omega
      have hdiv := toInt_div_ten hnumber
      rw [htoNat] at hdiv
      rw [decimal_eq] at hroom ⊢
      rw [List.length_append, List.length_singleton] at hroom
      rw [digitsLoop_of_pos hnumber, htoNat, push_of_lt (by omega), ok_bind]
      by_cases hlast : m < 10
      · rw [if_pos hlast, digitsLoop_of_nonpos (by omega)]
        rfl
      · rw [if_neg hlast] at hroom ⊢
        have hroom' :
            (temp ++ [Nat.digitChar (m % 10)]).length + (decimal (m / 10)).length ≤ 20 := by
          rw [List.length_append, List.length_singleton]
          omega
        rw [ih (m / 10) (by omega) hdiv (by omega) hroom']
        simp

theorem length_decimal_le (h : m < 2 ^ 31) : (decimal m).length ≤ 10 :=
  (Nat.length_toDigits_le_iff (by decide) (by decide)).mpr (by omega)

/-- A number in decimal, with its sign. -/
def signed (z : Int) : List Char := (if z < 0 then ['-'] else []) ++ decimal z.natAbs

theorem lt_zero_iff (number : Int32) : number < 0 ↔ number.toInt < 0 := Int32.lt_iff_toInt_lt

theorem magnitude_eq (h : number ≠ Int32.minValue) :
    ∃ n, magnitude number = .ok n ∧ n.toInt = number.toInt.natAbs := by
  have hmin : number.toInt ≠ -2 ^ 31 := fun heq => h (Int32.toInt_inj.mp heq)
  have hlow := number.le_toInt
  have hhigh := number.toInt_lt
  rw [magnitude]
  split
  · next hneg =>
      rw [lt_zero_iff] at hneg
      refine ⟨-number, rfl, ?_⟩
      rw [Int32.toInt_neg, Int.bmod_eq_of_le (by omega) (by omega)]
      omega
  · next hneg =>
      rw [lt_zero_iff] at hneg
      exact ⟨number, rfl, by omega⟩

theorem digits_eq (hm : number.toInt = m) :
    digits number = .ok (decimal m).reverse := by
  have hhigh := number.toInt_lt
  rw [digits]
  split
  · next hzero =>
      have hm0 : m = 0 := by
        rw [hzero] at hm
        exact (Int.ofNat_eq_zero.mp hm.symm)
      rw [hm0]
      rfl
  · next hzero =>
      have hpos : 0 < m := by
        refine Nat.pos_of_ne_zero fun hm0 => hzero (Int32.toInt_inj.mp ?_)
        rw [hm, hm0]
        rfl
      have hlen : (decimal m).length ≤ 10 := length_decimal_le (by omega)
      rw [digitsLoop_eq m hm hpos (by rw [List.length_nil]; omega), List.nil_append]

/-- Every number but the least is printed in decimal. -/
theorem printInt_eq (h : number ≠ Int32.minValue) :
    printInt number = .ok (signed number.toInt) := by
  obtain ⟨n, hn, hvalue⟩ := magnitude_eq h
  rw [printInt, hn, ok_bind, digits_eq hvalue, ok_bind, List.reverse_reverse, signed]
  simp only [lt_zero_iff]
  rfl

theorem printInt_minValue : printInt Int32.minValue = .error .overflow := rfl

/-- A text is the decimal representation of a number: perhaps a sign, then digits
without a zero in front of others. -/
def Canonical (text : List Char) : Prop :=
  ∃ sign digits, text = sign ++ digits ∧ (sign = [] ∨ sign = ['-'] ∧ digits ≠ ['0']) ∧
    digits ≠ [] ∧ (∀ c ∈ digits, c.isDigit = true) ∧
    (digits.head? = some '0' → digits = ['0'])

theorem head?_decimal (h : (decimal m).head? = some '0') : m = 0 := by
  induction m using Nat.strong_induction_on with
  | _ m ih =>
      rw [decimal_eq] at h
      by_cases hlast : m < 10
      · rw [if_pos hlast, Nat.mod_eq_of_lt hlast] at h
        interval_cases m <;> first | rfl | cases h
      · have hne : decimal (m / 10) ≠ [] := Nat.toDigits_ne_nil
        rw [if_neg hlast, List.head?_append_of_ne_nil _ hne] at h
        have := ih (m / 10) (by omega) h
        omega

theorem canonical_signed (z : Int) : Canonical (signed z) := by
  refine ⟨_, _, rfl, ?_, Nat.toDigits_ne_nil, fun c hc => isDigit_of_mem_decimal hc, fun h => ?_⟩
  · split
    · next hneg =>
        refine .inr ⟨rfl, fun h => ?_⟩
        have := head?_decimal (m := z.natAbs) (by rw [h]; rfl)
        omega
    · exact .inl rfl
  · rw [head?_decimal h]
    rfl

theorem strtol_signed {z : Int} (hlow : -2 ^ 31 ≤ z) (hhigh : z < 2 ^ 31) :
    strtol (signed z) = z := by
  have hvalue : digitsValue (decimal z.natAbs) = z.natAbs := by
    have htake := takeWhile_decimal z.natAbs (s := []) (by simp)
    rw [List.append_nil] at htake
    rw [digitsValue, htake]
    exact Nat.ofDigitChars_toDigits (by decide) le_rfl
  rw [signed]
  split
  · have hdash : isSpace '-' = false := by decide
    rw [List.singleton_append, strtol, List.dropWhile_cons_of_neg (by simp [hdash])]
    simp only [hvalue]
    omega
  · obtain ⟨c, cs, hcs⟩ :=
      List.exists_cons_of_ne_nil (Nat.toDigits_ne_nil (n := z.natAbs) (b := 10))
    have hdecimal : decimal z.natAbs = c :: cs := hcs
    have hc : c.isDigit = true :=
      isDigit_of_mem_decimal (n := z.natAbs) (hdecimal ▸ List.mem_cons_self ..)
    rw [List.nil_append, hdecimal, strtol_digit hc, ← hdecimal, hvalue]
    omega

/-- What is printed for every number but the least is its decimal representation, from
which it is read back. -/
theorem printInt_roundTrip_iff (n : Int32) :
    (∃ text, printInt n = .ok text ∧ Canonical text ∧ text.length ≤ 11 ∧
      strtol text = n.toInt) ↔ n ≠ Int32.minValue := by
  constructor
  · rintro ⟨text, htext, -⟩ rfl
    rw [printInt_minValue] at htext
    cases htext
  · intro h
    have hlow := n.le_toInt
    have hhigh := n.toInt_lt
    have hmin : n.toInt ≠ -2 ^ 31 := fun heq => h (Int32.toInt_inj.mp heq)
    refine ⟨_, printInt_eq h, canonical_signed _, ?_, strtol_signed hlow hhigh⟩
    have hlen : (decimal n.toInt.natAbs).length ≤ 10 := length_decimal_le (by omega)
    rw [signed, List.length_append]
    split
    · rw [List.length_singleton]
      omega
    · rw [List.length_nil]
      omega

/-- Of the least number there is no absolute value. -/
theorem minValue_overflows : Int32.minValue < 0 ∧
    magnitude Int32.minValue = .error .overflow ∧ printInt Int32.minValue = .error .overflow :=
  ⟨by decide, rfl, rfl⟩

/-! ## Formats -/

/-- An argument: a pointer to a string, which can be `NULL`, or an `int`. -/
inductive Arg where
  | str (s : Option Text)
  | int (n : Int32)

/-- `"(null)"`. -/
def nullText : List Char := ['(', 'n', 'u', 'l', 'l', ')']

/-- The string that `%s` stands for. -/
def strText : Option Text → List Char
  | none => nullText
  | some s => s.chars

/-- `buffer[count++] = c`. -/
def put : List Char → Char → Except Fault (List Char) := push 1024 .buffer

/-- Stores one after the other. -/
def putAll (buffer text : List Char) : Except Fault (List Char) := text.foldlM put buffer

/-- A `%` at the end of the format: the terminating NUL is stored as the character behind
it, and the next character that the loop reads is behind the NUL. -/
def unfinished (buffer : List Char) : Except Fault (List Char) := do
  let buffer ← put buffer '%'
  let _ ← put buffer nul
  .error .format

/-- The loop over the format, which is left from `p` on. -/
def printfLoop : List Char → List Arg → List Char → Except Fault (List Char)
  | [], _, buffer => .ok buffer
  | c :: p, args, buffer =>
      if c ≠ '%' then do
        let buffer ← put buffer c
        printfLoop p args buffer
      else
        match p with
        | [] => unfinished buffer
        | d :: p =>
            if d = 's' then
              match args with
              | .str s :: args => do
                  let buffer ← putAll buffer (strText s)
                  printfLoop p args buffer
              | _ => .error .argument
            else if d = 'd' then
              match args with
              | .int n :: args => do
                  let text ← printInt n
                  let buffer ← putAll buffer text
                  printfLoop p args buffer
              | _ => .error .argument
            else if d = '%' then do
              let buffer ← put buffer '%'
              printfLoop p args buffer
            else do
              let buffer ← put buffer '%'
              let buffer ← put buffer d
              printfLoop p args buffer

/-- What is passed to `write`, and what is returned. -/
def printf (format : Text) (args : List Arg) : Except Fault (List Char × Nat) := do
  let buffer ← printfLoop format.chars args []
  return (buffer, buffer.length)

/-! ## The parts of a format -/

/-- A part of a format. -/
inductive Part where
  | literal (c : Char)
  | str
  | int
  | percent
  /-- `%` with a character that it does not know. -/
  | other (c : Char)
deriving DecidableEq

/-- The part that `%` and a character are. -/
def Part.ofChar (c : Char) : Part :=
  if c = 's' then .str else if c = 'd' then .int else if c = '%' then .percent else .other c

/-- The characters of a part. -/
def Part.source : Part → List Char
  | .literal c => [c]
  | .str => ['%', 's']
  | .int => ['%', 'd']
  | .percent => ['%', '%']
  | .other c => ['%', c]

/-- The parts of a format, and whether a `%` is left at its end. -/
def parse : List Char → List Part × Bool
  | [] => ([], false)
  | [c] => if c = '%' then ([], true) else ([.literal c], false)
  | c :: d :: p =>
      if c = '%' then ((.ofChar d) :: (parse p).1, (parse p).2)
      else (.literal c :: (parse (d :: p)).1, (parse (d :: p)).2)

theorem source_ofChar (c : Char) : (Part.ofChar c).source = ['%', c] := by
  unfold Part.ofChar
  split
  · next h => rw [h]; rfl
  · split
    · next h => rw [h]; rfl
    · split
      · next h => rw [h]; rfl
      · rfl

/-- Nothing of a format is lost. -/
theorem source_parse (p : List Char) :
    (parse p).1.flatMap Part.source ++ (if (parse p).2 then ['%'] else []) = p := by
  fun_induction parse p with
  | case1 => rfl
  | case2 => rfl
  | case3 => rfl
  | case4 d p ih => simp [source_ofChar, ih]
  | case5 c d p _ ih => simpa [Part.source] using ih

/-- A format that does not end with `%` has no unfinished one. -/
theorem parse_of_getLast? {p : List Char} (h : p.getLast? ≠ some '%') : (parse p).2 = false := by
  cases hparse : (parse p).2 with
  | false => rfl
  | true =>
      have hsource := source_parse p
      rw [hparse, if_pos rfl] at hsource
      exact absurd (by rw [← hsource, List.getLast?_concat]) h

/-- The text that parts stand for, when the arguments match them. -/
def expand : List Part → List Arg → Option (List Char)
  | [], _ => some []
  | .literal c :: parts, args => (expand parts args).map (c :: ·)
  | .str :: parts, .str s :: args => (expand parts args).map (strText s ++ ·)
  | .int :: parts, .int n :: args =>
      (printInt n).toOption.bind fun text => (expand parts args).map (text ++ ·)
  | .percent :: parts, args => (expand parts args).map ('%' :: ·)
  | .other c :: parts, args => (expand parts args).map (['%', c] ++ ·)
  | .str :: _, _ => none
  | .int :: _, _ => none

/-- There is an argument of the type that each part asks for, and no number is the least. -/
def Matches : List Part → List Arg → Prop
  | [], _ => True
  | .str :: parts, .str _ :: args => Matches parts args
  | .int :: parts, .int n :: args => n ≠ Int32.minValue ∧ Matches parts args
  | .str :: _, _ => False
  | .int :: _, _ => False
  | _ :: parts, args => Matches parts args

/-- The text exists exactly if the arguments match. -/
theorem exists_expand_iff (parts : List Part) (args : List Arg) :
    (∃ text, expand parts args = some text) ↔ Matches parts args := by
  have hmap {o : Option (List Char)} {f : List Char → List Char} :
      (∃ text, o.map f = some text) ↔ ∃ text, o = some text := by
    cases o <;> simp
  fun_induction expand parts args with
  | case4 parts n args ih =>
      have hrest : (∃ text, expand parts args = some text) ↔ Matches parts args := ih
      rw [Matches, ← hrest]
      by_cases hn : n = Int32.minValue
      · simp [hn, printInt_minValue, Except.toOption]
      · simp [hn, printInt_eq hn, Except.toOption]
  | _ => simp_all [Matches]

/-! ## Stores -/

variable {args : List Arg} {text : List Char}

@[simp] theorem putAll_nil (buffer : List Char) : putAll buffer [] = .ok buffer := rfl

theorem putAll_append (buffer text text' : List Char) :
    putAll buffer (text ++ text') = putAll buffer text >>= fun b => putAll b text' :=
  List.foldlM_append

theorem putAll_cons (buffer : List Char) (c : Char) (text : List Char) :
    putAll buffer (c :: text) = put buffer c >>= fun b => putAll b text :=
  List.foldlM_cons

theorem putAll_eq {buffer : List Char} (hbuffer : buffer.length ≤ 1024) (text : List Char) :
    putAll buffer text =
      if buffer.length + text.length ≤ 1024 then .ok (buffer ++ text)
      else .error (.buffer 1024) := by
  induction text generalizing buffer with
  | nil => rw [if_pos (by simpa using hbuffer), List.append_nil, putAll_nil]
  | cons c text ih =>
      rw [putAll_cons, put, push]
      by_cases hroom : buffer.length < 1024
      · have hlen : (buffer ++ [c]).length = buffer.length + 1 := by simp
        rw [if_pos hroom, ok_bind, ih (by omega), hlen]
        simp [Nat.add_assoc, Nat.add_comm 1]
      · have hfull : buffer.length = 1024 := by omega
        rw [if_neg hroom, if_neg (by simp; omega), hfull]
        rfl

theorem printfLoop_literal {c : Char} (hc : c ≠ '%') (p : List Char) (args : List Arg)
    (buffer : List Char) :
    printfLoop (c :: p) args buffer = put buffer c >>= fun b => printfLoop p args b := by
  rw [printfLoop.eq_def]
  exact if_pos hc

/-- A part that begins with `%` stores what it stands for, and the loop goes on behind it. -/
theorem printfLoop_part (d : Char) (p : List Char) {parts : List Part}
    (h : expand (.ofChar d :: parts) args = some text) :
    ∃ front args' text', text = front ++ text' ∧ expand parts args' = some text' ∧
      ∀ buffer, printfLoop ('%' :: d :: p) args buffer =
        putAll buffer front >>= fun b => printfLoop p args' b := by
  unfold Part.ofChar at h
  split_ifs at h with hs hd hpercent
  · cases args with
    | nil => cases h
    | cons arg args =>
        cases arg with
        | int n => cases h
        | str s =>
            obtain ⟨text', htext', rfl⟩ := Option.map_eq_some_iff.mp h
            exact ⟨strText s, args, text', rfl, htext', fun buffer => by simp [printfLoop, hs]⟩
  · cases args with
    | nil => cases h
    | cons arg args =>
        cases arg with
        | str s => cases h
        | int n =>
            obtain ⟨front, hfront, h⟩ := Option.bind_eq_some_iff.mp h
            obtain ⟨text', htext', rfl⟩ := Option.map_eq_some_iff.mp h
            have hint : printInt n = .ok front := by
              cases hn : printInt n with
              | error e =>
                  rw [hn] at hfront
                  cases hfront
              | ok t =>
                  rw [hn] at hfront
                  exact congrArg Except.ok (Option.some.inj hfront)
            refine ⟨front, args, text', rfl, htext', fun buffer => ?_⟩
            simp [printfLoop, hd, hint, ok_bind]
  · obtain ⟨text', htext', rfl⟩ := Option.map_eq_some_iff.mp h
    exact ⟨['%'], args, text', rfl, htext', fun buffer => by simp [printfLoop, hpercent, putAll]⟩
  · obtain ⟨text', htext', rfl⟩ := Option.map_eq_some_iff.mp h
    exact ⟨['%', d], args, text', rfl, htext', fun buffer => by
      simp [printfLoop, hs, hd, hpercent, putAll]⟩

/-- The loop stores the text that the parts of the format stand for. -/
theorem printfLoop_eq (p : List Char) (h : expand (parse p).1 args = some text)
    (buffer : List Char) :
    printfLoop p args buffer =
      putAll buffer text >>= fun b => if (parse p).2 then unfinished b else .ok b := by
  fun_induction parse p generalizing args text buffer with
  | case1 =>
      cases h
      rfl
  | case2 =>
      cases h
      rfl
  | case3 c hc =>
      cases h
      rw [printfLoop_literal hc, putAll_cons, bind_assoc]
      rfl
  | case4 d p ih =>
      obtain ⟨front, args', text', rfl, htext', hpart⟩ := printfLoop_part d p h
      rw [hpart, putAll_append, bind_assoc]
      exact congrArg _ (funext fun b => ih htext' b)
  | case5 c d p hc ih =>
      obtain ⟨text', htext', rfl⟩ := Option.map_eq_some_iff.mp h
      rw [printfLoop_literal hc, putAll_cons, bind_assoc]
      exact congrArg _ (funext fun b => ih htext' b)

/-! ## Whole calls -/

theorem unfinished_error (buffer : List Char) : ∃ fault, unfinished buffer = .error fault := by
  unfold unfinished put push
  split
  · rw [ok_bind]
    split <;> exact ⟨_, rfl⟩
  · exact ⟨_, rfl⟩

theorem printf_eq {format : Text} (h : expand (parse format.chars).1 args = some text) :
    printf format args =
      if text.length ≤ 1024 then
        if (parse format.chars).2 then (unfinished text).map fun b => (b, b.length)
        else .ok (text, text.length)
      else .error (.buffer 1024) := by
  rw [printf, printfLoop_eq _ h, putAll_eq (Nat.zero_le _), List.length_nil, Nat.zero_add,
    List.nil_append]
  split
  · rw [ok_bind]
    split
    · rfl
    · rfl
  · rfl

/-- A format without an unfinished `%`, whose text fits into the buffer, is expanded. -/
theorem printf_expands (format : Text) (args : List Arg) {text : List Char}
    (hformat : (parse format.chars).2 = false)
    (hargs : expand (parse format.chars).1 args = some text) (hlen : text.length ≤ 1024) :
    printf format args = .ok (text, text.length) := by
  rw [printf_eq hargs, if_pos hlen, hformat]
  rfl

/-- With arguments that match, all accesses are allowed exactly when the format has no
unfinished `%` and its text fits into the buffer. -/
theorem printf_inBounds_iff (format : Text) (args : List Arg) {text : List Char}
    (hargs : expand (parse format.chars).1 args = some text) :
    (∃ r, printf format args = .ok r) ↔
      (parse format.chars).2 = false ∧ text.length ≤ 1024 := by
  rw [printf_eq hargs]
  by_cases hlen : text.length ≤ 1024
  · rw [if_pos hlen]
    cases hformat : (parse format.chars).2 with
    | false => exact iff_of_true ⟨_, rfl⟩ ⟨rfl, hlen⟩
    | true =>
        obtain ⟨fault, hfault⟩ := unfinished_error text
        refine iff_of_false ?_ (fun h => by cases h.1)
        rintro ⟨r, hr⟩
        rw [if_pos rfl, hfault] at hr
        cases hr
  · rw [if_neg hlen]
    refine iff_of_false ?_ fun h => hlen h.2
    rintro ⟨r, hr⟩
    cases hr

/-- The format `n=%d%%`. -/
def numberFormat : Text := ⟨['n', '=', '%', 'd', '%', '%'], by decide⟩

theorem expand_numberFormat :
    expand (parse numberFormat.chars).1 [.int 7] = some ['n', '=', '7', '%'] := by
  have hseven : printInt 7 = .ok ['7'] := printInt_eq (by decide)
  have hparse : (parse numberFormat.chars).1 =
      [.literal 'n', .literal '=', .int, .percent] := rfl
  rw [hparse]
  simp only [expand, hseven]
  rfl

theorem printf_number : (parse numberFormat.chars).2 = false ∧
    printf numberFormat [.int 7] = .ok (['n', '=', '7', '%'], 4) :=
  ⟨rfl, printf_expands numberFormat [.int 7] rfl expand_numberFormat (by decide)⟩

theorem printf_number_inBounds : ∃ r, printf numberFormat [.int 7] = .ok r :=
  (printf_inBounds_iff numberFormat [.int 7] expand_numberFormat).mpr ⟨rfl, by decide⟩

/-- The format `%`. -/
def percentFormat : Text := ⟨['%'], by decide⟩

/-- The format `%s`. -/
def stringFormat : Text := ⟨['%', 's'], by decide⟩

/-- A string of 1025 letters. -/
def longText : Text where
  chars := List.replicate 1025 'a'
  no_nul h := absurd (List.eq_of_mem_replicate h) (by decide)

theorem expand_longText :
    expand (parse stringFormat.chars).1 [.str (some longText)] = some (longText.chars ++ []) :=
  rfl

/-- A `%` at the end of the format leads the loop behind the NUL, and a long string leads
the stores behind the buffer. -/
theorem printf_outOfBounds :
    (expand (parse percentFormat.chars).1 [] = some [] ∧
      printf percentFormat [] = .error .format) ∧
    expand (parse stringFormat.chars).1 [.str (some longText)] = some (longText.chars ++ []) ∧
      printf stringFormat [.str (some longText)] = .error (.buffer 1024) := by
  refine ⟨⟨rfl, rfl⟩, expand_longText, ?_⟩
  have hlen : (longText.chars ++ []).length = 1025 := by
    rw [List.append_nil]
    exact List.length_replicate
  rw [printf_eq expand_longText, hlen]
  rfl

end OsCourse.Minilibc
