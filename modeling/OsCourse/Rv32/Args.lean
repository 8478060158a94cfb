import OsCourse.Rv32.Run
import OsCourse.Lib.Bits
import OsCourse.Lib.CString

/-!
# The arguments of the program

`main` turns up to four of its own arguments into words and puts them on the stack
of the emulated program.  An argument that starts with `0x` is read by `xtoi`, any
other by `atoi`.

For a letter the loop of `xtoi` has `res =+ s[i] - 'a'`, which is an assignment: what
was read before is lost, and the digit counts ten less than it should.  What follows
the letter is read correctly, so the two errors together are worth `(16 h + 10) 16 ^ m`
for the value `h` before the last letter and `m` digits after it (`xtoi_letter_iff`).
This is a multiple of `2 ^ 32` only when `m` is at least eight, so `xtoi` is right
exactly when there is no letter among the last eight digits.
-/

namespace OsCourse.Rv32

open OsCourse.Bits (append_bytes_word)
open OsCourse.CString (atoi nul isHexDigit hexDigit hexValue hexValue_append hexValue_cons)

/-! ## The functions -/

/-- The value of a `char`, which is signed. -/
def charValue (c : Char) : Word := (BitVec.ofNat 8 c.toNat).signExtend 32

/-- The loop of `xtoi`. -/
def xtoiLoop : List Char → Word → Word
  | [], res => res
  | c :: s, res =>
      if c = nul then res
      else
        let res := res * 16
        -- `res =+ s[i] - 'a'`
        if 'a' ≤ c ∧ c ≤ 'f' then xtoiLoop s (charValue c - charValue 'a')
        else xtoiLoop s (res + (charValue c - charValue '0'))

/-- `xtoi`. -/
def xtoi (s : List Char) : Word := xtoiLoop (s.drop 2) 0

/-- `MAX_MAINARGS`. -/
def maxMainargs : Nat := 4

/-- The word for one argument. -/
def mainarg (s : List Char) : Word :=
  match s with
  | '0' :: 'x' :: _ => xtoi s
  | _ => BitVec.ofInt 32 (atoi s)

/-- `margs[0]` to `margs[margc - 1]`, for the arguments of `main`. -/
def mainargs (argv : List (List Char)) : List Word :=
  ((argv.drop 2).take maxMainargs).map mainarg

/-! ## What the loop adds up -/

variable {c : Char} {ds es : List Char} {i : Nat}

theorem exists_of_isDigit (h : c.isDigit = true) : ∃ k < 10, c = Char.ofNat (48 + k) := by
  rw [Char.isDigit, Bool.and_eq_true, decide_eq_true_iff, decide_eq_true_iff] at h
  have hlo : 48 ≤ c.toNat := UInt32.le_iff_toNat_le.mp h.1
  have hhi : c.toNat ≤ 57 := UInt32.le_iff_toNat_le.mp h.2
  refine ⟨c.toNat - 48, by omega, ?_⟩
  rw [Nat.add_sub_cancel' hlo, Char.ofNat_toNat]

theorem exists_of_letter (h : 'a' ≤ c ∧ c ≤ 'f') : ∃ k < 6, c = Char.ofNat (97 + k) := by
  have hlo : 97 ≤ c.toNat := UInt32.le_iff_toNat_le.mp h.1
  have hhi : c.toNat ≤ 102 := UInt32.le_iff_toNat_le.mp h.2
  refine ⟨c.toNat - 97, by omega, ?_⟩
  rw [Nat.add_sub_cancel' hlo, Char.ofNat_toNat]

theorem xtoiLoop_digit (h : c.isDigit = true) (s : List Char) (n : Nat) :
    xtoiLoop (c :: s) (BitVec.ofNat 32 n) = xtoiLoop s (BitVec.ofNat 32 (n * 16 + hexDigit c)) := by
  obtain ⟨k, hk, rfl⟩ := exists_of_isDigit h
  rw [BitVec.ofNat_add, BitVec.ofNat_mul]
  interval_cases k <;> rfl

/-- A letter is worth ten less than its value, and what was read before is lost. -/
theorem xtoiLoop_letter (h : 'a' ≤ c ∧ c ≤ 'f') (s : List Char) (res : Word) :
    xtoiLoop (c :: s) res = xtoiLoop s (BitVec.ofNat 32 (hexDigit c - 10)) := by
  obtain ⟨k, hk, rfl⟩ := exists_of_letter h
  interval_cases k <;> rfl

theorem ten_le_hexDigit (h : 'a' ≤ c ∧ c ≤ 'f') : 10 ≤ hexDigit c := by
  obtain ⟨k, hk, rfl⟩ := exists_of_letter h
  interval_cases k <;> decide

theorem letter_of_not_isDigit (h : isHexDigit c = true) (hc : ¬ c.isDigit = true) :
    'a' ≤ c ∧ c ≤ 'f' := by
  simpa [isHexDigit, hc] using h

theorem ne_nul_of_isHexDigit (h : isHexDigit c = true) : c ≠ nul := by
  rintro rfl
  revert h
  decide

theorem xtoiLoop_append (hds : nul ∉ ds) (es : List Char) (res : Word) :
    xtoiLoop (ds ++ es) res = xtoiLoop es (xtoiLoop ds res) := by
  induction ds generalizing res with
  | nil => rfl
  | cons c ds ih =>
      rw [List.mem_cons, not_or] at hds
      rw [List.cons_append, xtoiLoop, xtoiLoop, if_neg (Ne.symm hds.1), if_neg (Ne.symm hds.1)]
      split <;> exact ih hds.2 _

/-- Decimal digits are read correctly. -/
theorem xtoiLoop_digits (hds : ∀ c ∈ ds, c.isDigit = true) (n : Nat) :
    xtoiLoop ds (BitVec.ofNat 32 n) = BitVec.ofNat 32 (n * 16 ^ ds.length + hexValue ds) := by
  induction ds generalizing n with
  | nil => simp [xtoiLoop, hexValue]
  | cons c ds ih =>
      obtain ⟨hc, hds⟩ := List.forall_mem_cons.mp hds
      rw [xtoiLoop_digit hc, ih hds, hexValue_cons, List.length_cons]
      congr 1
      ring

/-- The result for digits with a last letter `c`: what is before it does not count. -/
theorem xtoi_letter (hds : ∀ d ∈ ds, isHexDigit d = true) (hc : 'a' ≤ c ∧ c ≤ 'f')
    (hes : ∀ d ∈ es, d.isDigit = true) :
    xtoi ('0' :: 'x' :: (ds ++ c :: es)) =
      BitVec.ofNat 32 ((hexDigit c - 10) * 16 ^ es.length + hexValue es) := by
  have hnul : nul ∉ ds := fun h => ne_nul_of_isHexDigit (hds nul h) rfl
  have hdrop : xtoi ('0' :: 'x' :: (ds ++ c :: es)) = xtoiLoop (ds ++ c :: es) 0 := rfl
  rw [hdrop, xtoiLoop_append hnul, xtoiLoop_letter hc, xtoiLoop_digits hes]

/-- The error of a last letter with `m` digits after it vanishes for `m` from eight on. -/
theorem dvd_letter_error (h m : Nat) : 2 ^ 32 ∣ (16 * h + 10) * 16 ^ m ↔ 8 ≤ m := by
  constructor
  · intro hdvd
    by_contra hm
    have hlt : m < 8 := by omega
    interval_cases m <;> omega
  · intro hm
    have hpow : (2 : Nat) ^ 32 = 16 ^ 8 := by norm_num
    rw [hpow]
    exact (pow_dvd_pow 16 hm).mul_left _

theorem xtoi_letter_iff (hds : ∀ d ∈ ds, isHexDigit d = true) (hc : 'a' ≤ c ∧ c ≤ 'f')
    (hes : ∀ d ∈ es, d.isDigit = true) :
    xtoi ('0' :: 'x' :: (ds ++ c :: es)) = BitVec.ofNat 32 (hexValue (ds ++ c :: es)) ↔
      8 ≤ es.length := by
  have hten := ten_le_hexDigit hc
  have herr : hexValue (ds ++ c :: es) =
      (hexDigit c - 10) * 16 ^ es.length + hexValue es +
        (16 * hexValue ds + 10) * 16 ^ es.length := by
    obtain ⟨d, hd⟩ := Nat.exists_eq_add_of_le hten
    rw [hexValue_append, hexValue_cons, List.length_cons, hd, Nat.add_sub_cancel_left]
    ring
  rw [xtoi_letter hds hc hes, herr, ← dvd_letter_error (hexValue ds)]
  generalize (16 * hexValue ds + 10) * 16 ^ es.length = error
  generalize (hexDigit c - 10) * 16 ^ es.length + hexValue es = n
  rw [← BitVec.toNat_inj, BitVec.toNat_ofNat, BitVec.toNat_ofNat]
  omega

/-- Digits are all decimal, or there is a last one that is not. -/
theorem all_isDigit_or_last (ds : List Char) :
    (∀ c ∈ ds, c.isDigit = true) ∨
      ∃ front c es, ds = front ++ c :: es ∧ ¬ c.isDigit = true ∧ ∀ d ∈ es, d.isDigit = true := by
  induction ds with
  | nil => exact .inl fun c hc => by cases hc
  | cons c ds ih =>
      rcases ih with hall | ⟨front, d, es, rfl, hd, hes⟩
      · by_cases hc : c.isDigit = true
        · exact .inl (List.forall_mem_cons.mpr ⟨hc, hall⟩)
        · exact .inr ⟨[], c, ds, rfl, hc, hall⟩
      · exact .inr ⟨c :: front, d, es, rfl, hd, hes⟩

/-- The last eight digits are decimal when the last letter is before them. -/
theorem take_eight_iff {front : List Char} (hc : ¬ c.isDigit = true)
    (hes : ∀ d ∈ es, d.isDigit = true) :
    (∀ d ∈ (front ++ c :: es).reverse.take 8, d.isDigit = true) ↔ 8 ≤ es.length := by
  have hrev : (front ++ c :: es).reverse = es.reverse ++ (c :: front.reverse) := by simp
  rw [hrev]
  constructor
  · intro hall
    by_contra hlt
    refine hc (hall c ?_)
    have hlen : 8 - es.reverse.length = 7 - es.length + 1 := by
      rw [List.length_reverse]
      omega
    rw [List.take_append, hlen, List.take_succ_cons]
    exact List.mem_append_right _ (List.mem_cons_self ..)
  · intro hle d hd
    rw [List.take_append_of_le_length (by rwa [List.length_reverse])] at hd
    exact hes d (List.mem_reverse.mp (List.mem_of_mem_take hd))

theorem xtoi_eq_iff (hds : ∀ c ∈ ds, isHexDigit c = true) :
    xtoi ('0' :: 'x' :: ds) = BitVec.ofNat 32 (hexValue ds) ↔
      ∀ c ∈ ds.reverse.take 8, c.isDigit = true := by
  rcases all_isDigit_or_last ds with hall | ⟨front, c, es, rfl, hc, hes⟩
  · refine iff_of_true ?_ fun c hc => hall c (List.mem_reverse.mp (List.mem_of_mem_take hc))
    have hloop := xtoiLoop_digits hall 0
    rwa [Nat.zero_mul, Nat.zero_add] at hloop
  · obtain ⟨hfront, hces⟩ := List.forall_mem_append.mp hds
    have hletter := letter_of_not_isDigit (hces c (List.mem_cons_self ..)) hc
    rw [xtoi_letter_iff hfront hletter hes, take_eight_iff hc hes]

/-! ## The stack -/

/-- The bytes of a word on the stack. -/
theorem mem_boot (image : List (BitVec 8)) {margs : List Word} (hi : i < margs.length)
    (hlen : margs.length ≤ maxMainargs) {k : Nat} (hk : k < 4) :
    (boot image margs).mem (ramSize - 4 * margs.length + 4 * i + k) =
      margs[i].extractLsb' (8 * k) 8 := by
  have hram : 4 * margs.length ≤ ramSize := by
    unfold ramSize maxMainargs at *
    omega
  have hin : ramSize - 4 * margs.length ≤ ramSize - 4 * margs.length + 4 * i + k ∧
      ramSize - 4 * margs.length + 4 * i + k < ramSize := by omega
  have hofs :
      ramSize - 4 * margs.length + 4 * i + k - (ramSize - 4 * margs.length) = 4 * i + k := by
    omega
  have hdiv : (4 * i + k) / 4 = i := by omega
  have hmod : (4 * i + k) % 4 = k := by omega
  simp only [boot]
  rw [if_pos hin, hofs, hdiv, hmod, List.getD_eq_getElem?_getD, List.getElem?_eq_getElem hi,
    Option.getD_some]

theorem read32_boot (image : List (BitVec 8)) {margs : List Word} (hi : i < margs.length)
    (hlen : margs.length ≤ maxMainargs) :
    (boot image margs).read32 (ramSize - 4 * margs.length + 4 * i) = .ok margs[i] := by
  have hread : ∀ k < 4, (boot image margs).read8 (ramSize - 4 * margs.length + 4 * i + k) =
      .ok (margs[i].extractLsb' (8 * k) 8) := by
    intro k hk
    have hsize : (boot image margs).memSize.toNat = ramSize := rfl
    have hin : ramSize - 4 * margs.length + 4 * i + k < (boot image margs).memSize.toNat := by
      rw [hsize]
      unfold ramSize maxMainargs at *
      omega
    rw [CPUState.read8, if_pos hin, mem_boot image hi hlen hk]
  have hread0 := hread 0 (by decide)
  rw [Nat.add_zero] at hread0
  rw [CPUState.read32, hread0, hread 1 (by decide), hread 2 (by decide), hread 3 (by decide)]
  refine congrArg Except.ok ?_
  exact append_bytes_word _

theorem length_mainargs_le (argv : List (List Char)) : (mainargs argv).length ≤ maxMainargs := by
  rw [mainargs, List.length_map]
  exact List.length_take_le _ _

theorem getElem?_mainargs (argv : List (List Char)) (hi : i < maxMainargs) :
    (mainargs argv)[i]? = argv[2 + i]?.map mainarg := by
  rw [mainargs, List.getElem?_map, List.getElem?_take_of_lt hi, List.getElem?_drop]

/-- The word at the place of an argument on the stack. -/
theorem read32_mainarg (image : List (BitVec 8)) {argv : List (List Char)} {s : List Char}
    (hi : i < maxMainargs) (hs : argv[2 + i]? = some s) :
    (boot image (mainargs argv)).read32 (((boot image (mainargs argv)).regs 2).toNat + 4 * i) =
      .ok (mainarg s) := by
  have hget : (mainargs argv)[i]? = some (mainarg s) := by
    rw [getElem?_mainargs argv hi, hs]
    rfl
  obtain ⟨hlt, hword⟩ := List.getElem?_eq_some_iff.mp hget
  have hsp :
      ((boot image (mainargs argv)).regs 2).toNat = ramSize - 4 * (mainargs argv).length := by
    refine Nat.mod_eq_of_lt ?_
    unfold ramSize
    omega
  rw [hsp, read32_boot image hlt (length_mainargs_le argv), hword]

/-- `xtoi` returns the number that hexadecimal digits denote exactly when no letter is
among the last eight of them, and so does the word on the stack hold it. -/
theorem xtoi_exact {ds : List Char} (hds : ∀ c ∈ ds, isHexDigit c = true) :
    (xtoi ('0' :: 'x' :: ds) = BitVec.ofNat 32 (hexValue ds) ↔
      ∀ c ∈ ds.reverse.take 8, c.isDigit = true) ∧
    ∀ (image : List (BitVec 8)) (argv : List (List Char)) (i : Nat), i < maxMainargs →
      argv[2 + i]? = some ('0' :: 'x' :: ds) →
      ((boot image (mainargs argv)).read32 (((boot image (mainargs argv)).regs 2).toNat + 4 * i) =
          .ok (BitVec.ofNat 32 (hexValue ds)) ↔
        ∀ c ∈ ds.reverse.take 8, c.isDigit = true) := by
  refine ⟨xtoi_eq_iff hds, fun image argv i hi hs => ?_⟩
  rw [read32_mainarg image hi hs, ← xtoi_eq_iff hds]
  exact iff_of_eq (Except.ok.injEq _ _)

/-- The letter of `0xf12345678` is before the last eight digits. -/
theorem xtoi_exact_wraps : xtoi "0xf12345678".toList = 0x12345678 := by
  have hds : ∀ c ∈ "f12345678".toList, isHexDigit c = true := List.all_eq_true.mp rfl
  exact (xtoi_exact hds).1.mpr (List.all_eq_true.mp rfl)

/-- `0xa` is read as `0`, and `0x1a` too. -/
theorem xtoi_drops_letter :
    xtoi "0xa".toList = 0 ∧ xtoi "0x1a".toList = 0 ∧
    hexValue "a".toList = 10 ∧ hexValue "1a".toList = 26 ∧
    mainargs ["mini-rv32ima".toList, "fib".toList, "0x1a".toList] = [0] := by
  decide

end OsCourse.Rv32
