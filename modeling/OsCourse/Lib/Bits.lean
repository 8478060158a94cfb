import Mathlib.Tactic

/-!
# Fields, sign extension, products and quotients of bit vectors

Programs that handle machine words take fields out of them with shifts and
masks, extend the sign of a field by hand, compute the upper half of a product in
a type of twice the width, and count in two words with a carry.  The lemmas here
say what these idioms compute, for any widths, and what the quotients of words are
as numbers.
-/

namespace OsCourse.Bits

/-! ## Fields -/

variable {n m : Nat}

/-- A shift and a mask take out a field. -/
theorem toNat_shiftRight_and (w : BitVec n) (k : Nat) (h : m ≤ n) :
    ((w >>> k) &&& BitVec.ofNat n (2 ^ m - 1)).toNat = (w.extractLsb' k m).toNat := by
  have hle : 2 ^ m ≤ 2 ^ n := Nat.pow_le_pow_right Nat.two_pos h
  have hpos : 0 < 2 ^ m := Nat.two_pow_pos m
  have hlt : 2 ^ m - 1 < 2 ^ n := by omega
  rw [BitVec.toNat_and, BitVec.toNat_ushiftRight, BitVec.toNat_ofNat, Nat.mod_eq_of_lt hlt,
    Nat.and_two_pow_sub_one_eq_mod, BitVec.extractLsb'_toNat]

theorem setWidth_shiftRight_and (w : BitVec n) (k : Nat) (h : m ≤ n) :
    ((w >>> k) &&& BitVec.ofNat n (2 ^ m - 1)).setWidth m = w.extractLsb' k m := by
  apply BitVec.eq_of_toNat_eq
  rw [BitVec.toNat_setWidth, toNat_shiftRight_and w k h]
  exact Nat.mod_eq_of_lt (w.extractLsb' k m).isLt

/-- A mask that clears the lowest bits rounds down. -/
theorem toNat_and_not_mask (x : BitVec n) (m : Nat) :
    (x &&& ~~~(BitVec.ofNat n (2 ^ m - 1))).toNat = x.toNat / 2 ^ m * 2 ^ m := by
  have hshift : x &&& ~~~(BitVec.ofNat n (2 ^ m - 1)) = (x >>> m) <<< m := by
    apply BitVec.eq_of_getLsbD_eq
    intro i hi
    have hmask : (BitVec.ofNat n (2 ^ m - 1)).getLsbD i = decide (i < m) := by
      rw [BitVec.getLsbD_ofNat, Nat.testBit_two_pow_sub_one]
      simp [hi]
    rw [BitVec.getLsbD_and, BitVec.getLsbD_not, hmask, BitVec.getLsbD_shiftLeft,
      BitVec.getLsbD_ushiftRight]
    rcases Nat.lt_or_ge i m with hlt | hge
    · simp [hlt]
    · simp [hi, Nat.not_lt.mpr hge, Nat.add_sub_cancel' hge]
  have hle : x.toNat / 2 ^ m * 2 ^ m ≤ x.toNat := Nat.div_mul_le_self _ _
  rw [hshift, BitVec.toNat_shiftLeft, BitVec.toNat_ushiftRight, Nat.shiftLeft_eq,
    Nat.shiftRight_eq_div_pow, Nat.mod_eq_of_lt (by have := x.isLt; omega)]

/-- A word is put together from its bytes. -/
theorem append_bytes (v : BitVec 64) :
    v.extractLsb' 56 8 ++ v.extractLsb' 48 8 ++ v.extractLsb' 40 8 ++ v.extractLsb' 32 8 ++
      v.extractLsb' 24 8 ++ v.extractLsb' 16 8 ++ v.extractLsb' 8 8 ++ v.extractLsb' 0 8 = v := by
  repeat rw [BitVec.extractLsb'_append_extractLsb'_eq_extractLsb' (by rfl)]
  exact BitVec.extractLsb'_eq_self

theorem append_bytes_word (v : BitVec 32) :
    v.extractLsb' 24 8 ++ v.extractLsb' 16 8 ++ v.extractLsb' 8 8 ++ v.extractLsb' 0 8 = v := by
  repeat rw [BitVec.extractLsb'_append_extractLsb'_eq_extractLsb' (by rfl)]
  exact BitVec.extractLsb'_eq_self

/-- The bits of a field whose value is known. -/
theorem getLsbD_of_field {k v : Nat} {w : BitVec n} (h : (w.extractLsb' k m).toNat = v) {i : Nat}
    (hi : i < m) : w.getLsbD (k + i) = v.testBit i := by
  rw [← h, BitVec.testBit_toNat, BitVec.getLsbD_extractLsb']
  simp [hi]

/-- Testing a bit with a mask. -/
theorem and_twoPow_ne_zero (w : BitVec n) {k : Nat} (h : k < n) :
    w &&& BitVec.twoPow n k ≠ 0 ↔ w.getLsbD k = true := by
  rw [BitVec.and_twoPow]
  cases hbit : w.getLsbD k with
  | false => simp
  | true =>
      simp only [if_true, iff_true]
      intro hzero
      have hk := congrArg (fun x => x.getLsbD k) hzero
      simp [h] at hk

/-- Sign extension by hand: if the sign bit is set, set all bits above it. -/
theorem signExtend_eq_ite (x : BitVec (m + 1)) (h : m + 1 ≤ n) :
    x.signExtend n =
      if x.setWidth n &&& BitVec.twoPow n m ≠ 0 then
        x.setWidth n ||| (BitVec.allOnes n <<< (m + 1))
      else x.setWidth n := by
  have hsign : x.setWidth n &&& BitVec.twoPow n m ≠ 0 ↔ x.msb = true := by
    rw [and_twoPow_ne_zero _ (by omega : m < n), BitVec.getLsbD_setWidth,
      BitVec.msb_eq_getLsbD_last]
    simp [show m < n by omega]
  cases hmsb : x.msb with
  | false =>
      rw [if_neg (by rw [hsign, hmsb]; exact Bool.false_ne_true)]
      exact BitVec.signExtend_eq_setWidth_of_msb_false hmsb
  | true =>
      rw [if_pos (hsign.mpr hmsb)]
      apply BitVec.eq_of_getLsbD_eq
      intro i hi
      rw [BitVec.getLsbD_signExtend, BitVec.getLsbD_or, BitVec.getLsbD_setWidth,
        BitVec.getLsbD_shiftLeft, BitVec.getLsbD_allOnes, hmsb]
      rcases Nat.lt_or_ge i (m + 1) with hlt | hge
      · simp [hi, hlt]
      · have hsub : i - (m + 1) < n := by omega
        simp [hi, hsub, Nat.not_lt.mpr hge]

/-! ## Products -/

/-- Cutting off upper bits, in terms of the integer. -/
theorem setWidth_eq_ofInt (x : BitVec n) (h : m ≤ n) :
    x.setWidth m = BitVec.ofInt m x.toInt := by
  apply BitVec.eq_of_toInt_eq
  rw [← BitVec.signExtend_eq_setWidth_of_le x h, BitVec.toInt_signExtend_eq_toInt_bmod_of_le x h,
    BitVec.toInt_ofInt]

/-- The upper half of a word of twice the width. -/
theorem setWidth_sshiftRight (x : BitVec (n + n)) :
    (x.sshiftRight n).setWidth n = BitVec.ofInt n (x.toInt / 2 ^ n) := by
  rw [setWidth_eq_ofInt _ (Nat.le_add_left n n), BitVec.toInt_sshiftRight,
    Int.shiftRight_eq_div_pow]
  norm_cast

/-- In the upper half a logical shift does what an arithmetic one does. -/
theorem setWidth_ushiftRight (x : BitVec (n + n)) :
    (x >>> n).setWidth n = (x.sshiftRight n).setWidth n := by
  apply BitVec.eq_of_getLsbD_eq
  intro i hi
  have hlt : n + i < n + n := by omega
  have hi' : ¬ n + n ≤ i := by omega
  simp [BitVec.getLsbD_sshiftRight, hi, hlt, hi']

/-- Numbers that fit are what they are modulo the word size. -/
theorem toInt_mul_of_fits {x y : BitVec n} {a b : Int} (hx : x.toInt = a) (hy : y.toInt = b)
    (hlo : -(2 ^ n : Int) ≤ a * b * 2) (hhi : a * b * 2 < 2 ^ n) :
    (x * y).toInt = a * b := by
  rw [BitVec.toInt_mul, hx, hy]
  apply Int.bmod_eq_of_le_mul_two
  · exact_mod_cast hlo
  · exact_mod_cast hhi

theorem mulHigh_signed (a b : BitVec n) :
    ((a.signExtend (n + n) * b.signExtend (n + n)).sshiftRight n).setWidth n =
      BitVec.ofInt n (a.toInt * b.toInt / 2 ^ n) := by
  have hle : n ≤ n + n := Nat.le_add_left n n
  have ha := BitVec.two_mul_toInt_lt (x := a)
  have ha' := BitVec.le_two_mul_toInt (x := a)
  have hb := BitVec.two_mul_toInt_lt (x := b)
  have hb' := BitVec.le_two_mul_toInt (x := b)
  have hpow : (2 : Int) ^ (n + n) = 2 ^ n * 2 ^ n := pow_add 2 n n
  have hpos : (0 : Int) < 2 ^ n := by positivity
  rw [setWidth_sshiftRight, toInt_mul_of_fits (BitVec.toInt_signExtend_of_le hle)
    (BitVec.toInt_signExtend_of_le hle)]
  · rw [hpow]
    nlinarith
  · rw [hpow]
    nlinarith

theorem mulHigh_mixed (a b : BitVec n) (hn : 0 < n) :
    ((a.signExtend (n + n) * b.setWidth (n + n)) >>> n).setWidth n =
      BitVec.ofInt n (a.toInt * b.toNat / 2 ^ n) := by
  have hle : n ≤ n + n := Nat.le_add_left n n
  have ha := BitVec.two_mul_toInt_lt (x := a)
  have ha' := BitVec.le_two_mul_toInt (x := a)
  have hb : (b.toNat : Int) < 2 ^ n := by exact_mod_cast b.isLt
  have hb0 : (0 : Int) ≤ b.toNat := Int.natCast_nonneg _
  have hpow : (2 : Int) ^ (n + n) = 2 ^ n * 2 ^ n := pow_add 2 n n
  have hbint : (b.setWidth (n + n)).toInt = b.toNat := by
    have hnat : (b.setWidth (n + n)).toNat = b.toNat := BitVec.toNat_setWidth_of_le hle
    have htwo : 2 * 2 ^ n ≤ 2 ^ n * 2 ^ n :=
      Nat.mul_le_mul_right _ (Nat.pow_le_pow_right Nat.two_pos hn)
    have hlt : 2 * (b.setWidth (n + n)).toNat < 2 ^ (n + n) := by
      have hb := b.isLt
      rw [hnat, pow_add]
      omega
    rw [BitVec.toInt_eq_toNat_of_lt hlt, hnat]
  rw [setWidth_ushiftRight, setWidth_sshiftRight,
    toInt_mul_of_fits (BitVec.toInt_signExtend_of_le hle) hbint]
  · rw [hpow]
    nlinarith
  · rw [hpow]
    nlinarith

theorem mulHigh_unsigned (a b : BitVec n) :
    ((a.setWidth (n + n) * b.setWidth (n + n)) >>> n).setWidth n =
      BitVec.ofNat n (a.toNat * b.toNat / 2 ^ n) := by
  apply BitVec.eq_of_toNat_eq
  have hlt : a.toNat * b.toNat < 2 ^ (n + n) := by
    rw [pow_add]
    exact Nat.mul_lt_mul'' a.isLt b.isLt
  have hpow : 2 ^ n ≤ 2 ^ (n + n) := Nat.pow_le_pow_right Nat.two_pos (Nat.le_add_left n n)
  simp only [BitVec.toNat_setWidth, BitVec.toNat_ushiftRight, BitVec.toNat_mul,
    BitVec.toNat_ofNat, Nat.mod_eq_of_lt (a.isLt.trans_le hpow),
    Nat.mod_eq_of_lt (b.isLt.trans_le hpow), Nat.mod_eq_of_lt hlt, Nat.shiftRight_eq_div_pow]

/-! ## Division -/

theorem sdiv_eq_ofInt (a b : BitVec n) :
    a.sdiv b = BitVec.ofInt n (a.toInt.tdiv b.toInt) := by
  apply BitVec.eq_of_toInt_eq
  rw [BitVec.toInt_sdiv, BitVec.toInt_ofInt]

theorem srem_eq_ofInt (a b : BitVec n) :
    a.srem b = BitVec.ofInt n (a.toInt.tmod b.toInt) := by
  rw [← BitVec.toInt_srem, BitVec.ofInt_toInt]

theorem udiv_eq_ofNat (a b : BitVec n) :
    a.udiv b = BitVec.ofNat n (a.toNat / b.toNat) := by
  have h : a.udiv b = a / b := rfl
  rw [← BitVec.toNat_udiv, BitVec.ofNat_toNat, BitVec.setWidth_eq, h]

theorem umod_eq_ofNat (a b : BitVec n) :
    a.umod b = BitVec.ofNat n (a.toNat % b.toNat) := by
  have h : a.umod b = a % b := rfl
  rw [← BitVec.toNat_umod, BitVec.ofNat_toNat, BitVec.setWidth_eq, h]

/-! ## Numbers of two words -/

theorem toNat_append_eq (hi lo : BitVec n) :
    (hi ++ lo).toNat = hi.toNat * 2 ^ n + lo.toNat := by
  rw [BitVec.toNat_append, ← Nat.shiftLeft_add_eq_or_of_lt lo.isLt, Nat.shiftLeft_eq]

theorem append_eq_zero (hi lo : BitVec n) :
    hi ++ lo = 0#(n + n) ↔ hi = 0 ∧ lo = 0 := by
  rw [← BitVec.toNat_inj, ← BitVec.toNat_inj, ← BitVec.toNat_inj, toNat_append_eq]
  simp

/-- A word is added to the lower word, and the upper word is incremented if the lower
one becomes smaller. -/
theorem append_add_carry (hi lo x : BitVec n) :
    (if lo + x < lo then hi + 1 else hi) ++ (lo + x) = (hi ++ lo) + x.setWidth (n + n) := by
  have hhi := hi.isLt
  have hlo := lo.isLt
  have hx := x.isLt
  have hrow : (hi.toNat + 1) * 2 ^ n ≤ 2 ^ n * 2 ^ n := Nat.mul_le_mul_right _ hhi
  have hsucc : (hi.toNat + 1) * 2 ^ n = hi.toNat * 2 ^ n + 2 ^ n := by ring
  have hright : ((hi ++ lo) + x.setWidth (n + n)).toNat =
      (hi.toNat * 2 ^ n + lo.toNat + x.toNat) % (2 ^ n * 2 ^ n) := by
    rw [BitVec.toNat_add, toNat_append_eq, pow_add,
      BitVec.toNat_setWidth_of_le (Nat.le_add_left n n)]
  apply BitVec.eq_of_toNat_eq
  rw [toNat_append_eq, hright]
  by_cases hcarry : lo.toNat + x.toNat < 2 ^ n
  · have hsum : (lo + x).toNat = lo.toNat + x.toNat := by
      rw [BitVec.toNat_add, Nat.mod_eq_of_lt hcarry]
    rw [if_neg (by rw [BitVec.lt_def, hsum]; omega), hsum, Nat.mod_eq_of_lt (by omega)]
    omega
  · have hsum : (lo + x).toNat = lo.toNat + x.toNat - 2 ^ n := by
      rw [BitVec.toNat_add, Nat.mod_eq_sub_mod (by omega), Nat.mod_eq_of_lt (by omega)]
    have hone : (hi + 1).toNat = (hi.toNat + 1) % 2 ^ n := by
      rw [BitVec.toNat_add, show (1 : BitVec n) = BitVec.ofNat n 1 from rfl, BitVec.toNat_ofNat,
        Nat.add_mod_mod]
    rw [if_pos (by rw [BitVec.lt_def, hsum]; omega), hsum, hone]
    by_cases hlast : hi.toNat + 1 < 2 ^ n
    · have hrow' : (hi.toNat + 2) * 2 ^ n ≤ 2 ^ n * 2 ^ n := Nat.mul_le_mul_right _ hlast
      have hsucc' : (hi.toNat + 2) * 2 ^ n = hi.toNat * 2 ^ n + 2 ^ n + 2 ^ n := by ring
      rw [Nat.mod_eq_of_lt hlast, hsucc, Nat.mod_eq_of_lt (by omega)]
      omega
    · -- the counter of two words wraps
      have hmax : hi.toNat + 1 = 2 ^ n := by omega
      rw [hmax] at hsucc
      rw [hmax, Nat.mod_self, Nat.mod_eq_sub_mod (by omega), Nat.mod_eq_of_lt (by omega)]
      omega

end OsCourse.Bits
