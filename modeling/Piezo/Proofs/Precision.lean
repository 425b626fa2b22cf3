import Mathlib.Algebra.GroupWithZero.Nat

/-!
Precision: floats that hold a whole number times a power of two, with nothing rounded away.

A float keeps 53 bits of a number. As long as they are enough, products are exact, and so are
quotients by a power of two; so every power of two that is made by squaring is exact, and what is
lost in the end is lost where a float is rounded to a whole number.
-/

namespace Piezo.Precision

open Float.Model (Format UnpackedFloat totalExponent)
open Float.Model.UnpackedFloat

/-- The whole number nearest to `m * 2 ^ e`, halves rounded up. -/
def rounded (m : Nat) : Int → Nat
  | .ofNat k => m * 2 ^ k
  | .negSucc k => (m + 2 ^ k) / 2 ^ (k + 1)

/-- The whole number nearest to a float, halves rounded away from zero. What has no fraction, or is
no number, stays as it is. -/
def nearest (x : Float) : Float :=
  match x.toModel.unpack with
  | .finite sign m (.negSucc k) _ =>
    let whole := (UInt64.ofNat (rounded m (.negSucc k))).toFloat
    match sign with
    | .positive => whole
    | .negative => -whole
  | _ => x

/-- A float times a power of another, by squaring the other over and over. -/
def timesPower (x base : Float) (n : Nat) : Float :=
  let x := if n % 2 = 1 then x * base else x
  if n / 2 = 0 then x else timesPower x (base * base) (n / 2)

/-- A float to a whole power; for a negative one, what it is to the opposite power inverted. -/
def power (base : Float) (n : Int) : Float :=
  let whole := timesPower 1.0 base n.natAbs
  if n < 0 then 1.0 / whole else whole

/-- How many bits of a float are left over by a number of up to 53 bits. -/
def gap (m : Nat) : Nat := 52 - m.log2

/-- The leading bit is neither too high nor too low for a float of full precision. -/
def InReach (m : Nat) (e : Int) : Prop := -1022 ≤ e + m.log2 ∧ e + m.log2 ≤ 1023

/-- The float is `m * 2 ^ e`, with `m` filled up to 53 bits. -/
structure Holds (x : Float) (m : Nat) (e : Int) : Prop where
  pos : 0 < m
  lt : m < 2 ^ 53
  unpack : ∃ h, x.toModel.unpack = .finite .positive (m * 2 ^ gap m) (e - gap m) h

variable {m n : Nat} {e f : Int} {x y : Float}

section Bits

theorem log2_le (pos : 0 < m) (lt : m < 2 ^ 53) : m.log2 ≤ 52 :=
  Nat.le_of_lt_succ ((Nat.log2_lt (Nat.ne_of_gt pos)).mpr lt)

theorem log2_mul_two_pow (pos : 0 < m) (k : Nat) : (m * 2 ^ k).log2 = m.log2 + k := by
  induction k with
  | zero => simp
  | succ k ih =>
    have whole : m * 2 ^ k ≠ 0 := Nat.ne_of_gt (Nat.mul_pos pos (Nat.two_pow_pos k))
    rw [Nat.pow_succ, ← Nat.mul_assoc, Nat.mul_comm, Nat.log2_two_mul whole, ih]
    rfl

theorem log2_add_le (hm : 0 < m) (hn : 0 < n) : m.log2 + n.log2 ≤ (m * n).log2 := by
  rw [Nat.le_log2 (Nat.ne_of_gt (Nat.mul_pos hm hn)), Nat.pow_add]
  exact Nat.mul_le_mul (Nat.log2_self_le (Nat.ne_of_gt hm)) (Nat.log2_self_le (Nat.ne_of_gt hn))

theorem log2_full (pos : 0 < m) (lt : m < 2 ^ 53) : (m * 2 ^ gap m).log2 = 52 := by
  rw [log2_mul_two_pow pos, gap, Nat.add_sub_cancel' (log2_le pos lt)]

/-- A number that is filled up takes 53 bits. -/
theorem full_bounds (pos : 0 < m) (lt : m < 2 ^ 53) :
    2 ^ 52 ≤ m * 2 ^ gap m ∧ m * 2 ^ gap m < 2 ^ 53 := by
  have log := log2_full pos lt
  have h : m * 2 ^ gap m ≠ 0 := Nat.ne_of_gt (Nat.mul_pos pos (Nat.two_pow_pos _))
  exact ⟨(Nat.le_log2 h).mp (Nat.le_of_eq log.symm), (Nat.log2_lt h).mp (by omega)⟩

theorem inReach_one (least : -1022 ≤ e) (most : e ≤ 1023) : InReach 1 e := by
  have log : Nat.log2 1 = 0 := by decide
  rw [InReach, log]
  omega

end Bits

section Rounding

theorem shift_exact (m k : Nat) :
    (⟨m * 2 ^ k, false, false⟩ : ExtendedMantissa) >>> k = ⟨m, false, false⟩ := by
  change k.repeat _ _ = _
  induction k generalizing m with
  | zero => simp [Nat.repeat]
  | succ k ih =>
    rw [Nat.repeat, Nat.pow_succ', ← Nat.mul_assoc, ih]
    simp [ExtendedMantissa.shiftRightOne]

theorem targetExponent_eq (total : Int) :
    Format.binary64.targetExponent total = max (total - 53) (-1074) := rfl

/-- Zeros at the end are all that is shifted out. -/
theorem shiftToTargetExponent_exact (pos : 0 < m) (lt : m < 2 ^ 53) (least : -1022 ≤ e + m.log2)
    {a : Nat} (room : gap m ≤ a) :
    shiftToTargetExponent .binary64 (m * 2 ^ a) (e - a) .exact =
      (⟨m * 2 ^ gap m, false, false⟩, e - gap m) := by
  have le := log2_le pos lt
  have target : Format.binary64.targetExponent (totalExponent (m * 2 ^ a) (e - a)) =
      e - gap m := by
    rw [targetExponent_eq, totalExponent, log2_mul_two_pow pos, gap]
    omega
  have amount : (e - gap m - (e - a)).toNat = a - gap m := by omega
  have whole : m * 2 ^ a = m * 2 ^ gap m * 2 ^ (a - gap m) := by
    rw [Nat.mul_assoc, ← Nat.pow_add, Nat.add_sub_cancel' room]
  have exponent : e - a + ((a - gap m : Nat) : Int) = e - gap m := by omega
  rw [shiftToTargetExponent, target, shiftToExponent, amount, exponent,
    ExtendedMantissa.ofMantissaAndAccuracy, whole, shift_exact]

theorem roundWithAccuracy_exact (pos : 0 < m) (lt : m < 2 ^ 53) (least : -1022 ≤ e + m.log2)
    {a : Nat} (room : gap m ≤ a) (s : Sign) :
    ∃ h, roundWithAccuracy .binary64 s (m * 2 ^ a) (e - a) .exact =
      .finite s (m * 2 ^ gap m) (e - gap m) h := by
  have h : 0 < m * 2 ^ gap m := Nat.mul_pos pos (Nat.two_pow_pos _)
  have first := shiftToTargetExponent_exact pos lt least room
  -- What is rounded already stays where it is.
  have second := shiftToTargetExponent_exact pos lt least (Nat.le_refl (gap m))
  refine ⟨h, ?_⟩
  rw [roundWithAccuracy, first]
  change (match shiftToTargetExponent .binary64 (m * 2 ^ gap m) (e - gap m) .exact with
    | (final, exponent) =>
      if zero : final.mantissa = 0 then UnpackedFloat.zero s
      else .finite s final.mantissa exponent (Nat.pos_of_ne_zero zero)) = _
  rw [second]
  exact dif_neg (Nat.ne_of_gt h)

end Rounding

section Packing

theorem pack_finite (spec : Format) (s : Sign) (h : 0 < m) :
    UnpackedFloat.pack spec (.finite s m e h) =
      if 2 ^ spec.exponentBits ≤
          (e + spec.exponentBias + spec.mantissaBitsWithoutImplicit).toNat + 1 then
        packedInfinity spec s
      else if m.log2 + 1 = spec.mantissaBits then
        packComponents spec s
          (BitVec.ofNat _ (e + spec.exponentBias + spec.mantissaBitsWithoutImplicit).toNat)
          (BitVec.ofNat _ m)
      else packComponents spec s 0 (BitVec.ofNat _ m) := rfl

/-- The bits of a float whose exponent is neither that of infinities nor that of zeros. -/
theorem unpack_finite (b : BitVec Format.binary64.numBits)
    (not_greatest : unpackExponent b ≠ -1#11) (not_least : unpackExponent b ≠ 0#11) (h : 0 < m)
    (sign : unpackSign b = 0#1) (mantissa : (1#1 ++ unpackMantissa b).toNat = m)
    (exponent : ((unpackExponent b).toNat : Int) - 1075 = e) :
    UnpackedFloat.unpack .binary64 b = .finite .positive m e h := by
  subst mantissa exponent
  have positive : Sign.ofBitVec (unpackSign b) = .positive := by
    rw [sign]
    rfl
  rw [← positive]
  change (if _ then _ else if _ then _ else _) = _
  rw [if_neg not_greatest, if_neg not_least]
  rfl

theorem unpackSign_positive (exponent : BitVec 11) (mantissa : BitVec 52) :
    unpackSign (packComponents .binary64 .positive exponent mantissa) = 0#1 := by
  have small : (0#1 ++ exponent ++ mantissa).toNat < 2 ^ 63 := by
    rw [BitVec.toNat_append, ← Nat.shiftLeft_add_eq_or_of_lt mantissa.isLt, Nat.shiftLeft_eq,
      BitVec.toNat_append, BitVec.toNat_zero, Nat.zero_shiftLeft, Nat.zero_or]
    have := exponent.isLt
    have := mantissa.isLt
    omega
  apply BitVec.eq_of_toNat_eq
  change ((0#1 ++ exponent ++ mantissa).toNat >>> 63) % 2 = 0
  rw [Nat.shiftRight_eq_div_pow, Nat.div_eq_of_lt small]

theorem unpack_pack (low : 2 ^ 52 ≤ m) (high : m < 2 ^ 53) (least : -1074 ≤ e) (most : e ≤ 971)
    (h : 0 < m) :
    (Float.Model.pack (.finite .positive m e h)).unpack = .finite .positive m e h := by
  have full : m.log2 + 1 = Format.binary64.mantissaBits := by
    change m.log2 + 1 = 53
    have := (Nat.le_log2 (Nat.ne_of_gt h)).mpr low
    have := log2_le h high
    omega
  obtain ⟨b, hb⟩ : ∃ b : Nat, e + 1075 = b := ⟨(e + 1075).toNat, by omega⟩
  have bounded : ¬ 2 ^ 11 ≤ b + 1 := by omega
  have biased : (e + Format.binary64.exponentBias +
      Format.binary64.mantissaBitsWithoutImplicit).toNat = b := by
    change (e + 1023 + 52).toNat = b
    omega
  have packed : UnpackedFloat.pack .binary64 (.finite .positive m e h) =
      packComponents .binary64 .positive (BitVec.ofNat 11 b) (BitVec.ofNat 52 m) := by
    rw [pack_finite, biased, if_neg bounded, if_pos full]
  have exponent : (BitVec.ofNat 11 b).toNat = b := by
    rw [BitVec.toNat_ofNat, Nat.mod_eq_of_lt (by omega)]
  have apart (k : Nat) (small : k < 2 ^ 11) (other : b ≠ k) :
      BitVec.ofNat 11 b ≠ BitVec.ofNat 11 k := by
    intro eq
    have eq := congrArg BitVec.toNat eq
    rw [exponent, BitVec.toNat_ofNat, Nat.mod_eq_of_lt small] at eq
    exact other eq
  change UnpackedFloat.unpack .binary64 (UnpackedFloat.pack .binary64 (.finite .positive m e h)) = _
  rw [packed]
  refine unpack_finite _ ?_ ?_ h (unpackSign_positive _ _) ?_ ?_
  · rw [unpackExponent_packComponents]
    exact apart 2047 (by decide) (by omega)
  · rw [unpackExponent_packComponents]
    exact apart 0 (by decide) (by omega)
  · rw [unpackMantissa_packComponents, BitVec.toNat_append,
      ← Nat.shiftLeft_add_eq_or_of_lt (BitVec.isLt _), Nat.shiftLeft_eq]
    simp only [BitVec.toNat_ofNat]
    omega
  · rw [unpackExponent_packComponents, exponent]
    omega

/-- What is made from a number that needs no rounding holds that number. -/
theorem Holds.of_pack (pos : 0 < m) (lt : m < 2 ^ 53) (reach : InReach m e) {a : Nat}
    (room : gap m ≤ a)
    (packed : x.toModel =
      .pack (roundWithAccuracy .binary64 .positive (m * 2 ^ a) (e - a) .exact)) :
    Holds x m e := by
  have le := log2_le pos lt
  obtain ⟨low, high⟩ := full_bounds pos lt
  obtain ⟨least, most⟩ := reach
  obtain ⟨h, rounded⟩ := roundWithAccuracy_exact pos lt least room .positive
  refine ⟨pos, lt, h, ?_⟩
  rw [packed, rounded]
  refine unpack_pack low high ?_ ?_ h <;> unfold gap <;> omega

end Packing

section Arithmetic

/-- A product is exact if 53 bits are enough for it. -/
theorem Holds.mul (hx : Holds x m e) (hy : Holds y n f) (fits : m * n < 2 ^ 53)
    (reach : InReach (m * n) (e + f)) : Holds (x * y) (m * n) (e + f) := by
  have room : gap (m * n) ≤ gap m + gap n := by
    have := log2_add_le hx.pos hy.pos
    have := log2_le hx.pos hx.lt
    have := log2_le hy.pos hy.lt
    unfold gap
    omega
  have mantissa : m * n * 2 ^ (gap m + gap n) = m * 2 ^ gap m * (n * 2 ^ gap n) := by
    rw [Nat.pow_add, Nat.mul_mul_mul_comm]
  have exponent : e + f - ((gap m + gap n : Nat) : Int) = e - gap m + (f - gap n) := by omega
  obtain ⟨px, ux⟩ := hx.unpack
  obtain ⟨py, uy⟩ := hy.unpack
  refine .of_pack (Nat.mul_pos hx.pos hy.pos) fits reach room ?_
  rw [mantissa, exponent]
  change Float.Model.pack (UnpackedFloat.mul .binary64 x.toModel.unpack y.toModel.unpack) = _
  rw [ux, uy]
  rfl

theorem Holds.mul_power (hx : Holds x m e) (hy : Holds y 1 f) (reach : InReach m (e + f)) :
    Holds (x * y) m (e + f) := by
  rw [← Nat.mul_one m] at reach ⊢
  exact hx.mul hy ((Nat.mul_one m).symm ▸ hx.lt) reach

/-- A quotient by a power of two is exact. -/
theorem Holds.div_power (hx : Holds x m e) (hy : Holds y 1 f) (reach : InReach m (e - f)) :
    Holds (x / y) m (e - f) := by
  obtain ⟨px, ux⟩ := hx.unpack
  obtain ⟨py, uy⟩ := hy.unpack
  have le := log2_le hx.pos hx.lt
  have least := reach.1
  have one : gap 1 = 52 := rfl
  -- The dividend is shifted by 53 bits, or by 52 if the quotient is as small as can be.
  obtain ⟨extra, shift⟩ : ∃ extra : Nat, 52 + (extra : Int) = min 53 (e - f + m.log2 + 1074) :=
    ⟨(min 53 (e - f + m.log2 + 1074) - 52).toNat, by omega⟩
  have target : min (e - gap m - (f - gap 1)) (Format.binary64.targetExponent
      (totalExponent (m * 2 ^ gap m) (e - gap m) - totalExponent (1 * 2 ^ gap 1) (f - gap 1))) =
      e - f - ((gap m + extra : Nat) : Int) := by
    rw [targetExponent_eq, totalExponent, totalExponent, log2_full hx.pos hx.lt,
      log2_full hy.pos hy.lt, one]
    unfold gap
    omega
  have amount : (e - gap m - (f - gap 1) - (e - f - ((gap m + extra : Nat) : Int))).toNat =
      extra + 52 := by omega
  have whole : m * 2 ^ gap m * 2 ^ (extra + 52) = m * 2 ^ (gap m + extra) * 2 ^ 52 := by
    simp only [Nat.pow_add, Nat.mul_assoc]
  have divisor : 1 * 2 ^ gap 1 = 2 ^ 52 := rfl
  have core : divCore .binary64 (m * 2 ^ gap m) (e - gap m) (1 * 2 ^ gap 1) (f - gap 1) =
      (m * 2 ^ (gap m + extra), e - f - ((gap m + extra : Nat) : Int), .exact) := by
    simp only [divCore, target, amount, Nat.shiftLeft_eq, whole]
    rw [divisor, Nat.mul_div_cancel _ (Nat.two_pow_pos 52), Nat.mul_mod_left]
    rfl
  refine .of_pack hx.pos hx.lt reach (Nat.le_add_right _ extra) ?_
  change Float.Model.pack (UnpackedFloat.div .binary64 x.toModel.unpack y.toModel.unpack) = _
  rw [ux, uy]
  change Float.Model.pack
    (match divCore .binary64 (m * 2 ^ gap m) (e - gap m) (1 * 2 ^ gap 1) (f - gap 1) with
    | (quotient, exponent, accuracy) =>
      roundWithAccuracy .binary64 .positive quotient exponent accuracy) = _
  rw [core]

end Arithmetic

section Whole

theorem Holds.of_ofNat (pos : 0 < n) (lt : n < 2 ^ 53)
    (h : x.toModel = .pack (UnpackedFloat.ofNat .binary64 n)) : Holds x n 0 := by
  have le := log2_le pos lt
  have target : Format.binary64.targetExponent (totalExponent n 0) = 0 - gap n := by
    rw [targetExponent_eq, totalExponent, gap]
    omega
  have amount : ((0 : Int) - (0 - gap n)).toNat = gap n := by omega
  have sign : compare (n : Int) 0 = .gt := Int.compare_eq_gt.mpr (by omega)
  refine .of_pack pos lt (by unfold InReach; omega) (Nat.le_refl _) ?_
  rw [h]
  simp only [UnpackedFloat.ofNat, UnpackedFloat.ofInt, UnpackedFloat.normalize, sign,
    UnpackedFloat.round, target, Int.toNat_natCast, decreaseExponent, amount, Nat.shiftLeft_eq]

theorem holds_toFloat {n : UInt32} (pos : 0 < n.toNat) : Holds n.toFloat n.toNat 0 :=
  .of_ofNat pos (Nat.lt_trans n.toNat_lt (by decide)) rfl

theorem toNat_ofNatClamp (n : Nat) : (UInt64.ofNatClamp n).toNat = min n (2 ^ 64 - 1) := by
  change _ = min n (UInt64.size - 1)
  by_cases h : n < UInt64.size
  · rw [UInt64.toNat_ofNatClamp_of_lt h, Nat.min_eq_left (Nat.le_sub_one_of_lt h)]
  · have greatest : UInt64.size - 1 ≤ n := by omega
    rw [UInt64.toNat_ofNatClamp_of_le (Nat.not_lt.mp h), Nat.min_eq_right greatest]

/-- A whole number becomes a word as it is, or the greatest word if it is greater than that. -/
theorem Holds.toUInt64 {k : Nat} (h : Holds x m k) :
    x.toUInt64.toNat = min (m * 2 ^ k) (2 ^ 64 - 1) := by
  obtain ⟨p, u⟩ := h.unpack
  have up : ((k : Int) - gap m - 0).toNat = k - gap m := by omega
  have down : (0 - ((k : Int) - gap m - ((k - gap m : Nat) : Int))).toNat = gap m - k := by omega
  have exponents : gap m + (k - gap m) = k + (gap m - k) := by omega
  have whole : m * 2 ^ gap m * 2 ^ (k - gap m) = m * 2 ^ k * 2 ^ (gap m - k) := by
    rw [Nat.mul_assoc, Nat.mul_assoc, ← Nat.pow_add, ← Nat.pow_add, exponents]
  have int : roundToInt .positive (m * 2 ^ gap m) (k - gap m) = (m * 2 ^ k : Nat) := by
    simp only [roundToInt, decreaseExponent, shiftToExponent, up, down, Nat.shiftLeft_eq, whole,
      ExtendedMantissa.ofMantissaAndAccuracy, shift_exact]
    rfl
  change (UnpackedFloat.toUInt64 x.toModel.unpack).toNat = _
  rw [u]
  change (UInt64.ofNatClamp (roundToInt .positive (m * 2 ^ gap m) (k - gap m)).toNat).toNat = _
  rw [int, Int.toNat_natCast, toNat_ofNatClamp]

theorem toUInt64_toFloat {n : UInt64} (lt : n.toNat < 2 ^ 53) : n.toFloat.toUInt64 = n := by
  rcases Nat.eq_zero_or_pos n.toNat with zero | pos
  · obtain rfl : n = 0 := UInt64.toNat_inj.mp zero
    decide
  · have whole : Holds n.toFloat n.toNat (0 : Nat) := .of_ofNat pos lt rfl
    rw [← UInt64.toNat_inj, whole.toUInt64]
    omega

theorem rounded_double (m : Nat) (e : Int) : rounded (m * 2) (e - 1) = rounded m e := by
  match e with
  | .ofNat 0 =>
    change (m * 2 + 1) / 2 = m * 1
    omega
  | .ofNat (k + 1) =>
    rw [Int.ofNat_eq_natCast, Int.natCast_add, Int.natCast_one, Int.add_sub_cancel]
    change m * 2 * 2 ^ k = m * 2 ^ (k + 1)
    rw [Nat.pow_succ', Nat.mul_assoc]
  | .negSucc k =>
    change (m * 2 + 2 ^ (k + 1)) / 2 ^ (k + 1 + 1) = (m + 2 ^ k) / 2 ^ (k + 1)
    rw [Nat.pow_succ 2 k, ← Nat.add_mul, Nat.pow_succ 2 (k + 1),
      Nat.mul_div_mul_right _ _ Nat.two_pos, Nat.pow_succ]

/-- The same number has the same whole number nearest to it. -/
theorem rounded_scale (m : Nat) (e : Int) (g : Nat) :
    rounded (m * 2 ^ g) (e - g) = rounded m e := by
  induction g with
  | zero => simp
  | succ g ih =>
    rw [← ih, ← rounded_double (m * 2 ^ g), Nat.pow_succ, Nat.mul_assoc, Int.natCast_succ,
      Int.sub_sub]

/-- A float is rounded to a whole number just as the number that it holds. -/
theorem Holds.toUInt64_nearest (h : Holds x m e) :
    (nearest x).toUInt64.toNat = min (rounded m e) (2 ^ 64 - 1) := by
  obtain ⟨p, u⟩ := h.unpack
  obtain ⟨low, high⟩ := full_bounds h.pos h.lt
  rw [← rounded_scale m e (gap m)]
  unfold nearest
  rw [u]
  cases he : e - gap m with
  | ofNat k =>
    obtain rfl : e = ((k + gap m : Nat) : Int) := by
      rw [Int.ofNat_eq_natCast] at he
      omega
    simp only [h.toUInt64, rounded, Nat.pow_add, Nat.mul_assoc, Nat.mul_comm (2 ^ k)]
  | negSucc k =>
    have fits : rounded (m * 2 ^ gap m) (.negSucc k) < 2 ^ 53 := by
      rw [rounded, Nat.div_lt_iff_lt_mul (Nat.two_pow_pos _), Nat.pow_succ]
      have := Nat.two_pow_pos k
      omega
    have word : (UInt64.ofNat (rounded (m * 2 ^ gap m) (.negSucc k))).toNat =
        rounded (m * 2 ^ gap m) (.negSucc k) :=
      UInt64.toNat_ofNat_of_lt' (Nat.lt_trans fits (by decide))
    have survives := toUInt64_toFloat (Nat.lt_of_le_of_lt (Nat.le_of_eq word) fits)
    simp only [survives, word]
    omega

end Whole

section Powers

theorem holds_one : Holds 1.0 1 0 := ⟨by decide, by decide, by decide, rfl⟩

theorem holds_two : Holds 2.0 1 1 := ⟨by decide, by decide, by decide, rfl⟩

/-- All that is squared and multiplied on the way is a power of two that a float can hold. -/
theorem holds_timesPower {x y : Float} {p q : Nat} (hx : Holds x 1 p) (hy : Holds y 1 q) (n : Nat)
    (fits : p + q * n ≤ 1023) : Holds (timesPower x y n) 1 (p + q * n : Nat) := by
  have split : q * n = q * (n % 2) + (q + q) * (n / 2) := by
    rw [← Nat.two_mul, Nat.mul_assoc, Nat.mul_left_comm, ← Nat.mul_add, Nat.mod_add_div]
  have odd : Holds (if n % 2 = 1 then x * y else x) 1 (p + q * (n % 2) : Nat) := by
    have small : q * (n % 2) ≤ q * n := Nat.mul_le_mul_left q (Nat.mod_le n 2)
    rcases Nat.mod_two_eq_zero_or_one n with even | odd
    · simpa [even] using hx
    · rw [odd] at small
      simpa [odd] using hx.mul_power hy (inReach_one (by omega) (by omega))
  rw [timesPower]
  split
  · next done =>
    rw [split, done, Nat.mul_zero, Nat.add_zero]
    exact odd
  · next more =>
    have twice : (q + q) * 1 ≤ (q + q) * (n / 2) :=
      Nat.mul_le_mul_left _ (Nat.pos_of_ne_zero more)
    have square : Holds (y * y) 1 (q + q : Nat) := by
      simpa using hy.mul_power hy (inReach_one (by omega) (by omega))
    have rest := holds_timesPower odd square (n / 2) (by omega)
    rwa [Nat.add_assoc, ← split] at rest
termination_by n
decreasing_by omega

theorem holds_power_two (least : -1022 ≤ e) (most : e ≤ 1023) : Holds (power 2.0 e) 1 e := by
  have start : Holds 1.0 1 (0 : Nat) := holds_one
  have base : Holds 2.0 1 (1 : Nat) := holds_two
  have whole := holds_timesPower start base e.natAbs (by omega)
  rw [Nat.zero_add, Nat.one_mul] at whole
  unfold power
  split
  · next negative =>
    have inverse : (0 : Int) - e.natAbs = e := by omega
    have inverted := holds_one.div_power whole (inReach_one (by omega) (by omega))
    rwa [inverse] at inverted
  · next positive =>
    have same : (e.natAbs : Int) = e := by omega
    rwa [same] at whole

end Powers

end Piezo.Precision
