import Mathlib.Tactic.Ring
import Mathlib.Tactic.Linarith
import ListPress.Number.Shortest

/-! # Rounding intervals

The reals that round to a finite number form an interval, and its ends are what `lowerEnd` and
`upperEnd` compute: a fraction that the interval covers is rounded to the number (`ofRatio_eq`), and
so is a decimal (`ofDecimal_eq`). -/

namespace ListPress

theorem twoPow_eq (n : Nat) : twoPow n = 2 ^ n := rfl

theorem tenPow_eq (n : Nat) : tenPow n = 10 ^ n := rfl

/-- A fraction rounds to `n` if it is at most a half away from it, and less than that if `n` is odd.
Its bounds are given in quarters. -/
theorem roundHalfEven_eq {num den n a : Nat} (hden : 0 < den) (ha : 4 * n ≤ a + 2)
    (hlo : a * den ≤ 4 * num) (hhi : 4 * num ≤ (4 * n + 2) * den)
    (hodd : n % 2 = 1 → a * den < 4 * num ∧ 4 * num < (4 * n + 2) * den) :
    roundHalfEven num den = n := by
  have hnum := Nat.div_add_mod' num den
  have hmod := Nat.mod_lt num hden
  have ha := Nat.mul_le_mul_right den ha
  simp only [Nat.add_mul, Nat.mul_assoc] at ha hhi hodd
  unfold roundHalfEven
  generalize num / den = q, num % den = r at *
  have hle : q ≤ n := by
    by_contra h
    have := Nat.mul_le_mul_right den (Nat.not_le.1 h)
    rw [Nat.succ_mul] at this
    omega
  have hge : n ≤ q + 1 := by
    by_contra h
    have := Nat.mul_le_mul_right den (Nat.not_le.1 h)
    rw [Nat.succ_mul, Nat.succ_mul] at this
    omega
  obtain rfl | rfl : n = q ∨ n = q + 1 := by omega
  · grind
  · rw [Nat.succ_mul] at *
    grind

namespace Binary64

/-! ## Magnitudes -/

theorem hiddenBit_eq : hiddenBit = 2 ^ 52 := rfl

theorem magnitude_eq (x : Binary64) : x.magnitude = x.shift * hiddenBit + x.significand := by
  unfold shift significand
  have := Nat.div_add_mod' x.magnitude hiddenBit
  split
  · next h => rw [Nat.div_eq_of_lt h]; omega
  · next h =>
    have : 0 < x.magnitude / hiddenBit := Nat.div_pos (Nat.not_lt.1 h) (by decide)
    rw [Nat.sub_mul, hiddenBit] at *
    omega

theorem significand_lt (x : Binary64) : x.significand < 2 ^ 53 := by
  unfold significand hiddenBit
  split <;> omega

theorem le_significand {x : Binary64} (H : 0 < x.shift) : 2 ^ 52 ≤ x.significand := by
  unfold shift significand hiddenBit at *
  split <;> omega

theorem shift_le {x : Binary64} (H : x.isFinite) : x.shift ≤ 2045 := by
  have H : x.magnitude < infinityBits := by simpa [isFinite] using H
  unfold shift infinityBits hiddenBit at *
  omega

theorem ofMagnitude_magnitude (x : Binary64) : ofMagnitude x.negative x.magnitude = x := by
  have : x.bits.toNat < 2 ^ 64 := x.bits.toNat_lt
  have h : (if x.negative = true then signBit + x.magnitude else x.magnitude) = x.bits.toNat := by
    simp only [negative, magnitude, decide_eq_true_iff]
    unfold signBit
    split <;> omega
  rw [ofMagnitude, h, UInt64.ofNat_toNat]

theorem toNat_bits_ofMagnitude {m : Nat} (negative : Bool) (hm : m < signBit) :
    (ofMagnitude negative m).bits.toNat = if negative then signBit + m else m := by
  unfold signBit at hm
  cases negative <;> simp [ofMagnitude, signBit] <;> omega

theorem magnitude_ofMagnitude {m : Nat} (negative : Bool) (hm : m < signBit) :
    (ofMagnitude negative m).magnitude = m := by
  rw [magnitude, toNat_bits_ofMagnitude negative hm]
  cases negative with
  | false => exact Nat.mod_eq_of_lt hm
  | true => rw [if_pos rfl, Nat.add_mod_left, Nat.mod_eq_of_lt hm]

theorem isNaN_of_isFinite {x : Binary64} (H : x.isFinite) : x.isNaN = false := by
  simp only [isFinite, isNaN, decide_eq_true_eq, decide_eq_false_iff_not] at *
  omega

/-- Rounding gives infinity at most. -/
theorem isNaN_ofRatio (negative : Bool) (num den : Nat) :
    (ofRatio negative num den).isNaN = false := by
  unfold ofRatio
  simp only
  generalize _ + roundHalfEven _ _ = m
  have hm : min m infinityBits < signBit := Nat.lt_of_le_of_lt (Nat.min_le_right ..) (by decide)
  rw [isNaN, magnitude_ofMagnitude negative hm, decide_eq_false_iff_not]
  exact Nat.not_lt.2 (Nat.min_le_right ..)

/-! ## The interval of a number -/

section
variable {x : Binary64} {a b : Nat}

theorem inOrder_of_lt (x : Binary64) (H : a < b) : x.inOrder a b := by
  unfold inOrder
  split <;> simp [H, Nat.le_of_lt H]

theorem le_of_inOrder (H : x.inOrder a b) : a ≤ b := by
  unfold inOrder at H
  split at H <;> simp only [decide_eq_true_eq] at H <;> omega

theorem lt_of_inOrder (H : x.inOrder a b) (hodd : x.significand % 2 = 1) : a < b := by
  rw [inOrder, if_neg (by omega)] at H
  exact of_decide_eq_true H

theorem inOrder_mul_iff {c : Nat} (hc : 0 < c) : x.inOrder (a * c) (b * c) ↔ x.inOrder a b := by
  unfold inOrder
  split <;> simp [Nat.mul_le_mul_right_iff hc, Nat.mul_lt_mul_right hc]

end

/-- The interval of the reals that round to `x` covers `num / den`. -/
structure Covers (x : Binary64) (num den : Nat) : Prop where
  lower : x.inOrder (x.lowerEnd * den) (4 * num * x.denominator)
  upper : x.inOrder (4 * num * x.denominator) (x.upperEnd * den)

theorem Covers.of_mul_eq {x : Binary64} {num den num' den' : Nat} (H : x.Covers num den)
    (hden : 0 < den) (hden' : 0 < den') (h : num * den' = num' * den) : x.Covers num' den' := by
  have hmid : 4 * num' * x.denominator * den = 4 * num * x.denominator * den' := calc
    4 * num' * x.denominator * den = 4 * x.denominator * (num' * den) := by ring
    _ = 4 * x.denominator * (num * den') := by rw [h]
    _ = 4 * num * x.denominator * den' := by ring
  constructor
  · rw [← inOrder_mul_iff hden, hmid, Nat.mul_right_comm x.lowerEnd, inOrder_mul_iff hden']
    exact H.lower
  · rw [← inOrder_mul_iff hden, hmid, Nat.mul_right_comm x.upperEnd, inOrder_mul_iff hden']
    exact H.upper

/-- Four times the significand, less the gap below the number. -/
def lowerQuarters (x : Binary64) : Nat :=
  4 * x.significand - if x.significand = hiddenBit ∧ 0 < x.shift then 1 else 2

theorem lowerEnd_eq (x : Binary64) : x.lowerEnd = x.lowerQuarters * 2 ^ (x.shift - 1074) := rfl

theorem upperEnd_eq (x : Binary64) :
    x.upperEnd = (4 * x.significand + 2) * 2 ^ (x.shift - 1074) := rfl

theorem denominator_eq (x : Binary64) : x.denominator = 2 ^ (1074 - x.shift) := rfl

/-- The interval in steps of the least positive number. -/
theorem covers_iff {x : Binary64} {num den : Nat} : x.Covers num den ↔
    x.inOrder (x.lowerQuarters * (den * 2 ^ x.shift)) (4 * (num * 2 ^ 1074)) ∧
    x.inOrder (4 * (num * 2 ^ 1074)) ((4 * x.significand + 2) * (den * 2 ^ x.shift)) := by
  have hc : 0 < 2 ^ min x.shift 1074 := Nat.two_pow_pos _
  have hshift : 2 ^ x.shift = 2 ^ (x.shift - 1074) * 2 ^ min x.shift 1074 := by
    rw [← Nat.pow_add]; congr 1; omega
  have hnum : 2 ^ 1074 = 2 ^ (1074 - x.shift) * 2 ^ min x.shift 1074 := by
    rw [← Nat.pow_add]; congr 1; omega
  have hends (k : Nat) : k * (den * 2 ^ x.shift) =
      k * 2 ^ (x.shift - 1074) * den * 2 ^ min x.shift 1074 := by rw [hshift]; ring
  have hmid : 4 * (num * 2 ^ 1074) = 4 * num * x.denominator * 2 ^ min x.shift 1074 := by
    rw [hnum, denominator_eq]; ring
  rw [hends, hends, hmid, inOrder_mul_iff hc, inOrder_mul_iff hc, ← lowerEnd_eq, ← upperEnd_eq]
  exact ⟨fun H => ⟨H.lower, H.upper⟩, fun H => ⟨H.1, H.2⟩⟩

theorem log2_sub_eq {q s : Nat} (hlt : q < 2 ^ (53 + s)) (hle : s = 0 ∨ 2 ^ (52 + s) ≤ q) :
    q.log2 - 52 = s := by
  rcases Nat.eq_zero_or_pos q with rfl | hq
  · have := Nat.two_pow_pos (52 + s)
    simp
    omega
  · have hlt := (Nat.log2_lt (by omega)).2 hlt
    rcases hle with rfl | hle
    · omega
    · have hle := (Nat.le_log2 (by omega)).2 hle
      omega

/-- Just below a power of two the steps are half as large, so there the number is the end of the
range below. -/
theorem significand_eq_of_lt {x : Binary64} {n step : Nat} (hx : 0 < x.shift)
    (hlo : x.lowerQuarters * step ≤ 4 * n) (hn : n < 2 ^ 52 * step) :
    x.significand = 2 ^ 52 ∧ (4 * 2 ^ 52 - 1) * step ≤ 4 * n := by
  have hle := le_significand hx
  have hq : x.lowerQuarters < 4 * 2 ^ 52 := by
    by_contra h
    have := Nat.mul_le_mul_right step (Nat.not_lt.1 h)
    omega
  unfold lowerQuarters at *
  split at hq
  · next h => exact ⟨h.1, by rw [if_pos h, h.1, hiddenBit_eq] at hlo; exact hlo⟩
  · next h => rw [hiddenBit_eq] at h; omega

section
variable {x : Binary64} {n den : Nat}

theorem quotient_lt (hden : 0 < den) (hhi : 4 * n ≤ (4 * x.significand + 2) * (den * 2 ^ x.shift)) :
    n / den < 2 ^ (53 + x.shift) := by
  have hstep : 0 < den * 2 ^ x.shift := Nat.mul_pos hden (Nat.two_pow_pos _)
  have hlt : (4 * x.significand + 2) * (den * 2 ^ x.shift) < 4 * 2 ^ 53 * (den * 2 ^ x.shift) :=
    Nat.mul_lt_mul_of_pos_right (by have := x.significand_lt; omega) hstep
  rw [Nat.mul_assoc] at hlt
  rw [Nat.div_lt_iff_lt_mul hden]
  calc n < 2 ^ 53 * (den * 2 ^ x.shift) := by omega
    _ = 2 ^ (53 + x.shift) * den := by rw [Nat.pow_add]; ring

/-- The magnitude that a fraction in the interval rounds to, with the fraction in steps of the least
positive number. -/
theorem roundedMagnitude_eq (hden : 0 < den)
    (hlo : x.inOrder (x.lowerQuarters * (den * 2 ^ x.shift)) (4 * n))
    (hhi : x.inOrder (4 * n) ((4 * x.significand + 2) * (den * 2 ^ x.shift))) :
    ((n / den).log2 - 52) * hiddenBit + roundHalfEven n (den * 2 ^ ((n / den).log2 - 52)) =
      x.magnitude := by
  have hle := le_of_inOrder hlo
  have hge := le_of_inOrder hhi
  rw [x.magnitude_eq]
  by_cases hnormal : x.shift = 0 ∨ 2 ^ (52 + x.shift) ≤ n / den
  · -- the number and the fraction lie in the same range
    have hquarters : 4 * x.significand ≤ x.lowerQuarters + 2 := by
      unfold lowerQuarters
      split <;> omega
    have hstep : 0 < den * 2 ^ x.shift := Nat.mul_pos hden (Nat.two_pow_pos _)
    rw [log2_sub_eq (quotient_lt hden hge) hnormal, roundHalfEven_eq hstep hquarters hle hge]
    exact fun h => ⟨lt_of_inOrder hlo h, lt_of_inOrder hhi h⟩
  · -- the fraction lies in the range below, and rounds up to its end
    obtain ⟨hshift, hquot⟩ := not_or.1 hnormal
    obtain ⟨s, hs⟩ := Nat.exists_eq_add_one_of_ne_zero hshift
    have hpow : den * 2 ^ x.shift = 2 * (den * 2 ^ s) := by rw [hs, Nat.pow_succ]; ring
    have hn : n < 2 ^ 52 * (den * 2 ^ x.shift) := by
      rw [Nat.not_le, Nat.div_lt_iff_lt_mul hden, Nat.pow_add] at hquot
      calc n < 2 ^ 52 * 2 ^ x.shift * den := hquot
        _ = 2 ^ 52 * (den * 2 ^ x.shift) := by ring
    obtain ⟨hm, hle⟩ := significand_eq_of_lt (Nat.pos_of_ne_zero hshift) hle hn
    rw [hpow] at hle hn
    have hlog : (n / den).log2 - 52 = s := by
      rw [Nat.not_le, hs, ← Nat.add_assoc, Nat.add_right_comm] at hquot
      refine log2_sub_eq hquot (.inr ?_)
      rw [Nat.le_div_iff_mul_le hden, Nat.pow_add, Nat.mul_right_comm, Nat.mul_assoc]
      omega
    have hround : roundHalfEven n (den * 2 ^ s) = 2 ^ 53 :=
      roundHalfEven_eq (a := 4 * 2 ^ 53 - 2) (Nat.mul_pos hden (Nat.two_pow_pos s)) (by omega)
        (by omega) (by omega) (by omega)
    rw [hlog, hround, hs, hm, hiddenBit_eq]
    omega

/-- A fraction in the interval of a finite number rounds to it. -/
theorem ofRatio_eq {num : Nat} (hx : x.isFinite) (hden : 0 < den) (H : x.Covers num den) :
    ofRatio x.negative num den = x := by
  obtain ⟨hlo, hhi⟩ := covers_iff.1 H
  have hfin : x.magnitude ≤ infinityBits := Nat.le_of_lt (by simpa [isFinite] using hx)
  simp only [ofRatio, twoPow_eq, roundedMagnitude_eq hden hlo hhi, Nat.min_eq_left hfin,
    ofMagnitude_magnitude]

end

/-! ## Decimals -/

/-- The interval of `x` covers the value of a decimal. -/
def CoversDecimal (x : Binary64) (digits : Nat) (exponent : Int) : Prop :=
  x.Covers (digits * 10 ^ exponent.toNat) (10 ^ (-exponent).toNat)

section
variable {x : Binary64} {digits : Nat} {exponent : Int}

/-- Zeros at the end of the digits do not count. -/
theorem CoversDecimal.mul_pow (H : x.CoversDecimal digits exponent) (zeros : Nat) :
    x.CoversDecimal (digits * 10 ^ zeros) (exponent - zeros) := by
  refine Covers.of_mul_eq H (Nat.pow_pos (by decide)) (Nat.pow_pos (by decide)) ?_
  simp only [Nat.mul_assoc, ← Nat.pow_add]
  congr 2
  omega

theorem significand_pos (hpos : 0 < x.magnitude) : 0 < x.significand := by
  rcases Nat.eq_zero_or_pos x.shift with h | h
  · rw [x.magnitude_eq, h] at hpos
    omega
  · have := le_significand h
    omega

theorem two_le_lowerQuarters (hpos : 0 < x.magnitude) : 2 ≤ x.lowerQuarters := by
  have := significand_pos hpos
  unfold lowerQuarters
  split <;> omega

theorem CoversDecimal.digits_pos (H : x.CoversDecimal digits exponent) (hpos : 0 < x.magnitude) :
    0 < digits := by
  have hquarters : 0 < x.lowerQuarters := Nat.lt_of_lt_of_le (by decide) (two_le_lowerQuarters hpos)
  have hlo := le_of_inOrder (covers_iff.1 H).1
  refine Nat.pos_of_ne_zero fun h => ?_
  rw [h, Nat.zero_mul, Nat.zero_mul] at hlo
  refine Nat.not_lt.2 hlo (Nat.mul_pos hquarters (Nat.mul_pos ?_ (Nat.two_pow_pos _)))
  exact Nat.pow_pos (by decide)

theorem two_pow_two_add (a b : Nat) : 2 ^ (2 + a + b) = 4 * (2 ^ a * 2 ^ b) := by
  rw [Nat.pow_add, Nat.pow_add, Nat.mul_assoc]

theorem CoversDecimal.exponent_le (H : x.CoversDecimal digits exponent) (hx : x.isFinite)
    (hpos : 0 < x.magnitude) : exponent ≤ 400 := by
  by_contra h
  obtain ⟨e, rfl⟩ := Int.eq_ofNat_of_zero_le (a := exponent) (by omega)
  have hhi := le_of_inOrder (covers_iff.1 H).2
  have hdigits := H.digits_pos hpos
  have hm := x.significand_lt
  have hs := shift_le hx
  simp only [Int.toNat_natCast, Int.toNat_neg_natCast, Nat.pow_zero, Nat.one_mul] at hhi
  have hlt : 2 ^ (2 + 3 * e + 1074) < 2 ^ (56 + x.shift) := calc
    2 ^ (2 + 3 * e + 1074) = 4 * (1 * (2 ^ 3) ^ e * 2 ^ 1074) := by
      rw [two_pow_two_add, Nat.pow_mul, Nat.one_mul]
    _ ≤ 4 * (digits * 10 ^ e * 2 ^ 1074) := by gcongr <;> omega
    _ ≤ (4 * x.significand + 2) * 2 ^ x.shift := hhi
    _ < 2 ^ 56 * 2 ^ x.shift := Nat.mul_lt_mul_of_pos_right (by omega) (Nat.two_pow_pos _)
    _ = 2 ^ (56 + x.shift) := (Nat.pow_add ..).symm
  have := (Nat.pow_lt_pow_iff_right (by decide)).1 hlt
  omega

theorem CoversDecimal.le_exponent (H : x.CoversDecimal digits exponent)
    (hpos : 0 < x.magnitude) : -(401 + digits.log2 : Nat) ≤ exponent := by
  by_contra h
  obtain ⟨k, hk⟩ := Int.eq_ofNat_of_zero_le (a := -exponent) (by omega)
  obtain rfl : exponent = -k := by omega
  have hlo := le_of_inOrder (covers_iff.1 H).1
  have hquarters := two_le_lowerQuarters hpos
  simp only [Int.toNat_natCast, Int.toNat_neg_natCast, Nat.pow_zero, Nat.mul_one,
    Int.neg_neg] at hlo
  have hlt : 2 ^ (3 * k + 1) < 2 ^ (2 + (digits.log2 + 1) + 1074) := calc
    2 ^ (3 * k + 1) = 2 * (8 ^ k * 1) := by
      rw [Nat.pow_add, Nat.pow_mul]; ring
    _ ≤ x.lowerQuarters * (10 ^ k * 2 ^ x.shift) := by
      gcongr
      · omega
      · exact Nat.one_le_two_pow
    _ ≤ 4 * (digits * 2 ^ 1074) := hlo
    _ < 4 * (2 ^ (digits.log2 + 1) * 2 ^ 1074) := by gcongr; exact Nat.lt_log2_self
    _ = 2 ^ (2 + (digits.log2 + 1) + 1074) := (two_pow_two_add ..).symm
  have := (Nat.pow_lt_pow_iff_right (by decide)).1 hlt
  omega

theorem CoversDecimal.ofDecimal_eq (H : x.CoversDecimal digits exponent) (hx : x.isFinite)
    (hpos : 0 < x.magnitude) : ofDecimal x.negative digits exponent = x := by
  have hmin := Int.min_eq_left (H.exponent_le hx hpos)
  have hmax := Int.max_eq_left (H.le_exponent hpos)
  simp only [ofDecimal, hmin, hmax]
  exact ofRatio_eq hx (Nat.pow_pos (by decide)) H

end

end Binary64
end ListPress
