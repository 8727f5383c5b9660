import Mathlib.Algebra.Order.Field.Basic
import Mathlib.Algebra.Order.Field.Rat
import Mathlib.Tactic.Ring
import ListPress.Proofs.Rounding

/-! # The nearest number

A fraction is rounded to the number nearest to it, of two equally near ones the number with the even
significand: that is what `ofRatio` does to every fraction (`Binary64.nearestAbs_ofRatio`), infinity
taking part as the power of two that comes after the largest finite number. An integer of 64 bits is
never that large (`Binary64.nearest_ofRatio`). -/

namespace ListPress

/-! ## Rounding a fraction -/

/-- A fraction is rounded by at most a half, and by a half only to an even number. -/
theorem roundHalfEven_within {den : Nat} (hden : 0 < den) (num : Nat) :
    2 * (roundHalfEven num den * den) ≤ 2 * num + den ∧
    2 * num ≤ 2 * (roundHalfEven num den * den) + den ∧
    (2 * (roundHalfEven num den * den) = 2 * num + den ∨
      2 * num = 2 * (roundHalfEven num den * den) + den → roundHalfEven num den % 2 = 0) := by
  have hnum := Nat.div_add_mod' num den
  have hmod := Nat.mod_lt num hden
  simp only [roundHalfEven]
  generalize num / den = q, num % den = r at *
  split
  · omega
  · split
    · have := Nat.add_one_mul q den
      omega
    · rcases Nat.mod_two_eq_zero_or_one q with hq | hq
      · rw [hq, Nat.add_zero]
        omega
      · have := Nat.add_one_mul q den
        rw [hq]
        omega

theorem mul_add_le_of_ne {k r : Nat} (den : Nat) (H : k ≠ r) :
    k * den + den ≤ r * den ∨ r * den + den ≤ k * den := by
  rw [← Nat.succ_mul, ← Nat.succ_mul]
  rcases Nat.lt_or_gt_of_ne H with h | h
  · exact .inl (Nat.mul_le_mul_right den h)
  · exact .inr (Nat.mul_le_mul_right den h)

/-- No multiple of `den` is nearer to `num` than the one it is rounded to. -/
theorem roundHalfEven_nearest {den : Nat} (hden : 0 < den) (num k : Nat) :
    ((num : Int) - (roundHalfEven num den * den : Nat)).natAbs ≤
      ((num : Int) - (k * den : Nat)).natAbs := by
  by_cases hk : k = roundHalfEven num den
  · rw [hk]
  · have hsteps := mul_add_le_of_ne den hk
    obtain ⟨hlo, hhi, -⟩ := roundHalfEven_within hden num
    omega

/-- If another multiple of `den` is as near, `num` is rounded to an even one. -/
theorem roundHalfEven_even {den : Nat} (hden : 0 < den) {num k : Nat}
    (H : ((num : Int) - (roundHalfEven num den * den : Nat)).natAbs =
      ((num : Int) - (k * den : Nat)).natAbs) :
    k = roundHalfEven num den ∨ roundHalfEven num den % 2 = 0 := by
  by_cases hk : k = roundHalfEven num den
  · exact .inl hk
  · have hsteps := mul_add_le_of_ne den hk
    obtain ⟨hlo, hhi, heven⟩ := roundHalfEven_within hden num
    apply Or.inr
    apply heven
    omega

namespace Binary64

/-! ## Values -/

/-- The absolute value of a finite number, in steps of the least positive one, `2^-1074`. -/
def steps (x : Binary64) : Nat := x.significand * 2 ^ x.shift

/-- The value of a finite number, in steps of the least positive one. -/
def value (x : Binary64) : Int := if x.negative then -x.steps else x.steps

/-- How far a finite number is from an integer, in steps of the least positive number. -/
def distance (n : Int) (x : Binary64) : Nat := (n * (2 ^ 1074 : Nat) - x.value).natAbs

/-- The number nearest to an integer. Of two equally near numbers it is the one with the even
significand, and zero is taken without a sign. -/
structure Nearest (n : Int) (x : Binary64) : Prop where
  finite : x.isFinite
  negative : x.negative = decide (n < 0)
  nearest (y : Binary64) : y.isFinite → distance n x ≤ distance n y
  even (y : Binary64) : y.isFinite → distance n x = distance n y →
    x.value = y.value ∨ x.significand % 2 = 0

theorem negative_ofMagnitude {m : Nat} (negative : Bool) (hm : m < signBit) :
    (ofMagnitude negative m).negative = negative := by
  rw [Binary64.negative, toNat_bits_ofMagnitude negative hm]
  cases negative with
  | false => simpa using hm
  | true => simp

/-- The number whose magnitude is made of a shift and a significand. A significand that rounding has
carried to the next power of two is the least one of the next shift. -/
theorem steps_of_magnitude {x : Binary64} {s r : Nat} (hx : x.magnitude = s * hiddenBit + r)
    (hr : r ≤ 2 ^ 53) (hs : s = 0 ∨ 2 ^ 52 ≤ r) :
    x.steps = r * 2 ^ s ∧ (r % 2 = 0 → x.significand % 2 = 0) := by
  unfold steps significand shift
  rw [hx, hiddenBit_eq]
  by_cases hcarry : r = 2 ^ 53
  · have hdiv : (s * 2 ^ 52 + r) / 2 ^ 52 - 1 = s + 1 := by omega
    have hmod : (s * 2 ^ 52 + r) % 2 ^ 52 = 0 := by omega
    rw [if_neg (by omega), hdiv, hmod, hcarry]
    refine ⟨by ring, fun _ => rfl⟩
  · rcases Nat.lt_or_ge r (2 ^ 52) with hlt | hge
    · obtain rfl : s = 0 := by omega
      rw [Nat.zero_mul, Nat.zero_add, if_pos hlt, Nat.div_eq_of_lt hlt]
      exact ⟨rfl, id⟩
    · have hdiv : (s * 2 ^ 52 + r) / 2 ^ 52 - 1 = s := by omega
      have hmod : 2 ^ 52 + (s * 2 ^ 52 + r) % 2 ^ 52 = r := by omega
      rw [if_neg (by omega), hdiv, hmod]
      exact ⟨rfl, id⟩

/-! ## The nearest number -/

section
variable {n den s : Nat}

/-- The shift that `n / den` steps are rounded with. -/
theorem log2_sub_eq_iff (hden : 0 < den) : (n / den).log2 - 52 = s ↔
    n < 2 ^ 53 * (den * 2 ^ s) ∧ (s = 0 ∨ 2 ^ 52 * (den * 2 ^ s) ≤ n) := by
  have hpow (k : Nat) : 2 ^ k * (den * 2 ^ s) = 2 ^ (k + s) * den := by rw [Nat.pow_add]; ring
  rw [hpow, hpow, ← Nat.div_lt_iff_lt_mul hden, ← Nat.le_div_iff_mul_le hden]
  refine ⟨fun hs => ⟨?_, ?_⟩, fun H => log2_sub_eq H.1 H.2⟩
  · exact Nat.lt_of_lt_of_le Nat.lt_log2_self (Nat.pow_le_pow_right (by decide) (by omega))
  · rcases Nat.eq_zero_or_pos s with h | h
    · exact .inl h
    · have hquot : n / den ≠ 0 := by
        intro h0
        simp [h0] at hs
        omega
      exact .inr (Nat.le_trans (Nat.pow_le_pow_right (by decide) (by omega))
        (Nat.log2_self_le hquot))

/-- The significand that `n / den` steps are rounded to. -/
theorem roundHalfEven_log2 (hden : 0 < den) (hs : (n / den).log2 - 52 = s) :
    roundHalfEven n (den * 2 ^ s) ≤ 2 ^ 53 ∧
      (s = 0 ∨ 2 ^ 52 ≤ roundHalfEven n (den * 2 ^ s)) := by
  obtain ⟨hlt, hle⟩ := (log2_sub_eq_iff hden).1 hs
  have hstep : 0 < den * 2 ^ s := Nat.mul_pos hden (Nat.two_pow_pos s)
  obtain ⟨hlo, hhi, -⟩ := roundHalfEven_within hstep n
  generalize roundHalfEven n (den * 2 ^ s) = r at *
  generalize den * 2 ^ s = step at *
  refine ⟨?_, hle.imp_right fun hle => ?_⟩
  all_goals
    by_contra h
    have := Nat.mul_le_mul_right step (Nat.not_le.1 h)
    rw [Nat.succ_mul] at this
    omega

/-- No number is nearer to `n / den` steps than the significand they are rounded to. -/
theorem nearest_steps (hden : 0 < den) (hs : (n / den).log2 - 52 = s) (y : Binary64) :
    ((n : Int) - (den * (roundHalfEven n (den * 2 ^ s) * 2 ^ s) : Nat)).natAbs ≤
      ((n : Int) - (den * y.steps : Nat)).natAbs ∧
    (((n : Int) - (den * (roundHalfEven n (den * 2 ^ s) * 2 ^ s) : Nat)).natAbs =
        ((n : Int) - (den * y.steps : Nat)).natAbs →
      roundHalfEven n (den * 2 ^ s) * 2 ^ s = y.steps ∨
        roundHalfEven n (den * 2 ^ s) % 2 = 0) := by
  have hstep : 0 < den * 2 ^ s := Nat.mul_pos hden (Nat.two_pow_pos s)
  rw [Nat.mul_left_comm den]
  rcases Nat.lt_or_ge y.shift s with hlt | hge
  · -- such a number lies below all those with the shift `s`, and the fraction does not
    have hn := ((log2_sub_eq_iff hden).1 hs).2.resolve_left (by omega)
    have hy : den * y.steps < 2 ^ 52 * (den * 2 ^ s) := calc
      den * (y.significand * 2 ^ y.shift) < den * (2 ^ 53 * 2 ^ y.shift) :=
        Nat.mul_lt_mul_of_pos_left
          (Nat.mul_lt_mul_of_pos_right y.significand_lt (Nat.two_pow_pos _)) hden
      _ = 2 ^ 52 * (den * 2 ^ (y.shift + 1)) := by rw [Nat.pow_succ]; ring
      _ ≤ 2 ^ 52 * (den * 2 ^ s) :=
        Nat.mul_le_mul_left _ (Nat.mul_le_mul_left _ (Nat.pow_le_pow_right (by decide) hlt))
    have hnear := roundHalfEven_nearest hstep n (2 ^ 52)
    omega
  · have hy : y.steps = y.significand * 2 ^ (y.shift - s) * 2 ^ s := by
      rw [steps, Nat.mul_assoc, ← Nat.pow_add, Nat.sub_add_cancel hge]
    rw [hy, Nat.mul_left_comm den]
    refine ⟨roundHalfEven_nearest hstep n _, fun heq => ?_⟩
    exact (roundHalfEven_even hstep heq).imp_left fun hk => by rw [hk]

end

/-- The sign and the magnitude of a rounded fraction. -/
theorem ofRatio_parts (negative : Bool) {num den s : Nat}
    (hs : (num * 2 ^ 1074 / den).log2 - 52 = s) :
    (ofRatio negative num den).negative = negative ∧
      (ofRatio negative num den).magnitude =
        min (s * hiddenBit + roundHalfEven (num * 2 ^ 1074) (den * 2 ^ s)) infinityBits := by
  have hlt (m : Nat) : min m infinityBits < signBit :=
    Nat.lt_of_le_of_lt (Nat.min_le_right ..) (by decide)
  simp only [ofRatio, twoPow_eq, hs]
  exact ⟨negative_ofMagnitude negative (hlt _), magnitude_ofMagnitude negative (hlt _)⟩

/-! ## Fractions -/

/-- The absolute value of a number. That of an infinity is `2^1024`, as its bits have it. -/
def absValue (x : Binary64) : ℚ := x.steps / (2 ^ 1074 : Nat)

/-- The number nearest to `v` in absolute value. Of two equally near numbers it is the one with the
even significand. -/
structure NearestAbs (v : ℚ) (x : Binary64) : Prop where
  isNaN : x.isNaN = false
  nearest (y : Binary64) : y.isNaN = false → |v - x.absValue| ≤ |v - y.absValue|
  even (y : Binary64) : y.isNaN = false → |v - x.absValue| = |v - y.absValue| →
    x.absValue = y.absValue ∨ x.significand % 2 = 0

/-- Magnitudes are ordered as the absolute values they stand for. -/
theorem steps_lt_steps {x y : Binary64} (H : x.magnitude < y.magnitude) : x.steps < y.steps := by
  have hx := x.significand_lt
  have hy := y.significand_lt
  rw [x.magnitude_eq, y.magnitude_eq, hiddenBit_eq] at H
  rcases Nat.lt_trichotomy x.shift y.shift with hlt | heq | hgt
  · have hnormal := le_significand (Nat.zero_lt_of_lt hlt)
    calc x.significand * 2 ^ x.shift < 2 ^ 53 * 2 ^ x.shift :=
          Nat.mul_lt_mul_of_pos_right hx (Nat.two_pow_pos _)
      _ = 2 ^ 52 * 2 ^ (x.shift + 1) := by rw [Nat.pow_succ]; ring
      _ ≤ y.significand * 2 ^ y.shift :=
        Nat.mul_le_mul hnormal (Nat.pow_le_pow_right (by decide) hlt)
  · rw [heq] at H
    rw [steps, steps, heq]
    exact Nat.mul_lt_mul_of_pos_right (by omega) (Nat.two_pow_pos _)
  · have hnormal := le_significand (Nat.zero_lt_of_lt hgt)
    omega

theorem steps_le_steps {x y : Binary64} (H : x.magnitude ≤ y.magnitude) : x.steps ≤ y.steps := by
  rcases Nat.lt_or_eq_of_le H with hlt | heq
  · exact Nat.le_of_lt (steps_lt_steps hlt)
  · simp only [steps, significand, shift, heq, Nat.le_refl]

theorem absValue_lt_absValue {x y : Binary64} (H : x.magnitude < y.magnitude) :
    x.absValue < y.absValue :=
  div_lt_div_of_pos_right (Nat.cast_lt.2 (steps_lt_steps H))
    (Nat.cast_pos.2 (pow_pos Nat.two_pos 1074))

/-- Magnitudes next to each other have significands of different parity. -/
theorem significand_mod_two (x : Binary64) : x.significand % 2 = x.magnitude % 2 := by
  rw [x.magnitude_eq, hiddenBit_eq]
  omega

/-- Two numbers on different sides of `v` and equally near to it have no number between them. -/
theorem NearestAbs.not_lt {v : ℚ} {x y : Binary64} (hx : NearestAbs v x) (hy : NearestAbs v y) :
    ¬x.magnitude < y.magnitude := by
  intro hlt
  have hvalue := absValue_lt_absValue hlt
  have heq := le_antisymm (hx.nearest y hy.isNaN) (hy.nearest x hx.isNaN)
  have hxeven := (hx.even y hy.isNaN heq).resolve_left hvalue.ne
  have hyeven := (hy.even x hx.isNaN heq.symm).resolve_left hvalue.ne'
  rw [significand_mod_two] at hxeven hyeven
  -- both magnitudes are even, and the odd one between them is nearer
  have hmax : y.magnitude ≤ infinityBits := by simpa [Binary64.isNaN] using hy.isNaN
  have hmag : (ofMagnitude false (x.magnitude + 1)).magnitude = x.magnitude + 1 :=
    magnitude_ofMagnitude false (Nat.lt_of_le_of_lt (Nat.le_trans hlt hmax) (by decide))
  generalize ofMagnitude false (x.magnitude + 1) = z at hmag
  have hnear := hx.nearest z (by simp only [Binary64.isNaN, decide_eq_false_iff_not]; omega)
  have hxz : x.absValue < z.absValue := absValue_lt_absValue (by omega)
  have hzy : z.absValue < y.absValue := absValue_lt_absValue (by omega)
  rcases abs_cases (v - x.absValue) with h | h <;> rcases abs_cases (v - y.absValue) with h' | h' <;>
    rcases abs_cases (v - z.absValue) with h'' | h'' <;> linarith

/-- There is one nearest number, up to the sign. -/
theorem NearestAbs.magnitude_eq {v : ℚ} {x y : Binary64} (hx : NearestAbs v x)
    (hy : NearestAbs v y) : x.magnitude = y.magnitude :=
  Nat.le_antisymm (Nat.not_lt.1 (hy.not_lt hx)) (Nat.not_lt.1 (hx.not_lt hy))

/-- No number is nearer to a fraction than the one it is rounded to, and if another one is as near
then it is rounded to an even significand. All is counted in steps. -/
theorem ofRatio_steps {x y : Binary64} {negative : Bool} {num den : Nat} (hden : 0 < den)
    (hx : ofRatio negative num den = x) (hy : y.isNaN = false) :
    ((num * 2 ^ 1074 : Nat) - (den * x.steps : Nat) : Int).natAbs ≤
      ((num * 2 ^ 1074 : Nat) - (den * y.steps : Nat) : Int).natAbs ∧
    (((num * 2 ^ 1074 : Nat) - (den * x.steps : Nat) : Int).natAbs =
      ((num * 2 ^ 1074 : Nat) - (den * y.steps : Nat) : Int).natAbs →
      x.steps = y.steps ∨ x.significand % 2 = 0) := by
  generalize hs : (num * 2 ^ 1074 / den).log2 - 52 = s
  have hmag := (ofRatio_parts negative hs).2
  rw [hx] at hmag
  obtain ⟨hr, hnormal⟩ := roundHalfEven_log2 hden hs
  rcases Nat.lt_or_ge infinityBits
    (s * hiddenBit + roundHalfEven (num * 2 ^ 1074) (den * 2 ^ s)) with hgt | hle
  · -- infinity is the largest number, and not larger than the fraction
    rw [Nat.min_eq_right (Nat.le_of_lt hgt)] at hmag
    obtain ⟨top, hparts⟩ : ∃ top, infinityBits = top * hiddenBit + 2 ^ 52 := ⟨2046, rfl⟩
    have hshift : top ≤ s := by
      rw [hparts, hiddenBit_eq] at hgt
      omega
    obtain ⟨hsteps, heven⟩ :=
      steps_of_magnitude (hmag.trans hparts) (by decide) (.inr (Nat.le_refl _))
    have hlarge : den * x.steps ≤ num * 2 ^ 1074 := by
      have hne : s ≠ 0 := by
        rintro rfl
        unfold infinityBits hiddenBit at hgt
        omega
      rw [hsteps, Nat.mul_left_comm]
      exact Nat.le_trans (Nat.mul_le_mul_left _ (Nat.mul_le_mul_left den
        (Nat.pow_le_pow_right Nat.two_pos hshift)))
        (((log2_sub_eq_iff hden).1 hs).2.resolve_left hne)
    have hsmall : den * y.steps ≤ den * x.steps := by
      refine Nat.mul_le_mul_left den (steps_le_steps ?_)
      rw [hmag]
      simpa [Binary64.isNaN] using hy
    generalize num * 2 ^ 1074 = n, den * x.steps = a, den * y.steps = b at *
    exact ⟨by omega, fun _ => .inr (heven (by decide))⟩
  · rw [Nat.min_eq_left hle] at hmag
    obtain ⟨hsteps, heven⟩ := steps_of_magnitude hmag hr hnormal
    obtain ⟨hnear, htie⟩ := nearest_steps hden hs y
    rw [hsteps]
    exact ⟨hnear, fun heq => (htie heq).imp_right heven⟩

section
variable {den scale : Nat} (hden : 0 < den) (hscale : 0 < scale) (a b c : Nat)
include hden hscale

theorem abs_div_sub_div : |(a / den : ℚ) - b / scale| =
    ((a * scale : Nat) - (den * b : Nat) : Int).natAbs / (den * scale : Nat) := by
  have hden : (0 : ℚ) < den := Nat.cast_pos.2 hden
  have hscale : (0 : ℚ) < scale := Nat.cast_pos.2 hscale
  rw [div_sub_div _ _ hden.ne' hscale.ne', abs_div, abs_of_pos (mul_pos hden hscale),
    Nat.cast_natAbs]
  push_cast
  rfl

theorem abs_div_sub_div_le_iff : |(a / den : ℚ) - b / scale| ≤ |(a / den : ℚ) - c / scale| ↔
    ((a * scale : Nat) - (den * b : Nat) : Int).natAbs ≤
      ((a * scale : Nat) - (den * c : Nat) : Int).natAbs := by
  rw [abs_div_sub_div hden hscale, abs_div_sub_div hden hscale, div_le_div_iff_of_pos_right
    (Nat.cast_pos.2 (Nat.mul_pos hden hscale)), Nat.cast_le]

end

/-- A fraction is rounded to the number nearest to it. -/
theorem nearestAbs_ofRatio (negative : Bool) {den : Nat} (hden : 0 < den) (num : Nat) :
    NearestAbs (num / den) (ofRatio negative num den) := by
  have hiff := abs_div_sub_div_le_iff hden (pow_pos Nat.two_pos 1074) num
  refine ⟨isNaN_ofRatio negative num den, fun y hy => ?_, fun y hy heq => ?_⟩
  · exact (hiff _ y.steps).2 (ofRatio_steps hden rfl hy).1
  · have hle := (hiff _ y.steps).1 heq.le
    have hge := (hiff y.steps _).1 heq.ge
    refine ((ofRatio_steps hden rfl hy).2 (Nat.le_antisymm hle hge)).imp_left fun h => ?_
    rw [absValue, absValue, h]

/-! ## Integers -/

theorem mul_natCast_eq (n : Int) (c : Nat) :
    n * c = if n < 0 then -((n.natAbs * c : Nat) : Int) else (n.natAbs * c : Nat) := by
  split
  · rw [Nat.cast_mul, Int.ofNat_natAbs_of_nonpos (by omega), Int.neg_mul, Int.neg_neg]
  · rw [Nat.cast_mul, Int.natAbs_of_nonneg (by omega)]

/-- The distance of a number with the sign of the integer, and with the other sign. -/
theorem distance_eq (n : Int) (x : Binary64) : distance n x =
    if x.negative = decide (n < 0) then ((n.natAbs * 2 ^ 1074 : Nat) - (x.steps : Int)).natAbs
    else n.natAbs * 2 ^ 1074 + x.steps := by
  unfold distance value
  rw [mul_natCast_eq]
  generalize n.natAbs * 2 ^ 1074 = a
  by_cases hneg : n < 0 <;> cases x.negative <;> simp [hneg] <;> omega

theorem log2_mul_two_pow_lt {n a b : Nat} (ha : 0 < a) (hn : n < 2 ^ a) :
    (n * 2 ^ b).log2 < a + b := by
  have hpow := Nat.two_pow_pos b
  rcases Nat.eq_zero_or_pos n with rfl | hpos
  · rw [Nat.zero_mul, Nat.log2_zero]
    exact Nat.add_pos_left ha b
  · rw [Nat.log2_lt (Nat.ne_of_gt (Nat.mul_pos hpos hpow)), Nat.pow_add]
    exact Nat.mul_lt_mul_of_pos_right hn hpow

/-- An integer of 64 bits is not rounded to infinity. -/
theorem isFinite_ofRatio (negative : Bool) {n : Nat} (hn : n < 2 ^ 64) :
    (ofRatio negative n 1).isFinite := by
  generalize hs : (n * 2 ^ 1074 / 1).log2 - 52 = s
  obtain ⟨-, hmag⟩ := ofRatio_parts negative hs
  obtain ⟨hr, -⟩ := roundHalfEven_log2 (by decide) hs
  have hlog : (n * 2 ^ 1074).log2 < 64 + 1074 := log2_mul_two_pow_lt (by decide) hn
  rw [Nat.div_one] at hs
  rw [isFinite, hmag]
  refine decide_eq_true (Nat.lt_of_le_of_lt (Nat.min_le_left ..) ?_)
  unfold hiddenBit infinityBits
  omega

/-- An integer of 64 bits becomes the number nearest to it. -/
theorem nearest_ofRatio {n : Int} (hn : n.natAbs < 2 ^ 64) :
    Nearest n (ofRatio (n < 0) n.natAbs 1) := by
  have hfinite := isFinite_ofRatio (n < 0) hn
  have hsign := (@ofRatio_parts (n < 0) n.natAbs 1 _ rfl).1
  generalize hvalue : ofRatio (n < 0) n.natAbs 1 = x at *
  have hsteps {y : Binary64} := @ofRatio_steps x y (n < 0) n.natAbs 1 (by decide) hvalue
  simp only [Nat.one_mul] at hsteps
  have hx := distance_eq n x
  rw [if_pos hsign] at hx
  have hzero := (@hsteps ⟨0⟩ rfl).1
  have hnone : (⟨0⟩ : Binary64).steps = 0 := rfl
  rw [hnone] at hzero
  refine ⟨hfinite, hsign, fun y hy => ?_, fun y hy hxy => ?_⟩
  · have hdist := distance_eq n y
    have hnear := (hsteps (isNaN_of_isFinite hy)).1
    split at hdist <;> omega
  · have hdist := distance_eq n y
    have htie := (hsteps (isNaN_of_isFinite hy)).2
    split at hdist
    · next hsign' =>
      refine (htie (by omega)).imp_left fun heq => ?_
      rw [value, value, heq, hsign, hsign']
    · -- a number with the other sign is as near only if it is zero
      have hysteps : y.steps = 0 := by omega
      refine (htie (by omega)).imp_left fun heq => ?_
      rw [value, value, heq, hysteps]
      simp

end Binary64
end ListPress
