import Mathlib.Algebra.Order.Field.Power
import ListPress.Proofs.NearestNumber
import ListPress.Proofs.NumberText

/-! # Numerals denote the nearest number

Reading a numeral cuts corners three times: the exponent of a decimal is clamped (`ofDecimal`), only
the first digits of a long numeral are kept, with a mark for the others (`Literal.rounded`), and an
exponent stops growing (`Literal.exponentValue`). None of them shows in the result. A numeral denotes
the number nearest to the decimal it writes down (`Grammar.numeral_iff_nearest`), unless it has tens
of thousands of characters. -/

namespace ListPress

/-! ## Fractions that are rounded alike -/

/-- What a fraction is rounded to depends on how it compares with the halves, and not on more. -/
theorem roundHalfEven_congr {num num' step step' : Nat} (hstep : 0 < step) (hstep' : 0 < step')
    (H : ∀ k ≤ 2 * roundHalfEven num step + 1,
      compare (k * step) (2 * num) = compare (k * step') (2 * num')) :
    roundHalfEven num' step' = roundHalfEven num step := by
  obtain ⟨hlo, hhi, heven⟩ := roundHalfEven_within hstep num
  generalize roundHalfEven num step = r at *
  have hupper := H (2 * r + 1) (Nat.le_refl _)
  have hle : 2 * num' ≤ (2 * r + 1) * step' := by
    rw [← Nat.isGE_compare, ← hupper, Nat.isGE_compare, Nat.add_one_mul (2 * r), Nat.mul_assoc]
    exact hhi
  have hlt (hodd : r % 2 = 1) : 2 * num' < (2 * r + 1) * step' := by
    rw [← Nat.compare_eq_gt, ← hupper, Nat.compare_eq_gt, Nat.add_one_mul (2 * r),
      Nat.mul_assoc]
    omega
  rcases Nat.eq_zero_or_pos r with rfl | hpos
  · refine roundHalfEven_eq (a := 0) hstep' (by omega) (by omega) ?_ nofun
    omega
  · obtain ⟨j, rfl⟩ := Nat.exists_eq_add_one_of_ne_zero (Nat.ne_of_gt hpos)
    have hlower := H (2 * j + 1) (by omega)
    have hge : (2 * j + 1) * step' ≤ 2 * num' := by
      rw [← Nat.isLE_compare, ← hlower, Nat.isLE_compare]
      simp only [Nat.add_mul, Nat.mul_add, Nat.mul_assoc] at hlo ⊢
      omega
    have hgt (hodd : (j + 1) % 2 = 1) : (2 * j + 1) * step' < 2 * num' := by
      rw [← Nat.compare_eq_lt, ← hlower, Nat.compare_eq_lt]
      simp only [Nat.add_mul, Nat.mul_add, Nat.mul_assoc] at hlo heven ⊢
      omega
    have htop : (4 * (j + 1) + 2) * step' = 2 * ((2 * (j + 1) + 1) * step') := by ring
    refine roundHalfEven_eq (a := 2 * (2 * j + 1)) hstep' (by omega) ?_ ?_ fun hodd => ?_
    · rw [Nat.mul_assoc]
      omega
    · omega
    · have hlt := hlt hodd
      have hgt := hgt hodd
      rw [Nat.mul_assoc]
      omega

theorem compare_mul_right {a b c : Nat} (hc : 0 < c) : compare (a * c) (b * c) = compare a b := by
  simp only [Nat.compare_eq_ite_lt, Nat.mul_lt_mul_right hc]

namespace Binary64

section
variable (negative : Bool) {num den num' den' : Nat}

/-- Fractions on the same side of every number half way between two neighbours are rounded alike. -/
theorem ofRatio_congr (hden : 0 < den) (hden' : 0 < den') (H : ∀ s k, k < 2 ^ 55 →
    compare (k * (den * 2 ^ s)) (num * 2 ^ (1074 + 1)) =
      compare (k * (den' * 2 ^ s)) (num' * 2 ^ (1074 + 1))) :
    ofRatio negative num den = ofRatio negative num' den' := by
  have hdouble (n e : Nat) : n * 2 ^ (e + 1) = 2 * (n * 2 ^ e) := by ring
  have H (s k : Nat) (hk : k < 2 ^ 55) : compare (k * (den * 2 ^ s)) (2 * (num * 2 ^ 1074)) =
      compare (k * (den' * 2 ^ s)) (2 * (num' * 2 ^ 1074)) := by
    rw [← hdouble, ← hdouble]
    exact H s k hk
  simp only [ofRatio, twoPow_eq]
  generalize num * 2 ^ 1074 = n, num' * 2 ^ 1074 = n' at *
  generalize hs : (n / den).log2 - 52 = s
  have H := H s
  obtain ⟨hr, -⟩ := roundHalfEven_log2 hden hs
  have hs' : (n' / den').log2 - 52 = s := by
    obtain ⟨hlt, hle⟩ := (log2_sub_eq_iff hden).1 hs
    refine (log2_sub_eq_iff hden').2 ⟨?_, hle.imp_right fun hle => ?_⟩
    · have h : 2 * n' < 2 ^ 54 * (den' * 2 ^ s) := by
        rw [← Nat.compare_eq_gt, ← H (2 ^ 54) (by decide), Nat.compare_eq_gt]
        omega
      omega
    · have h : 2 ^ 53 * (den' * 2 ^ s) ≤ 2 * n' := by
        rw [← Nat.isLE_compare, ← H (2 ^ 53) (by decide), Nat.isLE_compare]
        omega
      omega
  rw [hs', roundHalfEven_congr (Nat.mul_pos hden (Nat.two_pow_pos s))
    (Nat.mul_pos hden' (Nat.two_pow_pos s)) fun k hk => H k (by omega)]

theorem ofRatio_of_mul_eq (hden : 0 < den) (hden' : 0 < den') (h : num * den' = num' * den) :
    ofRatio negative num den = ofRatio negative num' den' := by
  refine ofRatio_congr negative hden hden' fun s k _ => ?_
  generalize 2 ^ (1074 + 1) = scale
  rw [← compare_mul_right hden', ← @compare_mul_right (k * (den' * 2 ^ s)) _ _ hden,
    Nat.mul_right_comm num, h, Nat.mul_right_comm num']
  congr 1
  ring

/-- Less than half of the least positive number is rounded to zero. -/
theorem ofRatio_of_lt (H : 2 * (num * 2 ^ 1074) < den) :
    ofRatio negative num den = ofMagnitude negative 0 := by
  simp only [ofRatio, twoPow_eq]
  generalize num * 2 ^ 1074 = n at *
  have hlt : n < den := by omega
  have hround : roundHalfEven n den = 0 := by
    rw [roundHalfEven, Nat.div_eq_of_lt hlt, Nat.mod_eq_of_lt hlt, if_pos H]
  simp [Nat.div_eq_of_lt hlt, hround]

/-- From `2^1024` on all is rounded to infinity. -/
theorem ofRatio_of_le (hden : 0 < den) (H : den * 2 ^ 1024 ≤ num) :
    ofRatio negative num den = ofMagnitude negative infinityBits := by
  simp only [ofRatio, twoPow_eq]
  generalize hs : (num * 2 ^ 1074 / den).log2 - 52 = s
  obtain ⟨-, hnormal⟩ := roundHalfEven_log2 hden hs
  have hpow (a b : Nat) : 2 ^ (a + b) * den = den * 2 ^ a * 2 ^ b := by ring
  have hlt : 2 ^ (1024 + 1074) * den < 2 ^ (53 + s) * den := calc
    2 ^ (1024 + 1074) * den = den * 2 ^ 1024 * 2 ^ 1074 := hpow ..
    _ ≤ num * 2 ^ 1074 := Nat.mul_le_mul_right _ H
    _ < 2 ^ 53 * (den * 2 ^ s) := ((log2_sub_eq_iff hden).1 hs).1
    _ = 2 ^ (53 + s) * den := by rw [hpow]; ring
  have hshift := (Nat.pow_lt_pow_iff_right (by decide)).1 (Nat.lt_of_mul_lt_mul_right hlt)
  rw [Nat.min_eq_right]
  unfold infinityBits hiddenBit
  omega

end

/-! ## Decimals -/

/-- The decimal `digits * 10^exponent` rounded, whatever the exponent is. -/
def roundedDecimal (negative : Bool) (digits : Nat) (exponent : Int) : Binary64 :=
  ofRatio negative (digits * 10 ^ exponent.toNat) (10 ^ (-exponent).toNat)

theorem ten_pow_pos (n : Nat) : 0 < 10 ^ n := Nat.pow_pos (by decide)

section
variable (negative : Bool) {digits k : Nat} {exponent : Int}

theorem roundedDecimal_zero (exponent : Int) :
    roundedDecimal negative 0 exponent = ofMagnitude negative 0 := by
  refine ofRatio_of_lt negative ?_
  rw [Nat.zero_mul, Nat.zero_mul]
  exact ten_pow_pos _

/-- Zeros at the end of the digits do not count. -/
theorem roundedDecimal_mul_pow (digits zeros : Nat) (exponent : Int) :
    roundedDecimal negative (digits * 10 ^ zeros) exponent =
      roundedDecimal negative digits (exponent + zeros) := by
  refine ofRatio_of_mul_eq negative (ten_pow_pos _) (ten_pow_pos _) ?_
  simp only [Nat.mul_assoc, ← Nat.pow_add]
  congr 2
  omega

theorem roundedDecimal_of_le (hd : 10 ^ k ≤ digits) (he : 400 ≤ exponent + k) :
    roundedDecimal negative digits exponent = ofMagnitude negative infinityBits := by
  have hbound : 2 ^ 1024 ≤ 10 ^ 400 := by decide +kernel
  refine ofRatio_of_le negative (ten_pow_pos _) ?_
  calc 10 ^ (-exponent).toNat * 2 ^ 1024 ≤ 10 ^ (-exponent).toNat * 10 ^ 400 :=
        Nat.mul_le_mul_left _ hbound
    _ = 10 ^ ((-exponent).toNat + 400) := (pow_add ..).symm
    _ ≤ 10 ^ (k + exponent.toNat) := Nat.pow_le_pow_right (by decide) (by omega)
    _ = 10 ^ k * 10 ^ exponent.toNat := pow_add ..
    _ ≤ digits * 10 ^ exponent.toNat := Nat.mul_le_mul_right _ hd

theorem roundedDecimal_of_lt (hd : digits < 10 ^ k) (he : exponent + k ≤ -400) :
    roundedDecimal negative digits exponent = ofMagnitude negative 0 := by
  have hbound : 2 * 2 ^ 1074 ≤ 10 ^ 400 := by decide +kernel
  have hzero : exponent.toNat = 0 := by omega
  refine ofRatio_of_lt negative ?_
  calc 2 * (digits * 10 ^ exponent.toNat * 2 ^ 1074) = digits * (2 * 2 ^ 1074) := by
        rw [hzero, Nat.pow_zero, Nat.mul_one, Nat.mul_left_comm]
    _ < 10 ^ k * (2 * 2 ^ 1074) := Nat.mul_lt_mul_of_pos_right hd (by positivity)
    _ ≤ 10 ^ k * 10 ^ 400 := Nat.mul_le_mul_left _ hbound
    _ = 10 ^ (k + 400) := (pow_add ..).symm
    _ ≤ 10 ^ (-exponent).toNat := Nat.pow_le_pow_right (by decide) (by omega)

/-- Clamping the exponent changes nothing. -/
theorem ofDecimal_eq_roundedDecimal (digits : Nat) (exponent : Int) :
    ofDecimal negative digits exponent = roundedDecimal negative digits exponent := by
  change roundedDecimal negative digits (max (min exponent 400) (-(401 + digits.log2 : Nat))) = _
  rcases Nat.eq_zero_or_pos digits with rfl | hpos
  · rw [roundedDecimal_zero, roundedDecimal_zero]
  have hlt : digits < 10 ^ (digits.log2 + 1) :=
    Nat.lt_of_lt_of_le Nat.lt_log2_self (Nat.pow_le_pow_left (by decide) _)
  rcases Int.lt_or_le 400 exponent with hlarge | hle
  · rw [roundedDecimal_of_le negative (k := 0) hpos (by omega),
      roundedDecimal_of_le negative (k := 0) hpos (by omega)]
  rcases Int.lt_or_le exponent (-(401 + digits.log2 : Nat)) with hsmall | hge
  · rw [roundedDecimal_of_lt negative hlt (by omega), roundedDecimal_of_lt negative hlt (by omega)]
  · congr
    omega

end

/-! ## The kept digits -/

/-- No number half way between two neighbours lies between two decimals of 800 digits that are next
to each other. -/
theorem half_not_between {digits k e s p : Nat} (hdigits : 2 ^ 55 * 5 ^ e ≤ digits)
    (hk : k < 2 ^ 55) : k * (10 ^ p * 2 ^ s) ≤ digits * 2 ^ e ∨
      (digits + 1) * 2 ^ e ≤ k * (10 ^ p * 2 ^ s) := by
  have hpow : 10 ^ p * 2 ^ s = 5 ^ p * 2 ^ (p + s) := by
    rw [pow_add, ← Nat.mul_assoc, ← Nat.mul_pow]
  rw [hpow]
  rcases Nat.le_total e (p + s) with hle | hle
  · -- it is a multiple of the last digit
    obtain ⟨j, hj⟩ : 2 ^ e ∣ k * (5 ^ p * 2 ^ (p + s)) :=
      ((pow_dvd_pow 2 hle).mul_left _).mul_left _
    rw [hj, Nat.mul_comm (2 ^ e)]
    exact (Nat.lt_or_ge digits j).symm.imp (Nat.mul_le_mul_right _) (Nat.mul_le_mul_right _)
  · -- it has fewer digits
    left
    calc k * (5 ^ p * 2 ^ (p + s)) ≤ 2 ^ 55 * (5 ^ e * 2 ^ e) := by gcongr <;> omega
      _ = 2 ^ 55 * 5 ^ e * 2 ^ e := (Nat.mul_assoc ..).symm
      _ ≤ digits * 2 ^ e := Nat.mul_le_mul_right _ hdigits

section
variable {digits tail m : Nat} (hpos : 0 < tail) (hlt : tail < 10 ^ m)
include hpos hlt

/-- Which side of such a number a longer decimal is on can be told from the first digits. -/
theorem compare_tail {k e s p : Nat} (hdigits : 2 ^ 55 * 5 ^ e ≤ digits) (hk : k < 2 ^ 55) :
    compare (k * (10 ^ (p + m) * 2 ^ s)) ((digits * 10 ^ m + tail) * 2 ^ e) =
      if k * (10 ^ p * 2 ^ s) ≤ digits * 2 ^ e then .lt else .gt := by
  have hhalf : k * (10 ^ (p + m) * 2 ^ s) = k * (10 ^ p * 2 ^ s) * 10 ^ m := by rw [pow_add]; ring
  have hpos := Nat.mul_pos hpos (Nat.two_pow_pos e)
  have hlt := Nat.mul_lt_mul_of_pos_right hlt (Nat.two_pow_pos e)
  rw [hhalf, Nat.add_mul, Nat.mul_right_comm digits]
  split
  · next hle =>
    have := Nat.mul_le_mul_right (10 ^ m) hle
    rw [Nat.compare_eq_lt]
    omega
  · next hle =>
    have := Nat.mul_le_mul_right (10 ^ m) ((half_not_between hdigits hk).resolve_left hle)
    rw [Nat.add_one_mul, Nat.add_mul, Nat.mul_comm (2 ^ e)] at this
    rw [Nat.compare_eq_gt]
    omega

/-- Behind so many digits it only counts whether there are others. -/
theorem roundedDecimal_tail (negative : Bool) {tail' : Nat} (hdigits : 10 ^ 799 ≤ digits)
    (hpos' : 0 < tail') (hlt' : tail' < 10 ^ m) (exponent : Int) :
    roundedDecimal negative (digits * 10 ^ m + tail) exponent =
      roundedDecimal negative (digits * 10 ^ m + tail') exponent := by
  rcases Int.lt_or_le (-400) (exponent + m) with hlarge | hle
  · have hd (tail : Nat) : 10 ^ (799 + m) ≤ digits * 10 ^ m + tail := by
      rw [pow_add]
      exact Nat.le_add_right_of_le (Nat.mul_le_mul_right _ hdigits)
    rw [roundedDecimal_of_le negative (hd tail) (by omega),
      roundedDecimal_of_le negative (hd tail') (by omega)]
  · obtain ⟨p, hp⟩ := Int.eq_ofNat_of_zero_le (a := -(exponent + m)) (by omega)
    obtain rfl : exponent = -(p + m : Nat) := by omega
    have hbound : 2 ^ 55 * 5 ^ (1074 + 1) ≤ 10 ^ 799 := by decide +kernel
    have hdigits := Nat.le_trans hbound hdigits
    refine ofRatio_congr negative (ten_pow_pos _) (ten_pow_pos _) fun s k hk => ?_
    simp only [Int.neg_neg, Int.toNat_natCast, Int.toNat_neg_natCast, Nat.pow_zero, Nat.mul_one]
    rw [compare_tail hpos hlt hdigits hk, compare_tail hpos' hlt' hdigits hk]

end

/-- The value of a decimal as a fraction. -/
theorem ratio_eq (digits : Nat) (exponent : Int) :
    ((digits * 10 ^ exponent.toNat : Nat) / (10 ^ (-exponent).toNat : Nat) : ℚ) =
      digits * 10 ^ exponent := by
  obtain ⟨n, rfl | rfl⟩ := exponent.eq_nat_or_neg
  · simp
  · simp [div_eq_mul_inv]

theorem nearestAbs_roundedDecimal (negative : Bool) (digits : Nat) (exponent : Int) :
    NearestAbs (digits * 10 ^ exponent) (roundedDecimal negative digits exponent) := by
  rw [← ratio_eq]
  exact nearestAbs_ofRatio negative (ten_pow_pos _) _

theorem negative_roundedDecimal (negative : Bool) (digits : Nat) (exponent : Int) :
    (roundedDecimal negative digits exponent).negative = negative :=
  (ofRatio_parts negative rfl).1

theorem NearestAbs.eq_roundedDecimal {x : Binary64} {digits : Nat} {exponent : Int}
    (H : NearestAbs (digits * 10 ^ exponent) x) :
    roundedDecimal x.negative digits exponent = x := by
  have hmagnitude := H.magnitude_eq (nearestAbs_roundedDecimal x.negative digits exponent)
  rw [← ofMagnitude_magnitude (roundedDecimal ..), negative_roundedDecimal, ← hmagnitude,
    ofMagnitude_magnitude]

end Binary64

/-! ## The value of digits -/

namespace Literal
open Binary64

section
variable {c : Char} {digits : List Char}

theorem digitsValue_cons (c : Char) (digits : List Char) :
    digitsValue (c :: digits) = digitValue c * 10 ^ digits.length + digitsValue digits := by
  rw [digitsValue, List.foldl_cons, foldl_digits, Nat.mul_zero, Nat.zero_add]

theorem digitValue_le (hc : isDigit c) : digitValue c ≤ 9 := by
  simp only [isDigit, Bool.and_eq_true, decide_eq_true_eq] at hc
  exact Nat.sub_le_of_le_add hc.2

theorem digitValue_pos (hc : isDigit c) (hne : c ≠ '0') : 0 < digitValue c := by
  simp only [isDigit, Bool.and_eq_true, decide_eq_true_eq] at hc
  exact Nat.sub_pos_of_lt (Nat.lt_of_le_of_ne hc.1 fun h => hne (Char.toNat_inj.1 h.symm))

theorem digitsValue_lt (H : ∀ c ∈ digits, isDigit c) : digitsValue digits < 10 ^ digits.length := by
  induction digits with
  | nil => exact Nat.one_pos
  | cons c digits ih =>
    obtain ⟨hc, hdigits⟩ := List.forall_mem_cons.1 H
    have hle := Nat.mul_le_mul_right (10 ^ digits.length) (digitValue_le hc)
    have hlt := ih hdigits
    rw [digitsValue_cons, List.length_cons, Nat.pow_succ]
    omega

/-- Without leading zeros the number of digits bounds the value from below. -/
theorem le_digitsValue (hc : isDigit c) (hne : c ≠ '0') (digits : List Char) :
    10 ^ digits.length ≤ digitsValue (c :: digits) := by
  rw [digitsValue_cons]
  exact Nat.le_add_right_of_le (Nat.le_mul_of_pos_left _ (digitValue_pos hc hne))

theorem eq_replicate_of_all (H : digits.all (· == '0')) :
    digits = List.replicate digits.length '0' :=
  List.eq_replicate_iff.2 ⟨rfl, by simpa using H⟩

theorem digitsValue_eq_zero_iff (H : ∀ c ∈ digits, isDigit c) :
    digitsValue digits = 0 ↔ digits.all (· == '0') := by
  constructor
  · intro hzero
    induction digits with
    | nil => rfl
    | cons c digits ih =>
      obtain ⟨hc, hdigits⟩ := List.forall_mem_cons.1 H
      rw [digitsValue_cons, Nat.add_eq_zero_iff, Nat.mul_eq_zero] at hzero
      have hvalue := hzero.1.resolve_right (Nat.ne_of_gt (ten_pow_pos _))
      have heq : c = '0' := by
        by_contra hne
        exact Nat.ne_of_gt (digitValue_pos hc hne) hvalue
      simpa [heq] using ih hdigits hzero.2
  · intro hall
    rw [eq_replicate_of_all hall, digitsValue_replicate]

theorem digitsValue_dropWhile (digits : List Char) :
    digitsValue (digits.dropWhile (· == '0')) = digitsValue digits := by
  have hzeros := eq_replicate_of_all (List.all_takeWhile (p := (· == '0')) (l := digits))
  conv => rhs; rw [← List.takeWhile_append_dropWhile (p := (· == '0')) (l := digits), hzeros]
  rw [digitsValue_zeros_append]

end

/-- The digits that are kept, with a mark for the others, are rounded as all of them. -/
theorem roundedDecimal_mark (negative : Bool) {kept others : List Char}
    (hkept : others ≠ [] → 10 ^ 799 ≤ digitsValue kept) (H : ∀ c ∈ others, isDigit c)
    (exponent : Int) :
    roundedDecimal negative (10 * digitsValue kept + if others.all (· == '0') then 0 else 1)
        (exponent + others.length - 1) =
      roundedDecimal negative (digitsValue (kept ++ others)) exponent := by
  rw [digitsValue_append]
  split
  · next hall =>
    have hten := roundedDecimal_mul_pow negative (digitsValue kept) 1
      (exponent + others.length - 1)
    rw [Nat.pow_one, Nat.cast_one, Int.sub_add_cancel] at hten
    rw [(digitsValue_eq_zero_iff H).2 hall, Nat.add_zero, Nat.add_zero, Nat.mul_comm, hten,
      roundedDecimal_mul_pow]
  · next hall =>
    have hpos := Nat.pos_of_ne_zero (mt (digitsValue_eq_zero_iff H).1 hall)
    have hlt := digitsValue_lt H
    have hne : others ≠ [] := by
      rintro rfl
      exact hall rfl
    obtain ⟨m, hm⟩ := Nat.exists_eq_add_one_of_ne_zero (mt List.length_eq_zero_iff.1 hne)
    rw [hm] at hlt ⊢
    calc roundedDecimal negative (10 * digitsValue kept + 1) (exponent + (m + 1 : Nat) - 1) =
          roundedDecimal negative ((10 * digitsValue kept + 1) * 10 ^ m) exponent := by
          rw [roundedDecimal_mul_pow, Nat.cast_add, Nat.cast_one, ← Int.add_assoc,
            Int.add_sub_cancel]
      _ = roundedDecimal negative (digitsValue kept * 10 ^ (m + 1) + 10 ^ m) exponent := by
          rw [Nat.add_one_mul, Nat.pow_succ, Nat.mul_comm 10, Nat.mul_assoc, Nat.mul_comm 10]
      _ = _ := roundedDecimal_tail (ten_pow_pos m) (Nat.pow_lt_pow_succ (by decide)) negative
          (hkept hne) hpos hlt exponent

/-- Leaving digits out changes nothing. -/
theorem rounded_eq_roundedDecimal (negative : Bool) {digits : List Char}
    (H : ∀ c ∈ digits, isDigit c) (exponent : Int) :
    rounded negative digits exponent =
      roundedDecimal negative (digitsValue digits) exponent := by
  simp only [rounded, ofDecimal_eq_roundedDecimal]
  split
  · rfl
  have hdigits : ∀ c ∈ digits.dropWhile (· == '0'), isDigit c :=
    fun c hc => H c ((List.dropWhile_sublist _).mem hc)
  have hfirst := List.head?_dropWhile_not (· == '0') digits
  rw [← digitsValue_dropWhile digits]
  generalize digits.dropWhile (· == '0') = digits at *
  rw [roundedDecimal_mark negative ?_ fun c hc => hdigits c (List.mem_of_mem_drop hc),
    List.take_append_drop]
  intro hothers
  cases digits with
  | nil => exact absurd rfl hothers
  | cons c rest =>
    have hlength : 799 < rest.length := by
      simpa [maxDigits, List.drop_eq_nil_iff] using hothers
    have hle := le_digitsValue (hdigits c List.mem_cons_self) (by simpa using hfirst)
      (rest.take 799)
    rwa [List.length_take, Nat.min_eq_left (Nat.le_of_lt hlength)] at hle

/-- The integer of a sign and digits. -/
def signedValue (negative : Bool) (digits : List Char) : Int :=
  if negative then -(digitsValue digits : Int) else digitsValue digits

/-- An exponent is exact until it has reached the bound. -/
theorem clamp_exponentValue (negative : Bool) (digits : List Char) :
    max (min (exponentValue negative digits) exponentBound) (-exponentBound) =
      max (min (signedValue negative digits) exponentBound) (-exponentBound) := by
  have hmin := min_boundedValue exponentBound digits
  simp only [exponentValue, signedValue]
  split <;> omega

/-- An exponent that has stopped growing is too far out for the digits to make up for it. -/
theorem rounded_exponentValue (negative minus : Bool) {digits : List Char}
    (H : ∀ c ∈ digits, isDigit c) (hlength : digits.length ≤ 65000) {places : Nat}
    (hplaces : places ≤ digits.length) (power : List Char) :
    rounded negative digits (exponentValue minus power - places) =
      roundedDecimal negative (digitsValue digits) (signedValue minus power - places) := by
  have hlt := digitsValue_lt H
  have hclamp := clamp_exponentValue minus power
  rw [rounded_eq_roundedDecimal negative H]
  generalize exponentValue minus power = e, signedValue minus power = e' at *
  generalize digitsValue digits = n at *
  simp only [exponentBound, Nat.cast_ofNat] at hclamp
  rcases Nat.eq_zero_or_pos n with rfl | hpos
  · rw [roundedDecimal_zero, roundedDecimal_zero]
  rcases Int.lt_or_le 65535 e with hlarge | hle
  · rw [roundedDecimal_of_le negative (k := 0) hpos (by omega),
      roundedDecimal_of_le negative (k := 0) hpos (by omega)]
  rcases Int.lt_or_le e (-65535) with hsmall | hge
  · rw [roundedDecimal_of_lt negative hlt (by omega), roundedDecimal_of_lt negative hlt (by omega)]
  · obtain rfl : e = e' := by omega
    rfl

end Literal

/-! ## Numerals -/

namespace Grammar

/-- The sign and the digits of an exponent. -/
inductive Power : List Char → Bool → List Char → Prop
  | none : Power [] false []
  | mark : c ∈ ['e', 'E'] → Sign sign negative → digits ≠ [] → (∀ c ∈ digits, Literal.isDigit c) →
    Power (c :: (sign ++ digits)) negative digits

/-- The sign and the absolute value of the decimal that a numeral writes down. -/
inductive Writes : List Char → Bool → ℚ → Prop
  | intro : Sign sign negative → (∀ c ∈ whole, Literal.isDigit c) → Fraction fraction places →
    ¬(whole = [] ∧ places = []) → Power exponent minus power →
    Writes (sign ++ (whole ++ (fraction ++ exponent))) negative
      (Literal.digitsValue (whole ++ places) *
        10 ^ (Literal.signedValue minus power - places.length))

theorem exponent_iff {text : List Char} {e : Int} : Exponent text e ↔
    ∃ minus power, Power text minus power ∧ Literal.exponentValue minus power = e := by
  constructor
  · rintro (_ | ⟨hc, hsign, hne, hdigits⟩)
    · exact ⟨false, [], .none, rfl⟩
    · exact ⟨_, _, .mark hc hsign hne hdigits, rfl⟩
  · rintro ⟨_, _, _ | ⟨hc, hsign, hne, hdigits⟩, rfl⟩
    · exact .none
    · exact .mark hc hsign hne hdigits

section
variable {fraction places : List Char} (H : Fraction fraction places)
include H

theorem Fraction.isDigit_of_mem : ∀ c ∈ places, Literal.isDigit c := by
  cases H with
  | none => exact nofun
  | point hdigits => exact hdigits

theorem Fraction.length_le : places.length ≤ fraction.length := by
  cases H with
  | none => exact Nat.le_refl _
  | point => exact Nat.le_succ _

end

open Binary64

/-- What a numeral denotes, by the decimal it writes down. -/
theorem rounded_of_parts {negative minus : Bool}
    {sign whole fraction places exponent power : List Char}
    (hwhole : ∀ c ∈ whole, Literal.isDigit c) (hfraction : Fraction fraction places)
    (hw : (sign ++ (whole ++ (fraction ++ exponent))).length ≤ 65000) :
    Literal.rounded negative (whole ++ places) (Literal.exponentValue minus power - places.length) =
      roundedDecimal negative (Literal.digitsValue (whole ++ places))
        (Literal.signedValue minus power - places.length) := by
  have hplaces := hfraction.length_le
  simp only [List.length_append] at hw
  apply Literal.rounded_exponentValue
  · exact List.forall_mem_append.2 ⟨hwhole, hfraction.isDigit_of_mem⟩
  · rw [List.length_append]
    omega
  · rw [List.length_append]
    exact Nat.le_add_left ..

/-- A numeral denotes the number nearest to the decimal it writes down, with its sign. In a longer
numeral there is room for digits that make up for an exponent that has stopped growing. -/
theorem numeral_iff_nearest {w : List Char} {x : Binary64} (hw : w.length ≤ 65000) :
    Numeral w x ↔ ∃ v, Writes w x.negative v ∧ NearestAbs v x := by
  constructor
  · rintro ⟨hsign, hwhole, hfraction, hne, hexponent⟩
    obtain ⟨minus, power, hpower, rfl⟩ := exponent_iff.1 hexponent
    rw [rounded_of_parts hwhole hfraction hw, negative_roundedDecimal]
    exact ⟨_, .intro hsign hwhole hfraction hne hpower, nearestAbs_roundedDecimal ..⟩
  · rintro ⟨v, H, hnearest⟩
    generalize hx : x.negative = negative at H
    obtain ⟨hsign, hwhole, hfraction, hne, hpower⟩ := H
    have hexponent := exponent_iff.2 ⟨_, _, hpower, rfl⟩
    have hnumeral := Numeral.intro hsign hwhole hfraction hne hexponent
    rwa [rounded_of_parts hwhole hfraction hw, ← hx, hnearest.eq_roundedDecimal] at hnumeral

end Grammar
end ListPress
