import ListPress.Proofs.Rounding
import ListPress.Proofs.Numeral
import ListPress.Number.Layout

/-! # Numbers are read back from their text

The shortest decimal of a number lies in its rounding interval (`shortest_covers`), and each layout
of it is a numeral of the same value; so the text of a finite number reads as an equal number
(`NumberLayout.finite_numeral`). -/

namespace ListPress
namespace Binary64

/-! ## The shortest decimal -/

section
variable {x : Binary64} {n : Nat} {exponent : Int}

theorem coversDecimal_iff : x.CoversDecimal n exponent ↔
    x.inOrder (x.lowerEnd * tenPow (-exponent).toNat)
      (n * (4 * x.denominator * tenPow exponent.toNat)) ∧
    x.inOrder (n * (4 * x.denominator * tenPow exponent.toNat))
      (x.upperEnd * tenPow (-exponent).toNat) := by
  have hmid : n * (4 * x.denominator * tenPow exponent.toNat) =
      4 * (n * 10 ^ exponent.toNat) * x.denominator := by rw [tenPow_eq]; ring
  rw [hmid]
  exact ⟨fun H => ⟨H.lower, H.upper⟩, fun H => ⟨H.1, H.2⟩⟩

theorem numerator_lt_upperEnd (x : Binary64) : 4 * x.numerator < x.upperEnd := by
  have := Nat.two_pow_pos (x.shift - 1074)
  rw [upperEnd_eq, numerator, twoPow_eq, ← Nat.mul_assoc]
  exact Nat.mul_lt_mul_of_pos_right (by omega) this

theorem lowerEnd_lt_numerator (hpos : 0 < x.magnitude) : x.lowerEnd < 4 * x.numerator := by
  have := Nat.two_pow_pos (x.shift - 1074)
  have hm := significand_pos hpos
  rw [lowerEnd_eq, numerator, twoPow_eq, ← Nat.mul_assoc]
  refine Nat.mul_lt_mul_of_pos_right ?_ this
  unfold lowerQuarters
  split <;> omega

/-- A grid point that is not above the number has to be tested against the lower end only. -/
theorem coversDecimal_of_le
    (hle : n * (4 * x.denominator * tenPow exponent.toNat) ≤
      4 * x.numerator * tenPow (-exponent).toNat)
    (H : x.inOrder (x.lowerEnd * tenPow (-exponent).toNat)
      (n * (4 * x.denominator * tenPow exponent.toNat))) : x.CoversDecimal n exponent := by
  have hscale : 0 < tenPow (-exponent).toNat := Nat.pow_pos (by decide)
  have hupper := Nat.mul_lt_mul_of_pos_right x.numerator_lt_upperEnd hscale
  exact coversDecimal_iff.2 ⟨H, inOrder_of_lt x (Nat.lt_of_le_of_lt hle hupper)⟩

/-- A grid point above the number has to be tested against the upper end only. -/
theorem coversDecimal_of_lt (hpos : 0 < x.magnitude)
    (hlt : 4 * x.numerator * tenPow (-exponent).toNat <
      n * (4 * x.denominator * tenPow exponent.toNat))
    (H : x.inOrder (n * (4 * x.denominator * tenPow exponent.toNat))
      (x.upperEnd * tenPow (-exponent).toNat)) : x.CoversDecimal n exponent := by
  have hscale : 0 < tenPow (-exponent).toNat := Nat.pow_pos (by decide)
  have hlower := Nat.mul_lt_mul_of_pos_right (lowerEnd_lt_numerator hpos) hscale
  exact coversDecimal_iff.2 ⟨inOrder_of_lt x (Nat.lt_trans hlower hlt), H⟩

theorem gridPoint?_covers {tie : Tie} {d : Decimal} (hpos : 0 < x.magnitude)
    (H : gridPoint? tie x exponent = some d) :
    d.exponent = exponent ∧ x.CoversDecimal d.digits exponent := by
  have hstep : 0 < 4 * x.denominator * tenPow exponent.toNat :=
    Nat.mul_pos (Nat.mul_pos (by decide) (Nat.two_pow_pos _)) (Nat.pow_pos (by decide))
  have hbelow := @coversDecimal_of_le x _ exponent (Nat.div_mul_le_self _ _)
  have habove := @coversDecimal_of_lt x _ exponent hpos
    (Nat.lt_mul_of_div_lt (Nat.lt_succ_self _) hstep)
  rw [Nat.succ_mul] at habove
  simp only [gridPoint?] at H
  generalize 4 * x.numerator * tenPow (-exponent).toNat /
    (4 * x.denominator * tenPow exponent.toNat) = digits at *
  split at H
  · next hlo hhi =>
    split at H
    · cases H; exact ⟨rfl, hbelow hlo⟩
    · split at H
      · cases H; exact ⟨rfl, habove hhi⟩
      · cases tie with
        | up => cases H; exact ⟨rfl, habove hhi⟩
        | toEven =>
          cases H
          refine ⟨rfl, ?_⟩
          rcases Nat.mod_two_eq_zero_or_one digits with h | h <;> simp only [h]
          · exact hbelow hlo
          · exact habove hhi
  · next hlo _ => cases H; exact ⟨rfl, hbelow hlo⟩
  · next _ hhi => cases H; exact ⟨rfl, habove hhi⟩
  · cases H

/-- Where no grid has a point in the interval, the exact value is in it. -/
theorem exact_covers (hpos : 0 < x.magnitude) :
    x.CoversDecimal (x.numerator * 5 ^ (1074 - x.shift)) (-((1074 - x.shift : Nat) : Int)) := by
  have hscale : 0 < 10 ^ (1074 - x.shift) := Nat.pow_pos (by decide)
  have hvalue : 4 * x.numerator * 10 ^ (1074 - x.shift) =
      4 * (x.numerator * 5 ^ (1074 - x.shift)) * x.denominator := by
    have hten : 10 ^ (1074 - x.shift) = 5 ^ (1074 - x.shift) * 2 ^ (1074 - x.shift) :=
      Nat.mul_pow 5 2 _
    rw [denominator_eq, hten]
    ring
  unfold CoversDecimal
  simp only [Int.toNat_neg_natCast, Int.neg_neg, Int.toNat_natCast, Nat.pow_zero, Nat.mul_one]
  constructor
  · rw [← hvalue]
    exact inOrder_of_lt x (Nat.mul_lt_mul_of_pos_right (lowerEnd_lt_numerator hpos) hscale)
  · rw [← hvalue]
    exact inOrder_of_lt x (Nat.mul_lt_mul_of_pos_right x.numerator_lt_upperEnd hscale)

theorem pow_mul_pow_pos (a b : Nat) : 0 < 10 ^ a * 2 ^ b := by positivity

theorem pow_mul_pow_le {a b a' b' : Nat} (ha : a ≤ a') (hb : b ≤ b') :
    10 ^ a * 2 ^ b ≤ 10 ^ a' * 2 ^ b' := by
  gcongr <;> omega

/-- A decimal in the interval has no more digits than its exponent and the largest number allow. -/
theorem CoversDecimal.digits_lt (H : x.CoversDecimal n exponent) (hx : x.isFinite)
    (he : -346 ≤ exponent) : n < 10 ^ 770 := by
  have hhi := le_of_inOrder (covers_iff.1 H).2
  have hm := x.significand_lt
  have hs := shift_le hx
  have hbound : 2 ^ 56 * (10 ^ 346 * 2 ^ 2045) ≤ 4 * (10 ^ 770 * 2 ^ 1074) := by decide +kernel
  have hlt : 4 * (n * 2 ^ 1074) < 4 * (10 ^ 770 * 2 ^ 1074) := calc
    4 * (n * 2 ^ 1074) ≤ 4 * (n * 10 ^ exponent.toNat * 2 ^ 1074) := by
      gcongr
      exact Nat.le_mul_of_pos_right n (Nat.pow_pos (by decide))
    _ ≤ (4 * x.significand + 2) * (10 ^ (-exponent).toNat * 2 ^ x.shift) := hhi
    _ < 2 ^ 56 * (10 ^ 346 * 2 ^ 2045) :=
      Nat.mul_lt_mul_of_lt_of_le (by omega) (pow_mul_pow_le (by omega) hs) (pow_mul_pow_pos _ _)
    _ ≤ 4 * (10 ^ 770 * 2 ^ 1074) := hbound
  exact Nat.lt_of_mul_lt_mul_right (Nat.lt_of_mul_lt_mul_left hlt)

theorem significand_mul_pow_lt (x : Binary64) {b k k' : Nat} (hb : 0 < b) (hk : k ≤ k') :
    x.significand * b ^ k < 2 ^ 53 * b ^ k' :=
  Nat.mul_lt_mul_of_lt_of_le x.significand_lt (Nat.pow_le_pow_right hb hk) (Nat.pow_pos hb)

theorem exact_digits_lt (hx : x.isFinite) : x.numerator * 5 ^ (1074 - x.shift) < 10 ^ 770 := by
  have hs := shift_le hx
  have htwo : 2 ^ 53 * 2 ^ 971 ≤ 10 ^ 770 := by decide +kernel
  have hfive : 2 ^ 53 * 5 ^ 1074 ≤ 10 ^ 770 := by decide +kernel
  rw [numerator, twoPow_eq]
  rcases Nat.le_total x.shift 1074 with h | h
  · rw [Nat.sub_eq_zero_of_le h, Nat.pow_zero, Nat.mul_one]
    exact Nat.lt_of_lt_of_le (x.significand_mul_pow_lt (by decide) (Nat.sub_le ..)) hfive
  · rw [Nat.sub_eq_zero_of_le h, Nat.pow_zero, Nat.mul_one]
    exact Nat.lt_of_lt_of_le (x.significand_mul_pow_lt (by decide) (by omega)) htwo

theorem searchGrids_covers (tie : Tie) (hx : x.isFinite) (hpos : 0 < x.magnitude) {grids : Nat}
    (he : -347 + grids ≤ exponent) :
    x.CoversDecimal (searchGrids tie x grids exponent).digits
      (searchGrids tie x grids exponent).exponent ∧
    (searchGrids tie x grids exponent).digits < 10 ^ 770 := by
  induction grids generalizing exponent with
  | zero => exact ⟨exact_covers hpos, exact_digits_lt hx⟩
  | succ grids ih =>
    rw [searchGrids]
    split
    · next d hd =>
      obtain ⟨rfl, hcovers⟩ := gridPoint?_covers hpos hd
      exact ⟨hcovers, hcovers.digits_lt hx (by omega)⟩
    · exact ih (by omega)

theorem shortest_covers (tie : Tie) (hx : x.isFinite) (hpos : 0 < x.magnitude) :
    x.CoversDecimal (x.shortest tie).digits (x.shortest tie).exponent ∧
    (x.shortest tie).digits < 10 ^ 770 :=
  searchGrids_covers tie hx hpos (by omega)

end

end Binary64

/-! ## The value of digits -/

namespace Literal

theorem digitsValue_toDigits (n : Nat) : digitsValue (Nat.toDigits 10 n) = n :=
  Nat.ofDigitChars_ten_toDigits

theorem isDigit_of_mem_toDigits {n : Nat} : ∀ c ∈ Nat.toDigits 10 n, isDigit c :=
  fun _ hc => Nat.isDigit_of_mem_toDigits (by decide) (by decide) hc

theorem isDigit_of_mem_replicate {n : Nat} : ∀ c ∈ List.replicate n '0', isDigit c :=
  fun _ hc => (List.eq_of_mem_replicate hc) ▸ by decide

theorem foldl_digits (digits : List Char) (n : Nat) :
    digits.foldl (fun n c => 10 * n + digitValue c) n =
      n * 10 ^ digits.length + digitsValue digits := by
  unfold digitsValue
  induction digits generalizing n with
  | nil => simp
  | cons c digits ih =>
    simp only [List.foldl_cons, List.length_cons]
    rw [ih, ih (10 * 0 + digitValue c), Nat.pow_succ]
    ring

theorem digitsValue_append (digits digits' : List Char) :
    digitsValue (digits ++ digits') =
      digitsValue digits * 10 ^ digits'.length + digitsValue digits' := by
  rw [digitsValue, List.foldl_append, foldl_digits digits']
  rfl

theorem digitsValue_replicate (n : Nat) : digitsValue (List.replicate n '0') = 0 := by
  induction n with
  | zero => rfl
  | succ n ih => rw [List.replicate_succ', digitsValue_append, ih]; rfl

theorem digitsValue_zeros_append (n : Nat) (digits : List Char) :
    digitsValue (List.replicate n '0' ++ digits) = digitsValue digits := by
  rw [digitsValue_append, digitsValue_replicate, Nat.zero_mul, Nat.zero_add]

theorem digitsValue_append_zeros (digits : List Char) (n : Nat) :
    digitsValue (digits ++ List.replicate n '0') = digitsValue digits * 10 ^ n := by
  rw [digitsValue_append, digitsValue_replicate, List.length_replicate, Nat.add_zero]

/-- A value is exact until it has reached the bound. -/
theorem min_boundedValue (bound : Nat) (digits : List Char) :
    min (boundedValue 10 bound (digits.map digitValue)) bound = min (digitsValue digits) bound := by
  suffices H : ∀ n n', min n bound = min n' bound →
      min ((digits.map digitValue).foldl (fun n d => if bound ≤ n then n else 10 * n + d) n) bound =
        min (digits.foldl (fun n c => 10 * n + digitValue c) n') bound from H 0 0 rfl
  induction digits with
  | nil => exact fun _ _ h => h
  | cons c digits ih =>
    intro n n' h
    simp only [List.map_cons, List.foldl_cons]
    apply ih
    split <;> omega

theorem exponentValue_toDigits (negative : Bool) {n : Nat} (hn : n < exponentBound) :
    exponentValue negative (Nat.toDigits 10 n) = if negative then -(n : Int) else n := by
  have h : boundedValue 10 exponentBound ((Nat.toDigits 10 n).map digitValue) = n := by
    have hvalue := min_boundedValue exponentBound (Nat.toDigits 10 n)
    rw [digitsValue_toDigits] at hvalue
    omega
  simp only [exponentValue, h]

end Literal

/-! ## Layouts -/

open Grammar

namespace NumberLayout

/-- Positional notation stays short, so that a reader looks at all the digits. -/
structure Narrow (layout : NumberLayout) : Prop where
  leastPlain : -20 ≤ layout.leastPlain
  mostPlain : layout.mostPlain ≤ 20

variable {layout : NumberLayout} {x : Binary64} {sign : List Char} {n : Nat} {exponent : Int}

theorem fraction_nil (layout : NumberLayout) : ∃ zeros ≤ 1,
    Fraction (layout.fraction []) (List.replicate zeros '0') := by
  unfold fraction
  cases layout.keepPoint with
  | true => exact ⟨1, Nat.le_refl _, .point (by simp; decide)⟩
  | false => exact ⟨0, Nat.zero_le _, .none⟩

theorem fraction_of_ne_nil {digits : List Char} (H : digits ≠ []) :
    layout.fraction digits = '.' :: digits := by
  rw [fraction, if_neg (by simpa using H)]

section
variable (hx : x.isFinite) (hpos : 0 < x.magnitude) (hsign : Sign sign x.negative)
  (H : x.CoversDecimal n exponent)
include hx hpos hsign H

/-- A numeral with the value of a decimal in the interval of a number reads as the number. -/
theorem numeral_of_covers {whole text places mark : List Char} {e : Int}
    (hwhole : ∀ c ∈ whole, Literal.isDigit c) (hne : whole ≠ []) (htext : Fraction text places)
    (hmark : Exponent mark e) (hlength : whole.length + places.length ≤ Literal.maxDigits)
    (zeros : Nat) (hvalue : Literal.digitsValue (whole ++ places) = n * 10 ^ zeros)
    (he : e - places.length = exponent - zeros) :
    Numeral (sign ++ (whole ++ (text ++ mark))) x := by
  have hrounded : Literal.rounded x.negative (whole ++ places) (e - places.length) = x := by
    rw [Literal.rounded, if_pos (by simpa using hlength), hvalue, he,
      (H.mul_pow zeros).ofDecimal_eq hx hpos]
  have := Numeral.intro hsign hwhole htext (fun h => hne h.1) hmark
  rwa [hrounded] at this

theorem positional_of_covers {whole text places : List Char}
    (hwhole : ∀ c ∈ whole, Literal.isDigit c) (hne : whole ≠ []) (htext : Fraction text places)
    (hlength : whole.length + places.length ≤ Literal.maxDigits)
    (zeros : Nat) (hvalue : Literal.digitsValue (whole ++ places) = n * 10 ^ zeros)
    (he : -(places.length : Int) = exponent - zeros) : Numeral (sign ++ (whole ++ text)) x := by
  have := numeral_of_covers hx hpos hsign H hwhole hne htext .none hlength zeros hvalue (by omega)
  rwa [List.append_nil] at this

/-- A whole number, with the zeros that stand for its exponent. -/
theorem whole_numeral {digits : List Char} (hdigits : ∀ c ∈ digits, Literal.isDigit c)
    (hne : digits ≠ []) (hvalue : Literal.digitsValue digits = n) (hexponent : 0 ≤ exponent)
    (hmost : exponent + digits.length - 1 ≤ 20) :
    Numeral (sign ++ (digits ++ List.replicate exponent.toNat '0' ++ layout.fraction [])) x := by
  obtain ⟨zeros, hzeros, hfraction⟩ := layout.fraction_nil
  refine positional_of_covers hx hpos hsign H
    (List.forall_mem_append.2 ⟨hdigits, Literal.isDigit_of_mem_replicate⟩) (by simp [hne])
    hfraction ?_ (exponent.toNat + zeros) ?_ ?_
  · simp only [List.length_append, List.length_replicate, Literal.maxDigits]
    omega
  · rw [Literal.digitsValue_append_zeros, Literal.digitsValue_append_zeros, hvalue, Nat.mul_assoc,
      ← Nat.pow_add]
  · rw [List.length_replicate]
    omega

theorem plain_numeral {digits : List Char} (hdigits : ∀ c ∈ digits, Literal.isDigit c)
    (hne : digits ≠ []) (hvalue : Literal.digitsValue digits = n) (hlength : digits.length ≤ 770)
    (hleast : -20 ≤ exponent + digits.length - 1) (hmost : exponent + digits.length - 1 ≤ 20) :
    Numeral (sign ++ layout.plain digits exponent) x := by
  have hlen := List.length_pos_iff.2 hne
  simp only [plain]
  split
  · next h => exact whole_numeral hx hpos hsign H hdigits hne hvalue h hmost
  split
  · -- the point is among the digits
    next hlt =>
    have hplaces :
        (digits.drop (digits.length - (-exponent).toNat)).length = (-exponent).toNat := by
      rw [List.length_drop]
      omega
    rw [fraction_of_ne_nil (List.length_pos_iff.1 (by omega))]
    refine positional_of_covers hx hpos hsign H (fun c hc => hdigits c (List.mem_of_mem_take hc))
      ?_ (.point fun c hc => hdigits c (List.mem_of_mem_drop hc)) ?_ 0 ?_ ?_
    · rw [← List.length_pos_iff, List.length_take]
      omega
    · rw [← List.length_append, List.take_append_drop]
      exact Nat.le_trans hlength (by decide)
    · rw [List.take_append_drop, hvalue, Nat.pow_zero, Nat.mul_one]
    · omega
  · -- the digits stand behind the point
    next hlt =>
    change Numeral (sign ++ (['0'] ++ '.' ::
      (List.replicate ((-exponent).toNat - digits.length) '0' ++ digits))) x
    refine positional_of_covers hx hpos hsign H (by simp; decide) nofun
      (.point (List.forall_mem_append.2 ⟨Literal.isDigit_of_mem_replicate, hdigits⟩)) ?_ 0 ?_ ?_
    · simp only [List.length_append, List.length_replicate, List.length_singleton,
        Literal.maxDigits]
      omega
    · have hzero : ['0'] = List.replicate 1 '0' := rfl
      rw [hzero, Literal.digitsValue_zeros_append, Literal.digitsValue_zeros_append, hvalue,
        Nat.pow_zero, Nat.mul_one]
    · rw [List.length_append, List.length_replicate]
      omega

omit hx hpos hsign H in
theorem exponent_mark {leading : Int} (H : leading.natAbs < Literal.exponentBound) :
    Exponent ('e' :: (if leading < 0 then '-' else '+') :: Nat.toDigits 10 leading.natAbs)
      leading := by
  have hdigits := Literal.isDigit_of_mem_toDigits (n := leading.natAbs)
  have hne : Nat.toDigits 10 leading.natAbs ≠ [] := Nat.toDigits_ne_nil
  split
  · next h =>
    have := Exponent.mark (c := 'e') (by simp) .minus hne hdigits
    rw [Literal.exponentValue_toDigits true H, if_pos rfl] at this
    rwa [show -(leading.natAbs : Int) = leading by omega] at this
  · next h =>
    have := Exponent.mark (c := 'e') (by simp) .plus hne hdigits
    rw [Literal.exponentValue_toDigits false H, if_neg nofun] at this
    rwa [show (leading.natAbs : Int) = leading by omega] at this

theorem scientific_numeral {digits : List Char} (hdigits : ∀ c ∈ digits, Literal.isDigit c)
    (hne : digits ≠ []) (hvalue : Literal.digitsValue digits = n) (hlength : digits.length ≤ 770)
    (hbound : (exponent + digits.length - 1).natAbs < Literal.exponentBound) :
    Numeral (sign ++ scientific digits (exponent + digits.length - 1)) x := by
  have hmark := exponent_mark hbound
  have hmax : 770 ≤ Literal.maxDigits := by decide
  rw [← Nat.mul_one n, ← Nat.pow_zero 10] at hvalue
  unfold scientific
  match digits with
  | [] => exact absurd rfl hne
  | [d] =>
    exact numeral_of_covers hx hpos hsign H hdigits hne .none hmark (Nat.le_trans hlength hmax) 0
      hvalue (by simp)
  | d :: c :: rest =>
    obtain ⟨hd, hrest⟩ := List.forall_mem_cons.1 hdigits
    have hd : ∀ c ∈ [d], Literal.isDigit c := by simpa using hd
    refine numeral_of_covers hx hpos hsign H hd (List.cons_ne_nil d []) (.point hrest) hmark ?_ 0
      hvalue ?_
    · simp only [List.length_cons, List.length_nil] at hlength ⊢
      omega
    · simp only [List.length_cons]
      omega

theorem decimal_numeral (hl : layout.Narrow) (hn : n < 10 ^ 770) :
    Numeral (sign ++ layout.decimal ⟨n, exponent⟩) x := by
  have hlength := (Nat.length_toDigits_le_iff (b := 10) (by decide) (by decide)).2 hn
  have hdigits := Literal.isDigit_of_mem_toDigits (n := n)
  have hvalue := Literal.digitsValue_toDigits n
  have hne : Nat.toDigits 10 n ≠ [] := Nat.toDigits_ne_nil
  simp only [decimal]
  generalize Nat.toDigits 10 n = digits at *
  split
  · next h =>
    have hleast := hl.leastPlain
    have hmost := hl.mostPlain
    exact plain_numeral hx hpos hsign H hdigits hne hvalue hlength (by omega) (by omega)
  · refine scientific_numeral hx hpos hsign H hdigits hne hvalue hlength ?_
    have hlog : n.log2 < 2560 := (Nat.log2_lt (Nat.ne_of_gt (H.digits_pos hpos))).2
      (Nat.lt_of_lt_of_le hn (by decide +kernel))
    have hmax := H.exponent_le hx hpos
    have hmin := H.le_exponent hpos
    unfold Literal.exponentBound
    omega

end

end NumberLayout

namespace Binary64

theorem equal_self {x : Binary64} (H : x.isFinite) : x.equal x := by
  simp [equal, isNaN_of_isFinite H]

theorem equal_of_zero {x y : Binary64} (hx : x.magnitude = 0) (hy : y.magnitude = 0) :
    x.equal y := by
  simp [equal, isNaN, hx, hy]

theorem magnitude_ofDecimal_zero (negative : Bool) (exponent : Int) :
    (ofDecimal negative 0 exponent).magnitude = 0 := by
  have hround (den : Nat) : roundHalfEven 0 den = 0 := by simp [roundHalfEven]
  simp only [ofDecimal, ofRatio, Nat.zero_mul, Nat.zero_div, hround]
  cases negative <;> decide

end Binary64

namespace NumberLayout

variable {layout : NumberLayout} {x : Binary64}

theorem zero_numeral (layout : NumberLayout) {sign : List Char} {negative : Bool}
    (hsign : Sign sign negative) :
    ∃ y : Binary64, Numeral (sign ++ '0' :: layout.fraction []) y ∧ y.magnitude = 0 := by
  obtain ⟨zeros, hzeros, hfraction⟩ := layout.fraction_nil
  have hwhole : ∀ c ∈ ['0'], Literal.isDigit c := by simp; decide
  have hnumeral := Numeral.intro hsign hwhole hfraction nofun .none
  rw [List.append_nil] at hnumeral
  refine ⟨_, hnumeral, ?_⟩
  have hlength : (['0'] ++ List.replicate zeros '0').length ≤ Literal.maxDigits := by
    simp only [List.length_append, List.length_replicate, List.length_singleton, Literal.maxDigits]
    omega
  have hvalue : Literal.digitsValue ['0'] = 0 := rfl
  rw [Literal.rounded, if_pos hlength, Literal.digitsValue_append_zeros, hvalue, Nat.zero_mul,
    Binary64.magnitude_ofDecimal_zero]

/-- The text of a finite number is a numeral that reads as an equal number. -/
theorem finite_numeral (hl : layout.Narrow) (hx : x.isFinite) :
    ∃ y, Numeral (layout.finite x) y ∧ y.equal x := by
  unfold finite
  split
  · next hzero =>
    obtain ⟨y, hy, hmagnitude⟩ : ∃ y : Binary64, Numeral ((if x.negative && layout.signedZero
        then ['-'] else []) ++ '0' :: layout.fraction []) y ∧ y.magnitude = 0 := by
      split
      · exact layout.zero_numeral .minus
      · exact layout.zero_numeral .none
    exact ⟨y, hy, Binary64.equal_of_zero hmagnitude hzero⟩
  · next hzero =>
    have hpos := Nat.pos_of_ne_zero hzero
    obtain ⟨hcovers, hdigits⟩ := Binary64.shortest_covers layout.tie hx hpos
    have hsign : Sign (if x.negative then ['-'] else []) x.negative := by
      split
      · next h => exact h ▸ .minus
      · next h => exact Bool.eq_false_of_not_eq_true h ▸ .none
    exact ⟨x, decimal_numeral hx hpos hsign hcovers hl hdigits, Binary64.equal_self hx⟩

end NumberLayout
end ListPress
