import ListPress.Proofs.Grammar

/-! # Numerals

The reader takes a word as a number exactly when it is a numeral of the grammar, and as the number
the numeral denotes (`number?_eq_some_iff`). With it the reader and the grammar agree on words
(`word_iff`). -/

namespace ListPress
namespace Grammar
open List

/-! ## Signs, fractions and exponents -/

theorem sign_sound (cs : List Char) :
    ∃ sign, Sign sign (Literal.sign cs).1 ∧ sign ++ (Literal.sign cs).2 = cs := by
  fun_cases Literal.sign cs with
  | case1 cs => exact ⟨['-'], .minus, rfl⟩
  | case2 cs => exact ⟨['+'], .plus, rfl⟩
  | case3 => exact ⟨[], .none, rfl⟩

/-- A sign is taken off unless there is none and the text goes on with one. -/
theorem Sign.sign_eq {sign cs : List Char} {negative : Bool} (H : Sign sign negative)
    (hcs : ∀ c ∈ cs.head?, c ≠ '-' ∧ c ≠ '+') : Literal.sign (sign ++ cs) = (negative, cs) := by
  cases H with
  | plus | minus => rfl
  | none =>
    cases cs with
    | nil => rfl
    | cons c cs =>
      obtain ⟨hm, hp⟩ := hcs c rfl
      exact Literal.sign.eq_3 _ (fun _ h => hm (cons.inj h).1) (fun _ h => hp (cons.inj h).1)

theorem isDigit_ne {c d : Char} (hc : Literal.isDigit c) (hd : Literal.isDigit d = false) :
    c ≠ d := by
  rintro rfl
  simp [hc] at hd

theorem exponent?_eq_some_iff {cs : List Char} {e : Int} :
    Literal.exponent? cs = some e ↔ Exponent cs e := by
  constructor
  · intro H
    cases cs with
    | nil => cases H; exact .none
    | cons c cs =>
      obtain ⟨sign, hsign, hcs⟩ := sign_sound cs
      simp only [Literal.exponent?, Option.ite_none_right_eq_some, Option.some.injEq] at H
      obtain ⟨⟨hmark, hne, hdigits⟩, rfl⟩ := H
      have := Exponent.mark (by simpa using hmark) hsign hne (all_eq_true.1 hdigits)
      rwa [hcs] at this
  · rintro (_ | @⟨c, sign, negative, digits, hmark, hsign, hne, hdigits⟩)
    · rfl
    · have hhead : ∀ x ∈ digits.head?, x ≠ '-' ∧ x ≠ '+' := fun x hx =>
        have hx := hdigits x (mem_of_mem_head? hx)
        ⟨isDigit_ne hx (by decide), isDigit_ne hx (by decide)⟩
      simp only [Literal.exponent?, hsign.sign_eq hhead]
      rw [if_pos ⟨by simpa using hmark, hne, all_eq_true.2 hdigits⟩]

theorem Exponent.not_digit {cs : List Char} {e : Int} (H : Exponent cs e) :
    ∀ c ∈ cs.head?, Literal.isDigit c = false ∧ c ≠ '.' := by
  cases H with
  | none => simp
  | mark hmark =>
    simp only [head?_cons, Option.mem_some_iff, forall_eq']
    simp only [mem_cons, not_mem_nil, or_false] at hmark
    rcases hmark with rfl | rfl <;> decide

theorem fraction_sound (cs : List Char) :
    ∃ text, Fraction text (Literal.fraction cs).1 ∧ text ++ (Literal.fraction cs).2 = cs := by
  fun_cases Literal.fraction cs with
  | case1 cs =>
    refine ⟨'.' :: cs.takeWhile Literal.isDigit, .point fun c hc => ?_, ?_⟩
    · exact all_eq_true.1 all_takeWhile c hc
    · rw [cons_append, takeWhile_append_dropWhile]
  | case2 => exact ⟨[], .none, rfl⟩

theorem Fraction.fraction_eq {text places cs : List Char} (H : Fraction text places)
    (hcs : ∀ c ∈ cs.head?, Literal.isDigit c = false ∧ c ≠ '.') :
    Literal.fraction (text ++ cs) = (places, cs) := by
  cases H with
  | none =>
    cases cs with
    | nil => rfl
    | cons c cs => exact Literal.fraction.eq_2 _ fun _ h => (hcs c rfl).2 (cons.inj h).1
  | point hplaces =>
    obtain ⟨htake, hdrop⟩ := takeWhile_append_stop hplaces fun c hc => (hcs c hc).1
    rw [cons_append, Literal.fraction, htake, hdrop]

/-! ## What looks like a number -/

theorem point_of_isDigit {c : Char} (hc : Literal.isDigit c) (cs : List Char) :
    Literal.point (c :: cs) = c :: cs :=
  Literal.point.eq_2 _ fun _ h => isDigit_ne hc (by decide) (cons.inj h).1

/-- A numeral goes on after its sign with a digit or a point. -/
theorem head?_of_not_both_nil {whole places text : List Char} (rest : List Char)
    (hwhole : ∀ c ∈ whole, Literal.isDigit c) (hfraction : Fraction text places)
    (hne : ¬(whole = [] ∧ places = [])) :
    ∀ c ∈ (whole ++ (text ++ rest)).head?, c ≠ '-' ∧ c ≠ '+' := by
  intro c hc
  cases whole with
  | cons d whole =>
    cases hc
    have hc := hwhole c mem_cons_self
    exact ⟨isDigit_ne hc (by decide), isDigit_ne hc (by decide)⟩
  | nil =>
    cases hfraction with
    | none => exact absurd ⟨rfl, rfl⟩ hne
    | point => cases hc; decide

/-- A word that does not look like a number is none. -/
theorem Numeral.looksNumeric {w : List Char} {x : Binary64} (H : Numeral w x) :
    Literal.looksNumeric w := by
  obtain @⟨sign, negative, whole, text, places, exponent, e, hsign, hwhole, hfraction, hne, -⟩ := H
  rw [Literal.looksNumeric, hsign.sign_eq (head?_of_not_both_nil exponent hwhole hfraction hne)]
  cases whole with
  | cons c whole =>
    have hc := hwhole c mem_cons_self
    rw [cons_append, point_of_isDigit hc]
    exact hc
  | nil =>
    cases hfraction with
    | none => exact absurd ⟨rfl, rfl⟩ hne
    | point hplaces =>
      cases places with
      | nil => exact absurd ⟨rfl, rfl⟩ hne
      | cons c places => exact hplaces c mem_cons_self

/-! ## Whole literals -/

theorem number?_sound {w : List Char} {x : Binary64} (H : Literal.number? w = some x) :
    Numeral w x := by
  obtain ⟨sign, hsign, hw⟩ := sign_sound w
  simp only [Literal.number?, Option.ite_none_left_eq_some, Option.map_eq_some_iff] at H
  obtain ⟨hne, e, he, rfl⟩ := H
  obtain ⟨text, hfraction, hcs⟩ := fraction_sound ((Literal.sign w).2.dropWhile Literal.isDigit)
  have := Numeral.intro hsign (all_eq_true.1 all_takeWhile) hfraction hne
    (exponent?_eq_some_iff.1 he)
  rwa [hcs, takeWhile_append_dropWhile, hw] at this

theorem Numeral.number?_eq {w : List Char} {x : Binary64} (H : Numeral w x) :
    Literal.number? w = some x := by
  obtain @⟨sign, negative, whole, text, places, exponent, e, hsign, hwhole, hfraction, hne, he⟩ := H
  have hhead := head?_of_not_both_nil exponent hwhole hfraction hne
  have hstop : ∀ c ∈ (text ++ exponent).head?, Literal.isDigit c = false := by
    cases hfraction with
    | none => exact fun c hc => (he.not_digit c hc).1
    | point => simp; decide
  obtain ⟨htake, hdrop⟩ := takeWhile_append_stop hwhole hstop
  simp only [Literal.number?, hsign.sign_eq hhead, htake, hdrop,
    hfraction.fraction_eq he.not_digit, if_neg hne, exponent?_eq_some_iff.2 he, Option.map_some]

theorem number?_eq_some_iff {w : List Char} {x : Binary64} :
    Literal.number? w = some x ↔ Numeral w x :=
  ⟨number?_sound, Numeral.number?_eq⟩

theorem number?_eq_none_iff {w : List Char} :
    Literal.number? w = none ↔ ∀ x, ¬Numeral w x := by
  simp only [Option.eq_none_iff_forall_ne_some, ne_eq, number?_eq_some_iff]

theorem Numeral.ne_of_number?_eq_none {w v : List Char} {x : Binary64} (H : Numeral w x)
    (hv : Literal.number? v = none) : w ≠ v := by
  rintro rfl
  rw [number?_eq_some_iff.2 H] at hv
  cases hv

theorem isDelimiter_of_isDigit {c : Char} (hc : Literal.isDigit c) : isDelimiter c = false := by
  simp only [Literal.isDigit, Bool.and_eq_true, decide_eq_true_eq] at hc
  have hlo : 48 ≤ c.toNat := hc.1
  have hhi : c.toNat ≤ 57 := hc.2
  have hne (d : Char) (hd : d.toNat < 48 ∨ 57 < d.toNat) : (c == d) = false := by
    rw [beq_eq_false_iff_ne]
    rintro rfl
    omega
  have hblank : isBlank c = false := by
    simp only [isBlank, Bool.or_eq_false_iff, Bool.and_eq_false_iff, decide_eq_false_iff_not,
      beq_eq_false_iff_ne]
    omega
  simp [isDelimiter, hblank, hne]

/-- What holds of digits and of the marks between them holds of every character of a numeral. -/
theorem Numeral.forall_mem {w : List Char} {x : Binary64} {P : Char → Prop} (H : Numeral w x)
    (hdigit : ∀ c, Literal.isDigit c → P c) (hmark : ∀ c ∈ ['+', '-', '.', 'e', 'E'], P c) :
    ∀ c ∈ w, P c := by
  obtain ⟨hsign, hwhole, hfraction, -, he⟩ := H
  have hdigits {digits : List Char} (h : ∀ c ∈ digits, Literal.isDigit c) : ∀ c ∈ digits, P c :=
    fun c hc => hdigit c (h c hc)
  have hsigns {sign : List Char} {negative : Bool} (h : Sign sign negative) : ∀ c ∈ sign, P c := by
    cases h with
    | none => exact nofun
    | plus | minus => exact forall_mem_singleton.2 (hmark _ (by simp))
  refine forall_mem_append.2 ⟨hsigns hsign, forall_mem_append.2 ⟨hdigits hwhole,
    forall_mem_append.2 ⟨?_, ?_⟩⟩⟩
  · cases hfraction with
    | none => simp
    | point h => exact forall_mem_cons.2 ⟨hmark _ (by simp), hdigits h⟩
  · cases he with
    | none => simp
    | mark hc hs _ h =>
      refine forall_mem_cons.2 ⟨hmark _ ?_, forall_mem_append.2 ⟨hsigns hs, hdigits h⟩⟩
      simp only [mem_cons, not_mem_nil, or_false] at hc ⊢
      rcases hc with rfl | rfl <;> decide

/-- The characters of a numeral are no delimiters. -/
theorem Numeral.isWord {w : List Char} {x : Binary64} (H : Numeral w x) : IsWord w := by
  refine ⟨?_, H.forall_mem (fun c => isDelimiter_of_isDigit) (by simp; decide)⟩
  obtain ⟨-, -, hfraction, hne, -⟩ := H
  intro h
  simp only [append_eq_nil_iff] at h
  obtain ⟨-, rfl, rfl, -⟩ := h
  cases hfraction
  exact hne ⟨rfl, rfl⟩

/-- The reader and the grammar agree on what a word denotes. -/
theorem word_iff {w : List Char} {a : Atom} : Word w a ↔ Reader.wordAtom w = a := by
  constructor
  · rintro (_ | _ | hx | ⟨ht, hf, hnone⟩)
    · rfl
    · rfl
    · rw [Reader.wordAtom, if_neg (hx.ne_of_number?_eq_none rfl),
        if_neg (hx.ne_of_number?_eq_none rfl), if_pos hx.looksNumeric, number?_eq_some_iff.2 hx]
    · rw [Reader.wordAtom, if_neg ht, if_neg hf, number?_eq_none_iff.2 hnone, ite_self]
  · rintro rfl
    fun_cases Reader.wordAtom w with
    | case1 h => exact h ▸ .true
    | case2 _ h => exact h ▸ .false
    | case3 _ _ _ x hx => exact .number (number?_eq_some_iff.1 hx)
    | case4 ht hf _ hnone => exact .symbol ht hf (number?_eq_none_iff.1 hnone)
    | case5 ht hf hlooks => exact .symbol ht hf fun x hx => hlooks hx.looksNumeric

end Grammar
end ListPress
