import ListPress.Proofs.Reread

/-! # Printed numbers

The text of a finite number is one word of the source text. It starts as the text of a number does
(`Literal.looksNumeric`), and it is read as an equal number (`Binary64.read_print_number`), whether it
is written with an exponent, as a whole number or with a fraction. -/

namespace ListPress
open List Grammar

theorem Grammar.IsWord.scan_eq {w : List Char} (H : IsWord w) :
    Lexeme.scan w = ⟨w, .word w, []⟩ := by
  have hscans : Scans (w ++ []) ⟨w ++ [], .word w, []⟩ := .word .none H (by simp [Boundary])
  have hscan := hscans.scan_eq
  rwa [append_nil] at hscan

namespace Binary64

/-- The text of a finite number is a single word without a delimiter in it, it looks like a number,
and it is read as a number that is equal to the one printed. -/
theorem read_print_number {x : Binary64} (H : x.isFinite) :
    Lexeme.scan x.print.toList = ⟨x.print.toList, .word x.print.toList, []⟩ ∧
      (∀ c ∈ x.print.toList, isDelimiter c = false) ∧ Literal.looksNumeric x.print.toList ∧
      ∃ y, Datum.read x.print = .ok (.atom (.number y)) ∧ y.equal x := by
  obtain ⟨y, hy, heq⟩ := print_numeral H
  have hatom : Reader.wordAtom x.print.toList = .number y := word_iff.1 (.number hy)
  refine ⟨hy.isWord.scan_eq, hy.isWord.2, hy.looksNumeric, y, ?_, heq⟩
  rw [Datum.read_word hy.isWord, hatom]

/-- A number for each way to write one: with an exponent, as a whole number and with a fraction. -/
theorem read_print_number_forms :
    let xs : List Binary64 := [⟨0x444B1AE4D6E2EF50⟩, ⟨0xC045000000000000⟩, ⟨0x3FB999999999999A⟩]
    xs.map print = ["1e+21", "-42", "0.1"] ∧ ∀ x ∈ xs, x.isFinite ∧
      Literal.looksNumeric x.print.toList ∧
      ∃ y, Datum.read x.print = .ok (.atom (.number y)) ∧ y.equal x := by
  intro xs
  refine ⟨by decide +kernel, fun x hx => ?_⟩
  have hfinite : ∀ x ∈ xs, x.isFinite := by decide
  obtain ⟨-, -, hnumeric, hread⟩ := read_print_number (hfinite x hx)
  exact ⟨hfinite x hx, hnumeric, hread⟩

end Binary64
end ListPress
