import ListPress.Proofs.Quoting

/-! # Texts of many data

`Grammar.Series` says which data a whole text denotes, one after the other, and the reader of all
data finds exactly these (`Datum.readAll_eq_ok_iff`). So texts can be put together line by line, and
what is read of a text with one datum is the same for both readers. -/

namespace ListPress
open List

namespace Grammar

/-- Up to `stop` the text is data with separators around them, as many as there are in the list. -/
inductive Series (depth : Nat) (stop : List Char) : List Char → List Datum → Prop
  | finish : Separators cs stop → Series depth stop cs []
  | datum : Data depth cs d rest → Series depth stop rest ds → Series depth stop cs (d :: ds)

variable {depth : Nat} {stop : List Char}

theorem Series.of_separators {cs cs' : List Char} {ds : List Datum} (H : Series depth stop cs' ds)
    (hs : Separators cs cs') : Series depth stop cs ds := by
  cases H with
  | finish hs' => exact .finish (hs.trans hs')
  | datum hd H =>
    cases hd with
    | intro hdepth hs' hform => exact .datum (.intro hdepth (hs.trans hs') hform) H

theorem Data.replace {cs rest : List Char} {d : Datum} (H : Data depth cs d rest) :
    ∃ part, cs = part ++ rest ∧
      ∀ after, (Boundary rest → Boundary after) → Data depth (part ++ after) d after := by
  obtain ⟨part, hcs, hpart⟩ := Reader.run_replace (data_iff_run_quotes.1 H)
  exact ⟨part, hcs, fun after hafter => data_iff_run_quotes.2 (hpart after hafter)⟩

/-- The end of a line ends a word, so the lines behind a text do not matter to its data. -/
theorem data_append_line_iff {cs rest after : List Char} {d : Datum} :
    Data depth (cs ++ '\n' :: after) d (rest ++ '\n' :: after) ↔ Data depth cs d rest := by
  constructor
  · intro H
    obtain ⟨part, hcs, hpart⟩ := H.replace
    rw [← append_assoc] at hcs
    rw [append_cancel_right hcs]
    apply hpart
    intro hb
    rw [← append_nil rest]
    exact hb.replace fun _ => by simp [Boundary]
  · intro H
    obtain ⟨part, rfl, hpart⟩ := H.replace
    rw [append_assoc]
    apply hpart
    intro hb
    rw [← append_nil rest] at hb
    exact hb.replace fun _ => Reader.boundary_cons (by decide) after

theorem run_of_skip_eq_nil {cs : List Char} (H : Lexeme.skip cs = []) :
    Reader.run .datum [] cs = .error (.stopped []) := by
  have hscan : Scans cs ⟨[], .finish, []⟩ := .finish (H ▸ separators_skip cs)
  rw [Reader.run_of_scans hscan]
  rfl

theorem Data.skip_ne_nil {cs rest : List Char} {d : Datum} (H : Data 0 cs d rest) :
    Lexeme.skip cs ≠ [] := by
  intro hskip
  cases (Reader.data_iff_run.1 H).symm.trans (run_of_skip_eq_nil hskip)

theorem series_singleton_iff {cs : List Char} {d : Datum} :
    Series 0 [] cs [d] ↔ Denotes cs d := by
  constructor
  · intro H
    cases H with
    | datum hd H =>
      cases H with
      | finish hs => exact ⟨_, hd, hs⟩
  · rintro ⟨rest, hd, hs⟩
    exact .datum hd (.finish hs)

/-- The end of a line ends a comment and a word, and else it is a separator. -/
theorem Series.append {cs cs' : List Char} {xs ys : List Datum} (H : Series depth [] cs xs)
    (H' : Series depth stop cs' ys) : Series depth stop (cs ++ '\n' :: cs') (xs ++ ys) := by
  induction H with
  | finish hs =>
    obtain ⟨gap, rfl, hgap⟩ := hs.replace nofun
    rw [append_nil, nil_append]
    exact H'.of_separators ((hgap _ fun _ => .lineFeed).trans (.space (by simp) .none))
  | datum hd _ ih => exact .datum (data_append_line_iff.2 hd) ih

end Grammar

namespace Reader
open Grammar

theorem all_eq_ok_iff {text cs : List Char} {seen ds : List Datum} :
    all text cs seen = .ok ds ↔ ∃ more, Series 0 [] cs more ∧ ds = seen.reverse ++ more := by
  fun_induction all text cs seen with
  | case1 cs seen hskip =>
    constructor
    · intro H
      cases H
      exact ⟨[], .finish (hskip ▸ separators_skip cs), (append_nil _).symm⟩
    · rintro ⟨more, H, rfl⟩
      cases H with
      | finish => rw [append_nil]
      | datum hd => exact absurd hskip hd.skip_ne_nil
  | case2 cs seen d rest h hskip ih =>
    rw [ih]
    constructor
    · rintro ⟨more, H, rfl⟩
      exact ⟨d :: more, .datum (data_iff_run.2 h) H, by simp⟩
    · rintro ⟨more, H, rfl⟩
      cases H with
      | finish hs => exact absurd hs.skip_eq hskip
      | datum hd H =>
        cases (data_iff_run.1 hd).symm.trans h
        exact ⟨_, H, by simp⟩
  | case3 cs seen fault h hskip =>
    constructor
    · intro H
      cases H
    · rintro ⟨more, H, rfl⟩
      cases H with
      | finish hs => exact absurd hs.skip_eq hskip
      | datum hd => cases (data_iff_run.1 hd).symm.trans h

end Reader

namespace Datum
open Grammar

/-- Reading all data of a text succeeds exactly when the text is a series of data, with those it
denotes. -/
theorem readAll_eq_ok_iff {text : String} {ds : List Datum} :
    readAll text = .ok ds ↔ Series 0 [] text.toList ds := by
  rw [readAll, Reader.all_eq_ok_iff]
  simp

/-- The data of two texts that are put on lines of their own are those of the first text and then
those of the second. -/
theorem readAll_append_line {s t : String} {xs ys : List Datum} (hs : readAll s = .ok xs)
    (ht : readAll t = .ok ys) : readAll (s ++ "\n" ++ t) = .ok (xs ++ ys) := by
  rw [readAll_eq_ok_iff] at hs ht ⊢
  have htext : (s ++ "\n" ++ t).toList = s.toList ++ '\n' :: t.toList := by simp
  rw [htext]
  exact hs.append ht

/-- The first text ends in a lone dot and a comment without a line end, the second in a word. -/
theorem readAll_append_line_comment :
    readAll "'a . ;b" = .ok [.list [.symbol "quote", .symbol "a"], .symbol "."] ∧
      readAll "c" = .ok [.symbol "c"] ∧
      readAll ("'a . ;b" ++ "\n" ++ "c") =
        .ok [.list [.symbol "quote", .symbol "a"], .symbol ".", .symbol "c"] := by
  have hs : readAll "'a . ;b" = .ok [.list [.symbol "quote", .symbol "a"], .symbol "."] := by
    with_unfolding_all rfl
  have ht : readAll "c" = .ok [.symbol "c"] := by with_unfolding_all rfl
  exact ⟨hs, ht, readAll_append_line hs ht⟩

theorem read_of_readAll_nil {text : String} (H : readAll text = .ok []) :
    read text = .error .incomplete := by
  cases readAll_eq_ok_iff.1 H with
  | finish hs => exact read_eq_error_iff.2 (.inl ⟨_, run_of_skip_eq_nil hs.skip_eq, rfl⟩)

/-- A text that is wrong where its first datum should be is wrong for both readers. -/
theorem readAll_of_fault {text : String} {fault : Reader.Fault}
    (H : Reader.run .datum [] text.toList = .error fault) (hskip : Lexeme.skip text.toList ≠ []) :
    readAll text = .error (fault.toError text.toList) := by
  rw [readAll, Reader.all]
  split
  · next h => exact absurd h hskip
  · split
    · next h => cases H.symm.trans h
    · next h =>
      cases H.symm.trans h
      rfl

/-- On a text with one datum the two readers agree; otherwise the reader of one datum tells why:
there is none, there are more, or the text is wrong, as it is for the reader of all data. -/
theorem read_agrees_with_readAll (text : String) :
    (∀ d, read text = .ok d ↔ readAll text = .ok [d]) ∧
    (readAll text = .ok [] → read text = .error .incomplete) ∧
    (∀ d₁ d₂ ds, readAll text = .ok (d₁ :: d₂ :: ds) → ∃ o, read text = .error (.trailing o)) ∧
    ∀ e, read text = .error e → (∀ o, e ≠ .trailing o) →
      readAll text = .error e ∨ readAll text = .ok [] ∧ e = .incomplete := by
  refine ⟨fun d => ?_, read_of_readAll_nil, fun d₁ d₂ ds H => ?_, fun e H hne => ?_⟩
  · rw [readAll_eq_ok_iff, series_singleton_iff]
    exact ⟨denotes_of_read, read_of_denotes⟩
  · cases readAll_eq_ok_iff.1 H with
    | datum hd₁ H =>
      cases H with
      | datum hd₂ H =>
        have hrun := Reader.data_iff_run.1 hd₁
        exact ⟨_, read_eq_error_iff.2 (.inr ⟨d₁, _, hrun, hd₂.skip_ne_nil, rfl⟩)⟩
  · rcases read_eq_error_iff.1 H with ⟨fault, hrun, rfl⟩ | ⟨d, rest, -, -, rfl⟩
    · by_cases hskip : Lexeme.skip text.toList = []
      · have hnil : readAll text = .ok [] :=
          readAll_eq_ok_iff.2 (.finish (hskip ▸ separators_skip text.toList))
        have hincomplete := H.symm.trans (read_of_readAll_nil hnil)
        exact .inr ⟨hnil, Except.error.inj hincomplete⟩
      · exact .inl (readAll_of_fault hrun hskip)
    · exact absurd rfl (hne _)

end Datum
end ListPress
