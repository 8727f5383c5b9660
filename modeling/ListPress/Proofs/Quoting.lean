import Mathlib.Logic.Function.Iterate
import ListPress.Proofs.ViablePrefix

/-! # Reading behind a quote mark

Behind a quote mark everything is read one level deeper, and nothing else changes before the depth
limit is met: the reader takes the same steps with one more form open around them
(`Reader.step_inQuote`, `Reader.run_inQuote`). So a document with a quote mark in front of it is read
like the document itself (`Datum.readDocument_quote`). The depth at which the grammar derives a datum
is the number of quote marks in front of it (`Grammar.data_iff_run_quotes`), and it makes no difference
to what is derived (`Grammar.Data.unique`). -/

namespace ListPress
open List

namespace Reader
open Grammar

/-! ## Steps and runs -/

/-- The step of a reader that has read a quote mark before. -/
def Step.inQuote : Step → Step
  | .done d => .done (quoted d)
  | .next mode stack => .next mode (stack ++ [.quote])
  | .stop fault => .stop fault

theorem deliver_inQuote (d : Datum) (stack : List Frame) :
    deliver d (stack ++ [.quote]) = (deliver d stack).inQuote := by
  induction stack generalizing d with
  | nil => rfl
  | cons frame stack ih =>
    cases frame with
    | quote => exact ih (quoted d)
    | items | tail => rfl

theorem begin_inQuote (stack : List Frame) (lexeme : Lexeme) :
    begin (stack ++ [.quote]) lexeme = .stop .tooDeep ∨
      begin (stack ++ [.quote]) lexeme = (begin stack lexeme).inQuote := by
  by_cases hdepth : maxReadDepth ≤ (stack ++ [Frame.quote]).length
  · exact .inl (if_pos hdepth)
  · have hstack : ¬maxReadDepth ≤ stack.length := by
      rw [length_append] at hdepth
      omega
    apply Or.inr
    rw [begin, begin, if_neg hdepth, if_neg hstack]
    cases lexeme.token with
    | string | word => exact deliver_inQuote _ stack
    | opening | quote | closing | fault | finish => rfl

theorem step_inQuote (lexeme : Lexeme) (mode : Mode) (stack : List Frame) :
    step lexeme mode (stack ++ [.quote]) = .stop .tooDeep ∨
      step lexeme mode (stack ++ [.quote]) = (step lexeme mode stack).inQuote := by
  fun_cases step lexeme mode stack with
  | case1 seen t stack htoken =>
    apply Or.inr
    rw [step, htoken]
    exact deliver_inQuote _ stack
  | case2 seen t stack htoken =>
    apply Or.inr
    rw [step]
    split
    · next h => exact absurd h htoken
    · rfl
  | case3 seen stack htoken =>
    apply Or.inr
    rw [cons_append, step, htoken]
    exact deliver_inQuote _ stack
  | case4 stack htoken =>
    apply Or.inr
    rw [cons_append, step, htoken]
    rfl
  | case5 seen stack htoken hseen =>
    apply Or.inr
    rw [cons_append, step, htoken]
    exact if_neg hseen
  | case6 seen stack hclosing hdot =>
    rw [cons_append, step]
    split
    · next h => exact absurd h hclosing
    · next h => exact absurd h hdot
    · exact begin_inQuote (.items seen :: stack) lexeme
  | case7 stack hitems =>
    rw [step.eq_3]
    · exact begin_inQuote stack lexeme
    · intro seen stack' h
      cases stack with
      | nil => cases h
      | cons frame stack =>
        rw [cons_append] at h
        cases h
        exact hitems seen stack rfl

/-- A run behind a quote mark quotes the datum, unless it comes to the depth limit. -/
theorem run_inQuote (mode : Mode) (stack : List Frame) (cs : List Char) :
    run mode (stack ++ [.quote]) cs = .error .tooDeep ∨
      run mode (stack ++ [.quote]) cs =
        (run mode stack cs).map fun (d, rest) => (quoted d, rest) := by
  fun_induction run mode stack cs with
  | case1 mode stack cs d h | case2 mode stack cs fault h =>
    rcases step_inQuote (Lexeme.scan cs) mode stack with hstep | hstep
    · left
      rw [run_eq, hstep, resume]
    · right
      rw [run_eq, hstep, h]
      rfl
  | case3 mode stack cs mode' stack' h ih =>
    rcases step_inQuote (Lexeme.scan cs) mode stack with hstep | hstep
    · left
      rw [run_eq, hstep, resume]
    · rw [run_eq, hstep, h]
      exact ih

/-! ## The depth limit

Every open form has taken a parenthesis or a quote mark off the text. -/

/-- The marks that open a form. -/
def isOpening (c : Char) : Bool := c == '(' || c == '\''

/-- How many forms a token opens. -/
def opens : Token → Nat
  | .opening | .quote => 1
  | _ => 0

theorem suffix_of_separators {cs rest : List Char} (H : Separators cs rest) : rest <:+ cs := by
  induction H with
  | none => exact suffix_rfl
  | space _ _ ih => exact ih.trans (suffix_cons _ _)
  | @comment text cs rest _ _ _ ih =>
    exact (ih.trans (suffix_append text cs)).trans (suffix_cons _ _)

theorem countP_rest_le {cs : List Char} {lexeme : Lexeme} (H : Scans cs lexeme) :
    opens lexeme.token + lexeme.rest.countP isOpening ≤ cs.countP isOpening := by
  have hle {start : List Char} (hs : Separators cs start) :
      start.countP isOpening ≤ cs.countP isOpening :=
    (suffix_of_separators hs).sublist.countP_le
  cases H with
  | finish => exact Nat.zero_le _
  | opening hs | closing hs | quote hs =>
    simpa [opens, isOpening, countP_cons, Nat.add_comm] using hle hs
  | string hs hbody =>
    obtain ⟨part, rfl, -⟩ := hbody.replace
    have hstring := hle hs
    simp only [opens, countP_cons, countP_append] at hstring ⊢
    omega
  | word hs =>
    have hword := hle hs
    simp only [opens, countP_append] at hword ⊢
    omega

section
variable {mode mode' : Mode} {stack stack' : List Frame} {lexeme : Lexeme} {cs : List Char}

theorem length_le_of_deliver {d : Datum} (H : deliver d stack = .next mode' stack') :
    stack'.length ≤ stack.length := by
  fun_induction deliver d stack with
  | case1 => cases H
  | case2 d stack ih => exact Nat.le_succ_of_le (ih H)
  | case3 d seen stack =>
    cases H
    exact Nat.le_refl _
  | case4 d seen stack =>
    cases H
    exact Nat.le_succ _

theorem length_le_of_begin (H : begin stack lexeme = .next mode' stack') :
    stack'.length ≤ stack.length + opens lexeme.token := by
  unfold begin at H
  split at H
  · cases H
  · split at H
    · next htoken =>
      cases H
      rw [htoken]
      exact Nat.le_refl _
    · next htoken =>
      cases H
      rw [htoken]
      exact Nat.le_refl _
    · exact Nat.le_add_right_of_le (length_le_of_deliver H)
    · exact Nat.le_add_right_of_le (length_le_of_deliver H)
    · cases H
    · cases H
    · cases H

theorem length_le_of_step (H : step lexeme mode stack = .next mode' stack') :
    stack'.length ≤ stack.length + opens lexeme.token := by
  revert H
  fun_cases step lexeme mode stack with
  | case1 => exact fun H => Nat.le_add_right_of_le (length_le_of_deliver H)
  | case3 seen stack =>
    exact fun H => Nat.le_add_right_of_le (Nat.le_succ_of_le (length_le_of_deliver H))
  | case2 | case4 =>
    intro H
    cases H
  | case5 =>
    intro H
    cases H
    exact Nat.le_add_right _ _
  | case6 | case7 => exact length_le_of_begin

theorem le_length_of_tooDeep (H : step lexeme mode stack = .stop .tooDeep) :
    maxReadDepth ≤ stack.length := by
  have hbegin {stack : List Frame} (H : begin stack lexeme = .stop .tooDeep) :
      maxReadDepth ≤ stack.length := by
    unfold begin at H
    split at H
    · assumption
    · split at H
      · cases H
      · cases H
      · exact absurd H (deliver_ne_stop _ _ _)
      · exact absurd H (deliver_ne_stop _ _ _)
      · cases H
      · cases H
      · cases H
  revert H
  fun_cases step lexeme mode stack with
  | case1 | case3 => exact fun H => absurd H (deliver_ne_stop _ _ _)
  | case2 | case4 | case5 =>
    intro H
    cases H
  | case6 | case7 => exact hbegin

/-- A text that is too deep for the reader has a mark for every level. -/
theorem le_countP_of_tooDeep (H : run mode stack cs = .error .tooDeep) :
    maxReadDepth ≤ stack.length + cs.countP isOpening := by
  fun_induction run mode stack cs with
  | case1 => cases H
  | case2 mode stack cs fault h =>
    cases H
    exact Nat.le_add_right_of_le (le_length_of_tooDeep h)
  | case3 mode stack cs mode' stack' h ih =>
    have hlength := length_le_of_step h
    rcases scans_scan cs with hscan | hfault
    · have hcount := countP_rest_le hscan
      have hrest := ih H
      omega
    · obtain ⟨fault, hstop⟩ := step_stop mode stack (.inr hfault)
      cases h.symm.trans hstop

end

/-! ## Levels of quotes -/

theorem quoted_injective : Function.Injective quoted := by
  intro d d' h
  simpa [quoted] using h

theorem deliver_quotes (depth : Nat) (d : Datum) :
    deliver d (replicate depth .quote) = .done (quoted^[depth] d) := by
  induction depth generalizing d with
  | zero => rfl
  | succ depth ih => exact ih (quoted d)

end Reader

namespace Grammar
variable {depth depth' : Nat} {cs rest rest' : List Char} {d d' : Datum}

/-- A datum is derived at some depth if it is read behind as many quote marks. -/
theorem data_iff_run_quotes : Data depth cs d rest ↔
    Reader.run .datum (replicate depth .quote) cs = .ok (Reader.quoted^[depth] d, rest) := by
  have hdot : ∀ seen stack, replicate depth Reader.Frame.quote ≠ .items seen :: stack := by
    intro seen stack h
    cases depth <;> cases h
  constructor
  · intro H
    have hno : Reader.NoDot (replicate depth .quote) cs := by
      cases depth <;> exact trivial
    rw [Reader.run_of_data H _ length_replicate hno, Reader.deliver_quotes, Reader.resume]
  · intro H
    have hexpects := Reader.expects_of_run H
    rw [Reader.Expects.eq_3 _ _ _ _ hdot, length_replicate] at hexpects
    obtain ⟨d', cs', hd, hfills⟩ := hexpects
    rw [← Reader.leads_deliver_iff, Reader.deliver_quotes] at hfills
    obtain ⟨heq, rfl⟩ := hfills
    rwa [Reader.quoted_injective.iterate depth heq] at hd

theorem Data.shallower (H : Data (depth + 1) cs d rest) : Data depth cs d rest := by
  rw [data_iff_run_quotes, replicate_succ', Function.iterate_succ_apply'] at H
  rcases Reader.run_inQuote .datum (replicate depth .quote) cs with h | h
  · cases H.symm.trans h
  · rw [H] at h
    cases hrun : Reader.run .datum (replicate depth .quote) cs with
    | error fault =>
      rw [hrun] at h
      cases h
    | ok result =>
      rw [hrun] at h
      obtain ⟨e, rest'⟩ := result
      injection h with h
      obtain ⟨he, rfl⟩ := Prod.mk.inj h
      rw [data_iff_run_quotes, hrun, Reader.quoted_injective he]

theorem Data.mono (H : Data depth cs d rest) (hle : depth' ≤ depth) : Data depth' cs d rest := by
  induction hle with
  | refl => exact H
  | step _ ih => exact ih H.shallower

/-- What a text starts with does not depend on the depth. -/
theorem Data.unique (H : Data depth cs d rest) (H' : Data depth' cs d' rest') :
    d = d' ∧ rest = rest' := by
  have hrun := Reader.data_iff_run.1 (H.mono (Nat.zero_le depth))
  have hrun' := Reader.data_iff_run.1 (H'.mono (Nat.zero_le depth'))
  cases hrun.symm.trans hrun'
  exact ⟨rfl, rfl⟩

end Grammar

/-! ## Quoted documents -/

/-- The error as it is in a text with `n` more bytes in front. -/
def ReadError.moved (n : Nat) : ReadError → ReadError
  | .unexpected offset near => .unexpected (offset + n) near
  | .trailing offset => .trailing (offset + n)
  | .incomplete => .incomplete
  | .tooDeep => .tooDeep

namespace Reader

theorem offset_cons (c : Char) (part rest : List Char) :
    offset (c :: (part ++ rest)) rest = offset (part ++ rest) rest + c.utf8Size := by
  rw [← cons_append, offset_append, offset_append, String.ofList_cons, String.utf8ByteSize_append,
    String.utf8ByteSize_singleton, Nat.add_comm]

theorem toError_cons (c : Char) {cs : List Char} {fault : Fault} {mode : Mode} {stack : List Frame}
    (H : run mode stack cs = .error fault) :
    fault.toError (c :: cs) = (fault.toError cs).moved c.utf8Size := by
  cases fault with
  | tooDeep => rfl
  | stopped position =>
    obtain ⟨part, -, -, rfl, -⟩ := exists_completion H
    cases position with
    | nil => rfl
    | cons x position => simp only [Fault.toError, ReadError.moved, offset_cons]

end Reader

namespace Datum
open Grammar

/-- A text behind a quote mark is read as the text, with what it denotes quoted. -/
theorem read_quote (text : String) :
    read ("'" ++ text) = .error .tooDeep ∧ 255 ≤ text.toList.countP Reader.isOpening ∨
      read ("'" ++ text) = ((read text).map Reader.quoted).mapError (.moved 1) := by
  have htext : ("'" ++ text).toList = '\'' :: text.toList := by simp
  have hmark : Reader.run .datum [] ("'" ++ text).toList =
      Reader.run .datum ([] ++ [.quote]) text.toList := by
    rw [htext, Reader.run_of_scans (.quote .none)]
    rfl
  rcases Reader.run_inQuote .datum [] text.toList with h | h
  · have hcount := Reader.le_countP_of_tooDeep h
    rw [nil_append, length_singleton, maxReadDepth] at hcount
    exact .inl ⟨read_eq_error_iff.2 (.inl ⟨.tooDeep, hmark.trans h, rfl⟩), by omega⟩
  · apply Or.inr
    rw [h] at hmark
    cases hrun : Reader.run .datum [] text.toList with
    | error fault =>
      rw [hrun] at hmark
      rw [read_eq_error_iff.2 (.inl ⟨fault, hrun, rfl⟩),
        read_eq_error_iff.2 (.inl ⟨fault, hmark, rfl⟩), htext, Reader.toError_cons '\'' hrun]
      rfl
    | ok result =>
      obtain ⟨d, rest⟩ := result
      rw [hrun] at hmark
      by_cases hskip : Lexeme.skip rest = []
      · rw [read_iff_run.2 ⟨rest, hrun, hskip⟩, read_iff_run.2 ⟨rest, hmark, hskip⟩]
        rfl
      · obtain ⟨part, hpart, -⟩ := Reader.run_replace hrun
        obtain ⟨gap, hgap, -⟩ := exists_gap rest
        rw [hgap, ← append_assoc] at hpart
        rw [read_eq_error_iff.2 (.inr ⟨d, rest, hrun, hskip, rfl⟩),
          read_eq_error_iff.2 (.inr ⟨_, rest, hmark, hskip, rfl⟩), htext, hpart,
          Reader.offset_cons]
        rfl

/-- A document with a quote mark in front is read like the document itself, with the offsets of its
errors moved by the mark. It may be too deep behind the mark, but not with fewer than 255 marks of
its own that open a form. -/
theorem readDocument_quote (text : String) :
    readDocument ("'" ++ text) = .error .tooDeep ∧
        255 ≤ text.toList.countP Reader.isOpening ∨
      readDocument ("'" ++ text) = (read text).mapError (.moved 1) := by
  rcases read_quote text with ⟨h, hcount⟩ | h
  · rw [readDocument, h]
    exact .inl ⟨rfl, hcount⟩
  · rw [readDocument, h]
    cases read text with
    | error e => exact .inr rfl
    | ok d => exact .inr rfl

end Datum
end ListPress
