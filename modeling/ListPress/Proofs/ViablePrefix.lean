import ListPress.Proofs.Lookahead

/-! # The text before an error

A reader that stops has found nothing wrong with the text before the place where it stops: some text
completes it to one that is read. The completing text is the rest of a string literal or of a datum,
and then a parenthesis for every list that is still open (`Reader.closing`). -/

namespace ListPress
open List

namespace Grammar

/-! ## Tokens that go wrong -/

theorem first_start (cs : List Char) : (Lexeme.first cs).start = cs := by
  fun_cases Lexeme.first cs <;> rfl

theorem scan_start (cs : List Char) : (Lexeme.scan cs).start = Lexeme.skip cs := first_start _

theorem start_of_finish {cs : List Char} (H : (Lexeme.scan cs).token = .finish) :
    (Lexeme.scan cs).start = [] := by
  unfold Lexeme.scan at *
  revert H
  fun_cases Lexeme.first (Lexeme.skip cs) with
  | case1 => exact fun _ => rfl
  | case2 | case3 | case4 | case5 | case6 | case7 | case8 =>
    intro H
    cases H

/-- Up to the place where it goes wrong, a string literal can be completed. -/
theorem exists_stringBody_of_error {cs seen position : List Char}
    (H : Lexeme.stringBody cs seen = .error position) :
    ∃ part more text, cs = part ++ position ∧
      ∀ rest, StringBody (part ++ (more ++ rest)) text rest := by
  fun_induction Lexeme.stringBody cs seen with
  | case1 => cases H
  | case2 c cs seen e he ih =>
    obtain ⟨part, more, text, rfl, hbody⟩ := ih H
    have he := escape?_eq_some_iff.1 he
    exact ⟨'\\' :: c :: part, more, e :: text, rfl, fun rest => .escape he (hbody rest)⟩
  | case3 c cs seen =>
    cases H
    exact ⟨[], ['"'], [], rfl, fun rest => .close⟩
  -- the text ends after a backslash, which makes a quotation mark of the first one
  | case4 seen =>
    cases H
    exact ⟨['\\'], ['"', '"'], ['"'], rfl, fun rest => .escape .mark .close⟩
  | case5 c cs seen hq hesc hlast ih =>
    obtain ⟨part, more, text, rfl, hbody⟩ := ih H
    have hc := ne_backslash hesc hlast
    exact ⟨c :: part, more, c :: text, rfl, fun rest => .plain hq hc (hbody rest)⟩
  | case6 seen =>
    cases H
    exact ⟨[], ['"'], [], rfl, fun rest => .close⟩

/-- A fault is where a token should start, or in a string literal that can be completed. -/
theorem fault_cases {cs position : List Char} (H : (Lexeme.scan cs).token = .fault position) :
    position = Lexeme.skip cs ∨ ∃ part more text, part ≠ [] ∧ cs = part ++ position ∧
      ∀ rest, ∃ start, Scans (part ++ (more ++ rest)) ⟨start, .string text, rest⟩ := by
  obtain ⟨gap, hcs, hgap⟩ := exists_gap cs
  unfold Lexeme.scan at H
  generalize Lexeme.skip cs = start at *
  subst hcs
  revert H
  fun_cases Lexeme.first start with
  | case1 | case2 | case3 | case4 | case5 | case8 =>
    intro H
    cases H
  | case6 body position' herror =>
    intro H
    cases H
    obtain ⟨part, more, text, rfl, hbody⟩ := exists_stringBody_of_error herror
    refine .inr ⟨gap ++ '"' :: part, more, String.ofList text, by simp, by simp, fun rest => ?_⟩
    refine ⟨'"' :: (part ++ (more ++ rest)), ?_⟩
    rw [append_assoc, cons_append]
    exact .string (hgap _ fun h => absurd h (cons_ne_nil _ _)) (hbody rest)
  | case7 =>
    intro H
    cases H
    exact .inl rfl

end Grammar

namespace Reader
open Grammar

/-! ## Completing a text -/

/-- The text that closes the forms of a stack, once the innermost one has got its datum. -/
def closing : List Frame → List Char
  | [] => []
  | .quote :: stack => closing stack
  | .items _ :: stack | .tail _ :: stack => ')' :: closing stack

theorem resume_closing (d : Datum) (stack : List Frame) :
    ∃ e, resume (closing stack) (deliver d stack) = .ok (e, []) := by
  induction stack generalizing d with
  | nil => exact ⟨d, rfl⟩
  | cons frame stack ih =>
    cases frame with
    | quote => exact ih (quoted d)
    | items seen =>
      rw [deliver, resume, closing, run_closing .none]
      exact ih _
    | tail seen =>
      rw [deliver, resume, closing, run_close .none]
      exact ih _

section
variable {stack : List Frame} {cs : List Char}

theorem run_close_closing (H : Separators cs (')' :: closing stack)) (seen : List Datum)
    (t : Datum) : ∃ e, run (.close seen t) stack cs = .ok (e, []) := by
  rw [run_close H]
  exact resume_closing _ stack

theorem run_items_closing (H : Separators cs (')' :: closing stack)) (seen : List Datum) :
    ∃ e, run .datum (.items seen :: stack) cs = .ok (e, []) := by
  rw [run_closing H]
  exact resume_closing _ stack

/-- Where a datum is missing, an empty list will do. -/
theorem run_datum_closing (H : Separators cs ('(' :: ')' :: closing stack))
    (hdepth : stack.length < maxReadDepth) : ∃ e, run .datum stack cs = .ok (e, []) := by
  rw [run_opening H hdepth (noDot_of_scans (.opening H) nofun)]
  exact run_items_closing .none []

theorem run_string_closing {start : List Char} {text : String}
    (H : Scans cs ⟨start, .string text, closing stack⟩) (hdepth : stack.length < maxReadDepth) :
    ∃ e, run .datum stack cs = .ok (e, []) := by
  rw [run_begin H nofun (noDot_of_scans H nofun), begin, if_neg (Nat.not_le.2 hdepth)]
  exact resume_closing _ stack

end

/-! ## Where the reader stops -/

theorem deliver_ne_stop (d : Datum) (stack : List Frame) (fault : Fault) :
    deliver d stack ≠ .stop fault := by
  fun_induction deliver d stack with
  | case1 | case3 | case4 =>
    intro h
    cases h
  | case2 d stack ih => exact ih

/-- What the reader waits for where it stops: the end of a dotted list, of a list, or a datum, which
may have gone wrong inside a string literal. -/
inductive Stops (lexeme : Lexeme) : Mode → List Frame → List Char → Prop
  | close : Stops lexeme (.close seen t) stack lexeme.start
  | items : Stops lexeme .datum (.items seen :: stack) lexeme.start
  | datum : stack.length < maxReadDepth → Stops lexeme .datum stack lexeme.start
  | token : stack.length < maxReadDepth → lexeme.token = .fault position →
    Stops lexeme .datum stack position

variable {mode : Mode} {stack : List Frame} {cs position : List Char} {lexeme : Lexeme}

theorem stops_of_begin (hfinish : lexeme.token = .finish → lexeme.start = [])
    (H : begin stack lexeme = .stop (.stopped position)) : Stops lexeme .datum stack position := by
  unfold begin at H
  split at H
  · cases H
  · next hdepth =>
    have hdepth := Nat.not_le.1 hdepth
    split at H
    · cases H
    · cases H
    · exact absurd H (deliver_ne_stop _ _ _)
    · exact absurd H (deliver_ne_stop _ _ _)
    · next htoken =>
      cases H
      exact .token hdepth htoken
    · cases H
      exact .datum hdepth
    · next htoken =>
      cases H
      rw [← hfinish htoken]
      exact .datum hdepth

theorem stops_of_step (hfinish : lexeme.token = .finish → lexeme.start = [])
    (H : step lexeme mode stack = .stop (.stopped position)) :
    Stops lexeme mode stack position := by
  revert H
  fun_cases step lexeme mode stack with
  | case1 | case3 => exact fun H => absurd H (deliver_ne_stop _ _ _)
  | case2 =>
    intro H
    cases H
    exact .close
  | case4 =>
    intro H
    cases H
    exact .items
  | case5 =>
    intro H
    cases H
  | case6 | case7 => exact stops_of_begin hfinish

/-- Where the reader stops, the text before this place can go on so that the reader finishes. -/
theorem Stops.viable (H : Stops (Lexeme.scan cs) mode stack position) :
    ∃ part more e, cs = part ++ position ∧ (part = [] → Boundary more) ∧
      run mode stack (part ++ more) = .ok (e, []) := by
  obtain ⟨gap, hcs, hgap⟩ := exists_gap cs
  rw [← scan_start] at hcs
  -- a line feed ends what comes before, be it a word or a comment
  have hgap (after : List Char) : Separators (gap ++ '\n' :: after) after :=
    (hgap _ fun _ => .lineFeed).trans (.space (by simp) .none)
  have hline (after : List Char) : Boundary ('\n' :: after) := boundary_cons (by decide) after
  cases H with
  | close =>
    obtain ⟨e, he⟩ := run_close_closing (hgap _) _ _
    exact ⟨gap, _, e, hcs, fun _ => hline _, he⟩
  | items =>
    obtain ⟨e, he⟩ := run_items_closing (hgap _) _
    exact ⟨gap, _, e, hcs, fun _ => hline _, he⟩
  | datum hdepth =>
    obtain ⟨e, he⟩ := run_datum_closing (hgap _) hdepth
    exact ⟨gap, _, e, hcs, fun _ => hline _, he⟩
  | token hdepth htoken =>
    rcases fault_cases htoken with rfl | ⟨part, more, text, hpart, hcs, hscan⟩
    · obtain ⟨e, he⟩ := run_datum_closing (hgap _) hdepth
      exact ⟨gap, _, e, scan_start cs ▸ hcs, fun _ => hline _, he⟩
    · obtain ⟨start, hscan⟩ := hscan (closing stack)
      obtain ⟨e, he⟩ := run_string_closing hscan hdepth
      exact ⟨part, _, e, hcs, fun h => absurd h hpart, he⟩

/-- What was read before the reader stopped can be completed. -/
theorem exists_completion (H : run mode stack cs = .error (.stopped position)) :
    ∃ part more e, cs = part ++ position ∧ run mode stack (part ++ more) = .ok (e, []) := by
  obtain ⟨part, mode', stack', cs', rfl, hlast, hrun⟩ := exists_last_step mode stack cs
  rw [H] at hlast
  obtain ⟨part', more, e, hcs', hmore, he⟩ := (stops_of_step start_of_finish hlast).viable
  refine ⟨part ++ part', more, e, by rw [append_assoc, ← hcs'], ?_⟩
  rw [append_assoc, hrun, he]
  intro hb
  cases part' with
  | nil => exact hmore rfl
  | cons c part' =>
    rw [hcs'] at hb
    exact hb

/-! ## Offsets -/

theorem utf8Length_eq (cs : List Char) : utf8Length cs = (String.ofList cs).utf8ByteSize := by
  have hfrom (n : Nat) : cs.foldl (fun n c => n + c.utf8Size) n =
      n + (String.ofList cs).utf8ByteSize := by
    induction cs generalizing n with
    | nil => rfl
    | cons c cs ih =>
      rw [foldl_cons, ih, String.ofList_cons, String.utf8ByteSize_append,
        String.utf8ByteSize_singleton, Nat.add_assoc]
  rw [utf8Length, hfrom, Nat.zero_add]

/-- The offset of what is left of a text is the size of the text before it. -/
theorem offset_append (part rest : List Char) :
    offset (part ++ rest) rest = (String.ofList part).utf8ByteSize := by
  rw [offset, utf8Length_eq, utf8Length_eq, String.ofList_append, String.utf8ByteSize_append,
    Nat.add_sub_cancel]

theorem Fault.toError_ne_trailing (fault : Fault) (text : List Char) (o : Nat) :
    fault.toError text ≠ .trailing o := by
  unfold Fault.toError
  split <;> simp

theorem Fault.toError_eq_unexpected {fault : Fault} {text : List Char} {o : Nat} {near : String}
    (H : fault.toError text = .unexpected o near) :
    ∃ position, fault = .stopped position ∧ position ≠ [] ∧ offset text position = o ∧
      String.ofList (position.take 10) = near := by
  unfold Fault.toError at H
  split at H
  · cases H
  · cases H
  · next position hne =>
    cases H
    exact ⟨position, rfl, hne, rfl, rfl⟩

theorem Fault.eq_of_toError_incomplete {fault : Fault} {text : List Char}
    (H : fault.toError text = .incomplete) : fault = .stopped [] := by
  unfold Fault.toError at H
  split at H
  · cases H
  · rfl
  · cases H

end Reader

namespace Datum
open Grammar

variable {text : String}

theorem viable_of_stopped {position : List Char}
    (H : Reader.run .datum [] text.toList = .error (.stopped position)) :
    ∃ before, text = before ++ String.ofList position ∧
      before.utf8ByteSize = Reader.offset text.toList position ∧
      ∃ more d, read (before ++ more) = .ok d := by
  obtain ⟨part, more, d, hcs, hrun⟩ := Reader.exists_completion H
  refine ⟨String.ofList part, ?_, ?_, String.ofList more, d, ?_⟩
  · rw [← String.ofList_append, ← hcs, String.ofList_toList]
  · rw [hcs, Reader.offset_append]
  · refine read_iff_run.2 ⟨[], ?_, rfl⟩
    rw [String.toList_append, String.toList_ofList, String.toList_ofList]
    exact hrun

theorem read_before_trailing {d : Datum} {rest : List Char}
    (H : Reader.run .datum [] text.toList = .ok (d, rest)) (hrest : Lexeme.skip rest ≠ []) :
    ∃ before, text = before ++ String.ofList (Lexeme.skip rest) ∧
      before.utf8ByteSize = Reader.offset text.toList (Lexeme.skip rest) ∧
      read before = .ok d := by
  obtain ⟨part, hcs, hrun⟩ := Reader.run_replace H
  obtain ⟨gap, hgap, hseparators⟩ := exists_gap rest
  have hcs : text.toList = part ++ gap ++ Lexeme.skip rest := by rw [append_assoc, ← hgap, hcs]
  refine ⟨String.ofList (part ++ gap), ?_, ?_, ?_⟩
  · rw [← String.ofList_append, ← hcs, String.ofList_toList]
  · rw [hcs, Reader.offset_append]
  · refine read_iff_run.2 ⟨gap, ?_, ?_⟩
    · rw [String.toList_ofList]
      apply hrun
      intro hb
      rw [hgap] at hb
      have hb : Boundary (gap ++ []) := hb.replace fun _ => by simp [Boundary]
      rwa [append_nil] at hb
    · have := (hseparators [] fun h => absurd h hrest).skip_eq
      rwa [append_nil] at this

/-- The text before the offset of an error is the beginning of a text that can be read: where there
is more after a datum, the text before it is read itself, where something unexpected comes, the text
before it can be completed, and where the text ends too early, all of it can be completed. -/
theorem read_before_error (text : String) :
    (∀ o, read text = .error (.trailing o) →
      ∃ before rest, text = before ++ rest ∧ before.utf8ByteSize = o ∧
        ∃ d, read before = .ok d) ∧
    (∀ o near, read text = .error (.unexpected o near) →
      ∃ before rest, text = before ++ rest ∧ before.utf8ByteSize = o ∧
        ∃ more d, read (before ++ more) = .ok d) ∧
    (read text = .error .incomplete → ∃ more d, read (text ++ more) = .ok d) := by
  refine ⟨fun o H => ?_, fun o near H => ?_, fun H => ?_⟩
  · rcases read_eq_error_iff.1 H with ⟨fault, -, h⟩ | ⟨d, rest, hrun, hrest, h⟩
    · exact absurd h.symm (fault.toError_ne_trailing _ o)
    · cases h
      obtain ⟨before, htext, hsize, hread⟩ := read_before_trailing hrun hrest
      exact ⟨before, _, htext, hsize, d, hread⟩
  · rcases read_eq_error_iff.1 H with ⟨fault, hrun, h⟩ | ⟨d, rest, -, -, h⟩
    · obtain ⟨position, rfl, -, rfl, -⟩ := Reader.Fault.toError_eq_unexpected h.symm
      obtain ⟨before, htext, hsize, hread⟩ := viable_of_stopped hrun
      exact ⟨before, _, htext, hsize, hread⟩
    · cases h
  · rcases read_eq_error_iff.1 H with ⟨fault, hrun, h⟩ | ⟨d, rest, -, -, h⟩
    · obtain rfl := Reader.Fault.eq_of_toError_incomplete h.symm
      obtain ⟨before, htext, -, hread⟩ := viable_of_stopped hrun
      rw [String.ofList_nil, String.append_empty] at htext
      rw [htext]
      exact hread
    · cases h

/-- Behind the quoted end of a dotted list, a comment that a lone carriage return makes none. -/
theorem read_before_error_comment :
    read "(a . 'b;\r)" = .error (.unexpected 7 ";\r)") ∧
      ∃ before rest, "(a . 'b;\r)" = before ++ rest ∧ before.utf8ByteSize = 7 ∧
        ∃ more d, read (before ++ more) = .ok d := by
  have hread : read "(a . 'b;\r)" = .error (.unexpected 7 ";\r)") := by with_unfolding_all rfl
  exact ⟨hread, (read_before_error _).2.1 _ _ hread⟩

end Datum
end ListPress
