import ListPress.Proofs.Reading

/-! # What the reader looks ahead at

Of the text behind a token the reader looks at one character at most, to see whether a word ends
there. So the text behind what was read can be replaced by another one: behind separators
(`Separators.replace`), behind a token (`Scans.replace`), behind all steps of a run but the last one
(`Reader.exists_last_step`) and behind a datum (`Reader.run_replace`). -/

namespace ListPress
open List

namespace Grammar

/-! ## Separators -/

section
variable {cs rest gap after : List Char}

/-- The text does not go on with a space. -/
def Settled (rest : List Char) : Prop := ∀ c ∈ rest.head?, isSpace c = false

theorem settled_cons {c : Char} (hc : isSpace c = false) (rest : List Char) :
    Settled (c :: rest) := by
  intro x hx
  cases hx
  exact hc

theorem settled_skip (cs : List Char) : Settled (Lexeme.skip cs) := by
  intro c hc
  cases hskip : Lexeme.skip cs with
  | nil =>
    rw [hskip] at hc
    cases hc
  | cons x rest =>
    rw [hskip] at hc
    cases hc
    rw [Bool.eq_false_iff]
    intro hspace
    -- skipping once more would take this space off
    have htwice := (separators_skip cs).skip_eq
    rw [hskip, Lexeme.skip, Lexeme.skipFrom, if_pos hspace] at htwice
    have hle := Lexeme.skip_length_le rest
    rw [Lexeme.skip, ← htwice, length_cons] at hle
    omega

/-- A comment at the end of the text needs a line end behind it. Elsewhere its line end comes before
what follows the separators. -/
theorem LineEnd.replace (H : LineEnd (gap ++ rest)) (hrest : Settled rest)
    (hafter : rest = [] → LineEnd after) : LineEnd (gap ++ after) := by
  cases gap with
  | nil =>
    cases rest with
    | nil => exact hafter rfl
    | cons c rest =>
      have hc := hrest c rfl
      cases H <;> exact absurd hc (by decide)
  | cons c gap =>
    rw [cons_append] at H ⊢
    generalize htail : gap ++ rest = tail at H
    cases H with
    | lineFeed => exact .lineFeed
    | carriageReturn =>
      cases gap with
      | nil =>
        rw [nil_append] at htail
        subst htail
        exact absurd (hrest '\n' rfl) (by decide)
      | cons x gap =>
        cases htail
        exact .carriageReturn

theorem Separators.replace (H : Separators cs rest) (hrest : Settled rest) :
    ∃ gap, cs = gap ++ rest ∧
      ∀ after, (rest = [] → LineEnd after) → Separators (gap ++ after) after := by
  induction H with
  | none => exact ⟨[], rfl, fun after _ => .none⟩
  | @space c cs rest hc _ ih =>
    obtain ⟨gap, rfl, hgap⟩ := ih hrest
    exact ⟨c :: gap, rfl, fun after hafter => .space hc (hgap after hafter)⟩
  | @comment text cs rest ht hcs _ ih =>
    obtain ⟨gap, rfl, hgap⟩ := ih hrest
    refine ⟨';' :: (text ++ gap), by simp, fun after hafter => ?_⟩
    rw [cons_append, append_assoc]
    exact .comment ht (hcs.replace hrest hafter) (hgap after hafter)

/-- Anything can follow the character that separators end at. -/
theorem Separators.replace_cons {c : Char} (H : Separators cs (c :: rest))
    (hc : isSpace c = false) :
    ∃ part, cs = part ++ rest ∧ ∀ after, Separators (part ++ after) (c :: after) := by
  obtain ⟨gap, rfl, hgap⟩ := H.replace (settled_cons hc rest)
  refine ⟨gap ++ [c], append_cons gap c rest, fun after => ?_⟩
  rw [← append_cons]
  exact hgap _ fun h => absurd h (cons_ne_nil c rest)

/-- What the reader skips, and what can stand behind it. -/
theorem exists_gap (cs : List Char) :
    ∃ gap, cs = gap ++ Lexeme.skip cs ∧
      ∀ after, (Lexeme.skip cs = [] → LineEnd after) → Separators (gap ++ after) after :=
  (separators_skip cs).replace (settled_skip cs)

end

/-! ## Tokens -/

section
variable {cs rest part after : List Char}

theorem StringBody.replace {text : List Char} (H : StringBody cs text rest) :
    ∃ part, cs = part ++ rest ∧ ∀ after, StringBody (part ++ after) text after := by
  induction H with
  | @close rest => exact ⟨['"'], rfl, fun after => .close⟩
  | @escape c e cs text rest he _ ih =>
    obtain ⟨part, rfl, hpart⟩ := ih
    exact ⟨'\\' :: c :: part, rfl, fun after => .escape he (hpart after)⟩
  | @plain c cs text rest hq hb _ ih =>
    obtain ⟨part, rfl, hpart⟩ := ih
    exact ⟨c :: part, rfl, fun after => .plain hq hb (hpart after)⟩

theorem Boundary.replace (H : Boundary (part ++ rest)) (hafter : Boundary rest → Boundary after) :
    Boundary (part ++ after) := by
  cases part with
  | nil => exact hafter H
  | cons c part => exact H

/-- A token is found in front of every text before which a word would still end. -/
theorem Scans.replace {lexeme : Lexeme} (H : Scans cs lexeme) (htoken : lexeme.token ≠ .finish) :
    ∃ part, cs = part ++ lexeme.rest ∧ ∀ after, (Boundary lexeme.rest → Boundary after) →
      ∃ start, Scans (part ++ after) ⟨start, lexeme.token, after⟩ := by
  cases H with
  | finish => exact absurd rfl htoken
  | opening hs =>
    obtain ⟨part, hcs, hpart⟩ := hs.replace_cons (by decide)
    exact ⟨part, hcs, fun after _ => ⟨'(' :: after, .opening (hpart after)⟩⟩
  | closing hs =>
    obtain ⟨part, hcs, hpart⟩ := hs.replace_cons (by decide)
    exact ⟨part, hcs, fun after _ => ⟨')' :: after, .closing (hpart after)⟩⟩
  | quote hs =>
    obtain ⟨part, hcs, hpart⟩ := hs.replace_cons (by decide)
    exact ⟨part, hcs, fun after _ => ⟨'\'' :: after, .quote (hpart after)⟩⟩
  | string hs hbody =>
    obtain ⟨body, rfl, hstring⟩ := hbody.replace
    obtain ⟨part, rfl, hpart⟩ := hs.replace_cons (by decide)
    refine ⟨part ++ body, (append_assoc ..).symm, fun after _ => ⟨'"' :: (body ++ after), ?_⟩⟩
    rw [append_assoc]
    exact .string (hpart _) (hstring after)
  | @word w rest hs hw hb =>
    have hsettled : Settled (w ++ rest) := by
      cases w with
      | nil => exact absurd rfl hw.1
      | cons c w => exact settled_cons (not_mem_delimiters (hw.2 c mem_cons_self)).2.2.2.2.2 _
    obtain ⟨gap, rfl, hgap⟩ := hs.replace hsettled
    refine ⟨gap ++ w, (append_assoc gap w rest).symm, fun after hafter => ⟨w ++ after, ?_⟩⟩
    rw [append_assoc]
    refine .word (hgap _ fun h => ?_) hw (hafter hb)
    exact absurd (append_eq_nil_iff.1 h).1 hw.1

end

end Grammar

/-! ## Runs -/

namespace Reader
open Grammar

variable {mode : Mode} {stack : List Frame} {cs rest : List Char}

section
variable {start start' : List Char} {token : Token} {rest' : List Char}

theorem begin_eq_of_token (hbegin : ∀ fault, begin stack ⟨start, token, rest⟩ ≠ .stop fault) :
    begin stack ⟨start', token, rest'⟩ = begin stack ⟨start, token, rest⟩ := by
  unfold begin at hbegin ⊢
  split
  · rfl
  · next hdepth =>
    rw [if_neg hdepth] at hbegin
    cases token with
    | closing => exact absurd rfl (hbegin _)
    | opening | quote | string | word | fault | finish => rfl

/-- A step that goes on is decided by the token alone. -/
theorem step_eq_of_token (hstep : ∀ fault, step ⟨start, token, rest⟩ mode stack ≠ .stop fault) :
    step ⟨start', token, rest'⟩ mode stack = step ⟨start, token, rest⟩ mode stack := by
  revert hstep
  fun_cases step ⟨start, token, rest⟩ mode stack with
  | case1 seen t stack htoken | case3 seen stack htoken =>
    intro _
    cases htoken
    rfl
  | case5 seen stack htoken hseen =>
    intro _
    cases htoken
    exact if_neg hseen
  | case2 | case4 => exact fun hstep => absurd rfl (hstep _)
  | case6 seen stack hclosing hdot =>
    intro hstep
    rw [← begin_eq_of_token hstep, step]
    split
    · exact absurd ‹_› hclosing
    · exact absurd ‹_› hdot
    · rfl
  | case7 stack hitems =>
    intro hstep
    rw [← begin_eq_of_token hstep, step.eq_3 _ _ hitems]

end

/-- A step that goes on does so whatever follows the token. -/
theorem run_step (hstep : ∀ fault, step (Lexeme.scan cs) mode stack ≠ .stop fault) :
    ∃ part, cs = part ++ (Lexeme.scan cs).rest ∧
      ∀ after, (Boundary (Lexeme.scan cs).rest → Boundary after) →
        run mode stack (part ++ after) = resume after (step (Lexeme.scan cs) mode stack) := by
  rcases scans_scan cs with hscan | hfault
  · have htoken : (Lexeme.scan cs).token ≠ .finish := by
      intro h
      obtain ⟨fault, h⟩ := step_stop mode stack (.inl h)
      exact hstep fault h
    obtain ⟨part, hcs, hpart⟩ := hscan.replace htoken
    refine ⟨part, hcs, fun after hafter => ?_⟩
    obtain ⟨start, hscan'⟩ := hpart after hafter
    rw [run_of_scans hscan']
    exact congrArg (resume after) (step_eq_of_token hstep)
  · obtain ⟨fault, h⟩ := step_stop mode stack (.inr hfault)
    exact absurd h (hstep fault)

/-- The step that ends a run with this outcome. -/
def LastStep (mode : Mode) (stack : List Frame) (cs : List Char) :
    Except Fault (Datum × List Char) → Prop
  | .ok (d, rest) => step (Lexeme.scan cs) mode stack = .done d ∧ (Lexeme.scan cs).rest = rest
  | .error fault => step (Lexeme.scan cs) mode stack = .stop fault

/-- Every run comes to a last step, and it comes to the same state with another text behind what was
read before this step. -/
theorem exists_last_step (mode : Mode) (stack : List Frame) (cs : List Char) :
    ∃ part mode' stack' cs', cs = part ++ cs' ∧ LastStep mode' stack' cs' (run mode stack cs) ∧
      ∀ after, (Boundary cs' → Boundary after) →
        run mode stack (part ++ after) = run mode' stack' after := by
  fun_induction run mode stack cs with
  | case1 mode stack cs d h => exact ⟨[], mode, stack, cs, rfl, ⟨h, rfl⟩, fun after _ => rfl⟩
  | case2 mode stack cs fault h => exact ⟨[], mode, stack, cs, rfl, h, fun after _ => rfl⟩
  | case3 mode stack cs mode' stack' h ih =>
    obtain ⟨part, hcs, hpart⟩ := @run_step mode stack cs (by simp [h])
    obtain ⟨part', mode'', stack'', cs'', hcs', hlast, hrun⟩ := ih
    refine ⟨part ++ part', mode'', stack'', cs'', ?_, hlast, fun after hafter => ?_⟩
    · rw [append_assoc, ← hcs', ← hcs]
    · rw [append_assoc, hpart _ fun hb => (hcs' ▸ hb).replace hafter, h, resume, hrun after hafter]

/-- A datum is read whatever follows it, as long as a word before it would still end. -/
theorem run_replace {d : Datum} (H : run mode stack cs = .ok (d, rest)) :
    ∃ part, cs = part ++ rest ∧
      ∀ after, (Boundary rest → Boundary after) →
        run mode stack (part ++ after) = .ok (d, after) := by
  obtain ⟨part, mode', stack', cs', rfl, hlast, hrun⟩ := exists_last_step mode stack cs
  rw [H] at hlast
  obtain ⟨hstep, rfl⟩ := hlast
  obtain ⟨part', hcs', hpart⟩ := @run_step mode' stack' cs' (by simp [hstep])
  refine ⟨part ++ part', ?_, fun after hafter => ?_⟩
  · rw [append_assoc, ← hcs']
  · rw [append_assoc, hrun _ fun hb => (hcs' ▸ hb).replace hafter, hpart after hafter, hstep,
      resume]

end Reader
end ListPress
