import ListPress.Proofs.Numeral
import ListPress.Proofs.Unfolding

/-! # The reader accepts exactly its grammar

The reader is a machine over a stack of open forms, and the grammar a derivation tree. From a
derivation the run of the machine is computed form by form, for every stack (`run_of_data`). In the
other direction a state of the machine is read as a demand on the text that is left (`Expects`): one
step takes a demand to the demand of the next state, so a run that succeeds has met the demand of
its first state (`expects_of_run`). -/

namespace ListPress
namespace Reader
open Grammar List

/-! ## One step of a run -/

/-- What becomes of a step when `cs` is left of the text. -/
def resume (cs : List Char) : Step → Except Fault (Datum × List Char)
  | .done datum => .ok (datum, cs)
  | .stop fault => .error fault
  | .next mode stack => run mode stack cs

theorem run_eq (mode : Mode) (stack : List Frame) (cs : List Char) :
    run mode stack cs = resume (Lexeme.scan cs).rest (step (Lexeme.scan cs) mode stack) := by
  rw [run]
  split <;> next h => rw [h, resume]

theorem run_of_scans {cs : List Char} {lexeme : Lexeme} (H : Scans cs lexeme) (mode : Mode)
    (stack : List Frame) : run mode stack cs = resume lexeme.rest (step lexeme mode stack) := by
  rw [run_eq, H.scan_eq]

theorem dot_iff {cs : List Char} : Dot cs ↔ (Lexeme.scan cs).token = .word ['.'] := by
  constructor
  · rintro ⟨rest, hs, hb⟩
    rw [(Scans.dot hs hb).scan_eq]
  · intro H
    rcases scans_scan cs with hscan | ⟨position, hscan⟩
    · exact ⟨_, hscan.separators_dot H⟩
    · rw [H] at hscan
      cases hscan

theorem boundary_cons {c : Char} (hc : isDelimiter c) (cs : List Char) : Boundary (c :: cs) := by
  intro x hx
  cases hx
  exact hc

/-- In a list, the next token is not its dot. -/
def NoDot : List Frame → List Char → Prop
  | .items _ :: _, cs => ¬Dot cs
  | _, _ => True

theorem noDot_of_scans {cs : List Char} {lexeme : Lexeme} {stack : List Frame}
    (H : Scans cs lexeme) (h : lexeme.token ≠ .word ['.']) : NoDot stack cs := by
  unfold NoDot
  split
  · rw [dot_iff, H.scan_eq]
    exact h
  · trivial

/-- A token that is neither the end nor the dot of a list starts a datum. -/
theorem run_begin {cs : List Char} {lexeme : Lexeme} {stack : List Frame} (H : Scans cs lexeme)
    (hclosing : lexeme.token ≠ .closing) (hdot : NoDot stack cs) :
    run .datum stack cs = resume lexeme.rest (begin stack lexeme) := by
  rw [run_of_scans H]
  unfold step
  split
  · next h => cases h
  · split
    · next h => exact absurd h hclosing
    · next h => exact absurd (dot_iff.2 (H.scan_eq ▸ h)) hdot
    · rfl
  · rfl

/-! ## From the grammar to the reader -/

theorem closed_reverse {items : List Datum} (H : items ≠ []) :
    closed items.reverse = .list items := by
  cases h : items.reverse with
  | nil => exact absurd (reverse_eq_nil_iff.1 h) H
  | cons => rw [closed, ← h, reverse_reverse]; exact nofun

theorem dotted_reverse (items : List Datum) (t : Datum) :
    dotted items.reverse t = continued items t := by
  fun_cases continued items t <;> simp [dotted, Datum.consReverse_eq, Datum.chain_append, *]

section
variable {cs rest : List Char} {seen : List Datum} {stack : List Frame}

theorem run_closing (H : Separators cs (')' :: rest)) :
    run .datum (.items seen :: stack) cs = resume rest (deliver (closed seen) stack) := by
  rw [run_of_scans (.closing H), step]

theorem run_dot (H : Separators cs ('.' :: rest)) (hb : Boundary rest) (hseen : seen ≠ []) :
    run .datum (.items seen :: stack) cs = run .datum (.tail seen :: stack) rest := by
  rw [run_of_scans (.dot H hb), step]
  simp only [if_neg hseen, resume]

theorem run_close (H : Separators cs (')' :: rest)) (t : Datum) :
    run (.close seen t) stack cs = resume rest (deliver (dotted seen t) stack) := by
  rw [run_of_scans (.closing H), step]

theorem run_opening (H : Separators cs ('(' :: rest)) (hdepth : stack.length < maxReadDepth)
    (hdot : NoDot stack cs) : run .datum stack cs = run .datum (.items [] :: stack) rest := by
  rw [run_begin (.opening H) nofun hdot, begin, if_neg (Nat.not_le.2 hdepth), resume]

end

mutual
/-- The reader reads what the grammar derives, and hands it to the stack. -/
theorem run_of_data {depth : Nat} {cs rest : List Char} {d : Datum} :
    Data depth cs d rest → ∀ stack : List Frame, stack.length = depth → NoDot stack cs →
    run .datum stack cs = resume rest (deliver d stack)
  | .intro hdepth hs hd, stack, hstack, hdot => run_of_form hd hdepth hs stack hstack hdot

theorem run_of_form {depth : Nat} {start cs rest : List Char} {d : Datum} :
    Form depth start d rest → depth < maxReadDepth → Separators cs start →
    ∀ stack : List Frame, stack.length = depth → NoDot stack cs →
    run .datum stack cs = resume rest (deliver d stack)
  | .quote hd, hdepth, hs, stack, hstack, hdot => by
    rw [run_begin (.quote hs) nofun hdot, begin, if_neg (by omega), resume,
      run_of_data hd (.quote :: stack) (congrArg (· + 1) hstack) trivial, deliver, quoted]
  | .empty hclose, hdepth, hs, stack, hstack, hdot => by
    rw [run_opening hs (hstack ▸ hdepth) hdot, run_closing hclose, closed]
  | .list hitems hclose, hdepth, hs, stack, hstack, hdot => by
    rw [run_opening hs (hstack ▸ hdepth) hdot,
      run_of_items hitems [] stack (congrArg (· + 1) hstack), run_closing hclose, append_nil,
      closed_reverse hitems.ne_nil]
  | .dotted hitems hpoint hb ht hclose, hdepth, hs, stack, hstack, hdot => by
    rw [run_opening hs (hstack ▸ hdepth) hdot,
      run_of_items hitems [] stack (congrArg (· + 1) hstack), append_nil,
      run_dot hpoint hb (reverse_ne_nil_iff.2 hitems.ne_nil),
      run_of_data ht (.tail _ :: stack) (congrArg (· + 1) hstack) trivial, deliver, resume,
      run_close hclose, dotted_reverse]
  | .string hbody, hdepth, hs, stack, hstack, hdot => by
    rw [run_begin (.string hs hbody) nofun hdot, begin, if_neg (by omega)]
  | .word hw hb ha, hdepth, hs, stack, hstack, hdot => by
    rw [run_begin (.word hs hw hb) nofun hdot, begin, if_neg (by omega), ← word_iff.1 ha]

theorem run_of_items {depth : Nat} {cs rest : List Char} {items : List Datum} :
    Run depth cs items rest → ∀ (seen : List Datum) (stack : List Frame), stack.length + 1 = depth →
    run .datum (.items seen :: stack) cs =
      run .datum (.items (items.reverse ++ seen) :: stack) rest
  | .last hdot hd, seen, stack, hstack => by
    rw [run_of_data hd (.items seen :: stack) hstack hdot, deliver, resume]; rfl
  | .cons hdot hd hitems, seen, stack, hstack => by
    rw [run_of_data hd (.items seen :: stack) hstack hdot, deliver, resume,
      run_of_items hitems _ stack hstack, reverse_cons, append_assoc, singleton_append]
end

/-! ## From the reader to the grammar -/

/-- What is left of a list some of whose items have been read. -/
inductive ListRest (depth : Nat) : List Datum → List Char → Datum → List Char → Prop
  | close : Separators cs (')' :: rest) → ListRest depth seen cs (closed seen) rest
  | dot : seen ≠ [] → Separators cs ('.' :: cs₁) → Boundary cs₁ → Data depth cs₁ t cs₂ →
    Separators cs₂ (')' :: rest) → ListRest depth seen cs (dotted seen t) rest
  | item : ¬Dot cs → Data depth cs d cs' → ListRest depth (d :: seen) cs' e rest →
    ListRest depth seen cs e rest

section
variable {cs rest : List Char} {seen : List Datum}

/-- With the items before it, what is left of a list makes up the list. -/
theorem ListRest.form {depth : Nat} {start : List Char} {e : Datum}
    (H : ListRest (depth + 1) seen cs e rest)
    (hseen : seen = [] ∧ start = cs ∨ Run (depth + 1) start seen.reverse cs) :
    Form depth ('(' :: start) e rest := by
  induction H with
  | close hclose =>
    rcases hseen with ⟨rfl, rfl⟩ | hseen
    · exact .empty hclose
    · have := Form.list hseen hclose
      rwa [← closed_reverse hseen.ne_nil, reverse_reverse] at this
  | dot hne hpoint hb ht hclose =>
    rcases hseen with ⟨h, -⟩ | hseen
    · exact absurd h hne
    · have := Form.dotted hseen hpoint hb ht hclose
      rwa [← dotted_reverse, reverse_reverse] at this
  | item hdot hd _ ih =>
    refine ih (.inr ?_)
    rcases hseen with ⟨rfl, rfl⟩ | hseen
    · exact .last hdot hd
    · rw [reverse_cons]
      exact hseen.snoc hdot hd

end

/-- `Fills stack d cs e rest`: when the stack is handed `d` and `cs` is left of the text, then `cs`
goes on so that the outermost form becomes `e` and `rest` is left. -/
def Fills : List Frame → Datum → List Char → Datum → List Char → Prop
  | [], d, cs, e, rest => d = e ∧ cs = rest
  | .quote :: stack, d, cs, e, rest => Fills stack (quoted d) cs e rest
  | .items seen :: stack, d, cs, e, rest =>
    ∃ f cs', ListRest (stack.length + 1) (d :: seen) cs f cs' ∧ Fills stack f cs' e rest
  | .tail seen :: stack, d, cs, e, rest =>
    ∃ cs', Separators cs (')' :: cs') ∧ Fills stack (dotted seen d) cs' e rest

/-- What a state of the reader demands of the text that is left. -/
def Expects : Mode → List Frame → List Char → Datum → List Char → Prop
  | .close seen t, stack, cs, e, rest =>
    ∃ cs', Separators cs (')' :: cs') ∧ Fills stack (dotted seen t) cs' e rest
  | .datum, .items seen :: stack, cs, e, rest =>
    ∃ f cs', ListRest (stack.length + 1) seen cs f cs' ∧ Fills stack f cs' e rest
  | .datum, stack, cs, e, rest => ∃ d cs', Data stack.length cs d cs' ∧ Fills stack d cs' e rest

/-- What the state after a step demands. -/
def Leads (cs : List Char) (e : Datum) (rest : List Char) : Step → Prop
  | .done d => d = e ∧ cs = rest
  | .stop _ => False
  | .next mode stack => Expects mode stack cs e rest

variable {cs rest : List Char} {stack : List Frame} {mode : Mode} {e : Datum}

theorem leads_deliver_iff {d : Datum} :
    Leads cs e rest (deliver d stack) ↔ Fills stack d cs e rest := by
  fun_induction deliver d stack with
  | case1 | case3 | case4 => rfl
  | case2 d stack ih => exact ih

theorem begin_sound {lexeme : Lexeme} (hscan : Scans cs lexeme)
    (H : Leads lexeme.rest e rest (begin stack lexeme)) :
    ∃ d cs', Data stack.length cs d cs' ∧ Fills stack d cs' e rest := by
  rw [begin] at H
  split at H
  · cases H
  · next hdepth =>
    have hdepth := Nat.not_le.1 hdepth
    cases hscan with
    | finish | closing => cases H
    | opening hs =>
      obtain ⟨f, cs', hitems, hf⟩ := H
      exact ⟨f, cs', .intro hdepth hs (hitems.form (.inl ⟨rfl, rfl⟩)), hf⟩
    | quote hs =>
      obtain ⟨d, cs', hd, hf⟩ := H
      exact ⟨_, cs', .intro hdepth hs (.quote hd), hf⟩
    | string hs hbody =>
      exact ⟨_, _, .intro hdepth hs (.string hbody), leads_deliver_iff.1 H⟩
    | word hs hw hb =>
      exact ⟨_, _, .intro hdepth hs (.word hw hb (word_iff.2 rfl)), leads_deliver_iff.1 H⟩

theorem step_sound {lexeme : Lexeme} (hscan : Scans cs lexeme)
    (H : Leads lexeme.rest e rest (step lexeme mode stack)) : Expects mode stack cs e rest := by
  unfold step at H
  split at H
  · split at H
    · next h => exact ⟨_, hscan.separators_closing h, leads_deliver_iff.1 H⟩
    · cases H
  · split at H
    · next h => exact ⟨_, _, .close (hscan.separators_closing h), leads_deliver_iff.1 H⟩
    · next h =>
      obtain ⟨hs, hb⟩ := hscan.separators_dot h
      split at H
      · cases H
      · next hne =>
        obtain ⟨t, cs', ht, cs'', hclose, hf⟩ := H
        exact ⟨_, _, .dot hne hs hb ht hclose, hf⟩
    · next hdot =>
      obtain ⟨d, cs', hd, f, cs'', hitems, hf⟩ := begin_sound hscan H
      refine ⟨f, cs'', .item (fun h => hdot ?_) hd hitems, hf⟩
      rw [dot_iff, hscan.scan_eq] at h
      exact h
  · next hne => exact Expects.eq_3 _ _ _ _ hne ▸ begin_sound hscan H

/-- A run that succeeds has met the demand of its first state. -/
theorem expects_of_run (H : run mode stack cs = .ok (e, rest)) : Expects mode stack cs e rest := by
  -- one step: the demand of the next state comes back to this one
  have hstep {mode stack} {cs : List Char} :
      Leads (Lexeme.scan cs).rest e rest (step (Lexeme.scan cs) mode stack) →
      Expects mode stack cs e rest := by
    intro H
    rcases scans_scan cs with hscan | ⟨position, hscan⟩
    · exact step_sound hscan H
    · obtain ⟨fault, h⟩ := step_stop mode stack (.inr ⟨position, hscan⟩)
      rw [h] at H
      cases H
  fun_induction run mode stack cs with
  | case1 mode stack cs d h => cases H; exact hstep (h ▸ ⟨rfl, rfl⟩)
  | case2 => cases H
  | case3 mode stack cs mode' stack' h ih => exact hstep (h ▸ ih H)

/-- With nothing open around it, a datum is taken off the text as in the grammar. -/
theorem data_iff_run {d : Datum} : Data 0 cs d rest ↔ run .datum [] cs = .ok (d, rest) := by
  constructor
  · intro H
    exact run_of_data H [] rfl trivial
  · intro H
    obtain ⟨d, cs', hd, rfl, rfl⟩ := expects_of_run H
    exact hd

end Reader

/-- A text is read when a run over it succeeds and leaves only separators. -/
theorem Datum.read_iff_run {text : String} {d : Datum} : Datum.read text = .ok d ↔
    ∃ rest, Reader.run .datum [] text.toList = .ok (d, rest) ∧ Lexeme.skip rest = [] := by
  rw [Datum.read, Reader.datum]
  constructor
  · intro H
    split at H
    · cases H
    · next e rest h =>
      split at H
      · next hrest => cases H; exact ⟨rest, h, hrest⟩
      · cases H
  · rintro ⟨rest, h, hrest⟩
    simp only [h, hrest]

/-- A text is not read when the run over it fails, or when it leaves more than separators. -/
theorem Datum.read_eq_error_iff {text : String} {e : ReadError} : Datum.read text = .error e ↔
    (∃ fault, Reader.run .datum [] text.toList = .error fault ∧ e = fault.toError text.toList) ∨
    ∃ d rest, Reader.run .datum [] text.toList = .ok (d, rest) ∧ Lexeme.skip rest ≠ [] ∧
      e = .trailing (Reader.offset text.toList (Lexeme.skip rest)) := by
  rw [Datum.read, Reader.datum]
  constructor
  · intro H
    split at H
    · next fault h => cases H; exact .inl ⟨fault, h, rfl⟩
    · next d rest h =>
      split at H
      · cases H
      · next hrest => cases H; exact .inr ⟨d, rest, h, hrest, rfl⟩
  · rintro (⟨fault, h, rfl⟩ | ⟨d, rest, h, hrest, rfl⟩)
    · simp only [h]
    · simp only [h]

theorem Datum.denotes_of_read {text : String} {d : Datum} (H : Datum.read text = .ok d) :
    Grammar.Denotes text.toList d := by
  obtain ⟨rest, h, hrest⟩ := read_iff_run.1 H
  exact ⟨rest, Reader.data_iff_run.2 h, hrest ▸ Grammar.separators_skip rest⟩

theorem Datum.read_of_denotes {text : String} {d : Datum} (H : Grammar.Denotes text.toList d) :
    Datum.read text = .ok d := by
  obtain ⟨rest, hd, hrest⟩ := H
  exact read_iff_run.2 ⟨rest, Reader.data_iff_run.1 hd, hrest.skip_eq⟩

/-- Reading a text succeeds exactly when the text is one datum between separators, with what it
denotes. -/
theorem Datum.read_eq_ok_iff (text : String) (d : Datum) :
    Datum.read text = .ok d ↔ Grammar.Denotes text.toList d :=
  ⟨denotes_of_read, read_of_denotes⟩

end ListPress
