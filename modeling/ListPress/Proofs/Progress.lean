import Mathlib.Logic.Relation
import Mathlib.Order.WellFounded
import ListPress.Proofs.Series

/-! # The reader moves forward

A step of the reader that goes on takes characters off the text (`Reader.State.Advances.shorter`),
and a step that stops does so at a place in the text (`Reader.State.place_suffix`). So every run
comes to an end, and the offset of an error lies on a character of the text it was found in
(`Datum.reading_moves_forward`). -/

namespace ListPress
open List

namespace Reader
open Grammar

/-! ## Steps -/

/-- What the reader waits for, the forms that are open, and the text that is left. The number of
open forms is the depth. -/
structure State where
  mode : Mode
  stack : List Frame
  text : List Char

namespace State

def step (s : State) : Step := Reader.step (Lexeme.scan s.text) s.mode s.stack

def run (s : State) : Except Fault (Datum × List Char) := Reader.run s.mode s.stack s.text

/-- The reader goes on from the first state to the second one. -/
structure Advances (s s' : State) : Prop where
  step : s.step = .next s'.mode s'.stack
  text : s'.text = (Lexeme.scan s.text).rest

/-- Where a fault lies that stops the reader here. A datum that is too deep is not looked at, and in
a list the separators before it have been skipped already. -/
def place (s : State) : Fault → List Char
  | .stopped position => position
  | .tooDeep =>
    match s.stack with
    | .items _ :: _ => Lexeme.skip s.text
    | _ => s.text

variable {s s' : State} {fault : Fault} {d : Datum} {rest : List Char}

theorem Advances.shorter (H : s.Advances s') :
    s'.text <:+ s.text ∧ s'.text.length < s.text.length := by
  have hstep (fault : Fault) : Reader.step (Lexeme.scan s.text) s.mode s.stack ≠ .stop fault := by
    intro hstop
    cases H.step.symm.trans hstop
  obtain ⟨part, hpart, -⟩ := run_step hstep
  rw [H.text]
  exact ⟨⟨part, hpart.symm⟩, scan_rest_lt_of_step s.mode s.stack hstep⟩

theorem place_suffix (H : s.step = .stop fault) : s.place fault <:+ s.text := by
  cases fault with
  | stopped position =>
    obtain ⟨part, -, -, hpart, -⟩ := (stops_of_step start_of_finish H).viable
    exact ⟨part, hpart.symm⟩
  | tooDeep =>
    rw [place]
    split
    · exact suffix_of_separators (separators_skip s.text)
    · exact suffix_rfl

/-! ## Runs -/

/-- The reader comes from the first state to the second one. -/
abbrev Reaches : State → State → Prop := Relation.ReflTransGen Advances

/-- The same over at least one step. -/
abbrev ReachesLater : State → State → Prop := Relation.TransGen Advances

theorem ReachesLater.shorter (H : s.ReachesLater s') :
    s'.text <:+ s.text ∧ s'.text.length < s.text.length := by
  induction H with
  | single hstep => exact hstep.shorter
  | tail _ hstep ih =>
    exact ⟨hstep.shorter.1.trans ih.1, Nat.lt_trans hstep.shorter.2 ih.2⟩

theorem Reaches.suffix (H : s.Reaches s') : s'.text <:+ s.text := by
  rcases Relation.reflTransGen_iff_eq_or_transGen.1 H with rfl | H
  · exact suffix_rfl
  · exact (ReachesLater.shorter H).1

theorem shorter_of_run (H : s.run = .ok (d, rest)) :
    rest <:+ s.text ∧ rest.length < s.text.length := by
  obtain ⟨part, hpart, -⟩ := run_replace H
  exact ⟨⟨part, hpart.symm⟩, run_rest_lt H⟩

/-- A run that fails comes to a state in which the reader stops with the fault. -/
theorem exists_stop (H : s.run = .error fault) : ∃ s', s.Reaches s' ∧ s'.step = .stop fault := by
  obtain ⟨mode, stack, cs⟩ := s
  unfold run at H
  dsimp only at H
  fun_induction Reader.run mode stack cs with
  | case1 => cases H
  | case2 mode stack cs fault' h =>
    cases H
    exact ⟨⟨mode, stack, cs⟩, .refl, h⟩
  | case3 mode stack cs mode' stack' h ih =>
    have hstep : Advances ⟨mode, stack, cs⟩ ⟨mode', stack', (Lexeme.scan cs).rest⟩ := ⟨h, rfl⟩
    obtain ⟨s', hreaches, hstop⟩ := ih H
    exact ⟨s', hreaches.head hstep, hstop⟩

theorem exists_place (H : s.run = .error fault) :
    ∃ s', s.Reaches s' ∧ s'.step = .stop fault ∧ s'.place fault <:+ s.text := by
  obtain ⟨s', hreaches, hstop⟩ := exists_stop H
  exact ⟨s', hreaches, hstop, (place_suffix hstop).trans hreaches.suffix⟩

theorem suffix_of_stopped {position : List Char} (H : s.run = .error (.stopped position)) :
    position <:+ s.text := by
  obtain ⟨s', -, -, hplace⟩ := exists_place H
  exact hplace

end State

/-- A text cannot get shorter for ever. -/
theorem exists_le_length (rests : Nat → List Char) :
    ∃ i, (rests i).length ≤ (rests (i + 1)).length := by
  obtain ⟨i, hi⟩ := WellFounded.not_rel_apply_succ (r := (· < ·)) fun i => (rests i).length
  exact ⟨i, Nat.not_lt.1 hi⟩

/-! ## Offsets -/

theorem offset_add_utf8Length {text rest : List Char} (H : rest <:+ text) :
    offset text rest + utf8Length rest = utf8Length text := by
  obtain ⟨part, rfl⟩ := H
  rw [offset_append, utf8Length_eq, utf8Length_eq, String.ofList_append,
    String.utf8ByteSize_append]

/-- The faults of the reader of all data are those of a run from a later place in the text. -/
theorem exists_run_of_all {text cs : List Char} {seen : List Datum} {e : ReadError}
    (H : all text cs seen = .error e) :
    ∃ rest fault, rest <:+ cs ∧ run .datum [] rest = .error fault ∧ e = fault.toError text := by
  fun_induction all text cs seen with
  | case1 => cases H
  | case2 cs seen d rest h hskip ih =>
    obtain ⟨rest', fault, hrest', hfault, he⟩ := ih H
    have hrest : rest <:+ cs := (State.shorter_of_run (s := ⟨.datum, [], cs⟩) h).1
    exact ⟨rest', fault, hrest'.trans hrest, hfault, he⟩
  | case3 cs seen fault h hskip =>
    cases H
    exact ⟨cs, fault, suffix_rfl, h, rfl⟩

end Reader

namespace Datum
open Grammar

/-- The offset lies on a character of the text, and `rest` is the text from this character on. -/
structure Locates (text : String) (o : Nat) (rest : String) : Prop where
  split : ∃ before, text = before ++ rest ∧ before.utf8ByteSize = o
  boundary : String.Pos.Raw.IsValid text ⟨o⟩
  size : o + rest.utf8ByteSize = text.utf8ByteSize
  lt : o < text.utf8ByteSize

variable {text : String} {o : Nat} {near : String}

theorem locates_of_suffix {position : List Char} (H : position <:+ text.toList)
    (hne : position ≠ []) :
    Locates text (Reader.offset text.toList position) (String.ofList position) := by
  obtain ⟨part, hpart⟩ := H
  have htext : text = String.ofList part ++ String.ofList position := by
    rw [← String.ofList_append, hpart, String.ofList_toList]
  have hpos : 0 < (String.ofList position).utf8ByteSize := by
    apply Nat.pos_of_ne_zero
    rw [ne_eq, String.utf8ByteSize_eq_zero_iff, String.ofList_eq_empty_iff]
    exact hne
  rw [← hpart, Reader.offset_append]
  refine ⟨⟨_, htext, rfl⟩, ?_, ?_, ?_⟩
  · exact String.Pos.Raw.isValid_iff_exists_append.2 ⟨_, _, htext, rfl⟩
  · rw [htext, String.utf8ByteSize_append]
  · rw [htext, String.utf8ByteSize_append]
    omega

/-- A fault of a run over the rest of a text is located in the text. -/
theorem locates_of_fault {rest : List Char} {fault : Reader.Fault} (hrest : rest <:+ text.toList)
    (hrun : Reader.run .datum [] rest = .error fault)
    (H : fault.toError text.toList = .unexpected o near) :
    ∃ rest, Locates text o rest ∧ near = String.ofList (rest.toList.take 10) := by
  obtain ⟨position, rfl, hne, rfl, rfl⟩ := Reader.Fault.toError_eq_unexpected H
  have hsuffix := Reader.State.suffix_of_stopped (s := ⟨.datum, [], rest⟩) hrun
  refine ⟨_, locates_of_suffix (hsuffix.trans hrest) hne, ?_⟩
  rw [String.toList_ofList]

theorem locates_of_read (H : read text = .error (.unexpected o near)) :
    ∃ rest, Locates text o rest ∧ near = String.ofList (rest.toList.take 10) := by
  rcases read_eq_error_iff.1 H with ⟨fault, hrun, h⟩ | ⟨d, rest, -, -, h⟩
  · exact locates_of_fault suffix_rfl hrun h.symm
  · cases h

theorem locates_of_readAll (H : readAll text = .error (.unexpected o near)) :
    ∃ rest, Locates text o rest ∧ near = String.ofList (rest.toList.take 10) := by
  obtain ⟨rest, fault, hrest, hrun, h⟩ := Reader.exists_run_of_all H
  exact locates_of_fault hrest hrun h.symm

theorem locates_of_trailing (H : read text = .error (.trailing o)) :
    ∃ rest, Locates text o rest := by
  rcases read_eq_error_iff.1 H with ⟨fault, -, h⟩ | ⟨d, rest, hrun, hskip, h⟩
  · exact absurd h.symm (fault.toError_ne_trailing _ o)
  · cases h
    have hrest := (Reader.State.shorter_of_run (s := ⟨.datum, [], text.toList⟩) hrun).1
    have hsuffix := (Reader.suffix_of_separators (separators_skip rest)).trans hrest
    exact ⟨_, locates_of_suffix hsuffix hskip⟩

theorem readAll_ne_trailing (text : String) (o : Nat) : readAll text ≠ .error (.trailing o) := by
  intro H
  obtain ⟨rest, fault, -, -, h⟩ := Reader.exists_run_of_all H
  exact absurd h.symm (fault.toError_ne_trailing _ o)

/-- Whatever forms are open and however many, all that is read is taken off the front of the text,
and the reader stops at a place in the text. So no step can be followed by others for ever, and no
datum by other data. An error that is found by either reader has the offset of a character of the
text, and is reported with the ten characters from there on, or with all if there are fewer. -/
theorem reading_moves_forward :
    (∀ s s' : Reader.State, s.ReachesLater s' →
      s'.text <:+ s.text ∧ s'.text.length < s.text.length) ∧
    (∀ (s : Reader.State) d rest, s.run = .ok (d, rest) →
      rest <:+ s.text ∧ rest.length < s.text.length) ∧
    (∀ (s : Reader.State) fault, s.run = .error fault →
      ∃ s', s.Reaches s' ∧ s'.step = .stop fault ∧ s'.place fault <:+ s.text ∧
        Reader.offset s.text (s'.place fault) + Reader.utf8Length (s'.place fault) =
          Reader.utf8Length s.text) ∧
    (¬ ∃ states : Nat → Reader.State, ∀ i, (states i).Advances (states (i + 1))) ∧
    (¬ ∃ rests : Nat → List Char, ∀ i, ∃ d, Reader.datum (rests i) = .ok (d, rests (i + 1))) ∧
    (∀ text o near, read text = .error (.unexpected o near) ∨
        readAll text = .error (.unexpected o near) →
      ∃ rest, Locates text o rest ∧ near = String.ofList (rest.toList.take 10)) ∧
    ∀ text o, read text = .error (.trailing o) ∨ readAll text = .error (.trailing o) →
      ∃ rest, Locates text o rest := by
  refine ⟨fun s s' => Reader.State.ReachesLater.shorter,
    fun s d rest => Reader.State.shorter_of_run, fun s fault H => ?_, ?_, ?_,
    fun text o near H => H.elim locates_of_read locates_of_readAll, fun text o H => ?_⟩
  · obtain ⟨s', hreaches, hstop, hplace⟩ := Reader.State.exists_place H
    exact ⟨s', hreaches, hstop, hplace, Reader.offset_add_utf8Length hplace⟩
  · rintro ⟨states, hstates⟩
    obtain ⟨i, hle⟩ := Reader.exists_le_length fun i => (states i).text
    exact Nat.not_lt.2 hle (hstates i).shorter.2
  · rintro ⟨rests, hrests⟩
    obtain ⟨i, hle⟩ := Reader.exists_le_length rests
    obtain ⟨d, hd⟩ := hrests i
    exact Nat.not_lt.2 hle (Reader.run_rest_lt hd)
  · exact locates_of_trailing (H.resolve_right (readAll_ne_trailing text o))

/-- Characters of two and four bytes before and at the places of the errors. -/
theorem reading_moves_forward_bytes :
    read "(é . ü 😀)" = .error (.unexpected 9 "😀)") ∧
      (∃ rest, Locates "(é . ü 😀)" 9 rest ∧ "😀)" = String.ofList (rest.toList.take 10)) ∧
      readAll "é ü)" = .error (.unexpected 5 ")") ∧
      (∃ rest, Locates "é ü)" 5 rest ∧ ")" = String.ofList (rest.toList.take 10)) ∧
      read "é ü" = .error (.trailing 3) ∧ ∃ rest, Locates "é ü" 3 rest := by
  have hdotted : read "(é . ü 😀)" = .error (.unexpected 9 "😀)") := by with_unfolding_all rfl
  have hclosing : readAll "é ü)" = .error (.unexpected 5 ")") := by with_unfolding_all rfl
  have hmore : read "é ü" = .error (.trailing 3) := by with_unfolding_all rfl
  obtain ⟨-, -, -, -, -, hunexpected, htrailing⟩ := reading_moves_forward
  exact ⟨hdotted, hunexpected _ _ _ (.inl hdotted), hclosing, hunexpected _ _ _ (.inr hclosing),
    hmore, htrailing _ _ (.inl hmore)⟩

end Datum
end ListPress
