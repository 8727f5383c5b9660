import ListPress.Text.Reference

/-! # What texts with variable references stand for

A text is divided into references and the literals around them in exactly one way (`Division`),
since no reference may start inside a literal. The text has the values in place of the references,
and where the whole is `--NAME` then, it stands for the value of the name
(`resolveVars_of_division`). A text that is one reference is an exception: its value is not looked
at again, which matters just when the value is `--NAME` (`resolveVars_written`). -/

namespace ListPress
namespace Reference
open List

/-! ## References and literals -/

/-- What can stand between the parentheses of a reference. -/
def IsName (name : List Char) : Prop := name ≠ [] ∧ ')' ∉ name

def written (name : List Char) : List Char := ['v', 'a', 'r', '('] ++ name ++ [')']

/-- A reference starts where the text starts. -/
def Starts (cs : List Char) : Prop := ∃ name, IsName name ∧ written name <+: cs

/-- No reference starts inside a literal that is followed by `after`. -/
def Quiet (literal after : List Char) : Prop :=
  ∀ cs, cs ≠ [] → cs <:+ literal → ¬ Starts (cs ++ after)

/-- The text of references and the literals after them, `text` being what is put for a reference. -/
def fill (text : List Char → List Char) (pieces : List (List Char × List Char)) : List Char :=
  pieces.flatMap fun piece => text piece.1 ++ piece.2

/-- A text as a literal, then names of references with the literals after them. -/
@[ext]
structure Division (cs : List Char) where
  lead : List Char
  pieces : List (List Char × List Char)
  text_eq : lead ++ fill written pieces = cs
  names : ∀ piece ∈ pieces, IsName piece.1
  lead_quiet : Quiet lead (fill written pieces)
  quiet : ∀ piece later, piece :: later <:+ pieces → Quiet piece.2 (fill written later)

/-- The text with the values of bound names in place of their references. -/
def Division.output (d : Division cs) (vars : Bindings) : List Char :=
  d.lead ++
    fill (fun name => (vars (String.ofList name)).elim (written name) String.toList) d.pieces

/-- What can follow the dashes of a text `--NAME`. -/
def IsDashed (name : List Char) : Prop :=
  name ≠ [] ∧ ∀ c ∈ name, c.isAlphanum ∨ c = '_' ∨ c = '-'

/-- A text stands for the value of a bound name if it is `--NAME`, and otherwise for itself. -/
inductive StandsFor (vars : Bindings) (cs : List Char) : String → Prop
  | value : cs = '-' :: '-' :: name → IsDashed name → vars (String.ofList name) = some text →
    StandsFor vars cs text
  | self : (∀ name, cs = '-' :: '-' :: name → IsDashed name → vars (String.ofList name) = none) →
    StandsFor vars cs (String.ofList cs)

/-! ## Where a reference starts -/

section
variable {cs rest name : List Char}

theorem start?_eq_some_iff :
    start? cs = some (name, rest) ↔ IsName name ∧ cs = written name ++ rest := by
  constructor
  · intro H
    unfold start? at H
    split at H
    · next body =>
      split at H
      · next first more _ htake hdrop =>
        cases H
        have hbody := takeWhile_append_dropWhile (p := (· != ')')) (l := body)
        rw [htake, hdrop] at hbody
        refine ⟨⟨cons_ne_nil first more, fun hmem => ?_⟩, by simp [written, ← hbody]⟩
        rw [← htake] at hmem
        simpa using all_eq_true.1 (all_takeWhile (l := body)) _ hmem
      · cases H
    · cases H
  · rintro ⟨⟨hne, hmem⟩, heq⟩
    subst heq
    have hall : ∀ c ∈ name, (c != ')') = true := by
      intro c hc
      exact bne_iff_ne.2 fun h => hmem (h ▸ hc)
    obtain ⟨first, more, rfl⟩ := exists_cons_of_ne_nil hne
    simp only [written, start?, cons_append, nil_append, append_assoc]
    rw [← cons_append, takeWhile_append_of_pos hall, dropWhile_append_of_pos hall]
    simp

theorem start?_eq_none_iff : start? cs = none ↔ ¬ Starts cs := by
  constructor
  · intro H hstarts
    obtain ⟨name, hname, rest, rfl⟩ := hstarts
    rw [start?_eq_some_iff.2 ⟨hname, rfl⟩] at H
    cases H
  · intro H
    cases hstart : start? cs with
    | none => rfl
    | some found =>
      obtain ⟨hname, heq⟩ := start?_eq_some_iff.1 hstart
      exact absurd ⟨found.1, hname, found.2, heq.symm⟩ H

theorem starts_written (hname : IsName name) (rest : List Char) : Starts (written name ++ rest) :=
  ⟨name, hname, prefix_append _ _⟩

theorem written_append_inj {name' rest' : List Char} (hname : IsName name) (hname' : IsName name')
    (H : written name ++ rest = written name' ++ rest') : name = name' ∧ rest = rest' := by
  have hstart := start?_eq_some_iff.2 ⟨hname', H⟩
  rw [start?_eq_some_iff.2 ⟨hname, rfl⟩] at hstart
  cases hstart
  exact ⟨rfl, rfl⟩

/-- A reference ends before a part of the text that has no closing parenthesis. -/
theorem Starts.of_append (H : Starts (cs ++ rest)) (hrest : ')' ∉ rest) : Starts cs := by
  obtain ⟨name, hname, later, heq⟩ := H
  refine ⟨name, hname, ?_⟩
  rcases append_eq_append_iff.1 heq with ⟨more, rfl, -⟩ | ⟨excess, hexcess, rfl⟩
  · exact prefix_append _ more
  · rcases eq_nil_or_concat excess with rfl | ⟨before, last, rfl⟩
    · exact ⟨[], by rw [append_nil, hexcess, append_nil]⟩
    · rw [concat_eq_append, ← append_assoc] at hexcess
      have hlast := (append_inj' hexcess rfl).2
      simp [← hlast] at hrest

/-- Texts are taken apart from the left, a reference at a time where one starts and otherwise a
character at a time. -/
theorem referenceInduction {P : List Char → Prop} (nil : P [])
    (literal : ∀ c cs, ¬ Starts (c :: cs) → P cs → P (c :: cs))
    (reference : ∀ name cs, IsName name → P cs → P (written name ++ cs)) (cs : List Char) :
    P cs := by
  induction hlen : cs.length using Nat.strongRecOn generalizing cs with
  | ind n ih =>
    subst hlen
    cases cs with
    | nil => exact nil
    | cons c cs =>
      cases hstart : start? (c :: cs) with
      | none => exact literal c cs (start?_eq_none_iff.1 hstart) (ih _ (by simp) cs rfl)
      | some found =>
        have hlt := start?_rest_lt hstart
        obtain ⟨hname, heq⟩ := start?_eq_some_iff.1 hstart
        rw [heq]
        exact reference found.1 found.2 hname (ih _ hlt found.2 rfl)

end

/-! ## Divisions -/

section
variable {cs name after : List Char} {c : Char}

theorem fill_cons (text : List Char → List Char) (piece : List Char × List Char)
    (pieces : List (List Char × List Char)) :
    fill text (piece :: pieces) = text piece.1 ++ (piece.2 ++ fill text pieces) := by
  rw [fill, flatMap_cons, append_assoc, fill]

theorem quiet_nil (after : List Char) : Quiet [] after := by
  intro cs hne hsuffix
  exact absurd (suffix_nil.1 hsuffix) hne

theorem quiet_cons_iff {literal : List Char} : Quiet (c :: literal) after ↔
    ¬ Starts (c :: literal ++ after) ∧ Quiet literal after := by
  constructor
  · intro H
    refine ⟨H _ (cons_ne_nil c literal) suffix_rfl, ?_⟩
    intro cs hne hsuffix
    exact H cs hne (hsuffix.trans (suffix_cons c literal))
  · rintro ⟨hfirst, H⟩ cs hne hsuffix
    rcases suffix_cons_iff.1 hsuffix with rfl | hsuffix
    · exact hfirst
    · exact H cs hne hsuffix

namespace Division

def nil : Division [] where
  lead := []
  pieces := []
  text_eq := rfl
  names := by simp
  lead_quiet := quiet_nil _
  quiet := by simp

def literal (hc : ¬ Starts (c :: cs)) (d : Division cs) : Division (c :: cs) where
  lead := c :: d.lead
  pieces := d.pieces
  text_eq := by rw [cons_append, d.text_eq]
  names := d.names
  lead_quiet := quiet_cons_iff.2 ⟨by rwa [cons_append, d.text_eq], d.lead_quiet⟩
  quiet := d.quiet

def reference (hname : IsName name) (d : Division cs) : Division (written name ++ cs) where
  lead := []
  pieces := (name, d.lead) :: d.pieces
  text_eq := by rw [nil_append, fill_cons, d.text_eq]
  names := forall_mem_cons.2 ⟨hname, d.names⟩
  lead_quiet := quiet_nil _
  quiet := by
    intro piece later hsuffix
    rcases suffix_cons_iff.1 hsuffix with heq | hsuffix
    · cases heq
      exact d.lead_quiet
    · exact d.quiet piece later hsuffix

theorem eq_nil (d : Division []) : d = .nil := by
  obtain ⟨lead, pieces, text_eq, names, lead_quiet, quiet⟩ := d
  obtain ⟨rfl, hfill⟩ := append_eq_nil_iff.1 text_eq
  cases pieces with
  | nil => rfl
  | cons piece pieces => simp [fill_cons, written] at hfill

/-- Where no reference starts, the first character belongs to a literal. -/
theorem eq_literal (hc : ¬ Starts (c :: cs)) (d : Division (c :: cs)) :
    ∃ d₀, d = .literal hc d₀ := by
  obtain ⟨lead, pieces, text_eq, names, lead_quiet, quiet⟩ := d
  cases lead with
  | nil =>
    cases pieces with
    | nil => cases text_eq
    | cons piece pieces =>
      rw [← text_eq, nil_append, fill_cons] at hc
      exact absurd (starts_written (names piece mem_cons_self) _) hc
  | cons b lead =>
    obtain ⟨rfl, hcs⟩ := cons.inj text_eq
    exact ⟨⟨lead, pieces, hcs, names, (quiet_cons_iff.1 lead_quiet).2, quiet⟩, rfl⟩

/-- A reference that starts the text is the first one of every division. -/
theorem eq_reference (hname : IsName name) (d : Division (written name ++ cs)) :
    ∃ d₀, d = .reference hname d₀ := by
  obtain ⟨lead, pieces, text_eq, names, lead_quiet, quiet⟩ := d
  cases lead with
  | nil =>
    cases pieces with
    | nil => cases text_eq
    | cons piece pieces =>
      obtain ⟨piece, literal⟩ := piece
      rw [nil_append, fill_cons] at text_eq
      obtain ⟨rfl, hcs⟩ := written_append_inj (names _ mem_cons_self) hname text_eq
      refine ⟨⟨literal, pieces, hcs, (forall_mem_cons.1 names).2, quiet _ _ suffix_rfl, ?_⟩, rfl⟩
      intro later more hsuffix
      exact quiet later more (hsuffix.trans (suffix_cons _ _))
  | cons b lead =>
    have hfirst := (quiet_cons_iff.1 lead_quiet).1
    rw [text_eq] at hfirst
    exact absurd (starts_written hname cs) hfirst

theorem exists_division (cs : List Char) : Nonempty (Division cs) := by
  induction cs using referenceInduction with
  | nil => exact ⟨.nil⟩
  | literal c cs hc ih =>
    obtain ⟨d⟩ := ih
    exact ⟨.literal hc d⟩
  | reference name cs hname ih =>
    obtain ⟨d⟩ := ih
    exact ⟨.reference hname d⟩

theorem unique (d d' : Division cs) : d = d' := by
  induction cs using referenceInduction with
  | nil => rw [d.eq_nil, d'.eq_nil]
  | literal c cs hc ih =>
    obtain ⟨d, rfl⟩ := d.eq_literal hc
    obtain ⟨d', rfl⟩ := d'.eq_literal hc
    rw [ih d d']
  | reference name cs hname ih =>
    obtain ⟨d, rfl⟩ := d.eq_reference hname
    obtain ⟨d', rfl⟩ := d'.eq_reference hname
    rw [ih d d']

end Division
end

/-! ## Replacing references -/

section
variable {vars : Bindings} {cs seen name back : List Char} {c : Char}

theorem value_eq (vars : Bindings) (name : List Char) :
    value vars name = (vars (String.ofList name)).elim (written name) String.toList := by
  rw [value]
  cases vars (String.ofList name) <;> rfl

theorem substitute_literal (hc : ¬ Starts (c :: cs)) :
    substitute vars (c :: cs) seen = substitute vars cs (c :: seen) := by
  rw [substitute]
  split
  · next heq =>
    rw [start?_eq_none_iff.2 hc] at heq
    cases heq
  · rfl

theorem substitute_reference (hname : IsName name) : substitute vars (written name ++ cs) seen =
    substitute vars cs ((value vars name).reverse ++ seen) := by
  have hstart : start? (written name ++ cs) = some (name, cs) :=
    start?_eq_some_iff.2 ⟨hname, rfl⟩
  change substitute vars ('v' :: (['a', 'r', '('] ++ name ++ [')'] ++ cs)) seen = _
  rw [substitute]
  split
  · next heq =>
    cases hstart.symm.trans heq
    rw [reverseAux_eq]
  · next heq => cases hstart.symm.trans heq

theorem substitute_eq_output (d : Division cs) (vars : Bindings) (seen : List Char) :
    substitute vars cs seen = seen.reverse ++ d.output vars := by
  induction cs using referenceInduction generalizing seen with
  | nil =>
    rw [d.eq_nil, substitute]
    exact (append_nil _).symm
  | literal c cs hc ih =>
    obtain ⟨d, rfl⟩ := d.eq_literal hc
    rw [substitute_literal hc, ih d, reverse_cons, append_assoc]
    rfl
  | reference name cs hname ih =>
    obtain ⟨d, rfl⟩ := d.eq_reference hname
    rw [substitute_reference hname, ih d, reverse_append, reverse_reverse, append_assoc, value_eq,
      Division.output, Division.output, Division.reference, fill_cons, nil_append]

/-- What follows the last closing parenthesis stays as it is. -/
theorem substitute_append (hback : ')' ∉ back) :
    substitute vars (cs ++ back) seen = substitute vars cs seen ++ back := by
  induction cs using referenceInduction generalizing seen with
  | nil =>
    induction back generalizing seen with
    | nil => rw [append_nil, append_nil]
    | cons c back ih =>
      have hc : ¬ Starts (c :: back) := by
        intro H
        rw [← nil_append (c :: back)] at H
        obtain ⟨name, -, hprefix⟩ := H.of_append hback
        simp [written] at hprefix
      rw [nil_append, substitute_literal hc, ← nil_append back, ih (mt (mem_cons_of_mem c) hback)]
      simp [substitute]
  | literal c cs hc ih =>
    have hc' : ¬ Starts (c :: (cs ++ back)) := fun H => hc (Starts.of_append H hback)
    rw [cons_append, substitute_literal hc', substitute_literal hc, ih]
  | reference name cs hname ih =>
    rw [append_assoc, substitute_reference hname, substitute_reference hname, ih]

theorem divide_spec (cs : List Char) :
    (divide cs).1 ++ (divide cs).2 = cs ∧ ')' ∉ (divide cs).2 := by
  have hprefix := takeWhile_prefix (l := cs.reverse) (· != ')')
  constructor
  · rw [divide, ← reverse_append, prefix_iff_eq_append.1 hprefix, reverse_reverse]
  · intro hmem
    simpa using all_eq_true.1 (all_takeWhile (l := cs.reverse)) _ (mem_reverse.1 hmem)

theorem substitute_divide (d : Division cs) (vars : Bindings) :
    substitute vars (divide cs).1 [] ++ (divide cs).2 = d.output vars := by
  obtain ⟨hcs, hback⟩ := divide_spec cs
  rw [← substitute_append hback, hcs, substitute_eq_output d]
  rfl

end

/-! ## Names after dashes -/

section
variable {vars : Bindings} {cs name : List Char} {text text' : String}

theorem dashed?_eq_some_iff : dashed? cs = some name ↔ cs = '-' :: '-' :: name ∧ IsDashed name := by
  constructor
  · intro H
    unfold dashed? at H
    split at H
    · next rest =>
      rw [Option.ite_none_right_eq_some] at H
      obtain ⟨hname, heq⟩ := H
      cases heq
      refine ⟨rfl, hname.1, ?_⟩
      simpa [isNameChar, or_assoc] using hname.2
    · cases H
  · rintro ⟨heq, hne, hall⟩
    have hchars : name.all isNameChar := by simpa [isNameChar, or_assoc] using hall
    rw [heq, dashed?, if_pos ⟨hne, hchars⟩]

theorem StandsFor.unique (H : StandsFor vars cs text) (H' : StandsFor vars cs text') :
    text = text' := by
  cases H with
  | value heq hname hvalue =>
    cases H' with
    | value heq' hname' hvalue' =>
      cases heq.symm.trans heq'
      exact Option.some.inj (hvalue.symm.trans hvalue')
    | self hnone => cases hvalue.symm.trans (hnone _ heq hname)
  | self hnone =>
    cases H' with
    | value heq' hname' hvalue' => cases hvalue'.symm.trans (hnone _ heq' hname')
    | self => rfl

/-- A text stands for itself, unless it is `--NAME` and the name has another value. -/
theorem standsFor_self_iff : StandsFor vars text.toList text ↔
    ∀ name stored, text.toList = '-' :: '-' :: name → IsDashed name →
      vars (String.ofList name) = some stored → stored = text := by
  constructor
  · intro H name stored heq hname hstored
    exact StandsFor.unique (.value heq hname hstored) H
  · intro H
    by_cases hbound : ∃ name stored, text.toList = '-' :: '-' :: name ∧ IsDashed name ∧
      vars (String.ofList name) = some stored
    · obtain ⟨name, stored, heq, hname, hstored⟩ := hbound
      rw [H name stored heq hname hstored] at hstored
      exact .value heq hname hstored
    · have hself : StandsFor vars text.toList (String.ofList text.toList) := by
        apply StandsFor.self
        intro name heq hname
        apply Option.eq_none_iff_forall_ne_some.2
        intro stored hstored
        exact hbound ⟨name, stored, heq, hname, hstored⟩
      rwa [String.ofList_toList] at hself

theorem whole?_eq_some_iff : whole? cs = some name ↔ IsName name ∧ cs = written name := by
  constructor
  · intro H
    unfold whole? at H
    split at H
    · next heq =>
      cases H
      simpa using start?_eq_some_iff.1 heq
    · cases H
  · rintro ⟨hname, heq⟩
    rw [whole?, start?_eq_some_iff.2 ⟨hname, heq.trans (append_nil _).symm⟩]

end
end Reference

open Reference

section
variable {vars : Bindings}

/-- The general rules, which hold of every text that is not one reference. -/
theorem standsFor_resolveVars (vars : Bindings) {text : String} (H : whole? text.toList = none)
    (d : Division text.toList) : StandsFor vars (d.output vars) (resolveVars vars text) := by
  simp only [resolveVars, H, substitute_divide d]
  split
  · next name hdashed =>
    obtain ⟨heq, hname⟩ := dashed?_eq_some_iff.1 hdashed
    cases hvalue : vars (String.ofList name) with
    | some text => exact .value heq hname hvalue
    | none =>
      refine .self fun name' heq' _ => ?_
      cases heq.symm.trans heq'
      exact hvalue
  · next hdashed =>
    refine .self fun name heq hname => ?_
    rw [dashed?_eq_some_iff.2 ⟨heq, hname⟩] at hdashed
    cases hdashed

/-- A text that is one reference stands for its value as it was stored. -/
theorem resolveVars_of_whole {text : String} {name : List Char}
    (H : whole? text.toList = some name) :
    resolveVars vars text = (vars (String.ofList name)).getD text := by
  simp only [resolveVars, H]

theorem output_of_unbound {cs : List Char} (d : Division cs)
    (H : ∀ piece ∈ d.pieces, vars (String.ofList piece.1) = none) : d.output vars = cs := by
  refine Eq.trans (congrArg (d.lead ++ ·) ?_) d.text_eq
  generalize d.pieces = pieces at H
  induction pieces with
  | nil => rfl
  | cons piece pieces ih =>
    obtain ⟨hpiece, H⟩ := List.forall_mem_cons.1 H
    rw [fill_cons, fill_cons, ih H, hpiece, Option.elim_none]

theorem output_of_whole {cs name : List Char} (H : whole? cs = some name) (d : Division cs) :
    d.output vars = value vars name := by
  obtain ⟨hname, rfl⟩ := whole?_eq_some_iff.1 H
  have houtput := substitute_eq_output d vars []
  have hvalue : substitute vars (written name ++ []) [] =
      substitute vars [] ((value vars name).reverse ++ []) := substitute_reference hname
  rw [List.append_nil, houtput, substitute, List.append_nil, List.reverse_reverse] at hvalue
  exact hvalue

/-- Every text has exactly one division. If it is not one reference, it stands for what the text
with the values put for its references stands for; the values are not searched for references. Where
no name of a reference, nor of the text as `--NAME`, has a value, the text stands for itself. -/
theorem resolveVars_of_division (text : String) :
    ∃ d : Division text.toList, (∀ d' : Division text.toList, d' = d) ∧ ∀ vars : Bindings,
      ((¬ ∃ name, IsName name ∧ text.toList = written name) →
        StandsFor vars (d.output vars) (resolveVars vars text)) ∧
      ((∀ piece ∈ d.pieces, vars (String.ofList piece.1) = none) →
        (∀ name, text.toList = '-' :: '-' :: name → IsDashed name →
          vars (String.ofList name) = none) →
        resolveVars vars text = text) := by
  obtain ⟨d⟩ := Division.exists_division text.toList
  refine ⟨d, fun d' => d'.unique d, fun vars => ⟨fun hother => ?_, fun hpieces hdashed => ?_⟩⟩
  · apply standsFor_resolveVars
    cases hwhole : whole? text.toList with
    | none => rfl
    | some name => exact absurd ⟨name, whole?_eq_some_iff.1 hwhole⟩ hother
  · cases hwhole : whole? text.toList with
    | none =>
      have hstands := standsFor_resolveVars vars hwhole d
      rw [output_of_unbound d hpieces] at hstands
      have hself := hstands.unique (.self hdashed)
      rwa [String.ofList_toList] at hself
    | some name =>
      have hvalue := (output_of_whole hwhole d).symm.trans (output_of_unbound d hpieces)
      rw [resolveVars_of_whole hwhole]
      cases hbound : vars (String.ofList name) with
      | none => rfl
      | some stored =>
        rw [value_eq, hbound] at hvalue
        exact String.toList_inj.1 hvalue

/-- The first reference takes in the second `var(`, and what has no name is no reference. -/
example : resolveVars ([("var(x", "var(y)"), ("y", "1")].lookup ·) "var(var(x) var() var(y)" =
    "var(y) var() 1" := by
  decide +kernel

/-- A text that is one reference stands for the value of its name, if there is one. That is also
what the rules for other texts say of it, unless the value is `--NAME` and this name has another
value. -/
theorem resolveVars_written (vars : Bindings) {name : List Char} (hname : IsName name)
    (d : Division (written name)) :
    resolveVars vars (String.ofList (written name)) =
      (vars (String.ofList name)).getD (String.ofList (written name)) ∧
    (StandsFor vars (d.output vars) (resolveVars vars (String.ofList (written name))) ↔
      ∀ stored, vars (String.ofList name) = some stored →
        ∀ other text, stored.toList = '-' :: '-' :: other → IsDashed other →
          vars (String.ofList other) = some text → text = stored) := by
  have hwhole := whole?_eq_some_iff.2 ⟨hname, rfl⟩
  have heq : resolveVars vars (String.ofList (written name)) =
      (vars (String.ofList name)).getD (String.ofList (written name)) :=
    resolveVars_of_whole (by rwa [String.toList_ofList])
  refine ⟨heq, ?_⟩
  rw [heq, output_of_whole hwhole d, value_eq]
  cases vars (String.ofList name) with
  | none =>
    refine iff_of_true (.self ?_) ?_
    · intro other hother
      cases hother
    · intro stored hstored
      cases hstored
  | some stored =>
    refine standsFor_self_iff.trans ⟨fun H => ?_, fun H => H stored rfl⟩
    intro stored' hstored
    cases hstored
    exact H

theorem isName_singleton {c : Char} (hc : c ≠ ')') : IsName [c] :=
  ⟨List.cons_ne_nil c [], by simpa using Ne.symm hc⟩

/-- A value that is itself a reference is left alone in either way. -/
theorem resolveVars_written_nested :
    let vars : Bindings := fun name => [("a", "var(b)"), ("b", "red")].lookup name
    ∃ d : Division (written ['a']),
      StandsFor vars (d.output vars) (resolveVars vars (String.ofList (written ['a']))) ∧
      resolveVars vars (String.ofList (written ['a'])) = "var(b)" := by
  intro vars
  have hname : IsName ['a'] := isName_singleton (by decide)
  obtain ⟨d⟩ := Division.exists_division (written ['a'])
  obtain ⟨heq, hiff⟩ := resolveVars_written vars hname d
  refine ⟨d, hiff.2 ?_, heq.trans (by decide +kernel)⟩
  intro stored hstored other text hdashed
  cases hstored
  cases hdashed

/-- With the value `--b` of `a`, the rules for other texts lead on to the value of `b`. -/
theorem resolveVars_written_dashed :
    let vars : Bindings := fun name => [("a", "--b"), ("b", "red")].lookup name
    ∃ d : Division (written ['a']), StandsFor vars (d.output vars) "red" ∧
      ¬ StandsFor vars (d.output vars) (resolveVars vars (String.ofList (written ['a']))) ∧
      resolveVars vars (String.ofList (written ['a'])) = "--b" := by
  intro vars
  have hname : IsName ['a'] := isName_singleton (by decide)
  have hdashed : IsDashed ['b'] := ⟨List.cons_ne_nil _ _, by simp⟩
  obtain ⟨d⟩ := Division.exists_division (written ['a'])
  have houtput : d.output vars = ['-', '-', 'b'] :=
    (output_of_whole (whole?_eq_some_iff.2 ⟨hname, rfl⟩) d).trans (by decide +kernel)
  have hred : StandsFor vars (d.output vars) "red" :=
    .value houtput hdashed (by decide +kernel)
  have heq : resolveVars vars (String.ofList (written ['a'])) = "--b" := by decide +kernel
  refine ⟨d, hred, ?_, heq⟩
  intro H
  rw [heq] at H
  exact absurd (hred.unique H) (by decide)

end
end ListPress
