import ListPress.Proofs.Chains
import ListPress.Proofs.Simulation

/-! # Markup is put together from the markup of its parts

The text of a list is the fixed text of its form with the texts of the nodes that the form renders
in it (`Markup.Pressed`), and a form succeeds exactly when it can be put together in this way
(`Markup.form_eq_ok_iff`). The levels that are left decide whether a node is rendered, and never
what is written for it (`Heap.markupAt_mono`). So the parts of a list can as well be rendered on
their own (`Heap.markup_compositional`). -/

namespace ListPress
open List

namespace Markup

/-! ## The text of a form -/

section
variable (h : Heap) (R : Node → String → Prop)

/-- Keys with their values, and what is written for them. A key without a value is left out. -/
inductive Pairs : List Node → List String → Prop
  | nil : Pairs [] []
  | valueless : Pairs [key] []
  | cons : R key name → R value text → Pairs args texts →
    Pairs (key :: value :: args) ((name ++ "=\"" ++ text ++ "\"") :: texts)

/-- The arguments of an element, with the text of its attributes and the texts of its children. -/
inductive Parts : List Node → String → List String → Prop
  | children : (∀ first ∈ args.head?, isAttributeList h first = false) → Forall₂ R args texts →
    Parts args "" texts
  | attributes : isAttributeList h first = true → R first attrs → Forall₂ R args texts →
    Parts (first :: args) (" " ++ attrs) texts

/-- The text of a form with the arguments `args`, where `R` gives the texts of the nodes that are
rendered. All other arguments are printed or left out. -/
inductive Pressed (tag : String) : Form → List Node → String → Prop
  | escaped : Pressed tag .escaped args (Markup.escaped h args)
  | raw : Pressed tag .raw args (Markup.raw h args)
  | noCondition : Pressed tag .conditional [] ""
  | noBranch : Pressed tag .conditional [test]
      ("<% if (" ++ h.stringOf test ++ ") \x7b %>" ++ blockEnd)
  | branch : R yes text → Pressed tag .conditional [test, yes]
      ("<% if (" ++ h.stringOf test ++ ") \x7b %>" ++ text ++ blockEnd)
  | branches : R yes text → R no text' → Pressed tag .conditional (test :: yes :: no :: rest)
      ("<% if (" ++ h.stringOf test ++ ") \x7b %>" ++ text ++ "<% \x7d else \x7b %>" ++ text' ++
        blockEnd)
  | noLoop : args.length < 3 → Pressed tag .loop args ""
  | loop : Forall₂ R body texts → Pressed tag .loop (var :: word :: expr :: body)
      ("<% for (const " ++ h.stringOf var ++ " of " ++ h.stringOf expr ++ ") \x7b %>" ++
        String.join texts ++ blockEnd)
  | attributes : Pairs R args texts → Pressed tag .attributes args (" ".intercalate texts)
  | void : Parts h R args attrs texts → String.join texts = "" ∧ isVoid tag = true →
    Pressed tag .element args ("<" ++ tag ++ attrs ++ " />")
  | element : Parts h R args attrs texts → ¬ (String.join texts = "" ∧ isVoid tag = true) →
    Pressed tag .element args
      ("<" ++ tag ++ attrs ++ ">" ++ String.join texts ++ "</" ++ tag ++ ">")

end

section
variable {h : Heap} {R R' : Node → String → Prop} (hR : ∀ n text, R n text → R' n text)
include hR

theorem Pairs.mono (H : Pairs R args texts) : Pairs R' args texts := by
  induction H with
  | nil => exact .nil
  | valueless => exact .valueless
  | cons hkey hvalue _ ih => exact .cons (hR _ _ hkey) (hR _ _ hvalue) ih

theorem Parts.mono (H : Parts h R args attrs texts) : Parts h R' args attrs texts := by
  cases H with
  | children hfirst hargs => exact .children hfirst (hargs.imp hR)
  | attributes hfirst hattrs hargs => exact .attributes hfirst (hR _ _ hattrs) (hargs.imp hR)

theorem Pressed.mono {form : Form} (H : Pressed h R tag form args text) :
    Pressed h R' tag form args text := by
  cases H with
  | escaped => exact .escaped
  | raw => exact .raw
  | noCondition => exact .noCondition
  | noBranch => exact .noBranch
  | branch hyes => exact .branch (hR _ _ hyes)
  | branches hyes hno => exact .branches (hR _ _ hyes) (hR _ _ hno)
  | noLoop hargs => exact .noLoop hargs
  | loop hbody => exact .loop (hbody.imp hR)
  | attributes hargs => exact .attributes (hargs.mono hR)
  | void hargs hvoid => exact .void (hargs.mono hR) hvoid
  | element hargs hvoid => exact .element (hargs.mono hR) hvoid

end

/-! ## Forms that succeed -/

section
variable {h : Heap} {render : Node → Except StructureError String} {args : List Node}
  {tag text : String}

/-- The text of the node, if it can be rendered. -/
abbrev Renders (render : Node → Except StructureError String) (n : Node) (text : String) : Prop :=
  render n = .ok text

theorem concat_eq_ok_iff : concat render args = .ok text ↔
    ∃ texts, Forall₂ (Renders render) args texts ∧ String.join texts = text := by
  rw [concat, map_eq_ok_iff]
  simp only [mapM_eq_ok_iff]

theorem conditional_eq_ok_iff : conditional h render args = .ok text ↔
    Pressed h (Renders render) tag .conditional args text := by
  constructor
  · intro H
    rcases args with _ | ⟨test, _ | ⟨yes, _ | ⟨no, rest⟩⟩⟩
    · cases H
      exact .noCondition
    · cases H
      exact .noBranch
    · obtain ⟨_, hyes, H⟩ := bind_eq_ok_iff.1 H
      cases H
      exact .branch hyes
    · obtain ⟨_, hyes, H⟩ := bind_eq_ok_iff.1 H
      obtain ⟨_, hno, H⟩ := bind_eq_ok_iff.1 H
      cases H
      exact .branches hyes hno
  · intro H
    cases H with
    | noCondition | noBranch => rfl
    | branch hyes => exact bind_eq_ok_iff.2 ⟨_, hyes, rfl⟩
    | branches hyes hno =>
      exact bind_eq_ok_iff.2 ⟨_, hyes, bind_eq_ok_iff.2 ⟨_, hno, rfl⟩⟩

theorem loop_of_length_lt (hargs : args.length < 3) : loop h render args = .ok "" := by
  rcases args with _ | ⟨var, _ | ⟨word, _ | ⟨expr, body⟩⟩⟩
  · rfl
  · rfl
  · rfl
  · simp only [length_cons] at hargs
    omega

theorem loop_eq_ok_iff : loop h render args = .ok text ↔
    Pressed h (Renders render) tag .loop args text := by
  constructor
  · intro H
    by_cases hargs : args.length < 3
    · rw [loop_of_length_lt hargs] at H
      cases H
      exact .noLoop hargs
    · rcases args with _ | ⟨var, _ | ⟨word, _ | ⟨expr, body⟩⟩⟩
      iterate 3 exact absurd (by simp) hargs
      obtain ⟨_, hbody, H⟩ := bind_eq_ok_iff.1 H
      obtain ⟨texts, htexts, rfl⟩ := concat_eq_ok_iff.1 hbody
      cases H
      exact .loop htexts
  · intro H
    cases H with
    | noLoop hargs => exact loop_of_length_lt hargs
    | loop hbody => exact bind_eq_ok_iff.2 ⟨_, concat_eq_ok_iff.2 ⟨_, hbody, rfl⟩, rfl⟩

theorem attributeTexts_eq_ok_iff {args : List Node} {seen texts : List String} :
    attributeTexts render args seen = .ok texts ↔
      ∃ new, Pairs (Renders render) args new ∧ seen.reverse ++ new = texts := by
  rcases args with _ | ⟨key, _ | ⟨value, args⟩⟩
  · have hnone (new : List String) : Pairs (Renders render) [] new ↔ new = [] :=
      ⟨fun H => by cases H; rfl, fun H => H ▸ .nil⟩
    simp [attributeTexts, hnone]
  · have hnone (new : List String) : Pairs (Renders render) [key] new ↔ new = [] :=
      ⟨fun H => by cases H; rfl, fun H => H ▸ .valueless⟩
    simp [attributeTexts, hnone]
  · have ih (seen : List String) : attributeTexts render args seen = .ok texts ↔
        ∃ new, Pairs (Renders render) args new ∧ seen.reverse ++ new = texts :=
      attributeTexts_eq_ok_iff
    simp only [attributeTexts, bind_eq_ok_iff, ih, reverse_cons, append_assoc, singleton_append]
    constructor
    · rintro ⟨name, hname, text, htext, new, hnew, rfl⟩
      exact ⟨_, .cons hname htext hnew, rfl⟩
    · rintro ⟨new, hnew, rfl⟩
      cases hnew with
      | cons hname htext hnew => exact ⟨_, hname, _, htext, _, hnew, rfl⟩
termination_by args.length

theorem attributes_eq_ok_iff : attributes render args = .ok text ↔
    Pressed h (Renders render) tag .attributes args text := by
  rw [attributes, map_eq_ok_iff]
  simp only [attributeTexts_eq_ok_iff, reverse_nil, nil_append]
  constructor
  · rintro ⟨_, ⟨texts, htexts, rfl⟩, rfl⟩
    exact .attributes htexts
  · intro H
    cases H with
    | attributes htexts => exact ⟨_, ⟨_, htexts, rfl⟩, rfl⟩

theorem parts_iff {attrs : String} {texts : List String} :
    Parts h (Renders render) args attrs texts ↔ ∃ children,
      splitAttributes h render args = .ok (attrs, children) ∧
        Forall₂ (Renders render) children texts := by
  constructor
  · intro H
    cases H with
    | children hfirst hargs =>
      refine ⟨args, ?_, hargs⟩
      cases args with
      | nil => rfl
      | cons first rest =>
        have hfirst := hfirst first rfl
        rw [splitAttributes, if_neg (by rw [hfirst]; exact Bool.false_ne_true)]
    | attributes hfirst hattrs hargs =>
      refine ⟨_, ?_, hargs⟩
      rw [splitAttributes, if_pos hfirst]
      exact bind_eq_ok_iff.2 ⟨_, hattrs, rfl⟩
  · rintro ⟨children, hsplit, hchildren⟩
    cases args with
    | nil =>
      cases hsplit
      exact .children (by simp) hchildren
    | cons first rest =>
      rw [splitAttributes] at hsplit
      split at hsplit
      · next hfirst =>
        obtain ⟨_, hattrs, hsplit⟩ := bind_eq_ok_iff.1 hsplit
        cases hsplit
        exact .attributes hfirst hattrs hchildren
      · next hfirst =>
        cases hsplit
        exact .children (by simpa using hfirst) hchildren

theorem element_eq_ok_iff : element h render tag args = .ok text ↔
    Pressed h (Renders render) tag .element args text := by
  constructor
  · intro H
    obtain ⟨⟨attrs, children⟩, hsplit, H⟩ := bind_eq_ok_iff.1 H
    obtain ⟨content, hcontent, H⟩ := bind_eq_ok_iff.1 H
    obtain ⟨texts, htexts, rfl⟩ := concat_eq_ok_iff.1 hcontent
    have hparts := parts_iff.2 ⟨children, hsplit, htexts⟩
    split at H
    · next hvoid =>
      cases H
      exact .void hparts (by simpa using hvoid)
    · next hvoid =>
      cases H
      exact .element hparts (by simpa using hvoid)
  · intro H
    cases H with
    | void hparts hvoid | element hparts hvoid =>
      obtain ⟨children, hsplit, htexts⟩ := parts_iff.1 hparts
      refine bind_eq_ok_iff.2 ⟨_, hsplit, ?_⟩
      refine bind_eq_ok_iff.2 ⟨_, concat_eq_ok_iff.2 ⟨_, htexts, rfl⟩, ?_⟩
      rw [← String.isEmpty_iff, ← Bool.and_eq_true] at hvoid
      simp only [hvoid]
      rfl

theorem form_eq_ok_iff {head : Node} : form h render (head :: args) = .ok text ↔
    Pressed h (Renders render) (h.stringOf head) (.ofHead (h.stringOf head)) args text := by
  simp only [form]
  cases Form.ofHead (h.stringOf head) with
  | escaped =>
    refine ⟨fun H => Except.ok.inj H ▸ .escaped, fun H => ?_⟩
    cases H
    rfl
  | raw =>
    refine ⟨fun H => Except.ok.inj H ▸ .raw, fun H => ?_⟩
    cases H
    rfl
  | conditional => exact conditional_eq_ok_iff
  | loop => exact loop_eq_ok_iff
  | attributes => exact attributes_eq_ok_iff
  | element => exact element_eq_ok_iff

end
end Markup

namespace Heap
variable {h : Heap} {n : Node} {text : String} {levels levels' : Nat}

/-! ## Levels -/

/-- A node that is rendered is given the same text when more levels are left. -/
theorem markupAt_mono (hle : levels ≤ levels') (H : h.markupAt levels n = .ok text) :
    h.markupAt levels' n = .ok text := by
  induction levels generalizing n text levels' with
  | zero => cases H
  | succ levels ih =>
    obtain ⟨levels', rfl⟩ := Nat.exists_eq_succ_of_ne_zero (Nat.ne_zero_of_lt hle)
    cases n with
    | atom => exact H
    | list | cell | nil =>
      rw [h.markupAt_of_isList _ rfl] at H ⊢
      obtain ⟨items, hseq, H⟩ := bind_eq_ok_iff.1 H
      refine bind_eq_ok_iff.2 ⟨items, hseq, ?_⟩
      cases items with
      | nil => exact H
      | cons head args =>
        have hpressed := (Markup.form_eq_ok_iff.1 H).mono fun _ _ =>
          ih (Nat.le_of_succ_le_succ hle)
        exact Markup.form_eq_ok_iff.2 hpressed

/-- What is written for a node does not depend on how many levels are left, as long as they suffice;
a node at depth `d` has `maxNesting + 1 - d` levels left. So where a list has markup, the nodes that
its form renders have markup on their own, and the list's is the text of the form with theirs in
it. -/
theorem markup_compositional (h : Heap) :
    (∀ n text levels levels', levels ≤ levels' → h.markupAt levels n = .ok text →
      h.markupAt levels' n = .ok text) ∧
    ∀ n text, n.isList → h.markup n = .ok text →
      h.sequence n = .ok [] ∧ text = "" ∨
      ∃ head args, h.sequence n = .ok (head :: args) ∧
        Markup.Pressed h (Markup.Renders h.markup) (h.stringOf head)
          (.ofHead (h.stringOf head)) args text := by
  refine ⟨fun n text levels levels' => markupAt_mono, fun n text hlist H => ?_⟩
  rw [markup, h.markupAt_of_isList _ hlist] at H
  obtain ⟨items, hseq, H⟩ := bind_eq_ok_iff.1 H
  cases items with
  | nil =>
    cases H
    exact .inl ⟨hseq, rfl⟩
  | cons head args =>
    have hpressed := Markup.form_eq_ok_iff.1 H
    exact .inr ⟨head, args, hseq, hpressed.mono fun _ _ => markupAt_mono (Nat.le_succ _)⟩

/-- An element with a scriptlet in an attribute and one around a child, rendered with just enough
levels and at the root. -/
theorem markup_compositional_element :
    let value : Node := .list [.symbol "$", .symbol "t"]
    let child : Node := .list [.symbol "if", .symbol "c", .list [.symbol "b", .string "x"]]
    let n : Node := .list [.symbol "p", .list [.symbol "@", .symbol "title", value], child]
    let text := "<p title=\"<%= t %>\"><% if (c) \x7b %><b>x</b><% \x7d %></p>"
    empty.markupAt 4 n = .ok text ∧ empty.markup n = .ok text ∧
      ∃ head args, empty.sequence n = .ok (head :: args) ∧
        Markup.Pressed empty (Markup.Renders empty.markup) (empty.stringOf head)
          (.ofHead (empty.stringOf head)) args text := by
  intro value child n text
  have hlevels : empty.markupAt 4 n = .ok text := by decide +kernel
  obtain ⟨hmono, hparts⟩ := markup_compositional empty
  have hmarkup := hmono n text 4 (maxNesting + 1) (by decide) hlevels
  refine ⟨hlevels, hmarkup, (hparts n text rfl hmarkup).resolve_left ?_⟩
  rintro ⟨hseq, -⟩
  cases hseq

end Heap
end ListPress
