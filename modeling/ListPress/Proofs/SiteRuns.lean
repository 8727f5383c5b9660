import Mathlib.Data.List.Induction
import ListPress.Site

/-! # Runs of operations on a site

A run starts from the empty site and goes on over calls that fail. What is looked up afterwards is
the text of the last call that stored one under the name, and a style sheet keeps the variables of
the moment it was stored (`Site.run_keeps_last_texts`). -/

namespace ListPress
open List

theorem Node.string?_eq_some_iff {n : Node} {name : String} :
    n.string? = some name ↔ n = .string name := by
  unfold string?
  split
  · simp [string]
  · next hn =>
    constructor
    · intro heq
      cases heq
    · intro heq
      exact absurd heq (hn name)

namespace Site

/-! ## Calls -/

inductive Operation where
  | registerTemplate
  | registerTemplateSource
  | registerStyle
  | defineVar

inductive Place where
  | template
  | style
  | var
deriving DecidableEq

namespace Operation

def label : Operation → String
  | registerTemplate => "register_template"
  | registerTemplateSource => "register_template_source"
  | registerStyle => "register_style"
  | defineVar => "define_var"

/-- Where the text of the operation is stored. -/
def place : Operation → Place
  | registerTemplate | registerTemplateSource => .template
  | registerStyle => .style
  | defineVar => .var

end Operation

/-- An operation on two nodes, with the cells as they are at the time. -/
structure Call where
  operation : Operation
  heap : Heap
  name : Node
  arg : Node

namespace Call

def result (call : Call) (site : Site) : Except RegistryError (Site × String) :=
  match call.operation with
  | .registerTemplate => site.registerTemplate call.heap call.name call.arg
  | .registerTemplateSource => site.registerTemplateSource call.heap call.name call.arg
  | .registerStyle => site.registerStyle call.heap call.name call.arg
  | .defineVar => site.defineVar call.heap call.name call.arg

/-- The site after a call, and what the call returns. -/
def perform (call : Call) (site : Site) : Site × Except RegistryError String :=
  match call.result site with
  | .ok (site, name) => (site, .ok name)
  | .error e => (site, .error e)

/-- The text that a call stores. -/
def text (call : Call) (vars : Bindings) : Except StructureError String :=
  match call.operation with
  | .registerTemplate => call.heap.markup call.arg
  | .registerTemplateSource | .defineVar => .ok (call.heap.stringOf call.arg)
  | .registerStyle => call.heap.style vars call.arg

/-- Under these variables, the call stores a text under the name. -/
structure Stores (call : Call) (vars : Bindings) (place : Place) (name text : String) : Prop where
  place : call.operation.place = place
  name : call.name = .string name
  text : call.text vars = .ok text

end Call

/-- The site that calls leave, one after the other. -/
def run (calls : List Call) : Site := calls.foldl (fun site call => (call.perform site).1) empty

/-- The call at an index stores a text, with the variables just before it. -/
def StoresAt (calls : List Call) (i : Nat) (place : Place) (name text : String) : Prop :=
  ∃ call, calls[i]? = some call ∧ call.Stores (run (calls.take i)).var place name text

/-- The last text stored under the name. -/
def Last (calls : List Call) (place : Place) (name text : String) : Prop :=
  ∃ i, StoresAt calls i place name text ∧ ∀ j > i, ∀ text', ¬ StoresAt calls j place name text'

/-- No text was ever stored under the name. -/
def Never (calls : List Call) (place : Place) (name : String) : Prop :=
  ∀ i text, ¬ StoresAt calls i place name text

/-! ## One call -/

def put (site : Site) (place : Place) (name text : String) : Site :=
  match place with
  | .template => { site with templates := site.templates.register name text }
  | .style => { site with styles := site.styles.register name text }
  | .var => { site with vars := site.vars.insert name text }

def lookup (site : Site) : Place → String → Option String
  | .template => site.templates.texts.get?
  | .style => site.styles.texts.get?
  | .var => site.var

theorem lookup_empty (place : Place) (name : String) : empty.lookup place name = none := by
  cases place <;> rfl

theorem lookup_put (site : Site) (place place' : Place) (name name' text : String) :
    (site.put place name text).lookup place' name' =
      if place' = place ∧ name' = name then some text else site.lookup place' name' := by
  cases place <;> cases place' <;>
    simp [put, lookup, var, Registry.register, Table.get?_insert]

/-- The four operations differ only in the text they store and the place they store it in. -/
theorem Call.result_eq (call : Call) (site : Site) :
    call.result site = (do
      let name ← nameOf call.operation.label call.name
      let text ← (call.text site.var).mapError .malformed
      pure (site.put call.operation.place name text, name)) := by
  obtain ⟨operation, h, name, arg⟩ := call
  cases operation <;> rfl

theorem Call.perform_eq (call : Call) (site : Site) : call.perform site =
    match call.name.string? with
    | none => (site, .error (.nameExpected call.operation.label))
    | some name =>
      match call.text site.var with
      | .error e => (site, .error (.malformed e))
      | .ok text => (site.put call.operation.place name text, .ok name) := by
  rw [perform, result_eq, nameOf]
  cases call.name.string? with
  | none => rfl
  | some name => cases call.text site.var <;> rfl

namespace Call

variable {call : Call} {site : Site} {place place' : Place} {name name' text text' : String}

theorem Stores.perform_eq (H : call.Stores site.var place name text) :
    call.perform site = (site.put place name text, .ok name) := by
  rw [Call.perform_eq, H.name, ← H.place]
  simp [Node.string, Node.string?, H.text]

theorem Stores.unique {vars : Bindings} (H : call.Stores vars place name text)
    (H' : call.Stores vars place' name' text') : place' = place ∧ name' = name ∧ text' = text := by
  have hname := H.name.symm.trans H'.name
  have htext := H.text.symm.trans H'.text
  cases hname
  cases htext
  exact ⟨H'.place.symm.trans H.place, rfl, rfl⟩

theorem perform_eq_error_iff {e : RegistryError} : (call.perform site).2 = .error e ↔
    (∀ name, call.name ≠ .string name) ∧ e = .nameExpected call.operation.label ∨
      (∃ name, call.name = .string name) ∧
        ∃ e', call.text site.var = .error e' ∧ e = .malformed e' := by
  simp only [Call.perform_eq, ← Node.string?_eq_some_iff, ne_eq]
  cases call.name.string? with
  | none => simp [eq_comm]
  | some name =>
    cases call.text site.var with
    | error => simp [eq_comm]
    | ok => simp

theorem perform_of_not_stores (H : ∀ place name text, ¬ call.Stores site.var place name text) :
    (call.perform site).1 = site := by
  rw [Call.perform_eq]
  cases hname : call.name.string? with
  | none => rfl
  | some name =>
    cases htext : call.text site.var with
    | error e => rfl
    | ok text => exact absurd ⟨rfl, Node.string?_eq_some_iff.1 hname, htext⟩ (H _ name text)

theorem lookup_perform : (call.perform site).1.lookup place name = some text ↔
    call.Stores site.var place name text ∨
      (∀ text', ¬ call.Stores site.var place name text') ∧ site.lookup place name = some text := by
  by_cases hstores : ∃ place₀ name₀ text₀, call.Stores site.var place₀ name₀ text₀
  · obtain ⟨place₀, name₀, text₀, hstores⟩ := hstores
    rw [hstores.perform_eq, lookup_put]
    split
    · next heq =>
      obtain ⟨rfl, rfl⟩ := heq
      constructor
      · rintro ⟨⟩
        exact .inl hstores
      · rintro (H | ⟨H, -⟩)
        · rw [(hstores.unique H).2.2]
        · exact absurd hstores (H text₀)
    · next hne =>
      have hother (text' : String) : ¬ call.Stores site.var place name text' := by
        intro H
        obtain ⟨hplace, hname, -⟩ := hstores.unique H
        exact hne ⟨hplace, hname⟩
      simp only [hother, not_false_eq_true, implies_true, true_and, false_or]
  · simp only [not_exists] at hstores
    simp only [perform_of_not_stores hstores, hstores, not_false_eq_true, implies_true, true_and,
      false_or]

theorem lookup_perform_eq_none : (call.perform site).1.lookup place name = none ↔
    (∀ text, ¬ call.Stores site.var place name text) ∧ site.lookup place name = none := by
  simp only [Option.eq_none_iff_forall_ne_some, ne_eq, lookup_perform, not_or]
  constructor
  · intro H
    have hstores (text : String) : ¬ call.Stores site.var place name text := (H text).1
    exact ⟨hstores, fun text hsome => (H text).2 ⟨hstores, hsome⟩⟩
  · rintro ⟨hstores, hnone⟩ text
    exact ⟨hstores text, fun hsome => hnone text hsome.2⟩

/-- A call that fails leaves the site as it was. -/
theorem perform_of_error (H : (call.perform site).2 = .error e) : (call.perform site).1 = site := by
  apply perform_of_not_stores
  intro place name text hstores
  rw [hstores.perform_eq] at H
  cases H

end Call

/-! ## Runs -/

variable {calls : List Call} {call : Call} {i : Nat} {place : Place} {name text : String}

theorem run_concat (calls : List Call) (call : Call) :
    run (calls ++ [call]) = (call.perform (run calls)).1 := by
  rw [run, foldl_append]
  rfl

theorem StoresAt.lt_length (H : StoresAt calls i place name text) : i < calls.length := by
  obtain ⟨_, hcall, -⟩ := H
  exact (List.getElem?_eq_some_iff.1 hcall).1

theorem storesAt_concat : StoresAt (calls ++ [call]) i place name text ↔
    StoresAt calls i place name text ∨
      i = calls.length ∧ call.Stores (run calls).var place name text := by
  rcases Nat.lt_trichotomy i calls.length with hlt | rfl | hlt
  · simp only [StoresAt, getElem?_append_left hlt, take_append_of_le_length (Nat.le_of_lt hlt),
      Nat.ne_of_lt hlt, false_and, or_false]
  · simp [StoresAt]
  · constructor
    · intro H
      have hi := H.lt_length
      rw [length_append, length_singleton] at hi
      omega
    · rintro (H | ⟨rfl, -⟩)
      · exact absurd H.lt_length (Nat.lt_asymm hlt)
      · exact absurd hlt (Nat.lt_irrefl _)

theorem last_concat : Last (calls ++ [call]) place name text ↔
    call.Stores (run calls).var place name text ∨
      (∀ text', ¬ call.Stores (run calls).var place name text') ∧ Last calls place name text := by
  constructor
  · rintro ⟨i, hi, hlast⟩
    rcases storesAt_concat.1 hi with hi | ⟨-, hcall⟩
    · refine .inr ⟨fun text' hcall => ?_, i, hi, fun j hj text' H => ?_⟩
      · exact hlast _ hi.lt_length text' (storesAt_concat.2 (.inr ⟨rfl, hcall⟩))
      · exact hlast j hj text' (storesAt_concat.2 (.inl H))
    · exact .inl hcall
  · rintro (hcall | ⟨hcall, i, hi, hlast⟩)
    · refine ⟨_, storesAt_concat.2 (.inr ⟨rfl, hcall⟩), fun j hj text' H => ?_⟩
      have := H.lt_length
      rw [length_append, length_singleton] at this
      omega
    · refine ⟨i, storesAt_concat.2 (.inl hi), fun j hj text' H => ?_⟩
      rcases storesAt_concat.1 H with H | ⟨-, H⟩
      · exact hlast j hj text' H
      · exact hcall text' H

theorem never_concat : Never (calls ++ [call]) place name ↔
    (∀ text, ¬ call.Stores (run calls).var place name text) ∧ Never calls place name := by
  simp only [Never, storesAt_concat, not_or, not_and]
  constructor
  · intro H
    exact ⟨fun text => (H _ text).2 rfl, fun i text => (H i text).1⟩
  · rintro ⟨hcall, H⟩ i text
    exact ⟨H i text, fun _ => hcall text⟩

theorem lookup_run_eq_some_iff (calls : List Call) {place : Place} {name text : String} :
    (run calls).lookup place name = some text ↔ Last calls place name text := by
  induction calls using reverseRecOn with
  | nil => simp [run, lookup_empty, Last, StoresAt]
  | append_singleton calls call ih => rw [run_concat, Call.lookup_perform, ih, last_concat]

theorem lookup_run_eq_none_iff (calls : List Call) {place : Place} {name : String} :
    (run calls).lookup place name = none ↔ Never calls place name := by
  induction calls using reverseRecOn with
  | nil => simp [run, lookup_empty, Never, StoresAt]
  | append_singleton calls call ih => rw [run_concat, Call.lookup_perform_eq_none, ih, never_concat]

theorem kind_put (site : Site) (place : Place) (name text : String) :
    (site.put place name text).templates.kind = site.templates.kind ∧
      (site.put place name text).styles.kind = site.styles.kind := by
  cases place <;> exact ⟨rfl, rfl⟩

theorem kind_run (calls : List Call) :
    (run calls).templates.kind = "template" ∧ (run calls).styles.kind = "style" := by
  induction calls using reverseRecOn with
  | nil => exact ⟨rfl, rfl⟩
  | append_singleton calls call ih =>
    rw [run_concat]
    by_cases hstores : ∃ place name text, call.Stores (run calls).var place name text
    · obtain ⟨place, name, text, hstores⟩ := hstores
      rw [hstores.perform_eq]
      obtain ⟨htemplates, hstyles⟩ := kind_put (run calls) place name text
      exact ⟨htemplates.trans ih.1, hstyles.trans ih.2⟩
    · simp only [not_exists] at hstores
      rwa [Call.perform_of_not_stores hstores]

/-- At any point of a run a call fails if its name is no string or its tree cannot be pressed, and
then changes nothing. A look-up gives the text stored last under the name, a style sheet with the
variables from before it was stored. -/
theorem run_keeps_last_texts (calls : List Call) :
    (∀ call : Call, ∀ e,
      ((call.perform (run calls)).2 = .error e ↔
        (∀ name, call.name ≠ .string name) ∧ e = .nameExpected call.operation.label ∨
          (∃ name, call.name = .string name) ∧
            ∃ e', call.text (run calls).var = .error e' ∧ e = .malformed e') ∧
      ((call.perform (run calls)).2 = .error e → run (calls ++ [call]) = run calls)) ∧
    ∀ name,
      (∀ text, (run calls).template name = .ok text ↔ Last calls .template name text) ∧
      (∀ e, (run calls).template name = .error e ↔
        Never calls .template name ∧ e = .notFound "template" name) ∧
      (∀ text, (run calls).style name = .ok text ↔ Last calls .style name text) ∧
      (∀ e, (run calls).style name = .error e ↔
        Never calls .style name ∧ e = .notFound "style" name) ∧
      (∀ text, (run calls).var name = some text ↔ Last calls .var name text) ∧
      ((run calls).var name = none ↔ Never calls .var name) := by
  refine ⟨fun call e => ⟨Call.perform_eq_error_iff, fun H => ?_⟩, fun name => ?_⟩
  · rw [run_concat, Call.perform_of_error H]
  · obtain ⟨htemplates, hstyles⟩ := kind_run calls
    refine ⟨fun text => ?_, fun e => ?_, fun text => ?_, fun e => ?_, fun text => ?_, ?_⟩
    · rw [← lookup_run_eq_some_iff]
      exact Registry.get_eq_ok_iff
    · rw [← lookup_run_eq_none_iff, ← htemplates]
      exact Registry.get_eq_error_iff
    · rw [← lookup_run_eq_some_iff]
      exact Registry.get_eq_ok_iff
    · rw [← lookup_run_eq_none_iff, ← hstyles]
      exact Registry.get_eq_error_iff
    · rw [← lookup_run_eq_some_iff]
      rfl
    · rw [← lookup_run_eq_none_iff]
      rfl

example :
    let define (value : String) : Call := ⟨.defineVar, .empty, .string "main", .string value⟩
    let rules : Node := .list [.list [.symbol "p", .list [.symbol "color", .symbol "var(main)"]]]
    (run [define "red", ⟨.registerStyle, .empty, .string "page", rules⟩, define "blue",
      ⟨.registerStyle, .empty, .symbol "page", rules⟩]).style "page" =
        .ok "p \x7b\n  color: red;\n\x7d\n" := by
  decide +kernel

end Site
end ListPress
