/-! # Variable references in text

A reference is `var(NAME)`, the name being all up to the first closing parenthesis. A text that is
one reference stands for its value; in any other text the references are replaced, and a result
`--NAME` as a whole stands for the value of the name. -/

namespace ListPress

/-- Where the values of names come from. -/
abbrev Bindings := String → Option String

def Bindings.unbound : Bindings := fun _ => none

namespace Reference

/-- The name of the reference that a text starts with, and the text after it. -/
def start? : List Char → Option (List Char × List Char)
  | 'v' :: 'a' :: 'r' :: '(' :: cs =>
    match cs.takeWhile (· != ')'), cs.dropWhile (· != ')') with
    | name@(_ :: _), ')' :: rest => some (name, rest)
    | _, _ => none
  | _ => none

theorem start?_rest_lt {cs name rest} (H : start? cs = some (name, rest)) :
    rest.length < cs.length := by
  unfold start? at H
  split at H
  · next cs =>
    split at H
    · next hd =>
      have := (List.dropWhile_sublist (l := cs) (· != ')')).length_le
      rw [hd] at this
      simp only [Option.some.injEq, Prod.mk.injEq, List.length_cons] at H this ⊢
      obtain ⟨_, rfl⟩ := H
      omega
    · cases H
  · cases H

/-- The name of a text that is one reference. -/
def whole? (cs : List Char) : Option (List Char) :=
  match start? cs with
  | some (name, []) => some name
  | _ => none

/-- The text written for a reference: its value, or the reference itself. -/
def value (vars : Bindings) (name : List Char) : List Char :=
  match vars (String.ofList name) with
  | some text => text.toList
  | none => ['v', 'a', 'r', '('] ++ name ++ [')']

/-- Replace the references from left to right, after the text `seen`, its last character first. -/
def substitute (vars : Bindings) (cs seen : List Char) : List Char :=
  match cs with
  | [] => seen.reverse
  | c :: cs =>
    match _h : start? (c :: cs) with
    | some (name, rest) => substitute vars rest ((value vars name).reverseAux seen)
    | none => substitute vars cs (c :: seen)
termination_by cs.length
decreasing_by
  · exact start?_rest_lt _h
  · simp

/-- Divide a text after its last closing parenthesis. No reference starts in the second part. -/
def divide (cs : List Char) : List Char × List Char :=
  let back := cs.reverse.takeWhile (· != ')')
  ((cs.reverse.drop back.length).reverse, back.reverse)

def isNameChar (c : Char) : Bool := c.isAlphanum || c == '_' || c == '-'

/-- The name of a text `--NAME`. -/
def dashed? : List Char → Option (List Char)
  | '-' :: '-' :: name => if name ≠ [] ∧ name.all isNameChar then some name else none
  | _ => none

end Reference

/-- The text with its variables replaced by their values. -/
def resolveVars (vars : Bindings) (text : String) : String :=
  match Reference.whole? text.toList with
  | some name => (vars (String.ofList name)).getD text
  | none =>
    let (front, back) := Reference.divide text.toList
    let cs := Reference.substitute vars front [] ++ back
    let text := String.ofList cs
    match Reference.dashed? cs with
    | some name => (vars (String.ofList name)).getD text
    | none => text

end ListPress
