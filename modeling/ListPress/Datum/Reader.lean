import ListPress.Datum.Basic
import ListPress.Datum.Token
import ListPress.Number.Literal

/-! # Reading data

The reader goes over the tokens once, with a stack of the forms that are still open. The depth of a
datum is the number of forms open around it. -/

namespace ListPress

/-- The deepest level a datum may be read at is one less. -/
def maxReadDepth : Nat := 256

inductive ReadError where
  | unexpected (offset : Nat) (near : String)
  | incomplete
  | tooDeep
  | trailing (offset : Nat)
deriving DecidableEq

def ReadError.message : ReadError → String
  | .unexpected offset near => s!"syntax error at offset {offset} near '{near}'"
  | .incomplete => "unexpected end of input"
  | .tooDeep => s!"expression too deeply nested (max depth: {maxReadDepth})"
  | .trailing offset => s!"unexpected content after expression at offset {offset}"

namespace Reader

/-- Why reading stopped: at what is left of the text, or at the depth limit. -/
inductive Fault where
  | stopped (position : List Char)
  | tooDeep

/-- A form that is still open, with its items so far, the last one first. -/
inductive Frame where
  | quote
  | items (seen : List Datum)
  /-- After the dot of a dotted list. -/
  | tail (seen : List Datum)

/-- What the reader waits for: a datum, or the parenthesis that closes a dotted list. -/
inductive Mode where
  | datum
  | close (seen : List Datum) (tail : Datum)

inductive Step where
  | done (datum : Datum)
  | next (mode : Mode) (stack : List Frame)
  | stop (fault : Fault)

/-- A word is a boolean, a number or a symbol. -/
def wordAtom (chars : List Char) : Atom :=
  if chars = ['#', 't'] then .bool true
  else if chars = ['#', 'f'] then .bool false
  else if Literal.looksNumeric chars then
    match Literal.number? chars with
    | some x => .number x
    | none => .symbol (String.ofList chars)
  else .symbol (String.ofList chars)

def quoted (datum : Datum) : Datum := .list [.symbol "quote", datum]

/-- A finished list of items, given in reverse. -/
def closed : (seen : List Datum) → Datum
  | [] => .nil
  | seen => .list seen.reverse

/-- A dotted list. The items of a list after the dot continue the chain. -/
def dotted (seen : List Datum) : (tail : Datum) → Datum
  | .list more => .consReverse seen (.chain more .nil)
  | tail => .consReverse seen tail

/-- Hand a finished datum to the innermost open form. -/
def deliver (datum : Datum) : List Frame → Step
  | [] => .done datum
  | .quote :: stack => deliver (quoted datum) stack
  | .items seen :: stack => .next .datum (.items (datum :: seen) :: stack)
  | .tail seen :: stack => .next (.close seen datum) stack

/-- Start a datum with the token of `lexeme`. -/
def begin (stack : List Frame) (lexeme : Lexeme) : Step :=
  if maxReadDepth ≤ stack.length then .stop .tooDeep
  else match lexeme.token with
    | .opening => .next .datum (.items [] :: stack)
    | .quote => .next .datum (.quote :: stack)
    | .string text => deliver (.atom (.string text)) stack
    | .word chars => deliver (.atom (wordAtom chars)) stack
    | .fault position => .stop (.stopped position)
    | .closing => .stop (.stopped lexeme.start)
    | .finish => .stop (.stopped [])

def step (lexeme : Lexeme) : Mode → List Frame → Step
  | .close seen tail, stack =>
    match lexeme.token with
    | .closing => deliver (dotted seen tail) stack
    | _ => .stop (.stopped lexeme.start)
  | .datum, .items seen :: stack =>
    match lexeme.token with
    | .closing => deliver (closed seen) stack
    | .word ['.'] =>
      if seen = [] then .stop (.stopped lexeme.start) else .next .datum (.tail seen :: stack)
    | _ => begin (.items seen :: stack) lexeme
  | .datum, stack => begin stack lexeme

/-- Only a real token leads on. -/
theorem step_stop {lexeme : Lexeme} (mode : Mode) (stack : List Frame)
    (H : lexeme.token = .finish ∨ ∃ position, lexeme.token = .fault position) :
    ∃ fault, step lexeme mode stack = .stop fault := by
  unfold step begin
  rcases H with H | ⟨position, H⟩ <;> split <;> rw [H] <;> simp only <;> try split
  all_goals exact ⟨_, rfl⟩

theorem scan_rest_lt_of_step {cs : List Char} (mode : Mode) (stack : List Frame)
    (H : ∀ fault, step (Lexeme.scan cs) mode stack ≠ .stop fault) :
    (Lexeme.scan cs).rest.length < cs.length := by
  refine Lexeme.scan_rest_lt (fun h => ?_) fun position h => ?_
  · have ⟨fault, h⟩ := step_stop mode stack (.inl h)
    exact H fault h
  · have ⟨fault, h⟩ := step_stop mode stack (.inr ⟨position, h⟩)
    exact H fault h

/-- Read on until the datum that the stack waits for is finished, and return it with what is left of
the text. -/
def run (mode : Mode) (stack : List Frame) (cs : List Char) : Except Fault (Datum × List Char) :=
  match _h : step (Lexeme.scan cs) mode stack with
  | .done datum => .ok (datum, (Lexeme.scan cs).rest)
  | .stop fault => .error fault
  | .next mode' stack' => run mode' stack' (Lexeme.scan cs).rest
termination_by cs.length
decreasing_by exact scan_rest_lt_of_step mode stack (by simp [_h])

theorem run_rest_lt {mode stack cs datum rest}
    (H : run mode stack cs = .ok (datum, rest)) : rest.length < cs.length := by
  fun_induction run mode stack cs with
  | case1 mode stack cs d h =>
    simp only [Except.ok.injEq, Prod.mk.injEq] at H
    exact H.2 ▸ scan_rest_lt_of_step mode stack (by simp [h])
  | case2 => cases H
  | case3 mode stack cs mode' stack' h ih =>
    exact Nat.lt_trans (ih H) (scan_rest_lt_of_step mode stack (by simp [h]))

/-- One datum with nothing open around it. -/
def datum (cs : List Char) : Except Fault (Datum × List Char) := run .datum [] cs

/-! ## Positions in the text -/

def utf8Length (cs : List Char) : Nat := cs.foldl (fun n c => n + c.utf8Size) 0

/-- The byte offset of what is left of a text. -/
def offset (text rest : List Char) : Nat := utf8Length text - utf8Length rest

def Fault.toError (text : List Char) : Fault → ReadError
  | .tooDeep => .tooDeep
  | .stopped [] => .incomplete
  | .stopped position =>
    .unexpected (offset text position) (String.ofList (position.take 10))

/-- All data of `rest`, after those in `seen`, the last one first. -/
def all (text rest : List Char) (seen : List Datum) : Except ReadError (List Datum) :=
  match Lexeme.skip rest with
  | [] => .ok seen.reverse
  | _ =>
    match _h : datum rest with
    | .ok (d, rest') => all text rest' (d :: seen)
    | .error fault => .error (fault.toError text)
termination_by rest.length
decreasing_by exact run_rest_lt _h

end Reader

/-- The one datum of a text. -/
def Datum.read (text : String) : Except ReadError Datum :=
  match Reader.datum text.toList with
  | .error fault => .error (fault.toError text.toList)
  | .ok (datum, rest) =>
    match Lexeme.skip rest with
    | [] => .ok datum
    | rest => .error (.trailing (Reader.offset text.toList rest))

/-- All data of a text. -/
def Datum.readAll (text : String) : Except ReadError (List Datum) :=
  Reader.all text.toList text.toList []

/-- A document is one datum; a quote in front of it counts for nothing. -/
def Datum.readDocument (text : String) : Except ReadError Datum := do
  match ← Datum.read text with
  | .list [.atom (.symbol "quote"), datum] => pure datum
  | datum => pure datum

end ListPress
