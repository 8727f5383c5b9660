import ListPress.Text.Blank

/-! # Tokens of the source text

`scan` takes the first token off a text. Positions are kept as what is left of the text there. -/

namespace ListPress

/-- The characters that end a word. -/
def isDelimiter (c : Char) : Bool :=
  isBlank c || c == '(' || c == ')' || c == '"' || c == ';' || c == '\''

inductive Token where
  | opening
  | closing
  | quote
  | string (text : String)
  | word (chars : List Char)
  /-- No token starts here, or a string literal goes wrong at `position`. -/
  | fault (position : List Char)
  | finish

/-- The first token of a text, the text from its first character on, and the text after it. -/
structure Lexeme where
  start : List Char
  token : Token
  rest : List Char

namespace Lexeme

/-- Skip spaces and comments. A comment runs from `;` to a line end or the end of the text; in one,
`comment` is the text from its `;` on, and a carriage return without a line feed makes it none. -/
def skipFrom : (comment : Option (List Char)) → List Char → List Char
  | none, [] => []
  | none, c :: cs =>
    if isSpace c then skipFrom none cs
    else if c = ';' then skipFrom (some (c :: cs)) cs
    else c :: cs
  | some _, [] => []
  | some _, '\n' :: cs => skipFrom none cs
  | some start, '\r' :: cs =>
    match cs with
    | '\n' :: cs => skipFrom none cs
    | _ => start
  | some start, _ :: cs => skipFrom (some start) cs

def skip (cs : List Char) : List Char := skipFrom none cs

def escape? : Char → Option Char
  | 'n' => some '\n'
  | 't' => some '\t'
  | 'r' => some '\r'
  | '\\' => some '\\'
  | '"' => some '"'
  | _ => none

/-- The text of a string literal and what follows it, or where it goes wrong. -/
def stringBody : List Char → (seen : List Char) → Except (List Char) (String × List Char)
  | '"' :: cs, seen => .ok (String.ofList seen.reverse, cs)
  | '\\' :: c :: cs, seen =>
    match escape? c with
    | some e => stringBody cs (e :: seen)
    | none => .error ('\\' :: c :: cs)
  | ['\\'], _ => .error []
  | c :: cs, seen => stringBody cs (c :: seen)
  | [], _ => .error []

/-- The lexeme of a text that starts with neither a space nor a comment. -/
def first (start : List Char) : Lexeme :=
  match start with
  | [] => ⟨[], .finish, []⟩
  | '(' :: rest => ⟨start, .opening, rest⟩
  | ')' :: rest => ⟨start, .closing, rest⟩
  | '\'' :: rest => ⟨start, .quote, rest⟩
  | '"' :: body =>
    match stringBody body [] with
    | .ok (text, rest) => ⟨start, .string text, rest⟩
    | .error position => ⟨start, .fault position, []⟩
  | c :: cs =>
    if isDelimiter c then ⟨start, .fault start, []⟩
    else ⟨start, .word (c :: cs.takeWhile (!isDelimiter ·)), cs.dropWhile (!isDelimiter ·)⟩

def scan (cs : List Char) : Lexeme := first (skip cs)

/-! ## Every token takes characters off the text -/

theorem skipFrom_length_le (comment : Option (List Char)) (cs : List Char) :
    (skipFrom comment cs).length ≤ max cs.length ((comment.map List.length).getD 0) := by
  fun_induction skipFrom comment cs <;>
    simp only [List.length_cons, List.length_nil, Option.map_some, Option.map_none,
      Option.getD_some, Option.getD_none] at * <;>
    omega

theorem skip_length_le (cs : List Char) : (skip cs).length ≤ cs.length := by
  simpa [skip] using skipFrom_length_le none cs

theorem stringBody_rest_le {cs seen text rest} (H : stringBody cs seen = .ok (text, rest)) :
    rest.length ≤ cs.length := by
  fun_induction stringBody cs seen <;> simp_all <;> omega

theorem first_rest_lt {cs : List Char} (hf : (first cs).token ≠ .finish)
    (he : ∀ position, (first cs).token ≠ .fault position) : (first cs).rest.length < cs.length := by
  revert hf he
  fun_cases first cs with
  | case1 => exact fun hf => absurd rfl hf
  | case2 | case3 | case4 => exact fun _ _ => Nat.lt_succ_self _
  | case5 body text rest h => exact fun _ _ => Nat.lt_succ_of_le (stringBody_rest_le h)
  | case6 body position h => exact fun _ he => absurd rfl (he position)
  | case7 => exact fun _ he => absurd rfl (he _)
  | case8 => exact fun _ _ => Nat.lt_succ_of_le (List.dropWhile_sublist _).length_le

theorem scan_rest_lt {cs : List Char} (hf : (scan cs).token ≠ .finish)
    (he : ∀ position, (scan cs).token ≠ .fault position) : (scan cs).rest.length < cs.length :=
  Nat.lt_of_lt_of_le (first_rest_lt hf he) (skip_length_le cs)

end Lexeme
end ListPress
