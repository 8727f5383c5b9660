import ListPress.Text.Hex

/-! # Strings, keys and blanks of TOML

Each function takes something off the front of a text and returns what is left. -/

namespace ListPress
namespace Toml

def isGap (c : Char) : Bool := c == ' ' || c == '\t'

def skipGap (cs : List Char) : List Char := cs.dropWhile isGap

/-- Characters that may stand in a comment, and in a string unless they mean something there. -/
def isPlain (c : Char) : Bool := c == '\t' || 0x20 ≤ c.toNat && c.toNat != 0x7F

/-- Take a character off the text. -/
def expect? (c : Char) : List Char → Option (List Char)
  | [] => none
  | d :: cs => if d = c then some cs else none

def newline? : List Char → Option (List Char)
  | '\n' :: cs => some cs
  | '\r' :: '\n' :: cs => some cs
  | _ => none

theorem newline?_rest_lt {cs rest} (H : newline? cs = some rest) : rest.length < cs.length := by
  unfold newline? at H
  grind

/-- Skip a comment, if there is one. -/
def skipComment : List Char → List Char
  | '#' :: cs => cs.dropWhile isPlain
  | cs => cs

theorem skipComment_length_le (cs : List Char) : (skipComment cs).length ≤ cs.length := by
  have dropped (cs : List Char) := (List.dropWhile_sublist isPlain (l := cs)).length_le
  unfold skipComment
  grind

theorem skipGap_length_le (cs : List Char) : (skipGap cs).length ≤ cs.length :=
  (List.dropWhile_sublist isGap).length_le

/-- The end of a line: blanks, a comment, and a line break or the end of the text. -/
def lineEnd? (cs : List Char) : Option (List Char) :=
  match skipComment (skipGap cs) with
  | [] => some []
  | cs => newline? cs

/-- Skip blanks, comments and line breaks, as between the items of an array. A comment that no line
break ends is left there. -/
def skipLines (cs : List Char) : List Char :=
  match _h : newline? (skipComment (skipGap cs)) with
  | some rest => skipLines rest
  | none => skipGap cs
termination_by cs.length
decreasing_by
  have := newline?_rest_lt _h
  have := skipComment_length_le (skipGap cs)
  have := skipGap_length_le cs
  omega

/-! ## Strings -/

/-- A character given by hexadecimal digits. -/
def codePoint? (digits : Nat) (cs : List Char) : Option (Char × List Char) := do
  let values ← (cs.take digits).mapM hexValue?
  let n := values.foldl (fun n d => 16 * n + d) 0
  if values.length = digits ∧ n.isValidChar then some (Char.ofNat n, cs.drop digits) else none

/-- The character of an escape, after its backslash. -/
def escape? : List Char → Option (Char × List Char)
  | 'b' :: cs => some ('\x08', cs)
  | 't' :: cs => some ('\t', cs)
  | 'n' :: cs => some ('\n', cs)
  | 'f' :: cs => some ('\x0c', cs)
  | 'r' :: cs => some ('\r', cs)
  | '"' :: cs => some ('"', cs)
  | '\\' :: cs => some ('\\', cs)
  | 'u' :: cs => codePoint? 4 cs
  | 'U' :: cs => codePoint? 8 cs
  | _ => none

theorem codePoint?_rest_le {digits cs c rest} (H : codePoint? digits cs = some (c, rest)) :
    rest.length ≤ cs.length := by
  simp only [codePoint?, Option.bind_eq_bind, Option.bind_eq_some_iff] at H
  obtain ⟨values, -, H⟩ := H
  split at H
  · simp only [Option.some.injEq, Prod.mk.injEq] at H
    simp [← H.2]
  · cases H

theorem escape?_rest_lt {cs c rest} (H : escape? cs = some (c, rest)) :
    rest.length < cs.length := by
  unfold escape? at H
  split at H <;> try grind
  all_goals exact Nat.lt_succ_of_le (codePoint?_rest_le H)

/-- The text of a string in double quotes, after the characters `seen`, the last one first. -/
def basicBody? (cs seen : List Char) : Option (String × List Char) :=
  match cs with
  | [] => none
  | '"' :: cs => some (String.ofList seen.reverse, cs)
  | '\\' :: cs =>
    match _h : escape? cs with
    | some (c, rest) => basicBody? rest (c :: seen)
    | none => none
  | c :: cs => if isPlain c then basicBody? cs (c :: seen) else none
termination_by cs.length
decreasing_by
  · exact Nat.lt_succ_of_lt (escape?_rest_lt _h)
  · simp

/-- The text of a string in single quotes. -/
def literalBody? (cs : List Char) : Option (String × List Char) :=
  let body := cs.takeWhile fun c => isPlain c && c != '\''
  match cs.drop body.length with
  | '\'' :: rest => some (String.ofList body, rest)
  | _ => none

/-- The rest of a string of several lines from its closing quotes on. Up to two more quotes belong
to the text. -/
def closeLines (quote : Char) (seen : List Char) : List Char → String × List Char
  | a :: b :: cs =>
    if a = quote ∧ b = quote then (String.ofList (quote :: quote :: seen).reverse, cs)
    else if a = quote then (String.ofList (quote :: seen).reverse, b :: cs)
    else (String.ofList seen.reverse, a :: b :: cs)
  | [a] =>
    if a = quote then (String.ofList (quote :: seen).reverse, [])
    else (String.ofList seen.reverse, [a])
  | [] => (String.ofList seen.reverse, [])

/-- Skip blanks and line breaks. -/
def skipBreaks (cs : List Char) : List Char :=
  match _h : newline? (skipGap cs) with
  | some rest => skipBreaks rest
  | none => skipGap cs
termination_by cs.length
decreasing_by
  have := newline?_rest_lt _h
  have := skipGap_length_le cs
  omega

theorem skipBreaks_length_le (cs : List Char) : (skipBreaks cs).length ≤ cs.length := by
  fun_induction skipBreaks cs with
  | case1 cs rest h ih =>
    have := newline?_rest_lt h
    have := skipGap_length_le cs
    omega
  | case2 cs h => exact skipGap_length_le cs

/-- The line break, and all blanks and line breaks after it, that a backslash takes out. -/
def joinedLine? (cs : List Char) : Option (List Char) :=
  (newline? (skipGap cs)).map skipBreaks

theorem joinedLine?_rest_lt {cs rest} (H : joinedLine? cs = some rest) :
    rest.length < cs.length := by
  simp only [joinedLine?, Option.map_eq_some_iff] at H
  obtain ⟨cs', h, rfl⟩ := H
  have := newline?_rest_lt h
  have := skipGap_length_le cs
  have := skipBreaks_length_le cs'
  omega

/-- The text of a string of several lines in double quotes. -/
def basicLines? (cs seen : List Char) : Option (String × List Char) :=
  match cs with
  | [] => none
  | '"' :: '"' :: '"' :: cs => some (closeLines '"' seen cs)
  | '\\' :: cs =>
    match _hj : joinedLine? cs with
    | some rest => basicLines? rest seen
    | none =>
      match _h : escape? cs with
      | some (c, rest) => basicLines? rest (c :: seen)
      | none => none
  | c :: cs =>
    match _h : newline? (c :: cs) with
    | some rest => basicLines? rest ('\n' :: seen)
    | none => if isPlain c then basicLines? cs (c :: seen) else none
termination_by cs.length
decreasing_by
  · exact Nat.lt_succ_of_lt (joinedLine?_rest_lt _hj)
  · exact Nat.lt_succ_of_lt (escape?_rest_lt _h)
  · exact newline?_rest_lt _h
  · simp

/-- The text of a string of several lines in single quotes. -/
def literalLines? (cs seen : List Char) : Option (String × List Char) :=
  match cs with
  | [] => none
  | '\'' :: '\'' :: '\'' :: cs => some (closeLines '\'' seen cs)
  | c :: cs =>
    match _h : newline? (c :: cs) with
    | some rest => literalLines? rest ('\n' :: seen)
    | none => if isPlain c then literalLines? cs (c :: seen) else none
termination_by cs.length
decreasing_by
  · exact newline?_rest_lt _h
  · simp

/-- A line break right after the opening quotes does not count. -/
def skipNewline (cs : List Char) : List Char := (newline? cs).getD cs

def string? : List Char → Option (String × List Char)
  | '"' :: '"' :: '"' :: cs => basicLines? (skipNewline cs) []
  | '"' :: cs => basicBody? cs []
  | '\'' :: '\'' :: '\'' :: cs => literalLines? (skipNewline cs) []
  | '\'' :: cs => literalBody? cs
  | _ => none

/-! ## Keys -/

def isBareKeyChar (c : Char) : Bool := c.isAlphanum || c == '-' || c == '_'

/-- One part of a key. -/
def keyPart? : List Char → Option (String × List Char)
  | '"' :: cs => basicBody? cs []
  | '\'' :: cs => literalBody? cs
  | cs =>
    match cs.takeWhile isBareKeyChar with
    | [] => none
    | key => some (String.ofList key, cs.dropWhile isBareKeyChar)

theorem basicBody?_rest_lt {cs seen text rest} (H : basicBody? cs seen = some (text, rest)) :
    rest.length < cs.length := by
  fun_induction basicBody? cs seen with
  | case3 seen cs c rest' h ih =>
    have := escape?_rest_lt h
    have := ih H
    simp only [List.length_cons]
    omega
  | _ => grind

theorem literalBody?_rest_lt {cs text rest} (H : literalBody? cs = some (text, rest)) :
    rest.length < cs.length := by
  unfold literalBody? at H
  simp only at H
  split at H
  · next h =>
    have := congrArg List.length h
    simp only [List.length_drop, List.length_cons, Option.some.injEq, Prod.mk.injEq] at this H
    obtain ⟨_, rfl⟩ := H
    omega
  · cases H

theorem keyPart?_rest_lt {cs key rest} (H : keyPart? cs = some (key, rest)) :
    rest.length < cs.length := by
  unfold keyPart? at H
  split at H
  · exact Nat.lt_succ_of_lt (basicBody?_rest_lt H)
  · exact Nat.lt_succ_of_lt (literalBody?_rest_lt H)
  · split at H
    · cases H
    · next hne =>
      have := congrArg List.length
        (List.takeWhile_append_dropWhile (p := isBareKeyChar) (l := cs))
      rw [List.length_append] at this
      have := List.length_pos_iff.2 hne
      simp only [Option.some.injEq, Prod.mk.injEq] at H
      obtain ⟨_, rfl⟩ := H
      omega

/-- The most parts a key may have is one less. -/
def maxKeyParts : Nat := 80

/-- The parts of a dotted key after those `seen`, the last one first. -/
def keyParts? (cs : List Char) (seen : List String) : Option (List String × List Char) :=
  match _h : keyPart? (skipGap cs) with
  | none => none
  | some (part, rest) =>
    match _hr : skipGap rest with
    | '.' :: more => keyParts? more (part :: seen)
    | after => some ((part :: seen).reverse, after)
termination_by cs.length
decreasing_by
  have := keyPart?_rest_lt _h
  have := skipGap_length_le cs
  have := skipGap_length_le rest
  simp only [_hr, List.length_cons] at this
  omega

/-- A key as the path to its table and its last part, with the blanks around it. -/
def key? (cs : List Char) : Option ((List String × String) × List Char) := do
  let (parts, rest) ← keyParts? cs []
  let last ← parts.getLast?
  if parts.length < maxKeyParts then some ((parts.dropLast, last), rest) else none

end Toml
end ListPress
