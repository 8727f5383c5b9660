import ListPress.Json.Value
import ListPress.Number.Literal
import ListPress.Text.Blank

/-! # Tokens of JSON text -/

namespace ListPress
namespace Json

/-! ## Numbers

The significand is read as far as 64 bits go, as a double, and then multiplied or divided by the
double of a power of ten; so a number with many digits may miss its nearest double by a little. -/

def maxSignificand : Nat := 0xFFFFFFFFFFFFFFFF

/-- Take digits into the significand while it fits; returns it with the digits that did not. -/
def takeDigits : (significand : Nat) → List Char → Nat × List Char
  | significand, [] => (significand, [])
  | significand, c :: cs =>
    let next := 10 * significand + (c.toNat - '0'.toNat)
    if maxSignificand < next then (significand, c :: cs) else takeDigits next cs

def powerOfTen (k : Nat) : Binary64 := .ofDecimal false 1 k

/-- Scale by a power of ten; none if the result is infinite. -/
def scale (x : Binary64) (exponent : Int) : Option Binary64 :=
  if exponent.natAbs ≤ 308 then
    if 0 ≤ exponent then
      let y := x.mulAbs (powerOfTen exponent.natAbs)
      if y.isFinite then some y else none
    else some (x.divAbs (powerOfTen exponent.natAbs))
  else if x.magnitude = 0 then some x
  else if 0 ≤ exponent then none
  else scale (x.divAbs (powerOfTen 308)) (exponent + 308)
termination_by exponent.natAbs
decreasing_by omega

/-- The value of a number from its sign, its digits before and after the point, and its exponent. -/
def numberValue (negative : Bool) (whole : List Char) (places : Option (List Char))
    (exponent : Option Int) : Option Json :=
  let (significand, dropped) := takeDigits 0 whole
  if places.isNone && exponent.isNone && dropped.isEmpty then
    if !negative then some (.integer significand)
    else if 0 < significand ∧ significand ≤ 0x8000000000000000 then some (.integer (-significand))
    else some (.double (.ofRatio true significand 1))
  else
    let (significand, ignored) := takeDigits significand (places.getD [])
    let used := (places.getD []).length - ignored.length
    let exponent := exponent.getD 0 + dropped.length - used
    (scale (.ofNat significand) exponent).map fun x =>
      .double (.ofMagnitude negative x.magnitude)

/-- The fraction of a number: the digits after a point, if there is one. -/
def fractionPart? : List Char → Option (Option (List Char) × List Char)
  | '.' :: cs =>
    let digits := cs.takeWhile Literal.isDigit
    if digits = [] then none else some (some digits, cs.dropWhile Literal.isDigit)
  | cs => some (none, cs)

/-- Exponents from here on are all alike: they make a number zero, or too large. -/
def exponentBound : Nat := 0x80000000

def exponentPart? : List Char → Option (Option Int × List Char)
  | [] => some (none, [])
  | c :: cs =>
    if c = 'e' ∨ c = 'E' then
      let (negative, cs) := Literal.sign cs
      let digits := cs.takeWhile Literal.isDigit
      if digits = [] then none
      else
        let e : Int := Literal.boundedValue 10 exponentBound (digits.map Literal.digitValue)
        some (some (if negative then -e else e), cs.dropWhile Literal.isDigit)
    else some (none, c :: cs)

/-- A number after its sign. -/
def unsigned? (negative : Bool) (cs : List Char) : Option (Json × List Char) := do
  let whole := cs.takeWhile Literal.isDigit
  if whole = [] ∨ (whole.head? = some '0' ∧ whole.length ≠ 1) then none
  let (places, cs) ← fractionPart? (cs.dropWhile Literal.isDigit)
  let (exponent, cs) ← exponentPart? cs
  let value ← numberValue negative whole places exponent
  pure (value, cs)

/-! ## Strings -/

/-- Four hexadecimal digits. -/
def unit? : List Char → Option (Nat × List Char)
  | a :: b :: c :: d :: cs => do
    let n := (← hexValue? a) * 4096 + (← hexValue? b) * 256 + (← hexValue? c) * 16 + (← hexValue? d)
    pure (n, cs)
  | _ => none

/-- The character of a `\u` escape: one 16-bit unit, or the two of a surrogate pair. -/
def unicodeEscape? (cs : List Char) : Option (Char × List Char) := do
  let (high, cs) ← unit? cs
  if 0xD800 ≤ high ∧ high < 0xDC00 then
    match cs with
    | '\\' :: 'u' :: cs =>
      let (low, cs) ← unit? cs
      if 0xDC00 ≤ low ∧ low < 0xE000 then
        pure (Char.ofNat (0x10000 + (high - 0xD800) * 0x400 + (low - 0xDC00)), cs)
      else none
    | _ => none
  else if 0xDC00 ≤ high ∧ high < 0xE000 then none
  else pure (Char.ofNat high, cs)

def escape? : Char → Option Char
  | '"' => some '"'
  | '\\' => some '\\'
  | '/' => some '/'
  | 'b' => some '\x08'
  | 'f' => some '\x0c'
  | 'n' => some '\n'
  | 'r' => some '\r'
  | 't' => some '\t'
  | _ => none

theorem unit?_rest_le {cs n rest} (H : unit? cs = some (n, rest)) : rest.length ≤ cs.length := by
  unfold unit? at H
  split at H
  · simp only [Option.pure_def, Option.bind_eq_bind, Option.bind_eq_some_iff] at H
    grind
  · cases H

theorem unicodeEscape?_rest_le {cs c rest} (H : unicodeEscape? cs = some (c, rest)) :
    rest.length ≤ cs.length := by
  simp only [unicodeEscape?, Option.pure_def, Option.bind_eq_bind, Option.bind_eq_some_iff] at H
  obtain ⟨⟨high, cs₁⟩, h₁, H⟩ := H
  have := unit?_rest_le h₁
  simp only at H
  split at H
  · split at H
    · simp only [Option.bind_eq_some_iff] at H
      obtain ⟨⟨low, cs₂⟩, h₂, H⟩ := H
      have := unit?_rest_le h₂
      grind
    · cases H
  · grind

/-- The text of a string up to its closing quote, after the characters `seen`, the last one first. -/
def stringBody? (cs seen : List Char) : Option (String × List Char) :=
  match cs with
  | [] => none
  | '"' :: cs => some (String.ofList seen.reverse, cs)
  | '\\' :: 'u' :: cs =>
    match _h : unicodeEscape? cs with
    | some (c, rest) => stringBody? rest (c :: seen)
    | none => none
  | '\\' :: c :: cs =>
    match escape? c with
    | some c => stringBody? cs (c :: seen)
    | none => none
  | c :: cs => if c = '\\' ∨ c.toNat < 0x20 then none else stringBody? cs (c :: seen)
termination_by cs.length
decreasing_by
  · have := unicodeEscape?_rest_le _h
    simp only [List.length_cons]
    omega
  · simp only [List.length_cons]
    omega
  · simp

/-! ## Tokens -/

inductive Token where
  /-- One of the brackets, the colon and the comma. -/
  | mark (c : Char)
  | scalar (value : Json)
  | finish

def isMark (c : Char) : Bool :=
  c == '[' || c == ']' || c == '{' || c == '}' || c == ':' || c == ','

def skip (cs : List Char) : List Char := cs.dropWhile isSpace

/-- The first token of a text that starts with no space, and the text after it. -/
def first? : List Char → Option (Token × List Char)
  | [] => some (.finish, [])
  | '"' :: cs => (stringBody? cs []).map fun (text, rest) => (.scalar (.string text), rest)
  | '-' :: cs => (unsigned? true cs).map fun (value, rest) => (.scalar value, rest)
  | 'n' :: 'u' :: 'l' :: 'l' :: cs => some (.scalar .null, cs)
  | 't' :: 'r' :: 'u' :: 'e' :: cs => some (.scalar (.bool true), cs)
  | 'f' :: 'a' :: 'l' :: 's' :: 'e' :: cs => some (.scalar (.bool false), cs)
  | c :: cs =>
    if isMark c then some (.mark c, cs)
    else (unsigned? false (c :: cs)).map fun (value, rest) => (.scalar value, rest)

def scan? (cs : List Char) : Option (Token × List Char) := first? (skip cs)

/-! ## Every token takes characters off the text -/

theorem stringBody?_rest_lt {cs seen text rest} (H : stringBody? cs seen = some (text, rest)) :
    rest.length < cs.length := by
  fun_induction stringBody? cs seen with
  | case3 seen cs c rest' h ih =>
    have := unicodeEscape?_rest_le h
    have := ih H
    simp only [List.length_cons]
    omega
  | _ => grind

theorem fractionPart?_rest_le {cs places rest} (H : fractionPart? cs = some (places, rest)) :
    rest.length ≤ cs.length := by
  have dropped (cs : List Char) := (List.dropWhile_sublist Literal.isDigit (l := cs)).length_le
  unfold fractionPart? at H
  grind

theorem exponentPart?_rest_le {cs exponent rest} (H : exponentPart? cs = some (exponent, rest)) :
    rest.length ≤ cs.length := by
  have dropped (cs : List Char) := (List.dropWhile_sublist Literal.isDigit (l := cs)).length_le
  unfold exponentPart? at H
  grind [Literal.sign_rest_le]

theorem unsigned?_rest_lt {negative cs value rest}
    (H : unsigned? negative cs = some (value, rest)) : rest.length < cs.length := by
  have whole := congrArg List.length
    (List.takeWhile_append_dropWhile (p := Literal.isDigit) (l := cs))
  rw [List.length_append] at whole
  simp only [unsigned?, Option.bind_eq_bind, Option.pure_def] at H
  split at H
  · cases H
  · next hw =>
    have := List.length_pos_iff.2 fun h => hw (.inl h)
    simp only [Option.bind_eq_some_iff, Option.some.injEq, Prod.mk.injEq] at H
    obtain ⟨p, hp, e, he, _, _, _, rfl⟩ := H
    have := fractionPart?_rest_le hp
    have := exponentPart?_rest_le he
    omega

theorem first?_rest_lt {cs token rest} (H : first? cs = some (token, rest))
    (hf : token ≠ .finish) : rest.length < cs.length := by
  unfold first? at H
  split at H
  · grind
  · simp only [Option.map_eq_some_iff, Prod.exists, Prod.mk.injEq] at H
    obtain ⟨_, _, H, _, rfl⟩ := H
    exact Nat.lt_succ_of_lt (stringBody?_rest_lt H)
  · simp only [Option.map_eq_some_iff, Prod.exists, Prod.mk.injEq] at H
    obtain ⟨_, _, H, _, rfl⟩ := H
    exact Nat.lt_succ_of_lt (unsigned?_rest_lt H)
  iterate 3 grind
  · split at H
    · grind
    · simp only [Option.map_eq_some_iff, Prod.exists, Prod.mk.injEq] at H
      obtain ⟨_, _, H, _, rfl⟩ := H
      exact unsigned?_rest_lt H

theorem scan?_rest_lt {cs token rest} (H : scan? cs = some (token, rest)) (hf : token ≠ .finish) :
    rest.length < cs.length :=
  Nat.lt_of_lt_of_le (first?_rest_lt H hf) (List.dropWhile_sublist isSpace).length_le

end Json
end ListPress
