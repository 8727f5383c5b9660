import ListPress.Number.Literal
import ListPress.Toml.Text
import ListPress.Toml.Value

/-! # Numbers, booleans, dates and times of TOML -/

namespace ListPress
namespace Toml

open Literal (isDigit digitsValue boundedValue exponentValue rounded sign)

/-! ## Numbers -/

/-- Digits with single underscores before them, after those `seen`, the last one first. Returns the
digits alone, and what is left. -/
def digitRun (isDigit : Char → Bool) : List Char → (seen : List Char) → List Char × List Char
  | '_' :: c :: cs, seen =>
    if isDigit c then digitRun isDigit cs (c :: seen) else (seen.reverse, '_' :: c :: cs)
  | c :: cs, seen =>
    if isDigit c then digitRun isDigit cs (c :: seen) else (seen.reverse, c :: cs)
  | [], seen => (seen.reverse, [])

/-- A run of digits, which starts with a digit. -/
def digits? (isDigit : Char → Bool) : List Char → Option (List Char × List Char)
  | [] => none
  | c :: cs =>
    if isDigit c then some (digitRun isDigit cs [c]) else none

/-- A whole number without leading zeros. -/
def wholeDigits? : List Char → Option (List Char × List Char)
  | '0' :: cs => some (['0'], cs)
  | cs => digits? isDigit cs

def minInteger : Int := -0x8000000000000000

def maxInteger : Int := 0x7FFFFFFFFFFFFFFF

def integer? (n : Int) : Option Toml :=
  if minInteger ≤ n ∧ n ≤ maxInteger then some (.integer n) else none

/-- The value of digits, as far as it tells whether it is an integer. -/
def wholeValue (radix : Nat) (digits : List Char) : Nat :=
  boundedValue radix 0x8000000000000001 (digits.map fun c => (hexValue? c).getD 0)

def radixInteger? (radix : Nat) (cs : List Char) : Option (Toml × List Char) := do
  let (digits, rest) ← digits? (fun c => (hexValue? c).any (· < radix)) cs
  pure (← integer? (wholeValue radix digits), rest)

def exponentPart? : List Char → Option (Int × List Char)
  | [] => none
  | c :: cs =>
    if c = 'e' ∨ c = 'E' then do
      let (negative, cs) := sign cs
      let (digits, rest) ← digits? isDigit cs
      pure (exponentValue negative digits, rest)
    else none

/-- The part that makes a number a float: digits after a point, an exponent, or both. -/
def fractionPart? : List Char → Option ((List Char × Int) × List Char)
  | '.' :: cs => do
    let (places, cs) ← digits? isDigit cs
    match exponentPart? cs with
    | some (exponent, rest) => pure ((places, exponent), rest)
    | none => pure ((places, 0), cs)
  | cs => do
    let (exponent, rest) ← exponentPart? cs
    pure (([], exponent), rest)

/-- A float may not be too large; but one far below zero becomes infinite. -/
def float? (x : Binary64) : Option Toml :=
  if x = .ofMagnitude false Binary64.infinityBits then none else some (.float x)

def nan (negative : Bool) : Toml := .float (.ofMagnitude negative (Binary64.infinityBits + 1))

def infinity (negative : Bool) : Toml := .float (.ofMagnitude negative Binary64.infinityBits)

def number? (cs : List Char) : Option (Toml × List Char) :=
  match cs with
  | '0' :: 'x' :: cs => radixInteger? 16 cs
  | '0' :: 'o' :: cs => radixInteger? 8 cs
  | '0' :: 'b' :: cs => radixInteger? 2 cs
  | cs =>
    let (negative, cs) := sign cs
    match cs with
    | 'i' :: 'n' :: 'f' :: rest => some (infinity negative, rest)
    | 'n' :: 'a' :: 'n' :: rest => some (nan negative, rest)
    | cs => do
      let (whole, cs) ← wholeDigits? cs
      match fractionPart? cs with
      | some ((places, exponent), rest) =>
        let x := rounded negative (whole ++ places) (exponent - places.length)
        pure (← float? x, rest)
      | none =>
        let n : Int := wholeValue 10 whole
        pure (← integer? (if negative then -n else n), cs)

/-! ## Dates and times -/

/-- A number of exactly `count` digits. -/
def fixedDigits? (count : Nat) (cs : List Char) : Option (Nat × List Char) :=
  let digits := cs.take count
  if digits.length = count ∧ digits.all isDigit then some (digitsValue digits, cs.drop count)
  else none

/-- Two digits up to a bound. -/
def upTo? (bound : Nat) (cs : List Char) : Option (Nat × List Char) := do
  let (n, rest) ← fixedDigits? 2 cs
  if n ≤ bound then some (n, rest) else none

/-- A number with leading zeros up to `width` digits. -/
def padded (width n : Nat) : List Char :=
  let digits := Nat.toDigits 10 n
  List.replicate (width - digits.length) '0' ++ digits

def isLeapYear (year : Nat) : Bool :=
  year % 4 == 0 && (year % 100 != 0 || year % 400 == 0)

def daysInMonth (year month : Nat) : Nat :=
  if month = 2 then if isLeapYear year then 29 else 28
  else if month ∈ [4, 6, 9, 11] then 30
  else 31

def date? (cs : List Char) : Option (List Char × List Char) := do
  let (year, cs) ← fixedDigits? 4 cs
  let (month, cs) ← upTo? 12 (← expect? '-' cs)
  let (day, cs) ← upTo? 31 (← expect? '-' cs)
  if 1 ≤ month ∧ 1 ≤ day ∧ day ≤ daysInMonth year month then
    some (padded 4 year ++ '-' :: padded 2 month ++ '-' :: padded 2 day, cs)
  else none

/-- Fractions of a second, cut to nine places and without zeros at the end. -/
def secondFraction : List Char → List Char × List Char
  | '.' :: cs =>
    match cs.takeWhile isDigit with
    | [] => ([], '.' :: cs)
    | digits =>
      let places := ((digits.take 9).reverse.dropWhile (· == '0')).reverse
      (if places = [] then [] else '.' :: places, cs.dropWhile isDigit)
  | cs => ([], cs)

def time? (cs : List Char) : Option (List Char × List Char) := do
  let (hour, cs) ← upTo? 23 cs
  let (minute, cs) ← upTo? 59 (← expect? ':' cs)
  let (second, cs) ← upTo? 60 (← expect? ':' cs)
  let (fraction, cs) := secondFraction cs
  pure (padded 2 hour ++ ':' :: padded 2 minute ++ ':' :: padded 2 second ++ fraction, cs)

/-- The distance from universal time, if it is given. -/
def offset? : List Char → Option (List Char × List Char)
  | [] => some ([], [])
  | c :: cs =>
    if c = 'Z' ∨ c = 'z' then some (['Z'], cs)
    else if c = '+' ∨ c = '-' then do
      let (hour, cs) ← upTo? 23 cs
      let (minute, cs) ← upTo? 59 (← expect? ':' cs)
      let mark := if hour = 0 ∧ minute = 0 then '+' else c
      pure (mark :: padded 2 hour ++ ':' :: padded 2 minute, cs)
    else some ([], c :: cs)

/-- The time after a date, if there is one. -/
def timeOfDay? : List Char → Option (List Char × List Char)
  | [] => some ([], [])
  | c :: cs =>
    if c = 'T' ∨ c = 't' ∨ c = ' ' then
      match time? cs with
      | some (time, cs) => do
        let (offset, cs) ← offset? cs
        pure ('T' :: time ++ offset, cs)
      | none => some ([], c :: cs)
    else some ([], c :: cs)

def datetime? (cs : List Char) : Option (Toml × List Char) :=
  match date? cs with
  | some (date, cs) => do
    let (time, cs) ← timeOfDay? cs
    pure (.datetime (String.ofList (date ++ time)), cs)
  | none => (time? cs).map fun (time, cs) => (.datetime (String.ofList time), cs)

/-- A value that is neither an array nor a table. -/
def scalar? (cs : List Char) : Option (Toml × List Char) :=
  match cs with
  | 't' :: 'r' :: 'u' :: 'e' :: rest => some (.boolean true, rest)
  | 'f' :: 'a' :: 'l' :: 's' :: 'e' :: rest => some (.boolean false, rest)
  | '"' :: _ | '\'' :: _ => (string? cs).map fun (text, rest) => (.string text, rest)
  | _ => (datetime? cs).or (number? cs)

end Toml
end ListPress
