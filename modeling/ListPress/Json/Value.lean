import ListPress.Number.Layout
import ListPress.Text.Hex

/-! # JSON values and their text -/

namespace ListPress

inductive Json where
  | null
  | bool (value : Bool)
  /-- A number written without fraction and exponent, within 64 bits. -/
  | integer (value : Int)
  | double (value : Binary64)
  | string (text : String)
  | array (items : List Json)
  | object (fields : List (String × Json))
deriving Inhabited

namespace Json

/-- Numbers are positional from a hundred-thousandth up to 16 digits and keep their point; of two
equally near decimals the even one is written. -/
def numberLayout : NumberLayout where
  leastPlain := -5
  mostPlain := 15
  keepPoint := true
  signedZero := true
  tie := .toEven

def escapeChar (c : Char) : List Char :=
  match c with
  | '"' => ['\\', '"']
  | '\\' => ['\\', '\\']
  | '\n' => ['\\', 'n']
  | '\r' => ['\\', 'r']
  | '\t' => ['\\', 't']
  | c =>
    if c.toNat = 0x08 then ['\\', 'b']
    else if c.toNat = 0x0C then ['\\', 'f']
    else if c.toNat < 0x20 then
      ['\\', 'u', '0', '0', hexDigit (c.toNat / 16), hexDigit (c.toNat % 16)]
    else [c]

def quoted (text : String) : String :=
  String.ofList ('"' :: text.toList.flatMap escapeChar ++ ['"'])

mutual
/-- Append the text of a value, without spaces. -/
def write (out : String) : Json → String
  | .null => out ++ "null"
  | .bool b => out ++ if b then "true" else "false"
  | .integer n => out ++ toString n
  | .double x => if x.isFinite then out ++ String.ofList (numberLayout.finite x) else out ++ "null"
  | .string text => out ++ quoted text
  | .array items => writeItems (out ++ "[") true items
  | .object fields => writeFields (out ++ "\x7b") true fields

def writeItems (out : String) (first : Bool) : List Json → String
  | [] => out ++ "]"
  | item :: items => writeItems (write (if first then out else out ++ ",") item) false items

def writeFields (out : String) (first : Bool) : List (String × Json) → String
  | [] => out ++ "\x7d"
  | (name, value) :: fields =>
    let out := if first then out else out ++ ","
    writeFields (write (out ++ quoted name ++ ":") value) false fields
end

def print (value : Json) : String := write "" value

end Json
end ListPress
