/-! # Path texts -/

namespace ListPress
namespace Path

def isAbsolute (path : String) : Bool := path.toList.head? == some '/'

/-- Put a path after a base. An absolute path replaces the base, and an empty base adds nothing. -/
def join (base path : String) : String :=
  if isAbsolute path || base.isEmpty then path
  else if base.toList.getLast? = some '/' then base ++ path
  else base ++ "/" ++ path

/-! ## Parts -/

/-- Put a character in front of a text that is divided at its slashes. -/
def addChar (c : Char) (parts : List (List Char)) : List (List Char) :=
  if c = '/' then [] :: parts
  else match parts with
    | [] => [[c]]
    | part :: parts => (c :: part) :: parts

/-- The parts of a path between slashes, empty ones and dots among them. -/
def parts (path : String) : List String :=
  (path.toList.foldr addChar [[]]).map String.ofList

/-- Whether a part leads nowhere else. -/
def isIdle (part : String) : Bool := part == "" || part == "."

/-- Parts without the idle ones at the end. The first part is kept: it is empty in an absolute path,
and a dot there counts as a component. -/
def trim : List String → List String
  | [] => []
  | first :: parts => first :: (parts.reverse.dropWhile isIdle).reverse

/-- The path without its last component. -/
def parent? (path : String) : Option String :=
  match trim (parts path) with
  | [] | [""] => none
  | [_] => some ""
  | parts =>
    match trim parts.dropLast with
    | [""] => some "/"
    | parts => some ("/".intercalate parts)

/-- The last component, unless it is one of the dots. -/
def fileName? (path : String) : Option String :=
  match (trim (parts path)).getLast? with
  | some "" | some "." | some ".." | none => none
  | some name => some name

/-- What follows the last dot of the file name; a dot at its start does not count. -/
def extension? (path : String) : Option String := do
  let chars := (← fileName? path).toList.reverse
  let after := chars.takeWhile (· != '.')
  match chars.drop after.length with
  | '.' :: _ :: _ => some (String.ofList after.reverse)
  | _ => none

end Path
end ListPress
