import ListPress.Number.Binary64

/-! # TOML values and tables

Tables remember how they came to be: a table made by a header or written inline cannot be added to
by other means, one that was only implied can. The functions that add to a table fail on a name that
is taken. -/

namespace ListPress

inductive TableOrigin where
  /-- Written between braces. -/
  | inline
  /-- Opened by a header of its own. -/
  | header
  /-- Passed through by the header of another table. -/
  | implied
  /-- Passed through by a dotted key. -/
  | dotted
deriving DecidableEq

inductive Toml where
  | string (text : String)
  | integer (value : Int)
  | float (value : Binary64)
  | boolean (value : Bool)
  /-- A date, a time or both, in canonical form. -/
  | datetime (text : String)
  | array (items : List Toml)
  | table (origin : TableOrigin) (entries : List (String × Toml))
  /-- The tables of an array of tables but the last, the latest first, and the last. -/
  | tables (earlier : List (List (String × Toml))) (last : List (String × Toml))
deriving Inhabited

namespace Toml

abbrev Entries := List (String × Toml)

/-- Put a value under a key, in place of an earlier one. -/
def Entries.set (entries : Entries) (key : String) (value : Toml) : Entries :=
  entries.filter (·.1 != key) ++ [(key, value)]

/-- Change the table that a path leads to. Missing tables on the way are made; an array of tables
stands for its last table. Dotted keys do not lead into tables with a header. -/
def descend (byDots : Bool) (change : TableOrigin → Entries → Option Entries) :
    (path : List String) → TableOrigin → Entries → Option Entries
  | [], origin, entries => change origin entries
  | key :: path, _, entries => do
    match entries.lookup key with
    | none =>
      let origin := if byDots then .dotted else .implied
      let child ← descend byDots change path origin []
      pure (entries.set key (.table origin child))
    | some (.table origin child) =>
      if origin = .inline ∨ (byDots ∧ origin = .header) then none
      let child ← descend byDots change path origin child
      pure (entries.set key (.table origin child))
    | some (.tables earlier last) =>
      let last ← descend byDots change path .header last
      pure (entries.set key (.tables earlier last))
    | some _ => none

/-- Put a new value at a dotted key. The table it goes to was made by dotted keys, unless the key has
no dots. -/
def insertPair (origin : TableOrigin) (entries : Entries) (path : List String) (key : String)
    (value : Toml) : Option Entries :=
  let add (origin : TableOrigin) (entries : Entries) : Option Entries :=
    if (origin == .dotted) == path.isEmpty || (entries.lookup key).isSome then none
    else some (entries ++ [(key, value)])
  descend true add path origin entries

/-- Open the table of a header. -/
def openTable (root : Entries) (path : List String) (key : String) : Option Entries :=
  let add (_ : TableOrigin) (entries : Entries) : Option Entries :=
    match entries.lookup key with
    | none => some (entries.set key (.table .header []))
    | some (.table .implied child) => some (entries.set key (.table .header child))
    | some _ => none
  descend false add path .header root

/-- Add a table to an array of tables. -/
def openArrayTable (root : Entries) (path : List String) (key : String) : Option Entries :=
  let add (_ : TableOrigin) (entries : Entries) : Option Entries :=
    match entries.lookup key with
    | none => some (entries.set key (.tables [] []))
    | some (.tables earlier last) => some (entries.set key (.tables (last :: earlier) []))
    | some _ => none
  descend false add path .header root

end Toml
end ListPress
