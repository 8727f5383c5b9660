import ListPress.Node.Sequence
import ListPress.Table

/-! # Registries of named texts -/

namespace ListPress

inductive RegistryError where
  | notFound (kind name : String)
  /-- An operation was given a name that is not a string. -/
  | nameExpected (operation : String)
  | malformed (error : StructureError)
deriving DecidableEq

def RegistryError.message : RegistryError → String
  | .notFound kind name => s!"{kind} '{name}' not registered"
  | .nameExpected operation => s!"invalid argument: {operation} requires a name string"
  | .malformed error => error.message

/-- Texts of one kind under their names. -/
structure Registry where
  kind : String
  texts : Table String

namespace Registry

def empty (kind : String) : Registry := ⟨kind, .empty⟩

/-- A text replaces the one that was registered under its name before. -/
def register (registry : Registry) (name text : String) : Registry :=
  { registry with texts := registry.texts.insert name text }

def get (registry : Registry) (name : String) : Except RegistryError String :=
  match registry.texts.get? name with
  | some text => .ok text
  | none => .error (.notFound registry.kind name)

def contains (registry : Registry) (name : String) : Bool := registry.texts.contains name

/-- The names that are registered, in order. -/
def names (registry : Registry) : List String := registry.texts.names

/-- The names with their texts, in the order of the names. -/
def entries (registry : Registry) : List (String × String) := registry.texts.entries

def size (registry : Registry) : Nat := registry.texts.size

def isEmpty (registry : Registry) : Bool := registry.texts.isEmpty

variable {registry : Registry} {name text : String}

theorem get_eq_ok_iff : registry.get name = .ok text ↔ registry.texts.get? name = some text := by
  rw [get]
  cases registry.texts.get? name <;> simp

theorem get_eq_error_iff {e : RegistryError} : registry.get name = .error e ↔
    registry.texts.get? name = none ∧ e = .notFound registry.kind name := by
  rw [get]
  cases registry.texts.get? name <;> simp [eq_comm]

theorem get_congr {registry' : Registry} (hkind : registry.kind = registry'.kind)
    (H : registry.texts.get? name = registry'.texts.get? name) :
    registry.get name = registry'.get name := by
  rw [get, get, hkind, H]

end Registry
end ListPress
