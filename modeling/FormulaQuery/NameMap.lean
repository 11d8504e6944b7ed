import FormulaQuery.Text.Ascii

/-!
# Maps by name

A map whose keys are names that are the same if they differ only in ASCII case. Entries stand in the order in which
their names were first inserted, under the spelling of the last insertion.
-/

namespace FormulaQuery

/-- Replaces the first entry whose name is the same as `name`, or adds one at the end. -/
def replaceOrAppend {α : Type} (same : String → String → Bool) (name : String) (value : α) :
    List (String × α) → List (String × α)
  | [] => [(name, value)]
  | e :: es => if same e.1 name then (name, value) :: es else e :: replaceOrAppend same name value es

structure NameMap (α : Type) where
  entries : List (String × α)
deriving DecidableEq, Repr

namespace NameMap

variable {α : Type}

def empty : NameMap α := ⟨[]⟩

def insert (m : NameMap α) (name : String) (value : α) : NameMap α :=
  ⟨replaceOrAppend Ascii.sameName name value m.entries⟩

/-- The entry of a name, with its spelling in the map. -/
def get? (m : NameMap α) (name : String) : Option (String × α) := m.entries.find? fun e => Ascii.sameName e.1 name

def ofList (es : List (String × α)) : NameMap α := es.foldl (fun m e => m.insert e.1 e.2) empty

def names (m : NameMap α) : List String := m.entries.map (·.1)

def size (m : NameMap α) : Nat := m.entries.length

def isEmpty (m : NameMap α) : Bool := m.entries.isEmpty

end NameMap

end FormulaQuery
