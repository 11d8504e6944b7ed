import FormulaQuery.Text.Ascii
import FormulaQuery.Text.Blank

/-!
# Types of values

The types that columns and expressions have. `null` is the type of the bare `NULL`, which goes with every other type.
-/

namespace FormulaQuery

inductive ValueType where
  | number | string | boolean | date | null
deriving DecidableEq, Repr

namespace ValueType

def name : ValueType → String
  | number => "number"
  | string => "string"
  | boolean => "boolean"
  | date => "date"
  | null => "null"

/-- The spellings of the types in a schema. -/
def spellings : List (String × ValueType) :=
  [("number", number), ("numeric", number), ("integer", number), ("int", number), ("bigint", number),
    ("decimal", number), ("float", number), ("double", number),
    ("string", string), ("text", string), ("varchar", string), ("char", string), ("uuid", string),
    ("boolean", boolean), ("bool", boolean),
    ("date", date), ("timestamp", date), ("datetime", date), ("timestamptz", date),
    ("null", null)]

/-- The type with this spelling; blanks around it and ASCII case do not matter. -/
def ofSpelling? (s : String) : Option ValueType :=
  spellings.lookup (Ascii.lower (String.ofList (Blank.trim s.toList)))

/-- Two types go together if they are equal or one of them is `null`. -/
def compatible (s t : ValueType) : Bool := s == t || s == null || t == null

/-- The type of a value that is of either of two compatible types. -/
def unify (s t : ValueType) : ValueType := if s = null then t else s

end ValueType

end FormulaQuery
