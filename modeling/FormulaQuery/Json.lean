import FormulaQuery.KeyMap
import FormulaQuery.Number.Shortest

/-!
# JSON values

The members of an object stand in ascending order of their keys.
-/

namespace FormulaQuery

inductive Json where
  | null
  | bool (value : Bool)
  | number (value : Binary64)
  | string (text : String)
  | array (items : List Json)
  | object (members : KeyMap Json)
deriving Repr

end FormulaQuery
