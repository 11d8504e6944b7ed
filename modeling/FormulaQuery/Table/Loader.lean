import FormulaQuery.Json.Parser
import FormulaQuery.Table

/-!
# Loading a schema

A schema is written as a JSON object with the name of the table, its columns with their types, and its
relationships, which are such objects themselves. Entries are visited in ascending order of their keys, and the
first fault met is the one reported.
-/

namespace FormulaQuery

namespace SchemaError

/-- What stands where another value does. -/
inductive Shape where
  | object | string | typeName
deriving DecidableEq, Repr

def Shape.text : Shape → String
  | object => "an object"
  | string => "a string"
  | typeName => "a type name"

/-- The text of a path of keys from the root. -/
def pathText (path : List String) : String := path.foldl (fun s key => s ++ "." ++ key) "$"

end SchemaError

inductive SchemaError where
  | json (error : Json.ReadError)
  | missingField (path : List String) (field : String)
  | invalidValue (path : List String) (expected : SchemaError.Shape)
  | unknownType (path : List String) (column : String) (typeName : String)
deriving DecidableEq, Repr

def SchemaError.message : SchemaError → String
  | json e => "Invalid schema JSON: " ++ e.message
  | missingField path field => "Missing field '" ++ field ++ "' at " ++ pathText path
  | invalidValue path expected => "Expected " ++ expected.text ++ " at " ++ pathText path
  | unknownType path column typeName =>
    "Unknown type '" ++ typeName ++ "' for column '" ++ column ++ "' at " ++ pathText path

namespace Table

/-- The string under the given key. -/
def readString (members : KeyMap Json) (path : List String) (field : String) : Except SchemaError String :=
  match members.find? field with
  | some (.string s) => .ok s
  | some _ => .error (.invalidValue (path ++ [field]) .string)
  | none => .error (.missingField path field)

/-- The type of a column. -/
def readType (path : List String) (column : String) : Json → Except SchemaError ValueType
  | .string s =>
    match ValueType.ofSpelling? s with
    | some t => .ok t
    | none => .error (.unknownType path column s)
  | _ => .error (.invalidValue (path ++ [column]) .typeName)

def readColumns (members : KeyMap Json) (path : List String) : Except SchemaError (NameMap ValueType) :=
  let path := path ++ ["columnList"]
  match members.find? "columnList" with
  | none => .ok .empty
  | some (.object columns) => do
    let entries ← columns.entries.mapM fun e => do return (e.1, ← readType path e.1 e.2)
    return .ofList entries
  | some _ => .error (.invalidValue path .object)

mutual

/-- The table of the given name with the columns and relationships of an object. -/
def readTable (name : String) (members : KeyMap Json) (path : List String) : Except SchemaError Table := do
  let columns ← readColumns members path
  let direct ← readLinks members path "relationshipInfo"
  let inverse ← readLinks members path "inverseRelationshipInfo"
  return ⟨name, columns, direct, inverse⟩
termination_by 2 * sizeOf members + 1

def readLinks (members : KeyMap Json) (path : List String) (field : String) :
    Except SchemaError (NameMap (Link Table)) :=
  match h : members.find? field with
  | none => .ok .empty
  | some (.object ⟨links⟩) => do
    have : sizeOf links < sizeOf members := by
      have := KeyMap.sizeOf_find?_lt h
      simp only [Json.object.sizeOf_spec, KeyMap.mk.sizeOf_spec] at this
      omega
    let entries ← readEntries links (path ++ [field])
    return .ofList entries
  | some _ => .error (.invalidValue (path ++ [field]) .object)
termination_by 2 * sizeOf members

def readEntries (links : List (String × Json)) (path : List String) :
    Except SchemaError (List (String × Link Table)) :=
  match links with
  | [] => .ok []
  | (name, .object members) :: rest => do
    let here := path ++ [name]
    let table ← readString members here "tableName"
    let joinColumn ← readString members here "joinColumn"
    let target ← readTable table members here
    let more ← readEntries rest path
    return (name, ⟨joinColumn, target⟩) :: more
  | (name, _) :: _ => .error (.invalidValue (path ++ [name]) .object)
termination_by 2 * sizeOf links
decreasing_by
  all_goals
    simp only [List.cons.sizeOf_spec, Prod.mk.sizeOf_spec, Json.object.sizeOf_spec]
    omega

end

/-- The schema that a JSON value describes. -/
def ofJson : Json → Except SchemaError Table
  | .object members => do
    let name ← readString members [] "tableName"
    readTable name members []
  | _ => .error (.invalidValue [] .object)

/-- The schema that a JSON text describes. -/
def ofString (s : String) : Except SchemaError Table :=
  match Json.parse s with
  | .ok v => ofJson v
  | .error e => .error (.json e)

end Table

end FormulaQuery
