import FormulaQuery.ValueType

/-!
# Signatures of functions

What is known of a function apart from its meaning: its name, its parameters, and the type of its result.
-/

namespace FormulaQuery

inductive Category where
  | math | text | logical | date | aggregate
deriving DecidableEq, Repr

namespace Category

def all : List Category := [math, text, logical, date, aggregate]

def name : Category → String
  | math => "math"
  | text => "text"
  | logical => "logical"
  | date => "date"
  | aggregate => "aggregate"

end Category

inductive ParameterType where
  | number | string | boolean | date
  /-- A value of any type. -/
  | any
  /-- The path of a one-to-many relationship, which is no value. -/
  | relationship
deriving DecidableEq, Repr

namespace ParameterType

def name : ParameterType → String
  | number => "number"
  | string => "string"
  | boolean => "boolean"
  | date => "date"
  | any => "any"
  | relationship => "relationship"

/-- Whether an argument of the given type will do; a `null` does for every value. -/
def accepts : ParameterType → ValueType → Bool
  | any, _ => true
  | relationship, _ => false
  | _, .null => true
  | number, t => t == .number
  | string, t => t == .string
  | boolean, t => t == .boolean
  | date, t => t == .date

end ParameterType

structure Parameter where
  name : String
  type : ParameterType
  optional : Bool
  /-- Whether it stands for any number of arguments. -/
  variadic : Bool
deriving DecidableEq, Repr

namespace Parameter

/-- A parameter that takes one argument. -/
def one (name : String) (type : ParameterType) : Parameter := ⟨name, type, false, false⟩

/-- A parameter that takes at most one argument. -/
def upToOne (name : String) (type : ParameterType) : Parameter := ⟨name, type, true, false⟩

/-- A parameter that takes any number of arguments. -/
def many (name : String) (type : ParameterType) : Parameter := ⟨name, type, false, true⟩

def text (p : Parameter) : String :=
  p.name ++ (if p.variadic then "..." else if p.optional then "?" else "") ++ ": " ++ p.type.name

end Parameter

structure Signature where
  name : String
  category : Category
  description : String
  parameters : List Parameter
  /-- The type of the result, unless it depends on the arguments. -/
  returns : Option ValueType
  /-- The fewest arguments, where the parameters do not tell. -/
  least : Option Nat
  /-- Whether calls are checked by rules of their own. -/
  special : Bool
deriving DecidableEq, Repr

namespace Signature

/-- The fewest arguments of a call. -/
def minArity (s : Signature) : Nat := s.least.getD (s.parameters.countP fun p => !p.optional)

/-- The most arguments of a call, if there is a limit. -/
def maxArity? (s : Signature) : Option Nat :=
  if s.parameters.any (·.variadic) then none else some s.parameters.length

/-- The parameter of the argument at `index`, counted from zero. -/
def parameter? (s : Signature) (index : Nat) : Option Parameter :=
  match s.parameters[index]? with
  | some p => some p
  | none => s.parameters.getLast?.filter (·.variadic)

/-- The signature as it is shown, such as `ROUND(value: number, digits?: number)`. -/
def text (s : Signature) : String :=
  s.name ++ "(" ++ ", ".intercalate (s.parameters.map Parameter.text) ++ ")"

end Signature

end FormulaQuery
