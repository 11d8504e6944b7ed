import FormulaQuery.Token

/-!
# Formulas

A parsed formula. Every node carries the place of its first token; an operator stands at the place of its left
operand. Names are kept as the lexer leaves them, in capitals.
-/

namespace FormulaQuery

inductive BinaryOperator where
  | equal | notEqual | less | greater | lessEqual | greaterEqual
  | add | subtract | multiply | divide
  | concat
deriving DecidableEq, Repr

namespace BinaryOperator

/-- The spelling of an operator; `<>` in a formula is `notEqual` too. -/
def symbol : BinaryOperator → String
  | equal => "="
  | notEqual => "!="
  | less => "<"
  | greater => ">"
  | lessEqual => "<="
  | greaterEqual => ">="
  | add => "+"
  | subtract => "-"
  | multiply => "*"
  | divide => "/"
  | concat => "&"

def isComparison : BinaryOperator → Bool
  | equal | notEqual | less | greater | lessEqual | greaterEqual => true
  | _ => false

/-- Operators of a lower precedence bind more tightly. -/
def precedence : BinaryOperator → Nat
  | multiply | divide => 1
  | add | subtract | concat => 2
  | _ => 3

def ofSymbol? : Symbol → Option BinaryOperator
  | .equal => some equal
  | .notEqual | .lessGreater => some notEqual
  | .less => some less
  | .greater => some greater
  | .lessEqual => some lessEqual
  | .greaterEqual => some greaterEqual
  | .plus => some add
  | .minus => some subtract
  | .star => some multiply
  | .slash => some divide
  | .ampersand => some concat
  | .leftParen | .rightParen | .comma | .dot => none

end BinaryOperator

inductive Formula where
  | number (pos : Position) (value : Binary64)
  | string (pos : Position) (text : String)
  | boolean (pos : Position) (value : Bool)
  | null (pos : Position)
  | date (pos : Position) (text : String)
  /-- A column of the current table. -/
  | column (pos : Position) (name : String)
  /-- A column reached through a chain of many-to-one relationships. -/
  | related (pos : Position) (chain : List String) (field : Option String)
  /-- A path of one-to-many relationships, the first argument of an aggregate. -/
  | path (pos : Position) (segments : List String)
  | negate (pos : Position) (operand : Formula)
  | binary (pos : Position) (op : BinaryOperator) (left right : Formula)
  | call (pos : Position) (name : String) (args : List Formula)
deriving Repr

namespace Formula

def pos : Formula → Position
  | number p _ | string p _ | boolean p _ | null p | date p _ | column p _ | related p _ _ | path p _
  | negate p _ | binary p _ _ _ | call p _ _ => p

/-- Names of many-to-one relationships end so in a formula. -/
def relationEnding : String := "_REL"

def isRelationName (name : String) : Bool := relationEnding.toList.isSuffixOf name.toList

/-- A word that is no call and no relationship: a literal, or else a column. -/
def ofWord (pos : Position) (name : String) : Formula :=
  if name = "TRUE" then .boolean pos true
  else if name = "FALSE" then .boolean pos false
  else if name = "NULL" then .null pos
  else .column pos name

end Formula

end FormulaQuery
