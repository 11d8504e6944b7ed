import FormulaQuery.AggregateFunction
import FormulaQuery.Formula
import FormulaQuery.Signature

/-!
# Typing rules

The types of results of operators and aggregates, and the ways in which a formula can go against the rules.
-/

namespace FormulaQuery

namespace BinaryOperator

/-- The type of a result, if the operator takes operands of these types.  A number added to a date moves it by days,
and the difference of two dates is a number of days. -/
def resultType? (op : BinaryOperator) (left right : ValueType) : Option ValueType :=
  match op with
  | .concat =>
    match left, right with
    | .string, .string | .string, .null | .null, .string | .null, .null => some .string
    | _, _ => none
  | .add =>
    match left, right with
    | .null, .null => some .null
    | .number, .number | .number, .null | .null, .number => some .number
    | .date, .number | .date, .null | .null, .date => some .date
    | _, _ => none
  | .subtract =>
    match left, right with
    | .null, .null => some .null
    | .number, .number | .number, .null | .null, .number => some .number
    | .date, .number | .date, .null => some .date
    | .date, .date => some .number
    | _, _ => none
  | .multiply | .divide =>
    match left, right with
    | .null, .null => some .null
    | .number, .number | .number, .null | .null, .number => some .number
    | _, _ => none
  | .equal | .notEqual | .less | .greater | .lessEqual | .greaterEqual =>
    if left.compatible right then some .boolean else none

end BinaryOperator

namespace AggregateFunction

/-- The one type of input that an aggregate folds, if there is one. -/
def inputType? : AggregateFunction → Option ValueType
  | sum | avg => some .number
  | and | or => some .boolean
  | stringAgg | stringAggDistinct => some .string
  | count | min | max => none

/-- Whether an aggregate folds values of the given type; the least and the greatest are not sought among booleans. -/
def acceptsInput (f : AggregateFunction) (t : ValueType) : Bool :=
  match f with
  | count => true
  | min | max => t != .boolean
  | sum | avg => t.compatible .number
  | and | or => t.compatible .boolean
  | stringAgg | stringAggDistinct => t.compatible .string

/-- The type of the result for input of the given type. -/
def resultType (f : AggregateFunction) (input : ValueType) : ValueType :=
  match f with
  | stringAgg | stringAggDistinct => .string
  | sum | count | avg => .number
  | and | or => .boolean
  | min | max => input

end AggregateFunction

/-- Ways to go against the typing rules. -/
inductive TypeFault where
  /-- A path outside the first argument of an aggregate. -/
  | misplacedPath (segments : List String)
  | negation (found : ValueType)
  | operands (op : BinaryOperator) (left right : ValueType)
  /-- A reference through no relationship at all. -/
  | emptyChain
  /-- An argument, counted from zero, of the wrong type. -/
  | argument (index : Nat) (parameter : Parameter) (function : String) (found : ValueType)
  | branches (first second : ValueType)
  | replacement (value default : ValueType)
  | unitNotLiteral
  | unknownUnit (unit : String)
  | nestedAggregate (f : AggregateFunction)
  | pathExpected (f : AggregateFunction)
  | emptyPath (f : AggregateFunction)
  | delimiterNotConstant (f : AggregateFunction)
  | delimiterType (f : AggregateFunction) (found : ValueType)
  | aggregateInput (f : AggregateFunction) (found : ValueType)
deriving DecidableEq, Repr

/-- A path as messages show it. -/
def pathText (segments : List String) : String := Ascii.lower (".".intercalate segments)

namespace TypeFault

def operandsMessage (op : BinaryOperator) (left right : ValueType) : String :=
  match op with
  | .concat =>
    s!"Operator '&' joins text only, got {left.name} and {right.name}; convert other values with STRING() first"
  | .add | .subtract =>
    if left = .date ∧ right = .date then
      "Cannot add two dates; subtract them to get the number of days between"
    else s!"Operator '{op.symbol}' cannot be applied to {left.name} and {right.name}"
  | .multiply | .divide => s!"Operator '{op.symbol}' requires numbers, got {left.name} and {right.name}"
  | _ => s!"Cannot compare {left.name} with {right.name} using '{op.symbol}'"

def message : TypeFault → String
  | misplacedPath segments =>
    s!"Relationship path '{pathText segments}' can only be the first argument of an aggregate function"
  | negation found => s!"Cannot negate a {found.name} value"
  | operands op left right => operandsMessage op left right
  | emptyChain => "Relationship reference needs at least one relationship"
  | argument index parameter function found =>
    s!"Argument {index + 1} ('{parameter.name}') of {function} must be {parameter.type.name}, got {found.name}"
  | branches first second => s!"IF branches must have the same type, got {first.name} and {second.name}"
  | replacement value default =>
    s!"NULLVALUE default must match the value type {value.name}, got {default.name}"
  | unitNotLiteral => "DATEDIF unit must be a text literal: \"days\", \"months\" or \"years\""
  | unknownUnit unit => s!"Unknown DATEDIF unit \"{unit}\"; use \"days\", \"months\" or \"years\""
  | nestedAggregate f => s!"{f.name} cannot be used inside another aggregate"
  | pathExpected f => s!"The first argument of {f.name} must be a relationship name"
  | emptyPath f => s!"{f.name} needs a relationship to aggregate over"
  | delimiterNotConstant f => s!"The delimiter of {f.name} must be a constant"
  | delimiterType f found => s!"The delimiter of {f.name} must be text, got {found.name}"
  | aggregateInput f found =>
    match f.inputType? with
    | some expected => s!"{f.name} expects a {expected.name} expression, got {found.name}"
    | none => s!"{f.name} expects a number, date or string expression, got {found.name}"

end TypeFault

end FormulaQuery
