import FormulaQuery.Text.Ascii

/-!
# Aggregate functions

The functions that fold an expression over the rows of a related table.
-/

namespace FormulaQuery

inductive AggregateFunction where
  | stringAgg | stringAggDistinct | sum | count | avg | min | max | and | or
deriving DecidableEq, Repr

namespace AggregateFunction

def all : List AggregateFunction := [stringAgg, stringAggDistinct, sum, count, avg, min, max, and, or]

/-- The name of the function in a formula. -/
def name : AggregateFunction → String
  | stringAgg => "STRING_AGG"
  | stringAggDistinct => "STRING_AGG_DISTINCT"
  | sum => "SUM_AGG"
  | count => "COUNT_AGG"
  | avg => "AVG_AGG"
  | min => "MIN_AGG"
  | max => "MAX_AGG"
  | and => "AND_AGG"
  | or => "OR_AGG"

def ofName? (s : String) : Option AggregateFunction := all.find? fun f => f.name == Ascii.upper s

/-- Whether a third argument separates the folded texts. -/
def takesDelimiter : AggregateFunction → Bool
  | stringAgg | stringAggDistinct => true
  | _ => false

end AggregateFunction

end FormulaQuery
