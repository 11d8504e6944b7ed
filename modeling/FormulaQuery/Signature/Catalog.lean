import FormulaQuery.Signature
import FormulaQuery.Text.EditDistance

/-!
# The functions of formulas

The table of all functions, look-up by name, and the names that resemble an unknown one.
-/

namespace FormulaQuery.Signature

open Parameter (one upToOne many)

/-- A function whose calls are checked against its parameters and nothing else. -/
def plain (name : String) (category : Category) (description : String) (parameters : List Parameter)
    (returns : ValueType) : Signature :=
  ⟨name, category, description, parameters, some returns, none, false⟩

/-- A function whose calls are checked by rules of their own. -/
def ruled (name : String) (category : Category) (description : String) (parameters : List Parameter)
    (returns : Option ValueType) (least : Option Nat) : Signature :=
  ⟨name, category, description, parameters, returns, least, true⟩

/-- A function that folds an expression over the rows of a relationship. -/
def fold (name description : String) (parameters : List Parameter) (returns : Option ValueType) : Signature :=
  ruled name .aggregate description (one "relationship" .relationship :: parameters) returns none

def mathFunctions : List Signature :=
  [plain "ABS" .math "Absolute value of a number." [one "value" .number] .number,
    plain "ROUND" .math "Rounds a number to the given number of decimal places (default 0)."
      [one "value" .number, upToOne "digits" .number] .number,
    plain "CEILING" .math "Smallest integer not less than the value." [one "value" .number] .number,
    plain "FLOOR" .math "Largest integer not greater than the value." [one "value" .number] .number,
    plain "POWER" .math "Raises a number to a power." [one "base" .number, one "exponent" .number] .number,
    plain "SQRT" .math "Square root of a number." [one "value" .number] .number]

def textFunctions : List Signature :=
  [plain "UPPER" .text "Converts text to upper case." [one "text" .string] .string,
    plain "LOWER" .text "Converts text to lower case." [one "text" .string] .string,
    plain "TRIM" .text "Removes leading and trailing spaces." [one "text" .string] .string,
    plain "LEN" .text "Number of characters in the text." [one "text" .string] .number,
    plain "LEFT" .text "First characters of the text." [one "text" .string, one "count" .number] .string,
    plain "RIGHT" .text "Last characters of the text." [one "text" .string, one "count" .number] .string,
    plain "CONTAINS" .text "True if the text contains the search string."
      [one "text" .string, one "search" .string] .boolean,
    plain "STRING" .text "Converts any value to text." [one "value" .any] .string]

def logicalFunctions : List Signature :=
  [ruled "IF" .logical "Returns the second argument when the condition holds, otherwise the third (or NULL)."
      [one "condition" .boolean, one "then" .any, upToOne "else" .any] none none,
    ruled "AND" .logical "True when every argument is true." [many "conditions" .boolean] (some .boolean) (some 2),
    ruled "OR" .logical "True when any argument is true." [many "conditions" .boolean] (some .boolean) (some 2),
    plain "NOT" .logical "Negates a boolean." [one "value" .boolean] .boolean,
    plain "ISNULL" .logical "True when the value is NULL." [one "value" .any] .boolean,
    ruled "NULLVALUE" .logical "Returns the value, or the default when the value is NULL."
      [one "value" .any, one "default" .any] none none]

def dateFunctions : List Signature :=
  [plain "TODAY" .date "The current date." [] .date,
    plain "YEAR" .date "Year of a date." [one "date" .date] .number,
    plain "MONTH" .date "Month of a date (1-12)." [one "date" .date] .number,
    plain "DAY" .date "Day of the month of a date." [one "date" .date] .number,
    ruled "DATEDIF" .date "Difference between two dates in \"days\", \"months\" or \"years\"."
      [one "start" .date, one "end" .date, one "unit" .string] (some .number) none]

def aggregateFunctions : List Signature :=
  [fold "STRING_AGG" "Joins the text values of related rows with a delimiter."
      [one "expression" .string, one "delimiter" .string] (some .string),
    fold "STRING_AGG_DISTINCT" "Joins the distinct text values of related rows with a delimiter."
      [one "expression" .string, one "delimiter" .string] (some .string),
    fold "SUM_AGG" "Sum of an expression over related rows (0 when there are none)." [one "expression" .number]
      (some .number),
    fold "COUNT_AGG" "Number of related rows where the expression is not NULL." [one "expression" .any]
      (some .number),
    fold "AVG_AGG" "Average of an expression over related rows." [one "expression" .number] (some .number),
    fold "MIN_AGG" "Smallest value of an expression over related rows." [one "expression" .any] none,
    fold "MAX_AGG" "Largest value of an expression over related rows." [one "expression" .any] none,
    fold "AND_AGG" "True when the condition holds for every related row." [one "condition" .boolean] (some .boolean),
    fold "OR_AGG" "True when the condition holds for any related row." [one "condition" .boolean] (some .boolean)]

/-- All functions, in the order in which they are listed. -/
def catalog : List Signature :=
  mathFunctions ++ textFunctions ++ logicalFunctions ++ dateFunctions ++ aggregateFunctions

/-- The function of a name, whatever its ASCII case. -/
def find? (name : String) : Option Signature := catalog.find? fun s => Ascii.sameName s.name name

/-- Names at most this far from an unknown name are suggested. -/
def suggestionDistance : Nat := 3

/-- How far a function is from a name; an aggregate may also be meant by its name without the ending `_AGG`. -/
def distance (name : List Char) (s : Signature) : Nat :=
  let whole := s.name.toList
  let stem := (Ascii.dropEnding? "_AGG".toList whole).getD whole
  min (EditDistance.distance name whole) (EditDistance.distance name stem)

/-- The names of the functions that resemble a name, the nearest first. -/
def suggestions (name : String) : List String :=
  let upper := (Ascii.upper name).toList
  let ranked := (catalog.map fun s => (distance upper s, s.name)).filter fun r => r.1 ≤ suggestionDistance
  (ranked.mergeSort fun a b => a.1 ≤ b.1).map (·.2)

end FormulaQuery.Signature
