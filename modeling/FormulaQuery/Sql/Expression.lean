import FormulaQuery.Number.Decimal96
import FormulaQuery.Plan
import FormulaQuery.Sql

/-!
# SQL of expressions

Every operator is put into parentheses, so that the grouping of a formula is kept. Division by zero and an aggregate
over no rows give the values that formulas promise.
-/

namespace FormulaQuery

inductive AssemblyError where
  /-- There is nothing to select. -/
  | noFields
  /-- An expression reads through a join that is not there. -/
  | missingJoinAlias (id : String)
  /-- A join starts from another one that is not there. -/
  | missingParentJoin (id : String)
  /-- An expression reads an aggregate that is not there. -/
  | missingAggregate (id : String)
  | unknownFunction (name : String)
  /-- A formula was compiled for another table. -/
  | baseTableMismatch (expected found : String)
deriving DecidableEq, Repr

def AssemblyError.message : AssemblyError → String
  | noFields => "No fields to assemble"
  | missingJoinAlias id => s!"No alias for join {id}"
  | missingParentJoin id => s!"Parent join of {id} was not registered"
  | missingAggregate id => s!"Aggregate {id} was not registered"
  | unknownFunction name => s!"No SQL rendering for function {name}"
  | baseTableMismatch expected found =>
    s!"Formula compiled against table '{found}' cannot be assembled on '{expected}'"

/-- Where the value of an aggregate is read. -/
structure AggregateColumn where
  /-- The subquery that computes it. -/
  source : String
  column : String
  function : AggregateFunction
deriving DecidableEq, Repr

/-- What expressions of one query level can read. -/
structure Sources where
  /-- The alias of the table that columns belong to. -/
  table : String
  /-- The aliases of joins by their identifiers. -/
  joins : List (String × String)
  aggregates : List (String × AggregateColumn)

namespace AggregateFunction

/-- The call that folds a value in SQL. -/
def toSql (f : AggregateFunction) (value : Sql) (delimiter : Option Sql) : Sql :=
  let delimiter := delimiter.getD (Sql.literal ",")
  match f with
  | stringAgg => "STRING_AGG(" ++ value ++ ", " ++ delimiter ++ ")"
  | stringAggDistinct => "STRING_AGG(DISTINCT " ++ value ++ ", " ++ delimiter ++ ")"
  | sum => "SUM(" ++ value ++ ")"
  | count => "COUNT(" ++ value ++ ")"
  | avg => "AVG(" ++ value ++ ")"
  | min => "MIN(" ++ value ++ ")"
  | max => "MAX(" ++ value ++ ")"
  | and => "BOOL_AND(" ++ value ++ ")"
  | or => "BOOL_OR(" ++ value ++ ")"

/-- The value over no rows, unless it is null. -/
def emptyValue? : AggregateFunction → Option Sql
  | sum | count => some "0"
  | stringAgg | stringAggDistinct => some (Sql.literal "")
  | and => some "TRUE"
  | or => some "FALSE"
  | avg | min | max => none

end AggregateFunction

namespace AggregateColumn

def toSql (c : AggregateColumn) : Sql :=
  let value := Sql.column c.source c.column
  match c.function.emptyValue? with
  | some fallback => "COALESCE(" ++ value ++ ", " ++ fallback ++ ")"
  | none => value

end AggregateColumn

namespace Expression

def isNull : Expression → Bool
  | null _ => true
  | _ => false

/-- A number of days as an interval. -/
def days (count : Sql) : Sql := count ++ " * INTERVAL " ++ Sql.literal "1 day"

def binarySql (op : BinaryOperator) (left right : Expression) (l r : Sql) : Sql :=
  let plain (symbol : String) : Sql := "(" ++ l ++ (" " ++ symbol ++ " ") ++ r ++ ")"
  let nullTest (test : String) : Sql := "(" ++ (if right.isNull then l else r) ++ (" " ++ test) ++ ")"
  let sum (symbol : String) : Sql :=
    if right.type = .date then "(" ++ l ++ "::date - " ++ r ++ "::date)"
    else "(" ++ l ++ (" " ++ symbol ++ " ") ++ days r ++ ")::date"
  match op with
  | .add =>
    if left.type = .date then sum "+"
    else if right.type = .date then "(" ++ r ++ " + " ++ days l ++ ")::date"
    else plain "+"
  | .subtract => if left.type = .date then sum "-" else plain "-"
  | .multiply => plain "*"
  | .divide => "(" ++ l ++ " / NULLIF(" ++ r ++ ", 0))"
  | .concat => plain "||"
  | .equal => if left.isNull || right.isNull then nullTest "IS NULL" else plain "="
  | .notEqual => if left.isNull || right.isNull then nullTest "IS NOT NULL" else plain "<>"
  | .less => plain "<"
  | .greater => plain ">"
  | .lessEqual => plain "<="
  | .greaterEqual => plain ">="

/-- The difference of two dates, in days unless the unit says otherwise. -/
def dateDifferenceSql (unit : Option Expression) (start finish : Sql) : Sql :=
  let years : Sql := "EXTRACT(YEAR FROM AGE(" ++ finish ++ ", " ++ start ++ "))"
  match unit with
  | some (.string _ "months") =>
    "(" ++ years ++ " * 12 + EXTRACT(MONTH FROM AGE(" ++ finish ++ ", " ++ start ++ ")))"
  | some (.string _ "years") => years
  | _ => "(" ++ finish ++ "::date - " ++ start ++ "::date)"

/-- The SQL of a call, given that of its arguments; an argument that is not there is null. -/
def callSql? (function : String) (args : List Expression) (printed : List Sql) : Option Sql :=
  let arg (i : Nat) : Sql := printed.getD i "NULL"
  match function with
  | "IF" => some ("CASE WHEN " ++ arg 0 ++ " THEN " ++ arg 1 ++ " ELSE " ++ arg 2 ++ " END")
  | "AND" => some ("(" ++ Sql.join " AND " printed ++ ")")
  | "OR" => some ("(" ++ Sql.join " OR " printed ++ ")")
  | "NOT" => some ("(NOT " ++ arg 0 ++ ")")
  | "ISNULL" => some ("(" ++ arg 0 ++ " IS NULL)")
  | "NULLVALUE" => some ("COALESCE(" ++ arg 0 ++ ", " ++ arg 1 ++ ")")
  | "ABS" | "FLOOR" | "SQRT" | "POWER" | "UPPER" | "LOWER" | "TRIM" | "LEFT" | "RIGHT" =>
    some ((function ++ "(") ++ Sql.join ", " printed ++ ")")
  | "CEILING" => some ("CEIL(" ++ arg 0 ++ ")")
  | "ROUND" => some ("ROUND((" ++ arg 0 ++ ")::numeric, " ++ printed.getD 1 "0" ++ ")")
  | "LEN" => some ("LENGTH(" ++ arg 0 ++ ")")
  | "CONTAINS" => some ("(STRPOS(" ++ arg 0 ++ ", " ++ arg 1 ++ ") > 0)")
  | "STRING" => some ("CAST(" ++ arg 0 ++ " AS TEXT)")
  | "TODAY" => some "CURRENT_DATE"
  | "YEAR" | "MONTH" | "DAY" => some (("EXTRACT(" ++ function ++ " FROM ") ++ arg 0 ++ ")")
  | "DATEDIF" => some (dateDifferenceSql args[2]? (arg 0) (arg 1))
  | _ => none

mutual

/-- The SQL of an expression whose names are read from the given sources. -/
def toSql (s : Sources) : Expression → Except AssemblyError Sql
  | number _ n => .ok (Decimal96.text n)
  | string _ t => .ok (Sql.literal t)
  | boolean _ b => .ok (if b then "TRUE" else "FALSE")
  | null _ => .ok "NULL"
  | date _ d => .ok ("DATE " ++ Sql.literal d)
  | column _ name => .ok (Sql.column s.table name)
  | related _ join name =>
    match s.joins.lookup join with
    | some label => .ok (Sql.column label name)
    | none => .error (.missingJoinAlias join)
  | negate _ e => do
    let p ← toSql s e
    return "(-" ++ p ++ ")"
  | binary _ op left right => do
    let l ← toSql s left
    let r ← toSql s right
    return binarySql op left right l r
  | call _ function args => do
    let printed ← allToSql s args
    match callSql? function args printed with
    | some sql => return sql
    | none => .error (.unknownFunction function)
  | aggregate _ ref =>
    match s.aggregates.lookup ref with
    | some c => .ok c.toSql
    | none => .error (.missingAggregate ref)

def allToSql (s : Sources) : List Expression → Except AssemblyError (List Sql)
  | [] => .ok []
  | e :: es => do
    let p ← toSql s e
    let more ← allToSql s es
    return p :: more

end

end Expression

end FormulaQuery
