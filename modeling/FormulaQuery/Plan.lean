import FormulaQuery.AggregateFunction
import FormulaQuery.Formula
import FormulaQuery.KeyMap
import FormulaQuery.ValueType

/-!
# Plans

A plan says what a formula reads, before any SQL is chosen: an expression over columns, the joins that lead to other
tables, and the aggregates over related rows. Expressions, joins and aggregates carry identifiers made from what they
are; equal parts of several plans have equal identifiers, which is how they come to be shared in a query.
-/

namespace FormulaQuery

/-- Whose rows an expression is evaluated on: those of the base table, or those that an aggregate folds. -/
inductive Context where
  | main
  | aggregate (source target joinColumn : String)
deriving DecidableEq, Repr

namespace Context

def isMain : Context → Bool
  | main => true
  | aggregate _ _ _ => false

def text : Context → String
  | main => "main"
  | aggregate source target joinColumn => s!"agg:{source}→{target}[{joinColumn}]"

end Context

/-- The identifier of something of a kind with the given details and parts, in a context. -/
def semanticId (kind details : String) (parts : List String) (context : Context) : String :=
  kind ++ (if details.isEmpty then "" else ":" ++ details)
    ++ (if parts.isEmpty then "" else "[" ++ ",".intercalate parts ++ "]") ++ "@" ++ context.text

/-- A many-to-one relationship followed from one table to the next. -/
structure Join where
  source : String
  target : String
  /-- The column of the source table. -/
  joinColumn : String
  /-- The names of the relationships from the start, the last being this one. -/
  chain : List String
  id : String
  context : Context
deriving DecidableEq, Repr

/-- The relationships before the last, if there are any. -/
def Join.parentChain? (j : Join) : Option (List String) :=
  if j.chain.length ≤ 1 then none else some j.chain.dropLast

/-- What is known of every expression. -/
structure Info where
  id : String
  /-- The identifiers of the joins that it reads through, in ascending order. -/
  joins : List String
  type : ValueType
  context : Context
deriving DecidableEq, Repr

inductive Expression where
  | number (info : Info) (value : Binary64)
  | string (info : Info) (text : String)
  | boolean (info : Info) (value : Bool)
  | null (info : Info)
  | date (info : Info) (text : String)
  /-- A column of the table at hand. -/
  | column (info : Info) (name : String)
  /-- A column of the table that a join leads to. -/
  | related (info : Info) (join : String) (column : String)
  | negate (info : Info) (operand : Expression)
  | binary (info : Info) (op : BinaryOperator) (left right : Expression)
  | call (info : Info) (function : String) (args : List Expression)
  /-- The value of an aggregate. -/
  | aggregate (info : Info) (ref : String)
deriving Repr

namespace Expression

def info : Expression → Info
  | number i _ | string i _ | boolean i _ | null i | date i _ | column i _ | related i _ _ | negate i _
  | binary i _ _ _ | call i _ _ | aggregate i _ => i

def type (e : Expression) : ValueType := e.info.type

def children : Expression → List Expression
  | negate _ e => [e]
  | binary _ _ l r => [l, r]
  | call _ _ args => args
  | _ => []

end Expression

/-- One relationship of the path of an aggregate. -/
structure PathLink where
  relationship : String
  table : String
  /-- The column of that table that points back. -/
  joinColumn : String
deriving DecidableEq, Repr

structure Aggregate where
  id : String
  function : AggregateFunction
  /-- The names of its relationships, joined by points. -/
  relation : String
  source : String
  links : List PathLink
  /-- What is folded, and what is put between texts. -/
  expression : Expression
  delimiter : Option Expression
  /-- The joins that the folded expression reads through. -/
  joins : KeyMap Join
  context : Context
  innerContext : Context
  type : ValueType
deriving Repr

structure Plan where
  expression : Expression
  joins : KeyMap Join
  aggregates : KeyMap Aggregate
deriving Repr

namespace Plan

/-- A plan that reads through no join and no aggregate. -/
def ofExpression (e : Expression) : Plan := ⟨e, .empty, .empty⟩

/-- A plan that reads all that the given plans read. -/
def combine (e : Expression) (parts : List Plan) : Plan :=
  ⟨e, parts.foldl (fun m p => m.union p.joins) .empty, parts.foldl (fun m p => m.union p.aggregates) .empty⟩

end Plan

end FormulaQuery
