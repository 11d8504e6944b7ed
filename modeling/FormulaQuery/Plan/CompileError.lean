import FormulaQuery.Formula.ParseError
import FormulaQuery.Typing

/-!
# Errors of compiling

A formula that parses can still name what is not there, or go against the typing rules.
-/

namespace FormulaQuery

/-- The most names that a message lists. -/
def maxListed : Nat := 10

/-- Names as messages list them. -/
def listed (names : List String) : String := if names.isEmpty then "(none)" else ", ".intercalate names

inductive SemanticError.Cause where
  | unknownColumn (column table : String) (available : List String)
  | unknownRelationship (name table : String) (available : List String)
  | unknownField (field relationship table : String) (available : List String)
  | arity (function : String) (least : Nat) (most : Option Nat) (found : Nat)
  | type (fault : TypeFault)
  | unknownFunction (name : String) (suggestions : List String)
  /-- The path of an aggregate that is longer than the limit. -/
  | chainTooDeep (path : String) (depth limit : Nat)
deriving DecidableEq, Repr

structure SemanticError where
  cause : SemanticError.Cause
  pos : Position
deriving DecidableEq, Repr

/-- The number of arguments that a function takes, in words. -/
def arityText (least : Nat) (most : Option Nat) : String :=
  match most with
  | some most => if most = least then toString least else s!"{least} to {most}"
  | none => s!"at least {least}"

namespace SemanticError

def message (e : SemanticError) : String :=
  let place := e.pos.text
  match e.cause with
  | .unknownColumn column table available =>
    s!"Unknown column '{column}' in table '{table}' at {place}. Available columns: {listed available}"
  | .unknownRelationship name table available =>
    s!"Unknown relationship '{name}' on table '{table}' at {place}. Available relationships: {listed available}"
  | .unknownField field relationship table available =>
    s!"Unknown field '{field}' on '{relationship}' (table '{table}') at {place}. " ++
      s!"Available columns: {listed available}"
  | .arity function least most found =>
    s!"{function} expects {arityText least most} argument(s), got {found} at {place}"
  | .type fault => s!"Type error at {place}: {fault.message}"
  | .unknownFunction name suggestions =>
    s!"Unknown function '{name}' at {place}" ++
      if suggestions.isEmpty then "" else ". Did you mean: " ++ ", ".intercalate suggestions
  | .chainTooDeep path depth limit =>
    s!"Relationship path '{path}' is {depth} levels deep at {place}; at most {limit} levels are allowed"

end SemanticError

inductive CompileError where
  | parse (error : ParseError)
  | semantic (error : SemanticError)
deriving DecidableEq, Repr

namespace CompileError

def pos : CompileError → Position
  | parse e => e.pos
  | semantic e => e.pos

/-- The message of the error itself, without a hint at the stage that it comes from. -/
def inner : CompileError → String
  | parse e => e.message
  | semantic e => e.message

def message : CompileError → String
  | parse (.lex e) => "Syntax error: " ++ e.message
  | parse e => "Parse error: " ++ e.message
  | semantic e => e.message

end CompileError

end FormulaQuery
