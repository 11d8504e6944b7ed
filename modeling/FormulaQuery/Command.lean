import FormulaQuery.Plan.CompileError
import FormulaQuery.Sql.Expression
import FormulaQuery.Table.Loader

/-!
# Commands

What can be asked of the program: one query for a batch of named formulas, a check of one formula, and the reference
of the functions.
-/

namespace FormulaQuery

/-- Where the schema of a command is read from. -/
inductive SchemaSource where
  | file (path : String)
  | standardInput
deriving DecidableEq, Repr

inductive Command where
  /-- Print a query for named formulas. -/
  | compile (fields : List String) (schema : SchemaSource) (json : Bool) (maxDepth : Nat)
  /-- Check one formula. -/
  | check (formula : String) (schema : SchemaSource) (maxDepth : Nat)
  /-- List all functions. -/
  | functions
  /-- Show one function. -/
  | function (name : String)
deriving DecidableEq, Repr

inductive CommandError where
  | schema (error : SchemaError)
  /-- The formula of a field does not compile; a formula that is only checked stands for its own name. -/
  | compile (field : String) (error : CompileError)
  | assembly (error : AssemblyError)
  | io (reason : String)
  | noSchema
  /-- An argument that is not a name, an equals sign and a formula. -/
  | invalidField (arg : String)
  | unknownFunction (name : String)
deriving DecidableEq, Repr

def CommandError.message : CommandError → String
  | schema e => "Schema error: " ++ e.message
  | compile field e => "Field '" ++ field ++ "': " ++ e.message
  | assembly e => "Assembly error: " ++ e.message
  | io reason => "IO error: " ++ reason
  | noSchema => "No schema provided. Use --schema or pipe schema JSON to stdin."
  | invalidField arg => "Invalid field '" ++ arg ++ "': expected name=formula"
  | unknownFunction name =>
    "Unknown function: '" ++ name ++ "'\nRun 'formula-sql functions' to see available functions."

/-- The schema that a command writes its formulas for. -/
def Command.schemaSource? : Command → Option SchemaSource
  | compile _ source _ _ | check _ source _ => some source
  | functions | function _ => none

end FormulaQuery
