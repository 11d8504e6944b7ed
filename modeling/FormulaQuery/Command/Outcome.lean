import FormulaQuery.Command.Output
import FormulaQuery.Command.Request

/-!
# Outcomes of the program
-/

namespace FormulaQuery

/-- What the program leaves behind. -/
structure Outcome where
  exitCode : Nat
  output : String
  error : String
deriving DecidableEq, Repr

namespace Request

/-- The name and the version of the program. -/
def versionText : String := "formula-sql 0.2.0\n"

def usageText : String :=
  "Usage: formula-sql [--verbose] <COMMAND>\n\n" ++
    "Commands:\n" ++
    "  compile [--schema FILE] [--json] [--max-depth N] NAME=FORMULA...\n" ++
    "  check [--schema FILE] [--max-depth N] FORMULA\n" ++
    "  functions\n" ++
    "  function NAME\n"

def schemaSource? : Request → Option SchemaSource
  | run command => command.schemaSource?
  | version | help | misuse => none

/-- Carries a request out, given the text of the schema or why there is none. -/
def outcome (schema : Except CommandError String) : Request → Outcome
  | run command =>
    match command.output schema with
    | .ok text => ⟨0, text, ""⟩
    | .error e => ⟨1, "", e.message ++ "\n"⟩
  | version => ⟨0, versionText, ""⟩
  | help => ⟨0, usageText, ""⟩
  | misuse => ⟨2, "", usageText⟩

end Request

end FormulaQuery
