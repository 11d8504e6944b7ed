import FormulaQuery.Command.Reference
import FormulaQuery.Json.Printer
import FormulaQuery.Plan.Compile
import FormulaQuery.Query.Assembly

/-!
# Output of commands

What a command prints, given the text of its schema. Fields are compiled in the order of the arguments, and the first
error is the one reported.
-/

namespace FormulaQuery

/-- A formula under a name. -/
structure Field where
  name : String
  formula : String
deriving DecidableEq, Repr

/-- Splits an argument at its first equals sign. Blanks around the name are dropped, and neither the name nor the
formula may be blank. -/
def Field.ofArgument (arg : String) : Except CommandError Field :=
  let cs := arg.toList
  let name := Blank.trim (cs.takeWhile (· != '='))
  match cs.dropWhile (· != '=') with
  | [] => .error (.invalidField arg)
  | _ :: formula =>
    if name.isEmpty || formula.all Blank.isBlank then .error (.invalidField arg)
    else .ok ⟨String.ofList name, String.ofList formula⟩

namespace Command

def loadSchema (text : String) : Except CommandError Table := (Table.ofString text).mapError .schema

/-- The plan of a field. -/
def plan (schema : Table) (maxDepth : Nat) (f : Field) : Except CommandError Plan :=
  (Plan.ofFormula f.formula schema maxDepth).mapError (.compile f.name)

/-- The plans of fields. -/
def batch (schema : Table) (maxDepth : Nat) (fields : List Field) : Except CommandError Batch :=
  fields.foldlM (fun b f => do return b.insert f.name (← plan schema maxDepth f)) .empty

end Command

/-- The query for fields over a schema. -/
def Query.ofFields (schemaText : String) (fields : List Field) (maxDepth : Nat) : Except CommandError Query := do
  let schema ← Command.loadSchema schemaText
  let batch ← Command.batch schema maxDepth fields
  (batch.assemble schema.name).mapError .assembly

/-- A query with its parts. -/
def Query.toJson (q : Query) : Json :=
  .object (.ofList
    [("query", .string q.text),
      ("fieldAliases", .object (.ofList (q.fieldAliases.map fun f => (f.1, .string f.2)))),
      ("selectExpressions", .array (q.selectExpressions.map .string)),
      ("fromClause", .string q.fromClause)])

/-- What a check tells of a formula. -/
structure Report where
  type : ValueType
  id : String
  joins : Nat
  aggregates : Nat
deriving DecidableEq, Repr

namespace Report

def ofPlan (p : Plan) : Report := ⟨p.expression.type, p.expression.info.id, p.joins.size, p.aggregates.size⟩

def ofFormula (schemaText formula : String) (maxDepth : Nat) : Except CommandError Report := do
  let schema ← Command.loadSchema schemaText
  let p ← Command.plan schema maxDepth ⟨formula, formula⟩
  return ofPlan p

def text (r : Report) : String :=
  s!"OK: {r.type.name}\n  id: {r.id}\n  joins: {r.joins}, aggregates: {r.aggregates}\n"

end Report

/-- What a command prints, given the text of its schema or why there is none. -/
def Command.output (schema : Except CommandError String) : Command → Except CommandError String
  | compile args _ json maxDepth => do
    let text ← schema
    let fields ← args.mapM Field.ofArgument
    let q ← Query.ofFields text fields maxDepth
    return (if json then q.toJson.pretty 0 else q.text) ++ "\n"
  | check formula _ maxDepth => do
    let text ← schema
    let report ← Report.ofFormula text formula maxDepth
    return report.text
  | functions => .ok Reference.overview
  | function name => Reference.page name

end FormulaQuery
