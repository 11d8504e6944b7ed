import FormulaQuery.Formula.Parser
import FormulaQuery.Plan.Scope
import FormulaQuery.Signature.Catalog

/-!
# Compiling formulas

From a formula and the schema that it is written for to its plan. Operands and arguments are compiled from left to
right, and the first fault met is the one reported. The expression under an aggregate is compiled in the scope of the
related table, and its joins stay with the aggregate.
-/

namespace FormulaQuery

mutual

/-- Whether a formula reads no column and calls no aggregate. -/
def Formula.isConstant : Formula → Bool
  | .number _ _ | .string _ _ | .boolean _ _ | .null _ | .date _ _ => true
  | .column _ _ | .related _ _ _ | .path _ _ => false
  | .negate _ e => e.isConstant
  | .binary _ _ l r => l.isConstant && r.isConstant
  | .call _ name args => (AggregateFunction.ofName? name).isNone && Formula.areConstant args

def Formula.areConstant : List Formula → Bool
  | [] => true
  | e :: es => e.isConstant && Formula.areConstant es

end

/-- The units in which dates are told apart. -/
def dateUnits : List String := ["days", "months", "years"]

namespace Scope

/-- The signature of a function that is called with `count` arguments. -/
def signature (pos : Position) (name : String) (count : Nat) : Except SemanticError Signature :=
  match Signature.find? name with
  | none => .error ⟨.unknownFunction (Ascii.upper name) ((Signature.suggestions name).take maxListed), pos⟩
  | some s =>
    if s.minArity ≤ count ∧ s.maxArity?.all (count ≤ ·) then .ok s
    else .error ⟨.arity s.name s.minArity s.maxArity? count, pos⟩

/-- Checks the type of the argument at `index`. -/
def checkArgument (signature : Signature) (index : Nat) (pos : Position) (found : ValueType) :
    Except SemanticError PUnit :=
  match signature.parameter? index with
  | some p =>
    if p.type.accepts found then .ok () else .error ⟨.type (.argument index p signature.name found), pos⟩
  | none => .ok ()

/-- The unit of a difference of dates, which has to be written out. -/
def dateUnit (s : Scope) : Formula → Except SemanticError Plan
  | .string pos text =>
    let unit := Ascii.lower text
    if unit ∈ dateUnits then .ok (.ofExpression (s.stringLiteral unit)) else .error ⟨.type (.unknownUnit unit), pos⟩
  | other => .error ⟨.type .unitNotLiteral, other.pos⟩

/-- The type of a call, once its arguments have passed one by one. -/
def callType (signature : Signature) (pos : Position) (args : List Formula) (types : List ValueType) :
    Except SemanticError ValueType :=
  match signature.name, args, types with
  | "IF", [_, _, otherwise], [_, first, second] =>
    if first.compatible second then .ok (first.unify second)
    else .error ⟨.type (.branches first second), otherwise.pos⟩
  | "IF", _, [_, first] => .ok first
  | "NULLVALUE", _, [value, default] =>
    if value.compatible default then .ok (value.unify default) else .error ⟨.type (.replacement value default), pos⟩
  | _, _, types =>
    match signature.returns with
    | some t => .ok t
    | none => .ok (types.headD .null)

def call (s : Scope) (signature : Signature) (type : ValueType) (args : List Plan) : Plan :=
  let parts := args.map (·.expression)
  .combine (.call (s.info "function" signature.name type [] parts) signature.name parts) args

mutual

def compile (s : Scope) : Formula → Except SemanticError Plan
  | .number _ n => .ok (.ofExpression (s.numberLiteral n))
  | .string _ t => .ok (.ofExpression (s.stringLiteral t))
  | .boolean _ b => .ok (.ofExpression (s.booleanLiteral b))
  | .null _ => .ok (.ofExpression s.nullLiteral)
  | .date _ d => .ok (.ofExpression (s.dateLiteral d))
  | .column pos name => do
    let e ← s.column pos name
    return .ofExpression e
  | .related pos chain field => s.related pos chain field
  | .path pos segments => .error ⟨.type (.misplacedPath segments), pos⟩
  | .negate pos e => do
    let p ← compile s e
    let type := p.expression.type
    if type = .number ∨ type = .null then
      return .combine (.negate (s.info "unary" "-" .number [] [p.expression]) p.expression) [p]
    else .error ⟨.type (.negation type), pos⟩
  | .binary pos op l r => do
    let p ← compile s l
    let q ← compile s r
    match op.resultType? p.expression.type q.expression.type with
    | some type =>
      let parts := [p.expression, q.expression]
      return .combine (.binary (s.info "binary" op.symbol type [] parts) op p.expression q.expression) [p, q]
    | none => .error ⟨.type (.operands op p.expression.type q.expression.type), pos⟩
  | .call pos name args => do
    let signature ← signature pos name args.length
    match AggregateFunction.ofName? signature.name with
    | some f => compileAggregate s f pos args
    | none =>
      if signature.name = "DATEDIF" then compileDateDifference s signature pos args
      else do
        let plans ← compileArguments s signature 0 args
        let type ← callType signature pos args (plans.map (·.expression.type))
        return s.call signature type plans

/-- Compiles a call of an aggregate, whose arguments are a path, a value, and what is put between texts. -/
def compileAggregate (s : Scope) (f : AggregateFunction) (pos : Position) : List Formula → Except SemanticError Plan
  | path :: value :: more => do
    let d ← s.destination f pos path
    let inner ← compile (s.nested d) value
    if f.acceptsInput inner.expression.type then do
      let delimiter ← compileDelimiter s f more
      return s.aggregate f d inner delimiter
    else .error ⟨.type (.aggregateInput f inner.expression.type), value.pos⟩
  | _ => .error ⟨.type (.emptyPath f), pos⟩

/-- Compiles what is put between texts, which has to be constant text; other aggregates put nothing. -/
def compileDelimiter (s : Scope) (f : AggregateFunction) : List Formula → Except SemanticError (Option Plan)
  | delimiter :: _ =>
    if f.takesDelimiter then
      if delimiter.isConstant then do
        let p ← compile s delimiter
        if p.expression.type = .string then return some p
        else .error ⟨.type (.delimiterType f p.expression.type), delimiter.pos⟩
      else .error ⟨.type (.delimiterNotConstant f), delimiter.pos⟩
    else .ok none
  | [] => .ok none

/-- Compiles a difference of dates, whose unit is no value. -/
def compileDateDifference (s : Scope) (signature : Signature) (pos : Position) :
    List Formula → Except SemanticError Plan
  | [start, finish, unit] => do
    let p ← compile s start
    checkArgument signature 0 start.pos p.expression.type
    let q ← compile s finish
    checkArgument signature 1 finish.pos q.expression.type
    let u ← s.dateUnit unit
    return s.call signature .number [p, q, u]
  | _ => .error ⟨.type .unitNotLiteral, pos⟩

/-- Compiles the arguments from `index` on, each checked as soon as it is compiled. -/
def compileArguments (s : Scope) (signature : Signature) (index : Nat) :
    List Formula → Except SemanticError (List Plan)
  | [] => .ok []
  | arg :: args => do
    let p ← compile s arg
    checkArgument signature index arg.pos p.expression.type
    let more ← compileArguments s signature (index + 1) args
    return p :: more

end

end Scope

/-- The longest path of an aggregate unless another limit is set. -/
def defaultMaxDepth : Nat := 3

/-- The scope of whole formulas. -/
def Table.scope (schema : Table) (maxDepth : Nat) : Scope := ⟨schema, .main, maxDepth⟩

/-- The plan of a parsed formula. -/
def Formula.compile (f : Formula) (schema : Table) (maxDepth : Nat) : Except SemanticError Plan :=
  (schema.scope maxDepth).compile f

/-- The plan of a formula. -/
def Plan.ofFormula (text : String) (schema : Table) (maxDepth : Nat) : Except CompileError Plan :=
  match Formula.parse text with
  | .error e => .error (.parse e)
  | .ok f =>
    match f.compile schema maxDepth with
    | .error e => .error (.semantic e)
    | .ok p => .ok p

end FormulaQuery
