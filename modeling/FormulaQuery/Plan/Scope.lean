import FormulaQuery.Formula
import FormulaQuery.Plan
import FormulaQuery.Plan.CompileError
import FormulaQuery.Table
import FormulaQuery.Text.Escaped

/-!
# Scopes

The scope of an expression is the table that its columns belong to. Here names are resolved in a scope: columns,
chains of many-to-one relationships, and paths of one-to-many relationships.
-/

namespace FormulaQuery

structure Scope where
  table : Table
  context : Context
  /-- The longest path that an aggregate may have. -/
  maxDepth : Nat

/-- The relationship of a name, which may or may not have the ending `_rel`. -/
def Link.find? (links : NameMap (Link Table)) (name : String) : Option (String × Link Table) :=
  let upper := Ascii.upper name
  match Ascii.dropEnding? Formula.relationEnding.toList upper.toList with
  | some stem =>
    match links.get? (String.ofList stem) with
    | some found => some found
    | none => links.get? upper
  | none => links.get? upper

/-- A relationship followed: the table that it starts from, its name there, and where it leads. -/
structure Hop where
  source : String
  name : String
  link : Link Table

namespace Hop

/-- Follows relationships of one kind by their names. Fails with the first name that is unknown, and the table where
it is. -/
def follow (kind : Table → NameMap (Link Table)) (table : Table) :
    List String → Except (String × Table) (List Hop)
  | [] => .ok []
  | name :: rest =>
    match Link.find? (kind table) name with
    | none => .error (name, table)
    | some (spelling, link) => do
      let more ← follow kind link.target rest
      return ⟨table.name, spelling, link⟩ :: more

/-- The table that hops lead to. -/
def target? (hops : List Hop) : Option Table := hops.getLast?.map fun h => h.link.target

def names (hops : List Hop) : List String := hops.map (·.name)

/-- The join of a hop that comes after the relationships `before`. -/
def join (context : Context) (before : List String) (h : Hop) : Join :=
  let chain := before ++ [h.name]
  let target := h.link.target.name
  let details :=
    "direct:" ++ ".".intercalate chain ++ ":" ++ h.source ++ "->" ++ target ++ "[" ++ h.link.joinColumn ++ "]"
  ⟨h.source, target, h.link.joinColumn, chain, semanticId "join" details [] context, context⟩

/-- The joins of hops that come after the relationships `before`. -/
def joins (context : Context) : (before : List String) → List Hop → List Join
  | _, [] => []
  | before, h :: hops => h.join context before :: joins context (before ++ [h.name]) hops

def pathLink (h : Hop) : PathLink := ⟨h.name, h.link.target.name, h.link.joinColumn⟩

end Hop

namespace Scope

/-- What is known of an expression with the given parts, beside `extra` joins that it reads through itself. -/
def info (s : Scope) (kind details : String) (type : ValueType) (extra : List String) (parts : List Expression) :
    Info where
  id := semanticId kind details (parts.map (·.info.id)) s.context
  joins := KeyMap.sortKeys (extra ++ parts.flatMap (·.info.joins))
  type := type
  context := s.context

def numberLiteral (s : Scope) (n : Binary64) : Expression := .number (s.info "number" n.text .number [] []) n

def stringLiteral (s : Scope) (t : String) : Expression :=
  .string (s.info "string" (Escaped.quoted t) .string [] []) t

def booleanLiteral (s : Scope) (b : Bool) : Expression :=
  .boolean (s.info "boolean" (if b then "TRUE" else "FALSE") .boolean [] []) b

def nullLiteral (s : Scope) : Expression := .null (s.info "null" "NULL" .null [] [])

def dateLiteral (s : Scope) (d : String) : Expression := .date (s.info "date" d .date [] []) d

/-- A column of the table of the scope. -/
def column (s : Scope) (pos : Position) (name : String) : Except SemanticError Expression :=
  match s.table.columns.get? name with
  | some (spelling, type) => .ok (.column (s.info "column" spelling type [] []) spelling)
  | none =>
    .error ⟨.unknownColumn (Ascii.lower name) s.table.name (s.table.columns.names.take maxListed), pos⟩

/-- A column reached through many-to-one relationships. -/
def related (s : Scope) (pos : Position) (chain : List String) (field : Option String) : Except SemanticError Plan :=
  match Hop.follow Table.direct s.table chain with
  | .error (name, table) =>
    let available := (table.direct.names.take maxListed).map fun n => Ascii.lower n ++ "_rel"
    .error ⟨.unknownRelationship (Ascii.lower name) table.name available, pos⟩
  | .ok hops =>
    let joins := Hop.joins s.context [] hops
    match Hop.target? hops, joins.getLast? with
    | some target, some last =>
      let path := ".".intercalate (Hop.names hops)
      let unknown (field : String) : SemanticError :=
        ⟨.unknownField field path target.name (target.columns.names.take maxListed), pos⟩
      match field with
      | none => .error (unknown "")
      | some field =>
        match target.columns.get? field with
        | none => .error (unknown (Ascii.lower field))
        | some (spelling, type) =>
          let info := s.info "relationship" (path ++ "." ++ spelling) type (joins.map (·.id)) []
          .ok ⟨.related info last.id spelling, joins.foldl (fun m j => m.insertNew j.id j) .empty, .empty⟩
    | _, _ => .error ⟨.type .emptyChain, pos⟩

/-- Where a path of one-to-many relationships leads. -/
structure Destination where
  hops : List Hop
  target : Table

/-- Resolves the first argument of a call of `f` at `pos`. -/
def destination (s : Scope) (f : AggregateFunction) (pos : Position) (path : Formula) :
    Except SemanticError Destination :=
  if !s.context.isMain then .error ⟨.type (.nestedAggregate f), pos⟩
  else match path with
    | .path pos segments =>
      if s.maxDepth < segments.length then
        .error ⟨.chainTooDeep (pathText segments) segments.length s.maxDepth, pos⟩
      else match Hop.follow Table.inverse s.table segments with
        | .error (name, table) =>
          .error ⟨.unknownRelationship (Ascii.lower name) table.name (table.inverse.names.take maxListed), pos⟩
        | .ok hops =>
          match Hop.target? hops with
          | some target => .ok ⟨hops, target⟩
          | none => .error ⟨.type (.emptyPath f), pos⟩
    | other => .error ⟨.type (.pathExpected f), other.pos⟩

/-- The scope of the rows at a destination. -/
def nested (s : Scope) (d : Destination) : Scope where
  table := d.target
  context := .aggregate s.table.name d.target.name (".".intercalate (d.hops.map (·.link.joinColumn)))
  maxDepth := s.maxDepth

/-- The plan that reads the aggregate of `inner` over the rows at a destination. -/
def aggregate (s : Scope) (f : AggregateFunction) (d : Destination) (inner : Plan) (delimiter : Option Plan) : Plan :=
  let relation := ".".intercalate (Hop.names d.hops)
  let type := f.resultType inner.expression.type
  let separator := delimiter.map (·.expression)
  let parts := inner.expression.info.id :: separator.toList.map (·.info.id)
  let id := semanticId "aggregate" (f.name ++ ":" ++ relation) parts s.context
  let aggregate : Aggregate :=
    ⟨id, f, relation, s.table.name, d.hops.map Hop.pathLink, inner.expression, separator, inner.joins, s.context,
      (s.nested d).context, type⟩
  let outer := Plan.combine (.aggregate ⟨id, [], type, s.context⟩ id) delimiter.toList
  { outer with aggregates := outer.aggregates.insertNew id aggregate }

end Scope

end FormulaQuery
