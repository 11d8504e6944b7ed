import FormulaQuery.Proofs.Scoping

/-!
# The rows of a FROM clause

A FROM clause takes the rows of a table and joins relations to them, one after the other. Here is what names mean in
such a clause, and which rows it has in a database.
-/

namespace FormulaQuery

/-! ### Names -/

/-- The aliases that are known, with the columns that they have. -/
abbrev KnownAliases := List (String × (String → Bool))

def ColumnRef.resolves (c : ColumnRef) (known : KnownAliases) : Bool :=
  known.any fun k => k.1 == c.source && k.2 c.name

section Names

variable {ρ : Type} (columns : ρ → String → Bool)

/-- What is known once the given relations are joined. -/
def JoinItem.known (before : KnownAliases) : List (JoinItem ρ) → KnownAliases
  | [] => before
  | j :: js => known ((j.label, columns j.relation) :: before) js

/-- Every relation has an alias of its own, and the columns that it is joined by are known. -/
def JoinItem.Resolved : (before : KnownAliases) → List (JoinItem ρ) → Prop
  | _, [] => True
  | before, j :: js =>
    let known := (j.label, columns j.relation) :: before
    (j.label ∉ before.map (·.1) ∧ j.left.resolves known = true ∧ j.right.resolves known = true) ∧
      JoinItem.Resolved known js

/-- A table has whatever columns are read from it. -/
def anyColumn (_ : String) : Bool := true

def FromClause.known (c : FromClause ρ) : KnownAliases := JoinItem.known columns [(c.label, anyColumn)] c.joins

def FromClause.Resolved (c : FromClause ρ) : Prop := JoinItem.Resolved columns [(c.label, anyColumn)] c.joins

end Names

/-- The select can be evaluated: what is not folded is what it groups by. -/
structure GroupedSelect.Resolved (g : GroupedSelect) : Prop where
  source : g.source.Resolved fun _ => anyColumn
  column : g.column = g.groupBy
  groupBy : g.groupBy.resolves (g.source.known fun _ => anyColumn) = true
  items : ∀ i ∈ g.items, ∀ r ∈ i.value.reads, ColumnRef.resolves ⟨r.1, r.2⟩ (g.source.known fun _ => anyColumn) = true
  nodup : (g.name :: g.items.map (·.name)).Nodup

namespace TableExpr

def columns : TableExpr → String → Bool
  | table _ => anyColumn
  | grouped g => fun name => decide (name ∈ g.name :: g.items.map (·.name))

def Resolved : TableExpr → Prop
  | table _ => True
  | grouped g => g.Resolved

end TableExpr

/-! ### Rows -/

/-- The values in the columns of a row, where `none` is NULL. -/
abbrev Row (ν : Type) := String → Option ν

/-- The rows of tables by their names. -/
abbrev Database (ν : Type) := String → List (Row ν)

/-- A row of a FROM clause: a row for each alias. -/
abbrev JoinedRow (ν : Type) := List (String × Row ν)

/-- Equality of values, which never holds of NULL. -/
def equalValues {ν : Type} [DecidableEq ν] : Option ν → Option ν → Bool
  | some a, some b => a == b
  | _, _ => false

section Rows

variable {ν ρ : Type} [DecidableEq ν]

def ColumnRef.value (c : ColumnRef) (e : JoinedRow ν) : Option ν := (e.lookup c.source).bind fun row => row c.name

/-- A row with each of its partners among the given rows; a left join gives a row of NULLs to one that has none. -/
def JoinItem.extend (j : JoinItem ρ) (rows : List (Row ν)) (e : JoinedRow ν) : List (JoinedRow ν) :=
  let found := (rows.map fun r => (j.label, r) :: e).filter fun e => equalValues (j.left.value e) (j.right.value e)
  if j.isLeft && found.isEmpty then [(j.label, fun _ => none) :: e] else found

/-- Joins relations one after the other. -/
def JoinItem.joinAll (rows : ρ → List (Row ν)) (js : List (JoinItem ρ)) (es : List (JoinedRow ν)) :
    List (JoinedRow ν) :=
  js.foldl (fun es j => es.flatMap (j.extend (rows j.relation))) es

def FromClause.rows (db : Database ν) (rows : ρ → List (Row ν)) (c : FromClause ρ) : List (JoinedRow ν) :=
  JoinItem.joinAll rows c.joins ((db c.table).map fun r => [(c.label, r)])

/-- One row for each value of what is grouped by, NULL included. What expressions fold rows to is given by `fold`. -/
def GroupedSelect.rows (db : Database ν) (fold : Sql → List (JoinedRow ν) → Option ν) (g : GroupedSelect) :
    List (Row ν) :=
  let es := g.source.rows db db
  (es.map g.groupBy.value).dedup.map fun key name =>
    if name = g.name then key
    else (g.items.find? fun i => i.name == name).bind fun i =>
      fold i.value (es.filter fun e => g.groupBy.value e = key)

def TableExpr.rows (db : Database ν) (fold : Sql → List (JoinedRow ν) → Option ν) : TableExpr → List (Row ν)
  | table name => db name
  | grouped g => g.rows db fold

end Rows

end FormulaQuery
