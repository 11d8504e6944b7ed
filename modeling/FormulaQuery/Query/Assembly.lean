import FormulaQuery.NameMap
import FormulaQuery.Query
import FormulaQuery.Query.Alias
import FormulaQuery.Sql.Expression

/-!
# Assembling a query

A batch of plans under the names of their fields becomes one query. Joins and aggregates with equal identifiers are
shared between plans, and aggregates over one path share a subquery.
-/

namespace FormulaQuery

/-- Plans by the names of their fields, in the order of their first insertion. -/
structure Batch where
  fields : List (String × Plan)

namespace Batch

def empty : Batch := ⟨[]⟩

/-- Adds a field; a field of the same name is replaced and keeps its place. -/
def insert (b : Batch) (name : String) (plan : Plan) : Batch := ⟨replaceOrAppend (· == ·) name plan b.fields⟩

def contains (b : Batch) (name : String) : Bool := b.fields.any fun f => f.1 == name

def erase (b : Batch) (name : String) : Batch := ⟨b.fields.filter fun f => f.1 != name⟩

end Batch

namespace Assembly

/-- Joins and aggregates by their identifiers; of several with one identifier the first counts. -/
structure Parts where
  joins : KeyMap Join
  aggregates : KeyMap Aggregate

/-- Adds a join, which has to start from the base table if no other comes before it. -/
def addJoin (base : String) (m : KeyMap Join) (j : Join) : Except AssemblyError (KeyMap Join) :=
  if j.chain.length = 1 ∧ j.source ≠ base then .error (.baseTableMismatch base j.source)
  else .ok (m.insertNew j.id j)

/-- Adds an aggregate, which has to start from the base table. -/
def addAggregate (base : String) (m : KeyMap Aggregate) (a : Aggregate) : Except AssemblyError (KeyMap Aggregate) :=
  if a.source ≠ base then .error (.baseTableMismatch base a.source) else .ok (m.insertNew a.id a)

def addPlan (base : String) (parts : Parts) (p : Plan) : Except AssemblyError Parts := do
  let joins ← p.joins.values.foldlM (addJoin base) parts.joins
  let aggregates ← p.aggregates.values.foldlM (addAggregate base) parts.aggregates
  return ⟨joins, aggregates⟩

/-- Shorter chains before longer ones, and those of one length in the order of their identifiers. -/
def ordered (m : KeyMap Join) : List Join := m.values.mergeSort fun a b => a.chain.length ≤ b.chain.length

/-- The join that a named join starts from: the last one with the chain before its last relationship. -/
def parentAlias (named : List (Join × String)) (root : String) (j : Join) : Except AssemblyError String :=
  match j.parentChain? with
  | none => .ok root
  | some chain =>
    match named.reverse.find? fun n => n.1.chain = chain ∧ n.1.context = j.context with
    | some parent => .ok parent.2
    | none => .error (.missingParentJoin j.id)

/-- The joins of one query level, whose chains start at the table with alias `root`. -/
def lookupJoins (named : List (Join × String)) (root : String) : Except AssemblyError (List LookupJoin) :=
  named.mapM fun n => do
    let parent ← parentAlias named root n.1
    return ⟨n.1.target, n.2, parent, n.1.joinColumn⟩

/-- The aliases of joins by their identifiers. -/
def joinSources (named : List (Join × String)) : List (String × String) := named.map fun n => (n.1.id, n.2)

/-- Aggregates over one path, and the alias of their subquery. -/
structure Group where
  label : String
  aggregates : List Aggregate

/-- The aggregates grouped by their paths, in ascending order of those. -/
def groups (m : KeyMap Aggregate) : List Group :=
  let aggregates := m.values
  (KeyMap.sortKeys (aggregates.map (·.relation))).mapIdx fun i relation =>
    ⟨"agg_" ++ toString (i + 1), aggregates.filter fun a => a.relation == relation⟩

/-- The name of the column of the aggregate at `index` in its group. -/
def columnName (index : Nat) (a : Aggregate) : String := Ascii.lower a.function.name ++ "_" ++ toString (index + 1)

/-- Where the aggregates of a group are read. -/
def Group.columns (g : Group) : List (String × AggregateColumn) :=
  g.aggregates.mapIdx fun i a => (a.id, ⟨g.label, columnName i a, a.function⟩)

def levelAlias (index : Nat) : String := "t" ++ toString (index + 1)

/-- The tables of a path, from the one next to the base table on. -/
def levels (links : List PathLink) : List DetailLevel :=
  links.mapIdx fun i l => ⟨l.table, levelAlias i, l.joinColumn⟩

/-- The select item of the aggregate at `index` in its group. -/
def aggregateItem (s : Sources) (index : Nat) (a : Aggregate) : Except AssemblyError SelectItem := do
  let value ← a.expression.toSql s
  let delimiter ← match a.delimiter with
    | none => pure none
    | some d => some <$> d.toSql s
  return ⟨a.function.toSql value delimiter, columnName index a⟩

def aggregateItems (s : Sources) : (index : Nat) → List Aggregate → Except AssemblyError (List SelectItem)
  | _, [] => .ok []
  | index, a :: as => do
    let item ← aggregateItem s index a
    let more ← aggregateItems s (index + 1) as
    return item :: more

/-- The subquery of the aggregates of which `first` is the first, and whose path is that of `first`. -/
def subquery (label : String) (first : Aggregate) (others : List Aggregate) : Except AssemblyError Subquery :=
  match levels first.links with
  | [] => .error (.missingAggregate first.id)
  | top :: deeper => do
    let aggregates := first :: others
    let leaf := (deeper.getLastD top).label
    let joins := ordered (aggregates.foldl (fun m a => a.joins.values.foldl (fun m j => m.insertNew j.id j) m) .empty)
    let named := Alias.assign (groupKey :: (top :: deeper).map (·.label)) joins
    let lookups ← lookupJoins named leaf
    let items ← aggregateItems ⟨leaf, joinSources named, []⟩ 0 aggregates
    return ⟨label, top, deeper, lookups, items⟩

def Group.subquery? (g : Group) : Except AssemblyError (Option Subquery) :=
  match g.aggregates with
  | [] => .ok none
  | first :: others => some <$> subquery g.label first others

end Assembly

open Assembly in
/-- The query that selects all fields of a batch from the table `base`. -/
def Batch.assemble (b : Batch) (base : String) : Except AssemblyError Query :=
  if b.fields.isEmpty then .error .noFields
  else do
    let parts ← b.fields.foldlM (fun parts f => addPlan base parts f.2) ⟨.empty, .empty⟩
    let groups := groups parts.aggregates
    let named := Alias.assign (baseAlias :: groups.map (·.label)) (ordered parts.joins)
    let sources : Sources := ⟨baseAlias, joinSources named, groups.flatMap Group.columns⟩
    let joins ← lookupJoins named baseAlias
    let subqueries ← groups.mapM Group.subquery?
    let fields ← b.fields.mapM fun f => do
      let value ← f.2.expression.toSql sources
      return ⟨value, f.1⟩
    return ⟨base, joins, subqueries.filterMap id, fields⟩

end FormulaQuery
