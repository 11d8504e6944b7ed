import FormulaQuery.Sql

/-!
# Queries

A query selects named expressions from a base table. Each many-to-one relationship is a left join on the primary key
of its table. Aggregates over one path share a subquery, which groups by the column that points back to the base
table and is joined to the base table by it.
-/

namespace FormulaQuery

/-- The alias of the base table. -/
def baseAlias : String := "s"

/-- The primary key that every table is taken to have. -/
def primaryKey : String := "id"

/-- The column of a subquery that holds what it groups by. -/
def groupKey : String := "key"

/-- A table joined by its primary key to a column of a table before it. -/
structure LookupJoin where
  table : String
  /-- Its alias in the query. -/
  label : String
  /-- The alias that the column is read from. -/
  parent : String
  column : String
deriving DecidableEq, Repr

def LookupJoin.toSql (j : LookupJoin) : Sql :=
  "LEFT JOIN " ++ Sql.table j.table ++ " " ++ Sql.identifier j.label ++ " ON " ++ Sql.column j.parent j.column
    ++ " = " ++ Sql.column j.label primaryKey

/-- A table whose rows belong to those of the table one level up. -/
structure DetailLevel where
  table : String
  /-- Its alias in the query. -/
  label : String
  /-- The column that points up. -/
  column : String
deriving DecidableEq, Repr

/-- An expression under a name. -/
structure SelectItem where
  value : Sql
  name : String
deriving DecidableEq, Repr

def SelectItem.toSql (i : SelectItem) : Sql := i.value ++ " AS " ++ Sql.identifier i.name

/-- The aggregates over one path. -/
structure Subquery where
  /-- Its alias in the query. -/
  label : String
  /-- The table next to the base table; its column is what is grouped by. -/
  top : DetailLevel
  deeper : List DetailLevel
  joins : List LookupJoin
  items : List SelectItem
deriving DecidableEq, Repr

namespace Subquery

/-- The inner joins of the levels below the one with alias `up`. -/
def deeperSql (up : String) : List DetailLevel → List Sql
  | [] => []
  | l :: ls =>
    ("    JOIN " ++ Sql.table l.table ++ " " ++ Sql.identifier l.label ++ " ON " ++ Sql.column l.label l.column
      ++ " = " ++ Sql.column up primaryKey) :: deeperSql l.label ls

def groupColumn (q : Subquery) : Sql := Sql.column q.top.label q.top.column

def fromLines (q : Subquery) : List Sql :=
  ("    FROM " ++ Sql.table q.top.table ++ " " ++ Sql.identifier q.top.label)
    :: deeperSql q.top.label q.deeper ++ q.joins.map fun j => ("    " : Sql) ++ j.toSql

def toSql (q : Subquery) : Sql :=
  let items := SelectItem.toSql ⟨q.groupColumn, groupKey⟩ :: q.items.map SelectItem.toSql
  "LEFT JOIN (\n    SELECT " ++ Sql.join ", " items ++ "\n" ++ Sql.join "\n" q.fromLines ++ "\n    GROUP BY "
    ++ q.groupColumn ++ "\n) " ++ Sql.identifier q.label ++ " ON " ++ Sql.column q.label groupKey ++ " = "
    ++ Sql.column baseAlias primaryKey

end Subquery

structure Query where
  base : String
  joins : List LookupJoin
  subqueries : List Subquery
  fields : List SelectItem
deriving DecidableEq, Repr

namespace Query

def fromSql (q : Query) : Sql :=
  Sql.join "\n" (("FROM " ++ Sql.table q.base ++ " " ++ Sql.identifier baseAlias)
    :: q.joins.map LookupJoin.toSql ++ q.subqueries.map Subquery.toSql)

def toSql (q : Query) : Sql :=
  "SELECT\n  " ++ Sql.join ",\n  " (q.fields.map SelectItem.toSql) ++ "\n" ++ q.fromSql

/-- The whole query. -/
def text (q : Query) : String := q.toSql.text

/-- The clause that introduces all tables and subqueries. -/
def fromClause (q : Query) : String := q.fromSql.text

/-- The selected expressions with their names. -/
def selectExpressions (q : Query) : List String := q.fields.map fun i => i.toSql.text

/-- The names of the fields with the column names that stand for them in the query. -/
def fieldAliases (q : Query) : List (String × String) := q.fields.map fun i => (i.name, Sql.quoteIdentifier i.name)

end Query

end FormulaQuery
