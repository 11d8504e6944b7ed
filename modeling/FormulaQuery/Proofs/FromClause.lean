import FormulaQuery.Query

/-!
# FROM clauses and their text

A FROM clause takes a table and joins relations to it, one after the other. A relation is a table, or a select over
tables that are joined in the same way, with one row for each value of what it groups by. Here are the syntax of
such clauses and their text, in plain strings. `Query.clause` is the clause of a query, and the text of the query is
that of its clause and of its fields (`Query.written`).
-/

namespace FormulaQuery

/-! ### Syntax -/

/-- A column of what an alias stands for. -/
structure ColumnRef where
  source : String
  name : String
deriving DecidableEq, Repr

/-- A relation that is joined where two columns are equal. -/
structure JoinItem (ρ : Type) where
  /-- Whether rows without a partner are kept. -/
  isLeft : Bool
  relation : ρ
  label : String
  left : ColumnRef
  right : ColumnRef

structure FromClause (ρ : Type) where
  table : String
  label : String
  joins : List (JoinItem ρ)

/-- A column, and expressions that fold the rows of a group. -/
structure GroupedSelect where
  column : ColumnRef
  /-- The name that the column is given. -/
  name : String
  items : List SelectItem
  source : FromClause String
  groupBy : ColumnRef

inductive TableExpr where
  | table (name : String)
  | grouped (select : GroupedSelect)

/-! ### Text -/

def ColumnRef.text (c : ColumnRef) : String := Sql.quoteIdentifier c.source ++ "." ++ Sql.quoteIdentifier c.name

/-- The name of a table, in quotes unless it is plain. -/
def tableText (name : String) : String := if Sql.isPlainTableName name then name else Sql.quoteIdentifier name

def SelectItem.text (i : SelectItem) : String := i.value.text ++ " AS " ++ Sql.quoteIdentifier i.name

section Text

variable {ρ : Type} (print : ρ → String)

def JoinItem.text (j : JoinItem ρ) : String :=
  (if j.isLeft then "LEFT JOIN " else "JOIN ") ++ print j.relation ++ " " ++ Sql.quoteIdentifier j.label ++ " ON "
    ++ j.left.text ++ " = " ++ j.right.text

/-- The clause, one line for each table. -/
def FromClause.lines (c : FromClause ρ) : List String :=
  ("FROM " ++ tableText c.table ++ " " ++ Sql.quoteIdentifier c.label) :: c.joins.map (JoinItem.text print)

end Text

def GroupedSelect.text (g : GroupedSelect) : String :=
  "(\n    SELECT "
    ++ ", ".intercalate ((g.column.text ++ " AS " ++ Sql.quoteIdentifier g.name) :: g.items.map SelectItem.text)
    ++ "\n" ++ "\n".intercalate ((g.source.lines tableText).map ("    " ++ ·))
    ++ "\n    GROUP BY " ++ g.groupBy.text ++ "\n)"

def TableExpr.text : TableExpr → String
  | table name => tableText name
  | grouped g => g.text

def FromClause.text (c : FromClause TableExpr) : String := "\n".intercalate (c.lines TableExpr.text)

/-- The columns that SQL reads, each with the alias that it is read from. -/
def Sql.reads (s : Sql) : List (String × String) :=
  s.pieces.filterMap fun
    | .column source name => some (source, name)
    | _ => none

/-! ### The clause of a query -/

def LookupJoin.item {ρ : Type} (relation : String → ρ) (j : LookupJoin) : JoinItem ρ :=
  ⟨true, relation j.table, j.label, ⟨j.parent, j.column⟩, ⟨j.label, primaryKey⟩⟩

namespace Subquery

/-- The inner joins of the levels below the one with alias `up`. -/
def deeperJoins (up : String) : List DetailLevel → List (JoinItem String)
  | [] => []
  | l :: ls => ⟨false, l.table, l.label, ⟨l.label, l.column⟩, ⟨up, primaryKey⟩⟩ :: deeperJoins l.label ls

def grouped (q : Subquery) : GroupedSelect where
  column := ⟨q.top.label, q.top.column⟩
  name := groupKey
  items := q.items
  source := ⟨q.top.table, q.top.label, deeperJoins q.top.label q.deeper ++ q.joins.map (LookupJoin.item id)⟩
  groupBy := ⟨q.top.label, q.top.column⟩

def item (q : Subquery) : JoinItem TableExpr :=
  ⟨true, .grouped q.grouped, q.label, ⟨q.label, groupKey⟩, ⟨baseAlias, primaryKey⟩⟩

end Subquery

def Query.clause (q : Query) : FromClause TableExpr :=
  ⟨q.base, baseAlias, q.joins.map (LookupJoin.item .table) ++ q.subqueries.map Subquery.item⟩

/-- The query selects from the table `base`, and all that is printed of it is what its records say: the clause, each
field under its name, and the two together. -/
structure Query.Written (q : Query) (base : String) : Prop where
  base : q.base = base
  clause : q.fromClause = q.clause.text
  select : q.selectExpressions = q.fields.map SelectItem.text
  text : q.text = "SELECT\n  " ++ ",\n  ".intercalate q.selectExpressions ++ "\n" ++ q.fromClause

/-! ### What is printed -/

namespace Sql

@[simp] theorem text_append (a b : Sql) : (a ++ b).text = a.text ++ b.text := by
  show String.join ((a.pieces ++ b.pieces).map Piece.text) = _
  rw [List.map_append, String.join_append]
  rfl

@[simp] theorem text_bare (t : String) : (⟨[.bare t]⟩ : Sql).text = t := by
  simp [text, Piece.text]

@[simp] theorem text_identifier (name : String) : (identifier name).text = quoteIdentifier name := by
  simp [text, identifier, Piece.text]

@[simp] theorem text_column (source name : String) : (column source name).text = (ColumnRef.mk source name).text := by
  simp [text, column, Piece.text, ColumnRef.text]

@[simp] theorem text_table (name : String) : (table name).text = tableText name := by
  unfold table tableText
  split
  · exact text_bare name
  · exact text_identifier name

theorem text_join (separator : String) (parts : List Sql) :
    (join separator parts).text = separator.intercalate (parts.map text) := by
  induction parts using join.induct with
  | case1 => simp [join, text]
  | case2 p => simp [join]
  | case3 p rest hne ih =>
    have hjoin : join separator (p :: rest) = p ++ separator ++ join separator rest := by
      rw [join]
      exact hne
    have hne : rest.map text ≠ [] := fun h => hne (List.map_eq_nil_iff.1 h)
    rw [hjoin, text_append, text_append, text_bare, ih, List.map_cons, String.intercalate_cons_of_ne_nil hne]

end Sql

/-- Two literal texts that stand next to each other. -/
private theorem merge_literals {a b c : String} (h : a ++ b = c) (rest : String) : a ++ (b ++ rest) = c ++ rest := by
  rw [← String.append_assoc, h]

private theorem SelectItem.text_toSql (i : SelectItem) : i.toSql.text = i.text := by
  simp only [toSql, text, Sql.text_append, Sql.text_bare, Sql.text_identifier]

/-- A lookup join is printed as its item, whatever stands for its table. -/
private theorem LookupJoin.text_item {ρ : Type} {print : ρ → String} {relation : String → ρ}
    (h : ∀ t, print (relation t) = tableText t) (j : LookupJoin) : (j.item relation).text print = j.toSql.text := by
  simp only [JoinItem.text, item, h, if_true, toSql, Sql.text_append, Sql.text_bare, Sql.text_table,
    Sql.text_identifier, Sql.text_column]

namespace Subquery

private theorem text_deeperJoins (up : String) (ls : List DetailLevel) :
    (deeperJoins up ls).map (fun j => "    " ++ j.text tableText) = (deeperSql up ls).map Sql.text := by
  induction ls generalizing up with
  | nil => rfl
  | cons l ls ih =>
    rw [deeperJoins, deeperSql, List.map_cons, List.map_cons, ih]
    simp only [JoinItem.text, Bool.false_eq_true, if_false, Sql.text_append, Sql.text_bare, Sql.text_table,
      Sql.text_identifier, Sql.text_column, String.append_assoc]
    rw [merge_literals (c := "    JOIN ") (by decide)]

private theorem text_lines (q : Subquery) :
    (q.grouped.source.lines tableText).map ("    " ++ ·) = q.fromLines.map Sql.text := by
  have hfrom : "    " ++ ("FROM " ++ tableText q.top.table ++ " " ++ Sql.quoteIdentifier q.top.label) =
      ("    FROM " ++ Sql.table q.top.table ++ " " ++ Sql.identifier q.top.label : Sql).text := by
    simp only [Sql.text_append, Sql.text_bare, Sql.text_table, Sql.text_identifier, String.append_assoc]
    rw [merge_literals (c := "    FROM ") (by decide)]
  have hjoin : ∀ j : LookupJoin, (j.item id).text tableText = j.toSql.text := LookupJoin.text_item fun _ => rfl
  simp only [FromClause.lines, grouped, fromLines, List.map_cons, List.map_append, List.cons_append, hfrom,
    List.map_map, ← text_deeperJoins, Function.comp_def, hjoin, Sql.text_append, Sql.text_bare]

private theorem text_items (q : Subquery) :
    (SelectItem.toSql ⟨q.groupColumn, groupKey⟩ :: q.items.map SelectItem.toSql).map Sql.text =
      ((ColumnRef.mk q.top.label q.top.column).text ++ " AS " ++ Sql.quoteIdentifier groupKey)
        :: q.items.map SelectItem.text := by
  have hmap : Sql.text ∘ SelectItem.toSql = SelectItem.text := funext SelectItem.text_toSql
  rw [List.map_cons, List.map_map, hmap, SelectItem.text_toSql, SelectItem.text, groupColumn, Sql.text_column]

private theorem text_item (q : Subquery) : q.item.text TableExpr.text = q.toSql.text := by
  -- The text of the subquery, part by part.
  unfold toSql
  simp only [Sql.text_append, Sql.text_bare, Sql.text_identifier, Sql.text_column]
  rewrite [Sql.text_join, Sql.text_join, text_items, ← text_lines, groupColumn, Sql.text_column]
  -- The item has the same parts; only where the literal texts between them end is another.
  unfold JoinItem.text item
  rewrite [if_pos rfl]
  dsimp only [TableExpr.text, GroupedSelect.text]
  simp only [String.append_assoc]
  rewrite [merge_literals (c := "LEFT JOIN (\n    SELECT ") (by decide),
    merge_literals (a := "\n)") (c := "\n) ") (by decide)]
  rfl

end Subquery

namespace Query

/-- A query is printed with its clause. -/
theorem clause_text (q : Query) : q.clause.text = q.fromClause := by
  have hbase : "FROM " ++ tableText q.base ++ " " ++ Sql.quoteIdentifier baseAlias =
      ("FROM " ++ Sql.table q.base ++ " " ++ Sql.identifier baseAlias : Sql).text := by
    simp only [Sql.text_append, Sql.text_bare, Sql.text_table, Sql.text_identifier]
  have hjoin : ∀ j : LookupJoin, (j.item .table).text TableExpr.text = j.toSql.text :=
    LookupJoin.text_item fun _ => rfl
  rw [FromClause.text, fromClause, fromSql, Sql.text_join]
  simp only [FromClause.lines, clause, List.map_cons, List.map_append, List.cons_append, hbase, List.map_map,
    Function.comp_def, hjoin, Subquery.text_item]

/-- All that is printed of a query is what its records say. -/
theorem written (q : Query) : q.Written q.base where
  base := rfl
  clause := q.clause_text.symm
  select := List.map_congr_left fun i _ => i.text_toSql
  text := by
    simp only [text, toSql, fromClause, selectExpressions, Sql.text_append, Sql.text_bare, Sql.text_join,
      List.map_map]
    rfl

end Query

end FormulaQuery
