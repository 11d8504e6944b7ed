import FormulaQuery.NameMap
import FormulaQuery.ValueType

/-!
# Tables and their relationships

A schema is the table that formulas are written for: its columns, the many-to-one relationships that lead to one row
of another table, and the one-to-many relationships that lead to many. Every relationship leads to a table of the
same kind, so a schema is a tree of tables.
-/

namespace FormulaQuery

/-- A relationship to a `target`, and the column that it goes by. A many-to-one relationship has the column in the
table that it starts from, a one-to-many relationship in the table that it leads to. -/
structure Link (τ : Type) where
  joinColumn : String
  target : τ
deriving Repr

structure Table where
  name : String
  columns : NameMap ValueType
  /-- Many-to-one relationships. -/
  direct : NameMap (Link Table)
  /-- One-to-many relationships. -/
  inverse : NameMap (Link Table)
deriving Repr

namespace Table

/-- A table without columns and relationships. -/
def ofName (name : String) : Table := ⟨name, .empty, .empty, .empty⟩

def withColumn (t : Table) (name : String) (type : ValueType) : Table :=
  { t with columns := t.columns.insert name type }

def withDirect (t : Table) (name : String) (link : Link Table) : Table :=
  { t with direct := t.direct.insert name link }

def withInverse (t : Table) (name : String) (link : Link Table) : Table :=
  { t with inverse := t.inverse.insert name link }

end Table

end FormulaQuery
