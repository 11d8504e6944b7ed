import FormulaQuery.Command
import FormulaQuery.Signature.Catalog

/-!
# The reference of the functions

An overview lists all functions by their categories; a page tells all that is known of one function.
-/

namespace FormulaQuery.Reference

/-- The width of the column of signatures in the overview. -/
def signatureWidth : Nat := 60

/-- A text with blanks at its end, so that it is at least `width` characters long. -/
def padRight (width : Nat) (s : String) : String := s ++ String.ofList (List.replicate (width - s.length) ' ')

def overviewLine (s : Signature) : String := "  " ++ padRight signatureWidth s.text ++ " " ++ s.description ++ "\n"

def overviewSection (c : Category) : String :=
  "\n" ++ Ascii.upper c.name ++ "\n" ++
    String.join ((Signature.catalog.filter fun s => s.category == c).map overviewLine)

def overview : String :=
  "FORMULA FUNCTIONS\n" ++ String.join (Category.all.map overviewSection) ++
    "\nRelated columns are read with name_rel.column; aggregates take a\n" ++
    "relationship path such as orders or orders.line_items.\n"

/-- The greatest number of arguments in words. -/
def limitText : Option Nat → String
  | some n => toString n
  | none => "any"

def page (name : String) : Except CommandError String :=
  match Signature.find? name with
  | none => .error (.unknownFunction name)
  | some s =>
    .ok (s.text ++ "\n\n  " ++ s.description ++ "\n\n  category: " ++ s.category.name ++ "\n  arguments: " ++
      toString s.minArity ++ " to " ++ limitText s.maxArity? ++ "\n")

end FormulaQuery.Reference
