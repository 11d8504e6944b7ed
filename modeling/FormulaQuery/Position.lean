/-!
# Places in a formula

A place is the number of characters before it, together with its line and column. Lines and columns are counted
from one, and only a line feed starts a new line.
-/

namespace FormulaQuery

structure Position where
  /-- Characters before this place. -/
  offset : Nat
  line : Nat
  column : Nat
deriving DecidableEq, Repr

namespace Position

/-- The place of the first character. -/
def start : Position := ⟨0, 1, 1⟩

/-- The place right after the character `c` at `p`. -/
def advance (p : Position) (c : Char) : Position :=
  if c = '\n' then ⟨p.offset + 1, p.line + 1, 1⟩ else ⟨p.offset + 1, p.line, p.column + 1⟩

/-- The place right after the text `cs` that begins at `p`. -/
def after (p : Position) (cs : List Char) : Position := cs.foldl advance p

def text (p : Position) : String := s!"line {p.line}, column {p.column}"

@[simp] theorem after_nil (p : Position) : p.after [] = p := rfl

@[simp] theorem after_cons (p : Position) (c : Char) (cs : List Char) :
    p.after (c :: cs) = (p.advance c).after cs := rfl

theorem after_append (p : Position) (cs ds : List Char) : p.after (cs ++ ds) = (p.after cs).after ds :=
  List.foldl_append

end Position

end FormulaQuery
