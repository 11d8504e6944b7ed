/-!
# Edit distance

The least number of characters to insert, delete or replace that turns one text into another. The table of distances
is filled row by row: a row holds the distances of one beginning of the first text to all beginnings of the second.
-/

namespace FormulaQuery.EditDistance

/-- The rest of the row for a text that ends with `c`, given the row above and the entry on the left. -/
def fillRow (c : Char) : (target : List Char) → (above : List Nat) → (left : Nat) → List Nat
  | d :: target, diagonal :: up :: above, left =>
    let entry := min (min (up + 1) (left + 1)) (diagonal + if c = d then 0 else 1)
    entry :: fillRow c target (up :: above) entry
  | _, _, _ => []

/-- The row below `above`, for a text that goes on with `c`. -/
def nextRow (target : List Char) (above : List Nat) (c : Char) : List Nat :=
  let first := above.headD 0 + 1
  first :: fillRow c target above first

def distance (source target : List Char) : Nat :=
  (source.foldl (nextRow target) (List.range (target.length + 1))).getLastD 0

end FormulaQuery.EditDistance
