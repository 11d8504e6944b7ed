import FormulaQuery.Plan

/-!
# Aliases of joined tables

A join over one relationship is named after its table, a longer chain after its relationships. A name that is taken
gets the least number from two on that makes it free.
-/

namespace FormulaQuery.Alias

/-- A name made of small letters, digits and underscores. -/
def token (name : String) : String :=
  String.ofList (name.toList.map fun c => if Ascii.isLetter c || Ascii.isDigit c then c.toLower else '_')

/-- The name of a join while it is free. -/
def base (j : Join) : String :=
  match j.chain with
  | [_] => token j.target
  | chain => "_".intercalate (chain.map token)

def numbered (base : String) (n : Nat) : String := base ++ "_" ++ toString n

/-- The first name that is not taken among `base` and its numbered forms.  One of the first `taken.length + 1` of them
is free. -/
def fresh (base : String) (taken : List String) : String :=
  if base ∈ taken then
    ((List.range' 2 taken.length).map (numbered base)).find? (· ∉ taken) |>.getD base
  else base

/-- Names joins one after another, each with a name that no earlier one has. -/
def assign : (taken : List String) → List Join → List (Join × String)
  | _, [] => []
  | taken, j :: js =>
    let label := fresh (base j) taken
    (j, label) :: assign (label :: taken) js

end FormulaQuery.Alias
