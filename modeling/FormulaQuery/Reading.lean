/-!
# Reading from the front of a list

A step of a parser gives a value and what it leaves of its input. The bound on what it leaves travels with the result,
so that a parser that recurses on the rest is seen to end.
-/

namespace FormulaQuery

/-- A value read off the front of a list of `σ`, and fewer than `n` items after it. -/
structure Reading (σ α : Type) (n : Nat) where
  value : α
  rest : List σ
  lt : rest.length < n

namespace Reading

variable {σ α β : Type} {m n : Nat}

/-- The same reading under a weaker bound. -/
def weaken (r : Reading σ α m) (h : m ≤ n) : Reading σ α n := ⟨r.value, r.rest, Nat.lt_of_lt_of_le r.lt h⟩

def map (f : α → β) (r : Reading σ α n) : Reading σ β n := ⟨f r.value, r.rest, r.lt⟩

@[simp] theorem value_weaken (r : Reading σ α m) (h : m ≤ n) : (r.weaken h).value = r.value := rfl

@[simp] theorem rest_weaken (r : Reading σ α m) (h : m ≤ n) : (r.weaken h).rest = r.rest := rfl

@[simp] theorem value_map (f : α → β) (r : Reading σ α n) : (r.map f).value = f r.value := rfl

@[simp] theorem rest_map (f : α → β) (r : Reading σ α n) : (r.map f).rest = r.rest := rfl

end Reading

end FormulaQuery
