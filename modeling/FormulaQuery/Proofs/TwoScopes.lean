import FormulaQuery.Proofs.Planning

/-!
# Compiling in two scopes

Scopes of one context may differ in their tables and in their limits on paths. Where a formula is compiled in two
such scopes, the results are compared step by step, and one run may end early with errors of its own (`Agrees`).
Only what reads a row looks at the table or at the limit, so all other formulas agree if their parts do
(`Scope.agrees_compile`).
-/

namespace FormulaQuery

/-- The second result is the first one, or one of the errors in `E`. -/
def Agrees {α : Type} (E : SemanticError → Prop) (r r' : Except SemanticError α) : Prop :=
  r' = r ∨ ∃ e, E e ∧ r' = .error e

namespace Agrees

variable {α β : Type} {E E' : SemanticError → Prop} {r r' : Except SemanticError α}
  {f f' : α → Except SemanticError β}

theorem refl (r : Except SemanticError α) : Agrees E r r := Or.inl rfl

theorem mono (h : Agrees E r r') (hE : ∀ e, E e → E' e) : Agrees E' r r' := by
  rcases h with rfl | ⟨e, he, rfl⟩
  · exact .refl _
  · exact Or.inr ⟨e, hE e he, rfl⟩

theorem eq_of_not (h : Agrees E r r') (hE : ∀ e, ¬E e) : r' = r := by
  rcases h with rfl | ⟨e, he, -⟩
  · rfl
  · exact absurd he (hE e)

/-- Steps one after the other: an error in `E` ends the second run. -/
theorem bind (h : Agrees E r r') (hf : ∀ a, r = .ok a → Agrees E (f a) (f' a)) : Agrees E (r >>= f) (r' >>= f') := by
  rcases h with rfl | ⟨e, he, rfl⟩
  · cases r' with
    | error e => exact .refl _
    | ok a => exact hf a rfl
  · exact Or.inr ⟨e, he, rfl⟩

end Agrees

namespace Scope

/-- Another scope of the same context. -/
def elsewhere (s : Scope) (t : Table) (maxDepth : Nat) : Scope := ⟨t, s.context, maxDepth⟩

variable {s : Scope} {t : Table} {maxDepth : Nat} {E : SemanticError → Prop}

private theorem agrees_compileArguments (sig : Signature) {args : List Formula}
    (h : ∀ c ∈ args, Agrees E (s.compile c) ((s.elsewhere t maxDepth).compile c)) (index : Nat) :
    Agrees E (s.compileArguments sig index args) ((s.elsewhere t maxDepth).compileArguments sig index args) := by
  induction args generalizing index with
  | nil =>
    rw [compileArguments, compileArguments]
    exact .refl _
  | cons arg args ih =>
    obtain ⟨harg, hargs⟩ := List.forall_mem_cons.1 h
    rw [compileArguments, compileArguments]
    refine harg.bind fun p _ => (Agrees.refl _).bind fun _ _ => ?_
    exact (ih hargs (index + 1)).bind fun _ _ => .refl _

private theorem agrees_compileDateDifference (sig : Signature) (pos : Position) {args : List Formula}
    (h : ∀ c ∈ args, Agrees E (s.compile c) ((s.elsewhere t maxDepth).compile c)) :
    Agrees E (s.compileDateDifference sig pos args)
      ((s.elsewhere t maxDepth).compileDateDifference sig pos args) := by
  unfold compileDateDifference
  split
  · rename_i start finish unit
    have hunit : (s.elsewhere t maxDepth).dateUnit unit = s.dateUnit unit := by cases unit <;> rfl
    refine (h start (by simp)).bind fun p _ => (Agrees.refl _).bind fun _ _ => ?_
    refine (h finish (by simp)).bind fun q _ => (Agrees.refl _).bind fun _ _ => ?_
    rw [hunit]
    exact .refl _
  · exact .refl _

/-- A call of an aggregate is compiled as such once its name and the number of its arguments are accepted. -/
theorem agrees_compile_aggregate {pos : Position} {f : AggregateFunction} {name : String} {args : List Formula}
    (hname : AggregateFunction.ofName? name = some f)
    (h : Agrees E (s.compileAggregate f pos args) ((s.elsewhere t maxDepth).compileAggregate f pos args)) :
    Agrees E (s.compile (.call pos name args)) ((s.elsewhere t maxDepth).compile (.call pos name args)) := by
  rw [compile, compile]
  refine (Agrees.refl _).bind fun sig hsig => ?_
  have hf : AggregateFunction.ofName? sig.name = some f := by
    rw [AggregateFunction.ofName?_eq_of_sameName (signature_spec hsig).2.1, hname]
  rw [hf]
  exact h

private theorem agrees_compile_call {pos : Position} {name : String} {args : List Formula}
    (hname : AggregateFunction.ofName? name = none)
    (h : ∀ c ∈ args, Agrees E (s.compile c) ((s.elsewhere t maxDepth).compile c)) :
    Agrees E (s.compile (.call pos name args)) ((s.elsewhere t maxDepth).compile (.call pos name args)) := by
  rw [compile, compile]
  refine (Agrees.refl _).bind fun sig hsig => ?_
  -- the signature has the name of an aggregate only if the call has
  have hf : AggregateFunction.ofName? sig.name = none := by
    rw [AggregateFunction.ofName?_eq_of_sameName (signature_spec hsig).2.1, hname]
  rw [hf]
  dsimp only
  split
  · exact agrees_compileDateDifference sig pos h
  · refine (agrees_compileArguments sig h 0).bind fun plans _ => (Agrees.refl _).bind fun type _ => ?_
    exact .refl _

/-- A formula that reads no row by itself agrees if its parts do. -/
theorem agrees_compile {e : Formula}
    (hreads : e.Reads → Agrees E (s.compile e) ((s.elsewhere t maxDepth).compile e))
    (h : ¬e.Reads → ∀ c ∈ e.children, Agrees E (s.compile c) ((s.elsewhere t maxDepth).compile c)) :
    Agrees E (s.compile e) ((s.elsewhere t maxDepth).compile e) := by
  by_cases he : e.Reads
  · exact hreads he
  have h := h he
  cases e with
  | number | string | boolean | null | date =>
    rw [compile, compile]
    exact .refl _
  | column pos name => exact absurd (.column pos name) he
  | related pos chain field => exact absurd (.related pos chain field) he
  | path pos segments => exact absurd (.path pos segments) he
  | negate pos operand =>
    rw [compile, compile]
    exact (h operand (by simp [Formula.children])).bind fun p _ => .refl _
  | binary pos op left right =>
    rw [compile, compile]
    refine (h left (by simp [Formula.children])).bind fun p _ => ?_
    exact (h right (by simp [Formula.children])).bind fun q _ => .refl _
  | call pos name args =>
    refine agrees_compile_call ?_ h
    cases hname : AggregateFunction.ofName? name with
    | none => rfl
    | some f => exact absurd (.aggregate pos (AggregateFunction.ofName?_eq_some_iff.1 hname) args) he

end Scope

end FormulaQuery
