import FormulaQuery.Proofs.Registration
import FormulaQuery.Sql.Expression

/-!
# Printing always succeeds

An expression can be printed if all the names that it refers to are among the sources (`exists_toSql`). Compiled
expressions call no function that cannot be printed (`Scope.Compiled.readable`), so only joins and aggregates have
to be found.
-/

namespace FormulaQuery

namespace Expression

/-! ### Expressions -/

/-- What holds of an expression once it holds of its parts holds of all. -/
theorem children_induction {P : Expression → Prop} (step : ∀ e, (∀ c ∈ e.children, P c) → P e) (e : Expression) :
    P e := by
  have bounded : ∀ (n : Nat) (e : Expression), sizeOf e < n → P e := by
    intro n
    induction n with
    | zero => exact fun e h => absurd h (Nat.not_lt_zero _)
    | succ n ih =>
      intro e h
      refine step e fun c hc => ih c (Nat.lt_of_lt_of_le ?_ (Nat.le_of_lt_succ h))
      cases e with
      | negate info operand =>
        rw [List.mem_singleton.1 hc, negate.sizeOf_spec]
        omega
      | binary info op left right =>
        rw [binary.sizeOf_spec]
        rcases List.mem_cons.1 hc with rfl | hc
        · omega
        · rw [List.mem_singleton.1 hc]
          omega
      | call info function args =>
        have := List.sizeOf_lt_of_mem (show c ∈ args from hc)
        rw [call.sizeOf_spec]
        omega
      | _ => cases hc
  exact bounded (sizeOf e + 1) e (Nat.lt_succ_self _)

/-- All that an expression refers to can be found. -/
structure Readable (s : Sources) (e : Expression) : Prop where
  related : ∀ info join name, (Expression.related info join name).Within e → (s.joins.lookup join).isSome
  aggregate : ∀ info ref, (Expression.aggregate info ref).Within e → (s.aggregates.lookup ref).isSome
  call : ∀ info function args, (Expression.call info function args).Within e →
    ∀ printed, (callSql? function args printed).isSome

theorem Readable.child {s : Sources} {e c : Expression} (h : e.Readable s) (hc : c ∈ e.children) : c.Readable s :=
  ⟨fun i j n hw => h.related i j n (.child hc hw), fun i r hw => h.aggregate i r (.child hc hw),
    fun i f a hw => h.call i f a (.child hc hw)⟩

private theorem exists_allToSql {s : Sources} {args : List Expression} (h : ∀ e ∈ args, ∃ sql, e.toSql s = .ok sql) :
    ∃ printed, allToSql s args = .ok printed := by
  induction args with
  | nil => exact ⟨[], rfl⟩
  | cons e args ih =>
    obtain ⟨sql, hsql⟩ := h e List.mem_cons_self
    obtain ⟨printed, hprinted⟩ := ih fun c hc => h c (List.mem_cons_of_mem _ hc)
    exact ⟨sql :: printed, by rw [allToSql, hsql, hprinted]; rfl⟩

theorem exists_toSql {s : Sources} {e : Expression} (h : e.Readable s) : ∃ sql, e.toSql s = .ok sql := by
  induction e using children_induction with
  | step e ih =>
    have hc : ∀ c ∈ e.children, ∃ sql, c.toSql s = .ok sql := fun c hc => ih c hc (h.child hc)
    cases e with
    | number | string | boolean | null | date | column => exact ⟨_, rfl⟩
    | related info join name =>
      obtain ⟨label, hlabel⟩ := Option.isSome_iff_exists.1 (h.related info join name (.refl _))
      exact ⟨Sql.column label name, by rw [toSql, hlabel]⟩
    | negate info operand =>
      obtain ⟨sql, hsql⟩ := hc operand List.mem_cons_self
      exact ⟨_, by rw [toSql, hsql]; rfl⟩
    | binary info op left right =>
      obtain ⟨l, hl⟩ := hc left List.mem_cons_self
      obtain ⟨r, hr⟩ := hc right (List.mem_cons_of_mem _ List.mem_cons_self)
      exact ⟨_, by rw [toSql, hl, hr]; rfl⟩
    | call info function args =>
      obtain ⟨printed, hprinted⟩ : ∃ printed, allToSql s args = .ok printed := exists_allToSql hc
      obtain ⟨sql, hsql⟩ := Option.isSome_iff_exists.1 (h.call info function args (.refl _) printed)
      refine ⟨sql, ?_⟩
      rw [toSql]
      refine bind_of_eq_ok hprinted ?_
      rw [hsql]
      rfl
    | aggregate info ref =>
      obtain ⟨c, hcolumn⟩ := Option.isSome_iff_exists.1 (h.aggregate info ref (.refl _))
      exact ⟨c.toSql, by rw [toSql, hcolumn]⟩

end Expression

/-! ### Functions -/

/-- The functions that are printed as calls of their own. -/
private def renderedFunctions : List String :=
  ["IF", "AND", "OR", "NOT", "ISNULL", "NULLVALUE", "ABS", "FLOOR", "SQRT", "POWER", "UPPER", "LOWER", "TRIM", "LEFT",
    "RIGHT", "CEILING", "ROUND", "LEN", "CONTAINS", "STRING", "TODAY", "YEAR", "MONTH", "DAY", "DATEDIF"]

/-- Every function that is no aggregate can be printed. -/
theorem isSome_callSql? {sig : Signature} (hs : sig ∈ Signature.catalog)
    (ha : AggregateFunction.ofName? sig.name = none) (args : List Expression) (printed : List Sql) :
    (Expression.callSql? sig.name args printed).isSome := by
  have hname : ∀ t ∈ Signature.catalog, AggregateFunction.ofName? t.name = none → t.name ∈ renderedFunctions := by
    decide +kernel
  have hrendered : ∀ name ∈ renderedFunctions, (Expression.callSql? name args printed).isSome := by
    unfold renderedFunctions
    simp only [List.forall_mem_cons, List.not_mem_nil, false_implies, implies_true, and_true]
    and_intros <;> rfl
  exact hrendered _ (hname sig hs ha)

namespace Scope.Compiled

variable {s : Scope} {p : Plan} {sources : Sources}

theorem isSome_call (h : Compiled s p) {info : Info} {function : String} {args : List Expression}
    (hw : (Expression.call info function args).Within p.expression) (printed : List Sql) :
    (Expression.callSql? function args printed).isSome := by
  obtain ⟨sig, hs, hagg, rfl, -⟩ := h.exists_of_call hw
  exact isSome_callSql? hs hagg args printed

/-- The expression of a plan can be printed where its joins and aggregates are found. -/
theorem readable (h : Compiled s p) (hj : ∀ j ∈ p.joins.values, (sources.joins.lookup j.id).isSome)
    (ha : ∀ a ∈ p.aggregates.values, (sources.aggregates.lookup a.id).isSome) : p.expression.Readable sources := by
  refine ⟨?_, ?_, fun info function args hw printed => h.isSome_call hw printed⟩
  · intro info join name hw
    obtain ⟨init, last, -, rfl, hmem⟩ := h.exists_of_related hw
    exact hj _ hmem
  · intro info ref hw
    obtain ⟨a, hmem, rfl⟩ := h.exists_of_aggregate hw
    exact ha a hmem

/-- A constant expression reads nothing, so it can be printed anywhere. -/
theorem readable_of_isConstant (h : Compiled s p) (hc : p.expression.IsConstant) : p.expression.Readable sources :=
  ⟨fun info join name hw => absurd hw (hc.related info join name),
    fun info ref hw => absurd hw (hc.aggregate info ref), fun _ _ _ hw printed => h.isSome_call hw printed⟩

end Scope.Compiled

end FormulaQuery
