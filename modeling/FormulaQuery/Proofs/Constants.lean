import FormulaQuery.Proofs.Printing
import FormulaQuery.Proofs.TwoScopes

/-!
# Constants

What is put between texts is compiled in the scope around an aggregate and printed in the subquery of the aggregate.
This is sound because it has to be constant: a formula that reads no row means the same in all scopes of one context
(`Scope.compile_of_isConstant`), and its plan reads nothing (`Scope.Plans.isConstant`), so it registers no join and no
aggregate and is printed the same wherever it stands.
-/

namespace FormulaQuery

/-! ### Plans that read nothing -/

namespace Expression

/-- An expression that is printed the same whatever the sources are. -/
def PrintsAs (e : Expression) (sql : Sql) : Prop := ∀ sources, e.toSql sources = .ok sql

/-- Whether an expression reads a row by itself. -/
def readsRow : Expression → Bool
  | column _ _ | related _ _ _ | aggregate _ _ => true
  | _ => false

/-- An expression that reads no row by itself is constant if its parts are. -/
theorem isConstant_of_readsRow_eq_false {e : Expression} (h : e.readsRow = false)
    (hc : ∀ c ∈ e.children, c.IsConstant) : e.IsConstant := by
  refine isConstant_of_children hc ?_ ?_ ?_
  · rintro info name rfl
    simp [readsRow] at h
  · rintro info join name rfl
    simp [readsRow] at h
  · rintro info ref rfl
    simp [readsRow] at h

/-- Arguments that are printed the same everywhere are so together. -/
theorem exists_allToSql_of_printsAs {args : List Expression} (h : ∀ e ∈ args, ∃ sql, e.PrintsAs sql) :
    ∃ printed, ∀ sources, allToSql sources args = .ok printed := by
  induction args with
  | nil => exact ⟨[], fun _ => rfl⟩
  | cons e args ih =>
    obtain ⟨sql, hsql⟩ := h e (by simp)
    obtain ⟨printed, hprinted⟩ := ih fun c hc => h c (by simp [hc])
    refine ⟨sql :: printed, fun sources => ?_⟩
    rw [allToSql]
    exact bind_of_eq_ok (hsql sources) (bind_of_eq_ok (hprinted sources) rfl)

private theorem exists_printsAs_negate {operand : Expression} (info : Info) (h : ∃ sql, operand.PrintsAs sql) :
    ∃ sql, (Expression.negate info operand).PrintsAs sql := by
  obtain ⟨sql, hsql⟩ := h
  refine ⟨"(-" ++ sql ++ ")", fun sources => ?_⟩
  rw [toSql]
  exact bind_of_eq_ok (hsql sources) rfl

private theorem exists_printsAs_binary {left right : Expression} (info : Info) (op : BinaryOperator)
    (hl : ∃ sql, left.PrintsAs sql) (hr : ∃ sql, right.PrintsAs sql) :
    ∃ sql, (Expression.binary info op left right).PrintsAs sql := by
  obtain ⟨l, hl⟩ := hl
  obtain ⟨r, hr⟩ := hr
  refine ⟨binarySql op left right l r, fun sources => ?_⟩
  rw [toSql]
  exact bind_of_eq_ok (hl sources) (bind_of_eq_ok (hr sources) rfl)

private theorem exists_printsAs_call {function : String} {args : List Expression} (info : Info)
    (hf : ∀ printed, (callSql? function args printed).isSome) (h : ∀ e ∈ args, ∃ sql, e.PrintsAs sql) :
    ∃ sql, (Expression.call info function args).PrintsAs sql := by
  obtain ⟨printed, hprinted⟩ := exists_allToSql_of_printsAs h
  obtain ⟨sql, hsql⟩ := Option.isSome_iff_exists.1 (hf printed)
  refine ⟨sql, fun sources => ?_⟩
  rw [toSql]
  refine bind_of_eq_ok (hprinted sources) ?_
  rw [hsql]
  rfl

end Expression

/-- A plan that reads nothing. -/
structure Plan.IsConstant (p : Plan) : Prop where
  joins : p.joins = .empty
  aggregates : p.aggregates = .empty
  expression : p.expression.IsConstant
  prints : ∃ sql, p.expression.PrintsAs sql

namespace Plan

/-- Plans that register nothing register nothing together. -/
private theorem foldl_union_eq_empty {α : Type} (f : Plan → KeyMap α) {parts : List Plan}
    (h : ∀ p ∈ parts, f p = .empty) : parts.foldl (fun m p => m.union (f p)) (KeyMap.empty : KeyMap α) = .empty := by
  induction parts with
  | nil => rfl
  | cons p parts ih =>
    have hp : KeyMap.empty.union (f p) = .empty := by rw [h p (by simp)]; rfl
    rw [List.foldl_cons, hp]
    exact ih fun q hq => h q (by simp [hq])

/-- A constant expression over constant plans makes a constant plan. -/
theorem isConstant_combine {e : Expression} {parts : List Plan} (h : ∀ p ∈ parts, p.IsConstant) (he : e.IsConstant)
    (hprints : ∃ sql, e.PrintsAs sql) : (combine e parts).IsConstant where
  joins := foldl_union_eq_empty Plan.joins fun p hp => (h p hp).joins
  aggregates := foldl_union_eq_empty Plan.aggregates fun p hp => (h p hp).aggregates
  expression := he
  prints := hprints

end Plan

/-! ### Plans of constant formulas -/

private theorem Formula.IsConstant.child {f c : Formula} (h : f.IsConstant) (hc : c ∈ f.children) : c.IsConstant :=
  (isConstant_iff_children.1 h).2 c hc

namespace Scope

variable {s : Scope} {e : Formula} {p : Plan}

/-- A literal that is printed by itself. -/
private theorem isConstant_ofExpression {x : Expression} (hx : x.readsRow = false) (hc : x.children = [])
    (hprints : ∃ sql, x.PrintsAs sql) : (Plan.ofExpression x).IsConstant := by
  have hx : x.IsConstant := Expression.isConstant_of_readsRow_eq_false hx (by simp [hc])
  exact ⟨rfl, rfl, hx, hprints⟩

/-- A call of a function that is no aggregate on constant arguments. -/
private theorem isConstant_call_of_plans {sig : Signature} (hs : sig ∈ Signature.catalog)
    (hf : AggregateFunction.ofName? sig.name = none) (type : ValueType) {plans : List Plan}
    (h : ∀ p ∈ plans, p.IsConstant) : (s.call sig type plans).IsConstant := by
  have hparts : ∀ c ∈ plans.map (·.expression), c.IsConstant ∧ ∃ sql, c.PrintsAs sql := by
    intro c hc
    obtain ⟨p, hp, rfl⟩ := List.mem_map.1 hc
    exact ⟨(h p hp).expression, (h p hp).prints⟩
  refine Plan.isConstant_combine h ?_ ?_
  · exact Expression.isConstant_of_readsRow_eq_false rfl fun c hc => (hparts c hc).1
  · exact Expression.exists_printsAs_call _ (isSome_callSql? hs hf _) fun c hc => (hparts c hc).2

/-- The plan of a constant formula reads nothing. -/
theorem Plans.isConstant (h : Plans s e p) (he : e.IsConstant) : p.IsConstant := by
  induction h with
  | number | string | boolean | null | date => exact isConstant_ofExpression rfl rfl ⟨_, fun _ => rfl⟩
  | column pos h => exact absurd (.column _ _) (he _ (.refl _))
  | related pos hc h => exact absurd (.related _ _ _) (he _ (.refl _))
  | negate pos _ h ih =>
    have hp := ih (he.child (by simp [Formula.children]))
    refine Plan.isConstant_combine (by simpa using hp) ?_ (Expression.exists_printsAs_negate _ hp.prints)
    exact Expression.isConstant_of_readsRow_eq_false rfl (by simpa [Expression.children] using hp.expression)
  | @binary s pos op l r p q type _ _ h ihl ihr =>
    have hp := ihl (he.child (by simp [Formula.children]))
    have hq := ihr (he.child (by simp [Formula.children]))
    refine Plan.isConstant_combine (by simpa using ⟨hp, hq⟩) ?_
      (Expression.exists_printsAs_binary _ op hp.prints hq.prints)
    exact Expression.isConstant_of_readsRow_eq_false rfl
      (by simpa [Expression.children] using ⟨hp.expression, hq.expression⟩)
  | @call s pos name sig args plans type hs hn hf hd ha hl _ htypes h ih =>
    refine isConstant_call_of_plans hs hf type fun q hq => ?_
    have hall : List.Forall₂ (fun _ q => q.IsConstant) args plans :=
      List.forall₂_iff_zip.2 ⟨hl, fun {c q} hx => ih (c, q) hx (he.child (List.of_mem_zip hx).1)⟩
    obtain ⟨c, -, hconstant⟩ := exists_mem_of_forall₂ hall.flip hq
    exact hconstant
  | @dateDifference s pos unitPos name text sig start finish p q hs hn hd ha _ _ htypes hunit ihp ihq =>
    have hf : AggregateFunction.ofName? sig.name = none := by rw [hd]; rfl
    have hp := ihp (he.child (by simp [Formula.children]))
    have hq := ihq (he.child (by simp [Formula.children]))
    have hunit : (Plan.ofExpression (s.stringLiteral (Ascii.lower text))).IsConstant :=
      isConstant_ofExpression rfl rfl ⟨_, fun _ => rfl⟩
    exact isConstant_call_of_plans hs hf .number (by simpa using ⟨hp, hq, hunit⟩)
  | aggregate pos pathPos hn => exact absurd (.aggregate pos hn _) (he _ (.refl _))

/-! ### Compiling constants in two scopes -/

/-- A constant formula is compiled alike in all scopes of one context. -/
theorem compile_of_isConstant (t : Table) (maxDepth : Nat) (he : e.IsConstant) :
    (s.elsewhere t maxDepth).compile e = s.compile e := by
  have hagrees : Agrees (fun _ => False) (s.compile e) ((s.elsewhere t maxDepth).compile e) := by
    induction e using Formula.children_induction with
    | step e ih => exact agrees_compile (fun h => absurd h (he e (.refl e))) fun _ c hc => ih c hc (he.child hc)
  exact hagrees.eq_of_not fun _ => id

/-- A constant does not depend on the schema. In two scopes of one context it has the same plan or the same error.
Its plan adds nothing to the joins and aggregates that are registered before it, no part of its expression reads a
column of any kind, and it is printed the same whatever the aliases of tables, joins and aggregates are. -/
theorem compile_constant {e : Formula} (he : e.isConstant = true) {s t : Scope} (hc : s.context = t.context) :
    s.compile e = t.compile e ∧ ∀ p, s.compile e = .ok p →
      (∀ joins, KeyMap.union joins p.joins = joins) ∧
      (∀ aggregates, KeyMap.union aggregates p.aggregates = aggregates) ∧
      p.expression.IsConstant ∧ ∃ sql, ∀ sources, p.expression.toSql sources = .ok sql := by
  have he := e.isConstant_iff.1 he
  constructor
  · have heq : (t.elsewhere s.table s.maxDepth).compile e = t.compile e := compile_of_isConstant s.table s.maxDepth he
    rw [elsewhere, ← hc] at heq
    exact heq
  · intro p hp
    have hconstant := (compile_eq_ok_iff.1 hp).isConstant he
    refine ⟨fun joins => ?_, fun aggregates => ?_, hconstant.expression, hconstant.prints⟩
    · rw [hconstant.joins]
      rfl
    · rw [hconstant.aggregates]
      rfl

end Scope

/-- What is put between texts, with calls of functions that are checked by rules of their own. -/
def Formula.separator : Formula :=
  .call .start "If" [.call .start "ISNULL" [.null .start], .call .start "upper" [.string .start " it's "],
    .call .start "STRING" [.call .start "DATEDIF" [.date .start "2024-01-31", .call .start "TODAY" [],
      .string .start "Months"]]]

theorem Scope.compile_constant_separator :
    ∃ p, (Table.tangled.scope 3).compile .separator = .ok p ∧ p.expression.type = .string ∧
      ((Table.ofName "").scope 0).compile .separator = .ok p ∧ (∀ joins, KeyMap.union joins p.joins = joins) ∧
      (∀ aggregates, KeyMap.union aggregates p.aggregates = aggregates) ∧ p.expression.IsConstant ∧
      ∃ sql, ∀ sources, p.expression.toSql sources = .ok sql := by
  have hcheck : ((Table.tangled.scope 3).compile .separator).toOption.any (fun p => p.expression.type = .string) =
      true := by
    decide +kernel
  obtain ⟨p, hp, htype⟩ := exists_of_any_toOption hcheck
  obtain ⟨hsame, hall⟩ := compile_constant (e := .separator) (s := Table.tangled.scope 3)
    (t := (Table.ofName "").scope 0) (by decide +kernel) rfl
  rw [hp] at hsame
  exact ⟨p, hp, of_decide_eq_true htype, hsame.symm, hall p hp⟩

end FormulaQuery
