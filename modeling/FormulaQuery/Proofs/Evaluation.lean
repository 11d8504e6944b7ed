import FormulaQuery.Plan.Compile
import FormulaQuery.Proofs.Steps
import FormulaQuery.Query.Assembly
import Mathlib.Data.List.Sort

/-!
# Evaluating formulas and batches

That a formula has a plan with certain properties, or a batch a query, can be found out by computing it
(`exists_ofFormula_of_check`, `exists_assemble_of_check`). The joins of a batch are sorted by merging, which does
not reduce in a proof; sorting them by insertion gives the same list (`Assembly.ordered_eq_insertionSort`). What is
evaluated is mostly over one schema, `Table.tangled`.
-/

namespace FormulaQuery

/-! ### The order of joins -/

namespace Assembly

theorem chain_length_trans (a b c : Join) : decide (a.chain.length ≤ b.chain.length) = true →
    decide (b.chain.length ≤ c.chain.length) = true → decide (a.chain.length ≤ c.chain.length) = true := by
  simp only [decide_eq_true_eq]
  omega

theorem chain_length_total (a b : Join) :
    (decide (a.chain.length ≤ b.chain.length) || decide (b.chain.length ≤ a.chain.length)) = true := by
  simp only [Bool.or_eq_true, decide_eq_true_eq]
  omega

private theorem orderedInsert_append {α : Type} {r : α → α → Prop} [DecidableRel r] {a : α} {as bs : List α}
    (has : ∀ b ∈ as, ¬r a b) (hbs : ∀ b ∈ bs, r a b) : (as ++ bs).orderedInsert r a = as ++ a :: bs := by
  induction as with
  | nil =>
    cases bs with
    | nil => rfl
    | cons b bs => exact List.orderedInsert_cons_of_le r bs (hbs b List.mem_cons_self)
  | cons b as ih =>
    rw [List.cons_append, List.orderedInsert_cons, if_neg (has b List.mem_cons_self),
      ih fun c hc => has c (List.mem_cons_of_mem _ hc)]
    rfl

/-- Both sorts keep the order of joins over chains of one length; this one is by structural recursion. -/
theorem ordered_eq_insertionSort (m : KeyMap Join) :
    ordered m = m.values.insertionSort fun a b => a.chain.length ≤ b.chain.length := by
  unfold ordered
  induction m.values with
  | nil => exact List.mergeSort_nil
  | cons j js ih =>
    obtain ⟨before, after, hcons, hjs, hbefore⟩ := List.mergeSort_cons chain_length_trans chain_length_total j js
    have hsorted := List.pairwise_mergeSort chain_length_trans chain_length_total (j :: js)
    rw [hcons, List.pairwise_append, List.pairwise_cons] at hsorted
    rw [List.insertionSort_cons, ← ih, hcons, hjs, orderedInsert_append]
    · intro i hi
      simpa using hbefore i hi
    · intro i hi
      simpa using hsorted.2.1.1 i hi

end Assembly

/-! ### Checks of plans and queries -/

/-- A formula whose plan passes a check has a plan. -/
theorem exists_ofFormula_of_check (text : String) (schema : Table) (maxDepth : Nat) (P : Plan → Prop)
    [DecidablePred P] (h : (Plan.ofFormula text schema maxDepth).toOption.any (fun p => decide (P p)) = true) :
    ∃ p, Plan.ofFormula text schema maxDepth = .ok p ∧ P p := by
  obtain ⟨p, hp, h⟩ := exists_of_any_toOption h
  exact ⟨p, hp, of_decide_eq_true h⟩

/-- A batch whose query passes a check has a query. -/
theorem exists_assemble_of_check (b : Batch) (base : String) (P : Query → Prop) [DecidablePred P]
    (h : (b.assemble base).toOption.any (fun q => decide (P q)) = true) : ∃ q, b.assemble base = .ok q ∧ P q := by
  obtain ⟨q, hq, h⟩ := exists_of_any_toOption h
  exact ⟨q, hq, of_decide_eq_true h⟩

/-- Two formulas whose query passes a check have plans and a query. -/
theorem exists_pair_of_check (text text' : String) (schema schema' : Table) (maxDepth : Nat)
    (name name' base : String) (P : Batch → Query → Prop) [∀ b q, Decidable (P b q)]
    (h : ((Plan.ofFormula text schema maxDepth).toOption.any fun p =>
      (Plan.ofFormula text' schema' maxDepth).toOption.any fun p' =>
        (Batch.assemble ⟨[(name, p), (name', p')]⟩ base).toOption.any fun q =>
          decide (P ⟨[(name, p), (name', p')]⟩ q)) = true) :
    ∃ p p' q, Plan.ofFormula text schema maxDepth = .ok p ∧ Plan.ofFormula text' schema' maxDepth = .ok p' ∧
      Batch.assemble ⟨[(name, p), (name', p')]⟩ base = .ok q ∧ P ⟨[(name, p), (name', p')]⟩ q := by
  obtain ⟨p, hp, h⟩ := exists_of_any_toOption h
  obtain ⟨p', hp', h⟩ := exists_of_any_toOption h
  obtain ⟨q, hq, h⟩ := exists_assemble_of_check _ base (P _) h
  exact ⟨p, p', q, hp, hp', hq, h⟩

/-! ### A schema to evaluate formulas in -/

/-- A schema whose table names and join columns hold the characters that set identifiers and SQL apart. -/
def Table.tangled : Table :=
  let region := (ofName "re\"gions[0]@main").withColumn "quota" .number
  let rep := ((ofName "reps--").withColumn "name" .string).withDirect "region" ⟨"region],id", region⟩
  let line := ((ofName "lines;").withColumn "amount" .number).withDirect "rep" ⟨"rep->id", rep⟩
  let order := ((ofName "agg:orders").withColumn "total" .number).withInverse "lines" ⟨"order\"id", line⟩
  (((ofName "customers@main").withColumn "balance" .number).withDirect "rep" ⟨"rep:id", rep⟩).withInverse "orders"
    ⟨"customer/*id", order⟩

/-- Two formulas over the tangled schema that have the joins of a chain and an aggregate in common. -/
theorem exists_tangled_plans :
    ∃ p q, Plan.ofFormula "SUM_AGG(orders.lines, amount) - rep_rel.region_rel.quota" .tangled 3 = .ok p ∧
      Plan.ofFormula "Rep_Rel.Region_REL.Quota * sum_agg(Orders.Lines, Amount)" .tangled 3 = .ok q ∧
      (p.joins.size = 2 ∧ p.aggregates.size = 1) ∧ (q.joins.size = 2 ∧ q.aggregates.size = 1) := by
  obtain ⟨p, hp, hsize⟩ := exists_ofFormula_of_check "SUM_AGG(orders.lines, amount) - rep_rel.region_rel.quota"
    .tangled 3 (fun p => p.joins.size = 2 ∧ p.aggregates.size = 1) (by decide +kernel)
  obtain ⟨q, hq, hsize'⟩ := exists_ofFormula_of_check "Rep_Rel.Region_REL.Quota * sum_agg(Orders.Lines, Amount)"
    .tangled 3 (fun q => q.joins.size = 2 ∧ q.aggregates.size = 1) (by decide +kernel)
  exact ⟨p, q, hp, hq, hsize, hsize'⟩

end FormulaQuery
