import FormulaQuery.Proofs.Insertions
import FormulaQuery.Proofs.Scoping
import Mathlib.Data.List.Sort

/-!
# The order of fields

The order in which fields are given shows in the query only as the order of its select items. Joins, subqueries and
their aliases are made from the joins and aggregates of the whole batch, which are kept by identifier and so do not
depend on the order of the plans that bring them (`Assembly.foldlM_addPlan_perm`).
-/

namespace FormulaQuery

/-- A map is known from its values. -/
theorem KeyMap.Keyed.ext {α : Type} {id : α → String} {m n : KeyMap α} (hm : m.Keyed id) (hn : n.Keyed id)
    (h : ∀ a, a ∈ m.values ↔ a ∈ n.values) : m = n := by
  have hentry : ∀ {m : KeyMap α}, m.Keyed id → ∀ e, e ∈ m.entries ↔ e.2 ∈ m.values ∧ e.1 = id e.2 := by
    intro m hm e
    constructor
    · exact fun he => ⟨List.mem_map_of_mem he, hm.key_eq e he⟩
    · rintro ⟨hvalue, hkey⟩
      have he := hm.mem_entries hvalue
      rwa [← hkey] at he
  have hentries : m.entries = n.entries := by
    have : Std.Irrefl fun a b : String × α => a.1 < b.1 := ⟨fun a => String.lt_irrefl a.1⟩
    have : Std.Antisymm fun a b : String × α => a.1 < b.1 := ⟨fun a b hab hba => absurd hab (String.lt_asymm hba)⟩
    refine hm.ascending.eq_of_mem_iff hn.ascending ?_
    intro e
    rw [hentry hm, hentry hn, h]
  cases m
  cases n
  cases hentries
  rfl

/-! ### Batches of the same plans -/

section Permuted

variable {s : Scope} {fields fields' : List (String × Plan)}

/-- The joins and aggregates of a batch do not depend on the order of its fields. -/
theorem Assembly.foldlM_addPlan_perm (h : ∀ f ∈ fields, Scope.Compiled s f.2) (hperm : fields'.Perm fields) :
    fields'.foldlM (fun parts f => addPlan s.table.name parts f.2) ⟨.empty, .empty⟩ =
      fields.foldlM (fun parts f => addPlan s.table.name parts f.2) ⟨.empty, .empty⟩ := by
  have h' : ∀ f ∈ fields', Scope.Compiled s f.2 := fun f hf => h f (hperm.mem_iff.1 hf)
  have hmem : ∀ {α : Type} (values : Plan → List α) (a : α),
      (∃ f ∈ fields', a ∈ values f.2) ↔ ∃ f ∈ fields, a ∈ values f.2 := by
    intro α values a
    simp only [hperm.mem_iff]
  rw [foldlM_addPlan h', foldlM_addPlan h]
  congr 2
  · obtain ⟨hclosed, hjoins⟩ := JoinsClosed.empty.foldl_union (fun f : String × Plan => f.2.joins)
      fun f hf => (h f hf).joinsClosed
    obtain ⟨hclosed', hjoins'⟩ := JoinsClosed.empty.foldl_union (fun f : String × Plan => f.2.joins)
      fun f hf => (h' f hf).joinsClosed
    refine hclosed'.toKeyed.ext hclosed.toKeyed ?_
    intro j
    rw [hjoins, hjoins', hmem fun p => p.joins.values]
  · have hid : ∀ a b, s.IsAggregate a → s.IsAggregate b → a.id = b.id → a = b := fun a b ha hb e =>
      ha.eq_of_id_eq hb e
    obtain ⟨hcollects, haggregates⟩ := KeyMap.collects_empty.foldl_union (fun f : String × Plan => f.2.aggregates) hid
      fun f hf => (h f hf).collects
    obtain ⟨hcollects', haggregates'⟩ :=
      KeyMap.collects_empty.foldl_union (fun f : String × Plan => f.2.aggregates) hid
      fun f hf => (h' f hf).collects
    refine hcollects'.toKeyed.ext hcollects.toKeyed ?_
    intro a
    rw [haggregates, haggregates', hmem fun p => p.aggregates.values]

open Assembly in
/-- The queries of two batches that differ in order differ in the order of their select items only. -/
private theorem exists_assemble_perm (h : ∀ f ∈ fields, Scope.Compiled s f.2) (hne : fields ≠ [])
    (hperm : fields'.Perm fields) :
    ∃ lookups subs, ∃ value : String × Plan → Sql, Batch.assemble ⟨fields⟩ s.table.name =
        .ok ⟨s.table.name, lookups, subs, fields.map fun f => ⟨value f, f.1⟩⟩ ∧
      Batch.assemble ⟨fields'⟩ s.table.name =
        .ok ⟨s.table.name, lookups, subs, fields'.map fun f => ⟨value f, f.1⟩⟩ := by
  obtain ⟨q, hq, -⟩ := exists_assemble (b := ⟨fields⟩) h hne
  obtain ⟨-, parts, lookups, subs, items, hparts, hlookups, hsubs, hitems, -⟩ := assemble_eq_ok_iff.1 hq
  have hvalue : ∀ f ∈ fields, ∃ value, f.2.expression.toSql (fieldSources parts) = .ok value := by
    intro f hf
    obtain ⟨item, -, hitem, -⟩ := exists_mem_of_forall₂ (fieldItems_spec hitems) hf
    exact ⟨item.value, hitem⟩
  have : Nonempty Sql := ⟨⟨[]⟩⟩
  choose! value hvalue using hvalue
  have hitem : ∀ f ∈ fields, fieldItem (fieldSources parts) f = .ok ⟨value f, f.1⟩ := by
    intro f hf
    rw [fieldItem, hvalue f hf]
    rfl
  have hparts' := (foldlM_addPlan_perm h hperm).trans hparts
  have hne' : fields' ≠ [] := fun h => hne (List.nil_perm.1 (h ▸ hperm))
  refine ⟨lookups, subs.filterMap id, value, ?_, ?_⟩
  · exact assemble_eq_ok_iff.2 ⟨hne, parts, lookups, subs, _, hparts, hlookups, hsubs, mapM_eq_ok_map hitem, rfl⟩
  · exact assemble_eq_ok_iff.2 ⟨hne', parts, lookups, subs, _, hparts', hlookups, hsubs,
      mapM_eq_ok_map fun f hf => hitem f (hperm.mem_iff.1 hf), rfl⟩

end Permuted

/-! ### Batches of fields -/

/-- Fields with names of their own make a batch of their plans. -/
theorem Command.batch_eq_ok {schema : Table} {maxDepth : Nat} {fields : List Field} {plan : Field → Plan}
    (h : ∀ f ∈ fields, Plan.ofFormula f.formula schema maxDepth = .ok (plan f))
    (hnames : (fields.map (·.name)).Nodup) :
    Command.batch schema maxDepth fields = .ok ⟨fields.map fun f => (f.name, plan f)⟩ := by
  have step : ∀ (fields : List Field) (b : Batch),
      (∀ f ∈ fields, Plan.ofFormula f.formula schema maxDepth = .ok (plan f)) →
      (b.fields.map (·.1) ++ fields.map (·.name)).Nodup →
      fields.foldlM (fun b f => do return b.insert f.name (← Command.plan schema maxDepth f)) b =
        (.ok ⟨b.fields ++ fields.map fun f => (f.name, plan f)⟩ : Except CommandError Batch) := by
    intro fields
    induction fields with
    | nil =>
      intro b _ _
      rw [List.map_nil, List.append_nil]
      rfl
    | cons f fields ih =>
      intro b h hnodup
      obtain ⟨hf, hfields⟩ := List.forall_mem_cons.1 h
      rw [List.map_cons] at hnodup
      have hnew : ∀ e ∈ b.fields, (e.1 == f.name) = false := by
        intro e he
        rw [beq_eq_false_iff_ne]
        exact (List.nodup_append.1 hnodup).2.2 _ (List.mem_map_of_mem he) _ List.mem_cons_self
      have hinsert : b.insert f.name (plan f) = ⟨b.fields ++ [(f.name, plan f)]⟩ := by
        rw [Batch.insert, replaceOrAppend_of_new hnew]
      rw [List.foldlM_cons, Command.plan, hf]
      refine (ih (b.insert f.name (plan f)) hfields ?_).trans ?_
      · rw [hinsert, List.map_append, List.append_assoc]
        exact hnodup
      · rw [hinsert, List.append_assoc]
        rfl
  exact step fields .empty h hnames

/-- A query selects the given fields, in their order. -/
structure Query.Selects (q : Query) (expression : Field → String) (fields : List Field) : Prop where
  expressions : q.selectExpressions = fields.map expression
  aliases : q.fieldAliases = fields.map fun f => (f.name, Sql.quoteIdentifier f.name)

private theorem Query.selects_of_fields {q : Query} {value : Field → Sql} {fields : List Field}
    (h : q.fields = fields.map fun f => ⟨value f, f.name⟩) :
    q.Selects (fun f => (SelectItem.toSql ⟨value f, f.name⟩).text) fields := by
  constructor
  · simp [selectExpressions, h]
  · simp [fieldAliases, h]

/-- Fields with names of their own, all of whose formulas compile, have a query in whatever order they are given.
Its FROM clause is always the same, and so is what is selected for each field. -/
theorem Command.query_of_perm {schema : Table} {maxDepth : Nat} {fields fields' : List Field} (hne : fields ≠ [])
    (hnames : (fields.map (·.name)).Nodup)
    (h : ∀ f ∈ fields, ∃ p, Plan.ofFormula f.formula schema maxDepth = .ok p) (hperm : fields'.Perm fields) :
    ∃ b b' q q' expression, Command.batch schema maxDepth fields = .ok b ∧ b.assemble schema.name = .ok q ∧
      Command.batch schema maxDepth fields' = .ok b' ∧ b'.assemble schema.name = .ok q' ∧
      q'.fromClause = q.fromClause ∧ q.Selects expression fields ∧ q'.Selects expression fields' := by
  obtain ⟨p, -⟩ := h _ (List.head_mem hne)
  have : Nonempty Plan := ⟨p⟩
  choose! plan hplan using h
  have hnames' : (fields'.map (·.name)).Nodup := (hperm.map _).nodup_iff.2 hnames
  have hbatch := batch_eq_ok hplan hnames
  have hbatch' := batch_eq_ok (fun f hf => hplan f (hperm.mem_iff.1 hf)) hnames'
  have hcompiled : ∀ e ∈ fields.map fun f => (f.name, plan f), Scope.Compiled (schema.scope maxDepth) e.2 := by
    refine List.forall_mem_map.2 ?_
    intro f hf
    exact Plan.compiled_of_ofFormula (hplan f hf)
  obtain ⟨lookups, subs, value, hq, hq'⟩ := exists_assemble_perm hcompiled (mt List.map_eq_nil_iff.1 hne)
    (hperm.map fun f => (f.name, plan f))
  exact ⟨_, _, _, _, _, hbatch, hq, hbatch', hq', rfl, Query.selects_of_fields List.map_map,
    Query.selects_of_fields List.map_map⟩

/-- Two fields whose formulas have all their joins and aggregates in common. -/
def Field.tangled : List Field :=
  [⟨"balance", "SUM_AGG(orders.lines, amount) - rep_rel.region_rel.quota"⟩,
    ⟨"ra\"tio", "Rep_Rel.Region_REL.Quota * sum_agg(Orders.Lines, Amount)"⟩]

theorem Command.query_of_perm_tangled :
    ∃ b b' q q' expression, Command.batch .tangled 3 Field.tangled = .ok b ∧ b.assemble Table.tangled.name = .ok q ∧
      Command.batch .tangled 3 Field.tangled.reverse = .ok b' ∧ b'.assemble Table.tangled.name = .ok q' ∧
      q'.fromClause = q.fromClause ∧ q.Selects expression Field.tangled ∧
      q'.Selects expression Field.tangled.reverse := by
  obtain ⟨p, q, hp, hq, -⟩ := exists_tangled_plans
  have hplans : ∀ f ∈ Field.tangled, ∃ p, Plan.ofFormula f.formula .tangled 3 = .ok p :=
    List.forall_mem_cons.2 ⟨⟨p, hp⟩, List.forall_mem_singleton.2 ⟨q, hq⟩⟩
  exact Command.query_of_perm (List.cons_ne_nil _ _) (by decide) hplans (List.reverse_perm _)

end FormulaQuery
