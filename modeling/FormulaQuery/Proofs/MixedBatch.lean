import FormulaQuery.Proofs.Dependencies
import FormulaQuery.Proofs.Scoping

/-!
# Batches of plans for several schemas

The plans of a batch need not be compiled for one schema, nor for the table that the batch is assembled on. A plan
does not say what table it was made for; assembling goes by the joins and aggregates that the plan registers.

* A plan for another table is refused exactly if it reads a related table or an aggregate
(`Batch.refuses_iff_anchored`): own columns register nothing, and are read from whatever table is at hand.
* The join that a longer chain starts from is looked up by the names of the chain alone, and the last one found
counts. Every join reads its column from the table that it starts from exactly if that one leads there, as it does
where all schemas agree (`Batch.consistent_iff_coherent`).
-/

namespace FormulaQuery

/-! ### Plans for another table -/

namespace Assembly

variable {base : String} {p : Plan}

/-- The error that something starts from another table than `base`. -/
def IsMismatch (base : String) (e : AssemblyError) : Prop := ∃ found, e = .baseTableMismatch base found

/-- Adding a plan fails only if it is for another table. -/
private theorem isMismatch_of_addPlan {parts : Parts} {e : AssemblyError} (h : addPlan base parts p = .error e) :
    IsMismatch base e := by
  rcases bind_eq_error h with h | ⟨joins, -, h⟩
  · refine of_foldlM_eq_error (IsMismatch base) (fun m j e h => ?_) h
    unfold addJoin at h
    split at h <;> cases h
    exact ⟨_, rfl⟩
  · rcases bind_eq_error h with h | ⟨aggregates, -, h⟩
    · refine of_foldlM_eq_error (IsMismatch base) (fun m a e h => ?_) h
      unfold addAggregate at h
      split at h <;> cases h
      exact ⟨_, rfl⟩
    · cases h

/-- A first join or an aggregate that starts from another table than `base`. -/
def Foreign (base : String) (p : Plan) : Prop :=
  (∃ j ∈ p.joins.values, j.chain.length = 1 ∧ j.source ≠ base) ∨ ∃ a ∈ p.aggregates.values, a.source ≠ base

private theorem exists_addPlan_eq_error (h : Foreign base p) (parts : Parts) :
    ∃ e, addPlan base parts p = .error e := by
  cases hadd : addPlan base parts p with
  | error e => exact ⟨e, rfl⟩
  | ok parts' =>
    obtain ⟨joins, hj, hrest⟩ := bind_eq_ok hadd
    obtain ⟨aggregates, ha, -⟩ := bind_eq_ok hrest
    rcases h with ⟨j, hmem, hforeign⟩ | ⟨a, hmem, hforeign⟩
    · obtain ⟨e, he⟩ := exists_foldlM_eq_error (addJoin base) hmem (fun m => ⟨_, if_pos hforeign⟩) parts.joins
      rw [hj] at he
      cases he
    · obtain ⟨e, he⟩ :=
        exists_foldlM_eq_error (addAggregate base) hmem (fun m => ⟨_, if_pos hforeign⟩) parts.aggregates
      rw [ha] at he
      cases he

/-- A batch with a plan for another table is refused as such, whatever else it holds. -/
theorem exists_assemble_eq_mismatch {b : Batch} {name : String} (hmem : (name, p) ∈ b.fields) (h : Foreign base p) :
    ∃ found, b.assemble base = .error (.baseTableMismatch base found) := by
  obtain ⟨e, he⟩ := exists_foldlM_eq_error (fun parts (f : String × Plan) => addPlan base parts f.2) hmem
    (exists_addPlan_eq_error h) ⟨.empty, .empty⟩
  obtain ⟨found, rfl⟩ := of_foldlM_eq_error (IsMismatch base) (fun _ _ _ h => isMismatch_of_addPlan h) he
  refine ⟨found, ?_⟩
  rw [Batch.assemble, if_neg (by rw [List.isEmpty_iff]; exact List.ne_nil_of_mem hmem)]
  exact bind_of_eq_error _ he

end Assembly

/-- The expression reads a column of a related table or an aggregate. -/
def Expression.IsAnchored (e : Expression) : Prop :=
  (∃ info join name, (Expression.related info join name).Within e) ∨
    ∃ info ref, (Expression.aggregate info ref).Within e

/-- Following joins back ends at a join over one relationship. -/
theorem JoinsClosed.exists_first {t : Table} {context : Context} {m : KeyMap Join} (hm : JoinsClosed t context m)
    {j : Join} (hj : j ∈ m.values) : ∃ i ∈ m.values, i.chain.length = 1 := by
  generalize hn : j.chain.length = n
  induction n generalizing j with
  | zero => exact absurd (List.length_eq_zero_iff.1 hn) (hm.all j hj).chain_ne_nil
  | succ n ih =>
    by_cases hl : 1 < j.chain.length
    · obtain ⟨i, hi, hchain, -⟩ := hm.exists_parent hj hl
      exact ih hi (by rw [hchain, List.length_dropLast, hn, Nat.add_sub_cancel])
    · exact ⟨j, hj, by omega⟩

namespace Scope

variable {s : Scope} {p : Plan}

/-- An anchored plan has a first join or an aggregate, which tells the table. -/
theorem Compiled.foreign_of_isAnchored (h : Compiled s p) (ha : p.expression.IsAnchored) {base : String}
    (hbase : base ≠ s.table.name) : Assembly.Foreign base p := by
  rcases ha with ⟨info, join, name, hw⟩ | ⟨info, ref, hw⟩
  · obtain ⟨init, last, -, -, hmem⟩ := h.exists_of_related hw
    obtain ⟨j, hj, hl⟩ := h.joinsClosed.exists_first hmem
    exact Or.inl ⟨j, hj, hl, (h.joinsClosed.all j hj).source_eq hl ▸ hbase.symm⟩
  · obtain ⟨a, ha, -⟩ := h.exists_of_aggregate hw
    obtain ⟨d, -, -, hat⟩ := (h.collects.all a ha).exists_destination
    exact Or.inr ⟨a, ha, hat.source ▸ hbase.symm⟩

/-- A plan that is not anchored registers nothing. -/
theorem Compiled.values_eq_nil (h : Compiled s p) (ha : ¬p.expression.IsAnchored) :
    p.joins.values = [] ∧ p.aggregates.values = [] := by
  constructor
  · have hjoins := h.keys_joins
    rw [h.joins_of_isLocal fun info join name hw => ha (Or.inl ⟨info, join, name, hw⟩)] at hjoins
    rw [KeyMap.values, List.map_eq_nil_iff.1 hjoins, List.map_nil]
  · rw [List.eq_nil_iff_forall_not_mem]
    intro a hmem
    obtain ⟨info, hw⟩ := h.exists_within_of_mem hmem
    exact ha (Or.inr ⟨info, _, hw⟩)

open Assembly in
/-- A plan that is not anchored is assembled on any table. -/
theorem Compiled.exists_assemble_of_not_isAnchored (h : Compiled s p) (ha : ¬p.expression.IsAnchored)
    (name base : String) : ∃ q, Batch.assemble ⟨[(name, p)]⟩ base = .ok q := by
  obtain ⟨q, hq, -⟩ := exists_assemble (b := ⟨[(name, p)]⟩) (s := s) (List.forall_mem_singleton.2 h)
    (List.cons_ne_nil _ _)
  obtain ⟨hne, parts, lookups, subs, items, hparts, hlookups, hsubs, hitems, -⟩ := assemble_eq_ok_iff.1 hq
  obtain ⟨hjoins, haggregates⟩ := h.values_eq_nil ha
  have hadd : ∀ base parts, addPlan base parts p = .ok parts := by
    intro base parts
    rw [addPlan, hjoins, haggregates]
    rfl
  refine ⟨_, assemble_eq_ok_iff.2 ⟨hne, parts, lookups, subs, items, ?_, hlookups, hsubs, hitems, rfl⟩⟩
  rw [← hparts, List.foldlM_cons, List.foldlM_cons, hadd, hadd]
  rfl

end Scope

/-- Assembling refuses a batch on a table because of a plan that was compiled for another one, whatever else the batch
holds, exactly if the plan reads a related table or an aggregate. -/
theorem Batch.refuses_iff_anchored {text : String} {schema : Table} {maxDepth : Nat} {p : Plan}
    (hp : Plan.ofFormula text schema maxDepth = .ok p) {base : String} (hbase : base ≠ schema.name) :
    (∀ b : Batch, ∀ name, (name, p) ∈ b.fields → ∃ found, b.assemble base = .error (.baseTableMismatch base found)) ↔
      p.expression.IsAnchored := by
  have hc := Plan.compiled_of_ofFormula hp
  constructor
  · intro h
    by_contra ha
    obtain ⟨q, hq⟩ := hc.exists_assemble_of_not_isAnchored ha "" base
    obtain ⟨found, hfound⟩ := h ⟨[("", p)]⟩ "" List.mem_cons_self
    rw [hq] at hfound
    cases hfound
  · intro ha b name hmem
    exact Assembly.exists_assemble_eq_mismatch hmem (hc.foreign_of_isAnchored ha hbase)

theorem Batch.refuses_iff_anchored_tangled :
    ∃ p, Plan.ofFormula "SUM_AGG(orders.lines, amount) - rep_rel.region_rel.quota" .tangled 3 = .ok p ∧
      "orders" ≠ Table.tangled.name ∧ p.expression.IsAnchored ∧
      ∀ b : Batch, ∀ name, (name, p) ∈ b.fields →
        ∃ found, b.assemble "orders" = .error (.baseTableMismatch "orders" found) := by
  obtain ⟨p, -, hp, -, hsize, -⟩ := exists_tangled_plans
  have hanchored : p.expression.IsAnchored := by
    by_contra h
    have hnil := ((Plan.compiled_of_ofFormula hp).values_eq_nil h).1
    have hsize : p.joins.values.length = 2 := (List.length_map _).trans hsize.1
    rw [hnil] at hsize
    cases hsize
  exact ⟨p, hp, by decide, hanchored, (Batch.refuses_iff_anchored hp (by decide)).2 hanchored⟩

/-- A table with one column. -/
def Table.transactions : Table := (ofName "transactions").withColumn "revenue" .number

/-- A column of the base table is read from any table that the plan is assembled on. -/
theorem Batch.exists_assemble_foreign_column :
    ∃ p info q, Plan.ofFormula "revenue" .transactions 3 = .ok p ∧
      (Expression.column info "revenue").Within p.expression ∧ "orders" ≠ Table.transactions.name ∧
      Batch.assemble ⟨[("income", p)]⟩ "orders" = .ok q := by
  obtain ⟨p, hp, hid⟩ := exists_ofFormula_of_check "revenue" .transactions 3 (fun p => p.id = "column:revenue@main")
    (by decide +kernel)
  have hc := Plan.compiled_of_ofFormula hp
  have hcolumn : Scope.Compiled (Table.transactions.scope 3)
      (.ofExpression (.column ((Table.transactions.scope 3).info "column" "revenue" .number [] []) "revenue")) :=
    .column _ (by decide) (by decide) (by decide)
  obtain ⟨rfl, -⟩ := hc.discerned hcolumn [] [] (by rw [hid]; decide)
  have hlocal : ¬(Expression.column ((Table.transactions.scope 3).info "column" "revenue" .number [] [])
      "revenue").IsAnchored := by
    rintro (⟨info, join, name, hw⟩ | ⟨info, ref, hw⟩)
    · cases hw with
      | child hmem => cases hmem
    · cases hw with
      | child hmem => cases hmem
  obtain ⟨q, hq⟩ := hc.exists_assemble_of_not_isAnchored hlocal "income" "orders"
  exact ⟨_, _, q, hp, .refl _, by decide, hq⟩

/-! ### Joins of several schemas -/

/-- The table that an alias of a query stands for. -/
def Query.tableOf? (q : Query) (label : String) : Option String :=
  if label = baseAlias then some q.base else (q.joins.find? fun l => l.label = label).map (·.table)

/-- The query has the given joins, each of which reads its column from an alias of the table that it starts from. -/
def Query.Consistent (q : Query) (joins : List Join) : Prop :=
  List.Forall₂ (fun (j : Join) (l : LookupJoin) => l.table = j.target ∧ l.column = j.joinColumn ∧
    q.tableOf? l.parent = some j.source) joins q.joins

/-- Each join of a batch starts from the table that the last join over the chain before it leads to. -/
def Batch.Coherent (b : Batch) : Prop :=
  ∀ i ∈ b.joins.values, ∀ j ∈ b.joins.values, j.parentChain? = some i.chain →
    (∀ k ∈ b.joins.values, k.chain = i.chain → k.id ≤ i.id) → i.target = j.source

/-- A chain of relationships leads to one table in all plans of a batch. -/
def Batch.Agrees (b : Batch) : Prop :=
  ∀ f ∈ b.fields, ∀ g ∈ b.fields, ∀ i ∈ f.2.joins.values, ∀ j ∈ g.2.joins.values, i.chain = j.chain →
    i.target = j.target

instance (q : Query) (joins : List Join) : Decidable (q.Consistent joins) :=
  inferInstanceAs (Decidable (List.Forall₂ _ joins q.joins))

instance (b : Batch) : Decidable b.Coherent := inferInstanceAs (Decidable (∀ i ∈ b.joins.values, _))

instance (b : Batch) : Decidable b.Agrees := inferInstanceAs (Decidable (∀ f ∈ b.fields, _))

section Lists

/-- In a list that ascends, the lesser of two members comes first. -/
private theorem pair_sublist_of_pairwise {α : Type} {R : α → α → Prop} {as : List α} (h : as.Pairwise R) {a b : α}
    (ha : a ∈ as) (hb : b ∈ as) (hne : a ≠ b) (hba : ¬R b a) : [a, b].Sublist as := by
  induction as with
  | nil => cases ha
  | cons c as ih =>
    rw [List.pairwise_cons] at h
    rcases List.mem_cons.1 ha with rfl | ha'
    · refine .cons_cons a (List.singleton_sublist.2 ?_)
      exact (List.mem_cons.1 hb).resolve_left (Ne.symm hne)
    · rcases List.mem_cons.1 hb with rfl | hb'
      · exact absurd (h.1 a ha') hba
      · exact (ih h.2 ha' hb').cons c

/-- Without repetition two members stand in one order only. -/
private theorem not_sublist_swap {α : Type} {as : List α} (h : as.Nodup) {a b : α} (hab : [a, b].Sublist as) :
    ¬[b, a].Sublist as := by
  intro hba
  induction as with
  | nil => cases hab
  | cons c as ih =>
    rw [List.nodup_cons] at h
    cases hab with
    | cons _ hab =>
      cases hba with
      | cons _ hba => exact ih h.2 hab hba
      | cons_cons _ hba => exact h.1 (hab.subset (List.mem_cons_of_mem _ List.mem_cons_self))
    | cons_cons _ hab =>
      cases hba with
      | cons _ hba => exact h.1 (hba.subset (List.mem_cons_of_mem _ List.mem_cons_self))
      | cons_cons _ hba => exact h.1 (hba.subset List.mem_cons_self)

end Lists

namespace Assembly

variable {m : KeyMap Join}

private theorem pair_sublist_ordered (hm : m.Keyed Join.id) {i j : Join} (hi : i ∈ m.values) (hj : j ∈ m.values)
    (hl : i.chain.length = j.chain.length) (hlt : i.id < j.id) : [i, j].Sublist (ordered m) := by
  have hids : m.values.Pairwise fun a b => a.id < b.id := by
    rw [KeyMap.values, List.pairwise_map]
    refine hm.ascending.imp_of_mem ?_
    intro a b ha hb h
    rwa [← hm.key_eq a ha, ← hm.key_eq b hb]
  have hsub : [i, j].Sublist m.values := by
    refine pair_sublist_of_pairwise hids hi hj ?_ (String.lt_asymm hlt)
    rintro rfl
    exact String.lt_irrefl _ hlt
  exact List.pair_sublist_mergeSort chain_length_trans chain_length_total (decide_eq_true (Nat.le_of_eq hl)) hsub

/-- Joins over chains of one length stand in the order of their identifiers. -/
theorem ordered_pairwise (hm : m.Keyed Join.id) :
    (ordered m).Pairwise fun i j => i.chain.length = j.chain.length → i.id < j.id := by
  have hperm := ordered_perm m
  have hids : ((ordered m).map Join.id).Nodup := (hperm.map Join.id).nodup_iff.2 hm.nodup_values
  have hnodup : (ordered m).Nodup := hids.of_map
  rw [List.pairwise_iff_forall_sublist]
  intro i j hij hl
  have hi : i ∈ m.values := hperm.mem_iff.1 (hij.subset List.mem_cons_self)
  have hj : j ∈ m.values := hperm.mem_iff.1 (hij.subset (List.mem_cons_of_mem _ List.mem_cons_self))
  have hne : i.id ≠ j.id := by
    intro e
    have heq := hm.eq_of_id_eq hi hj e
    subst heq
    exact not_sublist_swap hnodup hij hij
  by_contra hlt
  have hgt : j.id < i.id := Std.lt_of_le_of_ne (String.not_lt.1 hlt) (Ne.symm hne)
  exact not_sublist_swap hnodup hij (pair_sublist_ordered hm hj hi hl.symm hgt)

/-- What the start of a join is: the root of its level, or the last of the joins over the chain before it. -/
theorem parentAlias_cases {taken : List String} {root label : String} {j : Join} (hm : m.Keyed Join.id)
    (h : parentAlias (Alias.assign taken (ordered m)) root j = .ok label) :
    j.parentChain? = none ∧ label = root ∨ ∃ i, (i, label) ∈ Alias.assign taken (ordered m) ∧
      j.parentChain? = some i.chain ∧ i.context = j.context ∧
      ∀ k ∈ m.values, k.chain = i.chain → k.context = j.context → k.id ≤ i.id := by
  have hnamed := named_assign hm taken
  have hsorted := ordered_pairwise hm
  rw [← Alias.map_fst_assign taken (ordered m), List.pairwise_map] at hsorted
  generalize Alias.assign taken (ordered m) = named at *
  unfold parentAlias at h
  split at h
  · rename_i hchain
    cases h
    exact Or.inl ⟨hchain, rfl⟩
  · rename_i chain hchain
    split at h
    · rename_i found hfind
      cases h
      obtain ⟨hfound, before, after, hsplit, hafter⟩ := List.find?_eq_some_iff_append.1 hfind
      simp only [decide_eq_true_eq] at hfound
      have hsplit : named = after.reverse ++ found :: before.reverse := by
        rw [← List.reverse_reverse named, hsplit]
        simp
      refine Or.inr ⟨found.1, ?_, by rw [hchain, hfound.1], hfound.2, ?_⟩
      · rw [hsplit]
        exact List.mem_append_right _ List.mem_cons_self
      intro k hk hkc hkx
      obtain ⟨label', hk⟩ := hnamed.exists_mem k hk
      -- no join over the chain stands after the one that is found
      rw [hsplit] at hk hsorted
      rcases List.mem_append.1 hk with hk | hk
      · have hlt := (List.pairwise_append.1 hsorted).2.2 _ hk found List.mem_cons_self (congrArg List.length hkc)
        exact Std.le_of_lt hlt
      rcases List.mem_cons.1 hk with rfl | hk
      · exact Std.le_refl _
      · have := hafter _ (List.mem_reverse.1 hk)
        simp [hkc, hfound.1, hkx] at this
    · cases h

/-- The alias of a join stands for the table that the join leads to. -/
theorem tableOf?_of_mem {parts : Parts} {lookups : List LookupJoin}
    (h : lookupJoins (namedJoins parts) baseAlias = .ok lookups) {i : Join} {label : String}
    (hi : (i, label) ∈ namedJoins parts) (base : String) (subs : List Subquery) (items : List SelectItem) :
    (Query.mk base lookups subs items).tableOf? label = some i.target := by
  have hne : label ≠ baseAlias := fun e => Alias.assign_not_mem hi (e ▸ List.mem_cons_self)
  have hnodup : (lookups.map (·.label)).Nodup := by
    rw [labels_lookupJoins h]
    exact Alias.nodup_assign _ _
  obtain ⟨l, hl, parent, -, rfl⟩ := exists_mem_of_forall₂ (lookupJoins_spec h) hi
  rw [Query.tableOf?, if_neg hne]
  dsimp only
  cases hfind : lookups.find? fun l => l.label = label with
  | none =>
    exfalso
    simpa using List.find?_eq_none.1 hfind _ hl
  | some found =>
    have hlabel : found.label = label := by simpa using List.find?_some hfind
    rw [List.inj_on_of_nodup_map hnodup (List.mem_of_find?_eq_some hfind) hl hlabel]
    rfl

end Assembly

/-- A plan for some schema of the table `base`. -/
def Plan.IsOf (p : Plan) (base : String) : Prop :=
  ∃ text schema maxDepth, schema.name = base ∧ Plan.ofFormula text schema maxDepth = .ok p

namespace Batch

open Assembly

private theorem keyed_joins (b : Batch) : b.joins.Keyed Join.id := KeyMap.keyed_empty.insertAll _

private theorem exists_of_mem_joins {b : Batch} {j : Join} (h : j ∈ b.joins.values) :
    ∃ f ∈ b.fields, j ∈ f.2.joins.values := by
  rcases KeyMap.mem_of_mem_insertAll h with h | h
  · cases h
  · exact List.mem_flatMap.1 h

/-- What is known of the joins of plans for schemas of one table, whatever these are. -/
private theorem joins_spec {b : Batch} {base : String} (hb : ∀ f ∈ b.fields, f.2.IsOf base) {j : Join}
    (hj : j ∈ b.joins.values) : j.context = .main ∧ (j.parentChain? = none → j.source = base) := by
  obtain ⟨f, hf, hj⟩ := exists_of_mem_joins hj
  obtain ⟨text, schema, maxDepth, rfl, hp⟩ := hb f hf
  have hjoin := (Plan.compiled_of_ofFormula hp).joinsClosed.all j hj
  refine ⟨hjoin.context_eq, fun hparent => hjoin.source_eq ?_⟩
  have hpos := List.length_pos_iff.2 hjoin.chain_ne_nil
  unfold Join.parentChain? at hparent
  split at hparent
  · omega
  · cases hparent

/-- The joins of the query are those of the batch. One that goes over several relationships reads its column from the
last of the joins over the chain before it. -/
theorem forall₂_joins_of_assemble {b : Batch} {base : String} {q : Query} (hb : ∀ f ∈ b.fields, f.2.IsOf base)
    (hq : b.assemble base = .ok q) :
    List.Forall₂ (fun (j : Join) (l : LookupJoin) => l.table = j.target ∧ l.column = j.joinColumn ∧
      (j.parentChain? = none ∧ q.tableOf? l.parent = some base ∨ ∃ i ∈ b.joins.values, j.parentChain? = some i.chain ∧
        (∀ k ∈ b.joins.values, k.chain = i.chain → k.id ≤ i.id) ∧ q.tableOf? l.parent = some i.target))
      (ordered b.joins) q.joins := by
  obtain ⟨-, parts, lookups, subs, items, hparts, hlookups, -, -, rfl⟩ := assemble_eq_ok_iff.1 hq
  have hjoins : parts.joins = b.joins := congrArg Parts.joins (eq_parts_of_foldlM hparts)
  have hkeyed : parts.joins.Keyed Join.id := hjoins ▸ b.keyed_joins
  have hfst : (namedJoins parts).map (·.1) = ordered b.joins := hjoins ▸ Alias.map_fst_assign _ _
  have hmem : ∀ n ∈ namedJoins parts, n.1 ∈ b.joins.values := hjoins ▸ (named_assign hkeyed _).mem
  rw [← hfst, List.forall₂_map_left_iff]
  refine forall₂_imp_of_mem (lookupJoins_spec hlookups) ?_
  rintro n hn _ - ⟨parent, hparent, rfl⟩
  refine ⟨rfl, rfl, ?_⟩
  rcases parentAlias_cases hkeyed hparent with ⟨hnone, rfl⟩ | ⟨i, hi, hchain, -, hlast⟩
  · exact Or.inl ⟨hnone, if_pos rfl⟩
  · refine Or.inr ⟨i, hmem _ hi, hchain, ?_, tableOf?_of_mem hlookups hi _ _ _⟩
    intro k hk hkc
    have hcontext := (joins_spec hb (hmem n hn)).1
    exact hlast k (hjoins ▸ hk) hkc ((joins_spec hb hk).1.trans hcontext.symm)

/-- Where a chain leads to one table in all plans, it leads to the table that any longer chain starts from. -/
theorem coherent_of_agrees {b : Batch} {base : String} (hb : ∀ f ∈ b.fields, f.2.IsOf base) (h : b.Agrees) :
    b.Coherent := by
  intro i hi j hj hchain _
  obtain ⟨f, hf, hj⟩ := exists_of_mem_joins hj
  obtain ⟨g, hg, hi⟩ := exists_of_mem_joins hi
  obtain ⟨text, schema, maxDepth, -, hp⟩ := hb f hf
  unfold Join.parentChain? at hchain
  split at hchain
  · cases hchain
  rename_i hl
  obtain ⟨i', hi', hchain', htarget⟩ :=
    (Plan.compiled_of_ofFormula hp).joinsClosed.exists_parent hj (Nat.lt_of_not_le hl)
  rw [← htarget]
  exact h g hg f hf i hi i' hi' ((Option.some.inj hchain).symm.trans hchain'.symm)

/-- In the query of a batch whose plans are for schemas of one table, each of them for a schema of its own, every join
that is printed reads its column from the table that it starts from exactly if the batch is coherent. It is if a chain
leads to one table in all of the schemas. -/
theorem consistent_iff_coherent {b : Batch} {base : String} {q : Query} (hb : ∀ f ∈ b.fields, f.2.IsOf base)
    (hq : b.assemble base = .ok q) :
    q.Written base ∧ (q.Consistent (ordered b.joins) ↔ b.Coherent) ∧ (b.Agrees → b.Coherent) := by
  have hspec := forall₂_joins_of_assemble hb hq
  have hmem : ∀ {j}, j ∈ ordered b.joins ↔ j ∈ b.joins.values := (ordered_perm _).mem_iff
  refine ⟨written_of_assemble hq, ⟨?_, ?_⟩, coherent_of_agrees hb⟩
  · intro h i hi j hj hchain hlast
    obtain ⟨l, -, ⟨-, -, hparent⟩, -, -, hsource⟩ := exists_mem_of_forall₂ (forall₂_and hspec h) (hmem.2 hj)
    rcases hparent with ⟨hnone, -⟩ | ⟨i', hi', hchain', hlast', htarget⟩
    · rw [hchain] at hnone
      cases hnone
    -- both are the last join over the chain
    have hsame : i.chain = i'.chain := Option.some.inj (hchain.symm.trans hchain')
    have hid : i.id = i'.id := Std.le_antisymm (hlast' i hi hsame) (hlast i' hi' hsame.symm)
    obtain rfl := b.keyed_joins.eq_of_id_eq hi hi' hid
    exact Option.some.inj (htarget.symm.trans hsource)
  · intro h
    refine forall₂_imp_of_mem hspec ?_
    rintro j hj l - ⟨htable, hcolumn, ⟨hnone, hparent⟩ | ⟨i, hi, hchain, hlast, hparent⟩⟩
    · exact ⟨htable, hcolumn, by rw [hparent, (joins_spec hb (hmem.1 hj)).2 hnone]⟩
    · exact ⟨htable, hcolumn, by rw [hparent, h i hi j (hmem.1 hj) hchain hlast]⟩

end Batch

def Table.people : Table := (ofName "people").withColumn "name" .string

def Table.firms : Table :=
  ((ofName "firms").withColumn "name" .string).withDirect "home" ⟨"city_id",
    (ofName "cities").withColumn "name" .string⟩

/-- Orders with an owner, which the given column points to. -/
def Table.owned (column : String) (owner : Table) : Table :=
  ((ofName "orders").withColumn "total" .number).withDirect "owner" ⟨column, owner⟩

theorem Batch.consistent_iff_coherent_owned :
    ∃ p p' q, Plan.ofFormula "owner_rel.home_rel.name" (.owned "firm_id" .firms) 3 = .ok p ∧
      Plan.ofFormula "owner_rel.name" (.owned "company_id" .firms) 3 = .ok p' ∧
      Batch.assemble ⟨[("city", p), ("seat", p')]⟩ "orders" = .ok q ∧ Batch.Agrees ⟨[("city", p), ("seat", p')]⟩ ∧
      q.Written "orders" ∧ q.Consistent (Assembly.ordered (Batch.joins ⟨[("city", p), ("seat", p')]⟩)) := by
  obtain ⟨p, p', q, hp, hp', hq, hagrees⟩ := exists_pair_of_check "owner_rel.home_rel.name" "owner_rel.name"
    (.owned "firm_id" .firms) (.owned "company_id" .firms) 3 "city" "seat" "orders" (fun b _ => b.Agrees)
    (by simp only [Batch.assemble, Assembly.ordered_eq_insertionSort]; decide +kernel)
  have hb : ∀ f ∈ [("city", p), ("seat", p')], f.2.IsOf "orders" :=
    List.forall_mem_cons.2 ⟨⟨_, _, _, rfl, hp⟩, List.forall_mem_singleton.2 ⟨_, _, _, rfl, hp'⟩⟩
  obtain ⟨hwritten, hiff, hcoherent⟩ := Batch.consistent_iff_coherent (b := ⟨[("city", p), ("seat", p')]⟩) hb hq
  exact ⟨p, p', q, hp, hp', hq, hagrees, hwritten, hiff.2 (hcoherent hagrees)⟩

/-- The city of the owner is read from the row of a person, where only the other schema has persons for owners. -/
theorem Batch.exists_assemble_not_consistent :
    ∃ p p' q, Plan.ofFormula "owner_rel.home_rel.name" (.owned "firm_id" .firms) 3 = .ok p ∧
      Plan.ofFormula "owner_rel.name" (.owned "person_id" .people) 3 = .ok p' ∧
      Batch.assemble ⟨[("city", p), ("seat", p')]⟩ "orders" = .ok q ∧
      q.Written "orders" ∧ ⟨"cities", "owner_home", "people", "city_id"⟩ ∈ q.joins ∧
      ¬q.Consistent (Assembly.ordered (Batch.joins ⟨[("city", p), ("seat", p')]⟩)) := by
  obtain ⟨p, p', q, hp, hp', hq, hjoin, hnot⟩ := exists_pair_of_check "owner_rel.home_rel.name" "owner_rel.name"
    (.owned "firm_id" .firms) (.owned "person_id" .people) 3 "city" "seat" "orders"
    (fun b q => ⟨"cities", "owner_home", "people", "city_id"⟩ ∈ q.joins ∧ ¬q.Consistent (Assembly.ordered b.joins))
    (by simp only [Batch.assemble, Assembly.ordered_eq_insertionSort]; decide +kernel)
  exact ⟨p, p', q, hp, hp', hq, Batch.written_of_assemble hq, hjoin, hnot⟩

end FormulaQuery
