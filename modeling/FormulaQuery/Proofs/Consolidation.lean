import FormulaQuery.Command.Output
import FormulaQuery.Proofs.Insertions
import FormulaQuery.Proofs.Subqueries

/-!
# One query for many formulas

A batch of formulas that are compiled for one schema is always assembled (`Command.exists_query`), and sharing joins
and aggregates keeps what each formula says: every column that it reads is introduced as its own chain says, and
every aggregate that it reads is computed from its own path and expression (`Batch.assemble_consolidates`).
-/

namespace FormulaQuery

/-! ### Parts of the whole batch -/

/-- The joins of all plans of a batch; of several with one identifier the first counts. -/
def Batch.joins (b : Batch) : KeyMap Join :=
  KeyMap.empty.insertAll Join.id (b.fields.flatMap fun f => f.2.joins.values)

/-- The aggregates of all plans of a batch, of which the first counts too. -/
def Batch.aggregates (b : Batch) : KeyMap Aggregate :=
  KeyMap.empty.insertAll Aggregate.id (b.fields.flatMap fun f => f.2.aggregates.values)

def Batch.parts (b : Batch) : Assembly.Parts := ⟨b.joins, b.aggregates⟩

namespace Assembly

/-- Whatever the base table is, a plan is added by adding its joins and aggregates. -/
private theorem addPlan_eq_insertAll {base : String} {parts parts' : Parts} {p : Plan}
    (h : addPlan base parts p = .ok parts') : parts' =
      ⟨parts.joins.insertAll Join.id p.joins.values,
        parts.aggregates.insertAll Aggregate.id p.aggregates.values⟩ := by
  have hjoin : ∀ m (j : Join) m', addJoin base m j = .ok m' → m' = m.insertNew j.id j := by
    intro m j m' h
    unfold addJoin at h
    split at h
    · cases h
    · cases h
      rfl
  have haggregate : ∀ m (a : Aggregate) m', addAggregate base m a = .ok m' → m' = m.insertNew a.id a := by
    intro m a m' h
    unfold addAggregate at h
    split at h
    · cases h
    · cases h
      rfl
  obtain ⟨joins, hj, h⟩ := bind_eq_ok h
  obtain ⟨aggregates, ha, h⟩ := bind_eq_ok h
  cases h
  rw [eq_foldl_of_foldlM hjoin hj, eq_foldl_of_foldlM haggregate ha]
  rfl

/-- The joins and aggregates of a batch are added one by one, whatever the base table is. -/
theorem eq_parts_of_foldlM {base : String} {b : Batch} {parts : Parts}
    (h : b.fields.foldlM (fun parts f => addPlan base parts f.2) ⟨.empty, .empty⟩ = .ok parts) : parts = b.parts := by
  have hall : ∀ (fields : List (String × Plan)) (before : Parts),
      fields.foldlM (fun parts f => addPlan base parts f.2) before = .ok parts →
      parts = ⟨before.joins.insertAll Join.id (fields.flatMap fun f => f.2.joins.values),
        before.aggregates.insertAll Aggregate.id (fields.flatMap fun f => f.2.aggregates.values)⟩ := by
    intro fields
    induction fields with
    | nil =>
      rintro before ⟨⟩
      rfl
    | cons f fields ih =>
      intro before h
      rw [List.foldlM_cons] at h
      obtain ⟨next, hnext, h⟩ := bind_eq_ok h
      rw [ih next h, addPlan_eq_insertAll hnext, List.flatMap_cons, List.flatMap_cons]
      simp only [KeyMap.insertAll, List.foldl_append]
  exact hall b.fields ⟨.empty, .empty⟩ h

variable {s : Scope}

/-- A plan of the base table is added without fail. -/
private theorem addPlan_eq {p : Plan} (h : Scope.Compiled s p) (parts : Parts) :
    addPlan s.table.name parts p = .ok ⟨parts.joins.union p.joins, parts.aggregates.union p.aggregates⟩ := by
  have hjoin : ∀ j ∈ p.joins.values, ∀ m, addJoin s.table.name m j = .ok (m.insertNew j.id j) := by
    intro j hj m
    rw [addJoin, if_neg]
    rintro ⟨hlength, hsource⟩
    obtain ⟨init, k, hr, rfl⟩ := h.joinsClosed.all j hj
    cases init with
    | nil => exact hsource hr.1
    | cons i init => simp [Hop.join, Hop.names] at hlength
  have haggregate : ∀ a ∈ p.aggregates.values, ∀ m, addAggregate s.table.name m a = .ok (m.insertNew a.id a) := by
    intro a ha m
    obtain ⟨d, -, -, hat⟩ := (h.collects.all a ha).exists_destination
    rw [addAggregate, if_neg (not_not.2 hat.source)]
  rw [addPlan, foldlM_eq_ok hjoin, KeyMap.union_eq_insertAll h.joinsClosed.toKeyed,
    KeyMap.union_eq_insertAll h.collects.toKeyed]
  show (do
    let aggregates ← p.aggregates.values.foldlM (addAggregate s.table.name) parts.aggregates
    return _) = _
  rw [foldlM_eq_ok haggregate]
  rfl

theorem foldlM_addPlan {fields : List (String × Plan)} (h : ∀ f ∈ fields, Scope.Compiled s f.2) (parts : Parts) :
    fields.foldlM (fun parts f => addPlan s.table.name parts f.2) parts =
      .ok ⟨fields.foldl (fun m f => m.union f.2.joins) parts.joins,
        fields.foldl (fun m f => m.union f.2.aggregates) parts.aggregates⟩ := by
  induction fields generalizing parts with
  | nil => rfl
  | cons f fields ih =>
    rw [List.foldlM_cons, addPlan_eq (h f List.mem_cons_self)]
    exact ih (fun g hg => h g (List.mem_cons_of_mem _ hg)) _

/-- The joins and aggregates of a batch are those of its plans. -/
theorem exists_parts {fields : List (String × Plan)} (h : ∀ f ∈ fields, Scope.Compiled s f.2) :
    ∃ parts : Parts, fields.foldlM (fun parts f => addPlan s.table.name parts f.2) ⟨.empty, .empty⟩ = .ok parts ∧
      JoinsClosed s.table s.context parts.joins ∧
      (∀ j, j ∈ parts.joins.values ↔ ∃ f ∈ fields, j ∈ f.2.joins.values) ∧
      parts.aggregates.Collects Aggregate.id s.IsAggregate ∧
      ∀ a, a ∈ parts.aggregates.values ↔ ∃ f ∈ fields, a ∈ f.2.aggregates.values := by
  obtain ⟨hclosed, hjoins⟩ := JoinsClosed.empty.foldl_union (fun f : String × Plan => f.2.joins)
    fun f hf => (h f hf).joinsClosed
  obtain ⟨hcollects, haggregates⟩ := KeyMap.collects_empty.foldl_union (fun f : String × Plan => f.2.aggregates)
    (fun a c (ha : s.IsAggregate a) hc e => ha.eq_of_id_eq hc e) fun f hf => (h f hf).collects
  exact ⟨_, foldlM_addPlan h ⟨.empty, .empty⟩, hclosed, fun j => (hjoins j).trans (or_iff_right List.not_mem_nil),
    hcollects, fun a => (haggregates a).trans (or_iff_right List.not_mem_nil)⟩

/-! ### Groups -/

variable {m : KeyMap Aggregate}

theorem labels_groups (m : KeyMap Aggregate) :
    (groups m).map (·.label) =
      (List.range (KeyMap.sortKeys (m.values.map (·.relation))).length).map fun i => "agg_" ++ toString (i + 1) := by
  refine map_mapIdx _ ?_
  intro i relation
  rfl

/-- A group is not empty, and its aggregates are over the rows at one destination. -/
private theorem exists_of_mem_groups (h : m.Collects Aggregate.id s.IsAggregate) {g : Group} (hg : g ∈ groups m) :
    ∃ d first others, s.IsDestination d ∧ g.aggregates = first :: others ∧
      ∀ a ∈ g.aggregates, a ∈ m.values ∧ s.AggregateAt d a := by
  obtain ⟨i, hi, rfl⟩ := List.mem_mapIdx.1 hg
  have hrelation := KeyMap.mem_sortKeys.1 (List.getElem_mem hi)
  generalize (KeyMap.sortKeys (m.values.map (·.relation)))[i] = relation at *
  obtain ⟨a, ha, rfl⟩ := List.mem_map.1 hrelation
  obtain ⟨d, hd, hpath, -⟩ := (h.all a ha).exists_destination
  have hmem : a ∈ m.values.filter fun b => b.relation == a.relation := List.mem_filter.2 ⟨ha, beq_self_eq_true _⟩
  obtain ⟨first, others, hcons⟩ := List.exists_cons_of_ne_nil (List.ne_nil_of_mem hmem)
  refine ⟨d, first, others, hd, hcons, ?_⟩
  intro b hb
  obtain ⟨hbm, hbr⟩ := List.mem_filter.1 hb
  exact ⟨hbm, (h.all b hbm).aggregateAt_of_relation hd ((beq_iff_eq.1 hbr).trans hpath)⟩

private theorem exists_group {a : Aggregate} (ha : a ∈ m.values) : ∃ g ∈ groups m, a ∈ g.aggregates := by
  have hrelation := KeyMap.mem_sortKeys.2 (List.mem_map_of_mem (f := Aggregate.relation) ha)
  obtain ⟨i, hi, hget⟩ := List.getElem_of_mem hrelation
  refine ⟨_, List.mem_mapIdx.2 ⟨i, hi, rfl⟩, List.mem_filter.2 ⟨ha, ?_⟩⟩
  rw [hget]
  exact beq_self_eq_true _

/-- An aggregate is looked up by its identifier as a column of a group that it belongs to. -/
private theorem exists_lookup_columns (h : m.Collects Aggregate.id s.IsAggregate) {a : Aggregate}
    (ha : a ∈ m.values) :
    ∃ g ∈ groups m, ∃ i, g.aggregates[i]? = some a ∧
      ((groups m).flatMap Group.columns).lookup a.id = some ⟨g.label, columnName i a, a.function⟩ := by
  cases hlookup : ((groups m).flatMap Group.columns).lookup a.id with
  | none =>
    obtain ⟨g, hg, hag⟩ := exists_group ha
    obtain ⟨i, hi, hget⟩ := List.getElem_of_mem hag
    have hmem : (a.id, ⟨g.label, columnName i a, a.function⟩) ∈ (groups m).flatMap Group.columns :=
      List.mem_flatMap.2 ⟨g, hg, List.mem_mapIdx.2 ⟨i, hi, by rw [hget]⟩⟩
    have := List.lookup_eq_none_iff.1 hlookup _ hmem
    simp at this
  | some c =>
    -- what is found under the identifier of `a` is a column of `a`, in whatever group it is
    obtain ⟨g, hg, hc⟩ := List.mem_flatMap.1 (KeyMap.mem_of_lookup hlookup)
    obtain ⟨i, hi, hget⟩ := List.mem_mapIdx.1 hc
    obtain ⟨d, first, others, -, -, hall⟩ := exists_of_mem_groups h hg
    obtain ⟨hid, rfl⟩ := Prod.mk.inj hget
    have heq := h.toKeyed.eq_of_id_eq (hall _ (List.getElem_mem hi)).1 ha hid
    refine ⟨g, hg, i, ?_, ?_⟩
    · rw [List.getElem?_eq_getElem hi, heq]
    · rw [heq]

/-- Each group has a subquery under its label. -/
private theorem exists_subqueries (h : m.Collects Aggregate.id s.IsAggregate) :
    ∃ qs, (groups m).mapM Group.subquery? = .ok (qs.map some) ∧
      List.Forall₂ (fun (g : Group) (q : Subquery) => g.label = q.label ∧ (∀ a ∈ g.aggregates, a ∈ m.values) ∧
        ∃ d, q.Built s d g.aggregates) (groups m) qs := by
  refine exists_mapM_eq_ok some ?_
  intro g hg
  obtain ⟨d, first, others, hd, hcons, hall⟩ := exists_of_mem_groups h hg
  rw [hcons] at hall
  obtain ⟨q, hq, hlabel, hbuilt⟩ := exists_subquery hd g.label fun a ha => (hall a ha).2
  refine ⟨q, ?_, hlabel.symm, ?_, d, hcons ▸ hbuilt⟩
  · rw [Group.subquery?, hcons]
    show some <$> subquery g.label first others = _
    rw [hq]
    rfl
  · rw [hcons]
    exact fun a ha => (hall a ha).1

/-! ### All together -/

/-- The joins of the whole batch with their aliases. -/
def namedJoins (parts : Parts) : List (Join × String) :=
  Alias.assign (baseAlias :: (groups parts.aggregates).map (·.label)) (ordered parts.joins)

/-- What the fields of the batch are printed from. -/
def fieldSources (parts : Parts) : Sources :=
  ⟨baseAlias, joinSources (namedJoins parts), (groups parts.aggregates).flatMap Group.columns⟩

/-- The select item of a field. -/
def fieldItem (s : Sources) (f : String × Plan) : Except AssemblyError SelectItem := do
  let value ← f.2.expression.toSql s
  return ⟨value, f.1⟩

/-- The steps of assembling a batch. -/
theorem assemble_eq_ok_iff {b : Batch} {base : String} {q : Query} :
    b.assemble base = .ok q ↔ b.fields ≠ [] ∧ ∃ parts lookups subs items,
      b.fields.foldlM (fun parts f => addPlan base parts f.2) ⟨.empty, .empty⟩ = .ok parts ∧
      lookupJoins (namedJoins parts) baseAlias = .ok lookups ∧
      (groups parts.aggregates).mapM Group.subquery? = .ok subs ∧
      b.fields.mapM (fieldItem (fieldSources parts)) = .ok items ∧ q = ⟨base, lookups, subs.filterMap id, items⟩ := by
  have hempty : b.fields.isEmpty = true ↔ b.fields = [] := List.isEmpty_iff
  unfold Batch.assemble
  split
  · rename_i h
    exact ⟨nofun, fun h' => absurd (hempty.1 h) h'.1⟩
  · rename_i h
    rw [hempty] at h
    constructor
    · intro hq
      obtain ⟨parts, hparts, hq⟩ := bind_eq_ok hq
      obtain ⟨lookups, hlookups, hq⟩ := bind_eq_ok hq
      obtain ⟨subs, hsubs, hq⟩ := bind_eq_ok hq
      obtain ⟨items, hitems, hq⟩ := bind_eq_ok hq
      cases hq
      exact ⟨h, parts, lookups, subs, items, hparts, hlookups, hsubs, hitems, rfl⟩
    · rintro ⟨-, parts, lookups, subs, items, hparts, hlookups, hsubs, hitems, rfl⟩
      exact bind_of_eq_ok hparts (bind_of_eq_ok hlookups (bind_of_eq_ok hsubs (bind_of_eq_ok hitems rfl)))

end Assembly

/-! ### The query of a batch -/

open Assembly in
/-- How the query of a batch is put together from the joins and aggregates of its plans. -/
structure Query.Built (q : Query) (s : Scope) (b : Batch) : Prop where
  compiled : ∀ f ∈ b.fields, Scope.Compiled s f.2
  closed : JoinsClosed s.table s.context b.joins
  mem_joins : ∀ f ∈ b.fields, ∀ j ∈ f.2.joins.values, j ∈ b.joins.values
  collects : b.aggregates.Collects Aggregate.id s.IsAggregate
  mem_aggregates : ∀ a, a ∈ b.aggregates.values ↔ ∃ f ∈ b.fields, a ∈ f.2.aggregates.values
  reads : LevelReads s.table s.context b.joins baseAlias (baseAlias :: (groups b.aggregates).map (·.label))
    (fieldSources b.parts).joins q.joins
  subqueries : List.Forall₂ (fun g sub => g.label = sub.label ∧ (∀ a ∈ g.aggregates, a ∈ b.aggregates.values) ∧
    ∃ d, sub.Built s d g.aggregates) (groups b.aggregates) q.subqueries
  fields : List.Forall₂ (fun f item => item.name = f.1 ∧ f.2.expression.toSql (fieldSources b.parts) = .ok item.value)
    b.fields q.fields

/-- What is printed of the query of a batch are its records, on the table that the batch is assembled on. -/
theorem Batch.written_of_assemble {b : Batch} {base : String} {q : Query} (h : b.assemble base = .ok q) :
    q.Written base := by
  obtain ⟨-, parts, lookups, subs, items, -, -, -, -, rfl⟩ := Assembly.assemble_eq_ok_iff.1 h
  exact Query.written _

/-- Whatever value stands for no rows, an aggregate is read from its column alone. -/
theorem AggregateColumn.reads_toSql (c : AggregateColumn) : c.toSql.reads = [(c.source, c.column)] := by
  obtain ⟨source, column, function⟩ := c
  cases function <;> rfl

/-- The aliases that a query introduces at its top level. -/
def Query.aliases (q : Query) : List String := baseAlias :: (q.joins.map (·.label) ++ q.subqueries.map (·.label))

/-- A query that selects what the plans of a batch say. Items are printed from `sources`; what these give for the
columns and aggregates of a plan is introduced in the query as the plan has it. -/
structure Query.Consolidates (q : Query) (schema : Table) (b : Batch) (sources : Sources) : Prop where
  fields : List.Forall₂ (fun f item => item.name = f.1 ∧ f.2.expression.toSql sources = .ok item.value)
    b.fields q.fields
  nodup_aliases : q.aliases.Nodup
  reads : ∀ f ∈ b.fields, ReadsThrough schema f.2.joins baseAlias q.joins sources f.2.expression
  aggregates : ∀ f ∈ b.fields, ∀ info ref, (Expression.aggregate info ref).Within f.2.expression →
    ∃ a sub column, f.2.aggregates.find? ref = some a ∧ sub ∈ q.subqueries ∧
      (Expression.aggregate info ref).toSql sources = .ok (AggregateColumn.toSql ⟨sub.label, column, a.function⟩) ∧
      (AggregateColumn.toSql ⟨sub.label, column, a.function⟩).reads = [(sub.label, column)] ∧
      sub.Computes schema a column

namespace Query.Built

open Assembly

variable {q : Query} {s : Scope} {b : Batch}

private theorem nodup_aliases (h : q.Built s b) : q.aliases.Nodup := by
  have hlabels : (groups b.aggregates).map (·.label) = q.subqueries.map (·.label) :=
    map_eq_map_of_forall₂ (h.subqueries.imp fun g q h => h.1)
  have hnodup : (q.subqueries.map (·.label)).Nodup := by
    rw [← hlabels, labels_groups]
    exact nodup_numbered "agg_" _
  refine List.nodup_cons.2 ⟨?_, List.nodup_append.2 ⟨h.reads.nodup, hnodup, ?_⟩⟩
  · intro hmem
    rcases List.mem_append.1 hmem with hmem | hmem
    · obtain ⟨j, hj, hbase⟩ := List.mem_map.1 hmem
      exact h.reads.not_taken j hj (hbase ▸ List.mem_cons_self)
    · rw [← hlabels, labels_groups] at hmem
      obtain ⟨i, -, hbase⟩ := List.mem_map.1 hmem
      exact absurd (congrArg (·.toList.head?) hbase) (by simp [baseAlias])
  · intro x hx y hy hxy
    obtain ⟨j, hj, rfl⟩ := List.mem_map.1 hx
    exact h.reads.not_taken j hj (List.mem_cons_of_mem _ (hlabels ▸ hxy ▸ hy))

/-- The query of a batch selects what its plans say. -/
theorem consolidates (h : q.Built s b) : q.Consolidates s.table b (fieldSources b.parts) := by
  refine ⟨h.fields, h.nodup_aliases, ?_, ?_⟩
  · intro f hf
    exact (h.compiled f hf).readsThrough (h.mem_joins f hf) rfl h.reads
  · intro f hf info ref hw
    obtain ⟨a, ha, rfl⟩ := (h.compiled f hf).exists_of_aggregate hw
    obtain ⟨g, hg, i, hget, hlookup⟩ := exists_lookup_columns h.collects ((h.mem_aggregates a).2 ⟨f, hf, ha⟩)
    obtain ⟨sub, hsub, hlabel, -, d, hbuilt⟩ := exists_mem_of_forall₂ h.subqueries hg
    refine ⟨a, sub, columnName i a, (h.compiled f hf).collects.find?_eq_some_iff.2 ⟨ha, rfl⟩, hsub, ?_,
      AggregateColumn.reads_toSql _, hbuilt.computes hget⟩
    have hlookup : (fieldSources b.parts).aggregates.lookup a.id = some ⟨g.label, columnName i a, a.function⟩ :=
      hlookup
    rw [Expression.toSql, hlookup, hlabel]

end Query.Built

open Assembly in
/-- A batch of plans of the base table has a query. -/
theorem exists_assemble {s : Scope} {b : Batch} (hb : ∀ f ∈ b.fields, Scope.Compiled s f.2) (hne : b.fields ≠ []) :
    ∃ q, b.assemble s.table.name = .ok q ∧ q.Built s b := by
  obtain ⟨parts, hparts, hclosed, hjmem, hcollects, haggregate⟩ := exists_parts hb
  obtain rfl := eq_parts_of_foldlM hparts
  have hjoin : ∀ f ∈ b.fields, ∀ j ∈ f.2.joins.values, j ∈ b.joins.values := fun f hf j hj =>
    (hjmem j).2 ⟨f, hf, hj⟩
  -- the labels of subqueries are given first, and joins have to avoid them
  obtain ⟨lookups, hlookups, hreads⟩ := exists_lookupJoins hclosed baseAlias
    (baseAlias :: (groups b.aggregates).map (·.label))
  obtain ⟨subs, hsubs, hall⟩ := exists_subqueries hcollects
  obtain ⟨items, hitems, hfields⟩ : ∃ items,
      b.fields.mapM (fieldItem (fieldSources b.parts)) = .ok (items.map id) ∧
      List.Forall₂ (fun f (item : SelectItem) => item.name = f.1 ∧
        f.2.expression.toSql (fieldSources b.parts) = .ok item.value) b.fields items := by
    refine exists_mapM_eq_ok id ?_
    intro f hf
    obtain ⟨value, hvalue⟩ : ∃ value, f.2.expression.toSql (fieldSources b.parts) = .ok value := by
      refine Expression.exists_toSql ((hb f hf).readable ?_ ?_)
      · exact fun j hj => hreads.isSome_lookup hclosed (hjoin f hf j hj)
      · intro a ha
        obtain ⟨g, -, i, -, hlookup⟩ := exists_lookup_columns hcollects ((haggregate a).2 ⟨f, hf, ha⟩)
        exact Option.isSome_iff_exists.2 ⟨_, hlookup⟩
    exact ⟨⟨value, f.1⟩, by rw [fieldItem, hvalue]; rfl, rfl, hvalue⟩
  rw [List.map_id] at hitems
  have hfilter : (subs.map some).filterMap id = subs := by simp
  exact ⟨⟨s.table.name, lookups, subs, items⟩,
    assemble_eq_ok_iff.2 ⟨hne, _, lookups, _, items, hparts, hlookups, hsubs, hitems, by rw [hfilter]⟩,
    hb, hclosed, hjoin, hcollects, haggregate, hreads, hall, hfields⟩

/-! ### Other base tables -/

/-- The base table is checked, but changes nothing else of a query. -/
private theorem assemble_base {b : Batch} {base base' : String} {q q' : Query} (h : b.assemble base = .ok q)
    (h' : b.assemble base' = .ok q') : q = { q' with base := base } := by
  obtain ⟨-, parts, lookups, subs, items, hparts, hlookups, hsubs, hitems, rfl⟩ := Assembly.assemble_eq_ok_iff.1 h
  obtain ⟨-, parts', lookups', subs', items', hparts', hlookups', hsubs', hitems', rfl⟩ :=
    Assembly.assemble_eq_ok_iff.1 h'
  obtain rfl := Assembly.eq_parts_of_foldlM hparts
  obtain rfl := Assembly.eq_parts_of_foldlM hparts'
  rw [hlookups'] at hlookups
  rw [hsubs'] at hsubs
  rw [hitems'] at hitems
  cases hlookups
  cases hsubs
  cases hitems
  rfl

/-- Whatever base table a batch is assembled on, its query is put together in the same way. -/
theorem built_of_assemble {s : Scope} {b : Batch} (hb : ∀ f ∈ b.fields, Scope.Compiled s f.2) {base : String}
    {q : Query} (h : b.assemble base = .ok q) : q.Built s b := by
  obtain ⟨q', hq', hbuilt⟩ := exists_assemble hb (Assembly.assemble_eq_ok_iff.1 h).1
  rw [assemble_base h hq']
  exact ⟨hbuilt.compiled, hbuilt.closed, hbuilt.mem_joins, hbuilt.collects, hbuilt.mem_aggregates, hbuilt.reads,
    hbuilt.subqueries, hbuilt.fields⟩

theorem compiled_of_formulas {schema : Table} {maxDepth : Nat} {b : Batch}
    (hb : ∀ f ∈ b.fields, ∃ text, Plan.ofFormula text schema maxDepth = .ok f.2) :
    ∀ f ∈ b.fields, Scope.Compiled (schema.scope maxDepth) f.2 := by
  intro f hf
  obtain ⟨text, htext⟩ := hb f hf
  exact Plan.compiled_of_ofFormula htext

theorem formulas_of_pair {schema : Table} {maxDepth : Nat} {text text' : String} {p q : Plan}
    (hp : Plan.ofFormula text schema maxDepth = .ok p) (hq : Plan.ofFormula text' schema maxDepth = .ok q)
    (name name' : String) : ∀ f ∈ [(name, p), (name', q)], ∃ text, Plan.ofFormula text schema maxDepth = .ok f.2 :=
  List.forall_mem_cons.2 ⟨⟨text, hp⟩, List.forall_mem_singleton.2 ⟨text', hq⟩⟩

/-- Consolidation keeps what every field says: in the query of a batch of formulas, each column of a related table
is read from an alias that is joined as its own chain says, and each aggregate from a subquery over its own path.
These joins and subqueries are what the query is printed with. -/
theorem Batch.assemble_consolidates {schema : Table} {maxDepth : Nat} {b : Batch}
    (hb : ∀ f ∈ b.fields, ∃ text, Plan.ofFormula text schema maxDepth = .ok f.2) (hne : b.fields ≠ []) :
    ∃ q sources, b.assemble schema.name = .ok q ∧ q.Written schema.name ∧ q.Consolidates schema b sources := by
  obtain ⟨q, hq, hbuilt⟩ := exists_assemble (compiled_of_formulas hb) hne
  exact ⟨q, _, hq, Batch.written_of_assemble hq, hbuilt.consolidates⟩

theorem Batch.assemble_consolidates_tangled :
    ∃ p q, (p.joins.size = 2 ∧ p.aggregates.size = 1) ∧ (q.joins.size = 2 ∧ q.aggregates.size = 1) ∧
      ∃ query sources, Batch.assemble ⟨[("balance", p), ("ra\"tio", q)]⟩ Table.tangled.name = .ok query ∧
        query.Written Table.tangled.name ∧
        query.Consolidates .tangled ⟨[("balance", p), ("ra\"tio", q)]⟩ sources := by
  obtain ⟨p, q, hp, hq, hsize, hsize'⟩ := exists_tangled_plans
  exact ⟨p, q, hsize, hsize', Batch.assemble_consolidates (formulas_of_pair hp hq _ _) (List.cons_ne_nil _ _)⟩

/-! ### The query of fields -/

/-- Fields that compile one by one make a batch of plans of formulas. -/
private theorem exists_batch {schema : Table} {maxDepth : Nat} {fields : List Field}
    (h : ∀ f ∈ fields, ∃ p, Plan.ofFormula f.formula schema maxDepth = .ok p) {b : Batch}
    (hb : ∀ e ∈ b.fields, ∃ text, Plan.ofFormula text schema maxDepth = .ok e.2) (hne : fields ≠ [] ∨ b.fields ≠ []) :
    ∃ b', fields.foldlM (fun b f => do return b.insert f.name (← Command.plan schema maxDepth f)) b =
        (.ok b' : Except CommandError Batch) ∧
      (∀ e ∈ b'.fields, ∃ text, Plan.ofFormula text schema maxDepth = .ok e.2) ∧ b'.fields ≠ [] := by
  induction fields generalizing b with
  | nil => exact ⟨b, rfl, hb, hne.resolve_left (fun h => h rfl)⟩
  | cons f fields ih =>
    obtain ⟨p, hp⟩ := h f List.mem_cons_self
    have hinsert : ∀ e ∈ (b.insert f.name p).fields, ∃ text, Plan.ofFormula text schema maxDepth = .ok e.2 := by
      intro e he
      rcases mem_replaceOrAppend he with rfl | he
      · exact ⟨f.formula, hp⟩
      · exact hb e he
    obtain ⟨b', hb', hall, hne'⟩ := ih (fun g hg => h g (List.mem_cons_of_mem _ hg)) hinsert
      (Or.inr (replaceOrAppend_ne_nil _ _ _ _))
    refine ⟨b', ?_, hall, hne'⟩
    rw [List.foldlM_cons, Command.plan, hp]
    exact hb'

/-- Fields whose formulas all compile against a schema always have a query on its table. -/
theorem Command.exists_query {schema : Table} {maxDepth : Nat} {fields : List Field} (hne : fields ≠ [])
    (h : ∀ f ∈ fields, ∃ p, Plan.ofFormula f.formula schema maxDepth = .ok p) :
    ∃ b q, Command.batch schema maxDepth fields = .ok b ∧ b.assemble schema.name = .ok q := by
  obtain ⟨b, hb, hall, hne⟩ := exists_batch h (b := .empty) nofun (Or.inl hne)
  obtain ⟨q, hq, -⟩ := exists_assemble (compiled_of_formulas hall) hne
  exact ⟨b, q, hb, hq⟩

theorem Command.exists_query_tangled :
    ∃ b q, Command.batch .tangled 3
        [⟨"balance", "SUM_AGG(orders.lines, amount) - rep_rel.region_rel.quota"⟩,
          ⟨"ra\"tio", "Rep_Rel.Region_REL.Quota * sum_agg(Orders.Lines, Amount)"⟩,
          ⟨"balance", "SUM_AGG(orders.lines, amount) - rep_rel.region_rel.quota"⟩] = .ok b ∧
      b.assemble Table.tangled.name = .ok q := by
  obtain ⟨p, q, hp, hq, -⟩ := exists_tangled_plans
  refine Command.exists_query (List.cons_ne_nil _ _) ?_
  intro f hf
  simp only [List.mem_cons, List.not_mem_nil, or_false] at hf
  rcases hf with rfl | rfl | rfl
  · exact ⟨p, hp⟩
  · exact ⟨q, hq⟩
  · exact ⟨p, hp⟩

end FormulaQuery
