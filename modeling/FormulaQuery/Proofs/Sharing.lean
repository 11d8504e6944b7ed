import FormulaQuery.Proofs.Scoping
import FormulaQuery.Proofs.Usage
import Mathlib.Algebra.Order.BigOperators.Group.List

/-!
# What is shared

In the query of a batch of formulas nothing is introduced twice and nothing without need. There is one join for each
beginning of a chain that is followed outside aggregates, one subquery for each path that is aggregated over, and in
the subquery one column for each aggregate over the path and one join for each beginning of a chain that is followed
there (`Batch.assemble_shares`).
-/

namespace FormulaQuery

/-! ### One for each -/

/-- The list `bs` holds one member for each `a` with the property `P` and no others; `R` says which one. -/
def OneEach {α β : Type} (P : α → Prop) (R : α → β → Prop) (bs : List β) : Prop :=
  ∃ as : List α, as.Nodup ∧ (∀ a, a ∈ as ↔ P a) ∧ List.Forall₂ R as bs

section OneEach

variable {α β : Type} {R : α → β → Prop} {bs : List β}

private theorem OneEach.congr {P Q : α → Prop} (h : OneEach P R bs) (hiff : ∀ a, P a ↔ Q a) : OneEach Q R bs := by
  obtain ⟨as, hnodup, hmem, hall⟩ := h
  exact ⟨as, hnodup, fun a => (hmem a).trans (hiff a), hall⟩

end OneEach

/-! ### Beginnings of chains -/

/-- The chain, in the spelling of the schema, is the beginning of one that the formula follows from the table `t`. -/
def Formula.Passes (f : Formula) (t : Table) (chain : List String) : Prop :=
  chain ≠ [] ∧ ∃ hops, f.Follows t hops ∧ chain <+: Hop.names hops

/-- The joins along hops have the beginnings of their names as chains. -/
theorem Hop.exists_mem_joins_iff (context : Context) {hops : List Hop} {chain : List String} :
    (∃ j ∈ joins context [] hops, j.chain = chain) ↔ chain ≠ [] ∧ chain <+: names hops := by
  constructor
  · rintro ⟨j, hj, rfl⟩
    obtain ⟨init, k, rest, rfl, rfl⟩ := mem_joins hj
    refine ⟨by simp [join], names rest, ?_⟩
    simp [join, names]
  · rintro ⟨hne, tail, htail⟩
    obtain ⟨front, last, rfl⟩ := (List.eq_nil_or_concat chain).resolve_left hne
    rw [List.concat_eq_append] at *
    obtain ⟨before, rest, rfl, hbefore, -⟩ := List.map_eq_append_iff.1 htail.symm
    obtain ⟨init, ks, rfl, rfl, hks⟩ := List.map_eq_append_iff.1 hbefore
    obtain ⟨k, rfl, rfl⟩ := List.map_eq_singleton_iff.1 hks
    rw [List.append_assoc]
    exact ⟨_, join_mem_joins context init k rest, rfl⟩

private theorem Scope.exists_joinOf_iff (s : Scope) {f : Formula} {chain : List String} :
    (∃ j, s.JoinOf f j ∧ j.chain = chain) ↔ f.Passes s.table chain := by
  constructor
  · rintro ⟨j, ⟨hops, hfollows, hj⟩, hchain⟩
    obtain ⟨hne, hbegin⟩ := (Hop.exists_mem_joins_iff s.context).1 ⟨j, hj, hchain⟩
    exact ⟨hne, hops, hfollows, hbegin⟩
  · rintro ⟨hne, hops, hfollows, hbegin⟩
    obtain ⟨j, hj, hchain⟩ := (Hop.exists_mem_joins_iff s.context).2 ⟨hne, hbegin⟩
    exact ⟨j, ⟨hops, hfollows, hj⟩, hchain⟩

/-! ### The joins of a level -/

/-- The join follows the last relationship of a chain that starts from the table `t` under the alias `root`: it
joins the table there by the column of the relationship, read from the alias that the relationships before it
reach. -/
def LookupJoin.Ends (l : LookupJoin) (joins : List LookupJoin) (t : Table) (root : String) (chain : List String) :
    Prop :=
  ∃ init last, Hop.Route Table.direct t (init ++ [last]) ∧ Hop.names (init ++ [last]) = chain ∧
    l.table = last.link.target.name ∧ l.column = last.link.joinColumn ∧ Reaches joins root init l.parent

private theorem Reaches.exists_of_concat {joins : List LookupJoin} {root label : String} {hops : List Hop} {k : Hop}
    (h : Reaches joins root (hops ++ [k]) label) :
    ∃ up, Reaches joins root hops up ∧ ⟨k.link.target.name, label, up, k.link.joinColumn⟩ ∈ joins := by
  generalize hwhole : hops ++ [k] = whole at h
  cases h with
  | root => exact absurd hwhole (by simp)
  | hop h hj =>
    obtain ⟨rfl, hk⟩ := List.append_inj' hwhole rfl
    cases hk
    exact ⟨_, h, hj⟩

/-- A level has one join for each chain. -/
theorem oneEach_lookupJoins {t : Table} {context : Context} {m : KeyMap Join} (hm : JoinsClosed t context m)
    {taken : List String} {root : String} {lookups : List LookupJoin}
    (h : Assembly.lookupJoins (Alias.assign taken (Assembly.ordered m)) root = .ok lookups) :
    OneEach (fun chain => ∃ j ∈ m.values, j.chain = chain) (fun chain l => l.Ends lookups t root chain) lookups := by
  have hn := Assembly.named_assign hm.toKeyed taken
  obtain ⟨lookups', hlookups', hreads⟩ := Assembly.exists_lookupJoins hm root taken
  rw [h] at hlookups'
  cases hlookups'
  have hspec := Assembly.lookupJoins_spec h
  generalize Alias.assign taken (Assembly.ordered m) = named at *
  refine ⟨named.map (·.1.chain), ?_, ?_, ?_⟩
  · have hids := List.pairwise_map.1 (List.nodup_iff_pairwise_ne.1 hn.nodup)
    refine List.nodup_iff_pairwise_ne.2 (List.pairwise_map.2 (hids.imp_of_mem ?_))
    intro a b ha hb hne hchain
    exact hne (congrArg Join.id ((hm.all _ (hn.mem a ha)).eq_of_chain_eq (hm.all _ (hn.mem b hb)) hchain))
  · intro chain
    rw [List.mem_map]
    constructor
    · rintro ⟨n, hmem, rfl⟩
      exact ⟨n.1, hn.mem n hmem, rfl⟩
    · rintro ⟨j, hj, rfl⟩
      obtain ⟨label, hlabel⟩ := hn.exists_mem j hj
      exact ⟨(j, label), hlabel, rfl⟩
  · refine List.forall₂_map_left_iff.2 (forall₂_imp_of_mem hspec ?_)
    rintro ⟨j, label⟩ hmem _ hl ⟨parent, -, rfl⟩
    obtain ⟨init, last, hr, rfl⟩ := hm.all _ (hn.mem _ hmem)
    obtain ⟨label', hlabel', hreach⟩ := hreads.reaches init last hr (hn.mem _ hmem)
    rw [hn.lookup hmem] at hlabel'
    cases hlabel'
    -- the last step of what the chain reaches is this join, as no other has its alias
    obtain ⟨up, hup, hj⟩ := hreach.exists_of_concat
    have heq := List.inj_on_of_nodup_map hreads.nodup hl hj rfl
    refine ⟨init, last, hr, Hop.names_append init [last], rfl, rfl, ?_⟩
    rw [congrArg LookupJoin.parent heq]
    exact hup

/-! ### The columns of a subquery -/

/-- The aggregates that formulas take over the rows at `d`: their functions, expressions, and what they put between
texts. With each formula stands the longest path that it may have. -/
def Table.Folds (schema : Table) (fs : List (Formula × Nat)) (d : Scope.Destination)
    (x : AggregateFunction × Expression × Option Expression) : Prop :=
  ∃ f ∈ fs, ∃ value more inner delimiter, f.1.Folds schema x.1 d.hops value more ∧
    ((schema.scope f.2).nested d).compile value = .ok inner ∧
    (schema.scope f.2).compileDelimiter x.1 more = .ok delimiter ∧
    x.2 = (inner.expression, delimiter.map (·.expression))

/-- The beginnings of the chains that are followed under aggregates over the rows at `d`. No aggregate stands under
another one, so these are all of their chains. -/
def Table.PassesUnder (schema : Table) (fs : List (Formula × Nat)) (d : Scope.Destination) (chain : List String) :
    Prop :=
  ∃ f ∈ fs, ∃ g value more, f.1.Folds schema g d.hops value more ∧ value.Passes d.target chain

/-- A subquery over the rows at `d` with one column for each aggregate over them, beside the one that it groups by,
and one join for each beginning of a chain under these. -/
structure Subquery.Shares (q : Subquery) (schema : Table) (fs : List (Formula × Nat)) (d : Scope.Destination) :
    Prop where
  items : OneEach (schema.Folds fs d) (fun x item => ∃ a : Aggregate, (a.function, a.expression, a.delimiter) = x ∧
    q.Computes schema a item.name) q.items
  names : (groupKey :: q.items.map (·.name)).Nodup
  joins : OneEach (schema.PassesUnder fs d)
    (fun chain l => l.Ends q.joins d.target (q.deeper.getLastD q.top).label chain) q.joins

/-- A query with one join for each beginning of a chain that formulas follow outside aggregates, and one subquery for
each path that they aggregate over. -/
structure Query.Shares (q : Query) (schema : Table) (fs : List (Formula × Nat)) : Prop where
  joins : OneEach (fun chain => ∃ f ∈ fs, f.1.Passes schema chain)
    (fun chain l => l.Ends q.joins schema baseAlias chain) q.joins
  subqueries : OneEach (fun path => ∃ f ∈ fs, ∃ g hops value more, f.1.Folds schema g hops value more ∧
      Hop.names hops = path)
    (fun path sub => ∃ d : Scope.Destination, Hop.Route Table.inverse schema d.hops ∧
      Hop.target? d.hops = some d.target ∧ Hop.names d.hops = path ∧ sub.Shares schema fs d) q.subqueries

/-! ### Aggregates of a batch -/

/-- In one scope an aggregate has an identifier made from its path, its function and its expressions. -/
private theorem Scope.IsAggregate.id_eq {s : Scope} {a : Aggregate} (h : s.IsAggregate a) :
    a.id = semanticId "aggregate" (a.function.name ++ ":" ++ a.relation)
      (a.expression.info.id :: a.delimiter.toList.map (·.info.id)) s.context := by
  cases h
  rfl

namespace Assembly

/-- The map holds the aggregates of formulas that have plans for one schema. -/
structure Gathers (schema : Table) (fs : List (Formula × Nat)) (maxDepth : Nat) (m : KeyMap Aggregate) : Prop
    extends m.Collects Aggregate.id (schema.scope maxDepth).IsAggregate where
  wellFormed : ∀ f ∈ fs, f.1.WellFormed
  plans : ∀ f ∈ fs, ∃ p, (schema.scope f.2).Plans f.1 p
  mem_values : ∀ a, a ∈ m.values ↔ ∃ f ∈ fs, (schema.scope f.2).AggregateOf f.1 a

namespace Gathers

variable {schema : Table} {fs : List (Formula × Nat)} {maxDepth : Nat} {m : KeyMap Aggregate} {d : Scope.Destination}
  {q : Subquery} {as : List Aggregate}

/-- The aggregates over the rows at a destination are those that formulas take over them. -/
private theorem mem_at_iff (h : Gathers schema fs maxDepth m) (hd : (schema.scope maxDepth).IsDestination d)
    {a : Aggregate} : a ∈ m.values ∧ a.relation = ".".intercalate (Hop.names d.hops) ↔
      ∃ f ∈ fs, ∃ g value more inner delimiter, f.1.Folds schema g d.hops value more ∧
        ((schema.scope f.2).nested d).compile value = .ok inner ∧
        (schema.scope f.2).compileDelimiter g more = .ok delimiter ∧
        a = (schema.scope f.2).aggregateEntry g d inner delimiter := by
  rw [h.mem_values]
  constructor
  · rintro ⟨⟨f, hf, g, d', value, more, inner, delimiter, hfolds, htarget, hinner, hdelimiter, rfl⟩, hrelation⟩
    have hd' : (schema.scope maxDepth).IsDestination d' := ⟨(hfolds.wellFormed (h.wellFormed f hf)).1, htarget⟩
    obtain rfl : d' = d := Scope.destination_eq hd' hd hrelation
    exact ⟨f, hf, g, value, more, inner, delimiter, hfolds, hinner, hdelimiter, rfl⟩
  · rintro ⟨f, hf, g, value, more, inner, delimiter, hfolds, hinner, hdelimiter, rfl⟩
    exact ⟨⟨f, hf, g, d, value, more, inner, delimiter, hfolds, hd.target, hinner, hdelimiter, rfl⟩, rfl⟩

private theorem folds_iff (h : Gathers schema fs maxDepth m) (hd : (schema.scope maxDepth).IsDestination d)
    {x : AggregateFunction × Expression × Option Expression} :
    schema.Folds fs d x ↔ ∃ a, (a ∈ m.values ∧ a.relation = ".".intercalate (Hop.names d.hops)) ∧
      (a.function, a.expression, a.delimiter) = x := by
  simp only [h.mem_at_iff hd]
  constructor
  · obtain ⟨g, e⟩ := x
    rintro ⟨f, hf, value, more, inner, delimiter, hfolds, hinner, hdelimiter, rfl⟩
    exact ⟨_, ⟨f, hf, g, value, more, inner, delimiter, hfolds, hinner, hdelimiter, rfl⟩, rfl⟩
  · rintro ⟨_, ⟨f, hf, g, value, more, inner, delimiter, hfolds, hinner, hdelimiter, rfl⟩, rfl⟩
    exact ⟨f, hf, value, more, inner, delimiter, hfolds, hinner, hdelimiter, rfl⟩

/-- A subquery has one column for each aggregate. -/
private theorem oneEach_items (h : Gathers schema fs maxDepth m) (hnodup : (as.map Aggregate.id).Nodup)
    (has : ∀ a, a ∈ as ↔ a ∈ m.values ∧ a.relation = ".".intercalate (Hop.names d.hops))
    (hq : q.Built (schema.scope maxDepth) d as) :
    OneEach (schema.Folds fs d) (fun x item => ∃ a : Aggregate, (a.function, a.expression, a.delimiter) = x ∧
      q.Computes schema a item.name) q.items := by
  refine ⟨as.map fun a => (a.function, a.expression, a.delimiter), ?_, ?_, ?_⟩
  · have hids := List.pairwise_map.1 (List.nodup_iff_pairwise_ne.1 hnodup)
    refine List.nodup_iff_pairwise_ne.2 (List.pairwise_map.2 (hids.imp_of_mem ?_))
    intro a b ha hb hne heq
    obtain ⟨hfunction, hrest⟩ := Prod.mk.inj heq
    obtain ⟨hexpression, hdelimiter⟩ := Prod.mk.inj hrest
    obtain ⟨ha, hra⟩ := (has a).1 ha
    obtain ⟨hb, hrb⟩ := (has b).1 hb
    refine hne ?_
    rw [(h.all a ha).id_eq, (h.all b hb).id_eq, hfunction, hexpression, hdelimiter, hra, hrb]
  · intro x
    rw [h.folds_iff hq.destination, List.mem_map]
    simp only [has]
  · have hmap : (as.map fun a => (a.function, a.expression, a.delimiter)) =
        as.zipIdx.map fun a => (a.1.function, a.1.expression, a.1.delimiter) := by
      conv => lhs; rw [← List.zipIdx_map_fst 0 as, List.map_map]
      rfl
    rw [hmap]
    refine List.forall₂_map_left_iff.2 (forall₂_imp_of_mem hq.items ?_)
    rintro ⟨a, i⟩ ha item - ⟨value, delimiter, -, -, rfl⟩
    exact ⟨a, rfl, hq.computes (List.mk_mem_zipIdx_iff_getElem?.1 ha)⟩

/-- The chains of the joins of a subquery are those that are followed under its aggregates. -/
private theorem exists_mem_allJoins_iff (h : Gathers schema fs maxDepth m)
    (has : ∀ a, a ∈ as ↔ a ∈ m.values ∧ a.relation = ".".intercalate (Hop.names d.hops))
    (hq : q.Built (schema.scope maxDepth) d as) (chain : List String) :
    (∃ j ∈ (allJoins as).values, j.chain = chain) ↔ schema.PassesUnder fs d chain := by
  have hmem := (joinsClosed_allJoins hq.aggregates).2
  constructor
  · rintro ⟨j, hj, hchain⟩
    obtain ⟨a, ha, hj⟩ := (hmem j).1 hj
    obtain ⟨f, hf, g, value, more, inner, delimiter, hfolds, hinner, -, rfl⟩ :=
      (h.mem_at_iff hq.destination).1 ((has a).1 ha)
    have hregisters := (Scope.compile_eq_ok_iff.1 hinner).registers (hfolds.wellFormed (h.wellFormed f hf)).2
    exact ⟨f, hf, g, value, more, hfolds, (Scope.exists_joinOf_iff _).1 ⟨j, (hregisters.joins j).1 hj, hchain⟩⟩
  · rintro ⟨f, hf, g, value, more, hfolds, hpasses⟩
    obtain ⟨p, hp⟩ := h.plans f hf
    obtain ⟨target, inner, delimiter, htarget, hinner, hdelimiter⟩ := hp.exists_of_folds hfolds
    rw [hq.destination.target] at htarget
    cases htarget
    have hregisters := (Scope.compile_eq_ok_iff.1 hinner).registers (hfolds.wellFormed (h.wellFormed f hf)).2
    obtain ⟨j, hj, hchain⟩ := ((schema.scope f.2).nested d).exists_joinOf_iff.2 hpasses
    refine ⟨j, (hmem j).2 ⟨(schema.scope f.2).aggregateEntry g d inner delimiter, (has _).2 ?_, ?_⟩, hchain⟩
    · exact (h.mem_at_iff hq.destination).2 ⟨f, hf, g, value, more, inner, delimiter, hfolds, hinner, hdelimiter, rfl⟩
    · exact (hregisters.joins j).2 hj

/-- Each subquery has one column for each aggregate over its path, and one join for each chain under these. -/
private theorem subquery_shares (h : Gathers schema fs maxDepth m) (hd : (schema.scope maxDepth).IsDestination d)
    {label : String} {first : Aggregate} {others : List Aggregate}
    (has : (m.values.filter fun a => a.relation == ".".intercalate (Hop.names d.hops)) = first :: others)
    (hq : subquery label first others = .ok q) : q.Shares schema fs d := by
  have hmem : ∀ a, a ∈ first :: others ↔ a ∈ m.values ∧ a.relation = ".".intercalate (Hop.names d.hops) := by
    intro a
    rw [← has, List.mem_filter, beq_iff_eq]
  have hnodup : ((first :: others).map Aggregate.id).Nodup := by
    rw [← has]
    exact h.nodup_values.sublist (List.filter_sublist.map _)
  obtain ⟨q', hq', -, hbuilt⟩ := exists_subquery hd label fun a ha =>
    (h.all a ((hmem a).1 ha).1).aggregateAt_of_relation hd ((hmem a).1 ha).2
  rw [hq] at hq'
  cases hq'
  obtain ⟨-, -, hlookups, -⟩ := subquery_spec hq
  have hjoins := oneEach_lookupJoins (joinsClosed_allJoins hbuilt.aggregates).1 hlookups
  exact ⟨h.oneEach_items hnodup hmem hbuilt, (Subquery.wellScoped hq).columns,
    hjoins.congr (h.exists_mem_allJoins_iff hmem hbuilt)⟩

private theorem groups_spec (m : KeyMap Aggregate) :
    List.Forall₂ (fun relation g => g.aggregates = m.values.filter fun a => a.relation == relation)
      (KeyMap.sortKeys (m.values.map (·.relation))) (groups m) := by
  refine List.forall₂_iff_get.2 ⟨by simp [groups], ?_⟩
  intro i h h'
  simp [groups]

/-- A batch has one subquery for each path that its formulas aggregate over. -/
theorem oneEach_subqueries (h : Gathers schema fs maxDepth m) {subs : List (Option Subquery)}
    (hsubs : (groups m).mapM Group.subquery? = .ok subs) :
    OneEach (fun path => ∃ f ∈ fs, ∃ g hops value more, f.1.Folds schema g hops value more ∧ Hop.names hops = path)
      (fun path sub => ∃ d : Scope.Destination, Hop.Route Table.inverse schema d.hops ∧
        Hop.target? d.hops = some d.target ∧ Hop.names d.hops = path ∧ sub.Shares schema fs d)
      (subs.filterMap id) := by
  obtain ⟨paths, hpaths⟩ : ∃ paths, List.Forall₂ (fun path relation => ".".intercalate path = relation ∧
      ∃ d, (schema.scope maxDepth).IsDestination d ∧ Hop.names d.hops = path) paths
      (KeyMap.sortKeys (m.values.map (·.relation))) := by
    refine exists_forall₂ ?_
    intro relation hrelation
    obtain ⟨a, ha, rfl⟩ := List.mem_map.1 (KeyMap.mem_sortKeys.1 hrelation)
    obtain ⟨d, hd, hrelation, -⟩ := (h.all a ha).exists_destination
    exact ⟨Hop.names d.hops, hrelation.symm, d, hd, rfl⟩
  have htexts : paths.map ".".intercalate = KeyMap.sortKeys (m.values.map (·.relation)) := by
    rw [← List.forall₂_eq_eq_eq, List.forall₂_map_left_iff]
    exact hpaths.imp fun _ _ h => h.1
  refine ⟨paths, ?_, ?_, ?_⟩
  · refine List.Nodup.of_map ".".intercalate ?_
    rw [htexts]
    exact KeyMap.nodup_sortKeys _
  · intro path
    constructor
    · intro hpath
      obtain ⟨relation, hrelation, rfl, d, hd, rfl⟩ := exists_mem_of_forall₂ hpaths hpath
      obtain ⟨a, ha, hrelation⟩ := List.mem_map.1 (KeyMap.mem_sortKeys.1 hrelation)
      obtain ⟨f, hf, g, value, more, _, _, hfolds, -⟩ := (h.mem_at_iff hd).1 ⟨ha, hrelation⟩
      exact ⟨f, hf, g, d.hops, value, more, hfolds, rfl⟩
    · rintro ⟨f, hf, g, hops, value, more, hfolds, rfl⟩
      obtain ⟨p, hp⟩ := h.plans f hf
      obtain ⟨target, inner, delimiter, htarget, hinner, hdelimiter⟩ := hp.exists_of_folds hfolds
      have hd : (schema.scope maxDepth).IsDestination ⟨hops, target⟩ :=
        ⟨(hfolds.wellFormed (h.wellFormed f hf)).1, htarget⟩
      obtain ⟨ha, hrelation⟩ := (h.mem_at_iff hd).2
        ⟨f, hf, g, value, more, inner, delimiter, hfolds, hinner, hdelimiter, rfl⟩
      obtain ⟨path, hpath, htext, d, hd', rfl⟩ := exists_mem_of_forall₂ hpaths.flip
        (KeyMap.mem_sortKeys.2 (List.mem_map_of_mem ha))
      rwa [← Scope.destination_eq hd hd' (hrelation.symm.trans htext.symm)] at hpath
  · refine (forall₂_comp (forall₂_comp hpaths (groups_spec m)) (subqueries_spec hsubs)).imp ?_
    rintro path sub ⟨g, ⟨relation, ⟨rfl, d, hd, rfl⟩, hg⟩, first, others, hcons, hsub⟩
    exact ⟨d, hd.route, hd.target, rfl, h.subquery_shares hd (hg.symm.trans hcons) hsub⟩

end Gathers

end Assembly

/-! ### Batches of formulas -/

/-- The plan of a well formed formula for the schema; with the formula stands the longest path that it may have. -/
def Table.HasPlan (schema : Table) (f : Formula × Nat) (p : Plan) : Prop :=
  f.1.WellFormed ∧ (schema.scope f.2).Plans f.1 p

section HasPlan

variable {schema : Table} {fs : List (Formula × Nat)} {fields : List (String × Plan)}

private theorem Table.hasPlan_of_ofFormula {f : Formula × Nat} {p : Plan} {text : String}
    (hparse : Formula.parse text = .ok f.1) (hplan : Plan.ofFormula text schema f.2 = .ok p) :
    schema.HasPlan f p := by
  obtain ⟨f', hparse', hplans⟩ := Plan.ofFormula_eq_ok_iff.1 hplan
  rw [hparse] at hparse'
  cases hparse'
  exact ⟨Formula.wellFormed_of_parse hparse, hplans⟩

/-- The plans of formulas are plans of one scope, which allows paths as long as any of the formulas. -/
private theorem exists_compiled (h : List.Forall₂ (fun f field => schema.HasPlan f field.2) fs fields) :
    ∃ maxDepth, ∀ field ∈ fields, Scope.Compiled (schema.scope maxDepth) field.2 := by
  refine ⟨(fs.map Prod.snd).sum, ?_⟩
  intro field hfield
  obtain ⟨f, hf, hwf, hplans⟩ := exists_mem_of_forall₂ h.flip hfield
  have hle : f.2 ≤ (fs.map Prod.snd).sum := List.le_sum_of_mem (List.mem_map_of_mem hf)
  exact (hplans.of_depth_le hle).compiled hwf

/-- What some plan registers is what some formula uses. -/
private theorem exists_registers_iff (h : List.Forall₂ (fun f field => schema.HasPlan f field.2) fs fields)
    {P : Plan → Prop} {Q : Formula × Nat → Prop} (hiff : ∀ f p, (schema.scope f.2).Registers f.1 p → (P p ↔ Q f)) :
    (∃ field ∈ fields, P field.2) ↔ ∃ f ∈ fs, Q f := by
  constructor
  · rintro ⟨field, hfield, hp⟩
    obtain ⟨f, hf, hwf, hplans⟩ := exists_mem_of_forall₂ h.flip hfield
    exact ⟨f, hf, (hiff f field.2 (hplans.registers hwf)).1 hp⟩
  · rintro ⟨f, hf, hq⟩
    obtain ⟨field, hfield, hwf, hplans⟩ := exists_mem_of_forall₂ h hf
    exact ⟨field, hfield, (hiff f field.2 (hplans.registers hwf)).2 hq⟩

private theorem Assembly.gathers (h : List.Forall₂ (fun f field => schema.HasPlan f field.2) fs fields)
    {maxDepth : Nat} {m : KeyMap Aggregate} (hm : m.Collects Aggregate.id (schema.scope maxDepth).IsAggregate)
    (hmem : ∀ a, a ∈ m.values ↔ ∃ field ∈ fields, a ∈ field.2.aggregates.values) : Gathers schema fs maxDepth m := by
  refine ⟨hm, ?_, ?_, ?_⟩
  · intro f hf
    obtain ⟨field, -, hwf, -⟩ := exists_mem_of_forall₂ h hf
    exact hwf
  · intro f hf
    obtain ⟨field, -, -, hplans⟩ := exists_mem_of_forall₂ h hf
    exact ⟨field.2, hplans⟩
  · intro a
    exact (hmem a).trans (exists_registers_iff h fun f p hregisters => hregisters.aggregates a)

private theorem exists_chain_iff (h : List.Forall₂ (fun f field => schema.HasPlan f field.2) fs fields)
    {m : KeyMap Join} (hmem : ∀ j, j ∈ m.values ↔ ∃ field ∈ fields, j ∈ field.2.joins.values) (chain : List String) :
    (∃ j ∈ m.values, j.chain = chain) ↔ ∃ f ∈ fs, f.1.Passes schema chain := by
  have hjoin : ∀ j, j ∈ m.values ↔ ∃ f ∈ fs, (schema.scope f.2).JoinOf f.1 j := fun j =>
    (hmem j).trans (exists_registers_iff h fun f p hregisters => hregisters.joins j)
  constructor
  · rintro ⟨j, hj, hchain⟩
    obtain ⟨f, hf, hj⟩ := (hjoin j).1 hj
    exact ⟨f, hf, (schema.scope f.2).exists_joinOf_iff.1 ⟨j, hj, hchain⟩⟩
  · rintro ⟨f, hf, hpasses⟩
    obtain ⟨j, hj, hchain⟩ := (schema.scope f.2).exists_joinOf_iff.2 hpasses
    exact ⟨j, (hjoin j).2 ⟨f, hf, hj⟩, hchain⟩

end HasPlan

open Assembly in
/-- Sharing is maximal and loses nothing: the query of a batch of formulas has one join for each beginning of a chain
that is followed outside aggregates, one subquery for each path that is aggregated over, and in it one column for each
aggregate over the path and one join for each beginning of a chain under these. The query is printed with these joins,
subqueries and columns and no others. -/
theorem Batch.assemble_shares {schema : Table} {fs : List (Formula × Nat)} {b : Batch}
    (hb : List.Forall₂ (fun f field => ∃ text, Formula.parse text = .ok f.1 ∧
      Plan.ofFormula text schema f.2 = .ok field.2) fs b.fields)
    (hne : fs ≠ []) : ∃ q, b.assemble schema.name = .ok q ∧ q.Written schema.name ∧ q.Shares schema fs := by
  have hplans : List.Forall₂ (fun f field => schema.HasPlan f field.2) fs b.fields := by
    refine hb.imp ?_
    rintro f field ⟨text, hparse, hplan⟩
    exact Table.hasPlan_of_ofFormula hparse hplan
  have hfields : b.fields ≠ [] := by
    intro e
    rw [e] at hb
    exact hne (List.forall₂_nil_right_iff.1 hb)
  obtain ⟨maxDepth, hcompiled⟩ := exists_compiled hplans
  obtain ⟨parts, hparts, hclosed, hjoins, hcollects, haggregates⟩ := exists_parts hcompiled
  obtain ⟨q, hq, -⟩ := exists_assemble hcompiled hfields
  obtain ⟨-, parts', lookups, subs, items, hparts', hlookups, hsubs, -, rfl⟩ := assemble_eq_ok_iff.1 hq
  rw [hparts] at hparts'
  cases hparts'
  exact ⟨_, hq, Batch.written_of_assemble hq,
    (oneEach_lookupJoins hclosed hlookups).congr (exists_chain_iff hplans hjoins),
    (gathers hplans hcollects haggregates).oneEach_subqueries hsubs⟩

/-- Two formulas over the tangled schema that have a chain outside aggregates, a path and a chain under it in
common, and allow paths of different lengths. -/
theorem Batch.assemble_shares_tangled :
    ∃ f g p q, Formula.parse "SUM_AGG(orders.lines, rep_rel.region_rel.quota) - rep_rel.region_rel.quota" = .ok f ∧
      Formula.parse "Rep_Rel.Name & STRING_AGG(Orders.Lines, Rep_Rel.Name, \"; \")" = .ok g ∧
      (p.joins.size = 2 ∧ p.aggregates.size = 1) ∧ (q.joins.size = 1 ∧ q.aggregates.size = 1) ∧
      ∃ query, Batch.assemble ⟨[("balance", p), ("ra\"tio", q)]⟩ Table.tangled.name = .ok query ∧
        query.Written Table.tangled.name ∧ query.Shares .tangled [(f, 2), (g, 3)] := by
  obtain ⟨p, hp, hsize⟩ := exists_ofFormula_of_check
    "SUM_AGG(orders.lines, rep_rel.region_rel.quota) - rep_rel.region_rel.quota" .tangled 2
    (fun p => p.joins.size = 2 ∧ p.aggregates.size = 1) (by decide +kernel)
  obtain ⟨q, hq, hsize'⟩ := exists_ofFormula_of_check
    "Rep_Rel.Name & STRING_AGG(Orders.Lines, Rep_Rel.Name, \"; \")" .tangled 3
    (fun q => q.joins.size = 1 ∧ q.aggregates.size = 1) (by decide +kernel)
  obtain ⟨f, hf, -⟩ := Plan.ofFormula_eq_ok_iff.1 hp
  obtain ⟨g, hg, -⟩ := Plan.ofFormula_eq_ok_iff.1 hq
  exact ⟨f, g, p, q, hf, hg, hsize, hsize',
    Batch.assemble_shares (.cons ⟨_, hf, hp⟩ (.cons ⟨_, hg, hq⟩ .nil)) (List.cons_ne_nil _ _)⟩

end FormulaQuery
