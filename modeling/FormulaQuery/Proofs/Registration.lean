import FormulaQuery.Proofs.Decoding
import FormulaQuery.Proofs.Evaluation

/-!
# What a plan registers

The joins of a plan lead along whole routes: with each join the map holds the one that it starts from
(`JoinsClosed`). Its aggregates are those of its scope (`Scope.IsAggregate`). Both are known by their identifiers,
so parts that several plans have in common by their identifiers are equal (`Plan.eq_of_shared_ids`). Every part of
the expression of a plan is the expression of a plan that registers no more (`Scope.Compiled.exists_of_within`).
-/

namespace FormulaQuery

/-! ### Joins -/

/-- Joins of a table in a context; with each join there is the one that it starts from. -/
structure JoinsClosed (t : Table) (context : Context) (m : KeyMap Join) : Prop
    extends KeyMap.Collects Join.id (Hop.IsJoin t context) m where
  parent : ∀ j ∈ m.values, ∀ chain, j.parentChain? = some chain → ∃ i ∈ m.values, i.chain = chain

namespace JoinsClosed

variable {t : Table} {context : Context}

private theorem id_inj (i j : Join) (hi : Hop.IsJoin t context i) (hj : Hop.IsJoin t context j) (e : i.id = j.id) :
    i = j :=
  hi.eq_of_id_eq hj e

theorem empty : JoinsClosed t context .empty := ⟨KeyMap.collects_empty, nofun⟩

theorem parentChain?_join (k : Hop) (init : List Hop) :
    (k.join context (Hop.names init)).parentChain? = if init = [] then none else some (Hop.names init) := by
  show (if (Hop.names init ++ [k.name]).length ≤ 1 then none else some (Hop.names init ++ [k.name]).dropLast) = _
  rw [List.dropLast_concat, List.length_append, Hop.names, List.length_map]
  cases init with
  | nil => rfl
  | cons h init => rw [if_neg (by simp), if_neg (by simp)]

/-- The joins along a route, and that they are all of them. -/
theorem of_route {hops : List Hop} (h : Hop.Route Table.direct t hops) :
    JoinsClosed t context (KeyMap.empty.insertAll Join.id (Hop.joins context [] hops)) ∧
      ∀ j, j ∈ (KeyMap.empty.insertAll Join.id (Hop.joins context [] hops)).values ↔
      j ∈ Hop.joins context [] hops := by
  obtain ⟨hcollects, hmem⟩ := KeyMap.collects_insertAll (P := Hop.IsJoin t context) id_inj
    fun j hj => Hop.isJoin_of_mem_joins h hj
  refine ⟨⟨hcollects, ?_⟩, hmem⟩
  intro j hj chain hchain
  obtain ⟨init, k, rest, rfl, rfl⟩ := Hop.mem_joins ((hmem j).1 hj)
  rw [parentChain?_join] at hchain
  rcases List.eq_nil_or_concat init with rfl | ⟨front, k', rfl⟩
  · cases hchain
  · rw [if_neg (by simp)] at hchain
    cases hchain
    refine ⟨k'.join context (Hop.names front), (hmem _).2 ?_, ?_⟩
    · rw [List.concat_eq_append, List.append_assoc]
      exact Hop.join_mem_joins context front k' (k :: rest)
    · rw [List.concat_eq_append, Hop.names_append]
      rfl

/-- Taking joins of several maps together. -/
theorem foldl_union {β : Type} (f : β → KeyMap Join) {m : KeyMap Join} (hm : JoinsClosed t context m) {bs : List β}
    (h : ∀ b ∈ bs, JoinsClosed t context (f b)) :
    JoinsClosed t context (bs.foldl (fun m b => m.union (f b)) m) ∧
      ∀ j, j ∈ (bs.foldl (fun m b => m.union (f b)) m).values ↔ j ∈ m.values ∨ ∃ b ∈ bs, j ∈ (f b).values := by
  obtain ⟨hcollects, hmem⟩ := hm.toCollects.foldl_union f id_inj fun b hb => (h b hb).toCollects
  refine ⟨⟨hcollects, ?_⟩, hmem⟩
  intro j hj chain hchain
  rcases (hmem j).1 hj with hj | ⟨b, hb, hj⟩
  · obtain ⟨i, hi, e⟩ := hm.parent j hj chain hchain
    exact ⟨i, (hmem i).2 (Or.inl hi), e⟩
  · obtain ⟨i, hi, e⟩ := (h b hb).parent j hj chain hchain
    exact ⟨i, (hmem i).2 (Or.inr ⟨b, hb, hi⟩), e⟩

/-- The joins of plans that are combined. -/
theorem combine (e : Expression) {plans : List Plan} (h : ∀ p ∈ plans, JoinsClosed t context p.joins) :
    JoinsClosed t context (Plan.combine e plans).joins ∧
      ∀ j, j ∈ (Plan.combine e plans).joins.values ↔ ∃ p ∈ plans, j ∈ p.joins.values := by
  obtain ⟨hclosed, hmem⟩ := JoinsClosed.empty.foldl_union Plan.joins h
  refine ⟨hclosed, fun j => (hmem j).trans ?_⟩
  rw [KeyMap.values_empty]
  simp

end JoinsClosed

/-- A plan that registers no more than another one. -/
structure Plan.Below (q p : Plan) : Prop where
  joins : ∀ j ∈ q.joins.values, j ∈ p.joins.values
  aggregates : ∀ a ∈ q.aggregates.values, a ∈ p.aggregates.values

/-! ### Aggregates -/

namespace Scope

/-- The aggregate of `inner` over the rows at a destination. -/
def aggregateEntry (s : Scope) (f : AggregateFunction) (d : Destination) (inner : Plan) (delimiter : Option Plan) :
    Aggregate where
  id := (s.aggregate f d inner delimiter).id
  function := f
  relation := ".".intercalate (Hop.names d.hops)
  source := s.table.name
  links := d.hops.map Hop.pathLink
  expression := inner.expression
  delimiter := delimiter.map (·.expression)
  joins := inner.joins
  context := s.context
  innerContext := (s.nested d).context
  type := f.resultType inner.expression.type

/-- The aggregates that plans of a scope can read. -/
inductive IsAggregate (s : Scope) : Aggregate → Prop
  | intro {f : AggregateFunction} {d : Destination} {inner : Plan} {delimiter : Option Plan} (hm : s.context = .main)
    (hd : s.IsDestination d) (hi : Compiled (s.nested d) inner) (hp : ∀ p ∈ delimiter, Compiled s p)
    (hc : ∀ p ∈ delimiter, p.expression.IsConstant) : IsAggregate s (s.aggregateEntry f d inner delimiter)

/-- Within one scope an aggregate is known by its identifier. -/
theorem IsAggregate.eq_of_id_eq {s : Scope} {a b : Aggregate} (ha : s.IsAggregate a) (hb : s.IsAggregate b)
    (e : a.id = b.id) : a = b := by
  cases ha with
  | intro hm hd hi hp hc =>
    cases hb with
    | intro hm' hd' hi' hp' hc' =>
      have htext := congrArg (·.toList ++ []) e
      simp only [aggregateEntry] at htext
      obtain ⟨⟨rfl, rfl, rfl, rfl⟩, -⟩ := aggregate_append_inj hd hd' (fun h => hi.discerned (h ▸ hi'))
        (fun p h q h' => (hp p h).discerned (hp' q h')) htext
      rfl

/-! ### Compiled plans -/

variable {s : Scope} {p : Plan}

theorem Compiled.joinsClosed (h : Compiled s p) : JoinsClosed s.table s.context p.joins := by
  induction h with
  | number | string | boolean | null | date | column => exact .empty
  | related s hr => exact (JoinsClosed.of_route hr).1
  | negate hp ih =>
    refine (JoinsClosed.combine _ ?_).1
    intro p hmem
    rw [List.mem_singleton.1 hmem]
    exact ih
  | binary hp hq ht ihp ihq =>
    refine (JoinsClosed.combine _ ?_).1
    intro p hmem
    rcases List.mem_cons.1 hmem with rfl | hmem
    · exact ihp
    · rw [List.mem_singleton.1 hmem]
      exact ihq
  | call hs ha hp hl ht hm ih => exact (JoinsClosed.combine _ ih).1
  | @aggregate s f d inner delimiter hm hd hi hp hc ihi ihp =>
    exact (JoinsClosed.combine (s.aggregate f d inner delimiter).expression
      fun p hmem => ihp p (Option.mem_toList.1 hmem)).1

private theorem aggregate_id_inj (a b : Aggregate) (ha : s.IsAggregate a) (hb : s.IsAggregate b) (e : a.id = b.id) :
    a = b :=
  ha.eq_of_id_eq hb e

/-- The aggregates of plans that are combined. -/
theorem collects_combine (e : Expression) {plans : List Plan}
    (h : ∀ p ∈ plans, p.aggregates.Collects Aggregate.id s.IsAggregate) :
    (Plan.combine e plans).aggregates.Collects Aggregate.id s.IsAggregate ∧
      ∀ a, a ∈ (Plan.combine e plans).aggregates.values ↔ ∃ p ∈ plans, a ∈ p.aggregates.values := by
  obtain ⟨hcollects, hmem⟩ := KeyMap.collects_empty.foldl_union Plan.aggregates aggregate_id_inj h
  refine ⟨hcollects, fun a => (hmem a).trans ?_⟩
  rw [KeyMap.values_empty]
  simp

/-- An aggregate beside those of its delimiter. -/
theorem collects_aggregate {f : AggregateFunction} {d : Destination} {inner : Plan} {delimiter : Option Plan}
    (ha : s.IsAggregate (s.aggregateEntry f d inner delimiter))
    (h : ∀ p ∈ delimiter, p.aggregates.Collects Aggregate.id s.IsAggregate) :
    (s.aggregate f d inner delimiter).aggregates.Collects Aggregate.id s.IsAggregate ∧
      ∀ b, b ∈ (s.aggregate f d inner delimiter).aggregates.values ↔
        b = s.aggregateEntry f d inner delimiter ∨ ∃ p ∈ delimiter, b ∈ p.aggregates.values := by
  obtain ⟨hcollects, hmem⟩ := collects_combine (s.aggregate f d inner delimiter).expression
    fun p hp => h p (Option.mem_toList.1 hp)
  have hmem' := fun b => KeyMap.mem_values_insertNew hcollects.toKeyed
    (fun c hc e => (hcollects.all c hc).eq_of_id_eq ha e) (x := b)
  refine ⟨⟨hcollects.toKeyed.insertNew (s.aggregateEntry f d inner delimiter), ?_⟩, ?_⟩
  · intro b hb
    rcases (hmem' b).1 hb with rfl | hb
    · exact ha
    · exact hcollects.all b hb
  · intro b
    refine (hmem' b).trans ?_
    rw [hmem b]
    simp

theorem Compiled.collects (h : Compiled s p) : p.aggregates.Collects Aggregate.id s.IsAggregate := by
  induction h with
  | number | string | boolean | null | date | column | related => exact KeyMap.collects_empty
  | negate hp ih =>
    refine (collects_combine _ ?_).1
    intro p hmem
    rw [List.mem_singleton.1 hmem]
    exact ih
  | binary hp hq ht ihp ihq =>
    refine (collects_combine _ ?_).1
    intro p hmem
    rcases List.mem_cons.1 hmem with rfl | hmem
    · exact ihp
    · rw [List.mem_singleton.1 hmem]
      exact ihq
  | call hs ha hp hl ht hm ih => exact (collects_combine _ ih).1
  | @aggregate s f d inner delimiter hm hd hi hp hc ihi ihp =>
    exact (collects_aggregate (.intro hm hd hi hp hc) fun p hmem => ihp p hmem).1

/-! ### Parts of expressions -/

private theorem below_combine {e : Expression} {plans : List Plan} (h : ∀ p ∈ plans, Compiled s p) (hp : p ∈ plans) :
    p.Below (.combine e plans) :=
  ⟨fun j hj => ((JoinsClosed.combine e fun q hq => (h q hq).joinsClosed).2 j).2 ⟨p, hp, hj⟩,
    fun a ha => ((collects_combine e fun q hq => (h q hq).collects).2 a).2 ⟨p, hp, ha⟩⟩

private theorem Compiled.exists_of_child (h : Compiled s p) {c : Expression} (hc : c ∈ p.expression.children) :
    ∃ q, Compiled s q ∧ q.expression = c ∧ q.Below p := by
  cases h with
  | number | string | boolean | null | date | column | related | aggregate => cases hc
  | @negate _ p hp =>
    have hall : ∀ r ∈ [p], Compiled s r := by simpa using hp
    rw [List.mem_singleton.1 hc]
    exact ⟨p, hp, rfl, below_combine hall List.mem_cons_self⟩
  | @binary _ p q op type hp hq ht =>
    have hall : ∀ r ∈ [p, q], Compiled s r := by simpa using ⟨hp, hq⟩
    rcases List.mem_cons.1 hc with rfl | hc
    · exact ⟨p, hp, rfl, below_combine hall List.mem_cons_self⟩
    · rw [List.mem_singleton.1 hc]
      exact ⟨q, hq, rfl, below_combine hall (List.mem_cons_of_mem _ List.mem_cons_self)⟩
  | call hs ha hp hl ht =>
    obtain ⟨q, hq, rfl⟩ := List.mem_map.1 hc
    exact ⟨q, hp q hq, rfl, below_combine hp hq⟩

/-- Every part of the expression of a plan is the expression of a plan that registers no more. -/
theorem Compiled.exists_of_within (h : Compiled s p) {e : Expression} (hw : e.Within p.expression) :
    ∃ q, Compiled s q ∧ q.expression = e ∧ q.Below p := by
  generalize hwhole : p.expression = whole at hw
  induction hw generalizing p with
  | refl => exact ⟨p, h, hwhole, fun _ hj => hj, fun _ ha => ha⟩
  | child hc hw ih =>
    subst hwhole
    obtain ⟨q, hq, rfl, hqp⟩ := h.exists_of_child hc
    obtain ⟨r, hr, rfl, hrq⟩ := ih hq rfl
    exact ⟨r, hr, rfl, fun j hj => hqp.joins j (hrq.joins j hj), fun a ha => hqp.aggregates a (hrq.aggregates a ha)⟩

/-- A column of a related table is read through the last join of a route, which is registered. -/
theorem Compiled.exists_of_related (h : Compiled s p) {info : Info} {join column : String}
    (hw : (Expression.related info join column).Within p.expression) :
    ∃ init last, Hop.Route Table.direct s.table (init ++ [last]) ∧
      (last.join s.context (Hop.names init)).id = join ∧ last.join s.context (Hop.names init) ∈ p.joins.values := by
  obtain ⟨q, hq, he, hqp⟩ := h.exists_of_within hw
  cases hq with
  | @related _ init last name type hr hn hget =>
    cases he
    refine ⟨init, last, hr, rfl, hqp.joins _ (((JoinsClosed.of_route hr).2 _).2 ?_)⟩
    exact Hop.join_mem_joins s.context init last []
  | _ => cases he

/-- An aggregate that an expression refers to is registered. -/
theorem Compiled.exists_of_aggregate (h : Compiled s p) {info : Info} {ref : String}
    (hw : (Expression.aggregate info ref).Within p.expression) : ∃ a ∈ p.aggregates.values, a.id = ref := by
  obtain ⟨q, hq, he, hqp⟩ := h.exists_of_within hw
  cases hq with
  | @aggregate _ f d inner delimiter hm hd hi hp hc =>
    cases he
    have hmem := ((collects_aggregate (.intro (f := f) hm hd hi hp hc) fun r hr => (hp r hr).collects).2 _).2
      (Or.inl rfl)
    exact ⟨_, hqp.aggregates _ hmem, rfl⟩
  | _ => cases he

/-- A function that is called stands in the catalog, is no aggregate, and has no more arguments than it takes. -/
theorem Compiled.exists_of_call (h : Compiled s p) {info : Info} {function : String} {args : List Expression}
    (hw : (Expression.call info function args).Within p.expression) :
    ∃ sig ∈ Signature.catalog, AggregateFunction.ofName? sig.name = none ∧ sig.name = function ∧
      ∀ m ∈ sig.maxArity?, args.length ≤ m := by
  obtain ⟨q, hq, he, -⟩ := h.exists_of_within hw
  cases hq with
  | call hs ha hp hl ht hm =>
    cases he
    refine ⟨_, hs, ha, rfl, ?_⟩
    rwa [List.length_map]
  | _ => cases he

end Scope

/-! ### Shared identifiers -/

/-- Sharing by identifiers is sound: joins, aggregates and expressions of two formulas over one schema that have equal
identifiers are equal, whatever the names of tables and join columns are. -/
theorem Plan.eq_of_shared_ids {schema : Table} {maxDepth : Nat} {f g : String} {p q : Plan}
    (hp : Plan.ofFormula f schema maxDepth = .ok p) (hq : Plan.ofFormula g schema maxDepth = .ok q) :
    (∀ i ∈ p.joins.values, ∀ j ∈ q.joins.values, i.id = j.id → i = j) ∧
      (∀ a ∈ p.aggregates.values, ∀ b ∈ q.aggregates.values, a.id = b.id → a = b) ∧
      (p.expression.info.id = q.expression.info.id → p.expression = q.expression) := by
  have hp := Plan.compiled_of_ofFormula hp
  have hq := Plan.compiled_of_ofFormula hq
  refine ⟨?_, ?_, ?_⟩
  · intro i hi j hj e
    exact (hp.joinsClosed.all i hi).eq_of_id_eq (hq.joinsClosed.all j hj) e
  · intro a ha b hb e
    exact (hp.collects.all a ha).eq_of_id_eq (hq.collects.all b hb) e
  · intro e
    have heq := (hp.discerned hq [] [] (congrArg (·.toList ++ []) e)).1
    rw [heq]

theorem Plan.eq_of_shared_ids_tangled :
    ∃ p q, Plan.ofFormula "SUM_AGG(orders.lines, amount) - rep_rel.region_rel.quota" .tangled 3 = .ok p ∧
      Plan.ofFormula "Rep_Rel.Region_REL.Quota * sum_agg(Orders.Lines, Amount)" .tangled 3 = .ok q ∧
      (p.joins.size = 2 ∧ p.aggregates.size = 1) ∧ (q.joins.size = 2 ∧ q.aggregates.size = 1) ∧
      (∀ i ∈ p.joins.values, ∀ j ∈ q.joins.values, i.id = j.id → i = j) ∧
      (∀ a ∈ p.aggregates.values, ∀ b ∈ q.aggregates.values, a.id = b.id → a = b) ∧
      (p.expression.info.id = q.expression.info.id → p.expression = q.expression) := by
  obtain ⟨p, q, hp, hq, hsize, hsize'⟩ := exists_tangled_plans
  exact ⟨p, q, hp, hq, hsize, hsize', Plan.eq_of_shared_ids hp hq⟩

end FormulaQuery
