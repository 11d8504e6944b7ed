import FormulaQuery.Proofs.Registration
import Mathlib.Data.List.Sort

/-!
# What an expression depends on

Every expression lists the joins that it reads through, and a plan registers joins and aggregates on the side. The
two accounts agree (`Plan.closed_of_ofFormula`): a plan registers exactly the joins that its expression lists and
exactly the aggregates that its expression refers to. An aggregate keeps the joins of what it folds to itself, and
nothing in it belongs to the context around it.
-/

namespace FormulaQuery

/-! ### Keys -/

/-- Keys in ascending order are known from what they are. -/
theorem KeyMap.eq_sortKeys {as ks : List String} (has : as.Pairwise (· < ·)) (h : ∀ k, k ∈ as ↔ k ∈ ks) :
    as = sortKeys ks := by
  have : Std.Irrefl fun a b : String => a < b := ⟨String.lt_irrefl⟩
  have : Std.Antisymm fun a b : String => a < b := ⟨fun a b hab hba => absurd hab (String.lt_asymm hba)⟩
  refine has.eq_of_mem_iff (ascending_sortKeys ks) ?_
  intro k
  rw [h k, mem_sortKeys]

private theorem KeyMap.Keyed.keys_eq_sortKeys {α : Type} {id : α → String} {m : KeyMap α} (hm : m.Keyed id)
    {ks : List String} (h : ∀ k, k ∈ m.keys ↔ k ∈ ks) : m.keys = sortKeys ks :=
  eq_sortKeys (List.pairwise_map.2 hm.ascending) h

/-! ### Where joins start -/

namespace Hop

private theorem Route.source_eq {kind : Table → NameMap (Link Table)} {t : Table} {front : List Hop} {up k : Hop}
    (h : Route kind t (front ++ [up, k])) : k.source = up.link.target.name := by
  induction front generalizing t with
  | nil => exact h.2.2.2.1
  | cons i front ih => exact ih h.2.2.2

/-- A join over one relationship starts from the table of the scope. -/
theorem IsJoin.source_eq {t : Table} {context : Context} {j : Join} (h : IsJoin t context j)
    (hl : j.chain.length = 1) : j.source = t.name := by
  obtain ⟨init, k, hr, rfl⟩ := h
  cases init with
  | nil => exact hr.1
  | cons i init => simp [Hop.join, Hop.names] at hl

theorem IsJoin.context_eq {t : Table} {context : Context} {j : Join} (h : IsJoin t context j) :
    j.context = context := by
  obtain ⟨init, k, -, rfl⟩ := h
  rfl

end Hop

/-- A join over a longer chain starts from the table that the chain before it leads to. -/
theorem JoinsClosed.exists_parent {t : Table} {context : Context} {m : KeyMap Join} (hm : JoinsClosed t context m)
    {j : Join} (hj : j ∈ m.values) (hl : 1 < j.chain.length) :
    ∃ i ∈ m.values, i.chain = j.chain.dropLast ∧ i.target = j.source := by
  have hparent := hm.parent j hj
  obtain ⟨init, k, hr, rfl⟩ := hm.all j hj
  rcases List.eq_nil_or_concat init with rfl | ⟨front, up, rfl⟩
  · exact absurd hl (by simp [Hop.join, Hop.names])
  rw [List.concat_eq_append] at *
  obtain ⟨i, hi, hchain⟩ := hparent _ (by rw [JoinsClosed.parentChain?_join, if_neg (by simp)])
  have heq : i = up.join context (Hop.names front) := by
    refine (hm.all i hi).eq_of_chain_eq ⟨front, up, hr.take, rfl⟩ ?_
    rw [hchain, Hop.names_append]
    rfl
  refine ⟨i, hi, ?_, ?_⟩
  · rw [hchain]
    exact List.dropLast_concat.symm
  · rw [List.append_assoc] at hr
    rw [heq]
    exact hr.source_eq.symm

/-! ### Closed plans -/

/-- The expression reads through the joins of a map and no others. All is in one context, the joins over one
relationship start from the table `start`, and each longer one from the join over the chain before it. -/
structure Expression.ClosedOver (e : Expression) (joins : KeyMap Join) (start : String) (context : Context) :
    Prop where
  keys : joins.keys = e.info.joins
  key_eq : ∀ entry ∈ joins.entries, entry.1 = entry.2.id
  first : ∀ j ∈ joins.values, j.chain.length = 1 → j.source = start
  parent : ∀ j ∈ joins.values, 1 < j.chain.length →
    ∃ i ∈ joins.values, i.chain = j.chain.dropLast ∧ i.context = j.context ∧ i.target = j.source
  join_context : ∀ j ∈ joins.values, j.context = context
  part_context : ∀ part : Expression, part.Within e → part.info.context = context

/-- No aggregate occurs in the expression. -/
def Expression.IsFlat (e : Expression) : Prop := ∀ info ref, ¬(Expression.aggregate info ref).Within e

/-- What is folded is closed over the joins of the aggregate, from the table at the end of its path, and what is put
between texts reads through no join. -/
structure Aggregate.Closed (a : Aggregate) : Prop where
  expression : ∃ last, a.links.getLast? = some last ∧ a.expression.ClosedOver a.joins last.table a.innerContext
  expression_flat : a.expression.IsFlat
  delimiter_joins : ∀ d ∈ a.delimiter, d.info.joins = []
  delimiter_flat : ∀ d ∈ a.delimiter, d.IsFlat

/-- The plan registers what its expression reads, and nothing else. -/
structure Plan.Closed (p : Plan) (schema : Table) : Prop where
  expression : p.expression.ClosedOver p.joins schema.name .main
  aggregate_keys : ∀ key, key ∈ p.aggregates.keys ↔ ∃ info, (Expression.aggregate info key).Within p.expression
  aggregate_id : ∀ info ref, (Expression.aggregate info ref).Within p.expression → info.id = ref
  aggregate_key_eq : ∀ entry ∈ p.aggregates.entries, entry.1 = entry.2.id
  aggregates : ∀ a ∈ p.aggregates.values, a.Closed

/-! ### Compiled plans are closed -/

/-- No column of a related table is read. -/
def Expression.IsLocal (e : Expression) : Prop := ∀ info join name, ¬(Expression.related info join name).Within e

private theorem Expression.IsLocal.child {e c : Expression} (h : e.IsLocal) (hc : c ∈ e.children) : c.IsLocal :=
  fun info join name hw => h info join name (.child hc hw)

namespace Scope

variable {s : Scope} {p : Plan}

/-- An expression that reads no related table depends on no join. -/
theorem Compiled.joins_of_isLocal (h : Compiled s p) (hc : p.expression.IsLocal) : p.expression.info.joins = [] := by
  induction h with
  | number | string | boolean | null | date | column | aggregate => rfl
  | related s hr hn hget => exact absurd (.refl _) (hc _ _ _)
  | @negate s p hp ih =>
    show KeyMap.sortKeys ([] ++ [p.expression].flatMap (·.info.joins)) = []
    rw [List.flatMap_singleton, ih (hc.child List.mem_cons_self)]
    rfl
  | @binary s p q op type hp hq ht ihp ihq =>
    show KeyMap.sortKeys ([] ++ [p.expression, q.expression].flatMap (·.info.joins)) = []
    rw [List.flatMap_cons, List.flatMap_singleton, ihp (hc.child List.mem_cons_self),
      ihq (hc.child (List.mem_cons_of_mem _ List.mem_cons_self))]
    rfl
  | @call s sig type plans pos args hs ha hp hl ht hm ih =>
    show KeyMap.sortKeys ([] ++ (plans.map (·.expression)).flatMap (·.info.joins)) = []
    have hnil : (plans.map (·.expression)).flatMap (·.info.joins) = [] := by
      rw [List.flatMap_eq_nil_iff]
      intro e he
      obtain ⟨q, hq, rfl⟩ := List.mem_map.1 he
      exact ih q hq (hc.child he)
    rw [hnil]
    rfl

/-- Plans that are combined register the joins that their expressions depend on. -/
private theorem keys_combine (e : Expression) {plans : List Plan} (hc : ∀ p ∈ plans, Compiled s p)
    (h : ∀ p ∈ plans, p.joins.keys = p.expression.info.joins) :
    (Plan.combine e plans).joins.keys = KeyMap.sortKeys ((plans.map (·.expression)).flatMap (·.info.joins)) := by
  refine (JoinsClosed.combine e fun p hp => (hc p hp).joinsClosed).1.toKeyed.keys_eq_sortKeys ?_
  intro k
  refine (KeyMap.mem_keys_foldl_union Plan.joins).trans ((or_iff_right List.not_mem_nil).trans ?_)
  rw [List.mem_flatMap]
  constructor
  · rintro ⟨p, hp, hk⟩
    exact ⟨p.expression, List.mem_map_of_mem hp, h p hp ▸ hk⟩
  · rintro ⟨e, he, hk⟩
    obtain ⟨p, hp, rfl⟩ := List.mem_map.1 he
    exact ⟨p, hp, (h p hp).symm ▸ hk⟩

/-- The joins that are registered are those that the expression depends on. -/
theorem Compiled.keys_joins (h : Compiled s p) : p.joins.keys = p.expression.info.joins := by
  induction h with
  | number | string | boolean | null | date | column => rfl
  | @related s init last name type hr hn hget =>
    obtain ⟨hclosed, hmem⟩ : JoinsClosed s.table s.context _ ∧ _ := JoinsClosed.of_route hr
    show (KeyMap.empty.insertAll Join.id (Hop.joins s.context [] (init ++ [last]))).keys = KeyMap.sortKeys (_ ++ [])
    refine hclosed.toKeyed.keys_eq_sortKeys ?_
    intro k
    rw [hclosed.toKeyed.mem_keys, List.append_nil, List.mem_map]
    simp only [hmem]
  | @negate s p hp ih => exact keys_combine _ (by simpa using hp) (by simpa using ih)
  | @binary s p q op type hp hq ht ihp ihq =>
    exact keys_combine _ (by simpa using ⟨hp, hq⟩) (by simpa using ⟨ihp, ihq⟩)
  | call hs ha hp hl ht hm ih => exact keys_combine _ hp ih
  | @aggregate s f d inner delimiter hm hd hi hp hc ihi ihp =>
    have hkeys := keys_combine (s.aggregate f d inner delimiter).expression
      (fun p hmem => hp p (Option.mem_toList.1 hmem)) fun p hmem => ihp p (Option.mem_toList.1 hmem)
    have hnil : (delimiter.toList.map (·.expression)).flatMap (·.info.joins) = [] := by
      rw [List.flatMap_eq_nil_iff]
      intro e he
      obtain ⟨p, hmem, rfl⟩ := List.mem_map.1 he
      have hmem := Option.mem_toList.1 hmem
      exact (hp p hmem).joins_of_isLocal (hc p hmem).related
    rw [hnil] at hkeys
    exact hkeys

private theorem exists_mem_of_mem_combine {e : Expression} (plans : List Plan) (hc : ∀ p ∈ plans, Compiled s p)
    {a : Aggregate} (ha : a ∈ (Plan.combine e plans).aggregates.values) : ∃ p ∈ plans, a ∈ p.aggregates.values :=
  ((collects_combine e fun p hp => (hc p hp).collects).2 a).1 ha

/-- An aggregate that is registered is referred to. -/
theorem Compiled.exists_within_of_mem (h : Compiled s p) {a : Aggregate} (ha : a ∈ p.aggregates.values) :
    ∃ info, (Expression.aggregate info a.id).Within p.expression := by
  induction h with
  | number | string | boolean | null | date | column | related => cases ha
  | @negate s p hp ih =>
    obtain ⟨q, hq, ha⟩ := exists_mem_of_mem_combine [p] (by simpa using hp) ha
    rw [List.mem_singleton.1 hq] at ha
    obtain ⟨info, hw⟩ := ih ha
    exact ⟨info, .child List.mem_cons_self hw⟩
  | @binary s p q op type hp hq ht ihp ihq =>
    obtain ⟨r, hr, ha⟩ := exists_mem_of_mem_combine [p, q] (by simpa using ⟨hp, hq⟩) ha
    rcases List.mem_pair.1 hr with e | e
    · obtain ⟨info, hw⟩ := ihp (e ▸ ha)
      exact ⟨info, .child List.mem_cons_self hw⟩
    · obtain ⟨info, hw⟩ := ihq (e ▸ ha)
      exact ⟨info, .child (List.mem_cons_of_mem _ List.mem_cons_self) hw⟩
  | @call s sig type plans pos args hs hn hp hl ht hm ih =>
    obtain ⟨q, hq, ha⟩ := exists_mem_of_mem_combine plans hp ha
    obtain ⟨info, hw⟩ := ih q hq ha
    exact ⟨info, .child (List.mem_map_of_mem hq) hw⟩
  | @aggregate s f d inner delimiter hm hd hi hp hc ihi ihp =>
    have hmem := (collects_aggregate (.intro (f := f) hm hd hi hp hc) fun p hp' => (hp p hp').collects).2 a
    rcases hmem.1 ha with rfl | ⟨q, hq, ha⟩
    · exact ⟨_, .refl _⟩
    -- what is put between texts is constant
    · obtain ⟨info, hw⟩ := ihp q hq ha
      exact absurd hw ((hc q hq).aggregate info _)

/-- Every part of an expression is in the context of its scope. -/
theorem Compiled.context_of_within (h : Compiled s p) {e : Expression} (hw : e.Within p.expression) :
    e.info.context = s.context := by
  obtain ⟨q, hq, rfl, -⟩ := h.exists_of_within hw
  cases hq <;> rfl

private theorem Compiled.closedOver (h : Compiled s p) : p.expression.ClosedOver p.joins s.table.name s.context := by
  have hclosed := h.joinsClosed
  have hcontext : ∀ j ∈ p.joins.values, j.context = s.context := fun j hj => (hclosed.all j hj).context_eq
  refine ⟨h.keys_joins, hclosed.key_eq, fun j hj => (hclosed.all j hj).source_eq, ?_, hcontext,
    fun part hw => h.context_of_within hw⟩
  intro j hj hl
  obtain ⟨i, hi, hchain, htarget⟩ := hclosed.exists_parent hj hl
  exact ⟨i, hi, hchain, (hcontext i hi).trans (hcontext j hj).symm, htarget⟩

/-- Aggregates are called in the main context only. -/
theorem Compiled.isFlat_of_nested {d : Destination} (h : Compiled (s.nested d) p) : p.expression.IsFlat := by
  intro info ref hw
  obtain ⟨q, hq, he, -⟩ := h.exists_of_within hw
  cases hq with
  | aggregate hm => cases hm
  | _ => cases he

private theorem IsAggregate.closed {a : Aggregate} (h : s.IsAggregate a) : a.Closed := by
  cases h with
  | @intro f d inner delimiter hm hd hi hp hc =>
    refine ⟨?_, hi.isFlat_of_nested, ?_, ?_⟩
    · obtain ⟨last, hlast, htarget⟩ := Option.map_eq_some_iff.1 hd.target
      refine ⟨last.pathLink, ?_, ?_⟩
      · show (d.hops.map Hop.pathLink).getLast? = _
        rw [List.getLast?_map, hlast]
        rfl
      · rw [show last.pathLink.table = d.target.name from congrArg Table.name htarget]
        exact hi.closedOver
    · intro e he
      obtain ⟨p, hmem, rfl⟩ := Option.mem_map.1 he
      exact (hp p hmem).joins_of_isLocal (hc p hmem).related
    · intro e he
      obtain ⟨p, hmem, rfl⟩ := Option.mem_map.1 he
      exact (hc p hmem).aggregate

end Scope

/-- The plan of a formula is closed and minimal. -/
theorem Plan.closed_of_ofFormula {text : String} {schema : Table} {maxDepth : Nat} {p : Plan}
    (h : Plan.ofFormula text schema maxDepth = .ok p) : p.Closed schema := by
  have hp := Plan.compiled_of_ofFormula h
  refine ⟨hp.closedOver, ?_, ?_, hp.collects.key_eq, fun a ha => (hp.collects.all a ha).closed⟩
  · intro key
    rw [hp.collects.toKeyed.mem_keys]
    constructor
    · rintro ⟨a, ha, rfl⟩
      exact hp.exists_within_of_mem ha
    · rintro ⟨info, hw⟩
      exact hp.exists_of_aggregate hw
  · intro info ref hw
    obtain ⟨q, hq, he, -⟩ := hp.exists_of_within hw
    cases hq with
    | aggregate =>
      cases he
      rfl
    | _ => cases he

theorem Plan.closed_of_ofFormula_tangled :
    ∃ p, Plan.ofFormula "STRING_AGG(orders.lines, rep_rel.name, \", \") & rep_rel.name" .tangled 3 = .ok p ∧
      (p.joins.size = 1 ∧ p.aggregates.values.map (·.joins.size) = [1]) ∧ p.Closed .tangled := by
  obtain ⟨p, hp, hsize⟩ := exists_ofFormula_of_check "STRING_AGG(orders.lines, rep_rel.name, \", \") & rep_rel.name"
    .tangled 3 (fun p => p.joins.size = 1 ∧ p.aggregates.values.map (·.joins.size) = [1]) (by decide +kernel)
  exact ⟨p, hp, hsize, Plan.closed_of_ofFormula hp⟩

end FormulaQuery
