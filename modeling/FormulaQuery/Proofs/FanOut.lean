import FormulaQuery.Proofs.Relational

/-!
# One row for each row of the base table

Every join of a query is a left join on a column that tells the joined rows apart: the primary key of a table, or
the key that a subquery groups by. So a row has at most one partner (`JoinItem.exists_extend`), no join multiplies
rows or drops them, and the FROM clause has the rows of the base table (`Batch.clause_rows_of_assemble`).
-/

namespace FormulaQuery

/-! ### Partners -/

private theorem ColumnRef.value_cons_self {ν : Type} (label name : String) (r : Row ν) (e : JoinedRow ν) :
    (ColumnRef.mk label name).value ((label, r) :: e) = r name := by
  simp [ColumnRef.value]

private theorem ColumnRef.value_cons_of_ne {ν : Type} {c : ColumnRef} {label : String} (h : c.source ≠ label)
    (r : Row ν) (e : JoinedRow ν) : c.value ((label, r) :: e) = c.value e := by
  have hne : (c.source == label) = false := beq_eq_false_iff_ne.2 h
  rw [ColumnRef.value, ColumnRef.value, List.lookup_cons, hne]

section Partners

variable {ν ρ : Type} [DecidableEq ν]

/-- No two rows have the same value in a column, where NULL is no value. -/
def Distinguishes (column : String) (rows : List (Row ν)) : Prop := (rows.filterMap fun r => r column).Nodup

instance (column : String) (rows : List (Row ν)) : Decidable (Distinguishes column rows) :=
  inferInstanceAs (Decidable (List.Nodup _))

private theorem equalValues_iff {a b : Option ν} : equalValues a b = true ↔ ∃ x, a = some x ∧ b = some x := by
  cases a with
  | none => simp [equalValues]
  | some x =>
    cases b with
    | none => simp [equalValues]
    | some y =>
      constructor
      · intro h
        exact ⟨x, rfl, congrArg some (eq_of_beq h).symm⟩
      · rintro ⟨z, ⟨⟩, ⟨⟩⟩
        exact beq_self_eq_true x

private theorem equalValues_comm (a b : Option ν) : equalValues a b = equalValues b a := by
  rw [Bool.eq_iff_iff, equalValues_iff, equalValues_iff]
  simp only [and_comm]

/-- At most one row has a given value. -/
theorem Distinguishes.length_filter_le {column : String} {rows : List (Row ν)} (h : Distinguishes column rows)
    (v : Option ν) : (rows.filter fun r => equalValues v (r column)).length ≤ 1 := by
  induction rows with
  | nil => exact Nat.zero_le 1
  | cons r rows ih =>
    unfold Distinguishes at h ih
    cases hr : r column with
    | none =>
      rw [List.filterMap_cons_none (f := fun r : Row ν => r column) hr] at h
      rw [List.filter_cons_of_neg (by simp [equalValues_iff, hr])]
      exact ih h
    | some x =>
      rw [List.filterMap_cons_some (f := fun r : Row ν => r column) hr, List.nodup_cons] at h
      by_cases hv : equalValues v (r column) = true
      · obtain ⟨y, rfl, hy⟩ := equalValues_iff.1 hv
        rw [hr] at hy
        cases hy
        have hnone : (rows.filter fun r => equalValues (some x) (r column)) = [] := by
          refine List.filter_eq_nil_iff.2 ?_
          intro s hs hsame
          obtain ⟨y, hxy, hy⟩ := equalValues_iff.1 hsame
          cases hxy
          exact h.1 (List.mem_filterMap.2 ⟨s, hs, hy⟩)
        rw [List.filter_cons_of_pos (by exact hv), hnone]
        exact Nat.le_refl 1
      · rw [List.filter_cons_of_neg (by exact hv)]
        exact ih h.2

/-- A left join on a column that tells the joined rows apart gives every row one partner. -/
theorem JoinItem.exists_extend {j : JoinItem ρ} (hleft : j.isLeft = true) {column : String} {rows : List (Row ν)}
    (h : Distinguishes column rows) {e : JoinedRow ν} {v : Option ν}
    (hv : ∀ r, equalValues (j.left.value ((j.label, r) :: e)) (j.right.value ((j.label, r) :: e)) =
      equalValues v (r column)) : ∃ r, j.extend rows e = [(j.label, r) :: e] := by
  have hfound : ((rows.map fun r => (j.label, r) :: e).filter
      fun e => equalValues (j.left.value e) (j.right.value e)) =
      (rows.filter fun r => equalValues v (r column)).map fun r => (j.label, r) :: e := by
    rw [List.filter_map]
    congr 2
    funext r
    exact hv r
  have hlength := h.length_filter_le v
  unfold JoinItem.extend
  rw [hfound]
  generalize (rows.filter fun r => equalValues v (r column)) = found at hlength
  rcases found with _ | ⟨r, _ | ⟨s, found⟩⟩
  · exact ⟨fun _ => none, by simp [hleft]⟩
  · exact ⟨r, by simp⟩
  · simp at hlength

/-! ### Rows are neither multiplied nor dropped -/

/-- A step that gives every row one partner keeps what is bound before it. -/
private theorem map_lookup_flatMap {root : String} {j : JoinItem ρ} (hroot : j.label ≠ root) {rows : List (Row ν)}
    (h : ∀ e, ∃ r, j.extend rows e = [(j.label, r) :: e]) (es : List (JoinedRow ν)) :
    (es.flatMap (j.extend rows)).map (List.lookup root) = es.map (List.lookup root) := by
  induction es with
  | nil => rfl
  | cons e es ih =>
    obtain ⟨r, hr⟩ := h e
    have hne : (root == j.label) = false := beq_eq_false_iff_ne.2 hroot.symm
    rw [List.flatMap_cons, hr, List.map_append, ih, List.map_cons, List.map_cons, List.lookup_cons, hne]
    rfl

private theorem JoinItem.map_lookup_joinAll {root : String} {rows : ρ → List (Row ν)} {js : List (JoinItem ρ)}
    (hroot : ∀ j ∈ js, j.label ≠ root) (h : ∀ j ∈ js, ∀ e, ∃ r, j.extend (rows j.relation) e = [(j.label, r) :: e])
    (es : List (JoinedRow ν)) : (joinAll rows js es).map (List.lookup root) = es.map (List.lookup root) := by
  induction js generalizing es with
  | nil => rfl
  | cons j js ih =>
    obtain ⟨hj, hjs⟩ := List.forall_mem_cons.1 h
    obtain ⟨hrootj, hrootjs⟩ := List.forall_mem_cons.1 hroot
    exact (ih hrootjs hjs _).trans (map_lookup_flatMap hrootj hj es)

end Partners

/-! ### The joins of a query -/

section Joins

variable {ν : Type} [DecidableEq ν]

/-- Databases in which no two rows of a table have the same primary key. -/
def Database.HasKeys (db : Database ν) : Prop := ∀ table, Distinguishes primaryKey (db table)

private theorem LookupJoin.exists_extend {ρ : Type} (relation : String → ρ) {l : LookupJoin}
    (hne : l.parent ≠ l.label) {rows : List (Row ν)} (h : Distinguishes primaryKey rows) (e : JoinedRow ν) :
    ∃ r, (l.item relation).extend rows e = [(l.label, r) :: e] := by
  refine JoinItem.exists_extend rfl h (v := ColumnRef.value ⟨l.parent, l.column⟩ e) ?_
  intro r
  show equalValues (ColumnRef.value ⟨l.parent, l.column⟩ ((l.label, r) :: e))
    (ColumnRef.value ⟨l.label, primaryKey⟩ ((l.label, r) :: e)) = _
  rw [ColumnRef.value_cons_self, ColumnRef.value_cons_of_ne hne]

/-- A select has one row for each key. -/
theorem GroupedSelect.distinguishes_rows (db : Database ν) (fold : Sql → List (JoinedRow ν) → Option ν)
    (g : GroupedSelect) : Distinguishes g.name (g.rows db fold) := by
  unfold Distinguishes GroupedSelect.rows
  simp only [List.filterMap_map]
  refine List.Nodup.filterMap ?_ (List.nodup_dedup _)
  intro a b x ha hb
  simp only [Function.comp_apply, if_true] at ha hb
  exact (Option.mem_def.1 ha).trans (Option.mem_def.1 hb).symm

private theorem Subquery.exists_extend {q : Subquery} (hne : q.label ≠ baseAlias) (db : Database ν)
    (fold : Sql → List (JoinedRow ν) → Option ν) (e : JoinedRow ν) :
    ∃ r, q.item.extend (q.item.relation.rows db fold) e = [(q.label, r) :: e] := by
  refine JoinItem.exists_extend rfl (q.grouped.distinguishes_rows db fold)
    (v := ColumnRef.value ⟨baseAlias, primaryKey⟩ e) ?_
  intro r
  show equalValues (ColumnRef.value ⟨q.label, groupKey⟩ ((q.label, r) :: e))
    (ColumnRef.value ⟨baseAlias, primaryKey⟩ ((q.label, r) :: e)) = _
  rw [ColumnRef.value_cons_self, ColumnRef.value_cons_of_ne hne.symm, equalValues_comm]
  rfl

end Joins

/-! ### Names -/

section Names

variable {ρ : Type} {columns : ρ → String → Bool} {before : KnownAliases}

private theorem ColumnRef.resolves_of_mem {source : String} {known : KnownAliases} (h : (source, anyColumn) ∈ known)
    (name : String) : ColumnRef.resolves ⟨source, name⟩ known = true :=
  List.any_eq_true.2 ⟨_, h, by simp [anyColumn]⟩

namespace JoinItem

private theorem mem_known {js : List (JoinItem ρ)} {k : String × (String → Bool)} :
    k ∈ known columns before js ↔ k ∈ before ∨ ∃ j ∈ js, (j.label, columns j.relation) = k := by
  induction js generalizing before with
  | nil => simp [known]
  | cons j js ih =>
    rw [known, ih, List.mem_cons]
    simp only [List.mem_cons, exists_eq_or_imp, eq_comm (a := k), or_assoc]
    exact or_left_comm

private theorem mem_labels_known {js : List (JoinItem ρ)} {label : String} :
    label ∈ (known columns before js).map (·.1) ↔ label ∈ before.map (·.1) ∨ label ∈ js.map (·.label) := by
  simp only [List.mem_map, mem_known]
  constructor
  · rintro ⟨k, hk | ⟨j, hj, rfl⟩, rfl⟩
    · exact Or.inl ⟨k, hk, rfl⟩
    · exact Or.inr ⟨j, hj, rfl⟩
  · rintro (⟨k, hk, rfl⟩ | ⟨j, hj, rfl⟩)
    · exact ⟨k, Or.inl hk, rfl⟩
    · exact ⟨_, Or.inr ⟨j, hj, rfl⟩, rfl⟩

private theorem Resolved.append {js js' : List (JoinItem ρ)} (h : Resolved columns before js)
    (h' : Resolved columns (known columns before js) js') : Resolved columns before (js ++ js') := by
  induction js generalizing before with
  | nil => exact h'
  | cons j js ih => exact ⟨h.1, ih h.2 h'⟩

/-- Joins with new aliases, whose columns are known from the joins before them. -/
theorem resolved_of_forall {js : List (JoinItem ρ)} (hnodup : (js.map (·.label)).Nodup)
    (hnew : ∀ label ∈ js.map (·.label), label ∉ before.map (·.1))
    (h : ∀ front j back, js = front ++ j :: back → ∀ c ∈ [j.left, j.right],
      c.resolves ((j.label, columns j.relation) :: known columns before front) = true) :
        Resolved columns before js := by
  induction js generalizing before with
  | nil => exact True.intro
  | cons j js ih =>
    obtain ⟨hj, hnodup⟩ := List.nodup_cons.1 hnodup
    obtain ⟨hnewj, hnew⟩ := List.forall_mem_cons.1 hnew
    have hrefs := h [] j js rfl
    refine ⟨⟨hnewj, hrefs _ List.mem_cons_self, hrefs _ (List.mem_cons_of_mem _ List.mem_cons_self)⟩, ih hnodup ?_ ?_⟩
    · intro label hlabel hmem
      rcases List.mem_cons.1 hmem with rfl | hmem
      · exact hj hlabel
      · exact hnew label hlabel hmem
    · intro front i back e
      exact h (j :: front) i back (congrArg (j :: ·) e)

end JoinItem

end Names

/-! ### Joins of a level -/

namespace Assembly

/-- Each join of a level starts from the alias of the level or from that of a join before it. -/
theorem lookupJoins_parent_mem {named : List (Join × String)} {root : String} {lookups front back : List LookupJoin}
    {l : LookupJoin} (hsorted : ByLength named) (h : lookupJoins named root = .ok lookups)
    (hl : lookups = front ++ l :: back) : l.parent ∈ root :: front.map (·.label) := by
  have hspec := lookupJoins_spec h
  rw [hl] at hspec
  have hfront := List.forall₂_take_append named front (l :: back) hspec
  obtain ⟨n, rest, ⟨parent, hparent, rfl⟩, -, hn⟩ :=
    List.forall₂_cons_right_iff.1 (List.forall₂_drop_append named front (l :: back) hspec)
  have hnamed : named = named.take front.length ++ n :: rest := by rw [← hn, List.take_append_drop]
  have hlabels : (named.take front.length).map (·.2) = front.map (·.label) := by
    refine map_eq_map_of_forall₂ (hfront.imp ?_)
    rintro n l ⟨parent, -, rfl⟩
    rfl
  generalize named.take front.length = before at *
  subst hnamed
  rw [← hlabels]
  exact parentAlias_mem_before hsorted hparent

/-- The joins of a level are resolved once its alias is known. -/
theorem resolved_lookupJoins {ρ : Type} {columns : ρ → String → Bool} {relation : String → ρ}
    (hcolumns : ∀ t, columns (relation t) = anyColumn) {named : List (Join × String)} {root : String}
    {lookups : List LookupJoin} (hsorted : ByLength named) (h : lookupJoins named root = .ok lookups)
    {before : KnownAliases} (hroot : (root, anyColumn) ∈ before) (hnodup : (lookups.map (·.label)).Nodup)
    (hnew : ∀ label ∈ lookups.map (·.label), label ∉ before.map (·.1)) :
    JoinItem.Resolved columns before (lookups.map (LookupJoin.item relation)) := by
  have hlabels : (lookups.map (LookupJoin.item relation)).map (·.label) = lookups.map (·.label) := by
    rw [List.map_map]
    rfl
  refine JoinItem.resolved_of_forall (hlabels ▸ hnodup) (hlabels ▸ hnew) ?_
  intro front j back hsplit
  obtain ⟨lfront, lrest, rfl, rfl, hrest⟩ := List.map_eq_append_iff.1 hsplit
  obtain ⟨l, lback, rfl, rfl, rfl⟩ := List.map_eq_cons_iff.1 hrest
  have hparent := lookupJoins_parent_mem hsorted h rfl
  have hknown : (l.parent, anyColumn) ∈ JoinItem.known columns before (lfront.map (LookupJoin.item relation)) := by
    rw [JoinItem.mem_known]
    rcases List.mem_cons.1 hparent with hparent | hparent
    · exact Or.inl (hparent ▸ hroot)
    · obtain ⟨k, hk, hlabel⟩ := List.mem_map.1 hparent
      exact Or.inr ⟨_, List.mem_map_of_mem hk, Prod.ext hlabel (hcolumns k.table)⟩
  refine List.forall_mem_cons.2 ⟨ColumnRef.resolves_of_mem (List.mem_cons_of_mem _ hknown) _, ?_⟩
  refine List.forall_mem_singleton.2 (ColumnRef.resolves_of_mem ?_ _)
  rw [← hcolumns l.table]
  exact List.mem_cons_self

end Assembly

/-! ### Subqueries -/

namespace Subquery

open Assembly

private theorem labels_deeperJoins (up : String) (ls : List DetailLevel) :
    (deeperJoins up ls).map (·.label) = ls.map (·.label) := by
  induction ls generalizing up with
  | nil => rfl
  | cons l ls ih => rw [deeperJoins, List.map_cons, List.map_cons, ih]

private theorem resolved_deeperJoins {up : String} {ls : List DetailLevel} {before : KnownAliases}
    (hup : (up, anyColumn) ∈ before) (hnodup : (ls.map (·.label)).Nodup)
    (hnew : ∀ label ∈ ls.map (·.label), label ∉ before.map (·.1)) :
    JoinItem.Resolved (fun _ => anyColumn) before (deeperJoins up ls) := by
  induction ls generalizing up before with
  | nil => exact True.intro
  | cons l ls ih =>
    obtain ⟨hl, hnodup⟩ := List.nodup_cons.1 hnodup
    obtain ⟨hnewl, hnew⟩ := List.forall_mem_cons.1 hnew
    refine ⟨⟨hnewl, ColumnRef.resolves_of_mem List.mem_cons_self _,
      ColumnRef.resolves_of_mem (List.mem_cons_of_mem _ hup) _⟩, ih List.mem_cons_self hnodup ?_⟩
    intro label hlabel hmem
    rcases List.mem_cons.1 hmem with rfl | hmem
    · exact hl hlabel
    · exact hnew label hlabel hmem

variable {label : String} {first : Aggregate} {others : List Aggregate} {q : Subquery}

private theorem mem_known_levels {a : String} (h : a ∈ (q.top :: q.deeper).map (·.label)) :
    (a, anyColumn) ∈ JoinItem.known (fun _ => anyColumn) [(q.top.label, anyColumn)]
      (deeperJoins q.top.label q.deeper) := by
  refine JoinItem.mem_known.2 ?_
  rcases List.mem_cons.1 h with rfl | h
  · exact Or.inl List.mem_cons_self
  · rw [← labels_deeperJoins q.top.label] at h
    obtain ⟨j, hj, rfl⟩ := List.mem_map.1 h
    exact Or.inr ⟨j, hj, rfl⟩

/-- All that a subquery introduces is known inside it. -/
private theorem mem_known {a : String} (h : a ∈ q.aliases) :
    (a, anyColumn) ∈ q.grouped.source.known fun _ => anyColumn := by
  refine JoinItem.mem_known.2 ?_
  rcases List.mem_append.1 h with h | h
  · rcases JoinItem.mem_known.1 (mem_known_levels h) with hmem | ⟨j, hj, e⟩
    · exact Or.inl hmem
    · exact Or.inr ⟨j, List.mem_append_left _ hj, e⟩
  · obtain ⟨l, hl, rfl⟩ := List.mem_map.1 h
    exact Or.inr ⟨_, List.mem_append_right _ (List.mem_map_of_mem hl), rfl⟩

private theorem resolved_grouped (h : subquery label first others = .ok q) : q.grouped.Resolved := by
  have hscoped := wellScoped h
  have hnodup := hscoped.level.nodup
  rw [labels_fromItems] at hnodup
  obtain ⟨-, -, hlookups, -⟩ := subquery_spec h
  obtain ⟨hlevels, hjoins, hdisjoint⟩ := List.nodup_append.1 hnodup
  obtain ⟨htop, hdeeper⟩ := List.nodup_cons.1 hlevels
  have hnew : ∀ label ∈ q.deeper.map (·.label), label ∉ [(q.top.label, anyColumn)].map (·.1) := by
    intro label hlabel hmem
    exact htop (List.mem_singleton.1 hmem ▸ hlabel)
  refine ⟨?_, rfl, ?_, ?_, hscoped.columns⟩
  · refine (resolved_deeperJoins List.mem_cons_self hdeeper hnew).append ?_
    refine resolved_lookupJoins (fun _ => rfl) (byLength_assign _ _) hlookups
      (mem_known_levels (List.mem_map_of_mem List.getLastD_mem_cons)) hjoins ?_
    intro label hlabel hmem
    rw [JoinItem.mem_labels_known, labels_deeperJoins] at hmem
    refine hdisjoint label ?_ label hlabel rfl
    rcases hmem with hmem | hmem
    · exact List.mem_singleton.1 hmem ▸ List.mem_cons_self
    · exact List.mem_cons_of_mem _ hmem
  · exact ColumnRef.resolves_of_mem (mem_known (List.mem_append_left _ List.mem_cons_self)) _
  · intro i hi r hr
    have hread := hscoped.level.expressions _ (List.mem_cons_of_mem _ (List.mem_map_of_mem hi)) r hr
    rw [labels_fromItems] at hread
    exact ColumnRef.resolves_of_mem (mem_known hread) _

end Subquery

/-! ### Queries -/

namespace Assembly

section TopLevel

variable (base : String) {parts : Parts} {lookups : List LookupJoin} {subs : List (Option Subquery)}
  (items : List SelectItem)

private theorem resolved_clause (hlookups : lookupJoins (namedJoins parts) baseAlias = .ok lookups)
    (hsubs : (groups parts.aggregates).mapM Group.subquery? = .ok subs) :
    (Query.clause ⟨base, lookups, subs.filterMap id, items⟩).Resolved TableExpr.columns := by
  obtain ⟨hbase, hnodup⟩ := List.nodup_cons.1 (nodup_query_aliases base items hlookups hsubs)
  obtain ⟨hjoins, hlabels, hdisjoint⟩ := List.nodup_append.1 hnodup
  have hitems : ((subs.filterMap id).map Subquery.item).map (·.label) = (subs.filterMap id).map (·.label) := by
    rw [List.map_map]
    rfl
  refine (resolved_lookupJoins (fun _ => rfl) (byLength_assign _ _) hlookups List.mem_cons_self hjoins ?_).append ?_
  · intro label hlabel hmem
    obtain rfl : label = baseAlias := List.mem_singleton.1 hmem
    exact hbase (List.mem_append_left _ hlabel)
  · refine JoinItem.resolved_of_forall (hitems ▸ hlabels) ?_ ?_
    · intro label hlabel hmem
      rw [hitems] at hlabel
      rw [JoinItem.mem_labels_known, List.map_map] at hmem
      rcases hmem with hmem | hmem
      · obtain rfl : label = baseAlias := List.mem_singleton.1 hmem
        exact hbase (List.mem_append_right _ hlabel)
      · exact hdisjoint label hmem label hlabel rfl
    · intro front j back hsplit
      obtain ⟨sub, -, rfl⟩ := List.mem_map.1 (hsplit ▸ List.mem_append_right front List.mem_cons_self)
      refine List.forall_mem_cons.2 ⟨?_, List.forall_mem_singleton.2 (ColumnRef.resolves_of_mem ?_ _)⟩
      · exact List.any_eq_true.2 ⟨_, List.mem_cons_self, by simp [Subquery.item, TableExpr.columns, Subquery.grouped]⟩
      · refine List.mem_cons_of_mem _ (JoinItem.mem_known.2 (Or.inl (JoinItem.mem_known.2 (Or.inl ?_))))
        exact List.mem_cons_self

private theorem resolved_relations (hsubs : (groups parts.aggregates).mapM Group.subquery? = .ok subs) :
    ∀ j ∈ (Query.clause ⟨base, lookups, subs.filterMap id, items⟩).joins, j.relation.Resolved := by
  intro j hj
  rcases List.mem_append.1 hj with hj | hj
  · obtain ⟨l, -, rfl⟩ := List.mem_map.1 hj
    exact True.intro
  · obtain ⟨sub, hsub, rfl⟩ := List.mem_map.1 hj
    obtain ⟨g, -, first, others, -, hq⟩ := exists_mem_of_forall₂ (subqueries_spec hsubs).flip hsub
    exact Subquery.resolved_grouped hq

/-- Every join of a query gives every row one partner. -/
private theorem exists_extend_clause (hlookups : lookupJoins (namedJoins parts) baseAlias = .ok lookups)
    (hsubs : (groups parts.aggregates).mapM Group.subquery? = .ok subs) {ν : Type} [DecidableEq ν] {db : Database ν}
    (hdb : db.HasKeys) (fold : Sql → List (JoinedRow ν) → Option ν) :
    ∀ j ∈ (Query.clause ⟨base, lookups, subs.filterMap id, items⟩).joins, j.label ≠ baseAlias ∧
      ∀ e, ∃ r, j.extend (j.relation.rows db fold) e = [(j.label, r) :: e] := by
  obtain ⟨hbase, hnodup⟩ := List.nodup_cons.1 (nodup_query_aliases base items hlookups hsubs)
  obtain ⟨hjoins, -, -⟩ := List.nodup_append.1 hnodup
  intro j hj
  rcases List.mem_append.1 hj with hj | hj
  · obtain ⟨l, hl, rfl⟩ := List.mem_map.1 hj
    have hne : l.label ≠ baseAlias := by
      intro e
      exact hbase (e ▸ List.mem_append_left _ (List.mem_map_of_mem hl))
    refine ⟨hne, LookupJoin.exists_extend _ ?_ (hdb l.table)⟩
    -- a join does not start from itself, as no other before it has its alias
    intro e
    obtain ⟨front, back, rfl⟩ := List.append_of_mem hl
    have hparent := lookupJoins_parent_mem (byLength_assign _ _) hlookups rfl
    rw [e] at hparent
    rw [List.map_append, List.map_cons, List.nodup_append] at hjoins
    rcases List.mem_cons.1 hparent with hparent | hparent
    · exact hne hparent
    · exact hjoins.2.2 _ hparent _ List.mem_cons_self rfl
  · obtain ⟨sub, hsub, rfl⟩ := List.mem_map.1 hj
    have hne : sub.label ≠ baseAlias := by
      intro e
      exact hbase (e ▸ List.mem_append_right _ (List.mem_map_of_mem hsub))
    exact ⟨hne, Subquery.exists_extend hne db fold⟩

end TopLevel

end Assembly

open Assembly in
/-- No fan-out: whatever plans a batch holds, the FROM clause of the query that it is assembled to can be evaluated,
and in every database with primary keys it has exactly one row for each row of the base table, in their order. -/
theorem Batch.clause_rows_of_assemble {ν : Type} [DecidableEq ν] {b : Batch} {base : String} {q : Query}
    (h : b.assemble base = .ok q) {db : Database ν} (hdb : db.HasKeys) (fold : Sql → List (JoinedRow ν) → Option ν) :
    q.clause.text = q.fromClause ∧ q.clause.Resolved TableExpr.columns ∧ (∀ j ∈ q.clause.joins, j.relation.Resolved) ∧
      (q.clause.rows db (TableExpr.rows db fold)).map (List.lookup baseAlias) = (db base).map some := by
  obtain ⟨-, parts, lookups, subs, items, -, hlookups, hsubs, hitems, rfl⟩ := assemble_eq_ok_iff.1 h
  have hextend := exists_extend_clause base items hlookups hsubs hdb fold
  refine ⟨Query.clause_text _, resolved_clause base items hlookups hsubs, resolved_relations base items hsubs, ?_⟩
  refine (JoinItem.map_lookup_joinAll (fun j hj => (hextend j hj).1) (fun j hj => (hextend j hj).2) _).trans ?_
  rw [List.map_map]
  exact List.map_congr_left fun r _ => by simp [Query.clause]

/-- A database whose tables, known by their names in whatever case, have rows without a key, rows that point
nowhere, and several rows that point to one. -/
def Database.sparse : Database Nat := fun table =>
  let row (values : List (String × Nat)) : Row Nat := fun name => values.lookup name
  match Ascii.lower table with
  | "base" => [row [("id", 1), ("ref", 4)], row [("ref", 4)], row [("id", 2), ("ref", 9)]]
  | "s" => [row [("id", 4), ("ref", 3), ("base_id", 1)], row [("id", 5), ("base_id", 1)], row [("base_id", 2)]]
  | "agg_1" => [row [("order_id", 4), ("ref", 8)], row [("order_id", 5), ("ref", 8)], row [("order_id", 5)]]
  | "rates" => [row [("id", 3), ("rate", 5)], row [("rate", 6)], row [("rate", 7)]]
  | "t1" => [row [("id", 8), ("amount", 10)]]
  | _ => []

/-- The batch made by hand, where each expression of a subquery counts its rows. -/
theorem Batch.clause_rows_of_assemble_crossed :
    Database.sparse.HasKeys ∧ ∃ q, Batch.crossed.assemble "base" = .ok q ∧
      (q.clause.rows .sparse (TableExpr.rows .sparse fun _ es => some es.length)).map (fun e =>
        [ColumnRef.mk "s" "id", ⟨"s_rate", "rate"⟩, ⟨"agg_1", "sum_agg_1"⟩].map (·.value e)) =
          [[some 1, some 5, some 3], [none, some 5, none], [some 2, none, none]] ∧
      q.clause.text = q.fromClause ∧ q.clause.Resolved TableExpr.columns ∧
      (∀ j ∈ q.clause.joins, j.relation.Resolved) ∧
      (q.clause.rows .sparse (TableExpr.rows .sparse fun _ es => some es.length)).map (List.lookup baseAlias) =
        (Database.sparse "base").map some := by
  have hkeys : Database.sparse.HasKeys := by
    intro table
    unfold Database.sparse
    dsimp only
    split <;> decide
  obtain ⟨q, hq, hvalues⟩ := exists_assemble_of_check .crossed "base" (fun q =>
      (q.clause.rows .sparse (TableExpr.rows .sparse fun _ es => some es.length)).map (fun e =>
        [ColumnRef.mk "s" "id", ⟨"s_rate", "rate"⟩, ⟨"agg_1", "sum_agg_1"⟩].map (·.value e)) =
          [[some 1, some 5, some 3], [none, some 5, none], [some 2, none, none]])
    (by
      simp only [Batch.assemble, Assembly.Group.subquery?.eq_unfold, Assembly.subquery,
        Assembly.ordered_eq_insertionSort]
      decide +kernel)
  exact ⟨hkeys, q, hq, hvalues, Batch.clause_rows_of_assemble hq hkeys _⟩

end FormulaQuery
