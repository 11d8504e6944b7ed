import FormulaQuery.Proofs.FromClause
import FormulaQuery.Proofs.Level

/-!
# Subqueries of aggregates

Aggregates are put together by the text of their paths, and a subquery is built from the path of the first one. As a
path is known by its text, this is the path of all of them (`aggregateAt_of_relation`), so every column of the
subquery is what its aggregate says: `Subquery.Computes`.
-/

namespace FormulaQuery

/-! ### What columns are read from -/

/-- How an expression over the table `t` reads its columns: own columns from the alias `root`, and those of related
tables from the alias that their chain reaches, where chains are those of `joins`. -/
structure ReadsThrough (t : Table) (joins : KeyMap Join) (root : String) (lookups : List LookupJoin) (s : Sources)
    (e : Expression) : Prop where
  column : ∀ info name, (Expression.column info name).Within e →
    (Expression.column info name).toSql s = .ok (Sql.column root name)
  related : ∀ info join name, (Expression.related info join name).Within e →
    ∃ j hops label, joins.find? join = some j ∧ Hop.Route Table.direct t hops ∧ Hop.names hops = j.chain ∧
      (Expression.related info join name).toSql s = .ok (Sql.column label name) ∧ Reaches lookups root hops label

/-- A compiled expression reads through a level that has all its joins. -/
theorem Scope.Compiled.readsThrough {s : Scope} {p : Plan} (h : Compiled s p) {m : KeyMap Join}
    (hm : ∀ j ∈ p.joins.values, j ∈ m.values) {root : String} {taken : List String} {sources : Sources}
    {lookups : List LookupJoin} (hroot : sources.table = root)
    (hl : LevelReads s.table s.context m root taken sources.joins lookups) :
    ReadsThrough s.table p.joins root lookups sources p.expression := by
  refine ⟨?_, ?_⟩
  · intro info name _
    rw [Expression.toSql, hroot]
  · intro info join name hw
    obtain ⟨init, last, hr, rfl, hmem⟩ := h.exists_of_related hw
    obtain ⟨label, hlabel, hreach⟩ := hl.reaches init last hr (hm _ hmem)
    refine ⟨_, init ++ [last], label, h.joinsClosed.find?_eq_some_iff.2 ⟨hmem, rfl⟩, hr, ?_, ?_, hreach⟩
    · rw [Hop.names_append]
      rfl
    · rw [Expression.toSql, hlabel]

/-! ### Aggregates at a destination -/

/-- What is known of an aggregate over the rows at a destination. -/
structure Scope.AggregateAt (s : Scope) (d : Destination) (a : Aggregate) : Prop where
  source : a.source = s.table.name
  links : a.links = d.hops.map Hop.pathLink
  inner : ∃ p, Compiled (s.nested d) p ∧ a.expression = p.expression ∧ a.joins = p.joins
  delimiter : ∀ e ∈ a.delimiter, ∃ p, Compiled s p ∧ e = p.expression ∧ e.IsConstant

theorem Scope.IsAggregate.exists_destination {s : Scope} {a : Aggregate} (h : s.IsAggregate a) :
    ∃ d, s.IsDestination d ∧ a.relation = ".".intercalate (Hop.names d.hops) ∧ s.AggregateAt d a := by
  cases h with
  | @intro f d inner delimiter hm hd hi hp hc =>
    refine ⟨d, hd, rfl, rfl, rfl, ⟨inner, hi, rfl, rfl⟩, ?_⟩
    intro e he
    obtain ⟨p, hmem, rfl⟩ := Option.mem_map.1 he
    exact ⟨p, hp p hmem, rfl, hc p hmem⟩

/-- Aggregates with the same path are over the same rows. -/
theorem Scope.IsAggregate.aggregateAt_of_relation {s : Scope} {a : Aggregate} (h : s.IsAggregate a) {d : Destination}
    (hd : s.IsDestination d) (e : a.relation = ".".intercalate (Hop.names d.hops)) : s.AggregateAt d a := by
  obtain ⟨d', hd', e', hat⟩ := h.exists_destination
  rwa [destination_eq hd hd' (e.symm.trans e')]

/-- Under an aggregate there is no other one. -/
theorem Scope.Compiled.aggregates_of_nested {s : Scope} {d : Destination} {p : Plan} (h : Compiled (s.nested d) p)
    {a : Aggregate} : a ∉ p.aggregates.values := by
  intro ha
  cases h.collects.all a ha with
  | intro hm => cases hm

/-! ### Numbered names -/

theorem nodup_numbered (stem : String) (n : Nat) :
    ((List.range n).map fun i => stem ++ toString (i + 1)).Nodup := by
  refine List.Nodup.map_on ?_ List.nodup_range
  intro i _ j _ h
  have := Alias.append_toString_inj stem h
  omega

/-- The number of a column is read off its name. -/
private theorem columnName_inj {i j : Nat} {a b : Aggregate}
    (h : Assembly.columnName i a = Assembly.columnName j b) : i = j := by
  have digit : ∀ n : Nat, ∀ c ∈ (toString n).toList.reverse, ¬c = '_' := by
    intro n c hc hunderscore
    rw [List.mem_reverse, Nat.toString_eq_repr, Nat.toList_repr] at hc
    have := Nat.isDigit_of_mem_toDigits (by decide) (by decide) hc
    rw [hunderscore] at this
    exact absurd this (by decide)
  have hlist := congrArg (fun s : String => s.toList.reverse) h
  simp only [Assembly.columnName, String.toList_append, List.reverse_append, List.append_assoc] at hlist
  have hdigits := (append_stop_inj (· = '_') (digit (i + 1)) (digit (j + 1)) rfl rfl hlist).1
  have htext : toString (i + 1) = toString (j + 1) := String.toList_inj.1 (List.reverse_inj.1 hdigits)
  exact Nat.succ.inj (Alias.append_toString_inj "" (congrArg ("" ++ ·) htext))

/-! ### One subquery -/

/-- The item that computes the aggregate `a` from the given sources. -/
def Aggregate.IsItem (a : Aggregate) (s : Sources) (column : String) (item : SelectItem) : Prop :=
  ∃ value delimiter, a.expression.toSql s = .ok value ∧
    Option.Rel (fun e d => e.toSql s = .ok d) a.delimiter delimiter ∧
    item = ⟨a.function.toSql value delimiter, column⟩

namespace Assembly

/-- The joins of aggregates taken together. -/
def allJoins (as : List Aggregate) : KeyMap Join :=
  as.foldl (fun m a => a.joins.values.foldl (fun m j => m.insertNew j.id j) m) .empty

/-- What the items of a subquery with the given levels are printed from. -/
def itemSources (top : DetailLevel) (deeper : List DetailLevel) (as : List Aggregate) : Sources :=
  ⟨(deeper.getLastD top).label,
    joinSources (Alias.assign (groupKey :: (top :: deeper).map (·.label)) (ordered (allJoins as))), []⟩

end Assembly

namespace Subquery

/-- The aliases that a subquery introduces. -/
def aliases (q : Subquery) : List String := (q.top :: q.deeper).map (·.label) ++ q.joins.map (·.label)

/-- How the subquery of the aggregates `as` over the rows at `d` is put together. -/
structure Built (q : Subquery) (s : Scope) (d : Scope.Destination) (as : List Aggregate) : Prop where
  destination : s.IsDestination d
  aggregates : ∀ a ∈ as, s.AggregateAt d a
  levels : Assembly.levels (d.hops.map Hop.pathLink) = q.top :: q.deeper
  reads : LevelReads d.target (s.nested d).context (Assembly.allJoins as) (q.deeper.getLastD q.top).label
    (groupKey :: (q.top :: q.deeper).map (·.label)) (Assembly.itemSources q.top q.deeper as).joins q.joins
  items : List.Forall₂ (fun (a : Aggregate × Nat) item =>
    a.1.IsItem (Assembly.itemSources q.top q.deeper as) (Assembly.columnName a.2 a.1) item) as.zipIdx q.items

/-- The column `column` of a subquery is the aggregate `a`: the levels `t1`, `t2`, … are the tables and join columns
of its own links, the rows are grouped by the join column of the first one, and the item of the column calls its own
function on its own expression and delimiter, read at the last level. -/
structure Computes (q : Subquery) (schema : Table) (a : Aggregate) (column : String) : Prop where
  levels : (q.top :: q.deeper).map (fun l => (l.table, l.column)) = a.links.map fun l => (l.table, l.joinColumn)
  labels : (q.top :: q.deeper).map (·.label) = (List.range a.links.length).map fun i => "t" ++ toString (i + 1)
  group : ∃ first rest, a.links = first :: rest ∧ q.groupColumn = Sql.column "t1" first.joinColumn ∧
    q.grouped.groupBy = ⟨"t1", first.joinColumn⟩
  item : ∃ (inner : Sources) (hops : List Hop) (target : Table), ∃ item ∈ q.items,
    Hop.Route Table.inverse schema hops ∧ a.links = hops.map Hop.pathLink ∧ Hop.target? hops = some target ∧
      ReadsThrough target a.joins ("t" ++ toString a.links.length) q.joins inner a.expression ∧
      a.IsItem inner column item
  nodup_items : (q.items.map (·.name)).Nodup
  nodup_aliases : q.aliases.Nodup

end Subquery

namespace Assembly

/-- The last level of a path is numbered by its length. -/
private theorem label_getLastD {links : List PathLink} {top : DetailLevel} {deeper : List DetailLevel}
    (h : levels links = top :: deeper) : (deeper.getLastD top).label = "t" ++ toString links.length := by
  have hlast : (levels links).getLast? = some (deeper.getLastD top) := by
    rw [h, List.getLast?_cons, List.getLastD_eq_getLast?]
  have hne : links ≠ [] := by
    rintro rfl
    cases h
  rw [levels, List.getLast?_mapIdx, List.getLast?_eq_some_getLast hne] at hlast
  have hpos : links.length - 1 + 1 = links.length := Nat.sub_add_cancel (List.length_pos_iff.2 hne)
  rw [← Option.some.inj hlast]
  show levelAlias (links.length - 1) = _
  rw [levelAlias, hpos]

private theorem allJoins_eq {as : List Aggregate} (h : ∀ a ∈ as, a.joins.Keyed Join.id) :
    allJoins as = as.foldl (fun m a => m.union a.joins) .empty := by
  unfold allJoins
  generalize KeyMap.empty = m
  induction as generalizing m with
  | nil => rfl
  | cons a as ih =>
    rw [List.foldl_cons, List.foldl_cons, KeyMap.union_eq_insertAll (h a List.mem_cons_self)]
    exact ih (fun b hb => h b (List.mem_cons_of_mem _ hb)) _

theorem joinsClosed_allJoins {s : Scope} {d : Scope.Destination} {as : List Aggregate}
    (h : ∀ a ∈ as, s.AggregateAt d a) : JoinsClosed d.target (s.nested d).context (allJoins as) ∧
      ∀ j, j ∈ (allJoins as).values ↔ ∃ a ∈ as, j ∈ a.joins.values := by
  have hjoins : ∀ a ∈ as, JoinsClosed d.target (s.nested d).context a.joins := by
    intro a ha
    obtain ⟨p, hp, -, hj⟩ := (h a ha).inner
    rw [hj]
    exact hp.joinsClosed
  obtain ⟨hclosed, hmem⟩ := JoinsClosed.empty.foldl_union Aggregate.joins hjoins
  rw [allJoins_eq fun a ha => (hjoins a ha).toKeyed]
  refine ⟨hclosed, fun j => (hmem j).trans ?_⟩
  rw [KeyMap.values_empty]
  simp

private theorem exists_aggregateItem {s : Sources} {a : Aggregate} (he : a.expression.Readable s)
    (hd : ∀ e ∈ a.delimiter, e.Readable s) (index : Nat) :
    ∃ item, aggregateItem s index a = .ok item ∧ a.IsItem s (columnName index a) item := by
  obtain ⟨value, hvalue⟩ := Expression.exists_toSql he
  cases hdelimiter : a.delimiter with
  | none =>
    refine ⟨_, ?_, value, none, hvalue, hdelimiter ▸ .none, rfl⟩
    rw [aggregateItem, hvalue, hdelimiter]
    rfl
  | some e =>
    obtain ⟨d, hsql⟩ := Expression.exists_toSql (hd e hdelimiter)
    refine ⟨_, ?_, value, some d, hvalue, hdelimiter ▸ .some hsql, rfl⟩
    rw [aggregateItem, hvalue, hdelimiter]
    show (do
      let delimiter ← some <$> e.toSql s
      return _) = _
    rw [hsql]
    rfl

/-- The items of aggregates, each with the number of its place. -/
private theorem exists_aggregateItems {s : Sources} {as : List Aggregate} {R : Aggregate → Nat → SelectItem → Prop}
    (h : ∀ a ∈ as, ∀ index, ∃ item, aggregateItem s index a = .ok item ∧ R a index item) (index : Nat) :
    ∃ items, aggregateItems s index as = .ok items ∧
      List.Forall₂ (fun (a : Aggregate × Nat) item => R a.1 a.2 item) (as.zipIdx index) items := by
  induction as generalizing index with
  | nil => exact ⟨[], rfl, .nil⟩
  | cons a as ih =>
    obtain ⟨item, hitem, hr⟩ := h a List.mem_cons_self index
    obtain ⟨items, hitems, hall⟩ := ih (fun b hb => h b (List.mem_cons_of_mem _ hb)) (index + 1)
    refine ⟨item :: items, ?_, .cons hr hall⟩
    rw [aggregateItems, hitem, hitems]
    rfl

theorem nodup_columnNames (as : List Aggregate) : (as.zipIdx.map fun a => columnName a.2 a.1).Nodup := by
  rw [List.nodup_iff_pairwise_ne, List.pairwise_iff_getElem]
  intro i j hi hj hij heq
  simp only [List.getElem_map, List.getElem_zipIdx] at heq
  have := columnName_inj heq
  omega

/-- The levels of a path are its tables and join columns. -/
private theorem map_levels (links : List PathLink) :
    (levels links).map (fun l => (l.table, l.column)) = links.map fun l => (l.table, l.joinColumn) := by
  apply List.ext_getElem
  · simp [levels]
  · intro i h₁ h₂
    simp [levels]

private theorem exists_group_column {links : List PathLink} {top : DetailLevel} {deeper : List DetailLevel}
    (h : levels links = top :: deeper) :
    ∃ first rest, links = first :: rest ∧ top.label = "t1" ∧ top.column = first.joinColumn := by
  cases links with
  | nil => cases h
  | cons first rest =>
    rw [levels, List.mapIdx_cons] at h
    obtain ⟨rfl, -⟩ := List.cons.inj h
    exact ⟨first, rest, rfl, rfl, rfl⟩

end Assembly

/-! ### What a subquery computes -/

namespace Subquery.Built

open Assembly

variable {q : Subquery} {s : Scope} {d : Scope.Destination} {as : List Aggregate}

private theorem readsThrough (h : q.Built s d as) {a : Aggregate} (ha : a ∈ as) :
    ReadsThrough d.target a.joins (q.deeper.getLastD q.top).label q.joins (itemSources q.top q.deeper as)
      a.expression := by
  obtain ⟨p, hp, he, hj⟩ := (h.aggregates a ha).inner
  have hsub : ∀ j ∈ p.joins.values, j ∈ (allJoins as).values := by
    rw [← hj]
    exact fun j hmem => ((joinsClosed_allJoins h.aggregates).2 j).2 ⟨a, ha, hmem⟩
  rw [he, hj]
  exact hp.readsThrough hsub rfl h.reads

/-- Each aggregate of a subquery has a column there. -/
theorem computes (h : q.Built s d as) {i : Nat} {a : Aggregate} (ha : as[i]? = some a) :
    q.Computes s.table a (columnName i a) := by
  have hmem : a ∈ as := List.mem_of_getElem? ha
  have hlinks : a.links = d.hops.map Hop.pathLink := (h.aggregates a hmem).links
  have hlabels : (q.top :: q.deeper).map (·.label) =
      (List.range a.links.length).map fun i => "t" ++ toString (i + 1) := by
    rw [← h.levels, hlinks, Assembly.levels]
    refine map_mapIdx _ ?_
    intro i l
    rfl
  have hnames : as.zipIdx.map (fun a => columnName a.2 a.1) = q.items.map (·.name) :=
    map_eq_map_of_forall₂ (h.items.imp fun a item hitem => by
      obtain ⟨value, delimiter, -, -, rfl⟩ := hitem
      rfl)
  obtain ⟨item, hitem, his⟩ := exists_mem_of_forall₂ h.items (List.mk_mem_zipIdx_iff_getElem?.2 ha)
  refine ⟨?_, hlabels, ?_, ⟨_, d.hops, d.target, item, hitem, h.destination.route, hlinks, h.destination.target, ?_,
    his⟩, hnames ▸ nodup_columnNames as, ?_⟩
  · rw [← h.levels, map_levels, hlinks]
  · obtain ⟨first, rest, hfirst, hlabel, hcolumn⟩ := exists_group_column h.levels
    refine ⟨first, rest, hlinks.trans hfirst, ?_, ?_⟩
    · rw [Subquery.groupColumn, hlabel, hcolumn]
    · rw [Subquery.grouped, hlabel, hcolumn]
  · rw [hlinks, ← label_getLastD h.levels]
    exact h.readsThrough hmem
  · refine List.nodup_append.2 ⟨hlabels ▸ nodup_numbered "t" _, h.reads.nodup, ?_⟩
    intro x hx y hy hxy
    obtain ⟨j, hj, rfl⟩ := List.mem_map.1 hy
    exact h.reads.not_taken j hj (List.mem_cons_of_mem _ (hxy ▸ hx))

end Subquery.Built

namespace Assembly

/-- Aggregates of one destination can all be printed where their joins are. -/
private theorem exists_items {s : Scope} {d : Scope.Destination} {as : List Aggregate}
    (h : ∀ a ∈ as, s.AggregateAt d a) (sources : Sources) {root : String} {taken : List String}
    {lookups : List LookupJoin}
    (hl : LevelReads d.target (s.nested d).context (allJoins as) root taken sources.joins lookups) :
    ∃ items, aggregateItems sources 0 as = .ok items ∧
      List.Forall₂ (fun (a : Aggregate × Nat) item => a.1.IsItem sources (columnName a.2 a.1) item)
        as.zipIdx items := by
  obtain ⟨hclosed, hmem⟩ := joinsClosed_allJoins h
  refine exists_aggregateItems (R := fun a i item => a.IsItem sources (columnName i a) item) ?_ 0
  intro a ha index
  refine exists_aggregateItem ?_ ?_ index
  · obtain ⟨p, hp, he, hj⟩ := (h a ha).inner
    rw [he]
    refine hp.readable ?_ ?_
    · exact fun j hjp => hl.isSome_lookup hclosed ((hmem j).2 ⟨a, ha, hj ▸ hjp⟩)
    · exact fun b hb => absurd hb hp.aggregates_of_nested
  · intro e he
    obtain ⟨p, hp, rfl, hc⟩ := (h a ha).delimiter e he
    exact hp.readable_of_isConstant hc

/-- The aggregates at one destination have a subquery. -/
theorem exists_subquery {s : Scope} {d : Scope.Destination} (hd : s.IsDestination d) (label : String)
    {first : Aggregate} {others : List Aggregate} (h : ∀ a ∈ first :: others, s.AggregateAt d a) :
    ∃ q, subquery label first others = .ok q ∧ q.label = label ∧ q.Built s d (first :: others) := by
  have hlinks := (h first List.mem_cons_self).links
  obtain ⟨top, deeper, hlevels⟩ : ∃ top deeper, levels first.links = top :: deeper := by
    cases hl : levels first.links with
    | nil =>
      rw [levels, List.mapIdx_eq_nil_iff, hlinks] at hl
      exact absurd (List.map_eq_nil_iff.1 hl) fun e => Scope.destination_names_ne_nil hd (by rw [e]; rfl)
    | cons top deeper => exact ⟨top, deeper, rfl⟩
  obtain ⟨lookups, hlookups, hreads⟩ := exists_lookupJoins (joinsClosed_allJoins h).1 (deeper.getLastD top).label
    (groupKey :: (top :: deeper).map (·.label))
  obtain ⟨items, hitems, hall⟩ := exists_items h (itemSources top deeper (first :: others)) hreads
  refine ⟨⟨label, top, deeper, lookups, items⟩, ?_, rfl, hd, h, hlinks ▸ hlevels, hreads, hall⟩
  unfold subquery
  rw [hlevels]
  dsimp only
  rw [← allJoins, hlookups]
  show (do
    let items ← aggregateItems (itemSources top deeper (first :: others)) 0 (first :: others)
    return _) = _
  rw [hitems]
  rfl

end Assembly

end FormulaQuery
