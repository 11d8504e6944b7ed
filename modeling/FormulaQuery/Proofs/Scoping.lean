import FormulaQuery.Proofs.Consolidation
import FormulaQuery.Proofs.Grammar

/-!
# Queries are well scoped

Whatever plans a batch holds, made from formulas or not, the query that it is assembled to is well scoped. At every
query level the aliases differ, a condition reads only what is introduced before it or with it, and an expression
reads only what its own level introduces (`LevelScoped`). What is read from a subquery is one of its columns
(`Batch.wellScoped_of_assemble`).

That the joins are found is all that is known of them. It is enough, as a join stands after the one that it starts
from, which has a shorter chain (`Assembly.parentAlias_mem_before`).
-/

namespace FormulaQuery

/-! ### What SQL reads -/

namespace Sql

/-- All columns that SQL reads have the property `P`. -/
def ReadsOnly (P : String × String → Prop) (s : Sql) : Prop := ∀ r ∈ s.reads, P r

variable {P : String × String → Prop}

@[simp] theorem readsOnly_append {a b : Sql} : (a ++ b).ReadsOnly P ↔ a.ReadsOnly P ∧ b.ReadsOnly P := by
  have hreads : (a ++ b).reads = a.reads ++ b.reads := List.filterMap_append
  rw [ReadsOnly, hreads, List.forall_mem_append]
  rfl

@[simp] theorem readsOnly_bare (t : String) : ReadsOnly P ⟨[.bare t]⟩ := List.forall_mem_nil P

@[simp] theorem readsOnly_literal (t : String) : (literal t).ReadsOnly P := List.forall_mem_nil P

@[simp] theorem readsOnly_column {source name : String} : (column source name).ReadsOnly P ↔ P (source, name) :=
  List.forall_mem_singleton

private theorem readsOnly_join (separator : String) {parts : List Sql} (h : ∀ p ∈ parts, p.ReadsOnly P) :
    (join separator parts).ReadsOnly P := by
  induction parts using join.induct with
  | case1 => exact List.forall_mem_nil P
  | case2 p => exact h p List.mem_cons_self
  | case3 p parts hne ih =>
    rw [join.eq_3 separator p parts hne]
    simp only [readsOnly_append, readsOnly_bare, and_true]
    exact ⟨h p List.mem_cons_self, ih fun q hq => h q (List.mem_cons_of_mem _ hq)⟩

private theorem readsOnly_getD {parts : List Sql} (h : ∀ p ∈ parts, p.ReadsOnly P) (i : Nat) (t : String) :
    (parts.getD i t).ReadsOnly P := by
  rw [List.getD_eq_getElem?_getD]
  cases hi : parts[i]? with
  | none => exact readsOnly_bare t
  | some p => exact h p (List.mem_of_getElem? hi)

end Sql

/-! ### What printed expressions read -/

/-- The columns that expressions can read from the given sources. -/
inductive Sources.Provides (s : Sources) : String × String → Prop
  | table (name : String) : Provides s (s.table, name)
  | join {id label : String} (h : (id, label) ∈ s.joins) (name : String) : Provides s (label, name)
  | aggregate {ref : String} {c : AggregateColumn} (h : (ref, c) ∈ s.aggregates) : Provides s (c.source, c.column)

section Printed

variable {P : String × String → Prop} {p q : Sql}

private theorem readsOnly_binarySql (op : BinaryOperator) (left right : Expression) (hp : p.ReadsOnly P)
    (hq : q.ReadsOnly P) : (Expression.binarySql op left right p q).ReadsOnly P := by
  unfold Expression.binarySql Expression.days
  cases op with
  | add | subtract | equal | notEqual => split_ifs <;> simp [hp, hq]
  | multiply | divide | concat | less | greater | lessEqual | greaterEqual => simp [hp, hq]

private theorem readsOnly_callSql {function : String} {args : List Expression} {printed : List Sql} {sql : Sql}
    (hprinted : ∀ p ∈ printed, p.ReadsOnly P) (h : Expression.callSql? function args printed = some sql) :
    sql.ReadsOnly P := by
  have harg := Sql.readsOnly_getD hprinted
  have hlist := fun separator => Sql.readsOnly_join separator hprinted
  unfold Expression.callSql? Expression.dateDifferenceSql at h
  dsimp only at h
  split at h <;> cases h
  case h_25 => split <;> simp only [Sql.readsOnly_append, Sql.readsOnly_bare, harg, and_self]
  all_goals simp only [Sql.readsOnly_append, Sql.readsOnly_bare, harg, hlist, and_self]

private theorem readsOnly_allToSql {s : Sources} {args : List Expression}
    (h : ∀ e ∈ args, ∀ sql, e.toSql s = .ok sql → sql.ReadsOnly P) {printed : List Sql}
    (hprinted : Expression.allToSql s args = .ok printed) : ∀ p ∈ printed, p.ReadsOnly P := by
  induction args generalizing printed with
  | nil =>
    cases hprinted
    exact List.forall_mem_nil _
  | cons e args ih =>
    rw [Expression.allToSql] at hprinted
    obtain ⟨p, hp, hprinted⟩ := bind_eq_ok hprinted
    obtain ⟨more, hmore, hprinted⟩ := bind_eq_ok hprinted
    cases hprinted
    have hrest := ih (fun c hc => h c (List.mem_cons_of_mem _ hc)) hmore
    exact List.forall_mem_cons.2 ⟨h e List.mem_cons_self p hp, hrest⟩

/-- An expression reads nothing but what its sources provide. -/
theorem Expression.readsOnly_toSql {s : Sources} {e : Expression} {sql : Sql} (h : e.toSql s = .ok sql) :
    sql.ReadsOnly s.Provides := by
  induction e using children_induction generalizing sql with
  | step e ih =>
    unfold toSql at h
    cases e with
    | number | null =>
      cases h
      exact Sql.readsOnly_bare _
    | boolean info b =>
      cases h
      cases b <;> exact Sql.readsOnly_bare _
    | string info t =>
      cases h
      exact Sql.readsOnly_literal t
    | date info t =>
      cases h
      simp
    | column info name =>
      cases h
      exact Sql.readsOnly_column.2 (.table name)
    | related info join name =>
      dsimp only at h
      split at h
      · rename_i label hlabel
        cases h
        exact Sql.readsOnly_column.2 (.join (KeyMap.mem_of_lookup hlabel) name)
      · cases h
    | negate info operand =>
      obtain ⟨p, hp, h⟩ := bind_eq_ok h
      cases h
      have hoperand := ih operand List.mem_cons_self hp
      simp [hoperand]
    | binary info op left right =>
      obtain ⟨l, hl, h⟩ := bind_eq_ok h
      obtain ⟨r, hr, h⟩ := bind_eq_ok h
      cases h
      have hleft := ih left List.mem_cons_self hl
      have hright := ih right (List.mem_cons_of_mem _ List.mem_cons_self) hr
      exact readsOnly_binarySql op left right hleft hright
    | call info function args =>
      obtain ⟨printed, hprinted, h⟩ := bind_eq_ok h
      split at h
      · rename_i sql' hcall
        cases h
        exact readsOnly_callSql (readsOnly_allToSql (fun c hc sql => ih c hc) hprinted) hcall
      · cases h
    | aggregate info ref =>
      dsimp only at h
      split at h
      · rename_i c hc
        cases h
        have hcolumn : s.Provides (c.source, c.column) := .aggregate (KeyMap.mem_of_lookup hc)
        unfold AggregateColumn.toSql AggregateFunction.emptyValue?
        cases c.function <;> simp [hcolumn]
      · cases h

private theorem AggregateFunction.readsOnly_toSql (f : AggregateFunction) {value : Sql} {delimiter : Option Sql}
    (hvalue : value.ReadsOnly P) (hdelimiter : ∀ d ∈ delimiter, d.ReadsOnly P) :
    (f.toSql value delimiter).ReadsOnly P := by
  have hd : (delimiter.getD (Sql.literal ",")).ReadsOnly P := by
    cases delimiter with
    | none => exact Sql.readsOnly_literal ","
    | some d => exact hdelimiter d rfl
  unfold toSql
  cases f <;> simp [hvalue, hd]

end Printed

/-! ### The items of a FROM clause -/

/-- An item of a FROM clause: what is joined, the alias that it gets, and the condition of the join. -/
structure FromItem where
  /-- All that stands before the alias. -/
  opening : Sql
  label : String
  condition : Option Sql

namespace FromItem

def toSql (i : FromItem) : Sql :=
  match i.condition with
  | none => i.opening ++ Sql.identifier i.label
  | some c => i.opening ++ Sql.identifier i.label ++ " ON " ++ c

/-- Where the aliases `before` are known, each condition reads only from these, from its own item and from earlier
ones. -/
def Scoped : (before : List String) → List FromItem → Prop
  | _, [] => True
  | before, i :: items =>
    (∀ c ∈ i.condition, c.ReadsOnly fun r => r.1 ∈ i.label :: before) ∧ Scoped (i.label :: before) items

variable {before : List String} {items more : List FromItem}

private theorem Scoped.mono {before' : List String} (h : Scoped before items) (hsub : before ⊆ before') :
    Scoped before' items := by
  induction items generalizing before before' with
  | nil => exact True.intro
  | cons i items ih =>
    have hcons := List.cons_subset_cons i.label hsub
    exact ⟨fun c hc r hr => hcons (h.1 c hc r hr), ih h.2 hcons⟩

private theorem Scoped.append (h : Scoped before items) (hmore : Scoped (items.map (·.label) ++ before) more) :
    Scoped before (items ++ more) := by
  induction items generalizing before with
  | nil => exact hmore
  | cons i items ih =>
    refine ⟨h.1, ih h.2 (hmore.mono ?_)⟩
    intro a ha
    simp only [List.map_cons, List.cons_append, List.mem_cons, List.mem_append] at ha ⊢
    tauto

/-- Conditions that read from their own items and from aliases that are already known. -/
theorem scoped_of_forall (h : ∀ i ∈ items, ∀ c ∈ i.condition, c.ReadsOnly fun r => r.1 ∈ i.label :: before) :
    Scoped before items := by
  induction items generalizing before with
  | nil => exact True.intro
  | cons i items ih =>
    refine ⟨h i List.mem_cons_self, ih ?_⟩
    intro j hj c hc r hr
    have hread := h j (List.mem_cons_of_mem _ hj) c hc r hr
    simp only [List.mem_cons] at hread ⊢
    tauto

end FromItem

/-- The item of a join by primary key, on a line with the given indent. -/
def LookupJoin.fromItem (indent : Sql) (j : LookupJoin) : FromItem where
  opening := indent ++ ("LEFT JOIN " ++ Sql.table j.table ++ " ")
  label := j.label
  condition := some (Sql.column j.parent j.column ++ " = " ++ Sql.column j.label primaryKey)

private theorem LookupJoin.toSql_fromItem (indent : Sql) (j : LookupJoin) :
    (j.fromItem indent).toSql = indent ++ j.toSql := by
  simp only [fromItem, FromItem.toSql, toSql, Sql.append_assoc]

namespace Subquery

/-- The items of the levels below the one with alias `up`. -/
def deeperItems (up : String) : List DetailLevel → List FromItem
  | [] => []
  | l :: ls =>
    ⟨"    JOIN " ++ Sql.table l.table ++ " ", l.label,
      some (Sql.column l.label l.column ++ " = " ++ Sql.column up primaryKey)⟩ :: deeperItems l.label ls

/-- The items of the FROM clause inside a subquery. -/
def fromItems (q : Subquery) : List FromItem :=
  ⟨"    FROM " ++ Sql.table q.top.table ++ " ", q.top.label, none⟩
    :: (deeperItems q.top.label q.deeper ++ q.joins.map (LookupJoin.fromItem "    "))

/-- The item of a subquery in the FROM clause of the query around it. -/
def fromItem (q : Subquery) : FromItem where
  opening :=
    let items := SelectItem.toSql ⟨q.groupColumn, groupKey⟩ :: q.items.map SelectItem.toSql
    "LEFT JOIN (\n    SELECT " ++ Sql.join ", " items ++ "\n" ++ Sql.join "\n" (q.fromItems.map FromItem.toSql)
      ++ "\n    GROUP BY " ++ q.groupColumn ++ "\n) "
  label := q.label
  condition := some (Sql.column q.label groupKey ++ " = " ++ Sql.column baseAlias primaryKey)

private theorem deeperSql_eq (up : String) (ls : List DetailLevel) :
    deeperSql up ls = (deeperItems up ls).map FromItem.toSql := by
  induction ls generalizing up with
  | nil => rfl
  | cons l ls ih =>
    rw [deeperSql, deeperItems, List.map_cons, ih]
    simp only [FromItem.toSql, Sql.append_assoc]

private theorem fromLines_eq (q : Subquery) : q.fromLines = q.fromItems.map FromItem.toSql := by
  have hjoins : (q.joins.map fun j => ("    " : Sql) ++ j.toSql) =
      (q.joins.map (LookupJoin.fromItem "    ")).map FromItem.toSql := by
    rw [List.map_map]
    exact List.map_congr_left fun j _ => (j.toSql_fromItem "    ").symm
  rw [fromLines, fromItems, List.map_cons, List.map_append, hjoins, deeperSql_eq]
  rfl

private theorem toSql_fromItem (q : Subquery) : q.fromItem.toSql = q.toSql := by
  simp only [fromItem, FromItem.toSql, toSql, ← fromLines_eq, Sql.append_assoc]

private theorem labels_deeperItems (up : String) (ls : List DetailLevel) :
    (deeperItems up ls).map (·.label) = ls.map (·.label) := by
  induction ls generalizing up with
  | nil => rfl
  | cons l ls ih => rw [deeperItems, List.map_cons, List.map_cons, ih]

theorem labels_fromItems (q : Subquery) : q.fromItems.map (·.label) = q.aliases := by
  rw [fromItems, aliases, List.map_cons, List.map_append, labels_deeperItems, List.map_map, List.map_cons]
  rfl

end Subquery

namespace Query

/-- The items of the FROM clause of a query. -/
def fromItems (q : Query) : List FromItem :=
  ⟨"FROM " ++ Sql.table q.base ++ " ", baseAlias, none⟩
    :: (q.joins.map (LookupJoin.fromItem ⟨[]⟩) ++ q.subqueries.map Subquery.fromItem)

private theorem fromSql_eq (q : Query) : q.fromSql = Sql.join "\n" (q.fromItems.map FromItem.toSql) := by
  have hjoins : q.joins.map LookupJoin.toSql = (q.joins.map (LookupJoin.fromItem ⟨[]⟩)).map FromItem.toSql := by
    rw [List.map_map]
    exact List.map_congr_left fun j _ => (j.toSql_fromItem ⟨[]⟩).symm
  have hsubs : q.subqueries.map Subquery.toSql = (q.subqueries.map Subquery.fromItem).map FromItem.toSql := by
    rw [List.map_map]
    exact List.map_congr_left fun sub _ => sub.toSql_fromItem.symm
  rw [fromSql, fromItems, List.map_cons, List.map_append, hjoins, hsubs]
  rfl

private theorem labels_fromItems (q : Query) : q.fromItems.map (·.label) = q.aliases := by
  rw [fromItems, aliases, List.map_cons, List.map_append, List.map_map, List.map_map]
  rfl

end Query

/-! ### Well scoped queries -/

/-- One query level: the items of its FROM clause, and the expressions that it evaluates. -/
structure LevelScoped (items : List FromItem) (expressions : List Sql) : Prop where
  nodup : (items.map (·.label)).Nodup
  conditions : FromItem.Scoped [] items
  expressions : ∀ e ∈ expressions, e.ReadsOnly fun r => r.1 ∈ items.map (·.label)

/-- A subquery that reads nothing from around it, and gives each of its columns a name of its own. -/
structure Subquery.WellScoped (q : Subquery) : Prop where
  fromLines : q.fromLines = q.fromItems.map FromItem.toSql
  labels : q.fromItems.map (·.label) =
    (List.range (q.deeper.length + 1)).map (fun i => "t" ++ toString (i + 1)) ++ q.joins.map (·.label)
  level : LevelScoped q.fromItems (q.groupColumn :: q.items.map (·.value))
  columns : (groupKey :: q.items.map (·.name)).Nodup

/-- A query whose levels are scoped, and that reads from its subqueries only columns that they have. -/
structure Query.WellScoped (q : Query) : Prop where
  fromSql : q.fromSql = Sql.join "\n" (q.fromItems.map FromItem.toSql)
  labels : q.fromItems.map (·.label) =
    "s" :: (q.joins.map (·.label) ++ (List.range q.subqueries.length).map fun i => "agg_" ++ toString (i + 1))
  level : LevelScoped q.fromItems (q.fields.map (·.value))
  columns : ∀ sub ∈ q.subqueries, ∀ e ∈ q.fields.map (·.value),
    e.ReadsOnly fun r => r.1 = sub.label → r.2 ∈ sub.items.map (·.name)
  subqueries : ∀ sub ∈ q.subqueries, sub.WellScoped

/-! ### Joins of a level -/

namespace Assembly

/-- The order of joins in a level: shorter chains come first. -/
def ByLength (named : List (Join × String)) : Prop :=
  named.Pairwise fun a b => a.1.chain.length ≤ b.1.chain.length

theorem byLength_assign (taken : List String) (m : KeyMap Join) : ByLength (Alias.assign taken (ordered m)) := by
  have hsorted : (ordered m).Pairwise fun a b => a.chain.length ≤ b.chain.length :=
    (List.pairwise_mergeSort chain_length_trans chain_length_total m.values).imp of_decide_eq_true
  rw [← Alias.map_fst_assign taken (ordered m), List.pairwise_map] at hsorted
  exact hsorted

/-- A join starts at the root of its level or from a join that stands before it. -/
theorem parentAlias_mem_before {front back : List (Join × String)} {n : Join × String} {root parent : String}
    (hsorted : ByLength (front ++ n :: back)) (h : parentAlias (front ++ n :: back) root n.1 = .ok parent) :
    parent ∈ root :: front.map (·.2) := by
  unfold parentAlias at h
  split at h
  · cases h
    exact List.mem_cons_self
  · rename_i chain hchain
    split at h
    · rename_i found hfind
      cases h
      have hmem : found ∈ front ++ n :: back := List.mem_reverse.1 (List.mem_of_find?_eq_some hfind)
      have hfound := List.find?_some hfind
      simp only [decide_eq_true_eq] at hfound
      -- the chain of the found join lacks the last relationship
      have hshorter : found.1.chain.length < n.1.chain.length := by
        unfold Join.parentChain? at hchain
        split at hchain
        · cases hchain
        · rename_i hlong
          cases hchain
          rw [hfound.1, List.length_dropLast]
          omega
      have hback : ∀ b ∈ n :: back, n.1.chain.length ≤ b.1.chain.length := by
        intro b hb
        rcases List.mem_cons.1 hb with rfl | hb
        · exact Nat.le_refl _
        · exact (List.pairwise_cons.1 (List.pairwise_append.1 hsorted).2.1).1 b hb
      rcases List.mem_append.1 hmem with hmem | hmem
      · exact List.mem_cons_of_mem _ (List.mem_map_of_mem hmem)
      · have := hback found hmem
        omega
    · cases h

/-- What the joins of a level are made from. -/
theorem lookupJoins_spec {named : List (Join × String)} {root : String} {lookups : List LookupJoin}
    (h : lookupJoins named root = .ok lookups) :
    List.Forall₂ (fun n l => ∃ parent, parentAlias named root n.1 = .ok parent ∧
      l = ⟨n.1.target, n.2, parent, n.1.joinColumn⟩) named lookups := by
  refine (forall₂_of_mapM_eq_ok h).imp ?_
  intro n l hl
  obtain ⟨parent, hparent, hl⟩ := bind_eq_ok hl
  cases hl
  exact ⟨parent, hparent, rfl⟩

theorem labels_lookupJoins {named : List (Join × String)} {root : String} {lookups : List LookupJoin}
    (h : lookupJoins named root = .ok lookups) : lookups.map (·.label) = named.map (·.2) := by
  refine (map_eq_map_of_forall₂ ((lookupJoins_spec h).imp ?_)).symm
  rintro n l ⟨parent, -, rfl⟩
  rfl

private theorem scoped_lookupJoins {named : List (Join × String)} {root : String} {lookups : List LookupJoin}
    (hsorted : ByLength named) (h : lookupJoins named root = .ok lookups) (indent : Sql) {before : List String}
    (hroot : root ∈ before) : FromItem.Scoped before (lookups.map (LookupJoin.fromItem indent)) := by
  -- `front` is the part of the level whose aliases are already known
  have step : ∀ (front back : List (Join × String)) (ls : List LookupJoin) (known : List String),
      named = front ++ back → root :: front.map (·.2) ⊆ known →
      List.Forall₂ (fun n l => ∃ parent, parentAlias named root n.1 = .ok parent ∧
        l = ⟨n.1.target, n.2, parent, n.1.joinColumn⟩) back ls →
      FromItem.Scoped known (ls.map (LookupJoin.fromItem indent)) := by
    intro front back ls known hnamed hknown hall
    induction hall generalizing front known with
    | nil => exact True.intro
    | @cons n l back ls hl hall ih =>
      obtain ⟨parent, hparent, rfl⟩ := hl
      have hbefore : parent ∈ known := by
        rw [hnamed] at hparent
        exact hknown (parentAlias_mem_before (hnamed ▸ hsorted) hparent)
      refine ⟨?_, ih (front ++ [n]) _ (by rw [hnamed, List.append_cons]) ?_⟩
      · rintro c ⟨⟩
        simp [LookupJoin.fromItem, hbefore]
      · intro a ha
        simp only [List.map_append, List.map_cons, List.map_nil, List.mem_cons, List.mem_append, List.not_mem_nil,
          or_false] at ha
        have hmem : ∀ b, b ∈ root :: front.map (·.2) → b ∈ known := fun b hb => hknown hb
        simp only [List.mem_cons] at hmem
        rcases ha with ha | ha | ha
        · exact List.mem_cons_of_mem _ (hmem a (Or.inl ha))
        · exact List.mem_cons_of_mem _ (hmem a (Or.inr ha))
        · exact ha ▸ List.mem_cons_self
  exact step [] named lookups before rfl (by simpa using hroot) (lookupJoins_spec h)

/-! ### Subqueries -/

private theorem aggregateItem_spec {s : Sources} {index : Nat} {a : Aggregate} {item : SelectItem}
    (h : aggregateItem s index a = .ok item) : a.IsItem s (columnName index a) item := by
  obtain ⟨value, hvalue, h⟩ := bind_eq_ok h
  cases hd : a.delimiter with
  | none =>
    rw [hd] at h
    cases h
    exact ⟨value, none, hvalue, hd ▸ .none, rfl⟩
  | some e =>
    rw [hd] at h
    obtain ⟨delimiter, hdelimiter, h⟩ := bind_eq_ok h
    cases hsql : e.toSql s with
    | error error =>
      rw [hsql] at hdelimiter
      cases hdelimiter
    | ok sql =>
      rw [hsql] at hdelimiter
      cases hdelimiter
      cases h
      exact ⟨value, some sql, hvalue, hd ▸ .some hsql, rfl⟩

private theorem aggregateItems_spec {s : Sources} {index : Nat} {as : List Aggregate} {items : List SelectItem}
    (h : aggregateItems s index as = .ok items) :
    List.Forall₂ (fun (a : Aggregate × Nat) item => a.1.IsItem s (columnName a.2 a.1) item)
      (as.zipIdx index) items := by
  induction as generalizing index items with
  | nil =>
    cases h
    exact .nil
  | cons a as ih =>
    rw [aggregateItems] at h
    obtain ⟨item, hitem, h⟩ := bind_eq_ok h
    obtain ⟨more, hmore, h⟩ := bind_eq_ok h
    cases h
    exact .cons (aggregateItem_spec hitem) (ih hmore)

/-- The steps of building a subquery. -/
theorem subquery_spec {label : String} {first : Aggregate} {others : List Aggregate} {q : Subquery}
    (h : subquery label first others = .ok q) :
    q.label = label ∧ levels first.links = q.top :: q.deeper ∧
      lookupJoins (Alias.assign (groupKey :: (q.top :: q.deeper).map (·.label))
        (ordered (allJoins (first :: others)))) (q.deeper.getLastD q.top).label = .ok q.joins ∧
      aggregateItems (itemSources q.top q.deeper (first :: others)) 0 (first :: others) = .ok q.items := by
  unfold subquery at h
  split at h
  · cases h
  · rename_i top deeper hlevels
    obtain ⟨lookups, hlookups, h⟩ := bind_eq_ok h
    obtain ⟨items, hitems, h⟩ := bind_eq_ok h
    cases h
    exact ⟨rfl, hlevels, hlookups, hitems⟩

private theorem columnName_ne_groupKey (index : Nat) (a : Aggregate) : columnName index a ≠ groupKey := by
  intro h
  have hmem : '_' ∈ (columnName index a).toList := by simp [columnName]
  rw [h] at hmem
  exact absurd hmem (by decide)

end Assembly

private theorem Aggregate.IsItem.readsOnly {a : Aggregate} {s : Sources} {column : String} {item : SelectItem}
    (h : a.IsItem s column item) : item.value.ReadsOnly s.Provides := by
  obtain ⟨value, delimiter, hvalue, hdelimiter, rfl⟩ := h
  refine AggregateFunction.readsOnly_toSql _ (Expression.readsOnly_toSql hvalue) ?_
  rintro sql ⟨⟩
  cases hd : a.delimiter with
  | none =>
    rw [hd] at hdelimiter
    cases hdelimiter
  | some e =>
    rw [hd] at hdelimiter
    cases hdelimiter with
    | some hsql => exact Expression.readsOnly_toSql hsql

namespace Subquery

open Assembly

private theorem scoped_deeperItems {up : String} {ls : List DetailLevel} {before : List String} (hup : up ∈ before) :
    FromItem.Scoped before (deeperItems up ls) := by
  induction ls generalizing up before with
  | nil => exact True.intro
  | cons l ls ih =>
    refine ⟨?_, ih List.mem_cons_self⟩
    rintro c ⟨⟩
    simp [hup]

variable {label : String} {first : Aggregate} {others : List Aggregate} {q : Subquery}

private theorem labels_levels (h : subquery label first others = .ok q) :
    (q.top :: q.deeper).map (·.label) = (List.range (q.deeper.length + 1)).map fun i => "t" ++ toString (i + 1) := by
  obtain ⟨-, hlevels, -, -⟩ := subquery_spec h
  have hlength : first.links.length = q.deeper.length + 1 := by
    have := congrArg List.length hlevels
    simpa [levels] using this
  rw [← hlevels, levels, ← hlength]
  refine map_mapIdx _ ?_
  intro i l
  rfl

private theorem nodup_aliases (h : subquery label first others = .ok q) : q.aliases.Nodup := by
  obtain ⟨-, hlevels, hlookups, -⟩ := subquery_spec h
  have hlabels := labels_lookupJoins hlookups
  refine List.nodup_append.2 ⟨?_, ?_, ?_⟩
  · rw [labels_levels h]
    exact nodup_numbered "t" _
  · rw [hlabels]
    exact Alias.nodup_assign _ _
  · intro a ha b hb hab
    rw [hlabels] at hb
    obtain ⟨n, hn, rfl⟩ := List.mem_map.1 hb
    exact Alias.assign_not_mem hn (List.mem_cons_of_mem _ (hab ▸ ha))

private theorem scoped_fromItems (h : subquery label first others = .ok q) : FromItem.Scoped [] q.fromItems := by
  obtain ⟨-, -, hlookups, -⟩ := subquery_spec h
  have hleaf : (q.deeper.getLastD q.top).label ∈ (q.top :: q.deeper).map (·.label) :=
    List.mem_map_of_mem List.getLastD_mem_cons
  refine ⟨nofun, (scoped_deeperItems List.mem_cons_self).append ?_⟩
  refine scoped_lookupJoins (byLength_assign _ _) hlookups "    " ?_
  rw [labels_deeperItems]
  simp only [List.map_cons, List.mem_cons, List.mem_append, List.not_mem_nil, or_false] at hleaf ⊢
  exact hleaf.symm

/-- A subquery is scoped by itself: its sources are its levels and its own joins. -/
theorem wellScoped (h : subquery label first others = .ok q) : q.WellScoped := by
  obtain ⟨-, hlevels, hlookups, hitems⟩ := subquery_spec h
  have hspec := aggregateItems_spec hitems
  refine ⟨q.fromLines_eq, ?_, ⟨?_, scoped_fromItems h, ?_⟩, ?_⟩
  · rw [labels_fromItems, aliases, labels_levels h]
  · rw [labels_fromItems]
    exact nodup_aliases h
  · rw [labels_fromItems]
    have hlevel : ∀ l ∈ q.top :: q.deeper, l.label ∈ q.aliases := fun l hl =>
      List.mem_append_left _ (List.mem_map_of_mem hl)
    refine List.forall_mem_cons.2 ⟨Sql.readsOnly_column.2 (hlevel _ List.mem_cons_self), List.forall_mem_map.2 ?_⟩
    intro item hitem r hr
    obtain ⟨a, -, ha⟩ := exists_mem_of_forall₂ hspec.flip hitem
    cases Aggregate.IsItem.readsOnly ha r hr with
    | table name => exact hlevel _ List.getLastD_mem_cons
    | join hmem name =>
      obtain ⟨n, hn, e⟩ := List.mem_map.1 hmem
      cases e
      refine List.mem_append_right _ ?_
      rw [labels_lookupJoins hlookups]
      exact List.mem_map_of_mem hn
    | aggregate hmem => cases hmem
  · have hnames : ((first :: others).zipIdx.map fun a => columnName a.2 a.1) = q.items.map (·.name) :=
      map_eq_map_of_forall₂ (hspec.imp fun a item ha => by
        obtain ⟨value, delimiter, -, -, rfl⟩ := ha
        rfl)
    rw [← hnames]
    refine List.nodup_cons.2 ⟨?_, nodup_columnNames _⟩
    intro hmem
    obtain ⟨a, -, ha⟩ := List.mem_map.1 hmem
    exact columnName_ne_groupKey _ _ ha

/-- Each aggregate of a subquery has a column under its number. -/
theorem columnName_mem_items (h : subquery label first others = .ok q) {i : Nat} {a : Aggregate}
    (ha : (first :: others)[i]? = some a) : columnName i a ∈ q.items.map (·.name) := by
  obtain ⟨-, -, -, hitems⟩ := subquery_spec h
  obtain ⟨item, hitem, value, delimiter, -, -, rfl⟩ := exists_mem_of_forall₂ (aggregateItems_spec hitems)
    (List.mk_mem_zipIdx_iff_getElem?.2 ha)
  exact List.mem_map_of_mem hitem

end Subquery

/-! ### The whole query -/

namespace Assembly

private theorem aggregates_ne_nil {m : KeyMap Aggregate} {g : Group} (hg : g ∈ groups m) : g.aggregates ≠ [] := by
  obtain ⟨i, hi, rfl⟩ := List.mem_mapIdx.1 hg
  obtain ⟨a, ha, hrelation⟩ := List.mem_map.1 (KeyMap.mem_sortKeys.1 (List.getElem_mem hi))
  refine List.ne_nil_of_mem (List.mem_filter.2 ⟨ha, ?_⟩)
  rw [hrelation]
  exact beq_self_eq_true _

/-- Each group has one subquery, which is built from its aggregates. -/
theorem subqueries_spec {m : KeyMap Aggregate} {subs : List (Option Subquery)}
    (h : (groups m).mapM Group.subquery? = .ok subs) :
    List.Forall₂ (fun g q => ∃ first others, g.aggregates = first :: others ∧ subquery g.label first others = .ok q)
      (groups m) (subs.filterMap id) := by
  have step : ∀ gs : List Group, (∀ g ∈ gs, g.aggregates ≠ []) → ∀ subs : List (Option Subquery),
      List.Forall₂ (fun g sub => g.subquery? = .ok sub) gs subs →
      List.Forall₂ (fun (g : Group) q => ∃ first others, g.aggregates = first :: others ∧
        subquery g.label first others = .ok q) gs (subs.filterMap id) := by
    intro gs hne subs hall
    induction hall with
    | nil => exact .nil
    | @cons g sub gs subs hsub _ ih =>
      obtain ⟨hg, hgs⟩ := List.forall_mem_cons.1 hne
      obtain ⟨first, others, hcons⟩ := List.exists_cons_of_ne_nil hg
      rw [Group.subquery?, hcons] at hsub
      cases hq : subquery g.label first others with
      | error e =>
        simp only [hq] at hsub
        cases hsub
      | ok q =>
        simp only [hq] at hsub
        cases hsub
        exact .cons ⟨first, others, hcons, hq⟩ (ih hgs)
  exact step _ (fun g hg => aggregates_ne_nil hg) subs (forall₂_of_mapM_eq_ok h)

private theorem labels_subqueries {m : KeyMap Aggregate} {subs : List (Option Subquery)}
    (h : (groups m).mapM Group.subquery? = .ok subs) :
    (subs.filterMap id).map (·.label) = (groups m).map (·.label) := by
  refine (map_eq_map_of_forall₂ ((subqueries_spec h).imp ?_)).symm
  rintro g q ⟨first, others, -, hq⟩
  exact (subquery_spec hq).1.symm

/-- The subqueries are numbered from one on. -/
theorem numbered_subqueries {m : KeyMap Aggregate} {subs : List (Option Subquery)}
    (h : (groups m).mapM Group.subquery? = .ok subs) :
    (subs.filterMap id).map (·.label) =
      (List.range (subs.filterMap id).length).map fun i => "agg_" ++ toString (i + 1) := by
  have hlength := congrArg List.length (labels_groups m)
  rw [List.length_map, List.length_map, List.length_range, (subqueries_spec h).length_eq] at hlength
  rw [labels_subqueries h, labels_groups, hlength]

/-- What the item of a field is made from. -/
theorem fieldItems_spec {s : Sources} {fields : List (String × Plan)} {items : List SelectItem}
    (h : fields.mapM (fieldItem s) = .ok items) :
    List.Forall₂ (fun f item => f.2.expression.toSql s = .ok item.value ∧ item.name = f.1) fields items := by
  refine (forall₂_of_mapM_eq_ok h).imp ?_
  intro f item hitem
  obtain ⟨value, hvalue, hitem⟩ := bind_eq_ok hitem
  cases hitem
  exact ⟨hvalue, rfl⟩

section TopLevel

variable (base : String) {parts : Parts} {lookups : List LookupJoin} {subs : List (Option Subquery)}
  (items : List SelectItem)

theorem nodup_query_aliases (hlookups : lookupJoins (namedJoins parts) baseAlias = .ok lookups)
    (hsubs : (groups parts.aggregates).mapM Group.subquery? = .ok subs) :
    (Query.aliases ⟨base, lookups, subs.filterMap id, items⟩).Nodup := by
  have hjoins := labels_lookupJoins hlookups
  have hlabels := labels_subqueries hsubs
  have hnumbered := numbered_subqueries hsubs
  refine List.nodup_cons.2 ⟨?_, List.nodup_append.2 ⟨?_, ?_, ?_⟩⟩
  · intro hmem
    rcases List.mem_append.1 hmem with hmem | hmem
    · rw [hjoins] at hmem
      obtain ⟨n, hn, hbase⟩ := List.mem_map.1 hmem
      exact Alias.assign_not_mem hn (hbase ▸ List.mem_cons_self)
    · rw [hnumbered] at hmem
      obtain ⟨i, -, hbase⟩ := List.mem_map.1 hmem
      exact absurd (congrArg (·.toList.head?) hbase) (by simp [baseAlias])
  · rw [hjoins]
    exact Alias.nodup_assign _ _
  · rw [hnumbered]
    exact nodup_numbered "agg_" _
  · intro a ha b hb hab
    rw [hjoins] at ha
    rw [hlabels] at hb
    obtain ⟨n, hn, rfl⟩ := List.mem_map.1 ha
    exact Alias.assign_not_mem hn (List.mem_cons_of_mem _ (hab ▸ hb))

/-- What fields can read is introduced at the top level, and of a subquery only its columns can be read. -/
private theorem of_provides (hlookups : lookupJoins (namedJoins parts) baseAlias = .ok lookups)
    (hsubs : (groups parts.aggregates).mapM Group.subquery? = .ok subs) {r : String × String}
    (h : (fieldSources parts).Provides r) :
    r.1 ∈ Query.aliases ⟨base, lookups, subs.filterMap id, items⟩ ∧
      ∀ sub ∈ subs.filterMap id, r.1 = sub.label → r.2 ∈ sub.items.map (·.name) := by
  have hnodup := nodup_query_aliases base items hlookups hsubs
  obtain ⟨hbase, htail⟩ := List.nodup_cons.1 hnodup
  obtain ⟨-, hnodupSubs, hdisjoint⟩ := List.nodup_append.1 htail
  have hsub : ∀ sub ∈ subs.filterMap id, sub.label ∈ (subs.filterMap id).map (·.label) := fun sub hsub =>
    List.mem_map_of_mem hsub
  cases h with
  | table name =>
    refine ⟨List.mem_cons_self, ?_⟩
    intro sub hmem hlabel
    have hlabel : baseAlias = sub.label := hlabel
    exact absurd (List.mem_append_right _ (hlabel ▸ hsub sub hmem)) hbase
  | @join id label hmem name =>
    obtain ⟨n, hn, e⟩ := List.mem_map.1 hmem
    cases e
    have hjoin : n.2 ∈ lookups.map (·.label) := by
      rw [labels_lookupJoins hlookups]
      exact List.mem_map_of_mem hn
    refine ⟨List.mem_cons_of_mem _ (List.mem_append_left _ hjoin), ?_⟩
    intro sub hmem hlabel
    exact absurd hlabel (hdisjoint _ hjoin _ (hsub sub hmem))
  | @aggregate ref c hmem =>
    obtain ⟨g, hg, hc⟩ := List.mem_flatMap.1 hmem
    obtain ⟨i, hi, hget⟩ := List.mem_mapIdx.1 hc
    obtain ⟨-, rfl⟩ := Prod.mk.inj hget
    obtain ⟨own, hown, first, others, hcons, hq⟩ := exists_mem_of_forall₂ (subqueries_spec hsubs) hg
    have hlabel : own.label = g.label := (subquery_spec hq).1
    refine ⟨List.mem_cons_of_mem _ (List.mem_append_right _ (hlabel ▸ hsub own hown)), ?_⟩
    intro sub hmem hsame
    obtain rfl : own = sub := List.inj_on_of_nodup_map hnodupSubs hown hmem (hlabel.trans hsame)
    refine Subquery.columnName_mem_items hq ?_
    rw [← hcons]
    exact List.getElem?_eq_getElem hi

end TopLevel

end Assembly

open Assembly in
/-- Whatever plans a batch holds, the query that it is assembled to is well scoped. -/
theorem Batch.wellScoped_of_assemble {b : Batch} {base : String} {q : Query} (h : b.assemble base = .ok q) :
    q.WellScoped := by
  obtain ⟨-, parts, lookups, subs, items, -, hlookups, hsubs, hitems, rfl⟩ := assemble_eq_ok_iff.1 h
  have hreads : ∀ e ∈ items.map (·.value), e.ReadsOnly (fieldSources parts).Provides := by
    intro e he
    obtain ⟨item, hitem, rfl⟩ := List.mem_map.1 he
    obtain ⟨f, -, hvalue, -⟩ := exists_mem_of_forall₂ (fieldItems_spec hitems).flip hitem
    exact Expression.readsOnly_toSql hvalue
  have hprovides := fun r => of_provides base items (r := r) hlookups hsubs
  refine ⟨Query.fromSql_eq _, ?_, ⟨?_, ?_, ?_⟩, ?_, ?_⟩
  · rw [Query.labels_fromItems, Query.aliases, ← numbered_subqueries hsubs]
    rfl
  · rw [Query.labels_fromItems]
    exact nodup_query_aliases base items hlookups hsubs
  · refine ⟨nofun, FromItem.Scoped.append ?_ (FromItem.scoped_of_forall ?_)⟩
    · exact scoped_lookupJoins (byLength_assign _ _) hlookups ⟨[]⟩ List.mem_cons_self
    · intro i hi c hc
      obtain ⟨sub, -, rfl⟩ := List.mem_map.1 hi
      cases hc
      simp [Subquery.fromItem]
  · intro e he r hr
    rw [Query.labels_fromItems]
    exact (hprovides r (hreads e he r hr)).1
  · intro sub hsub e he r hr
    exact (hprovides r (hreads e he r hr)).2 sub hsub
  · intro sub hsub
    obtain ⟨g, -, first, others, -, hq⟩ := exists_mem_of_forall₂ (subqueries_spec hsubs).flip hsub
    exact Subquery.wellScoped hq

/-- A batch made by hand. Its tables are named like aliases that are taken, its chains lead through tables that do
not fit together, and its fields have different joins under one identifier. -/
def Batch.crossed : Batch :=
  let info : Info := ⟨"x", [], .number, .main⟩
  let join (id source target : String) (chain : List String) : Join := ⟨source, target, "ref", chain, id, .main⟩
  let total : Aggregate :=
    { id := "total", function := .sum, relation := "orders", source := "base"
      links := [⟨"orders", "s", "base_id"⟩, ⟨"lines", "agg_1", "order_id"⟩]
      expression := .related info "k" "amount", delimiter := none
      joins := ⟨[("l", join "l" "" "" ["item", "kind"]), ("k", join "k" "nowhere" "T1" ["item"])]⟩
      context := .main, innerContext := .main, type := .number }
  ⟨[("first", ⟨.binary info .add (.related info "b" "rate") (.aggregate info "total"),
      ⟨[("b", join "b" "nowhere" "rates" ["s", "rate"]), ("a", join "a" "base" "S" ["s"])]⟩, ⟨[("total", total)]⟩⟩),
    ("second", ⟨.related info "b" "rate",
      ⟨[("c", join "a" "base" "other" ["s"]), ("d", join "d" "base" "AGG_1" ["d"])]⟩,
      ⟨[("total", { total with function := .max })]⟩⟩)]⟩

theorem Batch.wellScoped_of_assemble_crossed :
    ∃ q, Batch.crossed.assemble "base" = .ok q ∧ q.aliases = ["s", "s_2", "agg_1_2", "s_rate", "agg_1"] ∧
      q.subqueries.map Subquery.aliases = [["t1", "t2", "t1_2", "item_kind"]] ∧ q.WellScoped := by
  obtain ⟨q, hq, houter, hinner⟩ := exists_assemble_of_check .crossed "base"
    (fun q => q.aliases = ["s", "s_2", "agg_1_2", "s_rate", "agg_1"] ∧
      q.subqueries.map Subquery.aliases = [["t1", "t2", "t1_2", "item_kind"]])
    (by
      simp only [Batch.assemble, Assembly.Group.subquery?.eq_unfold, Assembly.subquery,
        Assembly.ordered_eq_insertionSort]
      decide +kernel)
  exact ⟨q, hq, houter, hinner, Batch.wellScoped_of_assemble hq⟩

end FormulaQuery
