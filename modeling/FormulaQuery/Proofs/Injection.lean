import FormulaQuery.Proofs.Words

/-!
# User text stays in quotes

The words of an assembled query are those of its schema, its field names and aliases, and the texts and dates of its
formulas (`Query.vocabulary`). So its text follows the grammar of printed SQL, whatever these words are: it is read
as the pieces that it was printed from, its quoted tokens are `Query.words`, and user text is outside quotes only as
a number or a plain table name (`Query.text_lexically_closed`).
-/

namespace FormulaQuery

/-! ### The words of a schema -/

namespace Table

/-- The tables of a schema: its own one, and those that relationships lead to. -/
inductive Within : Table → Table → Prop
  | refl (t : Table) : Within t t
  | link {t u : Table} {n : String} {link : Link Table} (h : (n, link) ∈ t.direct.entries ++ t.inverse.entries)
    (hu : Within u link.target) : Within u t

/-- The name `n` is that of a table in a schema. -/
def HasTable (schema : Table) (n : String) : Prop := ∃ t : Table, t.Within schema ∧ t.name = n

/-- The name `n` is that of a column or a join column in a schema. -/
def HasColumn (schema : Table) (n : String) : Prop :=
  ∃ t : Table, t.Within schema ∧
    (n ∈ t.columns.names ∨ ∃ e ∈ t.direct.entries ++ t.inverse.entries, e.2.joinColumn = n)

/-- All that is named in the schema `u` is named in `t`. -/
structure NamesIn (u t : Table) : Prop where
  table : ∀ n, u.HasTable n → t.HasTable n
  column : ∀ n, u.HasColumn n → t.HasColumn n

variable {t u : Table}

private theorem hasColumn_of_get? {n : String} {type : ValueType} (h : t.columns.get? n = some (n, type)) :
    t.HasColumn n :=
  ⟨t, .refl t, Or.inl (List.mem_map_of_mem (List.mem_of_find?_eq_some h))⟩

private theorem namesIn_target {n : String} {link : Link Table}
    (h : (n, link) ∈ t.direct.entries ++ t.inverse.entries) :
    link.target.NamesIn t where
  table := fun _ ⟨u, hu, hn⟩ => ⟨u, .link h hu, hn⟩
  column := fun _ ⟨u, hu, hn⟩ => ⟨u, .link h hu, hn⟩

/-- A route goes by columns of the schema to tables of the schema. -/
private theorem names_of_route {kind : Table → NameMap (Link Table)}
    (hkind : ∀ t, ∀ e ∈ (kind t).entries, e ∈ t.direct.entries ++ t.inverse.entries) {hops : List Hop}
    (hr : Hop.Route kind t hops) : ∀ k ∈ hops, t.HasColumn k.link.joinColumn ∧ k.link.target.NamesIn t := by
  induction hops generalizing t with
  | nil => exact nofun
  | cons k hops ih =>
    obtain ⟨-, hget, -, hr⟩ := hr
    have hmem := hkind t _ (List.mem_of_find?_eq_some hget)
    have hk := namesIn_target hmem
    refine List.forall_mem_cons.2 ⟨⟨⟨t, .refl t, Or.inr ⟨_, hmem, rfl⟩⟩, hk⟩, ?_⟩
    intro l hl
    obtain ⟨hcolumn, hnames⟩ := ih hr l hl
    exact ⟨hk.column _ hcolumn, fun n hn => hk.table n (hnames.table n hn),
      fun n hn => hk.column n (hnames.column n hn)⟩

private theorem names_of_direct {hops : List Hop} (hr : Hop.Route Table.direct t hops) :
    ∀ k ∈ hops, t.HasColumn k.link.joinColumn ∧ k.link.target.NamesIn t :=
  names_of_route (fun _ _ => List.mem_append_left _) hr

private theorem names_of_inverse {hops : List Hop} (hr : Hop.Route Table.inverse t hops) :
    ∀ k ∈ hops, t.HasColumn k.link.joinColumn ∧ k.link.target.NamesIn t :=
  names_of_route (fun _ _ => List.mem_append_right _) hr

end Table

/-! ### The words of a batch -/

/-- The text `t` stands in an expression, as a text or a date. -/
def Expression.Quotes (e : Expression) (t : String) : Prop :=
  ∃ info, (Expression.string info t).Within e ∨ (Expression.date info t).Within e

/-- The text `t` stands in the expression of a plan or in an aggregate that it reads. -/
def Plan.Quotes (p : Plan) (t : String) : Prop :=
  p.expression.Quotes t ∨ ∃ a ∈ p.aggregates.values, a.expression.Quotes t ∨ ∃ d ∈ a.delimiter, d.Quotes t

/-- The names that a query introduces beside those of its fields. -/
def Query.labels (q : Query) : List String :=
  q.joins.map (·.label) ++ q.subqueries.flatMap fun sub => sub.label :: (sub.aliases ++ sub.items.map (·.name))

/-- The words of a query for a batch of formulas over a schema. -/
def Query.vocabulary (q : Query) (schema : Table) (b : Batch) : Sql.Vocabulary where
  table n := n = q.base ∨ schema.HasTable n
  label n := n ∈ [baseAlias, groupKey] ∨ n ∈ q.labels ∨ n ∈ b.fields.map (·.1)
  column n := n ∈ [primaryKey, groupKey] ∨ schema.HasColumn n ∨ ∃ sub ∈ q.subqueries, n ∈ sub.items.map (·.name)
  text t := t ∈ [",", "", "1 day"] ∨ ∃ f ∈ b.fields, f.2.Quotes t
  label_of_fixed _ := Or.inl
  column_of_fixed _ := Or.inl
  text_of_fixed _ := Or.inl

/-- The names of a schema are words of a vocabulary. -/
structure Sql.Vocabulary.Covers (v : Sql.Vocabulary) (schema : Table) : Prop where
  table : ∀ n, schema.HasTable n → v.table n
  column : ∀ n, schema.HasColumn n → v.column n

private theorem Sql.Vocabulary.Covers.of_namesIn {v : Sql.Vocabulary} {t u : Table} (h : v.Covers t)
    (hu : u.NamesIn t) : v.Covers u :=
  ⟨fun n hn => h.table n (hu.table n hn), fun n hn => h.column n (hu.column n hn)⟩

section Speaks

variable {v : Sql.Vocabulary} {s : Scope}

/-- The numbers of a plan are those that a formula can spell. -/
theorem Scope.Compiled.isNumberText {p : Plan} (h : Compiled s p) {info : Info} {n : Binary64}
    (hw : (Expression.number info n).Within p.expression) : IsNumberText (Decimal96.text n).toList := by
  obtain ⟨q, hq, he, -⟩ := h.exists_of_within hw
  cases hq with
  | number s rank =>
    cases he
    exact Decimal96.isNumberText rank
  | _ => cases he

/-- A plan speaks only of what its scope and its sources have. -/
theorem Scope.Compiled.speaks {p : Plan} (h : Compiled s p) {sources : Sources} (hschema : v.Covers s.table)
    (htable : v.label sources.table) (hjoins : ∀ id label, sources.joins.lookup id = some label → v.label label)
    (haggregates : ∀ ref c, sources.aggregates.lookup ref = some c → v.label c.source ∧ v.column c.column)
    (htext : ∀ t, p.expression.Quotes t → v.text t) : p.expression.Speaks v sources where
  number info n hw := h.isNumberText hw
  string info t hw := htext t ⟨info, Or.inl hw⟩
  date info t hw := htext t ⟨info, Or.inr hw⟩
  column info name hw := by
    obtain ⟨q, hq, he, -⟩ := h.exists_of_within hw
    cases hq with
    | column s hn hne hget =>
      cases he
      exact ⟨htable, hschema.column _ (Table.hasColumn_of_get? hget)⟩
    | _ => cases he
  related info join name hw label hlabel := by
    obtain ⟨q, hq, he, -⟩ := h.exists_of_within hw
    cases hq with
    | @related _ init last name type hr hn hget =>
      cases he
      have hlast := (Table.names_of_direct hr last (List.mem_append_right _ List.mem_cons_self)).2
      exact ⟨hjoins _ label hlabel, (hschema.of_namesIn hlast).column _ (Table.hasColumn_of_get? hget)⟩
    | _ => cases he
  aggregate info ref _ := haggregates ref

private theorem LevelReads.speaks {t : Table} {context : Context} {m : KeyMap Join} {root : String}
    {taken : List String} {sources : List (String × String)} {lookups : List LookupJoin}
    (h : LevelReads t context m root taken sources lookups)
    (hm : JoinsClosed t context m) (hschema : v.Covers t) (hroot : v.label root)
    (hlabel : ∀ n ∈ lookups.map (·.label), v.label n) : ∀ l ∈ lookups, l.Speaks v := by
  intro l hl
  obtain ⟨j, hj, htable, hcolumn⟩ := h.exists_join l hl
  obtain ⟨init, k, hr, rfl⟩ := hm.all j hj
  obtain ⟨hjoin, htarget⟩ := Table.names_of_direct hr k (List.mem_append_right _ List.mem_cons_self)
  refine ⟨?_, hlabel _ (List.mem_map_of_mem hl), ?_, ?_⟩
  · rw [htable]
    exact (hschema.of_namesIn htarget).table _ ⟨_, .refl _, rfl⟩
  · rcases List.mem_cons.1 (h.parent_mem l hl) with hparent | hparent
    · exact hparent ▸ hroot
    · exact hlabel _ hparent
  · rw [hcolumn]
    exact hschema.column _ hjoin

private theorem Scope.AggregateAt.printed_of_isItem {d : Scope.Destination} {a : Aggregate} (h : s.AggregateAt d a)
    {top : DetailLevel} {deeper : List DetailLevel} {as : List Aggregate} {column : String} {item : SelectItem}
    (hitem : a.IsItem (Assembly.itemSources top deeper as) column item) (hschema : v.Covers s.table)
    (htarget : v.Covers d.target) (hleaf : v.label (deeper.getLastD top).label)
    (hjoins : ∀ id label, (Assembly.itemSources top deeper as).joins.lookup id = some label → v.label label)
    (htext : ∀ t, (a.expression.Quotes t ∨ ∃ e ∈ a.delimiter, e.Quotes t) → v.text t) : Sql.Printed v item.value := by
  obtain ⟨value, delimiter, hvalue, hdelimiter, rfl⟩ := hitem
  refine AggregateFunction.printed_toSql _ ?_ ?_
  · obtain ⟨p, hp, he, -⟩ := h.inner
    rw [he] at hvalue htext
    exact Expression.printed_toSql (hp.speaks htarget hleaf hjoins nofun fun t ht => htext t (Or.inl ht)) hvalue
  · rintro sql ⟨⟩
    cases hd : a.delimiter with
    | none =>
      rw [hd] at hdelimiter
      cases hdelimiter
    | some e =>
      rw [hd] at hdelimiter
      obtain ⟨p, hp, rfl, -⟩ := h.delimiter e hd
      cases hdelimiter with
      | some hsql =>
        exact Expression.printed_toSql (hp.speaks hschema hleaf hjoins nofun
          fun t ht => htext t (Or.inr ⟨_, hd, ht⟩)) hsql

/-- All words of a subquery come from the schema, its own labels and the texts of its aggregates. -/
private theorem Subquery.Built.speaks {q : Subquery} {d : Scope.Destination} {as : List Aggregate}
    (h : q.Built s d as)
    (hschema : v.Covers s.table) (hlabel : v.label q.label) (haliases : ∀ n ∈ q.aliases, v.label n)
    (hitems : ∀ n ∈ q.items.map (·.name), v.label n)
    (htext : ∀ a ∈ as, ∀ t, (a.expression.Quotes t ∨ ∃ e ∈ a.delimiter, e.Quotes t) → v.text t) : q.Speaks v := by
  have hlevel : ∀ l ∈ q.top :: q.deeper, v.label l.label := fun l hl =>
    haliases _ (List.mem_append_left _ (List.mem_map_of_mem hl))
  have hjoin : ∀ n ∈ q.joins.map (·.label), v.label n := fun n hn => haliases n (List.mem_append_right _ hn)
  have hroute := Table.names_of_inverse h.destination.route
  have htarget : v.Covers d.target := by
    obtain ⟨last, hlast, htarget⟩ := Option.map_eq_some_iff.1 h.destination.target
    exact htarget ▸ hschema.of_namesIn (hroute last (List.mem_of_getLast? hlast)).2
  have hleaf : v.label (q.deeper.getLastD q.top).label := by
    refine hlevel _ ?_
    rw [List.getLastD_eq_getLast?]
    cases hlast : q.deeper.getLast? with
    | none => exact List.mem_cons_self
    | some l => exact List.mem_cons_of_mem _ (List.mem_of_getLast? hlast)
  refine ⟨hlabel, ?_, ?_, ?_⟩
  · intro l hl
    obtain ⟨i, hi, hl'⟩ := List.mem_mapIdx.1 (h.levels ▸ hl)
    obtain ⟨k, hk, hlink⟩ := List.mem_map.1 (List.getElem_mem hi)
    rw [← hlink] at hl'
    refine ⟨?_, hlevel l hl, ?_⟩
    · rw [← hl']
      exact (hschema.of_namesIn (hroute k hk).2).table _ ⟨_, .refl _, rfl⟩
    · rw [← hl']
      exact hschema.column _ (hroute k hk).1
  · exact h.reads.speaks (Assembly.joinsClosed_allJoins h.aggregates).1 htarget hleaf hjoin
  · intro item hitem
    obtain ⟨⟨a, i⟩, ha, his⟩ := exists_mem_of_forall₂ h.items.flip hitem
    refine ⟨?_, hitems _ (List.mem_map_of_mem hitem)⟩
    have ha : a ∈ as := List.fst_mem_of_mem_zipIdx ha
    exact (h.aggregates a ha).printed_of_isItem his hschema htarget hleaf
      (fun id label hlabel => hjoin label (h.reads.label_mem id label hlabel)) (htext a ha)

end Speaks

open Assembly in
/-- All words of the query of a batch are in its vocabulary. -/
theorem Query.Built.speaks {q : Query} {s : Scope} {b : Batch} (h : q.Built s b) :
    q.Speaks (q.vocabulary s.table b) := by
  have hschema : (q.vocabulary s.table b).Covers s.table := ⟨fun n => Or.inr, fun n hn => Or.inr (Or.inl hn)⟩
  have hbase : (q.vocabulary s.table b).label baseAlias := Or.inl (by decide)
  have hjoin : ∀ n ∈ q.joins.map (·.label), (q.vocabulary s.table b).label n := fun n hn =>
    Or.inr (Or.inl (List.mem_append_left _ hn))
  have hsub : ∀ sub ∈ q.subqueries, ∀ n ∈ sub.label :: (sub.aliases ++ sub.items.map (·.name)),
      (q.vocabulary s.table b).label n := fun sub hs n hn =>
    Or.inr (Or.inl (List.mem_append_right _ (List.mem_flatMap.2 ⟨sub, hs, hn⟩)))
  refine ⟨Or.inl rfl, h.reads.speaks h.closed hschema hbase hjoin, ?_, ?_⟩
  · intro sub hs
    obtain ⟨hlabel, hrest⟩ := List.forall_mem_cons.1 (hsub sub hs)
    obtain ⟨haliases, hitems⟩ := List.forall_mem_append.1 hrest
    obtain ⟨g, -, -, hmem, d, hbuilt⟩ := exists_mem_of_forall₂ h.subqueries.flip hs
    refine hbuilt.speaks hschema hlabel haliases hitems ?_
    intro a ha t ht
    obtain ⟨f, hf, haf⟩ := (h.mem_aggregates a).1 (hmem a ha)
    exact Or.inr ⟨f, hf, Or.inr ⟨a, haf, ht⟩⟩
  · intro item hitem
    obtain ⟨f, hf, hname, hvalue⟩ := exists_mem_of_forall₂ h.fields.flip hitem
    refine ⟨?_, hname ▸ Or.inr (Or.inr (List.mem_map_of_mem hf))⟩
    refine Expression.printed_toSql ((h.compiled f hf).speaks hschema hbase ?_ ?_ ?_) hvalue
    · exact fun id label hlabel => hjoin label (h.reads.label_mem id label hlabel)
    -- a column of an aggregate is named by an item of its subquery
    · intro ref c hc
      obtain ⟨g, hg, hcolumn⟩ := List.mem_flatMap.1 (KeyMap.mem_of_lookup hc)
      obtain ⟨i, hi, hpair⟩ := List.mem_mapIdx.1 hcolumn
      obtain ⟨-, rfl⟩ := Prod.mk.inj hpair
      obtain ⟨sub, hs, hlabel, -, d, hbuilt⟩ := exists_mem_of_forall₂ h.subqueries hg
      obtain ⟨item, hitem, value, delimiter, -, -, rfl⟩ := exists_mem_of_forall₂ hbuilt.items
        (List.mk_mem_zipIdx_iff_getElem?.2 (List.getElem?_eq_getElem hi))
      exact ⟨hsub sub hs _ (hlabel ▸ List.mem_cons_self), Or.inr (Or.inr ⟨sub, hs, List.mem_map.2 ⟨_, hitem, rfl⟩⟩)⟩
    · exact fun t ht => Or.inr ⟨f, hf, Or.inl ht⟩

/-- The query of a batch of formulas is lexically closed, for any schema, any field names and any texts in the
formulas: it is read as the pieces that it was printed from; outside quotes the parentheses match and no statement
or comment begins, and there is nothing but fixed texts, numbers and plain table names; and the quoted tokens stand,
in this order, for the names and texts of its records and of the expressions of its fields. -/
theorem Query.text_lexically_closed {schema : Table} {maxDepth : Nat} {b : Batch}
    (hb : ∀ f ∈ b.fields, ∃ text, Plan.ofFormula text schema maxDepth = .ok f.2) {base : String} {q : Query}
    (hq : b.assemble base = .ok q) :
    Lexical.scan q.text = some q.toSql.items ∧ Lexical.IsClean q.toSql.items ∧
      (∀ piece ∈ q.toSql.pieces, piece.IsFrom (q.vocabulary schema b)) ∧
      (Lexical.scan q.text).map Lexical.words = some (q.words b) := by
  have hbuilt := built_of_assemble (compiled_of_formulas hb) hq
  have hne : q.fields ≠ [] := by
    intro hnil
    have hfields := hbuilt.fields
    rw [hnil] at hfields
    exact (Assembly.assemble_eq_ok_iff.1 hq).1 (List.forall₂_nil_right_iff.1 hfields)
  have hprinted := Query.printed_toSql hbuilt.speaks hne
  refine ⟨hprinted.scan_text, hprinted.isClean, hprinted.isFrom, ?_⟩
  rw [Query.text, hprinted.scan_text]
  exact congrArg some hbuilt.words_toSql

theorem Query.text_lexically_closed_tangled :
    ∃ p q query, Batch.assemble ⟨[("it's; --", p), ("ra\"tio/*", q)]⟩ Table.tangled.name = .ok query ∧
      Lexical.scan query.text = some query.toSql.items ∧ Lexical.IsClean query.toSql.items ∧
      (∀ piece ∈ query.toSql.pieces,
        piece.IsFrom (query.vocabulary .tangled ⟨[("it's; --", p), ("ra\"tio/*", q)]⟩)) ∧
      (Lexical.scan query.text).map Lexical.words = some (query.words ⟨[("it's; --", p), ("ra\"tio/*", q)]⟩) := by
  obtain ⟨p, q, hp, hq, -⟩ := exists_tangled_plans
  have hb := formulas_of_pair hp hq "it's; --" "ra\"tio/*"
  obtain ⟨query, hquery, -⟩ := exists_assemble (compiled_of_formulas hb) (List.cons_ne_nil _ _)
  exact ⟨p, q, query, hquery, Query.text_lexically_closed hb hquery⟩

end FormulaQuery
