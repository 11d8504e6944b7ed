import FormulaQuery.Proofs.Insertions
import FormulaQuery.Proofs.Planning

/-!
# Extending a schema

A schema is extended by one more column or relationship at any of its tables (`Table.Extends`). Formulas that have a
plan keep it (`Plan.ofFormula_of_extends`). The name of a relationship is looked up without its ending `_rel` first,
so a new relationship `rep` would hide one that is named `rep_rel`; this is the only way in which an entry under a
new name could be noticed.

What a formula finds in a table is its columns and its relationships. A relation between tables that keeps these, and
that holds again of the tables that kept relationships lead to, keeps the plans of all formulas
(`Scope.Plans.of_keeps`). That a table is extended is one such relation.
-/

namespace FormulaQuery

private theorem Ascii.lower_append (s t : String) : lower (s ++ t) = lower s ++ lower t := by
  rw [lower, String.toList_append, List.map_append, String.ofList_append, lower, lower]

/-! ### Maps with one more entry -/

namespace NameMap

variable {α : Type} {m m' : NameMap α} {name : String} {value : α}

/-- `m'` is `m` with one more entry, wherever it stands, whose name is the same as no name of `m`. -/
structure Adds (m : NameMap α) (name : String) (value : α) (m' : NameMap α) : Prop where
  fresh : m.get? name = none
  entry : ∃ front back, m.entries = front ++ back ∧ m'.entries = front ++ (name, value) :: back

/-- The one name that is looked up differently is the new one. -/
theorem Adds.get?_eq (h : m.Adds name value m') {x : String} (hx : Ascii.sameName name x = false) :
    m'.get? x = m.get? x := by
  obtain ⟨-, front, back, hm, hm'⟩ := h
  unfold get?
  rw [hm, hm', List.find?_append, List.find?_append, List.find?_cons_of_neg]
  exact Bool.eq_false_iff.1 hx

private theorem Adds.get?_eq_some (h : m.Adds name value m') {x : String} {e : String × α} (he : m.get? x = some e) :
    m'.get? x = some e := by
  rw [h.get?_eq, he]
  refine Bool.eq_false_iff.2 fun hx => ?_
  have hnone := h.fresh
  rw [m.get?_eq_of_sameName hx, he] at hnone
  cases hnone

/-- A name that a map does not have is inserted at its end. -/
theorem entries_insert (h : m.get? name = none) : (m.insert name value).entries = m.entries ++ [(name, value)] := by
  rw [get?, List.find?_eq_none] at h
  exact replaceOrAppend_of_new fun e he => Bool.eq_false_iff.2 (h e he)

private theorem adds_insert (h : m.get? name = none) : m.Adds name value (m.insert name value) :=
  ⟨h, m.entries, [], (List.append_nil _).symm, entries_insert h⟩

end NameMap

/-! ### Schemas with one more entry -/

/-- `t.Extends t'` says that `t'` is `t` with one more column or relationship, at `t` itself or at a table that it
leads to. Its name is new where it stands, and no relationship there is named so with the ending `_rel`. -/
inductive Table.Extends : Table → Table → Prop
  | column {t : Table} {name : String} {type : ValueType} {columns : NameMap ValueType}
    (h : t.columns.Adds name type columns) : Extends t { t with columns := columns }
  | direct {t : Table} {name : String} {link : Link Table} {links : NameMap (Link Table)}
    (h : t.direct.Adds name link links) (hr : t.direct.get? (name ++ "_rel") = none) :
    Extends t { t with direct := links }
  | inverse {t : Table} {name : String} {link : Link Table} {links : NameMap (Link Table)}
    (h : t.inverse.Adds name link links) (hr : t.inverse.get? (name ++ "_rel") = none) :
    Extends t { t with inverse := links }
  | underDirect {t u u' : Table} {name column : String} {front back : List (String × Link Table)}
    (h : Extends u u') (ht : t.direct.entries = front ++ (name, ⟨column, u⟩) :: back) :
    Extends t { t with direct := ⟨front ++ (name, ⟨column, u'⟩) :: back⟩ }
  | underInverse {t u u' : Table} {name column : String} {front back : List (String × Link Table)}
    (h : Extends u u') (ht : t.inverse.entries = front ++ (name, ⟨column, u⟩) :: back) :
    Extends t { t with inverse := ⟨front ++ (name, ⟨column, u'⟩) :: back⟩ }

private theorem Table.extends_withDirect {t : Table} {name : String} (link : Link Table)
    (h : t.direct.get? name = none)
    (hr : t.direct.get? (name ++ "_rel") = none) : t.Extends (t.withDirect name link) :=
  .direct (NameMap.adds_insert h) hr

private theorem Table.Extends.withInverse {t u u' : Table} {name : String} (column : String) (h : u.Extends u')
    (hn : t.inverse.get? name = none) :
    (t.withInverse name ⟨column, u⟩).Extends (t.withInverse name ⟨column, u'⟩) := by
  have hnew : t.inverse.insert name ⟨column, u'⟩ = ⟨t.inverse.entries ++ [(name, ⟨column, u'⟩)]⟩ :=
    congrArg NameMap.mk (NameMap.entries_insert hn)
  unfold Table.withInverse
  rw [hnew]
  exact .underInverse h (NameMap.entries_insert hn)

/-! ### Relations that keep what formulas find -/

variable {R : Table → Table → Prop}

/-- An entry whose name and join column are kept, and whose target is related to what it was. -/
structure Link.Kept (R : Table → Table → Prop) (e e' : String × Link Table) : Prop where
  name : e'.1 = e.1
  joinColumn : e'.2.joinColumn = e.2.joinColumn
  target : R e.2.target e'.2.target

/-- Relationships that are found are found again, and lead to related tables. -/
def Link.Keeps (R : Table → Table → Prop) (links links' : NameMap (Link Table)) : Prop :=
  ∀ (name : String) (e : String × Link Table), find? links name = some e → ∃ e', find? links' name = some e' ∧
    Kept R e e'

/-- A table in which all that is found in `t` is found again. -/
structure Table.Keeps (R : Table → Table → Prop) (t t' : Table) : Prop where
  name : t'.name = t.name
  columns : ∀ {n : String} {e : String × ValueType}, t.columns.get? n = some e → t'.columns.get? n = some e
  direct : Link.Keeps R t.direct t'.direct
  inverse : Link.Keeps R t.inverse t'.inverse

namespace Hop

/-- A hop that differs from another one only in what its target holds. -/
structure Kept (R : Table → Table → Prop) (h h' : Hop) : Prop where
  source : h'.source = h.source
  name : h'.name = h.name
  joinColumn : h'.link.joinColumn = h.link.joinColumn
  targetName : h'.link.target.name = h.link.target.name
  target : R h.link.target h'.link.target

variable {hops hops' : List Hop}

/-- Names lead along the same hops. -/
theorem follow_of_keeps {kind : Table → NameMap (Link Table)} (hR : ∀ t t', R t t' → t.Keeps R t')
    (hkind : ∀ {t t'}, t.Keeps R t' → Link.Keeps R (kind t) (kind t')) {chain : List String} {t t' : Table}
    (ht : R t t') (h : follow kind t chain = .ok hops) :
    ∃ hops', follow kind t' chain = .ok hops' ∧ List.Forall₂ (Kept R) hops hops' := by
  induction chain generalizing t t' hops with
  | nil =>
    cases h
    exact ⟨[], rfl, .nil⟩
  | cons n chain ih =>
    unfold follow at h
    split at h
    · cases h
    · rename_i spelling link hfind
      obtain ⟨more, hmore, h⟩ := bind_eq_ok h
      cases h
      obtain ⟨⟨spelling', link'⟩, hfind', hkept⟩ := hkind (hR t t' ht) _ _ hfind
      obtain ⟨more', hmore', hall⟩ := ih hkept.target hmore
      refine ⟨⟨t'.name, spelling', link'⟩ :: more', ?_, .cons ?_ hall⟩
      · unfold follow
        rw [hfind']
        exact bind_of_eq_ok hmore' rfl
      · exact ⟨(hR t t' ht).name, hkept.name, hkept.joinColumn, (hR _ _ hkept.target).name, hkept.target⟩

private theorem names_of_kept (h : List.Forall₂ (Kept R) hops hops') : names hops' = names hops := by
  induction h with
  | nil => rfl
  | cons hk _ ih => exact congrArg₂ List.cons hk.name ih

private theorem joinColumns_of_kept (h : List.Forall₂ (Kept R) hops hops') :
    hops'.map (·.link.joinColumn) = hops.map (·.link.joinColumn) := by
  induction h with
  | nil => rfl
  | cons hk _ ih => exact congrArg₂ List.cons hk.joinColumn ih

private theorem pathLinks_of_kept (h : List.Forall₂ (Kept R) hops hops') :
    hops'.map pathLink = hops.map pathLink := by
  induction h with
  | nil => rfl
  | cons hk _ ih =>
    rw [List.map_cons, List.map_cons, ih, pathLink, pathLink, hk.name, hk.targetName, hk.joinColumn]

private theorem Kept.join_eq {h h' : Hop} (hk : Kept R h h') (context : Context) (before : List String) :
    h'.join context before = h.join context before := by
  rw [join, join, hk.source, hk.name, hk.joinColumn, hk.targetName]

private theorem joins_of_kept (h : List.Forall₂ (Kept R) hops hops') (context : Context) (before : List String) :
    joins context before hops' = joins context before hops := by
  induction h generalizing before with
  | nil => rfl
  | cons hk _ ih => rw [joins, joins, hk.join_eq, hk.name, ih]

/-- The last of kept hops is kept. -/
theorem exists_concat_of_kept {init : List Hop} {last : Hop} (h : List.Forall₂ (Kept R) (init ++ [last]) hops') :
    ∃ init' last', hops' = init' ++ [last'] ∧ List.Forall₂ (Kept R) init init' ∧ Kept R last last' := by
  have hinit := List.forall₂_take_append _ _ _ h.flip
  have hlast := List.forall₂_drop_append _ _ _ h.flip
  cases hdrop : hops'.drop init.length with
  | nil =>
    rw [hdrop] at hlast
    cases hlast
  | cons last' rest =>
    rw [hdrop] at hlast
    cases hlast with
    | cons hk hrest =>
      cases hrest
      exact ⟨hops'.take init.length, last', by rw [← hdrop, List.take_append_drop], hinit.flip, hk⟩

private theorem target?_of_kept (h : List.Forall₂ (Kept R) hops hops') {t : Table} (ht : target? hops = some t) :
    ∃ t', target? hops' = some t' ∧ t'.name = t.name ∧ R t t' := by
  rcases List.eq_nil_or_concat hops with rfl | ⟨init, last, rfl⟩
  · cases ht
  · rw [List.concat_eq_append] at h ht
    obtain ⟨init', last', rfl, -, hk⟩ := exists_concat_of_kept h
    rw [target?, List.getLast?_concat] at ht
    cases ht
    exact ⟨last'.link.target, by rw [target?, List.getLast?_concat]; rfl, hk.targetName, hk.target⟩

end Hop

namespace Scope

/-- Relations that keep what formulas find keep the plans of formulas. -/
theorem Plans.of_keeps (hR : ∀ t t', R t t' → t.Keeps R t') {s : Scope} {f : Formula} {p : Plan} (h : Plans s f p)
    {t' : Table} (ht : R s.table t') : Plans { s with table := t' } f p := by
  induction h generalizing t' with
  | number s pos n => exact .number { s with table := t' } pos n
  | string s pos text => exact .string { s with table := t' } pos text
  | boolean s pos b => exact .boolean { s with table := t' } pos b
  | null s pos => exact .null { s with table := t' } pos
  | date s pos text => exact .date { s with table := t' } pos text
  | column pos h => exact .column pos ((hR _ _ ht).columns h)
  | @related s pos chain init last field spelling type hc h =>
    obtain ⟨hops', hc', hkept⟩ := Hop.follow_of_keeps hR (fun h => h.direct) ht hc
    obtain ⟨init', last', rfl, hinit, hlast⟩ := Hop.exists_concat_of_kept hkept
    have hplan :
        relatedPlan { s with table := t' } init' last' spelling type = s.relatedPlan init last spelling type := by
      unfold relatedPlan
      dsimp only
      rw [Hop.joins_of_kept hkept, Hop.names_of_kept hkept, Hop.names_of_kept hinit, hlast.join_eq]
      rfl
    rw [← hplan]
    exact .related pos hc' ((hR _ _ hlast.target).columns h)
  | negate pos _ h ih => exact .negate pos (ih ht) h
  | binary pos _ _ h ihl ihr => exact .binary pos (ihl ht) (ihr ht) h
  | call pos hs hn hf hd ha hl _ htypes h ih =>
    exact .call pos hs hn hf hd ha hl (fun x hx => ih x hx ht) htypes h
  | dateDifference pos unitPos hs hn hd ha _ _ htypes hunit ihp ihq =>
    exact .dateDifference pos unitPos hs hn hd ha (ihp ht) (ihq ht) htypes hunit
  | @aggregate s pos pathPos name f segments value more d inner delimiter hn hm hdepth hpath htarget _ h hcount hl
      hconstant _ htext ihv ihm =>
    obtain ⟨hops', hpath', hkept⟩ := Hop.follow_of_keeps hR (fun h => h.inverse) ht hpath
    obtain ⟨target', htarget', hname, hrelated⟩ := Hop.target?_of_kept hkept htarget
    have hnested : nested { s with table := t' } ⟨hops', target'⟩ = { s.nested d with table := target' } := by
      unfold nested
      dsimp only
      rw [(hR _ _ ht).name, hname, Hop.joinColumns_of_kept hkept]
    have hplan : Scope.aggregate { s with table := t' } f ⟨hops', target'⟩ inner delimiter =
        s.aggregate f d inner delimiter := by
      unfold Scope.aggregate
      rw [hnested]
      dsimp only
      rw [(hR _ _ ht).name, Hop.names_of_kept hkept, Hop.pathLinks_of_kept hkept]
    rw [← hplan]
    refine .aggregate pos pathPos hn hm hdepth hpath' htarget' ?_ h hcount hl hconstant
      (fun x hx => ihm x hx ht) htext
    rw [hnested]
    exact ihv hrelated

end Scope

/-! ### Extending keeps what formulas find -/

namespace Link

variable {links links' : NameMap (Link Table)} {name : String}

private theorem Kept.refl (hR : ∀ t, R t t) (e : String × Link Table) : Kept R e e := ⟨rfl, rfl, hR _⟩

private theorem Keeps.refl (hR : ∀ t, R t t) (links : NameMap (Link Table)) : Keeps R links links :=
  fun _ e h => ⟨e, h, Kept.refl hR e⟩

/-- Relationships are kept if the same names lead to kept entries. -/
theorem keeps_of_get? (h : ∀ x, Option.Rel (Kept R) (links.get? x) (links'.get? x)) : Keeps R links links' := by
  have hsome : ∀ {x e}, links.get? x = some e → ∃ e', links'.get? x = some e' ∧ Kept R e e' := by
    intro x e he
    have hx := h x
    rw [he] at hx
    generalize links'.get? x = o at hx
    cases hx with
    | some hk => exact ⟨_, rfl, hk⟩
  have hnone : ∀ {x}, links.get? x = none → links'.get? x = none := by
    intro x he
    have hx := h x
    rw [he] at hx
    generalize links'.get? x = o at hx
    cases hx with
    | none => rfl
  intro x e he
  unfold find? at he ⊢
  dsimp only at he ⊢
  split at he
  · rename_i stem hstem
    split at he
    · rename_i found hfound
      cases he
      obtain ⟨e', he', hk⟩ := hsome hfound
      rw [he']
      exact ⟨e', rfl, hk⟩
    · rename_i hfound
      rw [hnone hfound]
      exact hsome he
  · exact hsome he

/-- A name that has the ending `_rel` is the rest of it with this ending. -/
private theorem sameName_append_ending {x : String} {stem : List Char}
    (h : Ascii.dropEnding? Formula.relationEnding.toList (Ascii.upper x).toList = some stem)
    (hn : Ascii.sameName name (String.ofList stem) = true) :
    Ascii.sameName (name ++ "_rel") (Ascii.upper x) = true := by
  unfold Ascii.dropEnding? at h
  split at h
  · rename_i hsuffix
    obtain ⟨front, hfront⟩ := List.isSuffixOf_iff_suffix.1 hsuffix
    rw [← hfront, List.length_append, Nat.add_sub_cancel, List.take_left] at h
    obtain rfl : front = stem := Option.some.inj h
    have hupper : Ascii.upper x = String.ofList front ++ Formula.relationEnding := by
      rw [← String.toList_inj, String.toList_append, String.toList_ofList, hfront]
    have hending : Ascii.lower "_rel" = Ascii.lower Formula.relationEnding := by decide
    rw [Ascii.sameName_iff] at hn ⊢
    rw [hupper, Ascii.lower_append, Ascii.lower_append, hn, hending]
  · cases h

/-- A new relationship hides no other, unless one is named so with the ending `_rel`. -/
theorem keeps_of_adds (hR : ∀ t, R t t) {link : Link Table} (h : links.Adds name link links')
    (hr : links.get? (name ++ "_rel") = none) : Keeps R links links' := by
  intro x e he
  refine ⟨e, ?_, Kept.refl hR e⟩
  unfold find? at he ⊢
  dsimp only at he ⊢
  split at he
  · rename_i stem hstem
    split at he
    · rename_i found hfound
      rw [h.get?_eq_some hfound]
      exact he
    · rename_i hnone
      rw [h.get?_eq, hnone]
      · exact h.get?_eq_some he
      · refine Bool.eq_false_iff.2 fun hsame => ?_
        rw [links.get?_eq_of_sameName (sameName_append_ending hstem hsame), he] at hr
        cases hr
  · exact h.get?_eq_some he

/-- A relationship may lead to another table that is related to its target. -/
theorem keeps_of_target (hR : ∀ t, R t t) {column : String} {u u' : Table} {front back : List (String × Link Table)}
    (hu : R u u') (h : links.entries = front ++ (name, ⟨column, u⟩) :: back) :
    Keeps R links ⟨front ++ (name, ⟨column, u'⟩) :: back⟩ := by
  have hget : ∀ x, Option.Rel (Kept R) (links.get? x) (NameMap.get? ⟨front ++ (name, ⟨column, u'⟩) :: back⟩ x) := by
    intro x
    unfold NameMap.get?
    rw [h, List.find?_append, List.find?_append]
    cases front.find? fun e => Ascii.sameName e.1 x with
    | some e => exact .some (Kept.refl hR e)
    | none =>
      rw [List.find?_cons, List.find?_cons]
      cases Ascii.sameName name x with
      | true => exact .some ⟨rfl, rfl, hu⟩
      | false =>
        cases back.find? fun e => Ascii.sameName e.1 x with
        | some e => exact .some (Kept.refl hR e)
        | none => exact .none
  exact keeps_of_get? hget

end Link

/-- Being extended, or left as it is, keeps what formulas find. -/
theorem Table.keeps_of_extends {t t' : Table} (h : t = t' ∨ t.Extends t') :
    t.Keeps (fun u u' => u = u' ∨ u.Extends u') t' := by
  have hrefl : ∀ u : Table, u = u ∨ u.Extends u := fun _ => Or.inl rfl
  have hdirect := Link.Keeps.refl (R := fun u u' => u = u' ∨ u.Extends u') hrefl t.direct
  have hinverse := Link.Keeps.refl (R := fun u u' => u = u' ∨ u.Extends u') hrefl t.inverse
  rcases h with rfl | h
  · exact ⟨rfl, fun h => h, hdirect, hinverse⟩
  · cases h with
    | column h => exact ⟨rfl, fun he => h.get?_eq_some he, hdirect, hinverse⟩
    | direct h hr => exact ⟨rfl, fun he => he, Link.keeps_of_adds hrefl h hr, hinverse⟩
    | inverse h hr => exact ⟨rfl, fun he => he, hdirect, Link.keeps_of_adds hrefl h hr⟩
    | underDirect h ht => exact ⟨rfl, fun he => he, Link.keeps_of_target hrefl (Or.inr h) ht, hinverse⟩
    | underInverse h ht => exact ⟨rfl, fun he => he, hdirect, Link.keeps_of_target hrefl (Or.inr h) ht⟩

/-- Extending a schema is conservative: formulas that have a plan keep it. -/
theorem Plan.ofFormula_of_extends {schema schema' : Table} (h : schema.Extends schema') {text : String}
    {maxDepth : Nat}
    {p : Plan} (hp : Plan.ofFormula text schema maxDepth = .ok p) : Plan.ofFormula text schema' maxDepth = .ok p := by
  rw [ofFormula_eq_ok_iff] at hp ⊢
  obtain ⟨f, hf, hplans⟩ := hp
  exact ⟨f, hf, hplans.of_keeps (fun _ _ => Table.keeps_of_extends) (Or.inr h)⟩

/-- The tangled schema with one more relationship at its lines, whose name is that of another one with the ending. -/
def Table.entangled : Table :=
  let region := (ofName "re\"gions[0]@main").withColumn "quota" .number
  let rep := ((ofName "reps--").withColumn "name" .string).withDirect "region" ⟨"region],id", region⟩
  let agency := (ofName "agencies").withDirect "region" ⟨"seat", (ofName "seats").withColumn "quota" .string⟩
  let line := (((ofName "lines;").withColumn "amount" .number).withDirect "rep" ⟨"rep->id", rep⟩).withDirect "REP_Rel"
    ⟨"agency", agency⟩
  let order := ((ofName "agg:orders").withColumn "total" .number).withInverse "lines" ⟨"order\"id", line⟩
  (((ofName "customers@main").withColumn "balance" .number).withDirect "rep" ⟨"rep:id", rep⟩).withInverse "orders"
    ⟨"customer/*id", order⟩

theorem Plan.ofFormula_of_extends_entangled :
    ∃ p, Plan.ofFormula "SUM_AGG(orders.lines, rep_rel.region_rel.quota * amount)" .tangled 3 = .ok p ∧
      p.aggregates.size = 1 ∧ Table.tangled.Extends .entangled ∧
      Plan.ofFormula "SUM_AGG(orders.lines, rep_rel.region_rel.quota * amount)" .entangled 3 = .ok p := by
  obtain ⟨p, hp, hsize⟩ := exists_ofFormula_of_check "SUM_AGG(orders.lines, rep_rel.region_rel.quota * amount)"
    .tangled 3 (fun p => p.aggregates.size = 1) (by decide +kernel)
  have h : Table.tangled.Extends .entangled :=
    ((Table.extends_withDirect _ (by decide +kernel) (by decide +kernel)).withInverse _
      (by decide +kernel)).withInverse _
      (by decide +kernel)
  exact ⟨p, hp, hsize, h, Plan.ofFormula_of_extends h hp⟩

end FormulaQuery
