import FormulaQuery.Proofs.Dependencies
import FormulaQuery.Proofs.FieldOrder
import FormulaQuery.Proofs.Usage

/-!
# Expressions in another context

What an aggregate folds is compiled in a scope of its own, that of the related table. From the scope of whole
formulas over this table it differs in the context alone, and the context shows in identifiers alone. So compiling
in it gives what compiling in the other one gives, with other identifiers, or fails in the same way
(`Scope.compile_moved`).

Identifiers are keys: the maps of joins are put in a new order, and joins that had different identifiers must keep
different ones.
-/

namespace FormulaQuery

/-! ### Maps whose identifiers change -/

namespace KeyMap

variable {α : Type} {id : α → String} {m n : KeyMap α} {P : α → Prop}

/-- A list of keys is sorted by what it holds. -/
theorem sortKeys_congr {as bs : List String} (h : ∀ k, k ∈ as ↔ k ∈ bs) : sortKeys as = sortKeys bs :=
  eq_sortKeys (ascending_sortKeys as) fun k => mem_sortKeys.trans (h k)

private theorem sortKeys_map_sortKeys (g : String → String) (ks : List String) :
    sortKeys ((sortKeys ks).map g) = sortKeys (ks.map g) := by
  refine sortKeys_congr fun k => ?_
  simp only [List.mem_map, mem_sortKeys]

/-- A value is added unless its identifier is there. -/
theorem mem_values_insertNew_iff (hm : m.Keyed id) {a x : α} :
    x ∈ (m.insertNew (id a) a).values ↔ x ∈ m.values ∨ x = a ∧ id a ∉ m.keys := by
  by_cases h : id a ∈ m.keys
  · obtain ⟨b, hb, hid⟩ := hm.mem_keys.1 h
    have hsame : m.insertNew (id a) a = m :=
      if_pos (Option.isSome_iff_exists.2 ⟨b, hm.find?_eq_some_iff.2 ⟨hb, hid⟩⟩)
    rw [hsame]
    simp [h]
  · rw [mem_values_insertNew hm fun b hb hid => absurd (hm.mem_keys.2 ⟨b, hb, hid⟩) h]
    simp [h, or_comm]

private theorem mem_values_insertAll_iff (hm : m.Keyed id) {as : List α} (has : (as.map id).Nodup) {x : α} :
    x ∈ (m.insertAll id as).values ↔ x ∈ m.values ∨ x ∈ as ∧ id x ∉ m.keys := by
  induction as generalizing m with
  | nil => simp [insertAll]
  | cons a as ih =>
    obtain ⟨ha, has⟩ := List.nodup_cons.1 has
    have hne : x ∈ as → id x ≠ id a := fun hx e => ha (e ▸ List.mem_map_of_mem hx)
    rw [show m.insertAll id (a :: as) = (m.insertNew (id a) a).insertAll id as from rfl, ih (hm.insertNew a) has,
      mem_values_insertNew_iff hm, mem_keys_insertNew, List.mem_cons]
    grind

/-- The map of the changed values. -/
def mapAll (id : α → String) (f : α → α) (m : KeyMap α) : KeyMap α := empty.insertAll id (m.values.map f)

private theorem keyed_mapAll (f : α → α) (m : KeyMap α) : (mapAll id f m).Keyed id := keyed_empty.insertAll _

@[simp] theorem mapAll_empty (f : α → α) : mapAll id f empty = empty := rfl

/-- A change of values that keeps identifiers of the class `P` apart. -/
structure Separates (id : α → String) (P : α → Prop) (f : α → α) : Prop where
  eq_of_eq : ∀ a b, P a → P b → id (f a) = id (f b) → id a = id b
  id_eq : ∀ a b, id a = id b → id (f a) = id (f b)

variable {f : α → α}

private theorem Separates.mem_values_mapAll (hf : Separates id P f) (hm : m.Collects id P) {x : α} :
    x ∈ (mapAll id f m).values ↔ ∃ a ∈ m.values, f a = x := by
  have hnodup : ((m.values.map f).map id).Nodup := by
    have hvalues := hm.toKeyed.nodup_values
    rw [List.Nodup, List.pairwise_map] at hvalues
    rw [List.Nodup, List.pairwise_map, List.pairwise_map]
    refine hvalues.imp_of_mem fun {a b} ha hb hne e => ?_
    exact hne (hf.eq_of_eq a b (hm.all a ha) (hm.all b hb) e)
  rw [mapAll, mem_values_insertAll_iff keyed_empty hnodup, values_empty]
  simp [empty, keys]

private theorem Separates.mem_keys_mapAll (hf : Separates id P f) (hm : m.Collects id P) {a : α} (ha : P a) :
    id (f a) ∈ (mapAll id f m).keys ↔ id a ∈ m.keys := by
  rw [(keyed_mapAll f m).mem_keys, hm.toKeyed.mem_keys]
  constructor
  · rintro ⟨x, hx, hid⟩
    obtain ⟨b, hb, rfl⟩ := (hf.mem_values_mapAll hm).1 hx
    exact ⟨b, hb, hf.eq_of_eq b a (hm.all b hb) ha hid⟩
  · rintro ⟨b, hb, hid⟩
    exact ⟨f b, (hf.mem_values_mapAll hm).2 ⟨b, hb, rfl⟩, hf.id_eq b a hid⟩

private theorem Separates.mapAll_insertNew (hf : Separates id P f) (hm : m.Collects id P) {a : α} (ha : P a) :
    mapAll id f (m.insertNew (id a) a) = (mapAll id f m).insertNew (id (f a)) (f a) := by
  refine (keyed_mapAll f _).ext ((keyed_mapAll f m).insertNew (f a)) fun x => ?_
  rw [hf.mem_values_mapAll (hm.insertNew ha), mem_values_insertNew_iff (keyed_mapAll f m), hf.mem_values_mapAll hm,
    hf.mem_keys_mapAll hm ha]
  simp only [mem_values_insertNew_iff hm.toKeyed]
  constructor
  · rintro ⟨y, hy | ⟨rfl, hkey⟩, rfl⟩
    · exact Or.inl ⟨y, hy, rfl⟩
    · exact Or.inr ⟨rfl, hkey⟩
  · rintro (⟨y, hy, rfl⟩ | ⟨rfl, hkey⟩)
    · exact ⟨y, Or.inl hy, rfl⟩
    · exact ⟨a, Or.inr ⟨rfl, hkey⟩, rfl⟩

private theorem Separates.mapAll_insertAll (hf : Separates id P f) (hm : m.Collects id P) {as : List α}
    (has : ∀ a ∈ as, P a) : mapAll id f (m.insertAll id as) = (mapAll id f m).insertAll id (as.map f) := by
  induction as generalizing m with
  | nil => rfl
  | cons a as ih =>
    obtain ⟨ha, has⟩ := List.forall_mem_cons.1 has
    rw [show m.insertAll id (a :: as) = (m.insertNew (id a) a).insertAll id as from rfl, ih (hm.insertNew ha) has,
      hf.mapAll_insertNew hm ha]
    rfl

/-- Maps may be joined before or after their values are changed. -/
theorem Separates.mapAll_union (hf : Separates id P f) (hm : m.Collects id P) (hn : n.Collects id P) :
    mapAll id f (m.union n) = (mapAll id f m).union (mapAll id f n) := by
  refine (keyed_mapAll f _).ext ((keyed_mapAll f m).union (keyed_mapAll f n)) fun x => ?_
  rw [union_eq_insertAll (keyed_mapAll f n), mem_values_insertAll_iff (keyed_mapAll f m)
    (keyed_mapAll f n).nodup_values, hf.mem_values_mapAll hm, hf.mem_values_mapAll hn, union_eq_insertAll hn.toKeyed,
    hf.mem_values_mapAll (Collects.insertAll hm hn.all)]
  simp only [mem_values_insertAll_iff hm.toKeyed hn.toKeyed.nodup_values]
  constructor
  · rintro ⟨a, ha | ⟨ha, hkey⟩, rfl⟩
    · exact Or.inl ⟨a, ha, rfl⟩
    · exact Or.inr ⟨⟨a, ha, rfl⟩, fun h => hkey ((hf.mem_keys_mapAll hm (hn.all a ha)).1 h)⟩
  · rintro (⟨a, ha, rfl⟩ | ⟨⟨a, ha, rfl⟩, hkey⟩)
    · exact ⟨a, Or.inl ha, rfl⟩
    -- the identifier was free before the change, as it is after it
    · exact ⟨a, Or.inr ⟨ha, fun h => hkey ((hf.mem_keys_mapAll hm (hn.all a ha)).2 h)⟩, rfl⟩

private theorem Separates.mapAll_foldl_union {β : Type} (hf : Separates id P f) (hm : m.Collects id P)
    (h : β → KeyMap α) {bs : List β} (hbs : ∀ b ∈ bs, (h b).Collects id P) :
    mapAll id f (bs.foldl (fun m b => m.union (h b)) m) =
      bs.foldl (fun m b => m.union (mapAll id f (h b))) (mapAll id f m) := by
  induction bs generalizing m with
  | nil => rfl
  | cons b bs ih =>
    obtain ⟨hb, hbs⟩ := List.forall_mem_cons.1 hbs
    rw [List.foldl_cons, List.foldl_cons, ← hf.mapAll_union hm hb]
    exact ih (hm.union hb) hbs

end KeyMap

/-! ### Identifiers of another context -/

/-- An identifier of the main context. -/
def IsMainId (id : String) : Prop := ∃ stem, id = stem ++ "@" ++ Context.main.text

private theorem isMainId_semanticId (kind details : String) (parts : List String) :
    IsMainId (semanticId kind details parts .main) := ⟨_, rfl⟩

namespace Context

/-- What an identifier of the main context is in the context `c`. -/
def relocateId (c : Context) (id : String) : String :=
  ((Ascii.dropEnding? ("@" ++ main.text).toList id.toList).map
    fun stem => String.ofList stem ++ "@" ++ c.text).getD id

variable (c : Context)

private theorem relocateId_append (stem : String) :
    c.relocateId (stem ++ "@" ++ main.text) = stem ++ "@" ++ c.text := by
  have hdrop : Ascii.dropEnding? ("@" ++ main.text).toList (stem ++ "@" ++ main.text).toList = some stem.toList := by
    rw [String.append_assoc, String.toList_append, Ascii.dropEnding?]
    simp
  rw [relocateId, hdrop, Option.map_some, Option.getD_some, String.ofList_toList]

private theorem relocateId_semanticId (kind details : String) (parts : List String) :
    c.relocateId (semanticId kind details parts .main) = semanticId kind details parts c :=
  c.relocateId_append _

private theorem eq_of_relocateId_eq {a b : String} (ha : IsMainId a) (hb : IsMainId b)
    (h : c.relocateId a = c.relocateId b) : a = b := by
  obtain ⟨stem, rfl⟩ := ha
  obtain ⟨stem', rfl⟩ := hb
  rw [relocateId_append, relocateId_append, String.append_left_inj] at h
  rw [h]

end Context

/-! ### Plans in another context -/

/-- What is known of an expression without parts, in the context `c`. -/
def Info.relocate (c : Context) (i : Info) : Info where
  id := c.relocateId i.id
  joins := KeyMap.sortKeys (i.joins.map c.relocateId)
  type := i.type
  context := c

/-- What is known of an expression that now has the given parts, in the context `c`. -/
def Info.rebuild (c : Context) (kind details : String) (parts : List Expression) (i : Info) : Info :=
  { i.relocate c with id := semanticId kind details (parts.map (·.info.id)) c }

namespace Expression

mutual

/-- An expression of the main context in the context `c`. Identifiers of expressions with parts are made anew from
those of the parts. -/
def relocate (c : Context) : Expression → Expression
  | number i n => number (i.relocate c) n
  | string i t => string (i.relocate c) t
  | boolean i b => boolean (i.relocate c) b
  | null i => null (i.relocate c)
  | date i d => date (i.relocate c) d
  | column i name => column (i.relocate c) name
  | related i join name => related (i.relocate c) (c.relocateId join) name
  | negate i e =>
    let part := relocate c e
    negate (i.rebuild c "unary" "-" [part]) part
  | binary i op l r =>
    let left := relocate c l
    let right := relocate c r
    binary (i.rebuild c "binary" op.symbol [left, right]) op left right
  | call i function args =>
    let parts := relocateAll c args
    call (i.rebuild c "function" function parts) function parts
  | aggregate i ref => aggregate (i.relocate c) ref

def relocateAll (c : Context) : List Expression → List Expression
  | [] => []
  | e :: es => relocate c e :: relocateAll c es

end

variable (e : Expression) (c : Context)

private theorem relocateAll_eq_map (es : List Expression) : relocateAll c es = es.map (relocate c) := by
  induction es with
  | nil => rw [relocateAll, List.map_nil]
  | cons e es ih => rw [relocateAll, ih, List.map_cons]

private theorem type_relocate : (e.relocate c).type = e.type := by
  cases e <;> rfl

private theorem joins_relocate : (e.relocate c).info.joins = KeyMap.sortKeys (e.info.joins.map c.relocateId) := by
  cases e <;> rfl

end Expression

def Join.relocate (c : Context) (j : Join) : Join := { j with id := c.relocateId j.id, context := c }

private theorem Join.id_relocate (c : Context) (j : Join) : (j.relocate c).id = c.relocateId j.id := rfl

/-- A plan of the main context in the context `c`. -/
def Plan.relocate (c : Context) (p : Plan) : Plan where
  expression := p.expression.relocate c
  joins := p.joins.mapAll Join.id (Join.relocate c)
  aggregates := p.aggregates

private theorem Plan.type_relocate (p : Plan) (c : Context) : (p.relocate c).expression.type = p.expression.type :=
  p.expression.type_relocate c

private theorem Join.separates_relocate (c : Context) :
    KeyMap.Separates Join.id (fun j => IsMainId j.id) (Join.relocate c) where
  eq_of_eq _ _ ha hb h := c.eq_of_relocateId_eq ha hb h
  id_eq _ _ h := congrArg c.relocateId h

private theorem Hop.relocate_join (c : Context) (before : List String) (h : Hop) :
    (h.join .main before).relocate c = h.join c before := by
  simp only [Join.relocate, Hop.join, Context.relocateId_semanticId]

private theorem Hop.map_relocate_joins (c : Context) (before : List String) (hops : List Hop) :
    (Hop.joins .main before hops).map (Join.relocate c) = Hop.joins c before hops := by
  induction hops generalizing before with
  | nil => rfl
  | cons h hops ih => rw [Hop.joins, List.map_cons, Hop.relocate_join, ih, Hop.joins]

private theorem Hop.isMainId_of_mem_joins {before : List String} {hops : List Hop} {j : Join}
    (h : j ∈ Hop.joins .main before hops) : IsMainId j.id := by
  induction hops generalizing before with
  | nil => cases h
  | cons k hops ih =>
    rcases List.mem_cons.1 h with rfl | h
    · exact isMainId_semanticId ..
    · exact ih h

/-! ### Compiling in another context -/

/-- A formula no part of which calls an aggregate. -/
def Formula.IsPlain (f : Formula) : Prop := ∀ part : Formula, part.Within f → ¬part.IsAggregate

private theorem Formula.IsPlain.child {f part : Formula} (h : f.IsPlain) (hpart : part ∈ f.children) : part.IsPlain :=
  fun g hg => h g (.child hpart hg)

namespace Scope

variable {s : Scope}

/-- The scope with the context `c`. -/
def moved (s : Scope) (c : Context) : Scope := { s with context := c }

variable (c : Context)

private theorem relocate_info (hs : s.context = .main) (kind details : String) (type : ValueType)
    (extra : List String) :
    (s.info kind details type extra []).relocate c =
      (s.moved c).info kind details type (extra.map c.relocateId) [] := by
  simp only [info, Info.relocate, hs, moved, List.map_nil, List.flatMap_nil, List.append_nil,
    Context.relocateId_semanticId, KeyMap.sortKeys_map_sortKeys]

private theorem rebuild_info (s : Scope) (kind details : String) (type : ValueType) (parts : List Expression) :
    (s.info kind details type [] parts).rebuild c kind details (parts.map (·.relocate c)) =
      (s.moved c).info kind details type [] (parts.map (·.relocate c)) := by
  have hjoins : KeyMap.sortKeys ((KeyMap.sortKeys (parts.flatMap (·.info.joins))).map c.relocateId) =
      KeyMap.sortKeys ((parts.map (·.relocate c)).flatMap (·.info.joins)) := by
    rw [KeyMap.sortKeys_map_sortKeys]
    refine KeyMap.sortKeys_congr fun k => ?_
    simp only [List.mem_map, List.mem_flatMap, exists_exists_and_eq_and, Expression.joins_relocate,
      KeyMap.mem_sortKeys]
    constructor
    · rintro ⟨l, ⟨e, he, hl⟩, rfl⟩
      exact ⟨e, he, l, hl, rfl⟩
    · rintro ⟨e, he, l, hl, rfl⟩
      exact ⟨l, ⟨e, he, hl⟩, rfl⟩
  simp only [info, Info.rebuild, Info.relocate, moved, List.nil_append, hjoins]

end Scope

/-- A plan all of whose joins have identifiers of the main context. -/
def Plan.IsMain (p : Plan) : Prop := p.joins.Collects Join.id fun j => IsMainId j.id

private theorem Plan.IsMain.combine (e : Expression) {parts : List Plan} (h : ∀ p ∈ parts, p.IsMain) :
    (combine e parts).IsMain := by
  have step : ∀ (parts : List Plan) (m : KeyMap Join), (∀ p ∈ parts, p.IsMain) →
      m.Collects Join.id (fun j => IsMainId j.id) →
      (parts.foldl (fun m p => m.union p.joins) m).Collects Join.id fun j => IsMainId j.id := by
    intro parts
    induction parts with
    | nil => exact fun m _ hm => hm
    | cons p parts ih =>
      intro m h hm
      obtain ⟨hp, h⟩ := List.forall_mem_cons.1 h
      exact ih _ h (hm.union hp)
  exact step parts .empty h KeyMap.collects_empty

private theorem Plan.relocate_combine (c : Context) (e : Expression) {parts : List Plan} (h : ∀ p ∈ parts, p.IsMain) :
    (combine e parts).relocate c = combine (e.relocate c) (parts.map (relocate c)) := by
  have hjoins := (Join.separates_relocate c).mapAll_foldl_union KeyMap.collects_empty Plan.joins h
  simp only [relocate, combine, hjoins, List.foldl_map]
  rfl

namespace Scope

variable {s : Scope}

private theorem Plans.isMain {f : Formula} {p : Plan} (h : Plans s f p) (hs : s.context = .main) : p.IsMain := by
  induction h with
  | number | string | boolean | null | date | column => exact KeyMap.collects_empty
  | related pos hc h =>
    refine KeyMap.collects_empty.insertAll fun j hj => ?_
    rw [hs] at hj
    exact Hop.isMainId_of_mem_joins hj
  | negate pos _ h ih => exact .combine _ (by simpa using ih hs)
  | binary pos _ _ h ihl ihr => exact .combine _ (by simpa using ⟨ihl hs, ihr hs⟩)
  | @call s pos name sig args plans type hs' hn hf hd ha hl _ htypes h ih =>
    exact .combine _ (forall_mem_of_zip hl fun x hx => ih x hx hs)
  | dateDifference pos unitPos hs' hn hd ha _ _ htypes hunit ihp ihq =>
    exact .combine _ (by simpa using ⟨ihp hs, ihq hs, KeyMap.collects_empty⟩)
  | @aggregate s pos pathPos name f segments value more d inner delimiter hn hm hdepth hpath htarget _ h hcount hl
      hconstant _ htext ihv ihm =>
    exact Plan.IsMain.combine (s.aggregate f d inner delimiter).expression
      (forall_mem_of_zip hl fun x hx => ihm x hx hs)

private theorem isMain_of_compile (hs : s.context = .main) {f : Formula} {p : Plan} (h : s.compile f = .ok p) :
    p.IsMain :=
  (compile_eq_ok_iff.1 h).isMain hs

private theorem isMain_of_compileArguments (hs : s.context = .main) {sig : Signature} {index : Nat}
    {args : List Formula}
    {plans : List Plan} (h : s.compileArguments sig index args = .ok plans) : ∀ p ∈ plans, p.IsMain := by
  induction args generalizing index plans with
  | nil =>
    rw [compileArguments] at h
    cases h
    exact List.forall_mem_nil _
  | cons arg args ih =>
    rw [compileArguments] at h
    obtain ⟨p, hp, h⟩ := bind_eq_ok h
    obtain ⟨_, -, h⟩ := bind_eq_ok h
    obtain ⟨more, hmore, h⟩ := bind_eq_ok h
    cases h
    exact List.forall_mem_cons.2 ⟨isMain_of_compile hs hp, ih hmore⟩

section Moved

variable (hs : s.context = .main) (c : Context)
include hs

private theorem relocate_leaf (kind details : String) (type : ValueType) :
    (s.info kind details type [] []).relocate c = (s.moved c).info kind details type [] [] :=
  relocate_info c hs kind details type []

private theorem column_moved (pos : Position) (name : String) :
    (s.moved c).column pos name = (s.column pos name).map (Expression.relocate c) := by
  unfold column
  rw [show (s.moved c).table = s.table from rfl]
  cases s.table.columns.get? name with
  | none => rfl
  | some found => exact congrArg (fun i => Except.ok (Expression.column i found.1)) (relocate_leaf hs c ..).symm

private theorem relocate_relatedPlan (init : List Hop) (last : Hop) (column : String) (type : ValueType) :
    (s.relatedPlan init last column type).relocate c = (s.moved c).relatedPlan init last column type := by
  have hids : ((Hop.joins .main [] (init ++ [last])).map (·.id)).map c.relocateId =
      (Hop.joins c [] (init ++ [last])).map (·.id) := by
    rw [← Hop.map_relocate_joins c, List.map_map, List.map_map]
    rfl
  have hjoins : (KeyMap.empty.insertAll Join.id (Hop.joins .main [] (init ++ [last]))).mapAll Join.id
      (Join.relocate c) =
      KeyMap.empty.insertAll Join.id (Hop.joins c [] (init ++ [last])) := by
    rw [(Join.separates_relocate c).mapAll_insertAll KeyMap.collects_empty fun j hj => Hop.isMainId_of_mem_joins hj,
      Hop.map_relocate_joins, KeyMap.mapAll_empty]
  have hlast : c.relocateId (last.join .main (Hop.names init)).id = (last.join c (Hop.names init)).id := by
    rw [← Join.id_relocate, Hop.relocate_join]
  simp only [relatedPlan, Plan.relocate, Expression.relocate, relocate_info c hs, hs, hids, hjoins, hlast]
  rfl

private theorem related_moved (pos : Position) (chain : List String) (field : Option String) :
    (s.moved c).related pos chain field = (s.related pos chain field).map (Plan.relocate c) := by
  unfold related
  rw [show (s.moved c).table = s.table from rfl]
  cases Hop.follow Table.direct s.table chain with
  | error e => rfl
  | ok hops =>
    rcases List.eq_nil_or_concat hops with rfl | ⟨init, last, rfl⟩
    · rfl
    rw [List.concat_eq_append]
    have htarget : Hop.target? (init ++ [last]) = some last.link.target := by
      rw [Hop.target?, List.getLast?_concat]
      rfl
    have hlast : ∀ context, (Hop.joins context [] (init ++ [last])).getLast? =
        some (last.join context (Hop.names init)) := by
      intro context
      rw [Hop.joins_append_singleton, List.getLast?_concat, List.nil_append]
    dsimp only
    rw [htarget, hlast, hlast]
    cases field with
    | none => rfl
    | some field =>
      dsimp only
      cases last.link.target.columns.get? field with
      | none => rfl
      | some found => exact congrArg Except.ok (relocate_relatedPlan hs c init last found.1 found.2).symm

private theorem relocate_stringLiteral (text : String) :
    (Plan.ofExpression (s.stringLiteral text)).relocate c = .ofExpression ((s.moved c).stringLiteral text) :=
  congrArg (fun i => Plan.ofExpression (.string i text)) (relocate_leaf hs c ..)

private theorem dateUnit_moved (unit : Formula) :
    (s.moved c).dateUnit unit = (s.dateUnit unit).map (Plan.relocate c) := by
  cases unit with
  | string pos text =>
    simp only [dateUnit]
    split
    · exact congrArg Except.ok (relocate_stringLiteral hs c _).symm
    · rfl
  | _ => rfl

omit hs in
private theorem relocate_negate {p : Plan} (hp : p.IsMain) :
    (Plan.combine (.negate (s.info "unary" "-" .number [] [p.expression]) p.expression) [p]).relocate c =
      Plan.combine (.negate ((s.moved c).info "unary" "-" .number [] [(p.relocate c).expression])
        (p.relocate c).expression) [p.relocate c] := by
  rw [Plan.relocate_combine c _ (List.forall_mem_singleton.2 hp)]
  exact congrArg (fun i => Plan.combine (.negate i (p.expression.relocate c)) [p.relocate c])
    (rebuild_info c s "unary" "-" .number [p.expression])

omit hs in
private theorem relocate_binary (op : BinaryOperator) (type : ValueType) {p q : Plan} (hp : p.IsMain)
    (hq : q.IsMain) :
    (Plan.combine (.binary (s.info "binary" op.symbol type [] [p.expression, q.expression]) op p.expression
      q.expression) [p, q]).relocate c =
      Plan.combine (.binary ((s.moved c).info "binary" op.symbol type []
        [(p.relocate c).expression, (q.relocate c).expression]) op (p.relocate c).expression
          (q.relocate c).expression)
        [p.relocate c, q.relocate c] := by
  rw [Plan.relocate_combine c _ (List.forall_mem_cons.2 ⟨hp, List.forall_mem_singleton.2 hq⟩)]
  exact congrArg (fun i => Plan.combine (.binary i op (p.expression.relocate c) (q.expression.relocate c))
    [p.relocate c, q.relocate c]) (rebuild_info c s "binary" op.symbol type [p.expression, q.expression])

omit hs in
private theorem relocate_call {sig : Signature} {type : ValueType} {plans : List Plan} (h : ∀ p ∈ plans, p.IsMain) :
    (s.call sig type plans).relocate c = (s.moved c).call sig type (plans.map (Plan.relocate c)) := by
  have hparts : Expression.relocateAll c (plans.map (·.expression)) =
      (plans.map (Plan.relocate c)).map (·.expression) := by
    rw [Expression.relocateAll_eq_map, List.map_map, List.map_map]
    rfl
  have hinfo := rebuild_info c s "function" sig.name type (plans.map (·.expression))
  rw [← Expression.relocateAll_eq_map, hparts] at hinfo
  simp only [call, Plan.relocate_combine c _ h, Expression.relocate, hparts, hinfo]

omit hs in
private theorem compileArguments_moved {sig : Signature} {args : List Formula}
    (ih : ∀ e ∈ args, (s.moved c).compile e = (s.compile e).map (Plan.relocate c)) (index : Nat) :
    (s.moved c).compileArguments sig index args =
      (s.compileArguments sig index args).map (List.map (Plan.relocate c)) := by
  induction args generalizing index with
  | nil =>
    rw [compileArguments, compileArguments]
    rfl
  | cons arg args ihArgs =>
    obtain ⟨harg, hargs⟩ := List.forall_mem_cons.1 ih
    rw [compileArguments, compileArguments]
    refine bind_of_eq_map harg fun p _ => ?_
    rw [p.type_relocate]
    refine bind_of_eq fun _ _ => ?_
    exact bind_of_eq_map (ihArgs hargs (index + 1)) fun plans _ => rfl

private theorem compileDateDifference_moved {sig : Signature} (pos : Position) {args : List Formula}
    (ih : ∀ e ∈ args, (s.moved c).compile e = (s.compile e).map (Plan.relocate c)) :
    (s.moved c).compileDateDifference sig pos args =
      (s.compileDateDifference sig pos args).map (Plan.relocate c) := by
  unfold compileDateDifference
  split
  · rename_i start finish unit
    refine bind_of_eq_map (ih start (by simp)) fun p hp => ?_
    rw [p.type_relocate]
    refine bind_of_eq fun _ _ => ?_
    refine bind_of_eq_map (ih finish (by simp)) fun q hq => ?_
    rw [q.type_relocate]
    refine bind_of_eq fun _ _ => ?_
    refine bind_of_eq_map (dateUnit_moved hs c unit) fun u hu => ?_
    have hmain : ∀ r ∈ [p, q, u], r.IsMain := by
      obtain ⟨_, _, -, -, rfl⟩ := dateUnit_eq_ok_iff.1 hu
      simpa using ⟨isMain_of_compile hs hp, isMain_of_compile hs hq, KeyMap.collects_empty⟩
    exact congrArg Except.ok (relocate_call c hmain).symm
  · rfl

private theorem compile_call_moved (pos : Position) {name : String} {args : List Formula}
    (ih : ∀ e ∈ args, (s.moved c).compile e = (s.compile e).map (Plan.relocate c))
    (h : ¬(Formula.call pos name args).IsAggregate) :
    (s.moved c).compile (.call pos name args) = (s.compile (.call pos name args)).map (Plan.relocate c) := by
  rw [compile, compile]
  refine bind_of_eq fun sig hsig => ?_
  obtain ⟨-, hn, -⟩ := signature_eq_ok_iff.1 hsig
  -- the name in the catalog is one of an aggregate if the name in the formula is
  have hnone : AggregateFunction.ofName? sig.name = none := by
    rw [AggregateFunction.ofName?_eq_of_sameName hn, Option.eq_none_iff_forall_ne_some]
    intro f hf
    exact h ⟨pos, name, args, f, rfl, hf⟩
  rw [hnone]
  dsimp only
  split
  · exact compileDateDifference_moved hs c pos ih
  · refine bind_of_eq_map (compileArguments_moved c ih 0) fun plans hplans => ?_
    have htypes : (plans.map (Plan.relocate c)).map (·.expression.type) = plans.map (·.expression.type) := by
      rw [List.map_map]
      exact List.map_congr_left fun p _ => p.type_relocate c
    rw [htypes]
    refine bind_of_eq fun type _ => ?_
    exact congrArg Except.ok (relocate_call c (isMain_of_compileArguments hs hplans)).symm

/-- Without aggregates, compiling in another context gives the same plan in that context, or the same error. -/
theorem compile_moved {e : Formula} (he : e.IsPlain) :
    (s.moved c).compile e = (s.compile e).map (Plan.relocate c) := by
  induction e using Formula.children_induction with
  | step e ih =>
    have ih : ∀ part ∈ e.children, (s.moved c).compile part = (s.compile part).map (Plan.relocate c) :=
      fun part hpart => ih part hpart (he.child hpart)
    cases e with
    | number pos n =>
      rw [compile, compile]
      exact congrArg (fun i => Except.ok (Plan.ofExpression (.number i n))) (relocate_leaf hs c ..).symm
    | string pos text =>
      rw [compile, compile]
      exact congrArg Except.ok (relocate_stringLiteral hs c text).symm
    | boolean pos b =>
      rw [compile, compile]
      exact congrArg (fun i => Except.ok (Plan.ofExpression (.boolean i b))) (relocate_leaf hs c ..).symm
    | null pos =>
      rw [compile, compile]
      exact congrArg (fun i => Except.ok (Plan.ofExpression (.null i))) (relocate_leaf hs c ..).symm
    | date pos text =>
      rw [compile, compile]
      exact congrArg (fun i => Except.ok (Plan.ofExpression (.date i text))) (relocate_leaf hs c ..).symm
    | column pos name =>
      rw [compile, compile]
      exact bind_of_eq_map (column_moved hs c pos name) fun _ _ => rfl
    | related pos chain field =>
      rw [compile, compile]
      exact related_moved hs c pos chain field
    | path pos segments =>
      rw [compile, compile]
      rfl
    | negate pos operand =>
      rw [compile, compile]
      refine bind_of_eq_map (ih operand List.mem_cons_self) fun p hp => ?_
      dsimp only
      rw [p.type_relocate]
      split
      · exact congrArg Except.ok (relocate_negate c (isMain_of_compile hs hp)).symm
      · rfl
    | binary pos op left right =>
      rw [compile, compile]
      refine bind_of_eq_map (ih left List.mem_cons_self) fun p hp => ?_
      refine bind_of_eq_map (ih right (List.mem_cons_of_mem _ List.mem_cons_self)) fun q hq => ?_
      rw [p.type_relocate, q.type_relocate]
      split
      · rename_i type _
        exact congrArg Except.ok (relocate_binary c op type (isMain_of_compile hs hp) (isMain_of_compile hs hq)).symm
      · rfl
    | call pos name args => exact compile_call_moved hs c pos ih (he _ (.refl _))

end Moved

end Scope

/-! ### Counting -/

namespace Formula

variable {schema target : Table} {maxDepth : Nat} {segments : List String} {hops : List Hop} {name : String}
  {e : Formula}

/-- A count is compiled as what it counts is for the related table, in the context of the aggregate. -/
theorem compile_count (pos pathPos : Position) (hname : AggregateFunction.ofName? name = some .count)
    (hdepth : segments.length ≤ maxDepth) (hpath : Hop.follow Table.inverse schema segments = .ok hops)
    (htarget : Hop.target? hops = some target) (he : e.IsPlain) :
    (Formula.call pos name [.path pathPos segments, e]).compile schema maxDepth =
      (e.compile target maxDepth).map fun root => (schema.scope maxDepth).aggregate .count ⟨hops, target⟩
        (root.relocate ((schema.scope maxDepth).nested ⟨hops, target⟩).context) none := by
  obtain ⟨sig, hs, hsname⟩ := Signature.exists_aggregate .count
  have hf : AggregateFunction.ofName? sig.name = some .count := by
    rw [hsname]
    rfl
  have hsig : Scope.signature pos name 2 = .ok sig := by
    refine Scope.signature_eq_ok_iff.2 ⟨hs, ?_, (Signature.admits_aggregate_iff hs hf).2 rfl⟩
    rw [hsname]
    exact AggregateFunction.ofName?_eq_some_iff.1 hname
  have hd : (schema.scope maxDepth).destination .count pos (.path pathPos segments) = .ok ⟨hops, target⟩ :=
    Scope.destination_eq_ok_iff.2 ⟨rfl, pathPos, segments, rfl, hdepth, hpath, htarget⟩
  have hmoved : ((schema.scope maxDepth).nested ⟨hops, target⟩).compile e = (e.compile target maxDepth).map
      (Plan.relocate ((schema.scope maxDepth).nested ⟨hops, target⟩).context) :=
    Scope.compile_moved (s := target.scope maxDepth) rfl _ he
  rw [Formula.compile, Scope.compile,
    show Scope.signature pos name [.path pathPos segments, e].length = .ok sig from hsig]
  dsimp only [bind, Except.bind]
  rw [hf]
  dsimp only
  rw [Scope.compileAggregate, hd]
  dsimp only [bind, Except.bind]
  rw [hmoved, Scope.compileDelimiter]
  cases e.compile target maxDepth <;> rfl

/-- What an aggregate folds is compiled as a formula over the related table is. A count of `e`, in which no
aggregate is called, fails exactly if `e` by itself fails for that table, with the same error; else the expression
and the joins of the aggregate are those of `e` by itself, in the context of the aggregate. -/
theorem count_compiles_as_value (pos pathPos : Position) (hname : AggregateFunction.ofName? name = some .count)
    (hdepth : segments.length ≤ maxDepth) (hpath : Hop.follow Table.inverse schema segments = .ok hops)
    (htarget : Hop.target? hops = some target) (he : e.IsPlain) :
    (∀ err, (Formula.call pos name [.path pathPos segments, e]).compile schema maxDepth = .error err ↔
      e.compile target maxDepth = .error err) ∧
    ∀ p, (Formula.call pos name [.path pathPos segments, e]).compile schema maxDepth = .ok p →
      ∃ root a, e.compile target maxDepth = .ok root ∧ p.aggregates.values = [a] ∧
        a.innerContext = .aggregate schema.name target.name (".".intercalate (hops.map (·.link.joinColumn))) ∧
        a.expression = root.expression.relocate a.innerContext ∧
        a.joins = root.joins.mapAll Join.id (Join.relocate a.innerContext) := by
  rw [compile_count pos pathPos hname hdepth hpath htarget he]
  cases e.compile target maxDepth with
  | error e =>
    refine ⟨fun err => ?_, fun p hp => ?_⟩
    · simp [Except.map]
    · cases hp
  | ok root =>
    refine ⟨fun err => ?_, fun p hp => ?_⟩
    · simp [Except.map]
    · cases hp
      exact ⟨root, _, rfl, rfl, rfl, rfl, rfl⟩

/-- The amount of a line by the quota of the region of its representative. -/
def weightedAmount : Formula :=
  .binary .start .multiply (.column .start "AMOUNT") (.related .start ["REP_REL", "REGION_REL"] (some "QUOTA"))

private theorem isPlain_weightedAmount : weightedAmount.IsPlain := by
  rintro part hw ⟨pos, name, args, g, rfl, -⟩
  cases hw with
  | child hc hw =>
    rcases List.mem_cons.1 hc with rfl | hc
    · cases hw with
      | child hc hw => cases hc
    · cases List.mem_singleton.1 hc
      cases hw with
      | child hc hw => cases hc

theorem count_compiles_as_value_tangled :
    ∃ hops target root p a, Hop.follow Table.inverse .tangled ["ORDERS", "LINES"] = .ok hops ∧
      Hop.target? hops = some target ∧ weightedAmount.compile target 3 = .ok root ∧ root.joins.size = 2 ∧
      (Formula.call .start "Count_Agg" [.path .start ["ORDERS", "LINES"], weightedAmount]).compile .tangled 3 =
        .ok p ∧ p.aggregates.values = [a] ∧ a.expression = root.expression.relocate a.innerContext ∧
      a.joins = root.joins.mapAll Join.id (Join.relocate a.innerContext) := by
  have hcheck : ((Hop.follow Table.inverse .tangled ["ORDERS", "LINES"]).toOption.any fun hops =>
      (Hop.target? hops).any fun target => (weightedAmount.compile target 3).toOption.any fun root =>
        root.joins.size = 2) = true := by decide +kernel
  obtain ⟨hops, hpath, hcheck⟩ := exists_of_any_toOption hcheck
  obtain ⟨target, htarget, hcheck⟩ := (Option.any_eq_true _ _).1 hcheck
  obtain ⟨root, hroot, hsize⟩ := exists_of_any_toOption hcheck
  obtain ⟨hfails, hholds⟩ := count_compiles_as_value .start .start
    (rfl : AggregateFunction.ofName? "Count_Agg" = some .count) (by decide : 2 ≤ 3) hpath htarget
    isPlain_weightedAmount
  cases hp : (Formula.call .start "Count_Agg" [.path .start ["ORDERS", "LINES"], weightedAmount]).compile
    .tangled 3 with
  | error err =>
    have herr := (hfails err).1 hp
    rw [hroot] at herr
    cases herr
  | ok p =>
    obtain ⟨root', a, hroot', hvalues, -, hexpression, hjoins⟩ := hholds p hp
    obtain rfl := Except.ok.inj (hroot.symm.trans hroot')
    exact ⟨hops, target, root, p, a, hpath, htarget, hroot, of_decide_eq_true hsize, rfl, hvalues, hexpression,
      hjoins⟩

end Formula

end FormulaQuery
