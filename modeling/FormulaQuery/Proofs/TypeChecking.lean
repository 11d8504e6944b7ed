import FormulaQuery.Proofs.Printing
import FormulaQuery.Proofs.TypeRules

/-!
# Type checking is exact

A formula compiles exactly if the typing rules give it a type, and every node of its plan carries the type that the
rules give to its part of the formula (`Formula.compile_iff_hasType`). Each check on the way is first said to be the
premise of a rule; plans then have their types by induction on the formula (`Scope.annotated_of_compile`), and types
have their plans by induction on the rules (`Scope.exists_compile_of_hasType`).
-/

namespace FormulaQuery

namespace Scope

/-! ### Checks as premises of rules -/

theorem signature_eq_ok_iff {pos : Position} {name : String} {count : Nat} {sig : Signature} :
    signature pos name count = .ok sig ↔
      sig ∈ Signature.catalog ∧ Ascii.sameName sig.name name = true ∧ sig.Admits count := by
  have harity : ∀ found : Signature,
      (found.minArity ≤ count ∧ found.maxArity?.all (count ≤ ·) = true) ↔ found.Admits count := by
    intro found
    rw [Signature.admits_iff]
    refine and_congr_right fun _ => ?_
    cases found.maxArity? <;> simp
  rw [← and_assoc, ← Signature.find?_eq_some_iff, signature]
  split
  · rename_i hfind
    simp [hfind]
  · rename_i found hfind
    rw [hfind]
    split
    · rename_i h
      constructor
      · rintro ⟨⟩
        exact ⟨rfl, (harity _).1 h⟩
      · rintro ⟨⟨⟩, -⟩
        rfl
    · rename_i h
      constructor
      · rintro ⟨⟩
      · rintro ⟨⟨⟩, ha⟩
        exact absurd ((harity _).2 ha) h

theorem checkArgument_eq_ok_iff {sig : Signature} {index : Nat} {pos : Position} {t : ValueType} :
    checkArgument sig index pos t = .ok () ↔ ∀ p, sig.ParameterAt index p → p.type.Takes t := by
  simp only [Signature.parameterAt_iff, ParameterType.takes_iff]
  unfold checkArgument
  split
  · rename_i p hp
    rw [hp]
    split
    · rename_i h
      refine ⟨fun _ q hq => ?_, fun _ => rfl⟩
      cases hq
      exact h
    · rename_i h
      exact ⟨nofun, fun hall => absurd (hall p rfl) h⟩
  · rename_i hp
    refine ⟨fun _ q hq => ?_, fun _ => rfl⟩
    rw [hp] at hq
    cases hq

theorem dateUnit_eq_ok_iff {s : Scope} {unit : Formula} {p : Plan} :
    s.dateUnit unit = .ok p ↔ ∃ pos text, unit = .string pos text ∧ Ascii.lower text ∈ dateUnits ∧
      p = .ofExpression (s.stringLiteral (Ascii.lower text)) := by
  constructor
  · intro h
    unfold dateUnit at h
    split at h
    · rename_i pos text
      dsimp only at h
      split at h
      · rename_i hunit
        cases h
        exact ⟨pos, text, rfl, hunit, rfl⟩
      · cases h
    · cases h
  · rintro ⟨pos, text, rfl, hunit, rfl⟩
    rw [dateUnit]
    exact if_pos hunit

/-- The type of a call is the one that the rules give. -/
theorem callType_eq_ok_iff {sig : Signature} (hs : sig ∈ Signature.catalog) (hc : sig.category ≠ .aggregate)
    {pos : Position} {args : List Formula} {types : List ValueType} {t : ValueType} (ha : sig.Admits args.length)
    (hl : args.length = types.length) : callType sig pos args types = .ok t ↔ sig.Yields types t := by
  obtain ⟨hif, hnull, -⟩ := ha.count_eq hs
  constructor
  · intro h
    unfold callType at h
    split at h
    · rename_i hn
      split at h
      · rename_i hcompatible
        cases h
        exact .branches hn (ValueType.merge_iff.2 ⟨hcompatible, rfl⟩)
      · cases h
    · rename_i hn
      cases h
      exact .branch hn
    · rename_i hn
      split at h
      · rename_i hcompatible
        cases h
        exact .replaced hn (ValueType.merge_iff.2 ⟨hcompatible, rfl⟩)
      · cases h
    · rename_i hone hreplaced htwo
      split at h
      · rename_i hreturns
        cases h
        exact .fixed hreturns
      · rename_i hreturns
        -- a function without a result type of its own has had its turn
        rcases (Signature.returns_eq_none_iff hs hc).1 hreturns with hn | hn
        · rcases hif hn with hcount | hcount
          · obtain ⟨a, b, rfl⟩ := List.length_eq_two.1 (hl ▸ hcount)
            exact absurd rfl (hone a b hn)
          · obtain ⟨a, b, c, hargs⟩ := List.length_eq_three.1 hcount
            obtain ⟨t₁, t₂, t₃, rfl⟩ := List.length_eq_three.1 (hl ▸ hcount)
            exact absurd rfl (htwo a b c t₁ t₂ t₃ hn hargs)
        · obtain ⟨a, b, rfl⟩ := List.length_eq_two.1 (hl ▸ hnull hn)
          exact absurd rfl (hreplaced a b hn)
  · intro h
    cases h with
    | fixed h =>
      have hne : ¬(sig.name = "IF" ∨ sig.name = "NULLVALUE") := by
        rw [← Signature.returns_eq_none_iff hs hc, h]
        nofun
      unfold callType
      split
      · exact absurd (Or.inl ‹_›) hne
      · exact absurd (Or.inl ‹_›) hne
      · exact absurd (Or.inr ‹_›) hne
      · rw [h]
    | branch hn => simp only [callType, hn]
    | branches hn hm =>
      obtain ⟨a, b, c, rfl⟩ := List.length_eq_three.1 hl
      obtain ⟨hcompatible, rfl⟩ := ValueType.merge_iff.1 hm
      simp only [callType, hn, hcompatible, if_true]
    | replaced hn hm =>
      obtain ⟨hcompatible, rfl⟩ := ValueType.merge_iff.1 hm
      simp only [callType, hn, hcompatible, if_true]

theorem destination_eq_ok_iff {s : Scope} {f : AggregateFunction} {pos : Position} {path : Formula}
    {d : Destination} : s.destination f pos path = .ok d ↔
      s.context.isMain = true ∧ ∃ p segments, path = .path p segments ∧ segments.length ≤ s.maxDepth ∧
        Hop.follow Table.inverse s.table segments = .ok d.hops ∧ Hop.target? d.hops = some d.target := by
  constructor
  · intro h
    unfold destination at h
    split at h
    · cases h
    · rename_i hmain
      rw [Bool.not_eq_true, Bool.not_eq_false'] at hmain
      refine ⟨hmain, ?_⟩
      split at h
      · rename_i p segments
        split at h
        · cases h
        · rename_i hdepth
          split at h
          · cases h
          · rename_i hops hfollow
            split at h
            · rename_i target htarget
              cases h
              exact ⟨p, segments, rfl, Nat.le_of_not_lt hdepth, hfollow, htarget⟩
            · cases h
      · cases h
  · rintro ⟨hmain, p, segments, rfl, hdepth, hfollow, htarget⟩
    rw [destination, hmain, Bool.not_true, if_neg Bool.false_ne_true]
    rw [if_neg (Nat.not_lt_of_le hdepth), hfollow]
    dsimp only
    rw [htarget]

/-- A delimiter is there if the aggregate takes one, and is constant text then. -/
theorem compileDelimiter_eq_ok_iff {s : Scope} {f : AggregateFunction} {more : List Formula} {delimiter : Option Plan}
    (hcount : more.length = if f.takesDelimiter then 1 else 0) : s.compileDelimiter f more = .ok delimiter ↔
      List.Forall₂ (fun d p => d.isConstant = true ∧ s.compile d = .ok p ∧ p.expression.type = .string) more
        delimiter.toList := by
  by_cases hf : f.takesDelimiter = true
  · rw [if_pos hf] at hcount
    obtain ⟨d, rfl⟩ := List.length_eq_one_iff.1 hcount
    rw [compileDelimiter, if_pos hf]
    constructor
    · intro h
      split at h
      · rename_i hconstant
        obtain ⟨p, hp, h⟩ := bind_eq_ok h
        split at h
        · rename_i htype
          cases h
          exact .cons ⟨hconstant, hp, htype⟩ .nil
        · cases h
      · cases h
    · intro h
      cases delimiter with
      | none => cases h
      | some p =>
        obtain ⟨⟨hconstant, hp, htype⟩, -⟩ := List.forall₂_cons.1 h
        rw [if_pos hconstant]
        exact bind_of_eq_ok hp (if_pos htype)
  · rw [if_neg hf] at hcount
    obtain rfl := List.length_eq_zero_iff.1 hcount
    rw [compileDelimiter]
    cases delimiter with
    | none => exact ⟨fun _ => .nil, fun _ => rfl⟩
    | some p => exact ⟨nofun, nofun⟩

theorem compileAggregate_eq_ok_iff {s : Scope} {f : AggregateFunction} {pos : Position} {args : List Formula}
    {p : Plan} : s.compileAggregate f pos args = .ok p ↔
      ∃ path value more d inner delimiter, args = path :: value :: more ∧ s.destination f pos path = .ok d ∧
        (s.nested d).compile value = .ok inner ∧ f.acceptsInput inner.expression.type = true ∧
        s.compileDelimiter f more = .ok delimiter ∧ p = s.aggregate f d inner delimiter := by
  constructor
  · intro h
    unfold compileAggregate at h
    split at h
    · rename_i path value more
      obtain ⟨d, hd, h⟩ := bind_eq_ok h
      obtain ⟨inner, hinner, h⟩ := bind_eq_ok h
      split at h
      · rename_i haccepts
        obtain ⟨delimiter, hdelimiter, h⟩ := bind_eq_ok h
        cases h
        exact ⟨path, value, more, d, inner, delimiter, rfl, hd, hinner, haccepts, hdelimiter, rfl⟩
      · cases h
    · cases h
  · rintro ⟨path, value, more, d, inner, delimiter, rfl, hd, hinner, haccepts, hdelimiter, rfl⟩
    rw [compileAggregate]
    refine bind_of_eq_ok hd (bind_of_eq_ok hinner ?_)
    rw [if_pos haccepts]
    exact bind_of_eq_ok hdelimiter rfl

/-- The plan of a chain reads a column of the table that the chain leads to, and no aggregate. -/
theorem related_eq_ok {s : Scope} {pos : Position} {chain : List String} {field : Option String} {p : Plan}
    (h : s.related pos chain field = .ok p) :
    ∃ name target spelling, field = some name ∧ chain ≠ [] ∧ Leads Table.direct s.table chain target ∧
      target.columns.get? name = some (spelling, p.expression.type) ∧
      ∃ info join joins, p = ⟨.related info join spelling, joins, .empty⟩ := by
  unfold related at h
  split at h
  · cases h
  · rename_i hops hfollow
    dsimp only at h
    split at h
    · rename_i target last htarget hlast
      obtain ⟨hne, hleads⟩ := Hop.leads_iff_follow.2 ⟨hops, hfollow, htarget⟩
      split at h
      · cases h
      · rename_i name
        split at h
        · cases h
        · rename_i spelling type hget
          cases h
          exact ⟨name, target, spelling, rfl, hne, hleads, hget, _, _, _, rfl⟩
    · cases h

private theorem exists_related {s : Scope} (pos : Position) {chain : List String} {name spelling : String}
    {target : Table} {type : ValueType} (hne : chain ≠ []) (hleads : Leads Table.direct s.table chain target)
    (hget : target.columns.get? name = some (spelling, type)) :
    ∃ p, s.related pos chain (some name) = .ok p ∧ p.expression.type = type := by
  obtain ⟨hops, hfollow, htarget⟩ := Hop.leads_iff_follow.1 ⟨hne, hleads⟩
  obtain ⟨last, hlast⟩ : ∃ last, (Hop.joins s.context [] hops).getLast? = some last := by
    cases hops with
    | nil => cases htarget
    | cons h hops => exact ⟨_, List.getLast?_eq_some_getLast (List.cons_ne_nil _ _)⟩
  unfold related
  rw [hfollow]
  dsimp only
  rw [htarget, hlast]
  dsimp only
  rw [hget]
  exact ⟨_, rfl, rfl⟩

end Scope

/-! ### Plans that carry the types of their formulas -/

/-- Every node of an expression carries the type that its part of the formula has. -/
inductive Expression.Annotated (depth : Nat) (main : Bool) (t : Table) : Formula → Expression → Prop
  | node {f : Formula} {e : Expression} (h : HasType depth main t f e.type)
    (hl : f.children.length = e.children.length)
    (hparts : ∀ p ∈ f.children.zip e.children, Annotated depth main t p.1 p.2) : Annotated depth main t f e
  /-- An aggregate is one node, whatever its arguments are. -/
  | aggregate {pos : Position} {name : String} {args : List Formula} {f : AggregateFunction} {info : Info}
    {ref : String} (hn : Ascii.sameName f.name name = true)
      (h : HasType depth main t (.call pos name args) info.type) :
    Annotated depth main t (.call pos name args) (.aggregate info ref)

/-- An aggregate carries the types of its call; its value belongs to the table at the end of the path. -/
inductive Aggregate.Annotated (depth : Nat) (t : Table) : Formula → Aggregate → Prop
  | call {pos pathPos : Position} {name : String} {segments : List String} {value : Formula} {more : List Formula}
    {target : Table} {a : Aggregate} (hn : Ascii.sameName a.function.name name = true)
    (h : HasType depth true t (.call pos name (.path pathPos segments :: value :: more)) a.type)
    (hp : Leads Table.inverse t segments target) (hv : Expression.Annotated depth false target value a.expression)
    (hmore : List.Forall₂ (Expression.Annotated depth true t) more a.delimiter.toList) :
    Annotated depth t (.call pos name (.path pathPos segments :: value :: more)) a

/-- A plan carries the types of its formula, and so do the aggregates that its nodes refer to. -/
structure Plan.Annotated (depth : Nat) (main : Bool) (t : Table) (f : Formula) (p : Plan) : Prop where
  expression : Expression.Annotated depth main t f p.expression
  aggregates : ∀ e ∈ p.aggregates.entries, e.1 = e.2.id ∧ ∃ g, g.Within f ∧ Aggregate.Annotated depth t g e.2
  refs : ∀ info ref, (Expression.aggregate info ref).Within p.expression → ref ∈ p.aggregates.keys

section

variable {depth : Nat} {main : Bool} {t : Table} {f : Formula} {e : Expression}

private theorem Expression.Annotated.hasType (h : Expression.Annotated depth main t f e) :
    HasType depth main t f e.type := by
  cases h with
  | node h => exact h
  | aggregate hn h => exact h

namespace Plan

private theorem annotated_leaf {joins : KeyMap Join} (h : HasType depth main t f e.type) (hf : f.children = [])
    (hc : e.children = []) (he : ∀ info ref, e ≠ .aggregate info ref) :
    Plan.Annotated depth main t f ⟨e, joins, .empty⟩ := by
  refine ⟨.node h (by rw [hf, hc]; rfl) ?_, fun _ ha => absurd ha List.not_mem_nil, ?_⟩
  · intro p hp
    rw [hf] at hp
    cases hp
  · intro info ref hw
    cases hw with
    | refl => exact absurd rfl (he info ref)
    | child hmem hw =>
      rw [hc] at hmem
      cases hmem

private theorem annotated_combine {plans : List Plan} (h : HasType depth main t f e.type)
    (hc : e.children = plans.map (·.expression)) (he : ∀ info ref, e ≠ .aggregate info ref)
    (hparts : List.Forall₂ (Plan.Annotated depth main t) f.children plans) :
    Plan.Annotated depth main t f (.combine e plans) := by
  have hl : f.children.length = e.children.length := by
    rw [hc, List.length_map]
    exact hparts.length_eq
  refine ⟨.node h hl ?_, ?_, ?_⟩
  · rintro ⟨g, c⟩ hgc
    dsimp only [combine] at hgc
    rw [hc, List.zip_map_right] at hgc
    obtain ⟨⟨g, q⟩, hq, heq⟩ := List.mem_map.1 hgc
    cases heq
    exact ((List.forall₂_iff_zip.1 hparts).2 hq).expression
  · intro a ha
    rcases KeyMap.mem_entries_foldl_union _ ha with ha | ⟨q, hq, ha⟩
    · cases ha
    · obtain ⟨c, hc, hannotated⟩ := exists_mem_of_forall₂ hparts.flip hq
      obtain ⟨hid, g, hg, hag⟩ := hannotated.aggregates a ha
      exact ⟨hid, g, .child hc hg, hag⟩
  · intro info ref hw
    cases hw with
    | refl => exact absurd rfl (he info ref)
    | child hmem hw =>
      dsimp only [combine] at hmem
      rw [hc] at hmem
      obtain ⟨q, hq, rfl⟩ := List.mem_map.1 hmem
      obtain ⟨c, -, hannotated⟩ := exists_mem_of_forall₂ hparts.flip hq
      exact (KeyMap.mem_keys_foldl_union _).2 (Or.inr ⟨q, hq, hannotated.refs info ref hw⟩)

end Plan

end

/-! ### Plans have their types -/

namespace Scope

variable {s : Scope}

private theorem annotated_call {sig : Signature} {type : ValueType} {plans : List Plan} (pos : Position)
    {name : String} {args : List Formula} (hs : sig ∈ Signature.catalog) (hn : Ascii.sameName sig.name name = true)
    (hc : sig.category ≠ .aggregate) (ha : sig.Admits args.length)
    (hargs : List.Forall₂ (Plan.Annotated s.maxDepth s.context.isMain s.table) args plans)
    (htypes : sig.AcceptsFrom 0 (plans.map (·.expression.type)))
    (hunit : sig.name = "DATEDIF" → ∃ pos text, args[2]? = some (.string pos text) ∧ Ascii.lower text ∈ dateUnits)
    (h : sig.Yields (plans.map (·.expression.type)) type) :
    Plan.Annotated s.maxDepth s.context.isMain s.table (.call pos name args) (s.call sig type plans) := by
  refine Plan.annotated_combine (.call pos hs hn hc ha ?_ ?_ htypes hunit h) rfl (by rintro _ _ ⟨⟩) hargs
  · rw [List.length_map]
    exact hargs.length_eq
  · rintro ⟨g, u⟩ hgu
    rw [List.zip_map_right] at hgu
    obtain ⟨⟨g, q⟩, hq, heq⟩ := List.mem_map.1 hgu
    cases heq
    exact ((List.forall₂_iff_zip.1 hargs).2 hq).expression.hasType

private theorem annotated_of_compileArguments {sig : Signature} {args : List Formula}
    (ih : ∀ e ∈ args, ∀ {p : Plan}, s.compile e = .ok p → Plan.Annotated s.maxDepth s.context.isMain s.table e p)
    {index : Nat} {plans : List Plan} (h : s.compileArguments sig index args = .ok plans) :
    List.Forall₂ (Plan.Annotated s.maxDepth s.context.isMain s.table) args plans ∧
      sig.AcceptsFrom index (plans.map (·.expression.type)) := by
  induction args generalizing index plans with
  | nil =>
    rw [compileArguments] at h
    cases h
    exact ⟨.nil, sig.acceptsFrom_nil index⟩
  | cons arg args ihArgs =>
    rw [compileArguments] at h
    obtain ⟨p, hp, h⟩ := bind_eq_ok h
    obtain ⟨_, hcheck, h⟩ := bind_eq_ok h
    obtain ⟨more, hmore, h⟩ := bind_eq_ok h
    cases h
    obtain ⟨hall, haccepts⟩ := ihArgs (fun e he => ih e (List.mem_cons_of_mem _ he)) hmore
    refine ⟨.cons (ih arg List.mem_cons_self hp) hall, ?_⟩
    rw [List.map_cons, Signature.acceptsFrom_cons]
    exact ⟨checkArgument_eq_ok_iff.1 hcheck, haccepts⟩

private theorem annotated_of_compileDateDifference {sig : Signature} {pos : Position} {name : String}
    {args : List Formula} {p : Plan} (hs : sig ∈ Signature.catalog) (hn : Ascii.sameName sig.name name = true)
    (hd : sig.name = "DATEDIF") (ha : sig.Admits args.length)
    (ih : ∀ e ∈ args, ∀ {p : Plan}, s.compile e = .ok p → Plan.Annotated s.maxDepth s.context.isMain s.table e p)
    (h : s.compileDateDifference sig pos args = .ok p) :
    Plan.Annotated s.maxDepth s.context.isMain s.table (.call pos name args) p := by
  obtain ⟨hcategory, hreturns, hparameter⟩ := Signature.dateDifference hs hd
  unfold compileDateDifference at h
  split at h
  · rename_i start finish unit
    obtain ⟨q, hq, h⟩ := bind_eq_ok h
    obtain ⟨_, hcheck, h⟩ := bind_eq_ok h
    obtain ⟨r, hr, h⟩ := bind_eq_ok h
    obtain ⟨_, hcheck', h⟩ := bind_eq_ok h
    obtain ⟨u, hu, h⟩ := bind_eq_ok h
    cases h
    obtain ⟨unitPos, text, rfl, hunit, rfl⟩ := dateUnit_eq_ok_iff.1 hu
    refine annotated_call pos hs hn (by rw [hcategory]; decide) ha ?_ ?_ ?_ (.fixed hreturns)
    · refine .cons (ih start (by simp) hq) (.cons (ih finish (by simp) hr) (.cons ?_ .nil))
      exact Plan.annotated_leaf (.string _ _ unitPos text) rfl rfl (by rintro _ _ ⟨⟩)
    · simp only [List.map_cons, List.map_nil, Signature.acceptsFrom_cons]
      refine ⟨checkArgument_eq_ok_iff.1 hcheck, checkArgument_eq_ok_iff.1 hcheck', ?_, sig.acceptsFrom_nil _⟩
      intro parameter hp
      rw [Signature.parameterAt_iff, hparameter] at hp
      cases hp
      exact .string (Or.inl rfl)
    · exact fun _ => ⟨unitPos, text, rfl, hunit⟩
  · cases h

private theorem annotated_aggregate {f : AggregateFunction} {d : Destination} {inner : Plan} {delimiter : Option Plan}
    {pos pathPos : Position} {name : String} {segments : List String} {value : Formula} {more : List Formula}
    (hn : Ascii.sameName f.name name = true)
    (h : HasType s.maxDepth true s.table (.call pos name (.path pathPos segments :: value :: more))
      (f.resultType inner.expression.type))
    (hp : Leads Table.inverse s.table segments d.target)
    (hv : Expression.Annotated s.maxDepth false d.target value inner.expression)
    (hmore : List.Forall₂ (Plan.Annotated s.maxDepth true s.table) more delimiter.toList) :
    Plan.Annotated s.maxDepth true s.table (.call pos name (.path pathPos segments :: value :: more))
      (s.aggregate f d inner delimiter) := by
  refine ⟨.aggregate hn h, ?_, ?_⟩
  · intro a ha
    rcases KeyMap.mem_entries_insertNew ha with rfl | ha
    · refine ⟨rfl, _, .refl _, .call hn h hp hv ?_⟩
      cases delimiter with
      | none =>
        cases hmore
        exact .nil
      | some q =>
        obtain ⟨c, _, hq, hrest, rfl⟩ := List.forall₂_cons_right_iff.1 hmore
        cases hrest
        exact .cons hq.expression .nil
    · rcases KeyMap.mem_entries_foldl_union _ ha with ha | ⟨q, hq, ha⟩
      · cases ha
      · obtain ⟨c, hc, hannotated⟩ := exists_mem_of_forall₂ hmore.flip hq
        obtain ⟨hid, g, hg, hag⟩ := hannotated.aggregates a ha
        exact ⟨hid, g, .child (List.mem_cons_of_mem _ (List.mem_cons_of_mem _ hc)) hg, hag⟩
  · intro info ref hw
    cases hw with
    | refl => exact KeyMap.mem_keys_insertNew.2 (Or.inl rfl)
    | child hmem => cases hmem

private theorem annotated_of_compileAggregate {sig : Signature} {f : AggregateFunction} {pos : Position}
    {name : String}
    {args : List Formula} {p : Plan} (hs : sig ∈ Signature.catalog) (hn : Ascii.sameName sig.name name = true)
    (hf : AggregateFunction.ofName? sig.name = some f) (ha : sig.Admits args.length)
    (ih : ∀ e ∈ args, ∀ {s : Scope} {p : Plan}, s.compile e = .ok p →
      Plan.Annotated s.maxDepth s.context.isMain s.table e p)
    (h : s.compileAggregate f pos args = .ok p) :
    Plan.Annotated s.maxDepth s.context.isMain s.table (.call pos name args) p := by
  obtain ⟨path, value, more, d, inner, delimiter, rfl, hd, hinner, haccepts, hdelimiter, rfl⟩ :=
    compileAggregate_eq_ok_iff.1 h
  obtain ⟨hmain, pathPos, segments, rfl, hdepth, hfollow, htarget⟩ := destination_eq_ok_iff.1 hd
  obtain ⟨hne, hleads⟩ := Hop.leads_iff_follow.2 ⟨d.hops, hfollow, htarget⟩
  have hname : Ascii.sameName f.name name = true := by
    rw [← AggregateFunction.ofName?_eq_some_iff, ← AggregateFunction.ofName?_eq_of_sameName hn, hf]
  have hcount : more.length = if f.takesDelimiter then 1 else 0 :=
    Nat.add_right_cancel ((Signature.admits_aggregate_iff hs hf).1 ha)
  have hall : List.Forall₂ (fun c q => c.IsConstant ∧ Plan.Annotated s.maxDepth true s.table c q ∧
      q.expression.type = .string) more delimiter.toList := by
    refine forall₂_imp_of_mem ((compileDelimiter_eq_ok_iff hcount).1 hdelimiter) ?_
    rintro c hc q - ⟨hconstant, hq, htype⟩
    have hannotated := ih c (List.mem_cons_of_mem _ (List.mem_cons_of_mem _ hc)) hq
    rw [hmain] at hannotated
    exact ⟨c.isConstant_iff.1 hconstant, hannotated, htype⟩
  have hmore : ∀ c ∈ more, c.IsConstant ∧ HasType s.maxDepth true s.table c .string := by
    intro c hc
    obtain ⟨q, -, hconstant, hq, htype⟩ := exists_mem_of_forall₂ hall hc
    exact ⟨hconstant, htype ▸ hq.expression.hasType⟩
  have hv := (ih value (by simp) hinner).expression
  have htype := HasType.aggregate pos pathPos hname (List.length_pos_iff.2 hne) hdepth hleads hv.hasType
    (AggregateFunction.folds_iff.2 ⟨haccepts, rfl⟩) hcount (fun c hc => (hmore c hc).1) fun c hc => (hmore c hc).2
  rw [hmain]
  exact annotated_aggregate hname htype hleads hv (hall.imp fun _ _ h => h.2.1)

/-- A plan carries the types of the formula that it comes from. -/
theorem annotated_of_compile {f : Formula} {p : Plan} (h : s.compile f = .ok p) :
    Plan.Annotated s.maxDepth s.context.isMain s.table f p := by
  induction f using Formula.children_induction generalizing s p with
  | step f ih =>
    cases f with
    | number pos n =>
      rw [compile] at h
      cases h
      exact Plan.annotated_leaf (.number _ _ pos n) rfl rfl (by rintro _ _ ⟨⟩)
    | string pos text =>
      rw [compile] at h
      cases h
      exact Plan.annotated_leaf (.string _ _ pos text) rfl rfl (by rintro _ _ ⟨⟩)
    | boolean pos b =>
      rw [compile] at h
      cases h
      exact Plan.annotated_leaf (.boolean _ _ pos b) rfl rfl (by rintro _ _ ⟨⟩)
    | null pos =>
      rw [compile] at h
      cases h
      exact Plan.annotated_leaf (.null _ _ pos) rfl rfl (by rintro _ _ ⟨⟩)
    | date pos text =>
      rw [compile] at h
      cases h
      exact Plan.annotated_leaf (.date _ _ pos text) rfl rfl (by rintro _ _ ⟨⟩)
    | column pos name =>
      rw [compile] at h
      obtain ⟨e, he, h⟩ := bind_eq_ok h
      cases h
      unfold column at he
      split at he
      · rename_i spelling type hget
        cases he
        exact Plan.annotated_leaf (.column pos hget) rfl rfl (by rintro _ _ ⟨⟩)
      · cases he
    | related pos chain field =>
      rw [compile] at h
      obtain ⟨name, target, spelling, rfl, hne, hleads, hget, info, join, joins, rfl⟩ := related_eq_ok h
      exact Plan.annotated_leaf (.related pos hne hleads hget) rfl rfl (by rintro _ _ ⟨⟩)
    | path pos segments =>
      rw [compile] at h
      cases h
    | negate pos e =>
      rw [compile] at h
      obtain ⟨q, hq, h⟩ := bind_eq_ok h
      dsimp only at h
      split at h
      · rename_i htype
        cases h
        have hannotated := ih e List.mem_cons_self hq
        exact Plan.annotated_combine (.negate pos hannotated.expression.hasType htype) rfl (by rintro _ _ ⟨⟩)
          (.cons hannotated .nil)
      · cases h
    | binary pos op l r =>
      rw [compile] at h
      obtain ⟨q, hq, h⟩ := bind_eq_ok h
      obtain ⟨q', hq', h⟩ := bind_eq_ok h
      split at h
      · rename_i type htype
        cases h
        have hl := ih l List.mem_cons_self hq
        have hr := ih r (List.mem_cons_of_mem _ List.mem_cons_self) hq'
        have hresult := BinaryOperator.types_iff.2 htype
        exact Plan.annotated_combine (.binary pos hl.expression.hasType hr.expression.hasType hresult) rfl
          (by rintro _ _ ⟨⟩) (.cons hl (.cons hr .nil))
      · cases h
    | call pos name args =>
      rw [compile] at h
      obtain ⟨sig, hsig, h⟩ := bind_eq_ok h
      obtain ⟨hs, hn, ha⟩ := signature_eq_ok_iff.1 hsig
      split at h
      · rename_i g hg
        exact annotated_of_compileAggregate hs hn hg ha ih h
      · rename_i hg
        have hc := (Signature.ofName?_eq_none_iff hs).1 hg
        split at h
        · rename_i hd
          exact annotated_of_compileDateDifference hs hn hd ha (fun e he => ih e he) h
        · rename_i hd
          obtain ⟨plans, hplans, h⟩ := bind_eq_ok h
          obtain ⟨type, htype, h⟩ := bind_eq_ok h
          cases h
          obtain ⟨hall, haccepts⟩ := annotated_of_compileArguments (fun e he => ih e he) hplans
          have hl : args.length = (plans.map (·.expression.type)).length := by
            rw [List.length_map]
            exact hall.length_eq
          have hyields := (callType_eq_ok_iff hs hc ha hl).1 htype
          exact annotated_call pos hs hn hc ha hall haccepts (fun h => absurd h hd) hyields

/-! ### Types have their plans -/

private theorem exists_compileArguments {sig : Signature} {args : List Formula} {types : List ValueType} {index : Nat}
    (hl : args.length = types.length)
    (hargs : ∀ p ∈ args.zip types, ∃ q, s.compile p.1 = .ok q ∧ q.expression.type = p.2)
    (htypes : sig.AcceptsFrom index types) :
    ∃ plans, s.compileArguments sig index args = .ok plans ∧ plans.map (·.expression.type) = types := by
  induction args generalizing types index with
  | nil =>
    rw [List.length_eq_zero_iff.1 hl.symm, compileArguments]
    exact ⟨[], rfl, rfl⟩
  | cons arg args ih =>
    obtain ⟨type, types, rfl⟩ := List.exists_cons_of_length_eq_add_one hl.symm
    rw [Signature.acceptsFrom_cons] at htypes
    obtain ⟨q, hq, rfl⟩ := hargs (arg, type) List.mem_cons_self
    obtain ⟨more, hmore, rfl⟩ := ih (Nat.succ.inj hl) (fun p hp => hargs p (List.mem_cons_of_mem _ hp)) htypes.2
    refine ⟨q :: more, ?_, rfl⟩
    rw [compileArguments]
    exact bind_of_eq_ok hq (bind_of_eq_ok (checkArgument_eq_ok_iff.2 htypes.1) (bind_of_eq_ok hmore rfl))

private theorem exists_compileDateDifference {sig : Signature} (pos : Position) {args : List Formula}
    {types : List ValueType} {type : ValueType} (hs : sig ∈ Signature.catalog) (hd : sig.name = "DATEDIF")
    (ha : sig.Admits args.length) (hl : args.length = types.length)
    (hargs : ∀ p ∈ args.zip types, ∃ q, s.compile p.1 = .ok q ∧ q.expression.type = p.2)
    (htypes : sig.AcceptsFrom 0 types)
    (hunit : ∃ pos text, args[2]? = some (.string pos text) ∧ Ascii.lower text ∈ dateUnits)
    (h : sig.Yields types type) : ∃ p, s.compileDateDifference sig pos args = .ok p ∧ p.expression.type = type := by
  have hcount := (ha.count_eq hs).2.2 hd
  obtain ⟨start, finish, unit, rfl⟩ := List.length_eq_three.1 hcount
  obtain ⟨t₁, t₂, t₃, rfl⟩ := List.length_eq_three.1 (hl ▸ hcount)
  obtain ⟨unitPos, text, heq, hunit⟩ := hunit
  cases heq
  simp only [Signature.acceptsFrom_cons] at htypes
  obtain ⟨p, hp, rfl⟩ := hargs (start, t₁) (by simp)
  obtain ⟨q, hq, rfl⟩ := hargs (finish, t₂) (by simp)
  have hreturns := (Signature.dateDifference hs hd).2.1
  have htype : type = .number := by
    cases h with
    | fixed h =>
      rw [hreturns] at h
      cases h
      rfl
    | branches hn =>
      rw [hd] at hn
      exact absurd hn (by decide)
  refine ⟨s.call sig .number [p, q, .ofExpression (s.stringLiteral (Ascii.lower text))], ?_, htype.symm⟩
  rw [compileDateDifference]
  exact bind_of_eq_ok hp (bind_of_eq_ok (checkArgument_eq_ok_iff.2 htypes.1) (bind_of_eq_ok hq
    (bind_of_eq_ok (checkArgument_eq_ok_iff.2 htypes.2.1) (bind_of_eq_ok
      (dateUnit_eq_ok_iff.2 ⟨unitPos, text, rfl, hunit, rfl⟩) rfl))))

private theorem exists_compileDelimiter {f : AggregateFunction} {more : List Formula}
    (hcount : more.length = if f.takesDelimiter then 1 else 0) (hconstant : ∀ c ∈ more, c.IsConstant)
    (hmore : ∀ c ∈ more, ∃ q, s.compile c = .ok q ∧ q.expression.type = .string) :
    ∃ delimiter, s.compileDelimiter f more = .ok delimiter := by
  have hlength : more = [] ∨ ∃ c, more = [c] := by
    split at hcount
    · exact Or.inr (List.length_eq_one_iff.1 hcount)
    · exact Or.inl (List.length_eq_zero_iff.1 hcount)
  rcases hlength with rfl | ⟨c, rfl⟩
  · exact ⟨none, (compileDelimiter_eq_ok_iff hcount).2 .nil⟩
  · obtain ⟨q, hq, htype⟩ := hmore c List.mem_cons_self
    have hc := c.isConstant_iff.2 (hconstant c List.mem_cons_self)
    exact ⟨some q, (compileDelimiter_eq_ok_iff hcount).2 (.cons ⟨hc, hq, htype⟩ .nil)⟩

/-- A formula that has a type in the table of a scope has a plan of that type. -/
theorem exists_compile_of_hasType {depth : Nat} {main : Bool} {t : Table} {f : Formula} {type : ValueType}
    (h : HasType depth main t f type) (s : Scope) (hdepth : s.maxDepth = depth) (hmain : s.context.isMain = main)
    (htable : s.table = t) : ∃ p, s.compile f = .ok p ∧ p.expression.type = type := by
  induction h generalizing s with
  | number main t pos n => exact ⟨_, by rw [compile], rfl⟩
  | string main t pos text => exact ⟨_, by rw [compile], rfl⟩
  | boolean main t pos b => exact ⟨_, by rw [compile], rfl⟩
  | null main t pos => exact ⟨_, by rw [compile], rfl⟩
  | date main t pos text => exact ⟨_, by rw [compile], rfl⟩
  | column pos hget =>
    rw [← htable] at hget
    rw [compile, column, hget]
    exact ⟨_, rfl, rfl⟩
  | related pos hne hleads hget =>
    rw [compile]
    exact exists_related pos hne (htable ▸ hleads) hget
  | negate pos he htype ih =>
    obtain ⟨q, hq, rfl⟩ := ih s hdepth hmain htable
    rw [compile]
    exact ⟨_, bind_of_eq_ok hq (if_pos htype), rfl⟩
  | binary pos hl hr htype ihl ihr =>
    obtain ⟨q, hq, rfl⟩ := ihl s hdepth hmain htable
    obtain ⟨q', hq', rfl⟩ := ihr s hdepth hmain htable
    rw [compile, hq]
    dsimp only [bind, Except.bind]
    rw [hq']
    dsimp only
    rw [BinaryOperator.types_iff.1 htype]
    exact ⟨_, rfl, rfl⟩
  | @call main t pos name sig args types type hs hn hc ha hl hargs htypes hunit htype ih =>
    have hall : ∀ p ∈ args.zip types, ∃ q, s.compile p.1 = .ok q ∧ q.expression.type = p.2 :=
      fun p hp => ih p hp s hdepth hmain htable
    have hname := (Signature.ofName?_eq_none_iff hs).2 hc
    have hcall : ∃ p, (if sig.name = "DATEDIF" then s.compileDateDifference sig pos args
        else do
          let plans ← s.compileArguments sig 0 args
          let type ← callType sig pos args (plans.map (·.expression.type))
          return s.call sig type plans) = .ok p ∧ p.expression.type = type := by
      split
      · rename_i hd
        exact exists_compileDateDifference pos hs hd ha hl hall htypes (hunit hd) htype
      · obtain ⟨plans, hplans, rfl⟩ := exists_compileArguments hl hall htypes
        exact ⟨_, bind_of_eq_ok hplans (bind_of_eq_ok ((callType_eq_ok_iff hs hc ha hl).2 htype) rfl), rfl⟩
    obtain ⟨p, hp, rfl⟩ := hcall
    refine ⟨p, ?_, rfl⟩
    rw [compile]
    refine bind_of_eq_ok (signature_eq_ok_iff.2 ⟨hs, hn, ha⟩) ?_
    rw [hname]
    exact hp
  | @aggregate t target pos pathPos name f segments value more input type hn hleast hmost hp hv htype hcount hconstant
      hmore ihv ihm =>
    obtain ⟨sig, hs, hname⟩ := Signature.exists_aggregate f
    have hf : AggregateFunction.ofName? sig.name = some f := by
      rw [hname, AggregateFunction.ofName?_eq_some_iff, Ascii.sameName_iff]
    have hsig : signature pos name (Formula.path pathPos segments :: value :: more).length = .ok sig := by
      refine signature_eq_ok_iff.2 ⟨hs, hname ▸ hn, (Signature.admits_aggregate_iff hs hf).2 ?_⟩
      rw [List.length_cons, List.length_cons, hcount]
    obtain ⟨hops, hfollow, htarget⟩ := Hop.leads_iff_follow.1 ⟨List.length_pos_iff.1 hleast, hp⟩
    have hd : s.destination f pos (.path pathPos segments) = .ok ⟨hops, target⟩ :=
      destination_eq_ok_iff.2 ⟨hmain, pathPos, segments, rfl, hdepth ▸ hmost, htable ▸ hfollow, htarget⟩
    obtain ⟨inner, hinner, rfl⟩ := ihv (s.nested ⟨hops, target⟩) hdepth rfl rfl
    obtain ⟨delimiter, hdelimiter⟩ :=
      exists_compileDelimiter hcount hconstant fun c hc => ihm c hc s hdepth hmain htable
    obtain ⟨haccepts, rfl⟩ := AggregateFunction.folds_iff.1 htype
    refine ⟨s.aggregate f ⟨hops, target⟩ inner delimiter, ?_, rfl⟩
    rw [compile]
    refine bind_of_eq_ok hsig ?_
    rw [hf]
    exact compileAggregate_eq_ok_iff.2 ⟨_, _, _, _, _, _, rfl, hd, hinner, haccepts, hdelimiter, rfl⟩

end Scope

/-- A formula compiles to a plan of a type exactly if it has this type, and every node of the plan carries the type of
its part of the formula. -/
theorem Formula.compile_iff_hasType (f : Formula) (schema : Table) (maxDepth : Nat) :
    (∀ type, (∃ p, f.compile schema maxDepth = .ok p ∧ p.expression.type = type) ↔
      HasType maxDepth true schema f type) ∧
    ∀ p, f.compile schema maxDepth = .ok p → Plan.Annotated maxDepth true schema f p := by
  have hplan : ∀ p, f.compile schema maxDepth = .ok p → Plan.Annotated maxDepth true schema f p :=
    fun p hp => Scope.annotated_of_compile hp
  refine ⟨fun type => ⟨?_, ?_⟩, hplan⟩
  · rintro ⟨p, hp, rfl⟩
    exact (hplan p hp).expression.hasType
  · intro h
    exact Scope.exists_compile_of_hasType h (schema.scope maxDepth) rfl rfl rfl

/-- A formula that no text spells: its names are in small letters, and relationships lack or have their ending. -/
def Formula.mixed (digits : Formula) : Formula :=
  .binary .start .subtract
    (.call .start "max_agg" [.path .start ["orders", "Lines_Rel"], .negate .start (.column .start "aMount")])
    (.call .start "round"
      [.call .start "NullValue" [.null .start, .related .start ["rep", "Region_rel"] (some "quota")], digits])

/-- It is a number where paths may have two relationships, and has no type where they may have one or where the digits
to round to are a text. -/
theorem Formula.compile_iff_hasType_mixed :
    (∃ p, (Formula.mixed (.null .start)).compile .tangled 2 = .ok p ∧ p.aggregates.size = 1 ∧
      p.expression.type = .number ∧ HasType 2 true .tangled (.mixed (.null .start)) .number ∧
      Plan.Annotated 2 true .tangled (.mixed (.null .start)) p) ∧
    (∀ type, ¬HasType 1 true .tangled (.mixed (.null .start)) type) ∧
    ∀ type, ¬HasType 2 true .tangled (.mixed (.string .start "2")) type := by
  have htwo : (match (Formula.mixed (.null .start)).compile .tangled 2 with
      | .ok p => decide (p.aggregates.size = 1 ∧ p.expression.type = .number)
      | .error _ => false) = true := by decide +kernel
  have hone : ((Formula.mixed (.null .start)).compile .tangled 1).toOption.isNone = true := by decide +kernel
  have htext : ((Formula.mixed (.string .start "2")).compile .tangled 2).toOption.isNone = true := by decide +kernel
  obtain ⟨hiff, hplan⟩ := Formula.compile_iff_hasType (.mixed (.null .start)) .tangled 2
  refine ⟨?_, ?_, ?_⟩
  · split at htwo
    · rename_i p hp
      obtain ⟨hsize, htype⟩ := of_decide_eq_true htwo
      exact ⟨p, hp, hsize, htype, (hiff .number).1 ⟨p, hp, htype⟩, hplan p hp⟩
    · cases htwo
  · intro type h
    obtain ⟨p, hp, -⟩ := ((Formula.compile_iff_hasType (.mixed (.null .start)) .tangled 1).1 type).2 h
    rw [hp] at hone
    cases hone
  · intro type h
    obtain ⟨p, hp, -⟩ := ((Formula.compile_iff_hasType (.mixed (.string .start "2")) .tangled 2).1 type).2 h
    rw [hp] at htext
    cases htext

end FormulaQuery
