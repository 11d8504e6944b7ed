import FormulaQuery.Proofs.Planning

/-!
# What formulas use

The plan of a formula registers a join for each relationship on the chains that the formula follows outside
aggregates, an aggregate for each call of one, and nothing else (`Scope.Plans.registers`).
-/

namespace FormulaQuery

/-! ### Parts outside aggregates -/

namespace Formula

/-- A call of an aggregate. -/
def IsAggregate (f : Formula) : Prop :=
  ∃ pos name args g, f = .call pos name args ∧ AggregateFunction.ofName? name = some g

/-- A formula that occurs in another one, or is it, and does not stand in an argument of an aggregate. -/
inductive Outer : Formula → Formula → Prop
  | refl (f : Formula) : Outer f f
  | child {f c whole : Formula} (hw : ¬whole.IsAggregate) (hc : c ∈ whole.children) (h : Outer f c) : Outer f whole

/-- The formula reads a column at the end of these hops from the table `t`. -/
def Follows (f : Formula) (t : Table) (hops : List Hop) : Prop :=
  ∃ pos chain field, Outer (.related pos chain field) f ∧ Hop.follow Table.direct t chain = .ok hops

/-- The formula calls the aggregate `g` on `value` and `more` over the rows at the end of these hops from `t`. -/
def Folds (f : Formula) (t : Table) (g : AggregateFunction) (hops : List Hop) (value : Formula)
    (more : List Formula) : Prop :=
  ∃ pos name pathPos segments, Outer (.call pos name (.path pathPos segments :: value :: more)) f ∧
    AggregateFunction.ofName? name = some g ∧ Hop.follow Table.inverse t segments = .ok hops

variable {f g : Formula} {t : Table} {hops : List Hop}

private theorem Outer.within (h : Outer g f) : Within g f := by
  induction h with
  | refl => exact .refl g
  | child _ hc _ ih => exact .child hc ih

private theorem outer_iff : Outer g f ↔ g = f ∨ ¬f.IsAggregate ∧ ∃ c ∈ f.children, Outer g c := by
  constructor
  · intro h
    cases h with
    | refl => exact Or.inl rfl
    | child hw hc h => exact Or.inr ⟨hw, _, hc, h⟩
  · rintro (rfl | ⟨hw, c, hc, h⟩)
    · exact .refl g
    · exact .child hw hc h

/-- Formulas that are no chains themselves follow the chains of their parts. -/
theorem follows_iff (hw : ¬f.IsAggregate) (hf : ∀ pos chain field, f ≠ .related pos chain field) :
    f.Follows t hops ↔ ∃ c ∈ f.children, c.Follows t hops := by
  constructor
  · rintro ⟨pos, chain, field, h, hfollow⟩
    rcases outer_iff.1 h with rfl | ⟨-, c, hc, h⟩
    · exact absurd rfl (hf pos chain field)
    · exact ⟨c, hc, pos, chain, field, h, hfollow⟩
  · rintro ⟨c, hc, pos, chain, field, h, hfollow⟩
    exact ⟨pos, chain, field, .child hw hc h, hfollow⟩

private theorem folds_iff {fn : AggregateFunction} {value : Formula} {more : List Formula} (hw : ¬f.IsAggregate) :
    f.Folds t fn hops value more ↔ ∃ c ∈ f.children, c.Folds t fn hops value more := by
  constructor
  · rintro ⟨pos, name, pathPos, segments, h, hname, hfollow⟩
    rcases outer_iff.1 h with rfl | ⟨-, c, hc, h⟩
    · exact absurd ⟨pos, name, _, fn, rfl, hname⟩ hw
    · exact ⟨c, hc, pos, name, pathPos, segments, h, hname, hfollow⟩
  · rintro ⟨c, hc, pos, name, pathPos, segments, h, hname, hfollow⟩
    exact ⟨pos, name, pathPos, segments, .child hw hc h, hname, hfollow⟩

private theorem not_isAggregate_call {pos : Position} {name : String} {args : List Formula}
    (h : AggregateFunction.ofName? name = none) : ¬(Formula.call pos name args).IsAggregate := by
  rintro ⟨_, _, _, g, ⟨⟩, hg⟩
  rw [h] at hg
  cases hg

/-- Constants follow no chain. -/
theorem not_follows_of_isConstant (hf : f.isConstant = true) : ¬f.Follows t hops := by
  rintro ⟨pos, chain, field, h, -⟩
  exact (f.isConstant_iff.1 hf) _ h.within (.related pos chain field)

/-- Constants call no aggregate. -/
theorem not_folds_of_isConstant {fn : AggregateFunction} {value : Formula} {more : List Formula}
    (hf : f.isConstant = true) : ¬f.Folds t fn hops value more := by
  rintro ⟨pos, name, pathPos, segments, h, hname, -⟩
  exact (f.isConstant_iff.1 hf) _ h.within (.aggregate pos ((AggregateFunction.ofName?_eq_some_iff).1 hname) _)

end Formula

/-! ### What plans register -/

namespace Scope

/-- The joins along the hops that a formula follows. -/
def JoinOf (s : Scope) (f : Formula) (j : Join) : Prop :=
  ∃ hops, f.Follows s.table hops ∧ j ∈ Hop.joins s.context [] hops

/-- The aggregates that a formula calls. -/
def AggregateOf (s : Scope) (f : Formula) (a : Aggregate) : Prop :=
  ∃ g d value more inner delimiter, f.Folds s.table g d.hops value more ∧ Hop.target? d.hops = some d.target ∧
    (s.nested d).compile value = .ok inner ∧ s.compileDelimiter g more = .ok delimiter ∧
    a = s.aggregateEntry g d inner delimiter

/-- The plan registers what the formula uses. -/
structure Registers (s : Scope) (f : Formula) (p : Plan) : Prop where
  joins : ∀ j, j ∈ p.joins.values ↔ s.JoinOf f j
  aggregates : ∀ a, a ∈ p.aggregates.values ↔ s.AggregateOf f a

variable {s : Scope} {f : Formula} {p : Plan}

private theorem joinOf_iff (hw : ¬f.IsAggregate) (hf : ∀ pos chain field, f ≠ .related pos chain field) {j : Join} :
    s.JoinOf f j ↔ ∃ c ∈ f.children, s.JoinOf c j := by
  constructor
  · rintro ⟨hops, h, hj⟩
    obtain ⟨c, hc, h⟩ := (Formula.follows_iff hw hf).1 h
    exact ⟨c, hc, hops, h, hj⟩
  · rintro ⟨c, hc, hops, h, hj⟩
    exact ⟨hops, (Formula.follows_iff hw hf).2 ⟨c, hc, h⟩, hj⟩

private theorem aggregateOf_iff (hw : ¬f.IsAggregate) {a : Aggregate} :
    s.AggregateOf f a ↔ ∃ c ∈ f.children, s.AggregateOf c a := by
  constructor
  · rintro ⟨g, d, value, more, inner, delimiter, h, hrest⟩
    obtain ⟨c, hc, h⟩ := (Formula.folds_iff hw).1 h
    exact ⟨c, hc, g, d, value, more, inner, delimiter, h, hrest⟩
  · rintro ⟨c, hc, g, d, value, more, inner, delimiter, h, hrest⟩
    exact ⟨g, d, value, more, inner, delimiter, (Formula.folds_iff hw).2 ⟨c, hc, h⟩, hrest⟩

/-- A formula without parts that is neither a chain nor a call uses nothing. -/
private theorem registers_leaf (hw : ¬f.IsAggregate) (hf : ∀ pos chain field, f ≠ .related pos chain field)
    (hc : f.children = []) (e : Expression) : s.Registers f (.ofExpression e) := by
  refine ⟨fun j => ?_, fun a => ?_⟩
  · rw [joinOf_iff hw hf, hc]
    simp [Plan.ofExpression]
  · rw [aggregateOf_iff hw, hc]
    simp [Plan.ofExpression]

/-- A plan that is combined from the plans of parts registers what the parts use. -/
private theorem registers_combine (hw : ¬f.IsAggregate) (hf : ∀ pos chain field, f ≠ .related pos chain field)
    (e : Expression) {plans : List Plan} (h : List.Forall₂ (s.Registers) f.children plans)
    (hcompiled : ∀ p ∈ plans, Compiled s p) : s.Registers f (.combine e plans) := by
  refine ⟨fun j => ?_, fun a => ?_⟩
  · rw [(JoinsClosed.combine e fun p hp => (hcompiled p hp).joinsClosed).2 j, joinOf_iff hw hf]
    constructor
    · rintro ⟨p, hp, hj⟩
      obtain ⟨c, hc, hreg⟩ := exists_mem_of_forall₂ h.flip hp
      exact ⟨c, hc, (hreg.joins j).1 hj⟩
    · rintro ⟨c, hc, hj⟩
      obtain ⟨p, hp, hreg⟩ := exists_mem_of_forall₂ h hc
      exact ⟨p, hp, (hreg.joins j).2 hj⟩
  · rw [(collects_combine e fun p hp => (hcompiled p hp).collects).2 a, aggregateOf_iff hw]
    constructor
    · rintro ⟨p, hp, ha⟩
      obtain ⟨c, hc, hreg⟩ := exists_mem_of_forall₂ h.flip hp
      exact ⟨c, hc, (hreg.aggregates a).1 ha⟩
    · rintro ⟨c, hc, ha⟩
      obtain ⟨p, hp, hreg⟩ := exists_mem_of_forall₂ h hc
      exact ⟨p, hp, (hreg.aggregates a).2 ha⟩

/-- What a call of an aggregate uses is that aggregate. -/
private theorem aggregateOf_call_iff {pos pathPos : Position} {name : String} {segments : List String}
    {value : Formula}
    {more : List Formula} {g : AggregateFunction} {d : Destination} {inner : Plan} {delimiter : Option Plan}
    (hname : AggregateFunction.ofName? name = some g) (hpath : Hop.follow Table.inverse s.table segments = .ok d.hops)
    (htarget : Hop.target? d.hops = some d.target) (hinner : (s.nested d).compile value = .ok inner)
    (hdelimiter : s.compileDelimiter g more = .ok delimiter) {a : Aggregate} :
    s.AggregateOf (.call pos name (.path pathPos segments :: value :: more)) a ↔
      a = s.aggregateEntry g d inner delimiter := by
  constructor
  · rintro ⟨g', d', value', more', inner', delimiter', ⟨pos', name', pathPos', segments', hout, hname', hpath'⟩,
      htarget', hinner', hdelimiter', rfl⟩
    rcases Formula.outer_iff.1 hout with h | ⟨hw, -⟩
    · cases h
      rw [hname] at hname'
      cases hname'
      have hd : d' = d := by
        obtain ⟨hops, target⟩ := d
        obtain ⟨hops', target'⟩ := d'
        rw [hpath] at hpath'
        cases hpath'
        rw [htarget] at htarget'
        cases htarget'
        rfl
      subst hd
      rw [hinner] at hinner'
      cases hinner'
      rw [hdelimiter] at hdelimiter'
      cases hdelimiter'
      rfl
    · exact absurd ⟨pos, name, _, g, rfl, hname⟩ hw
  · rintro rfl
    exact ⟨g, d, value, more, inner, delimiter, ⟨pos, name, pathPos, segments, .refl _, hname, hpath⟩, htarget,
      hinner, hdelimiter, rfl⟩

private theorem not_joinOf_call {pos : Position} {name : String} {args : List Formula} {g : AggregateFunction}
    (hname : AggregateFunction.ofName? name = some g) {j : Join} : ¬s.JoinOf (.call pos name args) j := by
  rintro ⟨hops, ⟨pos', chain, field, hout, -⟩, -⟩
  rcases Formula.outer_iff.1 hout with h | ⟨hw, -⟩
  · cases h
  · exact hw ⟨pos, name, args, g, rfl, hname⟩

/-- An aggregate is registered alone: what is put between texts is constant. -/
private theorem registers_aggregate {pos : Position} {name : String} {args : List Formula} {g : AggregateFunction}
    {d : Destination} {inner : Plan} {delimiter : Option Plan} (hname : AggregateFunction.ofName? name = some g)
    (hentry : ∀ a, s.AggregateOf (.call pos name args) a ↔ a = s.aggregateEntry g d inner delimiter)
    (hcompiled : ∀ p ∈ delimiter.toList, Compiled s p)
    (hnone : ∀ p ∈ delimiter.toList, ∃ c : Formula, c.isConstant = true ∧ s.Registers c p) :
    s.Registers (.call pos name args) (s.aggregate g d inner delimiter) := by
  have hjoins := (JoinsClosed.combine (s.aggregate g d inner delimiter).expression
    fun p hp => (hcompiled p hp).joinsClosed).2
  obtain ⟨hcollects, hmem⟩ := collects_combine (s.aggregate g d inner delimiter).expression
    fun p hp => (hcompiled p hp).collects
  have hempty : ∀ a,
      a ∉ (Plan.combine (s.aggregate g d inner delimiter).expression delimiter.toList).aggregates.values := by
    intro a ha
    obtain ⟨p, hp, ha⟩ := (hmem a).1 ha
    obtain ⟨c, hconstant, hreg⟩ := hnone p hp
    obtain ⟨_, _, _, _, _, _, hfolds, -⟩ := (hreg.aggregates a).1 ha
    exact Formula.not_folds_of_isConstant hconstant hfolds
  refine ⟨fun j => iff_of_false ?_ (not_joinOf_call hname), fun a => ?_⟩
  · intro hj
    obtain ⟨p, hp, hj⟩ := (hjoins j).1 hj
    obtain ⟨c, hconstant, hreg⟩ := hnone p hp
    obtain ⟨_, hfollows, -⟩ := (hreg.joins j).1 hj
    exact Formula.not_follows_of_isConstant hconstant hfollows
  · rw [hentry a]
    have hinsert := KeyMap.mem_values_insertNew hcollects.toKeyed (a := s.aggregateEntry g d inner delimiter) (x := a)
      fun b hb => absurd hb (hempty b)
    exact hinsert.trans (or_iff_left (hempty a))

/-- A chain is followed by the formula that it is, and by no aggregate. -/
private theorem registers_related {pos : Position} {chain : List String} {field : Option String} {init : List Hop}
    {last : Hop} {name : String} {type : ValueType} (hn : ∀ n ∈ chain, Ascii.IsName n)
    (hc : Hop.follow Table.direct s.table chain = .ok (init ++ [last])) :
    s.Registers (.related pos chain field) (s.relatedPlan init last name type) := by
  have hroute := Hop.route_of_follow hn hc
  have hw : ¬(Formula.related pos chain field).IsAggregate := by
    rintro ⟨_, _, _, _, ⟨⟩, -⟩
  refine ⟨fun j => ?_, fun a => ?_⟩
  · refine ((JoinsClosed.of_route hroute).2 j).trans ⟨fun hj => ⟨_, ⟨pos, chain, field, .refl _, hc⟩, hj⟩, ?_⟩
    rintro ⟨hops, ⟨pos', chain', field', hout, hc'⟩, hj⟩
    rcases Formula.outer_iff.1 hout with h | ⟨-, c, hmem, -⟩
    · cases h
      rw [hc] at hc'
      cases hc'
      exact hj
    · cases hmem
  · rw [aggregateOf_iff hw]
    simp [relatedPlan, Formula.children]

theorem Plans.compiled (h : Plans s f p) (hf : f.WellFormed) : Compiled s p :=
  compiled_of_compile hf (compile_eq_ok_iff.2 h)

/-- A call of a function that is no aggregate uses what its arguments use. -/
private theorem registers_call {pos : Position} {name : String} {args : List Formula} {sig : Signature}
    {type : ValueType} {plans : List Plan} (hg : AggregateFunction.ofName? name = none)
    (hf : (Formula.call pos name args).WellFormed)
    (h : List.Forall₂ (fun c p => c.WellFormed → Compiled s p ∧ s.Registers c p) args plans) :
    s.Registers (.call pos name args) (s.call sig type plans) := by
  have hwf : ∀ c ∈ args, c.WellFormed := by
    cases hf with
    | call _ _ _ ha => exact ha
    | aggregate _ _ _ hsome =>
      rw [hg] at hsome
      cases hsome
  have hall := forall₂_imp_of_mem h fun c hc p _ h => h (hwf c hc)
  refine registers_combine (Formula.not_isAggregate_call hg) (by rintro _ _ _ ⟨⟩) _ (hall.imp fun _ _ h => h.2) ?_
  intro p hp
  obtain ⟨c, -, hcompiled, -⟩ := exists_mem_of_forall₂ hall.flip hp
  exact hcompiled

/-- Plans register the joins along the chains of their formulas and the aggregates that they call. -/
theorem Plans.registers (h : Plans s f p) (hf : f.WellFormed) : s.Registers f p := by
  induction h with
  | number s pos n => exact registers_leaf (by rintro ⟨_, _, _, _, ⟨⟩, -⟩) (by rintro _ _ _ ⟨⟩) rfl _
  | string s pos text => exact registers_leaf (by rintro ⟨_, _, _, _, ⟨⟩, -⟩) (by rintro _ _ _ ⟨⟩) rfl _
  | boolean s pos b => exact registers_leaf (by rintro ⟨_, _, _, _, ⟨⟩, -⟩) (by rintro _ _ _ ⟨⟩) rfl _
  | null s pos => exact registers_leaf (by rintro ⟨_, _, _, _, ⟨⟩, -⟩) (by rintro _ _ _ ⟨⟩) rfl _
  | date s pos text => exact registers_leaf (by rintro ⟨_, _, _, _, ⟨⟩, -⟩) (by rintro _ _ _ ⟨⟩) rfl _
  | column pos h => exact registers_leaf (by rintro ⟨_, _, _, _, ⟨⟩, -⟩) (by rintro _ _ _ ⟨⟩) rfl _
  | related pos hc h =>
    cases hf with
    | related _ hne hchain hfield => exact registers_related (fun n hn => (hchain n hn).1.isName) hc
  | negate pos he h ih =>
    cases hf with
    | negate _ hf =>
      refine registers_combine (by rintro ⟨_, _, _, _, ⟨⟩, -⟩) (by rintro _ _ _ ⟨⟩) _ (.cons (ih hf) .nil) ?_
      simpa using he.compiled hf
  | binary pos hl hr h ihl ihr =>
    cases hf with
    | binary _ _ hfl hfr =>
      refine registers_combine (by rintro ⟨_, _, _, _, ⟨⟩, -⟩) (by rintro _ _ _ ⟨⟩) _
        (.cons (ihl hfl) (.cons (ihr hfr) .nil)) ?_
      simpa using ⟨hl.compiled hfl, hr.compiled hfr⟩
  | @call s pos name sig args plans type hs hn hg hd ha hl hargs htypes h ih =>
    rw [AggregateFunction.ofName?_eq_of_sameName hn] at hg
    refine registers_call hg hf (List.forall₂_iff_zip.2 ⟨hl, fun {c q} hx hc => ?_⟩)
    exact ⟨(hargs (c, q) hx).compiled hc, ih (c, q) hx hc⟩
  | @dateDifference s pos unitPos name text sig start finish p q hs hn hd ha hp hq htypes hunit ihp ihq =>
    have hg : AggregateFunction.ofName? name = none := by
      rw [← AggregateFunction.ofName?_eq_of_sameName hn, hd]
      rfl
    refine registers_call hg hf (.cons ?_ (.cons ?_ (.cons ?_ .nil)))
    · exact fun hc => ⟨hp.compiled hc, ihp hc⟩
    · exact fun hc => ⟨hq.compiled hc, ihq hc⟩
    · exact fun _ => ⟨.string s _, registers_leaf (by rintro ⟨_, _, _, _, ⟨⟩, -⟩) (by rintro _ _ _ ⟨⟩) rfl _⟩
  | @aggregate s pos pathPos name g segments value more d inner delimiter hn hm hdepth hpath htarget hv h hcount hl
      hconstant hmore htext ihv ihm =>
    have hname : AggregateFunction.ofName? name = some g := AggregateFunction.ofName?_eq_some_iff.2 hn
    have hdelimiter := compileDelimiter_of_plans hcount hl hconstant hmore htext
    have hwf : ∀ c ∈ more, c.WellFormed := by
      cases hf with
      | call _ _ _ ha => exact fun c hc => ha c (by simp [hc])
      | aggregate _ _ _ _ _ _ ha => exact fun c hc => ha c (List.mem_cons_of_mem _ hc)
    have hall : List.Forall₂ (fun c q => c.isConstant = true ∧ Compiled s q ∧ s.Registers c q)
        more delimiter.toList := by
      refine List.forall₂_iff_zip.2 ⟨hl, fun {c q} hx => ?_⟩
      have hc := (List.of_mem_zip hx).1
      exact ⟨hconstant c hc, (hmore (c, q) hx).compiled (hwf c hc), ihm (c, q) hx (hwf c hc)⟩
    refine registers_aggregate hname
      (fun a => aggregateOf_call_iff hname hpath htarget (compile_eq_ok_iff.2 hv) hdelimiter) ?_ ?_
    · intro q hq
      obtain ⟨c, -, -, hcompiled, -⟩ := exists_mem_of_forall₂ hall.flip hq
      exact hcompiled
    · intro q hq
      obtain ⟨c, -, hc, -, hreg⟩ := exists_mem_of_forall₂ hall.flip hq
      exact ⟨c, hc, hreg⟩

/-! ### Parts of formulas with plans -/

/-- The parts of a formula that has a plan have plans, unless they are arguments of an aggregate. -/
private theorem Plans.exists_of_child (h : Plans s f p) (hw : ¬f.IsAggregate) {c : Formula} (hc : c ∈ f.children) :
    ∃ q, Plans s c q := by
  cases h with
  | number | string | boolean | null | date | column | related => cases hc
  | negate pos he h =>
    rw [List.mem_singleton.1 hc]
    exact ⟨_, he⟩
  | binary pos hl hr h =>
    rcases List.mem_cons.1 hc with rfl | hc
    · exact ⟨_, hl⟩
    · rw [List.mem_singleton.1 hc]
      exact ⟨_, hr⟩
  | call pos hs hn hg hd ha hl hargs htypes h =>
    obtain ⟨q, -, hq⟩ := exists_mem_of_forall₂ (List.forall₂_iff_zip.2 ⟨hl, fun {c q} hx => hargs (c, q) hx⟩) hc
    exact ⟨q, hq⟩
  | dateDifference pos unitPos hs hn hd ha hp hq htypes hunit =>
    rcases List.mem_cons.1 hc with rfl | hc
    · exact ⟨_, hp⟩
    · rcases List.mem_cons.1 hc with rfl | hc
      · exact ⟨_, hq⟩
      · rw [List.mem_singleton.1 hc]
        exact ⟨_, .string s unitPos _⟩
  | aggregate pos pathPos hn => exact absurd ⟨_, _, _, _, rfl, AggregateFunction.ofName?_eq_some_iff.2 hn⟩ hw

/-- What stands outside aggregates in a formula that has a plan has a plan. -/
theorem Plans.exists_of_outer (h : Plans s f p) {c : Formula} (hc : c.Outer f) : ∃ q, Plans s c q := by
  induction hc generalizing p with
  | refl => exact ⟨p, h⟩
  | child hw hmem _ ih =>
    obtain ⟨q, hq⟩ := h.exists_of_child hw hmem
    exact ih hq

/-- An aggregate that is called in a formula with a plan leads to a table, and its arguments have plans. -/
theorem Plans.exists_of_folds (h : Plans s f p) {g : AggregateFunction} {hops : List Hop} {value : Formula}
    {more : List Formula} (hfolds : f.Folds s.table g hops value more) :
    ∃ target inner delimiter, Hop.target? hops = some target ∧ (s.nested ⟨hops, target⟩).compile value = .ok inner ∧
      s.compileDelimiter g more = .ok delimiter := by
  obtain ⟨pos, name, pathPos, segments, hout, hname, hpath⟩ := hfolds
  obtain ⟨q, hq⟩ := h.exists_of_outer hout
  cases hq with
  | call _ hs hn hg =>
    rw [AggregateFunction.ofName?_eq_of_sameName hn, hname] at hg
    cases hg
  | dateDifference _ _ hs hn hd =>
    have hg := AggregateFunction.ofName?_eq_of_sameName hn
    rw [hd, hname] at hg
    cases hg
  | @aggregate _ _ _ _ g' _ _ _ d inner delimiter hn hm hdepth hpath' htarget hv h hcount hl hconstant hmore htext =>
    rw [AggregateFunction.ofName?_eq_some_iff.2 hn] at hname
    cases hname
    rw [hpath] at hpath'
    cases hpath'
    exact ⟨d.target, inner, delimiter, htarget, compile_eq_ok_iff.2 hv,
      compileDelimiter_of_plans hcount hl hconstant hmore htext⟩

end Scope

namespace Formula

variable {f g : Formula} {t : Table} {hops : List Hop}

private theorem Outer.wellFormed (h : Outer g f) (hf : f.WellFormed) : g.WellFormed := by
  induction h with
  | refl => exact hf
  | child hw hc _ ih =>
    refine ih ?_
    cases hf with
    | number | string | boolean | null | date | column | related => cases hc
    | negate _ h =>
      rw [List.mem_singleton.1 hc]
      exact h
    | binary _ _ hl hr =>
      rcases List.mem_cons.1 hc with rfl | hc
      · exact hl
      · rw [List.mem_singleton.1 hc]
        exact hr
    | call _ _ _ ha => exact ha _ hc
    | aggregate _ _ _ hg =>
      obtain ⟨fn, hfn⟩ := Option.isSome_iff_exists.1 hg
      exact absurd ⟨_, _, _, fn, rfl, hfn⟩ hw

/-- The path of an aggregate is a route, and its value is well formed. -/
theorem Folds.wellFormed {fn : AggregateFunction} {value : Formula} {more : List Formula}
    (h : f.Folds t fn hops value more) (hf : f.WellFormed) : Hop.Route Table.inverse t hops ∧ value.WellFormed := by
  obtain ⟨pos, name, pathPos, segments, hout, -, hpath⟩ := h
  cases hout.wellFormed hf with
  | call _ _ _ ha => cases ha _ List.mem_cons_self
  | aggregate _ _ _ _ _ hs ha =>
    exact ⟨Hop.route_of_follow (fun n hn => (hs n hn).isName) hpath, ha value List.mem_cons_self⟩

end Formula

end FormulaQuery
