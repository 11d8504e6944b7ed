import FormulaQuery.Proofs.TypeChecking

/-!
# Compiling as a relation

`Scope.Plans s f p` says how the formula `f` comes to have the plan `p` in the scope `s`: one rule for each kind of
formula, whose premises are the checks made on the way. Compiling computes this relation
(`Scope.compile_eq_ok_iff`), so what ties a plan to its formula is shown by induction on the rules.
-/

namespace FormulaQuery

namespace Scope

/-- The plans that formulas have in a scope. -/
inductive Plans : Scope → Formula → Plan → Prop
  | number (s pos n) : Plans s (.number pos n) (.ofExpression (s.numberLiteral n))
  | string (s pos text) : Plans s (.string pos text) (.ofExpression (s.stringLiteral text))
  | boolean (s pos b) : Plans s (.boolean pos b) (.ofExpression (s.booleanLiteral b))
  | null (s pos) : Plans s (.null pos) (.ofExpression s.nullLiteral)
  | date (s pos text) : Plans s (.date pos text) (.ofExpression (s.dateLiteral text))
  | column {s : Scope} (pos : Position) {name spelling : String} {type : ValueType}
    (h : s.table.columns.get? name = some (spelling, type)) :
    Plans s (.column pos name) (.ofExpression (.column (s.info "column" spelling type [] []) spelling))
  | related {s : Scope} (pos : Position) {chain : List String} {init : List Hop} {last : Hop}
    {field spelling : String}
    {type : ValueType} (hc : Hop.follow Table.direct s.table chain = .ok (init ++ [last]))
    (h : last.link.target.columns.get? field = some (spelling, type)) :
    Plans s (.related pos chain (some field)) (s.relatedPlan init last spelling type)
  | negate {s : Scope} (pos : Position) {e : Formula} {p : Plan} (he : Plans s e p)
    (h : p.expression.type = .number ∨ p.expression.type = .null) :
    Plans s (.negate pos e) (.combine (.negate (s.info "unary" "-" .number [] [p.expression]) p.expression) [p])
  | binary {s : Scope} (pos : Position) {op : BinaryOperator} {l r : Formula} {p q : Plan} {type : ValueType}
    (hl : Plans s l p) (hr : Plans s r q) (h : op.resultType? p.expression.type q.expression.type = some type) :
    Plans s (.binary pos op l r) (.combine
      (.binary (s.info "binary" op.symbol type [] [p.expression, q.expression]) op
      p.expression q.expression) [p, q])
  | call {s : Scope} (pos : Position) {name : String} {sig : Signature} {args : List Formula} {plans : List Plan}
    {type : ValueType} (hs : sig ∈ Signature.catalog) (hn : Ascii.sameName sig.name name = true)
    (hf : AggregateFunction.ofName? sig.name = none) (hd : sig.name ≠ "DATEDIF") (ha : sig.Admits args.length)
    (hl : args.length = plans.length) (hargs : ∀ x ∈ args.zip plans, Plans s x.1 x.2)
    (htypes : sig.AcceptsFrom 0 (plans.map (·.expression.type)))
    (h : sig.Yields (plans.map (·.expression.type)) type) : Plans s (.call pos name args) (s.call sig type plans)
  /-- A difference of dates, whose unit is written out. -/
  | dateDifference {s : Scope} (pos unitPos : Position) {name text : String} {sig : Signature}
    {start finish : Formula}
    {p q : Plan} (hs : sig ∈ Signature.catalog) (hn : Ascii.sameName sig.name name = true) (hd : sig.name = "DATEDIF")
    (ha : sig.Admits 3) (hp : Plans s start p) (hq : Plans s finish q)
    (htypes : sig.AcceptsFrom 0 [p.expression.type, q.expression.type]) (hunit : Ascii.lower text ∈ dateUnits) :
    Plans s (.call pos name [start, finish, .string unitPos text])
      (s.call sig .number [p, q, .ofExpression (s.stringLiteral (Ascii.lower text))])
  /-- An aggregate, whose value has a plan in the scope of the rows that it folds. -/
  | aggregate {s : Scope} (pos pathPos : Position) {name : String} {f : AggregateFunction} {segments : List String}
    {value : Formula} {more : List Formula} {d : Destination} {inner : Plan} {delimiter : Option Plan}
    (hn : Ascii.sameName f.name name = true) (hm : s.context.isMain = true) (hdepth : segments.length ≤ s.maxDepth)
    (hpath : Hop.follow Table.inverse s.table segments = .ok d.hops) (htarget : Hop.target? d.hops = some d.target)
    (hv : Plans (s.nested d) value inner) (h : f.acceptsInput inner.expression.type = true)
    (hcount : more.length = if f.takesDelimiter then 1 else 0) (hl : more.length = delimiter.toList.length)
    (hconstant : ∀ c ∈ more, c.isConstant = true) (hmore : ∀ x ∈ more.zip delimiter.toList, Plans s x.1 x.2)
    (htext : ∀ p ∈ delimiter.toList, p.expression.type = .string) :
    Plans s (.call pos name (.path pathPos segments :: value :: more)) (s.aggregate f d inner delimiter)

/-! ### What is compiled follows the rules -/

variable {s : Scope}

private theorem plans_of_related {pos : Position} {chain : List String} {field : Option String} {p : Plan}
    (h : s.related pos chain field = .ok p) : Plans s (.related pos chain field) p := by
  unfold related at h
  split at h
  · cases h
  · rename_i hops hfollow
    dsimp only at h
    split at h
    · rename_i target last htarget hlast
      split at h
      · cases h
      · split at h
        · cases h
        · rename_i spelling type hget
          cases h
          rcases List.eq_nil_or_concat hops with rfl | ⟨init, k, rfl⟩
          · cases htarget
          · rw [List.concat_eq_append] at *
            rw [Hop.joins_append_singleton, List.getLast?_concat, List.nil_append] at hlast
            rw [Hop.target?, List.getLast?_concat] at htarget
            cases hlast
            cases htarget
            exact .related pos hfollow hget
    · cases h

private theorem plans_of_compileArguments {sig : Signature} {args : List Formula}
    (ih : ∀ e ∈ args, ∀ {p : Plan}, s.compile e = .ok p → Plans s e p) {index : Nat} {plans : List Plan}
    (h : s.compileArguments sig index args = .ok plans) :
    args.length = plans.length ∧ (∀ x ∈ args.zip plans, Plans s x.1 x.2) ∧
      sig.AcceptsFrom index (plans.map (·.expression.type)) := by
  induction args generalizing index plans with
  | nil =>
    rw [compileArguments] at h
    cases h
    exact ⟨rfl, List.forall_mem_nil _, sig.acceptsFrom_nil index⟩
  | cons arg args ihArgs =>
    rw [compileArguments] at h
    obtain ⟨p, hp, h⟩ := bind_eq_ok h
    obtain ⟨_, hcheck, h⟩ := bind_eq_ok h
    obtain ⟨more, hmore, h⟩ := bind_eq_ok h
    cases h
    obtain ⟨hlength, hall, haccepts⟩ := ihArgs (fun e he => ih e (List.mem_cons_of_mem _ he)) hmore
    refine ⟨congrArg Nat.succ hlength, ?_, ?_⟩
    · exact List.forall_mem_cons.2 ⟨ih arg List.mem_cons_self hp, hall⟩
    · rw [List.map_cons, Signature.acceptsFrom_cons]
      exact ⟨checkArgument_eq_ok_iff.1 hcheck, haccepts⟩

private theorem plans_of_compileDateDifference {sig : Signature} {pos : Position} {name : String}
    {args : List Formula}
    {p : Plan} (hs : sig ∈ Signature.catalog) (hn : Ascii.sameName sig.name name = true) (hd : sig.name = "DATEDIF")
    (ha : sig.Admits args.length) (ih : ∀ e ∈ args, ∀ {p : Plan}, s.compile e = .ok p → Plans s e p)
    (h : s.compileDateDifference sig pos args = .ok p) : Plans s (.call pos name args) p := by
  unfold compileDateDifference at h
  split at h
  · rename_i start finish unit
    obtain ⟨q, hq, h⟩ := bind_eq_ok h
    obtain ⟨_, hcheck, h⟩ := bind_eq_ok h
    obtain ⟨r, hr, h⟩ := bind_eq_ok h
    obtain ⟨_, hcheck', h⟩ := bind_eq_ok h
    obtain ⟨u, hu, h⟩ := bind_eq_ok h
    cases h
    obtain ⟨unitPos, text, rfl, hunit, rfl⟩ := dateUnit_eq_ok_iff.1 hu
    refine .dateDifference pos unitPos hs hn hd ha (ih start (by simp) hq) (ih finish (by simp) hr) ?_ hunit
    simp only [Signature.acceptsFrom_cons]
    exact ⟨checkArgument_eq_ok_iff.1 hcheck, checkArgument_eq_ok_iff.1 hcheck', sig.acceptsFrom_nil _⟩
  · cases h

private theorem plans_of_compileAggregate {sig : Signature} {f : AggregateFunction} {pos : Position} {name : String}
    {args : List Formula} {p : Plan} (hs : sig ∈ Signature.catalog) (hn : Ascii.sameName sig.name name = true)
    (hf : AggregateFunction.ofName? sig.name = some f) (ha : sig.Admits args.length)
    (ih : ∀ e ∈ args, ∀ {s : Scope} {p : Plan}, s.compile e = .ok p → Plans s e p)
    (h : s.compileAggregate f pos args = .ok p) : Plans s (.call pos name args) p := by
  obtain ⟨path, value, more, d, inner, delimiter, rfl, hd, hinner, haccepts, hdelimiter, rfl⟩ :=
    compileAggregate_eq_ok_iff.1 h
  obtain ⟨hmain, pathPos, segments, rfl, hdepth, hfollow, htarget⟩ := destination_eq_ok_iff.1 hd
  have hname : Ascii.sameName f.name name = true := by
    rw [← AggregateFunction.ofName?_eq_some_iff, ← AggregateFunction.ofName?_eq_of_sameName hn, hf]
  have hcount : more.length = if f.takesDelimiter then 1 else 0 :=
    Nat.add_right_cancel ((Signature.admits_aggregate_iff hs hf).1 ha)
  have hall := (compileDelimiter_eq_ok_iff hcount).1 hdelimiter
  have hzip := List.forall₂_iff_zip.1 hall
  refine .aggregate pos pathPos hname hmain hdepth hfollow htarget (ih value (by simp) hinner) haccepts hcount hzip.1
    ?_ ?_ ?_
  · intro c hc
    obtain ⟨q, -, hconstant, -⟩ := exists_mem_of_forall₂ hall hc
    exact hconstant
  · rintro ⟨c, q⟩ hx
    exact ih c (List.mem_cons_of_mem _ (List.mem_cons_of_mem _ (List.of_mem_zip hx).1)) (hzip.2 hx).2.1
  · intro q hq
    obtain ⟨c, -, -, -, htype⟩ := exists_mem_of_forall₂ hall.flip hq
    exact htype

private theorem plans_of_compile {f : Formula} {p : Plan} (h : s.compile f = .ok p) : Plans s f p := by
  induction f using Formula.children_induction generalizing s p with
  | step f ih =>
    cases f with
    | number pos n =>
      rw [compile] at h
      cases h
      exact .number s pos n
    | string pos text =>
      rw [compile] at h
      cases h
      exact .string s pos text
    | boolean pos b =>
      rw [compile] at h
      cases h
      exact .boolean s pos b
    | null pos =>
      rw [compile] at h
      cases h
      exact .null s pos
    | date pos text =>
      rw [compile] at h
      cases h
      exact .date s pos text
    | column pos name =>
      rw [compile] at h
      obtain ⟨e, he, h⟩ := bind_eq_ok h
      cases h
      unfold column at he
      split at he
      · rename_i spelling type hget
        cases he
        exact .column pos hget
      · cases he
    | related pos chain field =>
      rw [compile] at h
      exact plans_of_related h
    | path pos segments =>
      rw [compile] at h
      cases h
    | negate pos e =>
      rw [compile] at h
      obtain ⟨q, hq, h⟩ := bind_eq_ok h
      dsimp only at h
      split at h
      · rename_i htype
        cases h
        exact .negate pos (ih e List.mem_cons_self hq) htype
      · cases h
    | binary pos op l r =>
      rw [compile] at h
      obtain ⟨q, hq, h⟩ := bind_eq_ok h
      obtain ⟨q', hq', h⟩ := bind_eq_ok h
      split at h
      · rename_i type htype
        cases h
        exact .binary pos (ih l List.mem_cons_self hq) (ih r (List.mem_cons_of_mem _ List.mem_cons_self) hq') htype
      · cases h
    | call pos name args =>
      rw [compile] at h
      obtain ⟨sig, hsig, h⟩ := bind_eq_ok h
      obtain ⟨hs, hn, ha⟩ := signature_eq_ok_iff.1 hsig
      split at h
      · rename_i g hg
        exact plans_of_compileAggregate hs hn hg ha ih h
      · rename_i hg
        split at h
        · rename_i hd
          exact plans_of_compileDateDifference hs hn hd ha (fun e he => ih e he) h
        · rename_i hd
          obtain ⟨plans, hplans, h⟩ := bind_eq_ok h
          obtain ⟨type, htype, h⟩ := bind_eq_ok h
          cases h
          have ih : ∀ e ∈ args, ∀ {p : Plan}, s.compile e = .ok p → Plans s e p := fun e he => ih e he
          obtain ⟨hlength, hall, haccepts⟩ := plans_of_compileArguments ih hplans
          have hc := (Signature.ofName?_eq_none_iff hs).1 hg
          have hyields := (callType_eq_ok_iff hs hc ha (by rw [List.length_map, hlength])).1 htype
          exact .call pos hs hn hg hd ha hlength hall haccepts hyields

/-! ### What follows the rules is compiled -/

private theorem compileArguments_of_zip {sig : Signature} {args : List Formula} {plans : List Plan} {index : Nat}
    (hl : args.length = plans.length) (hargs : ∀ x ∈ args.zip plans, s.compile x.1 = .ok x.2)
    (htypes : sig.AcceptsFrom index (plans.map (·.expression.type))) :
    s.compileArguments sig index args = .ok plans := by
  induction args generalizing plans index with
  | nil =>
    rw [List.length_eq_zero_iff.1 hl.symm, compileArguments]
  | cons arg args ih =>
    obtain ⟨p, plans, rfl⟩ := List.exists_cons_of_length_eq_add_one hl.symm
    rw [List.map_cons, Signature.acceptsFrom_cons] at htypes
    obtain ⟨hp, hplans⟩ := List.forall_mem_cons.1 hargs
    rw [compileArguments]
    exact bind_of_eq_ok hp (bind_of_eq_ok (checkArgument_eq_ok_iff.2 htypes.1)
      (bind_of_eq_ok (ih (Nat.succ.inj hl) hplans htypes.2) rfl))

private theorem related_of_follow {chain : List String} {init : List Hop} {last : Hop} {field spelling : String}
    {type : ValueType} (pos : Position) (hc : Hop.follow Table.direct s.table chain = .ok (init ++ [last]))
    (h : last.link.target.columns.get? field = some (spelling, type)) :
    s.related pos chain (some field) = .ok (s.relatedPlan init last spelling type) := by
  have htarget : Hop.target? (init ++ [last]) = some last.link.target := by
    rw [Hop.target?, List.getLast?_concat]; rfl
  have hlast : (Hop.joins s.context [] (init ++ [last])).getLast? = some (last.join s.context (Hop.names init)) := by
    rw [Hop.joins_append_singleton, List.getLast?_concat, List.nil_append]
  unfold related
  rw [hc]
  dsimp only
  rw [htarget, hlast]
  dsimp only
  rw [h]
  rfl

private theorem compileDelimiter_of_zip {f : AggregateFunction} {more : List Formula} {delimiter : Option Plan}
    (hcount : more.length = if f.takesDelimiter then 1 else 0) (hl : more.length = delimiter.toList.length)
    (hconstant : ∀ c ∈ more, c.isConstant = true) (hmore : ∀ x ∈ more.zip delimiter.toList, s.compile x.1 = .ok x.2)
    (htext : ∀ p ∈ delimiter.toList, p.expression.type = .string) : s.compileDelimiter f more = .ok delimiter := by
  refine (compileDelimiter_eq_ok_iff hcount).2 (List.forall₂_iff_zip.2 ⟨hl, fun {c q} hx => ?_⟩)
  obtain ⟨hc, hq⟩ := List.of_mem_zip hx
  exact ⟨hconstant c hc, hmore (c, q) hx, htext q hq⟩

private theorem compile_of_plans {f : Formula} {p : Plan} (h : Plans s f p) : s.compile f = .ok p := by
  induction h with
  | number | string | boolean | null | date => rw [compile]
  | column pos h =>
    rw [compile, column, h]
    rfl
  | related pos hc h =>
    rw [compile]
    exact related_of_follow pos hc h
  | negate pos _ h ih =>
    rw [compile]
    exact bind_of_eq_ok ih (if_pos h)
  | binary pos _ _ h ihl ihr =>
    rw [compile]
    refine bind_of_eq_ok ihl (bind_of_eq_ok ihr ?_)
    rw [h]
    rfl
  | @call s pos name sig args plans type hs hn hf hd ha hl _ htypes h ih =>
    rw [compile]
    refine bind_of_eq_ok (signature_eq_ok_iff.2 ⟨hs, hn, ha⟩) ?_
    rw [hf]
    dsimp only
    rw [if_neg hd]
    have hc := (Signature.ofName?_eq_none_iff hs).1 hf
    have htype : callType sig pos args (plans.map (·.expression.type)) = .ok type :=
      (callType_eq_ok_iff hs hc ha (by rw [List.length_map, hl])).2 h
    exact bind_of_eq_ok (compileArguments_of_zip hl ih htypes) (bind_of_eq_ok htype rfl)
  | @dateDifference s pos unitPos name text sig start finish p q hs hn hd ha _ _ htypes hunit ihp ihq =>
    rw [compile]
    refine bind_of_eq_ok (signature_eq_ok_iff.2 ⟨hs, hn, ha⟩) ?_
    have hf : AggregateFunction.ofName? sig.name = none := by rw [hd]; rfl
    rw [hf]
    dsimp only
    rw [if_pos hd, compileDateDifference]
    simp only [Signature.acceptsFrom_cons] at htypes
    have hu : s.dateUnit (.string unitPos text) = .ok (.ofExpression (s.stringLiteral (Ascii.lower text))) :=
      dateUnit_eq_ok_iff.2 ⟨unitPos, text, rfl, hunit, rfl⟩
    exact bind_of_eq_ok ihp (bind_of_eq_ok (checkArgument_eq_ok_iff.2 htypes.1) (bind_of_eq_ok ihq
      (bind_of_eq_ok (checkArgument_eq_ok_iff.2 htypes.2.1) (bind_of_eq_ok hu rfl))))
  | @aggregate s pos pathPos name f segments value more d inner delimiter hn hm hdepth hpath htarget _ h hcount hl
      hconstant _ htext ihv ihm =>
    obtain ⟨sig, hs, hname⟩ := Signature.exists_aggregate f
    have hf : AggregateFunction.ofName? sig.name = some f := by
      rw [hname, AggregateFunction.ofName?_eq_some_iff, Ascii.sameName_iff]
    have hsig : signature pos name (Formula.path pathPos segments :: value :: more).length = .ok sig := by
      refine signature_eq_ok_iff.2 ⟨hs, hname ▸ hn, (Signature.admits_aggregate_iff hs hf).2 ?_⟩
      rw [List.length_cons, List.length_cons, hcount]
    have hd : s.destination f pos (.path pathPos segments) = .ok d :=
      destination_eq_ok_iff.2 ⟨hm, pathPos, segments, rfl, hdepth, hpath, htarget⟩
    have hdelimiter := compileDelimiter_of_zip hcount hl hconstant ihm htext
    rw [compile]
    refine bind_of_eq_ok hsig ?_
    rw [hf]
    exact compileAggregate_eq_ok_iff.2 ⟨_, _, _, _, _, _, rfl, hd, ihv, h, hdelimiter, rfl⟩

/-- Compiling gives the plans that the rules give. -/
theorem compile_eq_ok_iff {f : Formula} {p : Plan} : s.compile f = .ok p ↔ Plans s f p :=
  ⟨plans_of_compile, compile_of_plans⟩

/-- What is put between texts is compiled as the rules say. -/
theorem compileDelimiter_of_plans {f : AggregateFunction} {more : List Formula} {delimiter : Option Plan}
    (hcount : more.length = if f.takesDelimiter then 1 else 0) (hl : more.length = delimiter.toList.length)
    (hconstant : ∀ c ∈ more, c.isConstant = true) (hmore : ∀ x ∈ more.zip delimiter.toList, Plans s x.1 x.2)
    (htext : ∀ p ∈ delimiter.toList, p.expression.type = .string) : s.compileDelimiter f more = .ok delimiter :=
  compileDelimiter_of_zip hcount hl hconstant (fun x hx => compile_of_plans (hmore x hx)) htext

/-- Where longer paths are allowed, plans stay as they are. -/
theorem Plans.of_depth_le {f : Formula} {p : Plan} (h : Plans s f p) {maxDepth : Nat} (hle : s.maxDepth ≤ maxDepth) :
    Plans { s with maxDepth } f p := by
  induction h with
  | number s pos n => exact .number _ pos n
  | string s pos text => exact .string _ pos text
  | boolean s pos b => exact .boolean _ pos b
  | null s pos => exact .null _ pos
  | date s pos text => exact .date _ pos text
  | column pos h => exact .column pos h
  | related pos hc h => exact .related pos hc h
  | negate pos _ h ih => exact .negate pos (ih hle) h
  | binary pos _ _ h ihl ihr => exact .binary pos (ihl hle) (ihr hle) h
  | call pos hs hn hf hd ha hl _ htypes h ih => exact .call pos hs hn hf hd ha hl (fun x hx => ih x hx hle) htypes h
  | dateDifference pos unitPos hs hn hd ha _ _ htypes hunit ihp ihq =>
    exact .dateDifference pos unitPos hs hn hd ha (ihp hle) (ihq hle) htypes hunit
  | aggregate pos pathPos hn hm hdepth hpath htarget _ h hcount hl hconstant _ htext ihv ihm =>
    exact .aggregate pos pathPos hn hm (Nat.le_trans hdepth hle) hpath htarget (ihv hle) h hcount hl hconstant
      (fun x hx => ihm x hx hle) htext

/-- A formula has at most one plan in a scope. -/
theorem Plans.unique {f : Formula} {p q : Plan} (hp : Plans s f p) (hq : Plans s f q) : p = q := by
  rw [← compile_eq_ok_iff] at hp hq
  rw [hp] at hq
  exact Except.ok.inj hq

end Scope

/-- A text has the plans of the formula that it is parsed to. -/
theorem Plan.ofFormula_eq_ok_iff {text : String} {schema : Table} {maxDepth : Nat} {p : Plan} :
    Plan.ofFormula text schema maxDepth = .ok p ↔
      ∃ f, Formula.parse text = .ok f ∧ (schema.scope maxDepth).Plans f p := by
  simp only [← Scope.compile_eq_ok_iff]
  unfold ofFormula Formula.compile
  constructor
  · intro h
    split at h
    · cases h
    · rename_i f hf
      split at h
      · cases h
      · rename_i q hq
        cases h
        exact ⟨f, hf, hq⟩
  · rintro ⟨f, hf, hq⟩
    rw [hf]
    dsimp only
    rw [hq]

end FormulaQuery
