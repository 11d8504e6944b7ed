import FormulaQuery.Plan.Compile
import FormulaQuery.Proofs.KeyMap
import FormulaQuery.Proofs.Route
import FormulaQuery.Proofs.WellFormed

/-!
# Compiled plans

What compiling can give, said once: `Compiled s p` lists the ways in which a plan of the scope `s` comes about, with
the facts that the checks on the way have established. Compiling a formula that comes from a text gives such a plan
(`compiled_of_compile`), so what is true of all compiled plans is shown by induction on this relation.
-/

namespace FormulaQuery

/-! ### Parts of expressions -/

namespace Expression

/-- An expression that occurs in another one, or is it. -/
inductive Within : Expression → Expression → Prop
  | refl (e : Expression) : Within e e
  | child {e c whole : Expression} (hc : c ∈ whole.children) (h : Within e c) : Within e whole

/-- An expression that reads no column of any kind. -/
structure IsConstant (e : Expression) : Prop where
  column : ∀ info name, ¬Within (.column info name) e
  related : ∀ info join name, ¬Within (.related info join name) e
  aggregate : ∀ info ref, ¬Within (.aggregate info ref) e

/-- An expression is constant if it reads no column itself and its parts are constant. -/
theorem isConstant_of_children {e : Expression} (hc : ∀ c ∈ e.children, IsConstant c)
    (h₁ : ∀ info name, e ≠ .column info name) (h₂ : ∀ info join name, e ≠ .related info join name)
    (h₃ : ∀ info ref, e ≠ .aggregate info ref) : IsConstant e := by
  refine ⟨?_, ?_, ?_⟩
  · intro info name hw
    cases hw with
    | refl => exact h₁ info name rfl
    | child hmem hw => exact (hc _ hmem).column info name hw
  · intro info join name hw
    cases hw with
    | refl => exact h₂ info join name rfl
    | child hmem hw => exact (hc _ hmem).related info join name hw
  · intro info ref hw
    cases hw with
    | refl => exact h₃ info ref rfl
    | child hmem hw => exact (hc _ hmem).aggregate info ref hw

end Expression

namespace Scope

/-! ### The relation -/

/-- A destination that a path of one-to-many relationships leads to. -/
structure IsDestination (s : Scope) (d : Destination) : Prop where
  route : Hop.Route Table.inverse s.table d.hops
  target : Hop.target? d.hops = some d.target

/-- The plan of a column at the end of the route `init ++ [last]`. -/
def relatedPlan (s : Scope) (init : List Hop) (last : Hop) (column : String) (type : ValueType) : Plan :=
  let hops := init ++ [last]
  let joins := Hop.joins s.context [] hops
  let path := ".".intercalate (Hop.names hops)
  ⟨.related (s.info "relationship" (path ++ "." ++ column) type (joins.map (·.id)) [])
      (last.join s.context (Hop.names init)).id column,
    KeyMap.empty.insertAll Join.id joins, .empty⟩

/-- The plans that formulas have in a scope. -/
inductive Compiled : Scope → Plan → Prop
  | number (s rank) : Compiled s (.ofExpression (s.numberLiteral (.ranked false rank)))
  | string (s text) : Compiled s (.ofExpression (s.stringLiteral text))
  | boolean (s value) : Compiled s (.ofExpression (s.booleanLiteral value))
  | null (s) : Compiled s (.ofExpression s.nullLiteral)
  | date (s) {text : String} (h : Calendar.isDate text.toList = true) :
    Compiled s (.ofExpression (s.dateLiteral text))
  | column (s) {name : String} {type : ValueType} (hn : Ascii.IsName name) (hne : name.toList ≠ [])
    (h : s.table.columns.get? name = some (name, type)) :
    Compiled s (.ofExpression (.column (s.info "column" name type [] []) name))
  | related (s) {init : List Hop} {last : Hop} {name : String} {type : ValueType}
    (hr : Hop.Route Table.direct s.table (init ++ [last])) (hn : Ascii.IsName name)
    (h : last.link.target.columns.get? name = some (name, type)) : Compiled s (s.relatedPlan init last name type)
  | negate {s : Scope} {p : Plan} (h : Compiled s p) :
    Compiled s (.combine (.negate (s.info "unary" "-" .number [] [p.expression]) p.expression) [p])
  | binary {s : Scope} {p q : Plan} {op : BinaryOperator} {type : ValueType} (hp : Compiled s p) (hq : Compiled s q)
    (ht : op.resultType? p.expression.type q.expression.type = some type) :
    Compiled s (.combine (.binary (s.info "binary" op.symbol type [] [p.expression, q.expression]) op p.expression
      q.expression) [p, q])
  | call {s : Scope} {signature : Signature} {type : ValueType} {plans : List Plan} {pos : Position}
    {args : List Formula} (hs : signature ∈ Signature.catalog)
    (ha : AggregateFunction.ofName? signature.name = none) (hp : ∀ p ∈ plans, Compiled s p)
    (hl : args.length = plans.length)
    (ht : callType signature pos args (plans.map (·.expression.type)) = .ok type)
    (hm : ∀ m ∈ signature.maxArity?, plans.length ≤ m) : Compiled s (s.call signature type plans)
  | aggregate {s : Scope} {f : AggregateFunction} {d : Destination} {inner : Plan} {delimiter : Option Plan}
    (hm : s.context = .main) (hd : s.IsDestination d) (hi : Compiled (s.nested d) inner)
    (hp : ∀ p ∈ delimiter, Compiled s p) (hc : ∀ p ∈ delimiter, p.expression.IsConstant) :
    Compiled s (s.aggregate f d inner delimiter)

/-! ### Compiling gives compiled plans -/

/-- What compiling a formula gives: a plan of the scope, which is constant if the formula is. -/
def Gives (s : Scope) (f : Formula) (p : Plan) : Prop :=
  Compiled s p ∧ (f.isConstant = true → p.expression.IsConstant)

private theorem isConstant_leaf {e : Expression} (hc : e.children = []) (h₁ : ∀ info name, e ≠ .column info name)
    (h₂ : ∀ info join name, e ≠ .related info join name) (h₃ : ∀ info ref, e ≠ .aggregate info ref) :
    e.IsConstant :=
  Expression.isConstant_of_children (fun c h => by rw [hc] at h; cases h) h₁ h₂ h₃

theorem stringLiteral_isConstant (s : Scope) (t : String) : (s.stringLiteral t).IsConstant :=
  isConstant_leaf rfl (fun _ _ => nofun) (fun _ _ _ => nofun) fun _ _ => nofun

private theorem compiled_column {s : Scope} {pos : Position} {name : String} {e : Expression}
    (hw : Ascii.IsCapitalWord name) (h : s.column pos name = .ok e) : Compiled s (.ofExpression e) := by
  unfold column at h
  split at h
  · rename_i spelling type hget
    cases h
    obtain ⟨hsame, hget⟩ := NameMap.get?_spelling hget
    exact .column s (Ascii.isName_of_sameName hsame hw.isName)
      (Ascii.toList_ne_nil_of_sameName hsame (Ascii.ne_nil_of_isWord hw.1)) hget
  · cases h

private theorem compiled_related {s : Scope} {pos : Position} {chain : List String} {field : String} {p : Plan}
    (hchain : ∀ n ∈ chain, Ascii.IsCapitalWord n) (hfield : Ascii.IsCapitalWord field)
    (h : s.related pos chain (some field) = .ok p) : Compiled s p := by
  unfold related at h
  split at h
  · cases h
  · rename_i hops hfollow
    have hroute := Hop.route_of_follow (fun n hn => (hchain n hn).isName) hfollow
    dsimp only at h
    split at h
    · rename_i target last htarget hlast
      split at h
      · cases h
      · rename_i spelling type hget
        cases h
        obtain ⟨hsame, hget⟩ := NameMap.get?_spelling hget
        rcases List.eq_nil_or_concat hops with rfl | ⟨init, k, rfl⟩
        · cases htarget
        · rw [List.concat_eq_append] at *
          rw [Hop.joins_append_singleton, List.getLast?_concat, List.nil_append] at hlast
          rw [Hop.target?, List.getLast?_concat] at htarget
          cases hlast
          cases htarget
          exact .related s hroute (Ascii.isName_of_sameName hsame hfield.isName) hget
    · cases h

private theorem isDestination_of_destination {s : Scope} {f : AggregateFunction} {pos : Position} {path : Formula}
    {d : Destination} (hpath : ∀ p segments, path = .path p segments → ∀ n ∈ segments, Ascii.IsCapitalWord n)
    (h : s.destination f pos path = .ok d) : s.context = .main ∧ s.IsDestination d := by
  unfold destination at h
  split at h
  · cases h
  · rename_i hmain
    have hmain : s.context = .main := by
      cases hc : s.context with
      | main => rfl
      | aggregate => rw [hc] at hmain; exact absurd rfl hmain
    split at h
    · rename_i p segments
      split at h
      · cases h
      · split at h
        · cases h
        · rename_i hops hfollow
          split at h
          · rename_i target htarget
            cases h
            exact ⟨hmain, Hop.route_of_follow (fun n hn => (hpath p segments rfl n hn).isName) hfollow, htarget⟩
          · cases h
    · cases h

/-- The signature that a call is checked against is the one of its name in the catalog, and allows its arguments. -/
theorem signature_spec {pos : Position} {name : String} {count : Nat} {sig : Signature}
    (h : signature pos name count = .ok sig) :
    sig ∈ Signature.catalog ∧ Ascii.sameName sig.name name = true ∧ ∀ m ∈ sig.maxArity?, count ≤ m := by
  unfold signature at h
  split at h
  · cases h
  · rename_i sig' hfind
    split at h
    · rename_i harity
      cases h
      refine ⟨List.mem_of_find?_eq_some hfind, List.find?_some (a := sig) hfind, fun m hm => ?_⟩
      obtain ⟨-, hmost⟩ := harity
      rw [hm] at hmost
      exact of_decide_eq_true hmost
    · cases h

private theorem gives_of_compileArguments {s : Scope} {sig : Signature} {args : List Formula}
    (ih : ∀ e ∈ args, ∀ {p : Plan}, s.compile e = .ok p → s.Gives e p) {index : Nat} {plans : List Plan}
    (h : s.compileArguments sig index args = .ok plans) :
    args.length = plans.length ∧ (∀ p ∈ plans, Compiled s p) ∧
      (Formula.areConstant args = true → ∀ p ∈ plans, p.expression.IsConstant) := by
  induction args generalizing index plans with
  | nil =>
    rw [compileArguments] at h
    cases h
    exact ⟨rfl, nofun, fun _ => nofun⟩
  | cons arg args ihArgs =>
    rw [compileArguments] at h
    obtain ⟨p, hp, h⟩ := bind_eq_ok h
    obtain ⟨-, -, h⟩ := bind_eq_ok h
    obtain ⟨more, hmore, h⟩ := bind_eq_ok h
    cases h
    obtain ⟨hcompiled, hconstant⟩ := ih arg List.mem_cons_self hp
    obtain ⟨hlength, hall, hconstants⟩ := ihArgs (fun e he => ih e (List.mem_cons_of_mem _ he)) hmore
    refine ⟨by rw [List.length_cons, List.length_cons, hlength], ?_, ?_⟩
    · intro q hq
      rcases List.mem_cons.1 hq with rfl | hq
      · exact hcompiled
      · exact hall q hq
    · intro hc q hq
      rw [Formula.areConstant, Bool.and_eq_true] at hc
      rcases List.mem_cons.1 hq with rfl | hq
      · exact hconstant hc.1
      · exact hconstants hc.2 q hq

private theorem isConstant_call {s : Scope} {sig : Signature} {type : ValueType} {plans : List Plan}
    (h : ∀ p ∈ plans, p.expression.IsConstant) : (s.call sig type plans).expression.IsConstant := by
  refine Expression.isConstant_of_children ?_ (fun _ _ => nofun) (fun _ _ _ => nofun) fun _ _ => nofun
  intro c hc
  obtain ⟨p, hp, rfl⟩ := List.mem_map.1 hc
  exact h p hp

private theorem gives_of_compileDelimiter {s : Scope} {f : AggregateFunction} {args : List Formula}
    {delimiter : Option Plan} (ih : ∀ e ∈ args, ∀ {p : Plan}, s.compile e = .ok p → s.Gives e p)
    (h : s.compileDelimiter f args = .ok delimiter) :
    ∀ p ∈ delimiter, Compiled s p ∧ p.expression.IsConstant := by
  unfold compileDelimiter at h
  split at h
  · rename_i arg rest
    split at h
    · split at h
      · rename_i hconstant
        obtain ⟨p, hp, h⟩ := bind_eq_ok h
        obtain ⟨hp, hpc⟩ := ih arg List.mem_cons_self hp
        split at h
        · cases h
          rintro _ ⟨⟩
          exact ⟨hp, hpc hconstant⟩
        · cases h
      · cases h
    · cases h
      exact nofun
  · cases h
    exact nofun

private theorem compiled_of_compileAggregate {s : Scope} {f : AggregateFunction} {pos : Position}
    {args : List Formula} {p : Plan}
    (ih : ∀ e ∈ args, ∀ {s : Scope} {p : Plan}, s.compile e = .ok p → s.Gives e p)
    (hpath : ∀ q segments, .path q segments ∈ args → ∀ n ∈ segments, Ascii.IsCapitalWord n)
    (h : s.compileAggregate f pos args = .ok p) : Compiled s p := by
  unfold compileAggregate at h
  split at h
  · rename_i path value more
    obtain ⟨d, hd, h⟩ := bind_eq_ok h
    obtain ⟨inner, hinner, h⟩ := bind_eq_ok h
    obtain ⟨hmain, hdest⟩ := isDestination_of_destination
      (fun q segments e => hpath q segments (e ▸ List.mem_cons_self)) hd
    have hcompiled := (ih value (by simp) hinner).1
    split at h
    · obtain ⟨delimiter, hdelimiter, h⟩ := bind_eq_ok h
      cases h
      have hall := gives_of_compileDelimiter (fun e he => ih e (by simp [he])) hdelimiter
      exact .aggregate hmain hdest hcompiled (fun q hq => (hall q hq).1) (fun q hq => (hall q hq).2)
    · cases h
  · cases h

private theorem gives_of_dateUnit {s : Scope} {unit : Formula} {p : Plan} (h : s.dateUnit unit = .ok p) :
    Compiled s p ∧ p.expression.IsConstant := by
  unfold dateUnit at h
  split at h
  · dsimp only at h
    split at h
    · cases h
      exact ⟨.string s _, stringLiteral_isConstant s _⟩
    · cases h
  · cases h

/-- The difference of dates is a number, whatever its arguments are. -/
private theorem callType_dateDifference {sig : Signature} (hs : sig ∈ Signature.catalog) (hn : sig.name = "DATEDIF")
    (pos : Position) (args : List Formula) (types : List ValueType) : callType sig pos args types = .ok .number := by
  have hreturns : sig.returns = some .number := by
    revert sig
    decide
  unfold callType
  split
  · rename_i h
    rw [hn] at h
    exact absurd h (by decide)
  · rename_i h
    rw [hn] at h
    exact absurd h (by decide)
  · rename_i h
    rw [hn] at h
    exact absurd h (by decide)
  · rw [hreturns]

private theorem gives_of_compileDateDifference {s : Scope} {sig : Signature} {pos : Position} {args : List Formula}
    {p : Plan} (hs : sig ∈ Signature.catalog) (hn : sig.name = "DATEDIF") (hm : ∀ m ∈ sig.maxArity?, args.length ≤ m)
    (ih : ∀ e ∈ args, ∀ {s : Scope} {p : Plan}, s.compile e = .ok p → s.Gives e p)
    (h : s.compileDateDifference sig pos args = .ok p) :
    Compiled s p ∧ (Formula.areConstant args = true → p.expression.IsConstant) := by
  unfold compileDateDifference at h
  split at h
  · rename_i start finish unit
    obtain ⟨q, hq, h⟩ := bind_eq_ok h
    obtain ⟨-, -, h⟩ := bind_eq_ok h
    obtain ⟨r, hr, h⟩ := bind_eq_ok h
    obtain ⟨-, -, h⟩ := bind_eq_ok h
    obtain ⟨u, hu, h⟩ := bind_eq_ok h
    cases h
    obtain ⟨hq, hqc⟩ := ih start (by simp) hq
    obtain ⟨hr, hrc⟩ := ih finish (by simp) hr
    obtain ⟨hu, huc⟩ := gives_of_dateUnit hu
    constructor
    · refine .call hs (by rw [hn]; rfl) ?_ (by rfl) (callType_dateDifference hs hn pos [start, finish, unit] _) hm
      intro x hx
      simp only [List.mem_cons, List.not_mem_nil, or_false] at hx
      rcases hx with rfl | rfl | rfl
      · exact hq
      · exact hr
      · exact hu
    · intro hc
      simp only [Formula.areConstant, Bool.and_eq_true] at hc
      apply isConstant_call
      intro x hx
      simp only [List.mem_cons, List.not_mem_nil, or_false] at hx
      rcases hx with rfl | rfl | rfl
      · exact hqc hc.1
      · exact hrc hc.2.1
      · exact huc
  · cases h

/-- A call gives a plan of the scope if its arguments do. -/
private theorem gives_of_compile_call {s : Scope} {pos : Position} {name : String} {args : List Formula} {p : Plan}
    (ih : ∀ e ∈ args, ∀ {s : Scope} {p : Plan}, s.compile e = .ok p → s.Gives e p)
    (hpath : ∀ q segments, .path q segments ∈ args → ∀ n ∈ segments, Ascii.IsCapitalWord n)
    (h : s.compile (.call pos name args) = .ok p) : s.Gives (.call pos name args) p := by
  rw [compile] at h
  obtain ⟨sig, hsig, h⟩ := bind_eq_ok h
  obtain ⟨hmem, hsame, hmost⟩ := signature_spec hsig
  have hname := AggregateFunction.ofName?_eq_of_sameName hsame
  split at h
  · rename_i f hf
    -- an aggregate is never constant
    refine ⟨compiled_of_compileAggregate ih hpath h, ?_⟩
    intro hc
    rw [Formula.isConstant, ← hname, hf] at hc
    cases hc
  · rename_i hf
    split at h
    · rename_i hdatedif
      obtain ⟨hp, hpc⟩ := gives_of_compileDateDifference hmem hdatedif hmost ih h
      refine ⟨hp, ?_⟩
      intro hc
      rw [Formula.isConstant, Bool.and_eq_true] at hc
      exact hpc hc.2
    · obtain ⟨plans, hplans, h⟩ := bind_eq_ok h
      obtain ⟨type, htype, h⟩ := bind_eq_ok h
      cases h
      obtain ⟨hlength, hall, hconstants⟩ := gives_of_compileArguments (fun e he => ih e he) hplans
      refine ⟨.call hmem hf hall hlength htype (hlength ▸ hmost), ?_⟩
      intro hc
      rw [Formula.isConstant, Bool.and_eq_true] at hc
      exact isConstant_call (hconstants hc.2)

private theorem gives_of_compile {f : Formula} (hf : f.WellFormed) {s : Scope} {p : Plan} (h : s.compile f = .ok p) :
    s.Gives f p := by
  induction hf generalizing s p with
  | number pos rank =>
    rw [compile] at h
    cases h
    exact ⟨.number s rank, fun _ => isConstant_leaf rfl (fun _ _ => nofun) (fun _ _ _ => nofun) fun _ _ => nofun⟩
  | string pos ht =>
    rw [compile] at h
    cases h
    exact ⟨.string s _, fun _ => stringLiteral_isConstant s _⟩
  | boolean pos value =>
    rw [compile] at h
    cases h
    exact ⟨.boolean s value, fun _ => isConstant_leaf rfl (fun _ _ => nofun) (fun _ _ _ => nofun) fun _ _ => nofun⟩
  | null pos =>
    rw [compile] at h
    cases h
    exact ⟨.null s, fun _ => isConstant_leaf rfl (fun _ _ => nofun) (fun _ _ _ => nofun) fun _ _ => nofun⟩
  | date pos hd =>
    rw [compile] at h
    cases h
    exact ⟨.date s hd, fun _ => isConstant_leaf rfl (fun _ _ => nofun) (fun _ _ _ => nofun) fun _ _ => nofun⟩
  | column pos hw hl =>
    rw [compile] at h
    obtain ⟨e, he, h⟩ := bind_eq_ok h
    cases h
    exact ⟨compiled_column hw he, nofun⟩
  | related pos hne hc hfield =>
    rw [compile] at h
    exact ⟨compiled_related (fun n hn => (hc n hn).1) hfield h, nofun⟩
  | negate pos he ih =>
    rw [compile] at h
    obtain ⟨q, hq, h⟩ := bind_eq_ok h
    dsimp only at h
    split at h
    · cases h
      obtain ⟨hq, hqc⟩ := ih hq
      refine ⟨.negate hq, fun hc => Expression.isConstant_of_children ?_ (fun _ _ => nofun) (fun _ _ _ => nofun)
        fun _ _ => nofun⟩
      intro c hmem
      rw [List.mem_singleton.1 hmem]
      exact hqc hc
    · cases h
  | binary pos op hl hr ihl ihr =>
    rw [compile] at h
    obtain ⟨q, hq, h⟩ := bind_eq_ok h
    obtain ⟨r, hr, h⟩ := bind_eq_ok h
    split at h
    · rename_i type htype
      cases h
      obtain ⟨hq, hqc⟩ := ihl hq
      obtain ⟨hr, hrc⟩ := ihr hr
      refine ⟨.binary hq hr htype, fun hc => Expression.isConstant_of_children ?_ (fun _ _ => nofun)
        (fun _ _ _ => nofun) fun _ _ => nofun⟩
      intro c hmem
      rw [Formula.isConstant, Bool.and_eq_true] at hc
      rcases List.mem_cons.1 hmem with rfl | hmem
      · exact hqc hc.1
      · rw [List.mem_singleton.1 hmem]
        exact hrc hc.2
    · cases h
  | call pos hw hd ha ih =>
    refine gives_of_compile_call (fun e he => ih e he) ?_ h
    intro q segments hmem
    cases ha _ hmem
  | aggregate pos pathPos hw hagg hne hs ha ih =>
    refine gives_of_compile_call ?_ ?_ h
    · intro e he s p hp
      rcases List.mem_cons.1 he with rfl | he
      -- a path by itself is not compiled
      · rw [compile] at hp
        cases hp
      · exact ih e he hp
    · intro q segments hmem
      rcases List.mem_cons.1 hmem with heq | hmem
      · cases heq
        exact hs
      · cases ha _ hmem

/-- A formula that comes from a text has a plan of its scope. -/
theorem compiled_of_compile {f : Formula} (hf : f.WellFormed) {s : Scope} {p : Plan} (h : s.compile f = .ok p) :
    Compiled s p :=
  (gives_of_compile hf h).1

end Scope

/-- A text has a plan of the scope of whole formulas. -/
theorem Plan.compiled_of_ofFormula {text : String} {schema : Table} {maxDepth : Nat} {p : Plan}
    (h : Plan.ofFormula text schema maxDepth = .ok p) : Scope.Compiled (schema.scope maxDepth) p := by
  unfold Plan.ofFormula at h
  split at h
  · cases h
  · rename_i f hf
    split at h
    · cases h
    · rename_i q hq
      cases h
      exact Scope.compiled_of_compile (Formula.wellFormed_of_parse hf) hq

end FormulaQuery
