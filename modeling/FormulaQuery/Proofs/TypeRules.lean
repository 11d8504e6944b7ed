import FormulaQuery.Plan.Compile
import FormulaQuery.Proofs.WellFormed
import Mathlib.Data.List.Nodup

/-!
# Typing rules of formulas

The rules by which a formula has a type, apart from any way to find it: `HasType depth main t f T` says that `f` has
the type `T` in the table `t`. Aggregates are allowed where `main` holds, over paths of at most `depth`
relationships. The tables of operators, aggregates and names are written here as relations, and what compiling looks
up agrees with them (`BinaryOperator.types_iff`, `AggregateFunction.folds_iff`, `Signature.find?_eq_some_iff`,
`Signature.admits_iff`, `Signature.parameterAt_iff`, `ParameterType.takes_iff`, `Hop.leads_iff_follow`).
-/

namespace FormulaQuery

/-! ### Types of results -/

namespace ValueType

/-- The type of a value that comes from either of two sides; a bare `null` takes the type of the other side. -/
inductive Merge : ValueType → ValueType → ValueType → Prop
  | same (t : ValueType) : Merge t t t
  | left (t : ValueType) : Merge .null t t
  | right (t : ValueType) : Merge t .null t

theorem merge_iff {s t u : ValueType} : Merge s t u ↔ s.compatible t = true ∧ s.unify t = u := by
  constructor
  · intro h
    cases h with
    | same => cases s <;> decide
    | left => cases t <;> decide
    | right => cases s <;> decide
  · rintro ⟨hc, rfl⟩
    simp only [compatible, Bool.or_eq_true, beq_iff_eq] at hc
    rcases hc with (rfl | rfl) | rfl
    · rw [unify, ite_self]
      exact .same s
    · exact .left t
    · have hs : s.unify null = s := by cases s <;> rfl
      rw [hs]
      exact .right s

end ValueType

namespace BinaryOperator

open ValueType (Merge)

/-- The operands that an operator takes, and the type of its result. -/
inductive Types : BinaryOperator → ValueType → ValueType → ValueType → Prop
  | concat {l r : ValueType} (hl : l = .string ∨ l = .null) (hr : r = .string ∨ r = .null) : Types .concat l r .string
  | arithmetic {op : BinaryOperator} {l r t : ValueType} (ho : op ∈ [add, subtract, multiply, divide])
    (h : Merge l r t) (ht : t = .number ∨ t = .null) : Types op l r t
  /-- A date moved by days. -/
  | moved {op : BinaryOperator} {r : ValueType} (ho : op ∈ [add, subtract]) (hr : r = .number ∨ r = .null) :
    Types op .date r .date
  | movedNull : Types .add .null .date .date
  /-- The days between two dates. -/
  | between : Types .subtract .date .date .number
  | comparison {op : BinaryOperator} {l r t : ValueType} (ho : op.isComparison = true) (h : Merge l r t) :
    Types op l r .boolean

private theorem resultType?_comparison {op : BinaryOperator} (ho : op.isComparison = true) (l r : ValueType) :
    op.resultType? l r = if l.compatible r then some .boolean else none := by
  cases op with
  | equal | notEqual | less | greater | lessEqual | greaterEqual => rfl
  | _ => cases ho

private theorem resultType?_of_types {op : BinaryOperator} {l r t : ValueType} (h : Types op l r t) :
    op.resultType? l r = some t := by
  cases h with
  | concat hl hr => rcases hl with rfl | rfl <;> rcases hr with rfl | rfl <;> rfl
  | arithmetic ho h ht =>
    simp only [List.mem_cons, List.not_mem_nil, or_false] at ho
    rcases ho with rfl | rfl | rfl | rfl <;> rcases ht with rfl | rfl <;> cases h <;> rfl
  | moved ho hr =>
    simp only [List.mem_cons, List.not_mem_nil, or_false] at ho
    rcases ho with rfl | rfl <;> rcases hr with rfl | rfl <;> rfl
  | movedNull => rfl
  | between => rfl
  | comparison ho h => rw [resultType?_comparison ho, if_pos (ValueType.merge_iff.1 h).1]

private theorem types_of_resultType? {op : BinaryOperator} {l r t : ValueType} (h : op.resultType? l r = some t) :
    Types op l r t := by
  have comparison : op.isComparison = true → Types op l r t := by
    intro ho
    rw [resultType?_comparison ho] at h
    split at h
    · rename_i hc
      cases h
      exact .comparison ho (ValueType.merge_iff.2 ⟨hc, rfl⟩)
    · cases h
  cases op with
  | concat =>
    dsimp only [resultType?] at h
    split at h
    all_goals cases h
    all_goals exact .concat (by decide) (by decide)
  | add =>
    dsimp only [resultType?] at h
    split at h
    all_goals cases h
    · exact .arithmetic (by decide) (.same _) (by decide)
    · exact .arithmetic (by decide) (.same _) (by decide)
    · exact .arithmetic (by decide) (.right _) (by decide)
    · exact .arithmetic (by decide) (.left _) (by decide)
    · exact .moved (by decide) (by decide)
    · exact .moved (by decide) (by decide)
    · exact .movedNull
  | subtract =>
    dsimp only [resultType?] at h
    split at h
    all_goals cases h
    · exact .arithmetic (by decide) (.same _) (by decide)
    · exact .arithmetic (by decide) (.same _) (by decide)
    · exact .arithmetic (by decide) (.right _) (by decide)
    · exact .arithmetic (by decide) (.left _) (by decide)
    · exact .moved (by decide) (by decide)
    · exact .moved (by decide) (by decide)
    · exact .between
  | multiply | divide =>
    dsimp only [resultType?] at h
    split at h
    all_goals cases h
    · exact .arithmetic (by decide) (.same _) (by decide)
    · exact .arithmetic (by decide) (.same _) (by decide)
    · exact .arithmetic (by decide) (.right _) (by decide)
    · exact .arithmetic (by decide) (.left _) (by decide)
  | equal | notEqual | less | greater | lessEqual | greaterEqual => exact comparison rfl

/-- An operator gives a result for the operands that it takes. -/
theorem types_iff {op : BinaryOperator} {l r t : ValueType} : Types op l r t ↔ op.resultType? l r = some t :=
  ⟨resultType?_of_types, types_of_resultType?⟩

end BinaryOperator

namespace AggregateFunction

private theorem lower_upper (s : String) : Ascii.lower (Ascii.upper s) = Ascii.lower s := by
  have hchar : ∀ c : Char, c.toUpper.toLower = c.toLower := by
    intro c
    rw [← Char.toNat_inj, Ascii.toNat_toLower, Ascii.toNat_toUpper, Ascii.toNat_toLower]
    by_cases h : 97 ≤ c.toNat ∧ c.toNat ≤ 122
    · rw [if_pos h, if_pos (by omega), if_neg (by omega)]
      omega
    · rw [if_neg h]
  rw [Ascii.lower, Ascii.lower, Ascii.upper, String.toList_ofList, List.map_map]
  congr 2
  funext c
  exact hchar c

/-- A name leads to the aggregate that has it. -/
theorem ofName?_eq_some_iff {name : String} {f : AggregateFunction} :
    ofName? name = some f ↔ Ascii.sameName f.name name = true := by
  constructor
  · intro h
    have hname : f.name = Ascii.upper name := beq_iff_eq.1 (List.find?_some (a := f) h)
    rw [Ascii.sameName_iff, hname, lower_upper]
  · intro h
    rw [← ofName?_eq_of_sameName h]
    cases f <;> rfl

/-- The values that an aggregate folds, and the type of its result. -/
inductive Folds : AggregateFunction → ValueType → ValueType → Prop
  | texts {f : AggregateFunction} {v : ValueType} (hf : f.takesDelimiter = true) (hv : v = .string ∨ v = .null) :
    Folds f v .string
  | numbers {f : AggregateFunction} {v : ValueType} (hf : f ∈ [sum, avg]) (hv : v = .number ∨ v = .null) :
    Folds f v .number
  | conditions {f : AggregateFunction} {v : ValueType} (hf : f ∈ [and, or]) (hv : v = .boolean ∨ v = .null) :
    Folds f v .boolean
  | count (v : ValueType) : Folds .count v .number
  | extreme {f : AggregateFunction} {v : ValueType} (hf : f ∈ [min, max]) (hv : v ≠ .boolean) : Folds f v v

private theorem compatible_iff {v t : ValueType} (ht : t ≠ .null) :
    v.compatible t = true ↔ v = t ∨ v = .null := by
  simp only [ValueType.compatible, Bool.or_eq_true, beq_iff_eq, ht, or_false]

theorem folds_iff {f : AggregateFunction} {v t : ValueType} :
    Folds f v t ↔ f.acceptsInput v = true ∧ f.resultType v = t := by
  constructor
  · intro h
    cases h with
    | texts hf hv =>
      cases f with
      | stringAgg | stringAggDistinct => exact ⟨(compatible_iff (by decide)).2 hv, rfl⟩
      | _ => cases hf
    | numbers hf hv =>
      simp only [List.mem_cons, List.not_mem_nil, or_false] at hf
      rcases hf with rfl | rfl <;> exact ⟨(compatible_iff (by decide)).2 hv, rfl⟩
    | conditions hf hv =>
      simp only [List.mem_cons, List.not_mem_nil, or_false] at hf
      rcases hf with rfl | rfl <;> exact ⟨(compatible_iff (by decide)).2 hv, rfl⟩
    | count => exact ⟨rfl, rfl⟩
    | extreme hf hv =>
      simp only [List.mem_cons, List.not_mem_nil, or_false] at hf
      rcases hf with rfl | rfl <;> exact ⟨bne_iff_ne.2 hv, rfl⟩
  · rintro ⟨ha, rfl⟩
    cases f with
    | stringAgg | stringAggDistinct => exact .texts rfl ((compatible_iff (by decide)).1 ha)
    | sum | avg => exact .numbers (by decide) ((compatible_iff (by decide)).1 ha)
    | and | or => exact .conditions (by decide) ((compatible_iff (by decide)).1 ha)
    | count => exact .count v
    | min | max => exact .extreme (by decide) (bne_iff_ne.1 ha)

end AggregateFunction

/-! ### Calls of functions -/

/-- The arguments that a parameter takes; a `null` does for every value, and a path of relationships is no value. -/
inductive ParameterType.Takes : ParameterType → ValueType → Prop
  | any (t : ValueType) : Takes .any t
  | number {t : ValueType} (h : t = .number ∨ t = .null) : Takes .number t
  | string {t : ValueType} (h : t = .string ∨ t = .null) : Takes .string t
  | boolean {t : ValueType} (h : t = .boolean ∨ t = .null) : Takes .boolean t
  | date {t : ValueType} (h : t = .date ∨ t = .null) : Takes .date t

theorem ParameterType.takes_iff {p : ParameterType} {t : ValueType} : p.Takes t ↔ p.accepts t = true := by
  constructor
  · intro h
    cases h with
    | any => rfl
    | number h | string h | boolean h | date h => rcases h with rfl | rfl <;> rfl
  · intro h
    cases p with
    | any => exact .any t
    | relationship => cases h
    | number => exact .number (by revert h; cases t <;> decide)
    | string => exact .string (by revert h; cases t <;> decide)
    | boolean => exact .boolean (by revert h; cases t <;> decide)
    | date => exact .date (by revert h; cases t <;> decide)

namespace Signature

/-- A function can be called with `count` arguments: with as many as it is said to need, or else with one for each
parameter that is not optional, and with no more than parameters unless one of these stands for many. -/
structure Admits (sig : Signature) (count : Nat) : Prop where
  told : ∀ n, sig.least = some n → n ≤ count
  required : sig.least = none → (sig.parameters.filter fun p => p.optional = false).length ≤ count
  most : (∀ p ∈ sig.parameters, p.variadic = false) → count ≤ sig.parameters.length

theorem admits_iff {sig : Signature} {count : Nat} :
    sig.Admits count ↔ sig.minArity ≤ count ∧ ∀ m ∈ sig.maxArity?, count ≤ m := by
  have hleast : sig.minArity ≤ count ↔ (∀ n, sig.least = some n → n ≤ count) ∧
      (sig.least = none → (sig.parameters.filter fun p => p.optional = false).length ≤ count) := by
    have hcount : (sig.parameters.countP fun p => !p.optional) =
        (sig.parameters.filter fun p => p.optional = false).length := by
      rw [List.countP_eq_length_filter]
      congr 2
      funext p
      cases p.optional <;> rfl
    rw [minArity, hcount]
    cases sig.least <;> simp
  have hmost : (∀ m ∈ sig.maxArity?, count ≤ m) ↔
      ((∀ p ∈ sig.parameters, p.variadic = false) → count ≤ sig.parameters.length) := by
    unfold maxArity?
    by_cases h : sig.parameters.any (·.variadic) = true
    · obtain ⟨p, hp, hvariadic⟩ := List.any_eq_true.1 h
      rw [if_pos h]
      exact ⟨fun _ hall => absurd (hall p hp) (by rw [hvariadic]; decide), fun _ => nofun⟩
    · have hall : ∀ p ∈ sig.parameters, p.variadic = false := by simpa using h
      rw [if_neg h]
      exact ⟨fun hm _ => hm _ rfl, by rintro hlength m ⟨⟩; exact hlength hall⟩
  rw [hleast, hmost, and_assoc]
  exact ⟨fun h => ⟨h.told, h.required, h.most⟩, fun h => ⟨h.1, h.2.1, h.2.2⟩⟩

/-- The parameter of the argument at an index: the one that stands there, or behind all of them the last one, if it
stands for many. -/
inductive ParameterAt (sig : Signature) : Nat → Parameter → Prop
  | own {index : Nat} {p : Parameter} (h : sig.parameters[index]? = some p) : ParameterAt sig index p
  | repeated {index : Nat} {before : List Parameter} {p : Parameter} (h : sig.parameters = before ++ [p])
    (hv : p.variadic = true) (hindex : sig.parameters.length ≤ index) : ParameterAt sig index p

theorem parameterAt_iff {sig : Signature} {index : Nat} {p : Parameter} :
    sig.ParameterAt index p ↔ sig.parameter? index = some p := by
  unfold parameter?
  constructor
  · intro h
    cases h with
    | own h => rw [h]
    | repeated h hv hindex =>
      rw [List.getElem?_eq_none hindex, h, List.getLast?_concat]
      exact Option.filter_eq_some_iff.2 ⟨rfl, hv⟩
  · intro h
    split at h
    · rename_i hown
      cases h
      exact .own hown
    · rename_i hnone
      obtain ⟨hlast, hv⟩ := Option.filter_eq_some_iff.1 h
      obtain ⟨before, hsplit⟩ := List.getLast?_eq_some_iff.1 hlast
      exact .repeated hsplit hv (List.getElem?_eq_none_iff.1 hnone)

/-- The arguments from `index` on are such as their parameters take. -/
def AcceptsFrom (sig : Signature) (index : Nat) (types : List ValueType) : Prop :=
  ∀ i p t, sig.ParameterAt (index + i) p → types[i]? = some t → p.type.Takes t

/-- The type of a call with arguments of the given types. -/
inductive Yields (sig : Signature) : List ValueType → ValueType → Prop
  | fixed {types : List ValueType} {t : ValueType} (h : sig.returns = some t) : Yields sig types t
  | branch {condition t : ValueType} (hn : sig.name = "IF") : Yields sig [condition, t] t
  | branches {condition first second t : ValueType} (hn : sig.name = "IF") (h : first.Merge second t) :
    Yields sig [condition, first, second] t
  | replaced {value default t : ValueType} (hn : sig.name = "NULLVALUE") (h : value.Merge default t) :
    Yields sig [value, default] t

theorem acceptsFrom_nil (sig : Signature) (index : Nat) : sig.AcceptsFrom index [] := by
  intro i p t _ h
  cases h

theorem acceptsFrom_cons {sig : Signature} {index : Nat} {t : ValueType} {types : List ValueType} :
    sig.AcceptsFrom index (t :: types) ↔
      (∀ p, sig.ParameterAt index p → p.type.Takes t) ∧ sig.AcceptsFrom (index + 1) types := by
  constructor
  · intro h
    refine ⟨fun p hp => h 0 p t hp rfl, fun i p u hp hu => h (i + 1) p u ?_ hu⟩
    rwa [Nat.add_comm i 1, ← Nat.add_assoc]
  · rintro ⟨hfirst, hrest⟩ i p u hp hu
    cases i with
    | zero =>
      cases hu
      exact hfirst p hp
    | succ i =>
      rw [Nat.add_comm i 1, ← Nat.add_assoc] at hp
      exact hrest i p u hp hu

/-! ### The catalog -/

/-- A name leads to the one function that has it. -/
theorem find?_eq_some_iff {name : String} {sig : Signature} :
    find? name = some sig ↔ sig ∈ catalog ∧ Ascii.sameName sig.name name = true := by
  have hnodup : (catalog.map fun sig => Ascii.lower sig.name).Nodup := by decide +kernel
  constructor
  · intro h
    exact ⟨List.mem_of_find?_eq_some h, List.find?_some (a := sig) h⟩
  · rintro ⟨hmem, hsame⟩
    cases hfind : find? name with
    | none => exact absurd hsame (List.find?_eq_none.1 hfind sig hmem)
    | some other =>
      have hother : Ascii.sameName other.name name = true := List.find?_some (a := other) hfind
      have heq : Ascii.lower other.name = Ascii.lower sig.name :=
        (Ascii.sameName_iff.1 hother).trans (Ascii.sameName_iff.1 hsame).symm
      rw [List.inj_on_of_nodup_map hnodup (List.mem_of_find?_eq_some hfind) hmem heq]

/-- Functions of the category of aggregates are the aggregates. -/
theorem ofName?_eq_none_iff {sig : Signature} (h : sig ∈ catalog) :
    AggregateFunction.ofName? sig.name = none ↔ sig.category ≠ .aggregate := by
  revert sig
  decide +kernel

theorem exists_aggregate (f : AggregateFunction) : ∃ sig ∈ catalog, sig.name = f.name := by
  cases f <;> decide +kernel

/-- An aggregate takes a path, a value, and perhaps a delimiter. -/
theorem admits_aggregate_iff {sig : Signature} (h : sig ∈ catalog) {f : AggregateFunction}
    (hf : AggregateFunction.ofName? sig.name = some f) {count : Nat} :
    sig.Admits count ↔ count = (if f.takesDelimiter then 1 else 0) + 2 := by
  have hall : ∀ sig ∈ catalog, ∀ f ∈ AggregateFunction.ofName? sig.name,
      sig.minArity = (if f.takesDelimiter then 1 else 0) + 2 ∧ sig.maxArity? = some sig.minArity := by decide +kernel
  obtain ⟨hleast, hmost⟩ := hall sig h f hf
  rw [admits_iff, ← hleast]
  constructor
  · rintro ⟨h₁, h₂⟩
    have := h₂ _ hmost
    omega
  · rintro rfl
    refine ⟨Nat.le_refl _, fun m hm => ?_⟩
    rw [hmost] at hm
    cases hm
    exact Nat.le_refl _

/-- The functions whose results depend on their arguments. -/
theorem returns_eq_none_iff {sig : Signature} (h : sig ∈ catalog) (hc : sig.category ≠ .aggregate) :
    sig.returns = none ↔ sig.name = "IF" ∨ sig.name = "NULLVALUE" := by
  revert sig
  decide +kernel

/-- How many arguments the functions take that have rules of their own. -/
theorem Admits.count_eq {sig : Signature} {count : Nat} (ha : sig.Admits count) (h : sig ∈ catalog) :
    (sig.name = "IF" → count = 2 ∨ count = 3) ∧ (sig.name = "NULLVALUE" → count = 2) ∧
      (sig.name = "DATEDIF" → count = 3) := by
  have hall : ∀ sig ∈ catalog, (sig.name = "IF" → sig.minArity = 2 ∧ sig.maxArity? = some 3) ∧
      (sig.name = "NULLVALUE" → sig.minArity = 2 ∧ sig.maxArity? = some 2) ∧
      (sig.name = "DATEDIF" → sig.minArity = 3 ∧ sig.maxArity? = some 3) := by decide +kernel
  obtain ⟨hleast, hmost⟩ := admits_iff.1 ha
  refine ⟨fun hn => ?_, fun hn => ?_, fun hn => ?_⟩
  · obtain ⟨hmin, hmax⟩ := (hall sig h).1 hn
    have := hmost 3 hmax
    omega
  · obtain ⟨hmin, hmax⟩ := (hall sig h).2.1 hn
    have := hmost 2 hmax
    omega
  · obtain ⟨hmin, hmax⟩ := (hall sig h).2.2 hn
    have := hmost 3 hmax
    omega

/-- The unit of a difference of dates is text, and the difference a number. -/
theorem dateDifference {sig : Signature} (h : sig ∈ catalog) (hn : sig.name = "DATEDIF") :
    sig.category = .date ∧ sig.returns = some .number ∧ sig.parameter? 2 = some (.one "unit" .string) := by
  revert sig
  decide +kernel

end Signature

/-! ### Parts of formulas -/

namespace Formula

def children : Formula → List Formula
  | negate _ e => [e]
  | binary _ _ l r => [l, r]
  | call _ _ args => args
  | _ => []

/-- A formula that occurs in another one, or is it. -/
inductive Within : Formula → Formula → Prop
  | refl (f : Formula) : Within f f
  | child {f c whole : Formula} (hc : c ∈ whole.children) (h : Within f c) : Within f whole

/-- A formula that reads a row by itself. -/
inductive Reads : Formula → Prop
  | column (pos : Position) (name : String) : Reads (.column pos name)
  | related (pos : Position) (chain : List String) (field : Option String) : Reads (.related pos chain field)
  | path (pos : Position) (segments : List String) : Reads (.path pos segments)
  | aggregate (pos : Position) {f : AggregateFunction} {name : String} (h : Ascii.sameName f.name name = true)
    (args : List Formula) : Reads (.call pos name args)

/-- A formula no part of which reads a row. -/
def IsConstant (f : Formula) : Prop := ∀ g, Within g f → ¬Reads g

/-- What holds of a formula once it holds of its parts holds of all. -/
theorem children_induction {P : Formula → Prop} (step : ∀ f, (∀ c ∈ f.children, P c) → P f) (f : Formula) : P f := by
  have bounded : ∀ (n : Nat) (f : Formula), sizeOf f < n → P f := by
    intro n
    induction n with
    | zero => exact fun f h => absurd h (Nat.not_lt_zero _)
    | succ n ih =>
      intro f h
      refine step f fun c hc => ih c (Nat.lt_of_lt_of_le ?_ (Nat.le_of_lt_succ h))
      cases f with
      | negate pos operand =>
        rw [List.mem_singleton.1 hc, negate.sizeOf_spec]
        omega
      | binary pos op left right =>
        rw [binary.sizeOf_spec]
        rcases List.mem_cons.1 hc with rfl | hc
        · omega
        · rw [List.mem_singleton.1 hc]
          omega
      | call pos name args =>
        have := List.sizeOf_lt_of_mem (show c ∈ args from hc)
        rw [call.sizeOf_spec]
        omega
      | _ => cases hc
  exact bounded (sizeOf f + 1) f (Nat.lt_succ_self _)

theorem isConstant_iff_children {f : Formula} :
    f.IsConstant ↔ ¬f.Reads ∧ ∀ c ∈ f.children, c.IsConstant := by
  constructor
  · intro h
    exact ⟨h f (.refl f), fun c hc g hg => h g (.child hc hg)⟩
  · rintro ⟨hf, hc⟩ g hg
    cases hg with
    | refl => exact hf
    | child hmem hg => exact hc _ hmem g hg

theorem areConstant_iff {fs : List Formula} : areConstant fs = true ↔ ∀ f ∈ fs, f.isConstant = true := by
  induction fs with
  | nil => simp [areConstant]
  | cons f fs ih => rw [areConstant, Bool.and_eq_true, ih, List.forall_mem_cons]

private theorem isConstant_eq_true_iff_children (f : Formula) :
    f.isConstant = true ↔ ¬f.Reads ∧ ∀ c ∈ f.children, c.isConstant = true := by
  cases f with
  | number | string | boolean | null | date => exact ⟨fun _ => ⟨nofun, nofun⟩, fun _ => rfl⟩
  | column pos name => exact ⟨nofun, fun h => absurd (.column pos name) h.1⟩
  | related pos chain field => exact ⟨nofun, fun h => absurd (.related pos chain field) h.1⟩
  | path pos segments => exact ⟨nofun, fun h => absurd (.path pos segments) h.1⟩
  | negate pos e =>
    rw [isConstant, children, List.forall_mem_singleton]
    exact (and_iff_right nofun).symm
  | binary pos op l r =>
    rw [isConstant, Bool.and_eq_true, children, List.forall_mem_cons, List.forall_mem_singleton]
    exact (and_iff_right nofun).symm
  | call pos name args =>
    rw [isConstant, Bool.and_eq_true, areConstant_iff, Option.isNone_iff_eq_none]
    refine and_congr_left fun _ => ⟨?_, ?_⟩
    · rintro h ⟨⟩
      rename_i f hf
      rw [AggregateFunction.ofName?_eq_some_iff.2 hf] at h
      cases h
    · intro h
      cases hf : AggregateFunction.ofName? name with
      | none => rfl
      | some f => exact absurd (.aggregate pos (AggregateFunction.ofName?_eq_some_iff.1 hf) args) h

/-- The test for constants is exact. -/
theorem isConstant_iff (f : Formula) : f.isConstant = true ↔ f.IsConstant := by
  induction f using children_induction with
  | step f ih =>
    rw [isConstant_eq_true_iff_children, isConstant_iff_children]
    exact and_congr_right fun _ => forall₂_congr ih

end Formula

/-! ### Relationships -/

/-- Relationships of one kind, followed by their names, lead from a table to another one. -/
inductive Leads (kind : Table → NameMap (Link Table)) : Table → List String → Table → Prop
  | nil (t : Table) : Leads kind t [] t
  | cons {t target : Table} {name spelling : String} {link : Link Table} {names : List String}
    (h : Link.find? (kind t) name = some (spelling, link)) (hrest : Leads kind link.target names target) :
    Leads kind t (name :: names) target

namespace Hop

variable {kind : Table → NameMap (Link Table)} {t target : Table} {names : List String}

private theorem target?_cons_getD (h : Hop) (hops : List Hop) (t : Table) :
    (target? (h :: hops)).getD t = (target? hops).getD h.link.target := by
  cases hops with
  | nil => rfl
  | cons k hops =>
    rw [target?, target?, List.getLast?_cons_cons, List.getLast?_eq_some_getLast (List.cons_ne_nil k hops)]
    rfl

private theorem follow_cons {name : String} {hops : List Hop} :
    follow kind t (name :: names) = .ok hops ↔ ∃ spelling link more,
      Link.find? (kind t) name = some (spelling, link) ∧
      follow kind link.target names = .ok more ∧ hops = ⟨t.name, spelling, link⟩ :: more := by
  rw [follow]
  split
  · rename_i hfind
    simp [hfind]
  · rename_i spelling link hfind
    rw [hfind]
    constructor
    · intro h
      obtain ⟨more, hmore, h⟩ := bind_eq_ok h
      cases h
      exact ⟨spelling, link, more, rfl, hmore, rfl⟩
    · rintro ⟨_, _, more, ⟨⟩, hmore, rfl⟩
      exact bind_of_eq_ok hmore rfl

private theorem leads_iff_getD : Leads kind t names target ↔
    ∃ hops, follow kind t names = .ok hops ∧ (target? hops).getD t = target := by
  induction names generalizing t with
  | nil =>
    constructor
    · rintro ⟨⟩
      exact ⟨[], rfl, rfl⟩
    · rintro ⟨_, ⟨⟩, rfl⟩
      exact .nil t
  | cons name names ih =>
    constructor
    · rintro ⟨⟩
      rename_i spelling link hfind hrest
      obtain ⟨hops, hops_eq, htarget⟩ := ih.1 hrest
      exact ⟨_, follow_cons.2 ⟨spelling, link, hops, hfind, hops_eq, rfl⟩, by rw [target?_cons_getD, htarget]⟩
    · rintro ⟨_, hfollow, htarget⟩
      obtain ⟨spelling, link, more, hfind, hmore, rfl⟩ := follow_cons.1 hfollow
      rw [target?_cons_getD] at htarget
      exact .cons hfind (ih.2 ⟨more, hmore, htarget⟩)

/-- Following one or more relationships by their names succeeds if they lead somewhere, and ends there. -/
theorem leads_iff_follow : names ≠ [] ∧ Leads kind t names target ↔
    ∃ hops, follow kind t names = .ok hops ∧ target? hops = some target := by
  constructor
  · rintro ⟨hne, h⟩
    obtain ⟨hops, hfollow, htarget⟩ := leads_iff_getD.1 h
    obtain ⟨name, names, rfl⟩ := List.exists_cons_of_ne_nil hne
    obtain ⟨spelling, link, more, -, -, rfl⟩ := follow_cons.1 hfollow
    refine ⟨_, hfollow, ?_⟩
    rw [target?, List.getLast?_eq_some_getLast (List.cons_ne_nil _ more)] at htarget ⊢
    exact congrArg some htarget
  · rintro ⟨hops, hfollow, htarget⟩
    refine ⟨?_, leads_iff_getD.2 ⟨hops, hfollow, by rw [htarget]; rfl⟩⟩
    rintro rfl
    cases hfollow
    cases htarget

end Hop

/-! ### The rules -/

/-- The types of formulas in a table; only in the main context may they have aggregates. -/
inductive HasType (depth : Nat) : (main : Bool) → Table → Formula → ValueType → Prop
  | number (main t pos value) : HasType depth main t (.number pos value) .number
  | string (main t pos text) : HasType depth main t (.string pos text) .string
  | boolean (main t pos value) : HasType depth main t (.boolean pos value) .boolean
  | null (main t pos) : HasType depth main t (.null pos) .null
  | date (main t pos text) : HasType depth main t (.date pos text) .date
  | column {main : Bool} {t : Table} (pos : Position) {name spelling : String} {type : ValueType}
    (h : t.columns.get? name = some (spelling, type)) : HasType depth main t (.column pos name) type
  | related {main : Bool} {t target : Table} (pos : Position) {chain : List String} {field spelling : String}
    {type : ValueType} (hne : chain ≠ []) (hc : Leads Table.direct t chain target)
    (h : target.columns.get? field = some (spelling, type)) :
    HasType depth main t (.related pos chain (some field)) type
  | negate {main : Bool} {t : Table} (pos : Position) {e : Formula} {type : ValueType}
    (he : HasType depth main t e type) (h : type = .number ∨ type = .null) :
    HasType depth main t (.negate pos e) .number
  | binary {main : Bool} {t : Table} (pos : Position) {op : BinaryOperator} {l r : Formula}
    {left right type : ValueType} (hl : HasType depth main t l left) (hr : HasType depth main t r right)
    (h : op.Types left right type) : HasType depth main t (.binary pos op l r) type
  /-- A function of the catalog; a difference of dates has its unit written out. -/
  | call {main : Bool} {t : Table} (pos : Position) {name : String} {sig : Signature} {args : List Formula}
    {types : List ValueType} {type : ValueType} (hs : sig ∈ Signature.catalog)
    (hn : Ascii.sameName sig.name name = true) (hc : sig.category ≠ .aggregate) (ha : sig.Admits args.length)
    (hl : args.length = types.length) (hargs : ∀ p ∈ args.zip types, HasType depth main t p.1 p.2)
    (htypes : sig.AcceptsFrom 0 types)
    (hunit : sig.name = "DATEDIF" → ∃ pos text, args[2]? = some (.string pos text) ∧ Ascii.lower text ∈ dateUnits)
    (h : sig.Yields types type) : HasType depth main t (.call pos name args) type
  /-- An aggregate over a path, whose value belongs to the table at the end; its delimiter is constant text. -/
  | aggregate {t target : Table} (pos pathPos : Position) {name : String} {f : AggregateFunction}
    {segments : List String} {value : Formula} {more : List Formula} {input type : ValueType}
    (hn : Ascii.sameName f.name name = true) (hleast : 1 ≤ segments.length) (hmost : segments.length ≤ depth)
    (hp : Leads Table.inverse t segments target) (hv : HasType depth false target value input)
    (h : f.Folds input type) (hcount : more.length = if f.takesDelimiter then 1 else 0)
    (hconstant : ∀ d ∈ more, d.IsConstant) (hmore : ∀ d ∈ more, HasType depth true t d .string) :
    HasType depth true t (.call pos name (.path pathPos segments :: value :: more)) type

end FormulaQuery
