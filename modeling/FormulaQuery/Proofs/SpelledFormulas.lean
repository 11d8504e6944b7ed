import FormulaQuery.Proofs.Rendering

/-!
# The formulas that texts spell

Apart from the places of their nodes, these are the well formed formulas: parsing gives no others, and each of them
has a text. So compiling a text never meets the faults that only other formulas have, such as a path outside of an
aggregate (`Scope.spelled_compile`). Both facts together are `Formula.exists_parse_iff_wellFormed`.
-/

namespace FormulaQuery

/-! ### Words in capitals -/

namespace Ascii

/-- The first characters of words in capitals. -/
def IsCapitalStart (c : Char) : Prop := ('A' ≤ c ∧ c ≤ 'Z') ∨ c = '_'

private theorem isCapitalStart_iff (c : Char) :
    IsCapitalStart c ↔ (65 ≤ c.toNat ∧ c.toNat ≤ 90) ∨ c.toNat = 95 := by
  simp only [IsCapitalStart, Char.le_def, UInt32.le_iff_toNat_le, ← Char.toNat_inj]
  rfl

private theorem upper_eq_self_iff {s : String} : upper s = s ↔ ∀ c ∈ s.toList, ¬ (97 ≤ c.toNat ∧ c.toNat ≤ 122) := by
  have hself : ∀ c : Char, c.toUpper = c ↔ ¬ (97 ≤ c.toNat ∧ c.toNat ≤ 122) := by
    intro c
    rw [← Char.toNat_inj, toNat_toUpper]
    split <;> omega
  have hmap : s.toList.map Char.toUpper = s.toList.map id ↔ ∀ c ∈ s.toList, c.toUpper = id c := List.map_inj_left
  rw [← String.toList_inj, upper, String.toList_ofList]
  simpa [hself] using hmap

/-- Words in capitals, seen from their characters. -/
theorem isCapitalWord_iff {name : String} :
    IsCapitalWord name ↔ ∃ c cs, name.toList = c :: cs ∧ IsCapitalStart c ∧
      ∀ d ∈ cs, IsCapitalStart d ∨ ('0' ≤ d ∧ d ≤ '9') := by
  have hdigit : ∀ d : Char, ('0' ≤ d ∧ d ≤ '9') ↔ 48 ≤ d.toNat ∧ d.toNat ≤ 57 := by
    intro d
    simp only [Char.le_def, UInt32.le_iff_toNat_le]
    rfl
  rw [IsCapitalWord, upper_eq_self_iff]
  simp only [isCapitalStart_iff, hdigit]
  cases name.toList with
  | nil => simp [isWord]
  | cons c cs =>
    simp only [isWord, Bool.and_eq_true, List.all_eq_true, isWordStart_iff, isWordPart_iff, List.forall_mem_cons]
    constructor
    · rintro ⟨⟨hc, hcs⟩, hsmall, hsmalls⟩
      refine ⟨c, cs, rfl, by omega, ?_⟩
      intro d hd
      have hpart := hcs d hd
      have hcapital := hsmalls d hd
      omega
    · rintro ⟨c', cs', heq, hc, hcs⟩
      cases heq
      refine ⟨⟨by omega, ?_⟩, by omega, ?_⟩
      · intro d hd
        have hpart := hcs d hd
        omega
      · intro d hd
        have hpart := hcs d hd
        omega

end Ascii

/-! ### Places -/

namespace Formula

/-- Whether a formula is well formed does not depend on places. -/
theorem WellFormed.of_unplaced_eq {f e : Formula} (h : f.WellFormed) (he : e.unplaced = f.unplaced) :
    e.WellFormed := by
  -- arguments that are well formed wherever they stand
  have hmap : ∀ {args args' : List Formula},
      (∀ a ∈ args, ∀ {a' : Formula}, a'.unplaced = a.unplaced → a'.WellFormed) →
      args'.map unplaced = args.map unplaced → ∀ a' ∈ args', a'.WellFormed := by
    intro args args' ih hargs a' ha'
    have hmem : a'.unplaced ∈ args.map unplaced := hargs ▸ List.mem_map_of_mem ha'
    obtain ⟨a, ha, heq⟩ := List.mem_map.1 hmem
    exact ih a ha heq.symm
  induction h generalizing e with
  | number pos rank =>
    cases e <;> simp [unplaced] at he
    subst he
    exact .number _ rank
  | string pos htext =>
    cases e <;> simp [unplaced] at he
    subst he
    exact .string _ htext
  | boolean pos value =>
    cases e <;> simp [unplaced] at he
    exact .boolean _ _
  | null pos =>
    cases e <;> simp [unplaced] at he
    exact .null _
  | date pos hdate =>
    cases e <;> simp [unplaced] at he
    subst he
    exact .date _ hdate
  | column pos hname hliteral =>
    cases e <;> simp [unplaced] at he
    subst he
    exact .column _ hname hliteral
  | related pos hne hchain hfield =>
    cases e <;> simp [unplaced] at he
    obtain ⟨rfl, rfl⟩ := he
    exact .related _ hne hchain hfield
  | negate pos _ ih =>
    cases e <;> simp [unplaced] at he
    exact .negate _ (ih he)
  | binary pos op _ _ ihl ihr =>
    cases e <;> simp [unplaced] at he
    exact .binary _ _ (ihl he.2.1) (ihr he.2.2)
  | @call pos name args hname hdate hargs ih =>
    cases e <;> simp only [unplaced, call.injEq, reduceCtorEq, true_and] at he
    obtain ⟨rfl, he⟩ := he
    refine .call _ hname ?_ (hmap ih he)
    rintro rfl p text rfl
    obtain ⟨arg, rfl, harg⟩ := List.map_eq_singleton_iff.1 he.symm
    rw [unplaced] at harg
    obtain ⟨p', rfl⟩ := exists_of_unplaced_eq_string harg
    exact hdate rfl p' text rfl
  | @aggregate pos pathPos name names args hname hf hne hnames hargs ih =>
    cases e <;> simp only [unplaced, call.injEq, reduceCtorEq, true_and] at he
    obtain ⟨rfl, he⟩ := he
    obtain ⟨first, more, rfl, hfirst, hmore⟩ := List.map_eq_cons_iff.1 he
    cases first <;> simp [unplaced] at hfirst
    subst hfirst
    exact .aggregate _ _ hname hf hne hnames (hmap ih hmore)

end Formula

/-! ### Faults -/

/-- Faults of formulas that no text spells: a path outside of an aggregate, a reference without relationships or
without a field, and an aggregate over no relationship. -/
inductive SemanticError.Cause.IsUnspelled : SemanticError.Cause → Prop
  | misplacedPath (segments : List String) : IsUnspelled (.type (.misplacedPath segments))
  | emptyChain : IsUnspelled (.type .emptyChain)
  | emptyField (relationship table : String) (available : List String) :
    IsUnspelled (.unknownField "" relationship table available)
  | emptyPath (f : AggregateFunction) : IsUnspelled (.type (.emptyPath f))

/-- The result is there or has a fault that formulas of texts can have. -/
def Spelled {α : Type} (r : Except SemanticError α) : Prop := ∀ e, r = .error e → ¬ e.cause.IsUnspelled

section Spelled

variable {α β : Type}

private theorem spelled_ok (a : α) : Spelled (.ok a) := by
  intro e h
  cases h

private theorem spelled_error {e : SemanticError} (he : ¬ e.cause.IsUnspelled) :
    Spelled (.error e : Except SemanticError α) := by
  intro e' h
  cases h
  exact he

private theorem Spelled.bind {x : Except SemanticError α} {f : α → Except SemanticError β} (hx : Spelled x)
    (hf : ∀ a, x = .ok a → Spelled (f a)) : Spelled (x >>= f) := by
  intro e h
  rcases bind_eq_error h with h | ⟨a, ha, h⟩
  · exact hx e h
  · exact hf a ha e h

end Spelled

namespace Scope

variable {s : Scope}

/-- Following relationships by some names takes some hops. -/
private theorem ne_nil_of_follow {kind : Table → NameMap (Link Table)} {t : Table} {names : List String}
    {hops : List Hop} (h : Hop.follow kind t names = .ok hops) (hne : names ≠ []) : hops ≠ [] := by
  cases names with
  | nil => exact absurd rfl hne
  | cons name names =>
    rw [Hop.follow] at h
    split at h
    · cases h
    · obtain ⟨more, -, h⟩ := bind_eq_ok h
      cases h
      exact List.cons_ne_nil _ _

private theorem spelled_column (pos : Position) (name : String) : Spelled (s.column pos name) := by
  unfold column
  split
  · exact spelled_ok _
  · exact spelled_error (by rintro ⟨⟩)

private theorem spelled_related (pos : Position) {chain : List String} {field : String} (hchain : chain ≠ [])
    (hfield : Ascii.IsCapitalWord field) : Spelled (s.related pos chain (some field)) := by
  have hlower : Ascii.lower field ≠ "" := by
    intro heq
    have hnil : (Ascii.lower field).toList = [] := by
      rw [heq]
      rfl
    rw [Ascii.lower, String.toList_ofList, List.map_eq_nil_iff] at hnil
    exact Ascii.ne_nil_of_isWord hfield.1 hnil
  unfold related
  split
  · exact spelled_error (by rintro ⟨⟩)
  · rename_i hops hfollow
    dsimp only
    split
    · split
      · refine spelled_error ?_
        generalize Ascii.lower field = name at hlower
        rintro ⟨⟩
        exact hlower rfl
      · exact spelled_ok _
    · rename_i hnone
      -- the chain was followed, so there is a last hop, and with it a table and a join
      rcases List.eq_nil_or_concat hops with rfl | ⟨init, last, rfl⟩
      · exact absurd rfl (ne_nil_of_follow hfollow hchain)
      · rw [List.concat_eq_append] at hnone
        have htarget : Hop.target? (init ++ [last]) = some last.link.target := by
          rw [Hop.target?, List.getLast?_concat]
          rfl
        have hjoin : (Hop.joins s.context [] (init ++ [last])).getLast? =
            some (last.join s.context (Hop.names init)) := by
          rw [Hop.joins_append_singleton, List.getLast?_concat, List.nil_append]
        exact absurd hjoin (hnone _ _ htarget)

private theorem spelled_signature (pos : Position) (name : String) (count : Nat) :
    Spelled (signature pos name count) := by
  unfold signature
  split
  · exact spelled_error (by rintro ⟨⟩)
  · split
    · exact spelled_ok _
    · exact spelled_error (by rintro ⟨⟩)

private theorem spelled_checkArgument (sig : Signature) (index : Nat) (pos : Position) (found : ValueType) :
    Spelled (checkArgument sig index pos found) := by
  unfold checkArgument
  split
  · split
    · exact spelled_ok _
    · exact spelled_error (by rintro ⟨⟩)
  · exact spelled_ok _

private theorem spelled_dateUnit (unit : Formula) : Spelled (s.dateUnit unit) := by
  unfold dateUnit
  split
  · dsimp only
    split
    · exact spelled_ok _
    · exact spelled_error (by rintro ⟨⟩)
  · exact spelled_error (by rintro ⟨⟩)

private theorem spelled_callType (sig : Signature) (pos : Position) (args : List Formula) (types : List ValueType) :
    Spelled (callType sig pos args types) := by
  unfold callType
  split
  · split
    · exact spelled_ok _
    · exact spelled_error (by rintro ⟨⟩)
  · exact spelled_ok _
  · split
    · exact spelled_ok _
    · exact spelled_error (by rintro ⟨⟩)
  · split
    · exact spelled_ok _
    · exact spelled_ok _

/-- An aggregate does not complain about a path with names in it. -/
theorem spelled_destination (f : AggregateFunction) (pos : Position) {path : Formula}
    (hpath : ∀ p names, path = .path p names → names ≠ []) : Spelled (s.destination f pos path) := by
  unfold destination
  split
  · exact spelled_error (by rintro ⟨⟩)
  · split
    · rename_i p names
      split
      · exact spelled_error (by rintro ⟨⟩)
      · split
        · exact spelled_error (by rintro ⟨⟩)
        · rename_i hops hfollow
          split
          · exact spelled_ok _
          · rename_i hnone
            rw [Hop.target?, Option.map_eq_none_iff, List.getLast?_eq_none_iff] at hnone
            exact absurd hnone (ne_nil_of_follow hfollow (hpath p names rfl))
    · exact spelled_error (by rintro ⟨⟩)

private theorem spelled_compileArguments {sig : Signature} {args : List Formula}
    (ih : ∀ e ∈ args, Spelled (s.compile e)) (index : Nat) : Spelled (s.compileArguments sig index args) := by
  induction args generalizing index with
  | nil =>
    rw [compileArguments]
    exact spelled_ok _
  | cons arg args ihArgs =>
    obtain ⟨harg, hargs⟩ := List.forall_mem_cons.1 ih
    rw [compileArguments]
    refine harg.bind fun p _ => (spelled_checkArgument _ _ _ _).bind fun _ _ => ?_
    exact (ihArgs hargs _).bind fun more _ => spelled_ok _

private theorem spelled_compileDateDifference {sig : Signature} (pos : Position) {args : List Formula}
    (ih : ∀ e ∈ args, Spelled (s.compile e)) : Spelled (s.compileDateDifference sig pos args) := by
  unfold compileDateDifference
  split
  · rename_i start finish unit
    obtain ⟨hstart, hfinish, -⟩ := List.forall_mem_cons.1 ih |>.imp_right List.forall_mem_cons.1
    refine hstart.bind fun p _ => (spelled_checkArgument _ _ _ _).bind fun _ _ => ?_
    refine hfinish.bind fun q _ => (spelled_checkArgument _ _ _ _).bind fun _ _ => ?_
    exact (spelled_dateUnit unit).bind fun u _ => spelled_ok _
  · exact spelled_error (by rintro ⟨⟩)

private theorem spelled_compileDelimiter {f : AggregateFunction} {more : List Formula}
    (ih : ∀ e ∈ more, Spelled (s.compile e)) : Spelled (s.compileDelimiter f more) := by
  unfold compileDelimiter
  split
  · rename_i delimiter _
    split
    · split
      · refine (ih delimiter List.mem_cons_self).bind fun p _ => ?_
        split
        · exact spelled_ok _
        · exact spelled_error (by rintro ⟨⟩)
      · exact spelled_error (by rintro ⟨⟩)
    · exact spelled_ok _
  · exact spelled_ok _

private theorem spelled_compileAggregate {f : AggregateFunction} (pos : Position) {path : Formula}
    {args : List Formula} (hcount : args ≠ []) (hpath : ∀ p names, path = .path p names → names ≠ [])
    (ih : ∀ e ∈ args, ∀ s : Scope, Spelled (s.compile e)) : Spelled (s.compileAggregate f pos (path :: args)) := by
  cases args with
  | nil => exact absurd rfl hcount
  | cons value more =>
    obtain ⟨hvalue, hmore⟩ := List.forall_mem_cons.1 ih
    rw [compileAggregate]
    refine (spelled_destination f pos hpath).bind fun d _ => (hvalue _).bind fun inner _ => ?_
    split
    · exact (spelled_compileDelimiter fun e he => hmore e he s).bind fun delimiter _ => spelled_ok _
    · exact spelled_error (by rintro ⟨⟩)

/-- A call whose signature is that of an aggregate has a path and a value at least. -/
private theorem two_le_of_signature {pos : Position} {name : String} {count : Nat} {sig : Signature}
    {f : AggregateFunction} (h : signature pos name count = .ok sig)
    (hf : AggregateFunction.ofName? sig.name = some f) : 2 ≤ count := by
  obtain ⟨hs, -, hadmits⟩ := signature_eq_ok_iff.1 h
  have hcount := (Signature.admits_aggregate_iff hs hf).1 hadmits
  omega

/-- Compiling a well formed formula meets no fault that texts cannot have. -/
theorem spelled_compile {f : Formula} (h : f.WellFormed) (s : Scope) : Spelled (s.compile f) := by
  induction h generalizing s with
  | number | string | boolean | null | date =>
    rw [compile]
    exact spelled_ok _
  | column pos _ _ =>
    rw [compile]
    exact (spelled_column pos _).bind fun e _ => spelled_ok _
  | related pos hne _ hfield =>
    rw [compile]
    exact spelled_related pos hne hfield
  | negate pos _ ih =>
    rw [compile]
    refine (ih s).bind fun p _ => ?_
    dsimp only
    split
    · exact spelled_ok _
    · exact spelled_error (by rintro ⟨⟩)
  | binary pos op _ _ ihl ihr =>
    rw [compile]
    refine (ihl s).bind fun p _ => (ihr s).bind fun q _ => ?_
    split
    · exact spelled_ok _
    · exact spelled_error (by rintro ⟨⟩)
  | @call pos name args _ _ hargs ih =>
    rw [compile]
    refine (spelled_signature _ _ _).bind fun sig hsig => ?_
    split
    · rename_i f hf
      have htwo := two_le_of_signature hsig hf
      cases args with
      | nil => simp at htwo
      | cons first rest =>
        obtain ⟨hfirst, -⟩ := List.forall_mem_cons.1 hargs
        have hrest : rest ≠ [] := by
          rintro rfl
          simp at htwo
        refine spelled_compileAggregate pos hrest ?_ fun e he => ih e (List.mem_cons_of_mem _ he)
        rintro p names rfl
        cases hfirst
    · split
      · exact spelled_compileDateDifference pos fun e he => ih e he s
      · refine (spelled_compileArguments (fun e he => ih e he s) 0).bind fun plans _ => ?_
        exact (spelled_callType _ _ _ _).bind fun type _ => spelled_ok _
  | @aggregate pos pathPos name names args _ hf hne _ _ ih =>
    rw [compile]
    refine (spelled_signature _ _ _).bind fun sig hsig => ?_
    have hname : AggregateFunction.ofName? sig.name = AggregateFunction.ofName? name :=
      AggregateFunction.ofName?_eq_of_sameName (signature_spec hsig).2.1
    rw [← hname] at hf
    split
    · rename_i f hsome
      have htwo := two_le_of_signature hsig hsome
      have hrest : args ≠ [] := by
        rintro rfl
        simp at htwo
      refine spelled_compileAggregate pos hrest ?_ ih
      rintro p names' heq
      cases heq
      exact hne
    · rename_i hnone
      rw [hnone] at hf
      cases hf

end Scope

/-- The formulas that texts spell are the well formed ones, where names are words in capitals. So compiling a text
never meets a path outside of an aggregate, a reference without relationships or field, or an aggregate over no
relationship. -/
theorem Formula.exists_parse_iff_wellFormed :
    (∀ e : Formula, (∃ text f, Formula.parse text = .ok f ∧ f.unplaced = e.unplaced) ↔ e.WellFormed) ∧
    (∀ name, Ascii.IsCapitalWord name ↔ ∃ c cs, name.toList = c :: cs ∧ Ascii.IsCapitalStart c ∧
      ∀ d ∈ cs, Ascii.IsCapitalStart d ∨ ('0' ≤ d ∧ d ≤ '9')) ∧
    ∀ text schema maxDepth e, Plan.ofFormula text schema maxDepth = .error (.semantic e) → ¬ e.cause.IsUnspelled := by
  refine ⟨?_, fun name => Ascii.isCapitalWord_iff, ?_⟩
  · intro e
    constructor
    · rintro ⟨text, f, hparse, heq⟩
      exact (Formula.wellFormed_of_parse hparse).of_unplaced_eq heq.symm
    · intro h
      obtain ⟨f, hparse, heq⟩ := h.exists_parse_rendered
      exact ⟨e.rendered, f, hparse, heq⟩
  · intro text schema maxDepth e h
    unfold Plan.ofFormula at h
    split at h
    · cases h
    · rename_i f hparse
      split at h
      · rename_i e' hcompile
        cases h
        exact Scope.spelled_compile (Formula.wellFormed_of_parse hparse) _ e hcompile
      · cases h

/-- The sum of the negated infinite numbers over two relationships. -/
def Formula.infiniteSum : Formula :=
  .call .start "SUM_AGG" [.path .start ["ITEMS", "_PARTS2"], .negate .start (.number .start (.infinity false))]

/-- A text spells even an infinite number, and the fault of a text without the value to sum is one that texts have. -/
theorem Formula.exists_parse_iff_wellFormed_infinite :
    (∃ text f, Formula.parse text = .ok f ∧ f.unplaced = Formula.infiniteSum.unplaced) ∧
    ∃ e, Plan.ofFormula "sum_agg(items)" (.ofName "orders") 3 = .error (.semantic e) ∧ ¬ e.cause.IsUnspelled := by
  have hword : ∀ name ∈ ["SUM_AGG", "ITEMS", "_PARTS2"], Ascii.IsCapitalWord name := by
    unfold Ascii.IsCapitalWord
    decide
  have hwellFormed : Formula.infiniteSum.WellFormed := by
    refine .aggregate _ _ (hword _ List.mem_cons_self) (by decide) (by decide) ?_ ?_
    · exact fun name hname => hword name (List.mem_cons_of_mem _ hname)
    · exact List.forall_mem_singleton.2 (.negate _ (.number _ _))
  have herror : Plan.ofFormula "sum_agg(items)" (.ofName "orders") 3 =
      .error (.semantic ⟨.arity "SUM_AGG" 2 (some 2) 1, .start⟩) :=
        eq_error_of_map (g := fun _ => ()) (by decide +kernel)
  exact ⟨(Formula.exists_parse_iff_wellFormed.1 _).2 hwellFormed, _, herror,
    Formula.exists_parse_iff_wellFormed.2.2 _ _ _ _ herror⟩

end FormulaQuery
