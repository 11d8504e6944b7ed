import FormulaQuery.Proofs.Derivation
import FormulaQuery.Proofs.WellFormed
import Mathlib.Data.List.Chain

/-!
# The parser accepts its grammar

A text spells a formula exactly if its tokens derive the formula and no operator stands right after another one
(`Formula.parse_iff_derives`). In one direction the parser takes a derivation off its tokens (`Parser.Takes`), in
the other it follows a given derivation up to tokens that end it (`Parser.Gives`).
-/

namespace FormulaQuery

/-! ### Operators side by side -/

namespace NoOperatorPairs

variable {t : Token} {ts us : List Token}

theorem left (h : NoOperatorPairs (ts ++ us)) : NoOperatorPairs ts := List.IsChain.left_of_append h

private theorem right (h : NoOperatorPairs (ts ++ us)) : NoOperatorPairs us := List.IsChain.right_of_append h

theorem tail (h : NoOperatorPairs (t :: ts)) : NoOperatorPairs ts := List.IsChain.tail h

/-- What follows an operator is none. -/
theorem head (h : NoOperatorPairs (t :: ts)) (ht : t.kind.isOperator = true) :
    ∀ u ∈ ts.head?, u.kind.isOperator = false := by
  intro u hu
  have hpair := (List.isChain_cons.1 h).1 u hu
  simpa [ht] using hpair

end NoOperatorPairs

/-- The first token of a phrase does not depend on what follows the phrase. -/
theorem Derives.head_append {p : Phrase} {ts : List Token} {e : Formula} (h : Derives p ts e) {P : Token → Prop}
    (hhead : ∀ t ∈ ts.head?, P t) (rest : List Token) : ∀ t ∈ (ts ++ rest).head?, P t := by
  obtain ⟨t, ts, rfl, -⟩ := h.exists_cons
  exact hhead

private theorem BinaryOperator.isOperator_of_ofSymbol? {s : Symbol} {op : BinaryOperator}
    (h : ofSymbol? s = some op) : s.isOperator = true := by
  cases s <;> first | rfl | cases h

namespace Parser

variable {ending : Ending}

/-! ### From derivations to formulas -/

/-- A step reads the given value and leaves the given tokens. -/
def Gives {α : Type} {n : Nat} (r : Except Failure (Parsed α n)) (value : α) (rest : List Token) : Prop :=
  ∃ h, r = .ok ⟨value, rest, h⟩

section Gives

variable {α β : Type} {m n : Nat} {a : α} {b : β} {rest rest' : List Token}

private theorem gives_ok {h : rest.length < n} : Gives (.ok ⟨a, rest, h⟩ : Except Failure (Parsed α n)) a rest :=
  ⟨h, rfl⟩

private theorem gives_seq {x : Except Failure β} {f : β → Except Failure (Parsed α n)} (hx : x = .ok b)
    (hf : Gives (f b) a rest) : Gives (x >>= f) a rest := by
  rw [hx]
  exact hf

private theorem Gives.bind {x : Except Failure (Parsed β m)} {f : Parsed β m → Except Failure (Parsed α n)}
    (hx : Gives x b rest') (hf : ∀ h, Gives (f ⟨b, rest', h⟩) a rest) : Gives (x >>= f) a rest := by
  obtain ⟨h, rfl⟩ := hx
  exact hf h

end Gives

/-- The formulas that the parser reads from tokens, whatever ends them. -/
def Follows (ending : Ending) (p : Phrase) (ts : List Token) (e : Formula) : Prop :=
  NoOperatorPairs ts → ∀ rest, p.Stops rest → Gives (operand ending p.level (ts ++ rest)) e rest

section Complete

variable {p q : Phrase} {ts rest : List Token} {e : Formula}

private theorem pass_eq_ok (hending : ending.error? = none) (t : Token) (rest : List Token) :
    pass ending t rest = .ok () := by
  unfold pass
  rw [hending]
  cases rest <;> rfl

private theorem rejectOperator_eq_ok {first : Token.Kind} (h : ∀ t ∈ ts.head?, t.kind.isOperator = false) :
    rejectOperator ending first ts = .ok () := by
  cases ts with
  | nil => rfl
  | cons t ts => simp [rejectOperator, current, h t rfl]

/-- A chain ends where nothing follows that it could go on with. -/
private theorem chain_of_stops (hq : p.operand? = some q) (h : p.Stops rest) (left : Formula) :
    Gives (chain ending q.level left rest) left rest := by
  have hp := Phrase.level_operand hq
  cases rest with
  | nil =>
    rw [chain]
    exact gives_ok
  | cons t rest =>
    obtain ⟨kind, pos⟩ := t
    have hends : p.Ends kind := Phrase.stops_cons.1 h
    rw [chain]
    cases hends with
    | rightParen => exact gives_ok
    | comma => exact gives_ok
    | operator hop hlevel =>
      dsimp only
      rw [hop]
      dsimp only
      rw [if_neg (by omega)]
      exact gives_ok

private theorem gives_chain (hending : ending.error? = none) (hq : p.operand? = some q) {ops : List Operation}
    (hops : ∀ o ∈ ops, (o.symbol, o.op) ∈ p.operators) (hright : ∀ o ∈ ops, Derives q o.tokens o.value)
    (ih : ∀ o ∈ ops, Follows ending q o.tokens o.value)
    (hpairs : NoOperatorPairs ((ops.map (·.toPart)).flatMap Part.all)) (h : p.Stops rest) (left : Formula) :
    Gives (chain ending q.level left ((ops.map (·.toPart)).flatMap Part.all ++ rest)) (ops.foldl Operation.apply left)
      rest := by
  induction ops generalizing left with
  | nil => exact chain_of_stops hq h left
  | cons o ops ihOps =>
    obtain ⟨ho, hops⟩ := List.forall_mem_cons.1 hops
    obtain ⟨hderives, hright⟩ := List.forall_mem_cons.1 hright
    obtain ⟨hfollows, ih⟩ := List.forall_mem_cons.1 ih
    obtain ⟨hop, hlevel⟩ := Phrase.mem_operators.1 ho
    rw [Phrase.level_operand hq] at hlevel
    rw [List.map_cons, List.flatMap_cons] at hpairs ⊢
    rw [List.append_assoc, Part.all, List.cons_append, chain]
    dsimp only
    rw [hop]
    dsimp only
    rw [if_pos hlevel]
    have hhead := hderives.head_append (hpairs.left.head (BinaryOperator.isOperator_of_ofSymbol? hop))
    refine gives_seq (pass_eq_ok hending _ _) (gives_seq (rejectOperator_eq_ok (hhead _)) ?_)
    refine (hfollows hpairs.left.tail _ (h.operations hq (Phrase.isOperator_parts hops))).bind fun hlt => ?_
    exact (ihOps hops hright ih hpairs.right _).bind fun _ => gives_ok

private theorem kind_ne {t : Token} {s : Symbol} (h : p.Stops (t :: rest)) (hs : s = .leftParen ∨ s = .dot) :
    t.kind ≠ .symbol s := by
  obtain ⟨kind, pos⟩ := t
  rintro rfl
  exact h.head_ne hs pos rest rfl

private theorem gives_related (hending : ending.error? = none) {chain' : List String} {field : String}
    (href : Reference ts chain' field) (h : p.Stops rest) (pos : Position) (chain : List String) (point : Token) :
    Gives (related ending pos chain point (ts ++ rest)) (.related pos (chain ++ chain') (some field)) rest := by
  induction href generalizing chain point with
  | field namePos name =>
    rw [List.append_nil]
    cases rest with
    | nil =>
      rw [List.append_nil, related]
      exact gives_seq (pass_eq_ok hending _ _) gives_ok
    | cons t rest =>
      rw [List.cons_append, List.nil_append, related]
      dsimp only
      rw [if_neg fun hdot => kind_ne h (Or.inr rfl) hdot.2]
      exact gives_ok
  | @link namePos dot name field ts chain' hname _ ih =>
    rw [List.cons_append, List.cons_append, related]
    dsimp only
    rw [if_pos ⟨hname, rfl⟩]
    have htail := ih (chain ++ [name]) ⟨.symbol .dot, dot⟩
    rw [List.append_assoc] at htail
    exact htail.bind fun _ => gives_ok

private theorem gives_pathTail (hending : ending.error? = none) {segments : List String}
    (hpath : PathTail ts segments) (h : p.Stops rest) : Gives (pathTail ending (ts ++ rest)) segments rest := by
  induction hpath with
  | nil =>
    rw [List.nil_append]
    match rest with
    | [] =>
      rw [pathTail]
      exact gives_ok
    | [t] =>
      rw [pathTail, if_neg (kind_ne h (Or.inr rfl))]
      exact gives_ok
    | t :: u :: rest =>
      rw [pathTail, if_neg (kind_ne h (Or.inr rfl))]
      exact gives_ok
  | cons dot pos name _ ih =>
    rw [List.cons_append, List.cons_append, pathTail, if_pos rfl]
    exact gives_seq (pass_eq_ok hending _ _) (ih.bind fun _ => gives_ok)

private theorem gives_close (hending : ending.error? = none) (opened : Position) (expected : Expected)
    (closing : Position)
    (rest : List Token) : Gives (close ending opened expected (⟨.symbol .rightParen, closing⟩ :: rest)) () rest := by
  rw [close, if_pos rfl]
  exact gives_seq (pass_eq_ok hending _ _) gives_ok

private theorem finishCall_eq_ok {pos : Position} {name : String} {args : List Formula}
    (h : CallValue pos name args e) (rest : List Token) : finishCall pos name args rest = .ok e := by
  cases h with
  | date p hd => exact if_pos hd
  | call hne =>
    unfold finishCall
    split
    · exact absurd rfl (hne rfl _ _)
    · rfl

private theorem gives_moreArguments (hending : ending.error? = none) {more : List Part}
    (hcomma : ∀ a ∈ more, a.symbol = .comma) (ih : ∀ a ∈ more, Follows ending .comparison a.tokens a.value)
    (hpairs : NoOperatorPairs (more.flatMap Part.all)) (closing : Position) (rest : List Token) :
    Gives (moreArguments ending (more.flatMap Part.all ++ ⟨.symbol .rightParen, closing⟩ :: rest))
      (more.map (·.value)) (⟨.symbol .rightParen, closing⟩ :: rest) := by
  induction more with
  | nil =>
    rw [List.flatMap_nil, List.nil_append, moreArguments, if_neg (by rintro ⟨⟩)]
    exact gives_ok
  | cons a more ihMore =>
    obtain ⟨ha, hcomma⟩ := List.forall_mem_cons.1 hcomma
    obtain ⟨hfollows, ih⟩ := List.forall_mem_cons.1 ih
    rw [List.flatMap_cons] at hpairs ⊢
    rw [List.append_assoc, Part.all, ha, List.cons_append, moreArguments, if_pos rfl]
    refine gives_seq (pass_eq_ok hending _ _) ?_
    refine (hfollows hpairs.left.tail _ (Phrase.stops_arguments _ hcomma closing rest)).bind fun _ => ?_
    exact (ihMore hcomma ih hpairs.right).bind fun _ => gives_ok

private theorem gives_arguments {aggregate : Bool} {first : Formula} {more : List Formula} {rest' : List Token}
    (hclose : (current ending ts).kind ≠ .symbol .rightParen) (hplain : aggregate = true → ¬ StartsWithWord ts)
    (hfirst : Gives (operand ending 3 ts) first rest') (hmore : Gives (moreArguments ending rest') more rest) :
    Gives (arguments ending aggregate ts) (first :: more) rest := by
  unfold arguments
  rw [if_neg hclose]
  split
  · exact absurd ⟨_, _, _, rfl⟩ (hplain rfl)
  · exact hfirst.bind fun _ => hmore.bind fun _ => gives_ok

private theorem gives_pathArguments (hending : ending.error? = none) {segments : List String} {more : List Formula}
    {rest' : List Token} (hpath : Gives (pathTail ending ts) segments rest')
    (hmore : Gives (moreArguments ending rest') more rest) (segment : String) (pos : Position) :
    Gives (arguments ending true (⟨.word segment, pos⟩ :: ts)) (.path pos (segment :: segments) :: more) rest := by
  rw [arguments, if_neg (by rintro ⟨⟩)]
  exact gives_seq (pass_eq_ok hending _ _) (hpath.bind fun _ => hmore.bind fun _ => gives_ok)

/-- A call is read once its arguments are. -/
private theorem gives_call (hending : ending.error? = none) {name : String} {args : List Formula} {pos : Position}
    (opening closing : Position)
    (hargs : Gives (arguments ending (AggregateFunction.ofName? name).isSome ts) args
      (⟨.symbol .rightParen, closing⟩ :: rest)) (he : CallValue pos name args e) :
    Gives (factor ending (⟨.word name, pos⟩ :: ⟨.symbol .leftParen, opening⟩ :: ts)) e rest := by
  rw [factor_of_call rfl rfl]
  refine gives_seq (pass_eq_ok hending _ _) (hargs.bind fun _ => ?_)
  refine (gives_close hending _ _ _ _).bind fun _ => gives_seq (finishCall_eq_ok he _) gives_ok

/-- The parser follows every derivation. -/
theorem follows_of_derives (hending : ending.error? = none) (h : Derives p ts e) : Follows ending p ts e := by
  induction h with
  | @chain p q ts left ops hq _ hops hright ihLeft ihRight =>
    intro hpairs rest hrest
    rw [Phrase.level_operand hq, operand, List.append_assoc]
    refine (ihLeft hpairs.left _ (hrest.operations hq (Phrase.isOperator_parts hops))).bind fun _ => ?_
    exact (gives_chain hending hq hops hright ihRight hpairs.right hrest left).bind fun _ => gives_ok
  | number pos n | string pos text =>
    intro hpairs rest hrest
    rw [Phrase.level, operand, List.cons_append, factor]
    exact gives_seq (pass_eq_ok hending _ _) gives_ok
  | word pos name =>
    intro hpairs rest hrest
    rw [Phrase.level, operand, List.cons_append, List.nil_append, factor]
    cases rest with
    | nil => exact gives_seq (pass_eq_ok hending _ _) gives_ok
    | cons t rest =>
      dsimp only
      rw [if_neg (kind_ne hrest (Or.inl rfl)), if_neg fun hdot => kind_ne hrest (Or.inr rfl) hdot.2]
      exact gives_ok
  | negate pos hderives ih =>
    intro hpairs rest hrest
    rw [Phrase.level, operand, List.cons_append, factor]
    have hgives := ih hpairs.tail rest hrest
    rw [Phrase.level, operand] at hgives
    refine gives_seq (pass_eq_ok hending _ _) (gives_seq (rejectOperator_eq_ok ?_) (hgives.bind fun _ => gives_ok))
    exact hderives.head_append (hpairs.head rfl) rest
  | group opening closing _ ih =>
    intro hpairs rest hrest
    rw [Phrase.level, operand, List.cons_append, List.append_assoc, factor]
    refine gives_seq (pass_eq_ok hending _ _) ?_
    refine (ih hpairs.tail.left _ (Phrase.stops_rightParen _ closing rest)).bind fun _ => ?_
    exact (gives_close hending _ _ _ _).bind fun _ => gives_ok
  | @related pos dot name field ts chain hname href =>
    intro hpairs rest hrest
    rw [Phrase.level, operand, List.cons_append, List.cons_append, factor_of_related rfl (by rintro ⟨⟩) ⟨hname, rfl⟩]
    exact (gives_related hending href hrest pos [name] _).bind fun _ => gives_ok
  | emptyCall pos opening closing name =>
    intro hpairs rest hrest
    rw [Phrase.level, operand]
    have hargs : Gives (arguments ending (AggregateFunction.ofName? name).isSome
        (⟨.symbol .rightParen, closing⟩ :: rest)) []
        (⟨.symbol .rightParen, closing⟩ :: rest) := by
      have hclose : (current ending (⟨.symbol .rightParen, closing⟩ :: rest)).kind = .symbol .rightParen := rfl
      rw [arguments.eq_def, if_pos hclose]
      exact gives_ok
    exact gives_call hending opening closing hargs (.call (by rintro _ _ _ ⟨⟩))
  | @call pos opening closing name ts first e more hplain hfirst hcomma _ he ih ihMore =>
    intro hpairs rest hrest
    have hargs : NoOperatorPairs ts ∧ NoOperatorPairs (more.flatMap Part.all) :=
      ⟨hpairs.tail.tail.left, hpairs.tail.tail.right.left⟩
    rw [Phrase.level, operand, List.cons_append, List.cons_append, List.append_assoc, List.append_assoc]
    refine gives_call hending opening closing
      (gives_arguments ?_ ?_ (ih hargs.1 _ (Phrase.stops_arguments _ hcomma closing rest))
      (gives_moreArguments hending hcomma ihMore hargs.2 closing rest)) he
    · obtain ⟨t, ts, rfl, ht⟩ := hfirst.exists_cons
      exact ht
    · rintro hname ⟨word, wordPos, rest', heq⟩
      exact hplain hname (hfirst.startsWithWord_of_append heq)
  | aggregate pos opening closing pathPos hname hpath hcomma _ ihMore =>
    intro hpairs rest hrest
    have hmore := hpairs.tail.tail.tail.right.left
    rw [Phrase.level, operand, List.cons_append, List.cons_append, List.cons_append, List.append_assoc,
      List.append_assoc]
    refine gives_call hending opening closing ?_ (.call (by rintro _ _ _ ⟨⟩))
    rw [hname]
    exact gives_pathArguments hending
      (gives_pathTail hending hpath (Phrase.stops_arguments .factor hcomma closing rest))
      (gives_moreArguments hending hcomma ihMore hmore closing rest) _ pathPos

end Complete

/-! ### From formulas to derivations -/

/-- No two operators stand side by side, and the last token is none. -/
structure Plain (ts : List Token) : Prop where
  pairs : NoOperatorPairs ts
  last : ∀ t ∈ ts.getLast?, t.kind.isOperator = false

section Plain

variable {t : Token} {ts us : List Token}

theorem plain_nil : Plain [] := ⟨.nil, by rintro _ ⟨⟩⟩

theorem Plain.append (hts : Plain ts) (hus : Plain us) : Plain (ts ++ us) := by
  refine ⟨List.IsChain.append hts.pairs hus.pairs ?_, ?_⟩
  · rintro a ha b hb ⟨hop, -⟩
    rw [hts.last a ha] at hop
    cases hop
  · intro a ha
    cases hus' : us.getLast? with
    | none =>
      rw [List.getLast?_append, hus', Option.none_or] at ha
      exact hts.last a ha
    | some u =>
      rw [List.getLast?_append, hus', Option.some_or] at ha
      exact hus.last a (hus' ▸ ha)

private theorem plain_singleton (h : t.kind.isOperator = false) : Plain [t] :=
  ⟨List.isChain_singleton t, by rintro u ⟨⟩; exact h⟩

theorem Plain.cons (h : Plain ts) (ht : t.kind.isOperator = false) : Plain (t :: ts) :=
  (plain_singleton ht).append h

theorem Plain.operator (h : Plain ts) (hne : ts ≠ []) (hhead : ∀ u ∈ ts.head?, u.kind.isOperator = false) :
    Plain (t :: ts) := by
  refine ⟨List.isChain_cons.2 ⟨?_, h.pairs⟩, ?_⟩
  · rintro u hu ⟨-, hop⟩
    rw [hhead u hu] at hop
    cases hop
  · intro u hu
    rw [List.getLast?_cons_of_ne_nil hne] at hu
    exact h.last u hu

end Plain

/-- A run that ends where tokens were passed ends well. -/
def Passed (ending : Ending) (rest : List Token) : Prop := rest = [] → ending.error? = none

/-- A step takes tokens off the front that are related to its value by `P`. -/
def Takes {α : Type} {n : Nat} (ending : Ending) (P : List Token → α → Prop) (ts : List Token)
    (r : Except Failure (Parsed α n)) : Prop :=
  ∀ a, r = .ok a → ∃ used, ts = used ++ a.rest ∧ P used a.value ∧ Passed ending a.rest

section Takes

variable {α β : Type} {m n : Nat} {P : List Token → α → Prop} {Q : List Token → β → Prop} {t : Token}
  {ts rest : List Token}

private theorem takes_error (e : Failure) : Takes ending P ts (.error e : Except Failure (Parsed α n)) := by
  rintro _ ⟨⟩

private theorem passed_cons : Passed ending (t :: rest) := fun h => absurd h (List.cons_ne_nil t rest)

private theorem takes_ok {value : α} {h : rest.length < n} (hP : P [] value) (hrest : Passed ending rest) :
    Takes ending P rest (.ok ⟨value, rest, h⟩ : Except Failure (Parsed α n)) := by
  rintro a ⟨⟩
  exact ⟨[], rfl, hP, hrest⟩

private theorem takes_cons {r : Except Failure (Parsed α n)} (h : Takes ending (fun used => P (t :: used)) ts r) :
    Takes ending P (t :: ts) r := by
  intro a ha
  obtain ⟨used, rfl, hP, hrest⟩ := h a ha
  exact ⟨t :: used, rfl, hP, hrest⟩

private theorem takes_seq {x : Except Failure β} {f : β → Except Failure (Parsed α n)}
    (h : ∀ b, x = .ok b → Takes ending P ts (f b)) : Takes ending P ts (x >>= f) := by
  intro a ha
  obtain ⟨b, hb, ha⟩ := bind_eq_ok ha
  exact h b hb a ha

private theorem Takes.bind {x : Except Failure (Parsed β m)} {f : Parsed β m → Except Failure (Parsed α n)}
    (hx : Takes ending Q ts x)
    (hf : ∀ b used, ts = used ++ b.rest → Q used b.value → Passed ending b.rest →
      Takes ending (fun more => P (used ++ more)) b.rest (f b)) : Takes ending P ts (x >>= f) := by
  intro a ha
  obtain ⟨b, hb, ha⟩ := bind_eq_ok ha
  obtain ⟨used, rfl, hQ, hpassed⟩ := hx b hb
  obtain ⟨more, hmore, hP, hrest⟩ := hf b used rfl hQ hpassed a ha
  exact ⟨used ++ more, by rw [List.append_assoc, ← hmore], hP, hrest⟩

private theorem takes_pass {f : PUnit → Except Failure (Parsed α n)}
    (h : Passed ending rest → Takes ending P ts (f ())) : Takes ending P ts (pass ending t rest >>= f) := by
  refine takes_seq fun _ hpass => h ?_
  rintro rfl
  unfold pass at hpass
  split at hpass
  · cases hpass
  · rename_i hne
    cases herror : ending.error? with
    | none => rfl
    | some e => exact absurd herror (hne e rfl)

private theorem head_of_rejectOperator {first : Token.Kind} (h : rejectOperator ending first ts = .ok ()) :
    ∀ t ∈ ts.head?, t.kind.isOperator = false := by
  rintro t ht
  cases ts with
  | nil => cases ht
  | cons u ts =>
    cases ht
    unfold rejectOperator at h
    dsimp only at h
    split at h
    · cases h
    · rename_i hop
      exact Bool.eq_false_iff.2 hop

end Takes

/-- What the parser relates: tokens and the formula that they derive. -/
private def Spells (p : Phrase) (used : List Token) (e : Formula) : Prop := Derives p used e ∧ Plain used

private theorem Spells.operator {p : Phrase} {used rest : List Token} {e : Formula} (h : Spells p used e) (t : Token)
    (hhead : ∀ u ∈ (used ++ rest).head?, u.kind.isOperator = false) : Plain (t :: used) := by
  obtain ⟨u, us, rfl, -⟩ := h.1.exists_cons
  exact h.2.operator (List.cons_ne_nil u us) hhead

/-- The operators after a left operand, with their right operands. -/
private def SpellsChain (p q : Phrase) (left : Formula) (used : List Token) (e : Formula) : Prop :=
  ∃ ops : List Operation, used = (ops.map (·.toPart)).flatMap Part.all ∧ e = ops.foldl Operation.apply left ∧
    (∀ o ∈ ops, (o.symbol, o.op) ∈ p.operators) ∧ (∀ o ∈ ops, Derives q o.tokens o.value) ∧ Plain used

private theorem spellsChain_nil (p q : Phrase) (left : Formula) : SpellsChain p q left [] left :=
  ⟨[], rfl, rfl, fun _ h => absurd h List.not_mem_nil, fun _ h => absurd h List.not_mem_nil, plain_nil⟩

/-- Arguments after commas. -/
private def SpellsMore (used : List Token) (args : List Formula) : Prop :=
  ∃ more : List Part, used = more.flatMap Part.all ∧ args = more.map (·.value) ∧ (∀ a ∈ more, a.symbol = .comma) ∧
    (∀ a ∈ more, Derives .comparison a.tokens a.value) ∧ Plain used

private theorem spellsMore_nil : SpellsMore [] [] :=
  ⟨[], rfl, rfl, fun _ h => absurd h List.not_mem_nil, fun _ h => absurd h List.not_mem_nil, plain_nil⟩

/-- What stands between the parentheses of a call makes a call. -/
private def SpellsArguments (aggregate : Bool) (used : List Token) (args : List Formula) : Prop :=
  Plain used ∧ ∀ pos opening closing name e, (AggregateFunction.ofName? name).isSome = aggregate →
    CallValue pos name args e →
    Derives .factor (⟨.word name, pos⟩ :: ⟨.symbol .leftParen, opening⟩ ::
      (used ++ [⟨.symbol .rightParen, closing⟩])) e

section Sound

variable {p q : Phrase} {ts : List Token}

private theorem takes_close (opened : Position) (expected : Expected) (ts : List Token) :
    Takes ending (fun used _ => ∃ pos, used = [⟨.symbol .rightParen, pos⟩]) ts (close ending opened expected ts) := by
  unfold close
  split
  · exact takes_error _
  · rename_i t rest
    obtain ⟨kind, pos⟩ := t
    split
    · rename_i hk
      cases hk
      exact takes_pass fun hpassed => takes_cons (takes_ok ⟨pos, rfl⟩ hpassed)
    · exact takes_error _

private theorem takes_related (pos : Position) (chain : List String) (point : Token) (ts : List Token) :
    Takes ending (fun used e => ∃ chain' field, Reference used chain' field ∧ Plain used ∧
      e = .related pos (chain ++ chain') (some field)) ts (related ending pos chain point ts) := by
  induction chain, point, ts using related.induct with
  | case1 chain point =>
    rw [related]
    exact takes_pass fun _ => takes_error _
  | case2 chain point t name hk =>
    obtain ⟨kind, namePos⟩ := t
    cases hk
    rw [related]
    refine takes_pass fun hpassed => takes_cons (takes_ok ?_ hpassed)
    exact ⟨[], name, .field namePos name, plain_singleton rfl, by rw [List.append_nil]⟩
  | case4 chain point t next rest name hk hcond ih =>
    obtain ⟨kind, namePos⟩ := t
    obtain ⟨nextKind, dot⟩ := next
    cases hk
    obtain ⟨hname, hdot⟩ := hcond
    cases hdot
    rw [related]
    dsimp only
    rw [if_pos ⟨hname, rfl⟩]
    refine takes_cons (takes_cons (ih.bind ?_))
    rintro ⟨e, rest, hlt⟩ used - ⟨chain', field, href, hplain, rfl⟩ hpassed
    refine takes_ok ?_ hpassed
    rw [List.append_nil]
    exact ⟨name :: chain', field, .link namePos dot hname href, (hplain.cons rfl).cons rfl, by simp⟩
  | case5 chain point t next rest name hk hcond =>
    obtain ⟨kind, namePos⟩ := t
    cases hk
    rw [related]
    dsimp only
    rw [if_neg hcond]
    refine takes_cons (takes_ok ?_ passed_cons)
    exact ⟨[], name, .field namePos name, plain_singleton rfl, by rw [List.append_nil]⟩
  | case3 chain point t hk | case6 chain point t next rest hk =>
    rw [related]
    split
    · rename_i name hk'
      exact absurd hk' (hk name)
    · exact takes_error _

private theorem takes_pathTail (ts : List Token) (hpassed : Passed ending ts) :
    Takes ending (fun used segments => PathTail used segments ∧ Plain used) ts (pathTail ending ts) := by
  induction ts using pathTail.induct with
  | case1 =>
    rw [pathTail]
    exact takes_ok ⟨.nil, plain_nil⟩ hpassed
  | case2 point hk =>
    rw [pathTail, if_pos hk]
    exact takes_pass fun _ => takes_error _
  | case4 point t rest hk name hw ih =>
    obtain ⟨pointKind, dot⟩ := point
    obtain ⟨kind, pos⟩ := t
    cases hk
    cases hw
    rw [pathTail, if_pos rfl]
    refine takes_pass fun hrest => takes_cons (takes_cons ((ih hrest).bind ?_))
    rintro ⟨segments, rest, hlt⟩ used - ⟨hpath, hplain⟩ hpassed
    refine takes_ok ?_ hpassed
    rw [List.append_nil]
    exact ⟨.cons dot pos name hpath, (hplain.cons rfl).cons rfl⟩
  | case5 point t rest hk hw =>
    rw [pathTail, if_pos hk]
    split
    · rename_i name hw'
      exact absurd hw' (hw name)
    · exact takes_error _
  | case3 point hk | case6 point t rest hk =>
    rw [pathTail, if_neg hk]
    exact takes_ok ⟨.nil, plain_nil⟩ hpassed

private theorem callValue_of_finishCall {pos : Position} {name : String} {args : List Formula} {rest : List Token}
    {e : Formula} (h : finishCall pos name args rest = .ok e) : CallValue pos name args e := by
  unfold finishCall at h
  split at h
  · split at h
    · rename_i hd
      cases h
      exact .date _ hd
    · cases h
  · rename_i hne
    cases h
    refine .call ?_
    rintro rfl p text rfl
    exact hne p text rfl rfl

/-! Arguments make a call in three ways. -/

private theorem spellsArguments_nil (aggregate : Bool) : SpellsArguments aggregate [] [] := by
  refine ⟨plain_nil, ?_⟩
  intro pos opening closing name e _ he
  cases he
  exact .emptyCall pos opening closing name

private theorem spellsArguments_plain {aggregate : Bool} {used more : List Token} {first : Formula}
    {args : List Formula} (hplain : aggregate = true → ¬ StartsWithWord used) (hfirst : Spells .comparison used first)
    (hmore : SpellsMore more args) : SpellsArguments aggregate (used ++ more) (first :: args) := by
  obtain ⟨parts, rfl, rfl, hcomma, hparts, hmore⟩ := hmore
  refine ⟨hfirst.2.append hmore, ?_⟩
  intro pos opening closing name e hname he
  rw [List.append_assoc]
  exact .call pos opening closing (fun h => hplain (hname ▸ h)) hfirst.1 hcomma hparts he

private theorem spellsArguments_path {used more : List Token} {segments : List String} {args : List Formula}
    (hpath : PathTail used segments ∧ Plain used) (hmore : SpellsMore more args) (segment : String)
    (pathPos : Position) :
    SpellsArguments true (⟨.word segment, pathPos⟩ :: (used ++ more))
      (.path pathPos (segment :: segments) :: args) := by
  obtain ⟨parts, rfl, rfl, hcomma, hparts, hmore⟩ := hmore
  refine ⟨(hpath.2.append hmore).cons rfl, ?_⟩
  intro pos opening closing name e hname he
  cases he
  rw [List.cons_append, List.append_assoc]
  exact .aggregate pos opening closing pathPos hname hpath.1 hcomma hparts

/-! For each production, the parser takes off what derives its value if the functions that it calls do. -/

private theorem takes_operand {level : Nat} (hq : p.operand? = some q)
    (hleft : Takes ending (Spells q) ts (operand ending level ts))
    (hchain : ∀ left : Parsed Formula ts.length, Passed ending left.rest →
      Takes ending (SpellsChain p q left.value) left.rest (chain ending level left.value left.rest)) :
    Takes ending (Spells p) ts (operand ending (level + 1) ts) := by
  rw [operand]
  refine hleft.bind ?_
  intro left used _ hleft hpassed
  refine (hchain left hpassed).bind ?_
  rintro all more - ⟨ops, rfl, hall, hops, hright, hplain⟩ hrest
  refine takes_ok ?_ hrest
  rw [hall, List.append_nil]
  exact ⟨.chain hq hleft.1 hops hright, hleft.2.append hplain⟩

private theorem takes_chain {level : Nat} {left : Formula} {s : Symbol} {op : BinaryOperator}
    (hop : BinaryOperator.ofSymbol? s = some op) (hprecedence : op.precedence = level + 1)
    (hq : p.operand? = some q) (hlevel : q.level = level) (pos : Position)
    (hright : Takes ending (Spells q) ts (operand ending level ts))
    (hchain : ∀ right : Parsed Formula ts.length, Passed ending right.rest →
      Takes ending (SpellsChain p q (.binary left.pos op left right.value)) right.rest
        (chain ending level (.binary left.pos op left right.value) right.rest)) :
    Takes ending (SpellsChain p q left) (⟨.symbol s, pos⟩ :: ts)
      (chain ending level left (⟨.symbol s, pos⟩ :: ts)) := by
  rw [chain_of_operator rfl hop hprecedence]
  refine takes_pass fun _ => takes_seq fun _ hreject => takes_cons (hright.bind ?_)
  intro right used hused hright hpassed
  refine (hchain right hpassed).bind ?_
  rintro all more - ⟨ops, rfl, hall, hops, hder, hplain⟩ hrest
  refine takes_ok ?_ hrest
  rw [hall, List.append_nil]
  have hop : (s, op) ∈ p.operators := by
    rw [← hlevel, ← Phrase.level_operand hq] at hprecedence
    exact Phrase.mem_operators.2 ⟨hop, hprecedence⟩
  exact ⟨⟨⟨s, pos, used, right.value⟩, op⟩ :: ops, rfl, rfl, List.forall_mem_cons.2 ⟨hop, hops⟩,
    List.forall_mem_cons.2 ⟨hright.1, hder⟩,
    (hright.operator _ (hused ▸ head_of_rejectOperator hreject)).append hplain⟩

private theorem takes_call (pos opening : Position) {name : String}
    (hargs : Passed ending ts → Takes ending (SpellsArguments (AggregateFunction.ofName? name).isSome) ts
      (arguments ending (AggregateFunction.ofName? name).isSome ts)) :
    Takes ending (Spells .factor) (⟨.word name, pos⟩ :: ⟨.symbol .leftParen, opening⟩ :: ts)
      (factor ending (⟨.word name, pos⟩ :: ⟨.symbol .leftParen, opening⟩ :: ts)) := by
  rw [factor_of_call rfl rfl]
  refine takes_pass fun hpassed => takes_cons (takes_cons ((hargs hpassed).bind ?_))
  rintro args used - ⟨hplain, hcall⟩ _
  refine (takes_close _ _ _).bind ?_
  rintro closed _ - ⟨closing, rfl⟩ hpassed
  refine takes_seq fun e he => takes_ok ?_ hpassed
  rw [List.append_nil]
  have hvalue := callValue_of_finishCall he
  exact ⟨hcall pos opening closing name e rfl hvalue, ((hplain.append (plain_singleton rfl)).cons rfl).cons rfl⟩

private theorem takes_reference (pos dot : Position) {name : String} (hname : Formula.isRelationName name = true) :
    Takes ending (Spells .factor) (⟨.word name, pos⟩ :: ⟨.symbol .dot, dot⟩ :: ts)
      (factor ending (⟨.word name, pos⟩ :: ⟨.symbol .dot, dot⟩ :: ts)) := by
  rw [factor_of_related rfl (by rintro ⟨⟩) ⟨hname, rfl⟩]
  refine takes_cons (takes_cons ((takes_related pos [name] _ ts).bind ?_))
  rintro ⟨e, rest, hlt⟩ used - ⟨chain, field, href, hplain, rfl⟩ hpassed
  refine takes_ok ?_ hpassed
  rw [List.append_nil]
  exact ⟨.related pos dot hname href, (hplain.cons rfl).cons rfl⟩

private theorem takes_negate (pos : Position) (hoperand : Takes ending (Spells .factor) ts (factor ending ts)) :
    Takes ending (Spells .factor) (⟨.symbol .minus, pos⟩ :: ts) (factor ending (⟨.symbol .minus, pos⟩ :: ts)) := by
  rw [factor]
  refine takes_pass fun _ => takes_seq fun _ hreject => takes_cons (hoperand.bind ?_)
  intro e used hused he hpassed
  refine takes_ok ?_ hpassed
  rw [List.append_nil]
  exact ⟨.negate pos he.1, he.operator _ (hused ▸ head_of_rejectOperator hreject)⟩

private theorem takes_group (opening : Position)
    (hinner : Takes ending (Spells .comparison) ts (operand ending 3 ts)) :
    Takes ending (Spells .factor) (⟨.symbol .leftParen, opening⟩ :: ts)
      (factor ending (⟨.symbol .leftParen, opening⟩ :: ts)) := by
  rw [factor]
  refine takes_pass fun _ => takes_cons (hinner.bind ?_)
  intro e used _ he _
  refine (takes_close _ _ _).bind ?_
  rintro closed _ - ⟨closing, rfl⟩ hpassed
  refine takes_ok ?_ hpassed
  rw [List.append_nil]
  exact ⟨.group opening closing he.1, (he.2.append (plain_singleton rfl)).cons rfl⟩

private theorem takes_pathArguments (name : String) (pos : Position)
    (hparen : ¬(current ending (⟨.word name, pos⟩ :: ts)).kind = .symbol .rightParen)
    (hmore : ∀ path : Parsed (List String) (ts.length + 1), Passed ending path.rest →
      Takes ending SpellsMore path.rest (moreArguments ending path.rest)) :
    Takes ending (SpellsArguments true) (⟨.word name, pos⟩ :: ts)
      (arguments ending true (⟨.word name, pos⟩ :: ts)) := by
  rw [arguments, if_neg hparen]
  refine takes_pass fun hrest => takes_cons ((takes_pathTail ts hrest).bind ?_)
  intro path used _ hpath hpassed
  refine (hmore path hpassed).bind ?_
  intro more used' _ hmore hrest
  refine takes_ok ?_ hrest
  rw [List.append_nil]
  exact spellsArguments_path hpath hmore name pos

private theorem takes_plainArguments {aggregate : Bool} (hword : aggregate = true → ¬StartsWithWord ts)
    (hparen : ¬(current ending ts).kind = .symbol .rightParen)
    (hfirst : Takes ending (Spells .comparison) ts (operand ending 3 ts))
    (hmore : ∀ first : Parsed Formula ts.length, Passed ending first.rest →
      Takes ending SpellsMore first.rest (moreArguments ending first.rest)) :
    Takes ending (SpellsArguments aggregate) ts (arguments ending aggregate ts) := by
  rw [arguments_of_plain hparen fun name pos rest haggregate hts => hword haggregate ⟨name, pos, rest, hts⟩]
  refine hfirst.bind ?_
  intro first used hused hfirst hpassed
  refine (hmore first hpassed).bind ?_
  intro more used' _ hmore hrest
  refine takes_ok ?_ hrest
  rw [List.append_nil]
  refine spellsArguments_plain ?_ hfirst hmore
  rintro haggregate ⟨name, pos, rest, rfl⟩
  exact hword haggregate ⟨name, pos, _, hused⟩

private theorem takes_moreArguments (pos : Position)
    (harg : Takes ending (Spells .comparison) ts (operand ending 3 ts))
    (hmore : ∀ arg : Parsed Formula ts.length, Passed ending arg.rest →
      Takes ending SpellsMore arg.rest (moreArguments ending arg.rest)) :
    Takes ending SpellsMore (⟨.symbol .comma, pos⟩ :: ts) (moreArguments ending (⟨.symbol .comma, pos⟩ :: ts)) := by
  rw [moreArguments, if_pos rfl]
  refine takes_pass fun _ => takes_cons (harg.bind ?_)
  intro arg used _ harg hpassed
  refine (hmore arg hpassed).bind ?_
  rintro more used' - ⟨parts, rfl, hvalues, hcomma, hparts, hplain⟩ hrest
  refine takes_ok ?_ hrest
  rw [hvalues, List.append_nil]
  exact ⟨⟨.comma, pos, used, arg.value⟩ :: parts, rfl, rfl, List.forall_mem_cons.2 ⟨rfl, hcomma⟩,
    List.forall_mem_cons.2 ⟨harg.1, hparts⟩, (harg.2.append hplain).cons rfl⟩

/-- All functions of the parser take off what derives their values. -/
private theorem takes_all (ending : Ending) :
    (∀ level ts, ∀ p : Phrase, p.level = level → Takes ending (Spells p) ts (operand ending level ts)) ∧
    (∀ level left ts, ∀ p q : Phrase, p.operand? = some q → q.level = level → Passed ending ts →
      Takes ending (SpellsChain p q left) ts (chain ending level left ts)) ∧
    (∀ ts, Takes ending (Spells .factor) ts (factor ending ts)) ∧
    (∀ aggregate ts, Passed ending ts →
      Takes ending (SpellsArguments aggregate) ts (arguments ending aggregate ts)) ∧
    (∀ ts, Passed ending ts → Takes ending SpellsMore ts (moreArguments ending ts)) := by
  apply operand.mutual_induct ending
  -- operands
  · intro ts ih p hp
    obtain rfl : p = .factor := by cases p <;> first | rfl | cases hp
    rw [operand]
    exact ih
  · intro ts level ihLeft ihChain p hp
    obtain ⟨q, hq, hlevel⟩ := Phrase.exists_operand hp
    exact takes_operand hq (ihLeft q hlevel) fun left => ihChain left p q hq hlevel
  -- chains of operators
  · intro level left p q hq hlevel hpassed
    rw [chain]
    exact takes_ok (spellsChain_nil p q left) hpassed
  · intro level left t rest s hk op hop hprecedence ihRight ihChain p q hq hlevel hpassed
    obtain ⟨kind, pos⟩ := t
    cases hk
    exact takes_chain hop hprecedence hq hlevel pos (ihRight q hlevel) fun right => ihChain right p q hq hlevel
  · intro level left t rest s hk op hop hprecedence p q hq hlevel hpassed
    rw [chain_of_symbol hk (by simp [hop, hprecedence])]
    exact takes_ok (spellsChain_nil p q left) hpassed
  · intro level left t rest s hk hop p q hq hlevel hpassed
    rw [chain_of_symbol hk (by simp [hop])]
    exact takes_ok (spellsChain_nil p q left) hpassed
  · intro level left t rest hk p q hq hlevel hpassed
    rw [chain_of_no_symbol hk]
    exact takes_ok (spellsChain_nil p q left) hpassed
  -- factors
  · rw [factor]
    exact takes_error _
  · rintro ⟨kind, pos⟩ rest n ⟨⟩
    rw [factor]
    exact takes_pass fun hpassed => takes_cons (takes_ok ⟨.number pos n, plain_singleton rfl⟩ hpassed)
  · rintro ⟨kind, pos⟩ rest text ⟨⟩
    rw [factor]
    exact takes_pass fun hpassed => takes_cons (takes_ok ⟨.string pos text, plain_singleton rfl⟩ hpassed)
  · rintro ⟨kind, pos⟩ name ⟨⟩
    rw [factor]
    exact takes_pass fun hpassed => takes_cons (takes_ok ⟨.word pos name, plain_singleton rfl⟩ hpassed)
  · rintro ⟨kind, pos⟩ name ⟨⟩ ⟨nextKind, opening⟩ rest ⟨⟩ ih
    exact takes_call pos opening ih
  · rintro ⟨kind, pos⟩ name ⟨⟩ ⟨nextKind, dot⟩ rest _ ⟨hname, hdot⟩
    cases hdot
    exact takes_reference pos dot hname
  · rintro ⟨kind, pos⟩ name ⟨⟩ next rest hparen hdot
    rw [factor_of_word rfl hparen hdot]
    exact takes_cons (takes_ok ⟨.word pos name, plain_singleton rfl⟩ passed_cons)
  · rintro ⟨kind, pos⟩ rest ⟨⟩ ih
    exact takes_negate pos ih
  · intro t rest hk
    rw [factor, hk]
    exact takes_error _
  · rintro ⟨kind, opening⟩ rest ⟨⟩ ih
    exact takes_group opening (ih .comparison rfl)
  · intro t rest hnumber hstring hword hminus hplus hparen
    rw [factor_of_other hnumber hstring hword hminus hplus hparen]
    exact takes_error _
  -- arguments
  · intro aggregate ts hparen hpassed
    unfold arguments
    rw [if_pos hparen]
    exact takes_ok (spellsArguments_nil aggregate) hpassed
  · intro name pos rest hparen ih _
    exact takes_pathArguments name pos hparen ih
  · intro aggregate ts hword hparen ihFirst ihMore _
    refine takes_plainArguments ?_ hparen (ihFirst .comparison rfl) ihMore
    rintro rfl ⟨name, pos, rest, rfl⟩
    exact hword name pos rest rfl rfl
  · intro hpassed
    rw [moreArguments]
    exact takes_ok spellsMore_nil hpassed
  · rintro ⟨kind, pos⟩ rest ⟨⟩ ihArg ihMore _
    exact takes_moreArguments pos (ihArg .comparison rfl) ihMore
  · intro t rest hk hpassed
    rw [moreArguments, if_neg hk]
    exact takes_ok spellsMore_nil hpassed

end Sound

/-- A formula is read off all tokens of a run exactly if they derive it and the run ends well. -/
theorem operand_iff_derives {ending : Ending} {ts : List Token} {e : Formula} :
    Gives (operand ending 3 ts) e [] ↔ Derives .comparison ts e ∧ NoOperatorPairs ts ∧ ending.error? = none := by
  constructor
  · rintro ⟨h, hoperand⟩
    obtain ⟨used, hused, hspells, hpassed⟩ := (takes_all ending).1 3 ts .comparison rfl _ hoperand
    rw [List.append_nil] at hused
    cases hused
    exact ⟨hspells.1, hspells.2.pairs, hpassed rfl⟩
  · rintro ⟨hderives, hpairs, hending⟩
    have hgives := follows_of_derives hending hderives hpairs [] (Phrase.stops_nil _)
    rwa [List.append_nil] at hgives

end Parser

/-- A text spells what is read off all of its tokens. -/
theorem Formula.parse_eq_ok_iff {s : String} {e : Formula} :
    Formula.parse s = .ok e ↔
      Parser.Gives (Parser.operand (Run.ofString s).ending 3 (Run.ofString s).tokens) e [] := by
  have hparser : ∀ p : Parser, p.parse.1 = .ok e ↔ Parser.Gives (Parser.operand p.ending 3 p.tokens) e [] := by
    intro p
    unfold Parser.parse
    constructor
    · intro h
      split at h
      · cases h
      · cases h
      · rename_i r hr
        obtain ⟨value, rest, hlt⟩ := r
        split at h
        · rename_i hrest
          cases hrest
          cases h
          exact ⟨hlt, hr⟩
        · cases h
    · rintro ⟨hlt, hr⟩
      rw [hr]
  unfold Formula.parse Parser.ofString
  obtain ⟨tokens, ending⟩ := Run.ofString s
  dsimp only
  cases tokens with
  | nil =>
    -- nothing is read off no tokens, whether or not the text is refused before
    cases ending.error? with
    | none => exact hparser ⟨[], ending⟩
    | some error => exact ⟨by rintro ⟨⟩, fun h => absurd h.1 (Nat.not_lt_zero _)⟩
  | cons t tokens => exact hparser ⟨t :: tokens, ending⟩

private theorem tokenize_eq_ok_iff {s : String} {ts : List Token} {pos : Position} :
    tokenize s = .ok (ts ++ [⟨.eof, pos⟩]) ↔ (Run.ofString s).tokens = ts ∧
      (Run.ofString s).ending = .closed pos := by
  unfold tokenize Run.tokens?
  constructor
  · intro h
    split at h
    · rename_i p hclosed
      obtain ⟨htokens, heof⟩ := List.append_inj' (Except.ok.inj h) rfl
      cases heof
      exact ⟨htokens, hclosed⟩
    · cases h
    · cases h
  · rintro ⟨htokens, hclosed⟩
    rw [hclosed, htokens]

/-- A text spells a formula exactly if it has tokens that derive the formula, with no operator right after another
one. Apart from places, tokens derive at most one formula. -/
theorem Formula.parse_iff_derives :
    (∀ s e, Formula.parse s = .ok e ↔
      ∃ ts pos, tokenize s = .ok (ts ++ [⟨.eof, pos⟩]) ∧ Derives .comparison ts e ∧ NoOperatorPairs ts) ∧
    ∀ ts ts' e e', Derives .comparison ts e → Derives .comparison ts' e' → ts.map (·.kind) = ts'.map (·.kind) →
      e.unplaced = e'.unplaced := by
  refine ⟨?_, fun ts ts' e e' h h' => h.unplaced_eq h'⟩
  intro s e
  rw [Formula.parse_eq_ok_iff, Parser.operand_iff_derives]
  constructor
  · rintro ⟨hderives, hpairs, hending⟩
    cases hclosed : (Run.ofString s).ending with
    | closed pos => exact ⟨_, pos, tokenize_eq_ok_iff.2 ⟨rfl, hclosed⟩, hderives, hpairs⟩
    | stuck error | broken error pos =>
      rw [hclosed] at hending
      cases hending
  · rintro ⟨ts, pos, htokens, hderives, hpairs⟩
    obtain ⟨rfl, hclosed⟩ := tokenize_eq_ok_iff.1 htokens
    exact ⟨hderives, hpairs, by rw [hclosed]; rfl⟩

theorem Formula.parse_iff_derives_spaced :
    ∃ e e', Formula.parse "1-2-SUM_AGG(orders.lines, x_rel.y_rel.z*2)" = .ok e ∧
      Formula.parse " 1 - 2 -\n sum_agg( Orders . Lines, X_REL.Y_Rel.Z * 2.0 )" = .ok e' ∧
      e.unplaced = e'.unplaced := by
  obtain ⟨e, he⟩ := exists_of_isOk (by decide +kernel :
    (Formula.parse "1-2-SUM_AGG(orders.lines, x_rel.y_rel.z*2)").isOk = true)
  obtain ⟨e', he'⟩ := exists_of_isOk (by decide +kernel :
    (Formula.parse " 1 - 2 -\n sum_agg( Orders . Lines, X_REL.Y_Rel.Z * 2.0 )").isOk = true)
  obtain ⟨ts, pos, htokens, hderives, -⟩ := (Formula.parse_iff_derives.1 _ _).1 he
  obtain ⟨ts', pos', htokens', hderives', -⟩ := (Formula.parse_iff_derives.1 _ _).1 he'
  have hkinds : (tokenize "1-2-SUM_AGG(orders.lines, x_rel.y_rel.z*2)").map (List.map Token.kind) =
      (tokenize " 1 - 2 -\n sum_agg( Orders . Lines, X_REL.Y_Rel.Z * 2.0 )").map (List.map Token.kind) := by
    decide +kernel
  rw [htokens, htokens'] at hkinds
  have hsame := Except.ok.inj hkinds
  rw [List.map_append, List.map_append] at hsame
  exact ⟨e, e', he, he', Formula.parse_iff_derives.2 ts ts' e e' hderives hderives' (List.append_cancel_right hsame)⟩

end FormulaQuery
