import FormulaQuery.AggregateFunction
import FormulaQuery.Calendar
import FormulaQuery.Formula
import Mathlib.Data.List.Basic

/-!
# The grammar of formulas

Which token lists spell which formulas, as a grammar:

    comparison     := additive ((= | != | <> | < | > | <= | >=) additive)*
    additive       := multiplicative ((+ | - | &) multiplicative)*
    multiplicative := factor ((* | /) factor)*
    factor         := - factor | NUMBER | STRING | WORD | ( comparison ) | reference | call

Operators of one kind associate to the left. The grammar is unambiguous, even without the rule that no operator may
follow another one: what tokens derive is known up to the places of its nodes (`Derives.unplaced_eq`). The argument
compares two derivations from left to right, where what follows a phrase cannot continue it (`Phrase.Stops`).
-/

namespace FormulaQuery

/-! ### Phrases -/

/-- The phrases that are formulas, from the loosest on. -/
inductive Phrase where
  | comparison | additive | multiplicative | factor
deriving DecidableEq, Repr

namespace Phrase

/-- The operators of a phrase and their symbols. -/
def operators : Phrase → List (Symbol × BinaryOperator)
  | comparison =>
    [(.equal, .equal), (.notEqual, .notEqual), (.lessGreater, .notEqual), (.less, .less), (.greater, .greater),
      (.lessEqual, .lessEqual), (.greaterEqual, .greaterEqual)]
  | additive => [(.plus, .add), (.minus, .subtract), (.ampersand, .concat)]
  | multiplicative => [(.star, .multiply), (.slash, .divide)]
  | factor => []

/-- The phrase on both sides of these operators. -/
def operand? : Phrase → Option Phrase
  | comparison => some additive
  | additive => some multiplicative
  | multiplicative => some factor
  | factor => none

/-- The precedence of these operators. -/
def level : Phrase → Nat
  | comparison => 3
  | additive => 2
  | multiplicative => 1
  | factor => 0

variable {p q : Phrase} {s : Symbol} {op : BinaryOperator}

theorem level_operand (h : p.operand? = some q) : p.level = q.level + 1 := by
  cases p <;> cases h <;> rfl

theorem exists_operand {n : Nat} (h : p.level = n + 1) : ∃ q, p.operand? = some q ∧ q.level = n := by
  cases p with
  | comparison => exact ⟨additive, rfl, Nat.succ.inj h⟩
  | additive => exact ⟨multiplicative, rfl, Nat.succ.inj h⟩
  | multiplicative => exact ⟨factor, rfl, Nat.succ.inj h⟩
  | factor => cases h

theorem mem_operators : (s, op) ∈ p.operators ↔ BinaryOperator.ofSymbol? s = some op ∧ op.precedence = p.level := by
  constructor
  · have hall : ∀ e ∈ p.operators, BinaryOperator.ofSymbol? e.1 = some e.2 ∧ e.2.precedence = p.level := by
      cases p <;> decide
    exact hall (s, op)
  · rintro ⟨hop, hlevel⟩
    cases s <;> cases hop <;> cases p <;> revert hlevel <;> decide

end Phrase

/-- A phrase and the symbol right before it, an operator or a comma. -/
structure Part where
  symbol : Symbol
  pos : Position
  tokens : List Token
  value : Formula

/-- The symbol of a part and its phrase. -/
def Part.all (a : Part) : List Token := ⟨.symbol a.symbol, a.pos⟩ :: a.tokens

/-- An operator and its right operand. -/
structure Operation extends Part where
  op : BinaryOperator

/-- The operation on its left operand, at whose place it stands. -/
def Operation.apply (left : Formula) (o : Operation) : Formula := .binary left.pos o.op left o.value

/-- The end of a reference after some links: more links, and the name of a field. -/
inductive Reference : List Token → List String → String → Prop
  | field (pos : Position) (name : String) : Reference [⟨.word name, pos⟩] [] name
  | link (pos dot : Position) {name field : String} {ts : List Token} {chain : List String}
    (hname : Formula.isRelationName name = true) (h : Reference ts chain field) :
    Reference (⟨.word name, pos⟩ :: ⟨.symbol .dot, dot⟩ :: ts) (name :: chain) field

/-- The end of a path after its first segment. -/
inductive PathTail : List Token → List String → Prop
  | nil : PathTail [] []
  | cons (dot pos : Position) (name : String) {ts : List Token} {names : List String} (h : PathTail ts names) :
    PathTail (⟨.symbol .dot, dot⟩ :: ⟨.word name, pos⟩ :: ts) (name :: names)

/-- What a call of a function stands for: a date if it is `DATE` of one string, which then has to be one. -/
inductive CallValue (pos : Position) : String → List Formula → Formula → Prop
  | date (stringPos : Position) {text : String} (h : Calendar.isDate text.toList = true) :
    CallValue pos "DATE" [.string stringPos text] (.date pos text)
  | call {name : String} {args : List Formula} (h : name = "DATE" → ∀ p text, args ≠ [.string p text]) :
    CallValue pos name args (.call pos name args)

/-- The first token is a word. -/
def StartsWithWord (ts : List Token) : Prop := ∃ name pos rest, ts = ⟨.word name, pos⟩ :: rest

/-- The formulas that tokens spell as a phrase. -/
inductive Derives : Phrase → List Token → Formula → Prop
  /-- Operands with the operators of the phrase between them. -/
  | chain {p q : Phrase} {ts : List Token} {left : Formula} {ops : List Operation} (hq : p.operand? = some q)
    (hleft : Derives q ts left) (hops : ∀ o ∈ ops, (o.symbol, o.op) ∈ p.operators)
    (hright : ∀ o ∈ ops, Derives q o.tokens o.value) :
    Derives p (ts ++ (ops.map (·.toPart)).flatMap Part.all) (ops.foldl Operation.apply left)
  | number (pos : Position) (n : Binary64) : Derives .factor [⟨.number n, pos⟩] (.number pos n)
  | string (pos : Position) (text : String) : Derives .factor [⟨.string text, pos⟩] (.string pos text)
  /-- A truth value, `NULL` or a column. -/
  | word (pos : Position) (name : String) : Derives .factor [⟨.word name, pos⟩] (.ofWord pos name)
  | negate (pos : Position) {ts : List Token} {e : Formula} (h : Derives .factor ts e) :
    Derives .factor (⟨.symbol .minus, pos⟩ :: ts) (.negate pos e)
  | group (opening closing : Position) {ts : List Token} {e : Formula} (h : Derives .comparison ts e) :
    Derives .factor (⟨.symbol .leftParen, opening⟩ :: (ts ++ [⟨.symbol .rightParen, closing⟩])) e
  | related (pos dot : Position) {name field : String} {ts : List Token} {chain : List String}
    (hname : Formula.isRelationName name = true) (h : Reference ts chain field) :
    Derives .factor (⟨.word name, pos⟩ :: ⟨.symbol .dot, dot⟩ :: ts) (.related pos (name :: chain) (some field))
  | emptyCall (pos opening closing : Position) (name : String) :
    Derives .factor [⟨.word name, pos⟩, ⟨.symbol .leftParen, opening⟩, ⟨.symbol .rightParen, closing⟩]
      (.call pos name [])
  /-- A call with arguments. If an aggregate is called, the first argument does not start with a word. -/
  | call (pos opening closing : Position) {name : String} {ts : List Token} {first e : Formula} {more : List Part}
    (hplain : (AggregateFunction.ofName? name).isSome = true → ¬ StartsWithWord ts)
    (hfirst : Derives .comparison ts first) (hcomma : ∀ a ∈ more, a.symbol = .comma)
    (hmore : ∀ a ∈ more, Derives .comparison a.tokens a.value)
    (he : CallValue pos name (first :: more.map (·.value)) e) :
    Derives .factor (⟨.word name, pos⟩ :: ⟨.symbol .leftParen, opening⟩ ::
      (ts ++ (more.flatMap Part.all ++ [⟨.symbol .rightParen, closing⟩]))) e
  /-- A call of an aggregate on a path. -/
  | aggregate (pos opening closing pathPos : Position) {name segment : String} {ts : List Token}
    {segments : List String} {more : List Part} (hname : (AggregateFunction.ofName? name).isSome = true)
    (hpath : PathTail ts segments) (hcomma : ∀ a ∈ more, a.symbol = .comma)
    (hmore : ∀ a ∈ more, Derives .comparison a.tokens a.value) :
    Derives .factor (⟨.word name, pos⟩ :: ⟨.symbol .leftParen, opening⟩ :: ⟨.word segment, pathPos⟩ ::
      (ts ++ (more.flatMap Part.all ++ [⟨.symbol .rightParen, closing⟩])))
      (.call pos name (.path pathPos (segment :: segments) :: more.map (·.value)))

/-- No operator stands right after an operator. -/
def NoOperatorPairs (ts : List Token) : Prop :=
  ts.IsChain fun a b => ¬ (a.kind.isOperator = true ∧ b.kind.isOperator = true)

/-! ### What follows a phrase -/

/-- A token that ends a phrase: a closing parenthesis, a comma or an operator that binds less tightly. -/
inductive Phrase.Ends (p : Phrase) : Token.Kind → Prop
  | rightParen : Ends p (.symbol .rightParen)
  | comma : Ends p (.symbol .comma)
  | operator {s : Symbol} {op : BinaryOperator} (h : BinaryOperator.ofSymbol? s = some op)
    (hlevel : p.level < op.precedence) : Ends p (.symbol s)

/-- Nothing follows that a phrase could go on with. -/
def Phrase.Stops (p : Phrase) (rest : List Token) : Prop := ∀ t ∈ rest.head?, p.Ends t.kind

namespace Phrase

variable {p q : Phrase} {s : Symbol} {op : BinaryOperator} {pos : Position} {rest : List Token}

theorem stops_nil (p : Phrase) : p.Stops [] := nofun

theorem stops_cons {t : Token} : p.Stops (t :: rest) ↔ p.Ends t.kind := by simp [Stops]

theorem stops_rightParen (p : Phrase) (pos : Position) (rest : List Token) :
    p.Stops (⟨.symbol .rightParen, pos⟩ :: rest) := stops_cons.2 .rightParen

private theorem stops_comma (p : Phrase) (pos : Position) (rest : List Token) :
    p.Stops (⟨.symbol .comma, pos⟩ :: rest) :=
  stops_cons.2 .comma

/-- An operator of a phrase ends the operand before it. -/
theorem stops_operator (hq : p.operand? = some q) (h : (s, op) ∈ p.operators) :
    q.Stops (⟨.symbol s, pos⟩ :: rest) := by
  obtain ⟨hop, hlevel⟩ := mem_operators.1 h
  have hp := level_operand hq
  exact stops_cons.2 (.operator hop (by omega))

/-- An operator of a phrase does not end the phrase. -/
theorem not_stops_operator (h : (s, op) ∈ p.operators) : ¬ p.Stops (⟨.symbol s, pos⟩ :: rest) := by
  obtain ⟨hop, hlevel⟩ := mem_operators.1 h
  intro hstops
  cases stops_cons.1 hstops with
  | rightParen => cases hop
  | comma => cases hop
  | operator hop' hlevel' =>
    rw [hop] at hop'
    cases hop'
    omega

private theorem Stops.operand (h : p.Stops rest) (hq : p.operand? = some q) : q.Stops rest := by
  have hp := level_operand hq
  rintro ⟨kind, pos⟩ ht
  have hends : p.Ends kind := h _ ht
  cases hends with
  | rightParen => exact .rightParen
  | comma => exact .comma
  | operator hop hlevel => exact .operator hop (by omega)

/-- Neither an opening parenthesis nor a point follows a phrase. -/
theorem Stops.head_ne (h : p.Stops rest) (hs : s = .leftParen ∨ s = .dot) (pos : Position) (ts : List Token) :
    rest ≠ ⟨.symbol s, pos⟩ :: ts := by
  rintro rfl
  rcases hs with rfl | rfl
  · cases stops_cons.1 h with
    | operator hop => cases hop
  · cases stops_cons.1 h with
    | operator hop => cases hop

/-- Symbols of the operators of a phrase. -/
def IsOperator (p : Phrase) (s : Symbol) : Prop := ∃ op, (s, op) ∈ p.operators

theorem isOperator_parts {ops : List Operation} (h : ∀ o ∈ ops, (o.symbol, o.op) ∈ p.operators) :
    ∀ a ∈ ops.map (·.toPart), p.IsOperator a.symbol :=
  List.forall_mem_map.2 fun o ho => ⟨o.op, h o ho⟩

/-- Operators and their right operands may follow an operand. -/
theorem Stops.operations (h : p.Stops rest) (hq : p.operand? = some q) {as : List Part}
    (has : ∀ a ∈ as, p.IsOperator a.symbol) : q.Stops (as.flatMap Part.all ++ rest) := by
  cases as with
  | nil => exact h.operand hq
  | cons a as =>
    obtain ⟨op, hop⟩ := has a List.mem_cons_self
    exact stops_operator hq hop

/-- Further arguments and the closing parenthesis may follow an argument. -/
theorem stops_arguments (p : Phrase) {more : List Part} (hcomma : ∀ a ∈ more, a.symbol = .comma) (closing : Position)
    (rest : List Token) : p.Stops (more.flatMap Part.all ++ ⟨.symbol .rightParen, closing⟩ :: rest) := by
  cases more with
  | nil => exact p.stops_rightParen closing rest
  | cons a more =>
    rw [List.flatMap_cons, Part.all, hcomma a List.mem_cons_self]
    exact p.stops_comma _ _

end Phrase

namespace Derives

variable {p q : Phrase} {ts ts' : List Token} {e e' : Formula}

/-- A phrase has a first token, which is no closing parenthesis. -/
theorem exists_cons (h : Derives p ts e) : ∃ t rest, ts = t :: rest ∧ t.kind ≠ .symbol .rightParen := by
  induction h with
  | chain _ _ _ _ ih =>
    obtain ⟨t, rest, rfl, ht⟩ := ih
    exact ⟨t, _, rfl, ht⟩
  | number | string | word | negate | group | related | emptyCall | call | aggregate => exact ⟨_, _, rfl, nofun⟩

/-! ### Two derivations of the same tokens -/

/-- Of a derivation, that no other one starts off the same tokens with another phrase or value. -/
def Determined (p : Phrase) (ts : List Token) (e : Formula) : Prop :=
  ∀ {ts' e' r r'}, Derives p ts' e' → p.Stops r → p.Stops r' → ts ++ r = ts' ++ r' → ts = ts' ∧ e = e'

/-- Parts are told apart from left to right, where `sep` are the symbols before them, which end their phrases. -/
private theorem parts_eq (q : Phrase) (sep : Symbol → Prop) {r r' : List Token}
    (hstops : ∀ cs : List Part, (∀ c ∈ cs, sep c.symbol) →
      q.Stops (cs.flatMap Part.all ++ r) ∧ q.Stops (cs.flatMap Part.all ++ r'))
    (hr : ∀ s, sep s → ∀ pos rest, r ≠ ⟨.symbol s, pos⟩ :: rest ∧ r' ≠ ⟨.symbol s, pos⟩ :: rest)
    {as bs : List Part} (has : ∀ a ∈ as, sep a.symbol) (hbs : ∀ b ∈ bs, sep b.symbol)
    (hdet : ∀ a ∈ as, Determined q a.tokens a.value) (hder : ∀ b ∈ bs, Derives q b.tokens b.value)
    (h : as.flatMap Part.all ++ r = bs.flatMap Part.all ++ r') : as = bs ∧ r = r' := by
  induction as generalizing bs with
  | nil =>
    cases bs with
    | nil => exact ⟨rfl, h⟩
    | cons b bs => exact absurd h (hr _ (hbs b List.mem_cons_self) _ _).1
  | cons a as ih =>
    obtain ⟨ha, has⟩ := List.forall_mem_cons.1 has
    obtain ⟨hdeta, hdet⟩ := List.forall_mem_cons.1 hdet
    cases bs with
    | nil => exact absurd h.symm (hr _ ha _ _).2
    | cons b bs =>
      obtain ⟨hb, hbs⟩ := List.forall_mem_cons.1 hbs
      obtain ⟨hderb, hder⟩ := List.forall_mem_cons.1 hder
      rw [List.flatMap_cons, List.flatMap_cons, List.append_assoc, List.append_assoc] at h
      simp only [Part.all, List.cons_append, List.cons.injEq, Token.mk.injEq, Token.Kind.symbol.injEq] at h
      obtain ⟨⟨hsymbol, hpos⟩, h⟩ := h
      obtain ⟨htokens, hvalue⟩ := hdeta hderb (hstops as has).1 (hstops bs hbs).2 h
      rw [htokens] at h
      obtain ⟨rfl, hrest⟩ := ih has hbs hdet hder (List.append_cancel_left h)
      obtain ⟨symbol, pos, tokens, value⟩ := a
      cases b
      cases hsymbol
      cases hpos
      cases htokens
      cases hvalue
      exact ⟨rfl, hrest⟩

/-- The arguments after the first one, up to the closing parenthesis. -/
private theorem more_eq {as bs : List Part} {closing closing' : Position} {r r' : List Token}
    (has : ∀ a ∈ as, a.symbol = .comma) (hbs : ∀ b ∈ bs, b.symbol = .comma)
    (hdet : ∀ a ∈ as, Determined .comparison a.tokens a.value) (hder : ∀ b ∈ bs, Derives .comparison b.tokens b.value)
    (h : as.flatMap Part.all ++ ⟨.symbol .rightParen, closing⟩ :: r =
      bs.flatMap Part.all ++ ⟨.symbol .rightParen, closing'⟩ :: r') : as = bs ∧ closing = closing' := by
  obtain ⟨rfl, hrest⟩ : as = bs ∧ _ := by
    refine parts_eq .comparison (· = .comma) ?_ ?_ has hbs hdet hder h
    · exact fun cs hcs => ⟨Phrase.stops_arguments _ hcs _ _, Phrase.stops_arguments _ hcs _ _⟩
    · rintro s rfl pos rest
      exact ⟨nofun, nofun⟩
  cases hrest
  exact ⟨rfl, rfl⟩

private theorem callValue_unique {pos : Position} {name : String} {args : List Formula}
    (h : CallValue pos name args e) (h' : CallValue pos name args e') : e = e' := by
  cases h with
  | date p hd =>
    cases h' with
    | date => rfl
    | call hne => exact absurd rfl (hne rfl _ _)
  | call hne =>
    cases h' with
    | date p hd => exact absurd rfl (hne rfl _ _)
    | call => rfl

private theorem reference_unique {chain chain' : List String} {field field' : String} (h : Reference ts chain field)
    (h' : Reference ts' chain' field') {r r' : List Token} (hr : Phrase.factor.Stops r) (hr' : Phrase.factor.Stops r')
    (heq : ts ++ r = ts' ++ r') : ts = ts' ∧ chain = chain' ∧ field = field' := by
  induction h generalizing ts' chain' field' with
  | field pos name =>
    cases h' with
    | field =>
      cases heq
      exact ⟨rfl, rfl, rfl⟩
    | link pos' dot hname h' =>
      simp only [List.cons_append, List.nil_append, List.cons.injEq] at heq
      exact absurd heq.2 (hr.head_ne (Or.inr rfl) _ _)
  | link pos dot hname _ ih =>
    cases h' with
    | field =>
      simp only [List.cons_append, List.nil_append, List.cons.injEq] at heq
      exact absurd heq.2.symm (hr'.head_ne (Or.inr rfl) _ _)
    | link pos' dot' hname' h' =>
      simp only [List.cons_append, List.cons.injEq, Token.mk.injEq, Token.Kind.word.injEq, true_and] at heq
      obtain ⟨⟨rfl, rfl⟩, rfl, heq⟩ := heq
      obtain ⟨rfl, rfl, rfl⟩ := ih h' heq
      exact ⟨rfl, rfl, rfl⟩

private theorem pathTail_unique {segments segments' : List String} (h : PathTail ts segments)
    (h' : PathTail ts' segments') {r r' : List Token} (hr : Phrase.factor.Stops r) (hr' : Phrase.factor.Stops r')
    (heq : ts ++ r = ts' ++ r') : ts = ts' ∧ segments = segments' := by
  induction h generalizing ts' segments' with
  | nil =>
    cases h' with
    | nil => exact ⟨rfl, rfl⟩
    | cons dot pos name h' => exact absurd heq (hr.head_ne (Or.inr rfl) _ _)
  | cons dot pos name _ ih =>
    cases h' with
    | nil => exact absurd heq.symm (hr'.head_ne (Or.inr rfl) _ _)
    | cons dot' pos' name' h' =>
      simp only [List.cons_append, List.cons.injEq, Token.mk.injEq, Token.Kind.word.injEq, true_and] at heq
      obtain ⟨rfl, ⟨rfl, rfl⟩, heq⟩ := heq
      obtain ⟨rfl, rfl⟩ := ih h' heq
      exact ⟨rfl, rfl⟩

/-- No phrase is a single token if a parenthesis or a point follows this token. -/
private theorem single_ne {t t' : Token} {s : Symbol} {r : List Token} (hr : Phrase.factor.Stops r)
    (hs : s = .leftParen ∨ s = .dot) (pos : Position) (rest : List Token) :
    t :: r ≠ t' :: ⟨.symbol s, pos⟩ :: rest := by
  rintro ⟨⟩
  exact hr.head_ne hs pos rest rfl

/-- A first argument does not start with the closing parenthesis. -/
private theorem append_ne_rightParen (h : Derives p ts e) (more rest : List Token) (pos : Position) :
    ts ++ more ≠ ⟨.symbol .rightParen, pos⟩ :: rest := by
  obtain ⟨t, ts, rfl, ht⟩ := h.exists_cons
  rintro ⟨⟩
  exact ht rfl

theorem startsWithWord_of_append (h : Derives p ts e) {more rest : List Token} {name : String} {pos : Position}
    (heq : ts ++ more = ⟨.word name, pos⟩ :: rest) : StartsWithWord ts := by
  obtain ⟨t, ts, rfl, -⟩ := h.exists_cons
  cases heq
  exact ⟨name, pos, ts, rfl⟩

/-- Chains of operators are told apart from left to right. -/
private theorem operations_eq {ops ops' : List Operation} {r r' : List Token} (hq : p.operand? = some q)
    (hops : ∀ o ∈ ops, (o.symbol, o.op) ∈ p.operators) (hops' : ∀ o ∈ ops', (o.symbol, o.op) ∈ p.operators)
    (hdet : ∀ o ∈ ops, Determined q o.tokens o.value) (hder : ∀ o ∈ ops', Derives q o.tokens o.value)
    (hr : p.Stops r) (hr' : p.Stops r')
    (h : (ops.map (·.toPart)).flatMap Part.all ++ r = (ops'.map (·.toPart)).flatMap Part.all ++ r') : ops = ops' := by
  have hparts : ops.map (·.toPart) = ops'.map (·.toPart) := by
    refine (parts_eq q p.IsOperator ?_ ?_ (Phrase.isOperator_parts hops) (Phrase.isOperator_parts hops') ?_ ?_ h).1
    · exact fun as has => ⟨hr.operations hq has, hr'.operations hq has⟩
    · rintro s ⟨op, hop⟩ pos rest
      constructor
      · rintro rfl
        exact Phrase.not_stops_operator hop hr
      · rintro rfl
        exact Phrase.not_stops_operator hop hr'
    · exact List.forall_mem_map.2 hdet
    · exact List.forall_mem_map.2 hder
  -- the symbol of an operator tells which operator it is
  have hsymbols : ∀ os : List Operation, (∀ o ∈ os, (o.symbol, o.op) ∈ p.operators) →
      os.map (fun o => (o.toPart, some o.op)) =
        (os.map (·.toPart)).map fun a => (a, BinaryOperator.ofSymbol? a.symbol) := by
    intro os hos
    rw [List.map_map]
    refine List.map_congr_left ?_
    intro o ho
    exact congrArg _ (Phrase.mem_operators.1 (hos o ho)).1.symm
  have hinj : Function.Injective fun o : Operation => (o.toPart, some o.op) := by
    rintro ⟨a, op⟩ ⟨b, op'⟩ heq
    cases heq
    rfl
  refine List.map_injective_iff.2 hinj ?_
  rw [hsymbols ops hops, hsymbols ops' hops', hparts]

/-- What a phrase derives is determined by the tokens from its start on. -/
theorem determined (h : Derives p ts e) : Determined p ts e := by
  induction h with
  | @chain p q ts left ops hq hleft hops hright ihLeft ihRight =>
    intro ts' e' r r' h' hr hr' heq
    cases h' with
    | @chain _ q' ts' left' ops' hq' hleft' hops' hright' =>
      cases hq.symm.trans hq'
      rw [List.append_assoc, List.append_assoc] at heq
      obtain ⟨rfl, rfl⟩ := ihLeft hleft' (hr.operations hq (Phrase.isOperator_parts hops))
        (hr'.operations hq (Phrase.isOperator_parts hops')) heq
      obtain rfl := operations_eq hq hops hops' ihRight hright' hr hr' (List.append_cancel_left heq)
      exact ⟨rfl, rfl⟩
    | number | string | word | negate | group | related | emptyCall | call | aggregate => cases hq
  | number pos n =>
    intro ts' e' r r' h' hr hr' heq
    cases h' with
    | number =>
      cases heq
      exact ⟨rfl, rfl⟩
    | chain hq => cases hq
    | string | word | negate | group | related | emptyCall | call | aggregate => cases heq
  | string pos text =>
    intro ts' e' r r' h' hr hr' heq
    cases h' with
    | string =>
      cases heq
      exact ⟨rfl, rfl⟩
    | chain hq => cases hq
    | number | word | negate | group | related | emptyCall | call | aggregate => cases heq
  | word pos name =>
    intro ts' e' r r' h' hr hr' heq
    cases h' with
    | word =>
      cases heq
      exact ⟨rfl, rfl⟩
    | chain hq => cases hq
    | number | string | negate | group => cases heq
    | related => exact absurd heq (single_ne hr (Or.inr rfl) _ _)
    | emptyCall | call | aggregate => exact absurd heq (single_ne hr (Or.inl rfl) _ _)
  | negate pos _ ih =>
    intro ts' e' r r' h' hr hr' heq
    cases h' with
    | negate pos' h' =>
      simp only [List.cons_append, List.cons.injEq, Token.mk.injEq, true_and] at heq
      obtain ⟨rfl, rfl⟩ := ih h' hr hr' heq.2
      exact ⟨by rw [heq.1], by rw [heq.1]⟩
    | chain hq => cases hq
    | number | string | word | group | related | emptyCall | call | aggregate => cases heq
  | group opening closing _ ih =>
    intro ts' e' r r' h' hr hr' heq
    cases h' with
    | group opening' closing' h' =>
      simp only [List.cons_append, List.append_assoc, List.nil_append, List.cons.injEq, Token.mk.injEq,
        true_and] at heq
      obtain ⟨rfl, rfl⟩ := ih h' (Phrase.stops_rightParen _ _ _) (Phrase.stops_rightParen _ _ _) heq.2
      cases List.append_cancel_left heq.2
      exact ⟨by rw [heq.1], rfl⟩
    | chain hq => cases hq
    | number | string | word | negate | related | emptyCall | call | aggregate => cases heq
  | related pos dot hname h =>
    intro ts' e' r r' h' hr hr' heq
    cases h' with
    | related pos' dot' hname' h' =>
      simp only [List.cons_append, List.cons.injEq, Token.mk.injEq, Token.Kind.word.injEq, true_and] at heq
      obtain ⟨⟨rfl, rfl⟩, rfl, heq⟩ := heq
      obtain ⟨rfl, rfl, rfl⟩ := reference_unique h h' hr hr' heq
      exact ⟨rfl, rfl⟩
    | chain hq => cases hq
    | word => exact absurd heq.symm (single_ne hr' (Or.inr rfl) _ _)
    | number | string | negate | group | emptyCall | call | aggregate => cases heq
  | emptyCall pos opening closing name =>
    intro ts' e' r r' h' hr hr' heq
    cases h' with
    | emptyCall =>
      cases heq
      exact ⟨rfl, rfl⟩
    | chain hq => cases hq
    | word => exact absurd heq.symm (single_ne hr' (Or.inl rfl) _ _)
    | call pos' opening' closing' hplain hfirst =>
      simp only [List.cons_append, List.append_assoc, List.nil_append, List.cons.injEq] at heq
      exact absurd heq.2.2.symm (hfirst.append_ne_rightParen _ _ _)
    | number | string | negate | group | related | aggregate => cases heq
  | call pos opening closing hplain hfirst hcomma hmore he ih ihMore =>
    intro ts' e' r r' h' hr hr' heq
    cases h' with
    | call pos' opening' closing' hplain' hfirst' hcomma' hmore' he' =>
      simp only [List.cons_append, List.append_assoc, List.nil_append, List.cons.injEq, Token.mk.injEq,
        Token.Kind.word.injEq, true_and] at heq
      obtain ⟨⟨rfl, rfl⟩, rfl, heq⟩ := heq
      obtain ⟨rfl, rfl⟩ := ih hfirst' (Phrase.stops_arguments _ hcomma _ _) (Phrase.stops_arguments _ hcomma' _ _) heq
      obtain ⟨rfl, rfl⟩ := more_eq hcomma hcomma' ihMore hmore' (List.append_cancel_left heq)
      exact ⟨rfl, callValue_unique he he'⟩
    | chain hq => cases hq
    | word => exact absurd heq.symm (single_ne hr' (Or.inl rfl) _ _)
    | emptyCall =>
      simp only [List.cons_append, List.append_assoc, List.nil_append, List.cons.injEq] at heq
      exact absurd heq.2.2 (hfirst.append_ne_rightParen _ _ _)
    | aggregate pos' opening' closing' pathPos hname =>
      simp only [List.cons_append, List.append_assoc, List.nil_append, List.cons.injEq, Token.mk.injEq,
        Token.Kind.word.injEq, true_and] at heq
      obtain ⟨⟨rfl, rfl⟩, rfl, heq⟩ := heq
      exact absurd (hfirst.startsWithWord_of_append heq) (hplain hname)
    | number | string | negate | group | related => cases heq
  | aggregate pos opening closing pathPos hname hpath hcomma hmore ihMore =>
    intro ts' e' r r' h' hr hr' heq
    cases h' with
    | aggregate pos' opening' closing' pathPos' hname' hpath' hcomma' hmore' =>
      simp only [List.cons_append, List.append_assoc, List.nil_append, List.cons.injEq, Token.mk.injEq,
        Token.Kind.word.injEq, true_and] at heq
      obtain ⟨⟨rfl, rfl⟩, rfl, ⟨rfl, rfl⟩, heq⟩ := heq
      obtain ⟨rfl, rfl⟩ := pathTail_unique hpath hpath' (Phrase.stops_arguments _ hcomma _ _)
        (Phrase.stops_arguments _ hcomma' _ _) heq
      obtain ⟨rfl, rfl⟩ := more_eq hcomma hcomma' ihMore hmore' (List.append_cancel_left heq)
      exact ⟨rfl, rfl⟩
    | chain hq => cases hq
    | word => exact absurd heq.symm (single_ne hr' (Or.inl rfl) _ _)
    | call pos' opening' closing' hplain hfirst =>
      simp only [List.cons_append, List.append_assoc, List.nil_append, List.cons.injEq, Token.mk.injEq,
        Token.Kind.word.injEq, true_and] at heq
      obtain ⟨⟨rfl, rfl⟩, rfl, heq⟩ := heq
      exact absurd (hfirst.startsWithWord_of_append heq.symm) (hplain hname)
    | number | string | negate | group | related | emptyCall => cases heq

end Derives

/-! ### Places -/

/-- A token without its place. -/
def Token.unplaced (t : Token) : Token := ⟨t.kind, .start⟩

namespace Formula

/-- A formula without the places of its nodes. -/
def unplaced : Formula → Formula
  | number _ n => .number .start n
  | string _ text => .string .start text
  | boolean _ b => .boolean .start b
  | null _ => .null .start
  | date _ text => .date .start text
  | column _ name => .column .start name
  | related _ chain field => .related .start chain field
  | path _ segments => .path .start segments
  | negate _ e => .negate .start e.unplaced
  | binary _ op l r => .binary .start op l.unplaced r.unplaced
  | call _ name args => .call .start name (args.map unplaced)

theorem pos_unplaced (f : Formula) : f.unplaced.pos = .start := by
  cases f <;> simp [unplaced, pos]

theorem unplaced_ofWord (pos : Position) (name : String) : (ofWord pos name).unplaced = ofWord .start name := by
  unfold ofWord
  split_ifs <;> rw [unplaced]

theorem exists_of_unplaced_eq_string {f : Formula} {pos : Position} {text : String}
    (h : f.unplaced = .string pos text) : ∃ pos', f = .string pos' text := by
  cases f <;> simp [unplaced] at h
  exact ⟨_, by rw [h.2]⟩

end Formula

namespace Part

def unplaced (a : Part) : Part := ⟨a.symbol, .start, a.tokens.map Token.unplaced, a.value.unplaced⟩

private theorem map_unplaced_flatMap_all (as : List Part) :
    (as.flatMap all).map Token.unplaced = (as.map unplaced).flatMap all := by
  rw [List.map_flatMap, List.flatMap_map]
  rfl

private theorem map_unplaced_values (as : List Part) :
    (as.map (·.value)).map Formula.unplaced = (as.map unplaced).map (·.value) := by
  rw [List.map_map, List.map_map]
  rfl

end Part

namespace Operation

def unplaced (o : Operation) : Operation := ⟨o.toPart.unplaced, o.op⟩

private theorem unplaced_foldl_apply (ops : List Operation) (left : Formula) :
    (ops.foldl apply left).unplaced = (ops.map unplaced).foldl apply left.unplaced := by
  induction ops generalizing left with
  | nil => rfl
  | cons o ops ih =>
    have hstep : (apply left o).unplaced = apply left.unplaced o.unplaced := by
      simp [apply, unplaced, Part.unplaced, Formula.unplaced, Formula.pos_unplaced]
    rw [List.foldl_cons, ih, hstep]
    rfl

end Operation

namespace Derives

private theorem reference_unplaced {ts : List Token} {chain : List String} {field : String}
    (h : Reference ts chain field) : Reference (ts.map Token.unplaced) chain field := by
  induction h with
  | field pos name => exact .field .start name
  | link pos dot hname _ ih => exact .link .start .start hname ih

private theorem pathTail_unplaced {ts : List Token} {segments : List String} (h : PathTail ts segments) :
    PathTail (ts.map Token.unplaced) segments := by
  induction h with
  | nil => exact .nil
  | cons dot pos name _ ih => exact .cons .start .start name ih

private theorem callValue_unplaced {pos : Position} {name : String} {args : List Formula} {e : Formula}
    (h : CallValue pos name args e) : CallValue .start name (args.map Formula.unplaced) e.unplaced := by
  cases h with
  | date p hd =>
    simp only [List.map_cons, List.map_nil, Formula.unplaced]
    exact .date .start hd
  | call hne =>
    rw [Formula.unplaced]
    refine .call ?_
    intro hname p text hargs
    obtain ⟨arg, rfl, harg⟩ := List.map_eq_singleton_iff.1 hargs
    obtain ⟨p', rfl⟩ := Formula.exists_of_unplaced_eq_string harg
    exact hne hname p' text rfl

private theorem startsWithWord_unplaced {ts : List Token} (h : StartsWithWord (ts.map Token.unplaced)) :
    StartsWithWord ts := by
  obtain ⟨name, pos, rest, h⟩ := h
  obtain ⟨⟨kind, pos'⟩, ts', rfl, ht, -⟩ := List.map_eq_cons_iff.1 h
  cases ht
  exact ⟨name, pos', ts', rfl⟩

/-- A derivation does not look at places. -/
theorem unplaced {p : Phrase} {ts : List Token} {e : Formula} (h : Derives p ts e) :
    Derives p (ts.map Token.unplaced) e.unplaced := by
  induction h with
  | @chain p q ts left ops hq _ hops _ ihLeft ihRight =>
    have hparts : ((ops.map (·.toPart)).flatMap Part.all).map Token.unplaced =
        ((ops.map Operation.unplaced).map (·.toPart)).flatMap Part.all := by
      rw [Part.map_unplaced_flatMap_all, List.map_map, List.map_map]
      rfl
    rw [List.map_append, hparts, Operation.unplaced_foldl_apply]
    exact .chain hq ihLeft (List.forall_mem_map.2 hops) (List.forall_mem_map.2 ihRight)
  | number pos n =>
    rw [Formula.unplaced]
    exact .number .start n
  | string pos text =>
    rw [Formula.unplaced]
    exact .string .start text
  | word pos name =>
    rw [Formula.unplaced_ofWord]
    exact .word .start name
  | negate pos _ ih =>
    rw [Formula.unplaced]
    exact .negate .start ih
  | group opening closing _ ih =>
    rw [List.map_cons, List.map_append]
    exact .group .start .start ih
  | related pos dot hname h =>
    rw [Formula.unplaced]
    exact .related .start .start hname (reference_unplaced h)
  | emptyCall pos opening closing name =>
    rw [Formula.unplaced]
    exact .emptyCall .start .start .start name
  | @call pos opening closing name ts first e more hplain _ hcomma _ he ih ihMore =>
    have hvalue := callValue_unplaced he
    rw [List.map_cons, Part.map_unplaced_values] at hvalue
    rw [List.map_cons, List.map_cons, List.map_append, List.map_append, Part.map_unplaced_flatMap_all]
    exact .call .start .start .start (fun hname h => hplain hname (startsWithWord_unplaced h)) ih
      (List.forall_mem_map.2 hcomma) (List.forall_mem_map.2 ihMore) hvalue
  | @aggregate pos opening closing pathPos name segment ts segments more hname hpath hcomma _ ihMore =>
    have hvalue : (Formula.call pos name (.path pathPos (segment :: segments) :: more.map (·.value))).unplaced =
        .call .start name (.path .start (segment :: segments) :: (more.map Part.unplaced).map (·.value)) := by
      simp only [Formula.unplaced, List.map_cons, Part.map_unplaced_values]
    rw [hvalue, List.map_cons, List.map_cons, List.map_cons, List.map_append, List.map_append,
      Part.map_unplaced_flatMap_all]
    exact .aggregate .start .start .start .start hname (pathTail_unplaced hpath) (List.forall_mem_map.2 hcomma)
      (List.forall_mem_map.2 ihMore)

/-- The grammar is unambiguous: tokens of the same kinds derive the same formula, apart from places. -/
theorem unplaced_eq {p : Phrase} {ts ts' : List Token} {e e' : Formula} (h : Derives p ts e) (h' : Derives p ts' e')
    (hkinds : ts.map (·.kind) = ts'.map (·.kind)) : e.unplaced = e'.unplaced := by
  have hunplaced : ∀ ts : List Token, ts.map Token.unplaced = (ts.map (·.kind)).map fun k => ⟨k, .start⟩ := by
    intro ts
    rw [List.map_map]
    rfl
  have htokens : ts.map Token.unplaced = ts'.map Token.unplaced := by rw [hunplaced, hunplaced, hkinds]
  exact (h.unplaced.determined h'.unplaced p.stops_nil p.stops_nil (by rw [htokens])).2

end Derives

end FormulaQuery
