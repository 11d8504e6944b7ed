import FormulaQuery.AggregateFunction
import FormulaQuery.Calendar
import FormulaQuery.Formula
import FormulaQuery.Formula.ParseError
import FormulaQuery.Reading
import FormulaQuery.Token.Run

/-!
# Parsing formulas

Recursive descent over the tokens of a run. Operators of one precedence associate to the left, and no operator may
follow another operator directly. Each function takes tokens off the front of a list, and its result carries a bound
on what it leaves, which is why the recursion ends.

The failure of a run is met only when the last token before it is passed. What a failed attempt leaves behind can be
parsed again (`Parser.parse`).
-/

namespace FormulaQuery

namespace Parser

/-- A value read off the front of a token list. -/
abbrev Parsed (α : Type) (n : Nat) := Reading Token α n

/-- Why parsing stopped, and the tokens that it had not passed. -/
structure Failure where
  error : ParseError
  tokens : List Token

/-- The first token, or the end of the formula. -/
def current (ending : Ending) (ts : List Token) : Token := ts.headD ⟨.eof, ending.pos⟩

/-- Moves from the token `t` on to the tokens after it, which fails if the run fails there. -/
def pass (ending : Ending) (t : Token) (rest : List Token) : Except Failure PUnit :=
  match rest, ending.error? with
  | [], some e => .error ⟨.lex e, [t]⟩
  | _, _ => .ok ()

def unexpected (ending : Ending) (expected : Expected) (ts : List Token) : Failure :=
  ⟨.unexpected expected (current ending ts), ts⟩

/-- Refuses an operator right after the operator `first`. -/
def rejectOperator (ending : Ending) (first : Token.Kind) (ts : List Token) : Except Failure PUnit :=
  let t := current ending ts
  if t.kind.isOperator then .error ⟨.consecutiveOperators first t, ts⟩ else .ok ()

/-- Takes the parenthesis that closes the one at `opened`. -/
def close (ending : Ending) (opened : Position) (expected : Expected) (ts : List Token) :
    Except Failure (Parsed PUnit (ts.length + 1)) :=
  match ts with
  | [] => .error ⟨.unclosed opened, []⟩
  | t :: rest =>
    if t.kind = .symbol .rightParen then do
      pass ending t rest
      return ⟨(), rest, Nat.lt_add_of_pos_right (Nat.succ_pos 1)⟩
    else .error (unexpected ending expected (t :: rest))

/-- The rest of a chain of relationships, from a point on. -/
def related (ending : Ending) (pos : Position) (chain : List String) (point : Token) (ts : List Token) :
    Except Failure (Parsed Formula (ts.length + 1)) :=
  match ts with
  | [] => do
    pass ending point []
    .error (unexpected ending .relatedName [])
  | [t] =>
    match t.kind with
    | .word name => do
      pass ending t []
      return ⟨.related pos chain (some name), [], by simp⟩
    | _ => .error (unexpected ending .relatedName [t])
  | t :: next :: rest =>
    match t.kind with
    | .word name =>
      if Formula.isRelationName name ∧ next.kind = .symbol .dot then do
        let r ← related ending pos (chain ++ [name]) next rest
        return ⟨r.value, r.rest, Nat.lt_add_right 2 r.lt⟩
      else .ok ⟨.related pos chain (some name), next :: rest, Nat.lt_add_of_pos_right (Nat.succ_pos 1)⟩
    | _ => .error (unexpected ending .relatedName (t :: next :: rest))

/-- The segments of a path after its first one. -/
def pathTail (ending : Ending) (ts : List Token) : Except Failure (Parsed (List String) (ts.length + 1)) :=
  match ts with
  | [] => .ok ⟨[], [], by simp⟩
  | [point] =>
    if point.kind = .symbol .dot then do
      pass ending point []
      .error (unexpected ending .pathSegment [])
    else .ok ⟨[], [point], by simp⟩
  | point :: t :: rest =>
    if point.kind = .symbol .dot then
      match t.kind with
      | .word name => do
        pass ending t rest
        let r ← pathTail ending rest
        return ⟨name :: r.value, r.rest, Nat.lt_add_right 2 r.lt⟩
      | _ => .error (unexpected ending .pathSegment (t :: rest))
    else .ok ⟨[], point :: t :: rest, by simp⟩

/-- A call of `DATE` on one string is a date literal. -/
def finishCall (pos : Position) (name : String) (args : List Formula) (rest : List Token) : Except Failure Formula :=
  match name, args with
  | "DATE", [.string p value] =>
    if Calendar.isDate value.toList then .ok (.date pos value) else .error ⟨.invalidDate value p, rest⟩
  | _, _ => .ok (.call pos name args)

mutual

/-- A formula whose operators all have precedence at most `level`. -/
def operand (ending : Ending) (level : Nat) (ts : List Token) : Except Failure (Parsed Formula ts.length) :=
  match level with
  | 0 => factor ending ts
  | level + 1 => do
    let left ← operand ending level ts
    have := left.lt
    let all ← chain ending level left.value left.rest
    return ⟨all.value, all.rest, Nat.lt_of_lt_of_le all.lt left.lt⟩
termination_by 10 * ts.length + level + 1
decreasing_by all_goals omega

/-- The operators of precedence `level + 1` after the operand `left`, with their right operands. -/
def chain (ending : Ending) (level : Nat) (left : Formula) (ts : List Token) :
    Except Failure (Parsed Formula (ts.length + 1)) :=
  match ts with
  | [] => .ok ⟨left, [], by simp⟩
  | t :: rest =>
    match t.kind with
    | .symbol s =>
      match BinaryOperator.ofSymbol? s with
      | some op =>
        if op.precedence = level + 1 then do
          pass ending t rest
          rejectOperator ending t.kind rest
          let right ← operand ending level rest
          have := right.lt
          let all ← chain ending level (.binary left.pos op left right.value) right.rest
          return ⟨all.value, all.rest, Nat.lt_add_right 2 (Nat.lt_of_lt_of_le all.lt right.lt)⟩
        else .ok ⟨left, t :: rest, by simp⟩
      | none => .ok ⟨left, t :: rest, by simp⟩
    | _ => .ok ⟨left, t :: rest, by simp⟩
termination_by 10 * ts.length + level + 2
decreasing_by all_goals (simp only [List.length_cons]; omega)

/-- A negation, a literal, a name, a call, or a formula in parentheses. -/
def factor (ending : Ending) (ts : List Token) : Except Failure (Parsed Formula ts.length) :=
  match ts with
  | [] => .error (unexpected ending .operand [])
  | t :: rest =>
    match t.kind with
    | .number n => do
      pass ending t rest
      return ⟨.number t.pos n, rest, by simp⟩
    | .string s => do
      pass ending t rest
      return ⟨.string t.pos s, rest, by simp⟩
    | .word name =>
      match rest with
      | [] => do
        pass ending t []
        return ⟨.ofWord t.pos name, [], by simp⟩
      | next :: rest' =>
        if next.kind = .symbol .leftParen then do
          pass ending next rest'
          let args ← arguments ending (AggregateFunction.ofName? name).isSome rest'
          let closed ← close ending next.pos .commaOrRightParen args.rest
          let value ← finishCall t.pos name args.value closed.rest
          return ⟨value, closed.rest, Nat.lt_succ_of_lt (Nat.lt_of_lt_of_le closed.lt args.lt)⟩
        else if Formula.isRelationName name ∧ next.kind = .symbol .dot then do
          let r ← related ending t.pos [name] next rest'
          return ⟨r.value, r.rest, Nat.lt_succ_of_lt r.lt⟩
        else .ok ⟨.ofWord t.pos name, next :: rest', by simp⟩
    | .symbol .minus => do
      pass ending t rest
      rejectOperator ending t.kind rest
      let e ← factor ending rest
      return ⟨.negate t.pos e.value, e.rest, Nat.lt_succ_of_lt e.lt⟩
    | .symbol .plus => .error ⟨.unaryPlus t.pos, t :: rest⟩
    | .symbol .leftParen => do
      pass ending t rest
      let e ← operand ending 3 rest
      let closed ← close ending t.pos .rightParen e.rest
      return ⟨e.value, closed.rest, Nat.lt_succ_of_lt (Nat.lt_of_lt_of_le closed.lt e.lt)⟩
    | _ => .error (unexpected ending .operand (t :: rest))
termination_by 10 * ts.length
decreasing_by all_goals (simp only [List.length_cons]; omega)

/-- The arguments of a call up to its closing parenthesis.  The first argument of an aggregate that begins with a word
is a path. -/
def arguments (ending : Ending) (aggregate : Bool) (ts : List Token) :
    Except Failure (Parsed (List Formula) (ts.length + 1)) :=
  if (current ending ts).kind = .symbol .rightParen then .ok ⟨[], ts, by simp⟩
  else match aggregate, ts with
    | true, ⟨.word name, pos⟩ :: rest => do
      pass ending ⟨.word name, pos⟩ rest
      let path ← pathTail ending rest
      have := path.lt
      let more ← moreArguments ending path.rest
      return ⟨.path pos (name :: path.value) :: more.value, more.rest,
        Nat.lt_succ_of_lt (Nat.lt_of_lt_of_le more.lt path.lt)⟩
    | _, ts => do
      let first ← operand ending 3 ts
      have := first.lt
      let more ← moreArguments ending first.rest
      return ⟨first.value :: more.value, more.rest, Nat.lt_succ_of_lt (Nat.lt_of_lt_of_le more.lt first.lt)⟩
termination_by 10 * ts.length + 5
decreasing_by all_goals (try simp only [List.length_cons]); omega

/-- Further arguments, each after a comma. -/
def moreArguments (ending : Ending) (ts : List Token) : Except Failure (Parsed (List Formula) (ts.length + 1)) :=
  match ts with
  | [] => .ok ⟨[], [], by simp⟩
  | t :: rest =>
    if t.kind = .symbol .comma then do
      pass ending t rest
      let arg ← operand ending 3 rest
      have := arg.lt
      let more ← moreArguments ending arg.rest
      return ⟨arg.value :: more.value, more.rest, Nat.lt_add_right 2 (Nat.lt_of_lt_of_le more.lt arg.lt)⟩
    else .ok ⟨[], t :: rest, by simp⟩
termination_by 10 * ts.length
decreasing_by all_goals (simp only [List.length_cons]; omega)

end

end Parser

/-- What a parser has still to read: the tokens not yet passed, and how they end. -/
structure Parser where
  tokens : List Token
  ending : Ending
deriving DecidableEq, Repr

namespace Parser

/-- A parser at the start of a formula; there is none if not even the first token can be read. -/
def ofString (s : String) : Except LexError Parser :=
  let run := Run.ofString s
  match run.tokens, run.ending.error? with
  | [], some e => .error e
  | tokens, _ => .ok ⟨tokens, run.ending⟩

/-- Reads one formula, after which nothing may follow, and what is left for another attempt. -/
def parse (p : Parser) : Except ParseError Formula × Parser :=
  match operand p.ending 3 p.tokens with
  | .error ⟨.lex e, tokens⟩ => (.error (.lex e), ⟨tokens, p.ending.settle⟩)
  | .error f => (.error f.error, ⟨f.tokens, p.ending⟩)
  | .ok r =>
    match r.rest with
    | [] => (.ok r.value, ⟨[], p.ending⟩)
    | t :: rest => (.error (.trailing t), ⟨t :: rest, p.ending⟩)

end Parser

/-- The formula that a text spells. -/
def Formula.parse (s : String) : Except ParseError Formula :=
  match Parser.ofString s with
  | .error e => .error (.lex e)
  | .ok p => p.parse.1

end FormulaQuery
