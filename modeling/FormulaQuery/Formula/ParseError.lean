import FormulaQuery.Token.Lexeme

/-!
# Errors of parsing
-/

namespace FormulaQuery

/-- What the grammar allows where another token stands. -/
inductive Expected where
  | operand | rightParen | commaOrRightParen | pathSegment | relatedName
deriving DecidableEq, Repr

def Expected.text : Expected → String
  | operand => "a number, string, identifier or '('"
  | rightParen => "')'"
  | commaOrRightParen => "',' or ')'"
  | pathSegment => "relationship name after '.'"
  | relatedName => "relationship or field name after '.'"

inductive ParseError where
  /-- The text could not be cut into tokens this far. -/
  | lex (error : LexError)
  | unexpected (expected : Expected) (found : Token)
  /-- Two operators in a row. -/
  | consecutiveOperators (first : Token.Kind) (second : Token)
  | unaryPlus (pos : Position)
  /-- A parenthesis that opens at `pos` and never closes. -/
  | unclosed (pos : Position)
  /-- Tokens after a complete formula. -/
  | trailing (found : Token)
  /-- A date literal that names no day. -/
  | invalidDate (value : String) (pos : Position)
deriving DecidableEq, Repr

namespace ParseError

def pos : ParseError → Position
  | lex e => e.pos
  | unexpected _ t | consecutiveOperators _ t | trailing t => t.pos
  | unaryPlus p | unclosed p | invalidDate _ p => p

def message : ParseError → String
  | lex e => e.message
  | unexpected expected t => s!"Expected {expected.text}, got {t.kind.describe} at {t.pos.text}"
  | consecutiveOperators first t =>
    s!"Consecutive operators {first.describe} and {t.kind.describe} at {t.pos.text}; " ++
      "use parentheses to make the intent explicit"
  | unaryPlus p => s!"Unary '+' is not supported (at {p.text})"
  | unclosed p => s!"Unclosed parenthesis opened at {p.text}"
  | trailing t => s!"Unexpected {t.kind.describe} after end of formula at {t.pos.text}"
  | invalidDate value p => s!"Invalid date literal \"{value}\" at {p.text}; expected YYYY-MM-DD"

end ParseError

end FormulaQuery
