import FormulaQuery.Number.Shortest
import FormulaQuery.Position

/-!
# Tokens of a formula

A token is a number, a quoted string, a word, a symbol, or the end of the formula, together with the place where it
begins. Words are kept in capitals, so that formulas do not depend on ASCII case.
-/

namespace FormulaQuery

inductive Symbol where
  | equal | notEqual | lessGreater | less | greater | lessEqual | greaterEqual
  | plus | minus | star | slash | ampersand
  | leftParen | rightParen | comma | dot
deriving DecidableEq, Repr

namespace Symbol

def text : Symbol → String
  | equal => "=" | notEqual => "!=" | lessGreater => "<>" | less => "<" | greater => ">"
  | lessEqual => "<=" | greaterEqual => ">="
  | plus => "+" | minus => "-" | star => "*" | slash => "/" | ampersand => "&"
  | leftParen => "(" | rightParen => ")" | comma => "," | dot => "."

/-- Operators stand between two operands; the other symbols only group and separate. -/
def isOperator : Symbol → Bool
  | leftParen | rightParen | comma | dot => false
  | _ => true

/-- The longest symbol at the front of a text, and the text after it. -/
def read? : List Char → Option (Symbol × List Char)
  | '!' :: '=' :: r => some (notEqual, r)
  | '<' :: '=' :: r => some (lessEqual, r)
  | '<' :: '>' :: r => some (lessGreater, r)
  | '<' :: r => some (less, r)
  | '>' :: '=' :: r => some (greaterEqual, r)
  | '>' :: r => some (greater, r)
  | '=' :: r => some (equal, r)
  | '+' :: r => some (plus, r)
  | '-' :: r => some (minus, r)
  | '*' :: r => some (star, r)
  | '/' :: r => some (slash, r)
  | '&' :: r => some (ampersand, r)
  | '(' :: r => some (leftParen, r)
  | ')' :: r => some (rightParen, r)
  | ',' :: r => some (comma, r)
  | '.' :: r => some (dot, r)
  | _ => none

/-- Reading a symbol takes its own text off the front. -/
theorem text_append_of_read? {cs r : List Char} {s : Symbol} (h : read? cs = some (s, r)) :
    s.text.toList ++ r = cs := by
  unfold read? at h
  split at h <;> first | (cases h; rfl) | cases h

end Symbol

namespace Token

inductive Kind where
  | number (value : Binary64)
  | string (text : String)
  | word (name : String)
  | symbol (symbol : Symbol)
  | eof
deriving DecidableEq, Repr

namespace Kind

def isOperator : Kind → Bool
  | symbol s => s.isOperator
  | _ => false

/-- The token as messages name it. -/
def describe : Kind → String
  | number n => "number " ++ n.text
  | string s => "string \"" ++ s ++ "\""
  | word w => "identifier '" ++ w ++ "'"
  | symbol s => "'" ++ s.text ++ "'"
  | eof => "end of input"

end Kind

end Token

structure Token where
  kind : Token.Kind
  pos : Position
deriving DecidableEq, Repr

end FormulaQuery
