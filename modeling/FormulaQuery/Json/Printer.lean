import FormulaQuery.Json

/-!
# Writing JSON

Values are laid out over several lines, two blanks for each level. In strings only quotes, backslashes and control
characters are escaped.
-/

namespace FormulaQuery.Json

def escapeChar (c : Char) : List Char :=
  if c = '"' then ['\\', '"']
  else if c = '\\' then ['\\', '\\']
  else if c = '\x08' then ['\\', 'b']
  else if c = '\t' then ['\\', 't']
  else if c = '\n' then ['\\', 'n']
  else if c = '\x0C' then ['\\', 'f']
  else if c = '\r' then ['\\', 'r']
  else if c.toNat < 0x20 then
    ['\\', 'u', '0', '0', Nat.digitChar (c.toNat / 16), Nat.digitChar (c.toNat % 16)]
  else [c]

def quoted (s : String) : String := String.ofList ('"' :: (s.toList.flatMap escapeChar ++ ['"']))

/-- A new line at the given level. -/
def newline (level : Nat) : String := "\n" ++ String.ofList (List.replicate (2 * level) ' ')

mutual

/-- The text of a value that stands at the given level. -/
def pretty (level : Nat) : Json → String
  | null => "null"
  | bool b => if b then "true" else "false"
  | number n => n.text
  | string s => quoted s
  | array [] => "[]"
  | array items => "[" ++ prettyItems (level + 1) items ++ newline level ++ "]"
  | object ⟨[]⟩ => "\x7b\x7d"
  | object ⟨members⟩ => "\x7b" ++ prettyMembers (level + 1) members ++ newline level ++ "\x7d"

def prettyItems (level : Nat) : List Json → String
  | [] => ""
  | [v] => newline level ++ pretty level v
  | v :: vs => newline level ++ pretty level v ++ "," ++ prettyItems level vs

def prettyMembers (level : Nat) : List (String × Json) → String
  | [] => ""
  | [(k, v)] => newline level ++ quoted k ++ ": " ++ pretty level v
  | (k, v) :: es => newline level ++ quoted k ++ ": " ++ pretty level v ++ "," ++ prettyMembers level es

end

end FormulaQuery.Json
