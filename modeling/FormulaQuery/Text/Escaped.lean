import FormulaQuery.Text.Unprintable

/-!
# Escaped text

A text in double quotes on one line: quotes and backslashes take a backslash, line ends, tabs and the null character
are written as letters, and other unprintable characters as their code points.
-/

namespace FormulaQuery.Escaped

def escapeChar (c : Char) : List Char :=
  if c = '"' then ['\\', '"']
  else if c = '\\' then ['\\', '\\']
  else if c = '\n' then ['\\', 'n']
  else if c = '\r' then ['\\', 'r']
  else if c = '\t' then ['\\', 't']
  else if c = '\x00' then ['\\', '0']
  else if Unprintable.isUnprintable c then ['\\', 'u', '\x7b'] ++ Nat.toDigits 16 c.toNat ++ ['\x7d']
  else [c]

def quoted (s : String) : String := String.ofList ('"' :: (s.toList.flatMap escapeChar ++ ['"']))

end FormulaQuery.Escaped
