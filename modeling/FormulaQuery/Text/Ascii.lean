/-!
# ASCII case and words

Names are compared without regard to ASCII case, and the words of a formula are made of ASCII letters, digits and
underscores. Characters outside ASCII are never folded and never part of a word.
-/

namespace FormulaQuery.Ascii

/-- The text with its ASCII capitals made small. -/
def lower (s : String) : String := String.ofList (s.toList.map Char.toLower)

/-- The text with its small ASCII letters made capitals. -/
def upper (s : String) : String := String.ofList (s.toList.map Char.toUpper)

/-- Two names are the same if they differ at most in ASCII case. -/
def sameName (s t : String) : Bool := lower s == lower t

def isDigit (c : Char) : Bool := '0' ≤ c && c ≤ '9'

def isLetter (c : Char) : Bool := ('a' ≤ c && c ≤ 'z') || ('A' ≤ c && c ≤ 'Z')

/-- A word begins with a letter or an underscore. -/
def isWordStart (c : Char) : Bool := isLetter c || c == '_'

/-- A word goes on with letters, digits and underscores. -/
def isWordPart (c : Char) : Bool := isLetter c || isDigit c || c == '_'

/-- A whole word. -/
def isWord : List Char → Bool
  | [] => false
  | c :: cs => isWordStart c && cs.all isWordPart

/-- The number written by a list of digits, most significant first. -/
def digitsValue (cs : List Char) : Nat := cs.foldl (fun n c => 10 * n + (c.toNat - '0'.toNat)) 0

/-- What is left of `cs` once the ending `tail` is taken off, if `cs` ends so. -/
def dropEnding? (tail cs : List Char) : Option (List Char) :=
  if tail.isSuffixOf cs then some (cs.take (cs.length - tail.length)) else none

end FormulaQuery.Ascii
