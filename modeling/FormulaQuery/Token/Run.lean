import FormulaQuery.Token.Lexeme

/-!
# Runs of the lexer

`Cursor.next` reads one token and moves the cursor; it may be called again after a failure and after the end.
`Cursor.run` collects all its answers: finitely many tokens, and then an ending that repeats forever. An unexpected
character is never passed, while after a string or comment without an end the cursor stands at the end of the text.
-/

namespace FormulaQuery

namespace Cursor

/-- The start of a formula. -/
def ofString (s : String) : Cursor := ⟨s.toList, .start⟩

/-- The next token, or why there is none, and where reading goes on. -/
def next (c : Cursor) : Except LexError Token × Cursor :=
  match Trivia.skip .plain c.pos c.rest with
  | .error p => (.error ⟨.unterminatedComment, p⟩, ⟨[], p⟩)
  | .ok c =>
    match Lexeme.read c.rest with
    | .ok l => (.ok ⟨l.kind, c.pos⟩, ⟨l.rest, c.pos.after l.chars⟩)
    | .error .unterminatedString => (.error ⟨.unterminatedString, c.pos⟩, ⟨[], c.pos.after c.rest⟩)
    | .error cause => (.error ⟨cause, c.pos⟩, c)

/-- Every token but the end takes at least one character. -/
theorem next_length_lt {c c' : Cursor} {t : Token} (h : c.next = (.ok t, c')) (ht : t.kind ≠ .eof) :
    c'.rest.length < c.rest.length := by
  unfold next at h
  split at h
  · cases h
  · rename_i d hd
    have hle := Trivia.skip_length_le hd
    split at h
    · rename_i l hl
      cases h
      have hlen := congrArg List.length (Lexeme.chars_append_rest hl)
      have : l.chars ≠ [] := fun e => ht (Lexeme.kind_eq_eof_of_chars_eq_nil hl e)
      have := List.length_pos_iff.2 this
      simp only [List.length_append] at hlen
      show l.rest.length < c.rest.length
      omega
    · cases h
    · cases h

end Cursor

/-- What the lexer answers forever once it has no more tokens. -/
inductive Ending where
  /-- The formula ends here. -/
  | closed (pos : Position)
  /-- A character that begins no token. -/
  | stuck (error : LexError)
  /-- A string or comment without an end, reported once; the formula then ends at `pos`. -/
  | broken (error : LexError) (pos : Position)
deriving DecidableEq, Repr

namespace Ending

/-- The failure that the ending reports first. -/
def error? : Ending → Option LexError
  | closed _ => none
  | stuck e | broken e _ => some e

/-- The ending once its failure has been reported. -/
def settle : Ending → Ending
  | closed p => .closed p
  | stuck e => .stuck e
  | broken _ p => .closed p

/-- The place where the tokens end. -/
def pos : Ending → Position
  | closed p => p
  | stuck e => e.pos
  | broken _ p => p

end Ending

/-- All the answers of a lexer: its tokens without the end of the formula, and how they end. -/
structure Run where
  tokens : List Token
  ending : Ending
deriving DecidableEq, Repr

/-- All the answers from a cursor on. -/
def Cursor.run (c : Cursor) : Run :=
  match _h : c.next with
  | (.error e, c') => ⟨[], if c'.rest.isEmpty then .broken e c'.pos else .stuck e⟩
  | (.ok t, c') =>
    if _ht : t.kind = .eof then ⟨[], .closed t.pos⟩
    else
      let r := run c'
      ⟨t :: r.tokens, r.ending⟩
termination_by c.rest.length
decreasing_by exact Cursor.next_length_lt _h _ht

namespace Run

def ofString (s : String) : Run := (Cursor.ofString s).run

/-- All the tokens with the end of the formula, or the failure met before it. -/
def tokens? (r : Run) : Except LexError (List Token) :=
  match r.ending with
  | .closed p => .ok (r.tokens ++ [⟨.eof, p⟩])
  | .stuck e | .broken e _ => .error e

end Run

/-- The tokens of a formula, the last being its end. -/
def tokenize (s : String) : Except LexError (List Token) := (Run.ofString s).tokens?

end FormulaQuery
