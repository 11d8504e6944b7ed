import FormulaQuery.Text.Ascii
import FormulaQuery.Text.Blank
import FormulaQuery.Token

/-!
# Lexemes and trivia

How a formula is cut: trivia (blanks and comments) are skipped, and then the longest lexeme is read. Comments run from
`//` to the end of the line or from `/*` to the next `*/`; they do not nest. Strings have no escapes. A point belongs
to a number only if a digit follows it.

Every character of the text ends up in the lexeme or in the rest (`Lexeme.chars_append_rest`), and skipping trivia
never lengthens the text (`Trivia.skip_length_le`).
-/

namespace FormulaQuery

/-- Why a text cannot be cut into tokens. -/
inductive LexError.Cause where
  | unexpected (c : Char)
  | unterminatedString
  | unterminatedComment
deriving DecidableEq, Repr

structure LexError where
  cause : LexError.Cause
  pos : Position
deriving DecidableEq, Repr

def LexError.message (e : LexError) : String :=
  match e.cause with
  | .unexpected c => s!"Unexpected character '{c}' at {e.pos.text}"
  | .unterminatedString => s!"Unterminated string: missing closing quote (at {e.pos.text})"
  | .unterminatedComment => s!"Unterminated block comment: missing closing '*/' (at {e.pos.text})"

/-- What is left of a text, and where it begins. -/
structure Cursor where
  rest : List Char
  pos : Position
deriving DecidableEq, Repr

/-! ### Trivia -/

namespace Trivia

/-- Where a character among trivia stands. -/
inductive Mode where
  | plain | lineComment | blockComment
deriving DecidableEq, Repr

/-- Skips the trivia at the front of a text that begins at `pos`.  A block comment that does not end fails with the
place of the end of the text. -/
def skip : Mode → Position → List Char → Except Position Cursor
  | .plain, pos, '/' :: '/' :: r => skip .lineComment ((pos.advance '/').advance '/') r
  | .plain, pos, '/' :: '*' :: r => skip .blockComment ((pos.advance '/').advance '*') r
  | .plain, pos, c :: r => if Blank.isBlank c then skip .plain (pos.advance c) r else .ok ⟨c :: r, pos⟩
  | .plain, pos, [] => .ok ⟨[], pos⟩
  | .lineComment, pos, c :: r => skip (if c = '\n' then .plain else .lineComment) (pos.advance c) r
  | .lineComment, pos, [] => .ok ⟨[], pos⟩
  | .blockComment, pos, '*' :: '/' :: r => skip .plain ((pos.advance '*').advance '/') r
  | .blockComment, pos, c :: r => skip .blockComment (pos.advance c) r
  | .blockComment, pos, [] => .error pos

theorem skip_length_le {mode : Mode} {pos : Position} {cs : List Char} {c : Cursor}
    (h : skip mode pos cs = .ok c) : c.rest.length ≤ cs.length := by
  fun_induction skip mode pos cs with
  | case1 pos r ih => have := ih h; simp only [List.length_cons]; omega
  | case2 pos r ih => have := ih h; simp only [List.length_cons]; omega
  | case3 pos d r _ _ _ ih => have := ih h; simp only [List.length_cons]; omega
  | case4 => cases h; exact Nat.le_refl _
  | case5 => cases h; exact Nat.le_refl _
  | case6 pos d r ih => have := ih h; simp only [List.length_cons]; omega
  | case7 => cases h; exact Nat.le_refl _
  | case8 pos r ih => have := ih h; simp only [List.length_cons]; omega
  | case9 pos d r _ ih => have := ih h; simp only [List.length_cons]; omega
  | case10 => cases h

end Trivia

/-! ### Lexemes -/

/-- A lexeme at the front of a text, with the text after it. -/
structure Lexeme where
  kind : Token.Kind
  chars : List Char
  rest : List Char

namespace Lexeme

def readWord (cs : List Char) : Lexeme :=
  let w := cs.takeWhile Ascii.isWordPart
  ⟨.word (Ascii.upper (String.ofList w)), w, cs.dropWhile Ascii.isWordPart⟩

/-- The number with the given digits before and after the point. -/
def numberValue (whole fraction : List Char) : Binary64 :=
  .ofScientific false (Ascii.digitsValue (whole ++ fraction)) (-fraction.length)

def readNumber (cs : List Char) : Lexeme :=
  let whole := cs.takeWhile Ascii.isDigit
  let rest := cs.dropWhile Ascii.isDigit
  match rest with
  | '.' :: r =>
    let fraction := r.takeWhile Ascii.isDigit
    if fraction.isEmpty then ⟨.number (numberValue whole []), whole, rest⟩
    else ⟨.number (numberValue whole fraction), whole ++ '.' :: fraction, r.dropWhile Ascii.isDigit⟩
  | _ => ⟨.number (numberValue whole []), whole, rest⟩

/-- Reads a string whose opening quote is already taken off. -/
def readString? (cs : List Char) : Option Lexeme :=
  let body := cs.takeWhile (· != '"')
  match cs.dropWhile (· != '"') with
  | [] => none
  | q :: r => some ⟨.string (String.ofList body), '"' :: (body ++ [q]), r⟩

/-- The lexeme at the front of a text that begins with no trivia. -/
def read (cs : List Char) : Except LexError.Cause Lexeme :=
  match cs with
  | [] => .ok ⟨.eof, [], []⟩
  | c :: r =>
    if c = '"' then
      match readString? r with
      | some l => .ok l
      | none => .error .unterminatedString
    else if Ascii.isWordStart c then .ok (readWord cs)
    else if Ascii.isDigit c then .ok (readNumber cs)
    else match Symbol.read? cs with
      | some (s, rest) => .ok ⟨.symbol s, s.text.toList, rest⟩
      | none => .error (.unexpected c)

theorem chars_append_rest_readNumber (cs : List Char) :
    (readNumber cs).chars ++ (readNumber cs).rest = cs := by
  have split := List.takeWhile_append_dropWhile (p := Ascii.isDigit) (l := cs)
  unfold readNumber
  dsimp only
  split
  · rename_i r hr
    split
    · exact split
    · have inner := List.takeWhile_append_dropWhile (p := Ascii.isDigit) (l := r)
      simp only [List.append_assoc, List.cons_append, inner]
      rw [← hr, split]
  · exact split

private theorem chars_append_rest_readString? {cs : List Char} {l : Lexeme} (h : readString? cs = some l) :
    l.chars ++ l.rest = '"' :: cs := by
  have split := List.takeWhile_append_dropWhile (p := (· != '"')) (l := cs)
  unfold readString? at h
  dsimp only at h
  split at h
  · cases h
  · rename_i q r hr
    cases h
    simp only [List.cons_append, List.append_assoc, List.nil_append]
    rw [← hr, split]

/-- A lexeme and the text after it make up the text. -/
theorem chars_append_rest {cs : List Char} {l : Lexeme} (h : read cs = .ok l) : l.chars ++ l.rest = cs := by
  unfold read at h
  split at h
  · cases h; rfl
  · rename_i c r
    split at h
    · rename_i hc
      split at h
      · rename_i l' hl
        cases h
        rw [chars_append_rest_readString? hl, hc]
      · cases h
    · split at h
      · cases h
        exact List.takeWhile_append_dropWhile
      · split at h
        · cases h
          exact chars_append_rest_readNumber _
        · split at h
          · rename_i s rest hs
            cases h
            exact Symbol.text_append_of_read? hs
          · cases h

/-- Only the end of the formula has a lexeme without characters. -/
theorem kind_eq_eof_of_chars_eq_nil {cs : List Char} {l : Lexeme} (h : read cs = .ok l) (hl : l.chars = []) :
    l.kind = .eof := by
  have whole := chars_append_rest h
  unfold read at h
  split at h
  · cases h; rfl
  · rename_i c r
    split at h
    · split at h
      · rename_i l' hl'
        cases h
        unfold readString? at hl'
        dsimp only at hl'
        split at hl' <;> cases hl'
        cases hl
      · cases h
    · split at h
      · rename_i hc
        cases h
        have : Ascii.isWordPart c = true := by
          unfold Ascii.isWordStart at hc
          unfold Ascii.isWordPart
          simp only [Bool.or_eq_true] at hc ⊢
          rcases hc with hc | hc
          · exact Or.inl (Or.inl hc)
          · exact Or.inr hc
        simp [readWord, this] at hl
      · split at h
        · rename_i hc
          cases h
          unfold readNumber at hl
          dsimp only at hl
          split at hl
          · split at hl <;> simp [hc] at hl
          · simp [hc] at hl
        · split at h
          · rename_i s rest _
            cases h
            cases s <;> cases hl
          · cases h

end Lexeme

end FormulaQuery
