import FormulaQuery.Proofs.Juxtaposition
import FormulaQuery.Proofs.NumberText
import FormulaQuery.Proofs.WellFormed
import Mathlib.Data.List.DropRight

/-!
# How tokens are spelled

What the lexer skips and reads, said without the lexer: which texts are trivia (`Trivia.Skipped`), which texts spell
which token (`Lexeme.Spells`), and what may not follow a lexeme (`Lexeme.Maximal`). Skipping stops exactly behind
trivia (`Trivia.skip_eq_ok_iff`). What is read there is spelled there and does not go on (`Lexeme.spells_of_read`),
and all that is so spelled is read (`Lexeme.Spells.read_eq`). Places count the text before them
(`Position.after_behind`).
-/

namespace FormulaQuery

/-! ### Places -/

namespace Position

/-- The place right behind the text that a formula begins with. -/
def behind (before : List Char) : Position where
  offset := before.length
  line := 1 + before.count '\n'
  column := 1 + (before.rtakeWhile (· != '\n')).length

private theorem behind_concat (before : List Char) (c : Char) :
    behind (before ++ [c]) = (behind before).advance c := by
  unfold behind advance
  rw [List.rtakeWhile_concat]
  by_cases hc : c = '\n'
  · simp [hc, Nat.add_assoc]
  · simp [hc, Nat.add_assoc]

/-- Places count the characters before them, the line feeds among these, and the characters since the last line
feed. -/
theorem after_behind (before cs : List Char) : (behind before).after cs = behind (before ++ cs) := by
  induction cs generalizing before with
  | nil => rw [after_nil, List.append_nil]
  | cons c cs ih =>
    have hstep : before ++ c :: cs = before ++ [c] ++ cs := by simp
    rw [after_cons, ← behind_concat, ih, hstep]

@[simp] theorem offset_behind (before : List Char) : (behind before).offset = before.length := rfl

theorem offset_after (p : Position) (cs : List Char) : (p.after cs).offset = p.offset + cs.length := by
  induction cs generalizing p with
  | nil => rfl
  | cons c cs ih =>
    have hstep : (p.advance c).offset = p.offset + 1 := by
      unfold advance
      split <;> rfl
    rw [after_cons, ih, hstep, List.length_cons]
    omega

end Position

/-! ### Trivia -/

namespace Trivia

/-- The texts that are skipped in front of `rest`: blanks, comments up to a line feed or the end, and comments that
are closed and do not nest. -/
inductive Skipped (rest : List Char) : List Char → Prop
  | nil : Skipped rest []
  | blank {c : Char} {w : List Char} (hc : Blank.isBlank c = true) (h : Skipped rest w) : Skipped rest (c :: w)
  | line {body w : List Char} (hbody : '\n' ∉ body) (hend : ∀ c ∈ (w ++ rest).head?, c = '\n') (h : Skipped rest w) :
    Skipped rest ('/' :: '/' :: (body ++ w))
  | block {body w : List Char} (hbody : ¬ ['*', '/'] <:+: body) (h : Skipped rest w) :
    Skipped rest ('/' :: '*' :: (body ++ '*' :: '/' :: w))

/-- A text that begins with a blank or with a comment. -/
inductive Begins : List Char → Prop
  | blank {c : Char} (r : List Char) (hc : Blank.isBlank c = true) : Begins (c :: r)
  | line (r : List Char) : Begins ('/' :: '/' :: r)
  | block (r : List Char) : Begins ('/' :: '*' :: r)

/-- The texts that are skipped in front of `rest` from inside of trivia on. -/
def Remains (rest : List Char) : Mode → List Char → Prop
  | .plain, w => Skipped rest w
  | .lineComment, w => ∃ body w', w = body ++ w' ∧ '\n' ∉ body ∧ (∀ c ∈ (w' ++ rest).head?, c = '\n') ∧
    Skipped rest w'
  | .blockComment, w => ∃ body w', w = body ++ '*' :: '/' :: w' ∧ ¬ ['*', '/'] <:+: body ∧ Skipped rest w'

variable {rest w body : List Char} {pos : Position}

/-- Trivia begin with a blank or a slash. -/
theorem Skipped.head {c : Char} (h : Skipped rest (c :: w)) : Blank.isBlank c = true ∨ c = '/' := by
  cases h with
  | blank hc => exact Or.inl hc
  | line | block => exact Or.inr rfl

private theorem not_infix_cons {c : Char} (hbody : ¬ ['*', '/'] <:+: body) (hc : c = '*' → ∀ r, body ≠ '/' :: r) :
    ¬ ['*', '/'] <:+: c :: body := by
  intro h
  rcases List.infix_cons_iff.1 h with h | h
  · obtain ⟨hc', htail⟩ := List.cons_prefix_cons.1 h
    obtain ⟨r, hr⟩ := htail
    exact hc hc'.symm r hr.symm
  · exact hbody h

/-- What is skipped is trivia, and no more trivia follow. -/
theorem exists_of_skip {mode : Mode} {cs : List Char} {c : Cursor} (h : skip mode pos cs = .ok c) :
    ∃ w, cs = w ++ c.rest ∧ c.pos = pos.after w ∧ Remains c.rest mode w ∧ ¬ Begins c.rest := by
  fun_induction skip mode pos cs with
  | case1 pos r ih =>
    obtain ⟨w, rfl, hpos, ⟨body, w', rfl, hbody, hend, hw'⟩, hstop⟩ := ih h
    exact ⟨'/' :: '/' :: (body ++ w'), rfl, hpos, .line hbody hend hw', hstop⟩
  | case2 pos r ih =>
    obtain ⟨w, rfl, hpos, ⟨body, w', rfl, hbody, hw'⟩, hstop⟩ := ih h
    exact ⟨'/' :: '*' :: (body ++ '*' :: '/' :: w'), rfl, hpos, .block hbody hw', hstop⟩
  | case3 pos d r _ _ hblank ih =>
    obtain ⟨w, rfl, hpos, hw, hstop⟩ := ih h
    exact ⟨d :: w, rfl, hpos, .blank hblank hw, hstop⟩
  | case4 pos d r hline hblock hblank =>
    cases h
    refine ⟨[], rfl, rfl, .nil, ?_⟩
    intro hbegins
    cases hbegins with
    | blank _ hd => exact hblank hd
    | line r => exact hline r rfl rfl
    | block r => exact hblock r rfl rfl
  | case5 pos =>
    cases h
    exact ⟨[], rfl, rfl, .nil, by rintro ⟨⟩⟩
  | case6 pos d r ih =>
    obtain ⟨w, rfl, hpos, hw, hstop⟩ := ih h
    refine ⟨d :: w, rfl, hpos, ?_, hstop⟩
    by_cases hd : d = '\n'
    · rw [if_pos hd] at hw
      have hblank : Blank.isBlank d = true := by rw [hd]; decide
      exact ⟨[], d :: w, rfl, List.not_mem_nil, by simp [hd], .blank hblank hw⟩
    · rw [if_neg hd] at hw
      obtain ⟨body, w', rfl, hbody, hend, hw'⟩ := hw
      have hbody' : '\n' ∉ d :: body := by simp [Ne.symm hd, hbody]
      exact ⟨d :: body, w', rfl, hbody', hend, hw'⟩
  | case7 pos =>
    cases h
    exact ⟨[], rfl, rfl, ⟨[], [], rfl, List.not_mem_nil, by simp, .nil⟩, by rintro ⟨⟩⟩
  | case8 pos r ih =>
    obtain ⟨w, rfl, hpos, hw, hstop⟩ := ih h
    exact ⟨'*' :: '/' :: w, rfl, hpos, ⟨[], w, rfl, by simp, hw⟩, hstop⟩
  | case9 pos d r hend ih =>
    obtain ⟨w, rfl, hpos, ⟨body, w', rfl, hbody, hw'⟩, hstop⟩ := ih h
    refine ⟨d :: (body ++ '*' :: '/' :: w'), rfl, hpos, ⟨d :: body, w', rfl, not_infix_cons hbody ?_, hw'⟩, hstop⟩
    rintro rfl r' rfl
    exact hend _ rfl rfl
  | case10 => cases h

/-- A comment that does not end goes up to the end of the text. -/
theorem eq_after_of_skip_eq_error {mode : Mode} {p : Position} {cs : List Char} (h : skip mode pos cs = .error p) :
    p = pos.after cs := by
  fun_induction skip mode pos cs with
  | case1 pos r ih | case2 pos r ih | case8 pos r ih => exact ih h
  | case3 pos d r _ _ _ ih | case6 pos d r ih | case9 pos d r _ ih => exact ih h
  | case4 | case5 | case7 => cases h
  | case10 pos =>
    cases h
    rfl

/-! Conversely, trivia are skipped piece by piece. -/

private theorem skip_of_not_begins (h : ¬ Begins rest) (pos : Position) : skip .plain pos rest = .ok ⟨rest, pos⟩ := by
  cases rest with
  | nil => rfl
  | cons c r =>
    have hblank : ¬ Blank.isBlank c = true := fun hc => h (.blank r hc)
    rw [skip, if_neg hblank]
    · rintro r' rfl rfl
      exact h (.line r')
    · rintro r' rfl rfl
      exact h (.block r')

private theorem skip_blank {c : Char} (hc : Blank.isBlank c = true) (pos : Position) (cs : List Char) :
    skip .plain pos (c :: cs) = skip .plain (pos.advance c) cs := by
  have hslash : c ≠ '/' := by
    rintro rfl
    exact absurd hc (by decide)
  rw [skip, if_pos hc]
  · exact fun _ h => absurd h hslash
  · exact fun _ h => absurd h hslash

private theorem skip_line {cs : List Char} (hbody : '\n' ∉ body) (hend : ∀ c ∈ cs.head?, c = '\n') (pos : Position) :
    skip .lineComment pos (body ++ cs) = skip .plain (pos.after body) cs := by
  induction body generalizing pos with
  | nil =>
    cases cs with
    | nil => rfl
    | cons c cs =>
      obtain rfl : c = '\n' := hend c rfl
      rw [skip_blank (by decide)]
      rfl
  | cons c body ih =>
    obtain ⟨hc, hbody⟩ := not_or.1 (mt List.mem_cons.2 hbody)
    rw [List.cons_append, skip, if_neg (Ne.symm hc), ih hbody, Position.after_cons]

private theorem skip_block (hbody : ¬ ['*', '/'] <:+: body) (pos : Position) (cs : List Char) :
    skip .blockComment pos (body ++ '*' :: '/' :: cs) = skip .plain (pos.after (body ++ ['*', '/'])) cs := by
  induction body generalizing pos with
  | nil => rfl
  | cons c body ih =>
    have htail : ¬ ['*', '/'] <:+: body := fun h => hbody (List.infix_cons h)
    rw [List.cons_append, skip, ih htail, List.cons_append, Position.after_cons]
    -- the comment does not end here, since it would have ended inside of its body
    rintro r rfl hr
    cases body with
    | nil => cases hr
    | cons d body =>
      cases hr
      exact hbody ⟨[], body, rfl⟩

theorem Skipped.skip_eq (h : Skipped rest w) (hstop : ¬ Begins rest) (pos : Position) :
    skip .plain pos (w ++ rest) = .ok ⟨rest, pos.after w⟩ := by
  induction h generalizing pos with
  | nil => exact skip_of_not_begins hstop pos
  | blank hc _ ih => rw [List.cons_append, skip_blank hc, ih, Position.after_cons]
  | line hbody hend _ ih =>
    rw [List.cons_append, List.cons_append, List.append_assoc, skip, skip_line hbody hend, ih]
    simp only [Position.after_cons, Position.after_append]
  | block hbody _ ih =>
    rw [List.cons_append, List.cons_append, List.append_assoc, List.cons_append, List.cons_append, skip,
      skip_block hbody, ih]
    simp only [Position.after_cons, Position.after_append, Position.after_nil]

/-- Skipping stops exactly behind trivia. -/
theorem skip_eq_ok_iff {cs : List Char} {c : Cursor} :
    skip .plain pos cs = .ok c ↔ ∃ w, cs = w ++ c.rest ∧ c.pos = pos.after w ∧ Skipped c.rest w ∧
      ¬ Begins c.rest := by
  constructor
  · exact exists_of_skip
  · rintro ⟨w, rfl, hpos, hw, hstop⟩
    rw [hw.skip_eq hstop, ← hpos]

end Trivia

/-- A token stands where the lexer is or behind it, and the lexer goes on behind the token. -/
theorem Cursor.offset_of_next_eq_ok {c c' : Cursor} {t : Token} (h : c.next = (.ok t, c')) (ht : t.kind ≠ .eof) :
    c.pos.offset ≤ t.pos.offset ∧ t.pos.offset < c'.pos.offset := by
  obtain ⟨d, l, hskip, hread, rfl, rfl⟩ := next_eq_ok_iff.1 h
  obtain ⟨w, -, hpos, -⟩ := Trivia.skip_eq_ok_iff.1 hskip
  have hstart : d.pos.offset = c.pos.offset + w.length := by rw [hpos, Position.offset_after]
  have hend : (d.pos.after l.chars).offset = d.pos.offset + l.chars.length := Position.offset_after _ _
  have hnonempty : 0 < l.chars.length :=
    List.length_pos_iff.2 fun hnil => ht (Lexeme.kind_eq_eof_of_chars_eq_nil hread hnil)
  constructor
  · show c.pos.offset ≤ d.pos.offset
    omega
  · show d.pos.offset < (d.pos.after l.chars).offset
    omega

/-! ### Lexemes -/

namespace Lexeme

/-- How tokens are spelled: words in any case, strings between quotes, numbers as numerals, symbols as they are. -/
inductive Spells : List Char → Token.Kind → Prop
  | word {cs : List Char} (h : Ascii.isWord cs = true) : Spells cs (.word (Ascii.upper (String.ofList cs)))
  | string {body : List Char} (h : '"' ∉ body) : Spells ('"' :: (body ++ ['"'])) (.string (String.ofList body))
  | number {whole fraction : List Char} (h : AreDigits whole fraction) :
    Spells (whole ++ pointed fraction) (.number (numberValue whole fraction))
  | symbol (s : Symbol) : Spells s.text.toList (.symbol s)

/-- The text `rest` does not go on with a lexeme: no word goes on with a character of words, no numeral is part of a
longer one, and no symbol is the start of a longer one or of a comment. -/
def Maximal (kind : Token.Kind) (chars rest : List Char) : Prop :=
  match kind with
  | .word _ => ∀ c ∈ rest.head?, Ascii.isWordPart c = false
  | .number _ => ∀ whole fraction, AreDigits whole fraction → whole ++ pointed fraction <+: chars ++ rest →
    (whole ++ pointed fraction).length ≤ chars.length
  | .symbol .less => ∀ c ∈ rest.head?, c ≠ '=' ∧ c ≠ '>'
  | .symbol .greater => ∀ c ∈ rest.head?, c ≠ '='
  | .symbol .slash => ∀ c ∈ rest.head?, c ≠ '/' ∧ c ≠ '*'
  | _ => True

variable {cs chars rest : List Char} {kind : Token.Kind}

/-- A text that begins with neither a blank nor a comment, seen from its first characters. -/
private theorem not_begins_cons {c : Char} (hblank : ¬ Blank.isBlank c = true)
    (hslash : c = '/' → ∀ d ∈ rest.head?, d ≠ '/' ∧ d ≠ '*') : ¬ Trivia.Begins (c :: rest) := by
  intro h
  cases h with
  | blank _ hc => exact hblank hc
  | line r => exact (hslash rfl '/' rfl).1 rfl
  | block r => exact (hslash rfl '*' rfl).2 rfl

private theorem ne_slash_of_isWordPart {c : Char} (h : Ascii.isWordPart c = true) : c ≠ '/' := by
  rintro rfl
  exact absurd h (by decide)

/-- A lexeme that is not the start of a comment does not begin with trivia. -/
theorem Spells.not_begins (h : Spells chars kind) (hmax : Maximal kind chars rest) :
    ¬ Trivia.Begins (chars ++ rest) := by
  have hpart : ∀ {c : Char} {r : List Char}, Ascii.isWordPart c = true → ¬ Trivia.Begins (c :: r) :=
    fun hc => not_begins_cons (Blank.not_isBlank_of_isWordPart hc) fun hslash =>
      absurd hslash (ne_slash_of_isWordPart hc)
  cases h with
  | word h =>
    cases chars with
    | nil => cases h
    | cons c cs =>
      have hc : Ascii.isWordStart c = true := (Bool.and_eq_true_iff.1 h).1
      exact hpart (Ascii.isWordPart_of_isWordStart hc)
  | string h => exact not_begins_cons (by decide) fun hslash => absurd hslash (by decide)
  | @number whole fraction h =>
    cases whole with
    | nil => exact absurd rfl h.whole_ne_nil
    | cons c cs =>
      have hc : Ascii.isDigit c = true := h.whole_isDigit c List.mem_cons_self
      exact hpart (Ascii.isWordPart_of_isDigit hc)
  | symbol s =>
    cases s
    case slash => exact not_begins_cons (by decide) fun _ => hmax
    all_goals exact not_begins_cons (by decide) fun hslash => absurd hslash (by decide)

/-! #### Words and strings -/

/-- A part of a text ends where its characters do. -/
private theorem span_of_stop {p : Char → Bool} (hall : ∀ c ∈ chars, p c = true)
    (hstop : ∀ c ∈ rest.head?, p c = false) :
    (chars ++ rest).takeWhile p = chars ∧ (chars ++ rest).dropWhile p = rest := by
  rw [List.takeWhile_append_of_pos hall, List.dropWhile_append_of_pos hall]
  cases rest with
  | nil => simp
  | cons c r => simp [hstop c rfl]

private theorem head_dropWhile (p : Char → Bool) (cs : List Char) : ∀ c ∈ (cs.dropWhile p).head?, p c = false := by
  intro c hc
  have hnot := List.head?_dropWhile_not p cs
  rw [Option.mem_def.1 hc] at hnot
  exact hnot

private theorem readWord_of_isWord (h : Ascii.isWord chars = true)
    (hmax : ∀ c ∈ rest.head?, Ascii.isWordPart c = false) :
    readWord (chars ++ rest) = ⟨.word (Ascii.upper (String.ofList chars)), chars, rest⟩ := by
  obtain ⟨htake, hdrop⟩ := span_of_stop (Ascii.isWordPart_of_isWord h) hmax
  unfold readWord
  rw [htake, hdrop]

private theorem readString?_of_body {body : List Char} (h : '"' ∉ body) (rest : List Char) :
    readString? (body ++ '"' :: rest) = some ⟨.string (String.ofList body), '"' :: (body ++ ['"']), rest⟩ := by
  have hall : ∀ c ∈ body, (c != '"') = true := by
    intro c hc
    have hne : c ≠ '"' := by
      rintro rfl
      exact h hc
    simpa using hne
  have hstop : ∀ c ∈ ('"' :: rest).head?, (c != '"') = false := by simp
  obtain ⟨htake, hdrop⟩ := span_of_stop hall hstop
  unfold readString?
  rw [htake, hdrop]

/-! #### Numbers -/

/-- The point in a text ends the digits before it. -/
private theorem span_point {whole : List Char} (hwhole : ∀ c ∈ whole, Ascii.isDigit c = true) (r : List Char) :
    (whole ++ '.' :: r).takeWhile Ascii.isDigit = whole ∧ (whole ++ '.' :: r).dropWhile Ascii.isDigit = '.' :: r := by
  refine span_of_stop hwhole ?_
  intro c hc
  obtain rfl : '.' = c := Option.some.inj hc
  decide

/-- What is read as a number is a numeral. -/
private theorem exists_readNumber {c : Char} (hc : Ascii.isDigit c = true) (r : List Char) :
    ∃ whole fraction, AreDigits whole fraction ∧ (readNumber (c :: r)).chars = whole ++ pointed fraction ∧
      (readNumber (c :: r)).kind = .number (numberValue whole fraction) := by
  have hdigit : ∀ cs : List Char, ∀ d ∈ cs.takeWhile Ascii.isDigit, Ascii.isDigit d = true :=
    fun cs => List.all_eq_true.1 List.all_takeWhile
  have hne : (c :: r).takeWhile Ascii.isDigit ≠ [] := by
    rw [List.takeWhile_cons_of_pos hc]
    exact List.cons_ne_nil _ _
  by_cases h : ∃ r', (c :: r).dropWhile Ascii.isDigit = '.' :: r' ∧ r'.takeWhile Ascii.isDigit ≠ []
  · obtain ⟨r', hpoint, hdigits⟩ := h
    refine ⟨_, r'.takeWhile Ascii.isDigit, ⟨hne, hdigit _, hdigit _⟩, ?_, ?_⟩
    · rw [readNumber_of_point hpoint hdigits]
      cases hf : r'.takeWhile Ascii.isDigit with
      | nil => exact absurd hf hdigits
      | cons d ds => rfl
    · rw [readNumber_of_point hpoint hdigits]
  · have hwhole : ∀ r', (c :: r).dropWhile Ascii.isDigit = '.' :: r' → r'.takeWhile Ascii.isDigit = [] :=
      fun r' hr' => Classical.byContradiction fun hdigits => h ⟨r', hr', hdigits⟩
    refine ⟨_, [], ⟨hne, hdigit _, List.forall_mem_nil _⟩, ?_, ?_⟩
    · rw [readNumber_of_whole hwhole, pointed, List.append_nil]
    · rw [readNumber_of_whole hwhole]

/-- A number goes at least as far as all digits before a point. -/
private theorem takeWhile_prefix_readNumber (cs : List Char) :
    cs.takeWhile Ascii.isDigit <+: (readNumber cs).chars := by
  unfold readNumber
  dsimp only
  split
  · split
    · exact List.prefix_rfl
    · exact List.prefix_append _ _
  · exact List.prefix_rfl

/-- No numeral at the front of a text is longer than the number that is read. -/
private theorem length_le_readNumber {whole fraction : List Char} (h : AreDigits whole fraction)
    (hpre : whole ++ pointed fraction <+: cs) :
    (whole ++ pointed fraction).length ≤ (readNumber cs).chars.length := by
  obtain ⟨t, rfl⟩ := hpre
  cases hf : fraction with
  | nil =>
    have hle := (takeWhile_prefix_readNumber (whole ++ t)).length_le
    rw [List.takeWhile_append_of_pos h.whole_isDigit, List.length_append] at hle
    simp only [pointed, List.append_nil]
    omega
  | cons d ds =>
    have hfraction : ∀ c ∈ d :: ds, Ascii.isDigit c = true := by
      rw [← hf]
      exact h.fraction_isDigit
    obtain ⟨htake, hdrop⟩ := span_point h.whole_isDigit (d :: ds ++ t)
    have hdigits : (d :: ds ++ t).takeWhile Ascii.isDigit = d :: ds ++ t.takeWhile Ascii.isDigit :=
      List.takeWhile_append_of_pos hfraction
    have hpoint := readNumber_of_point hdrop (by rw [hdigits]; exact List.cons_ne_nil _ _)
    have htext : whole ++ pointed (d :: ds) ++ t = whole ++ '.' :: (d :: ds ++ t) := by simp [pointed]
    rw [htext, hpoint, htake, hdigits]
    simp only [pointed, List.length_append, List.length_cons]
    omega

private theorem readNumber_of_maximal {whole fraction : List Char} (h : AreDigits whole fraction)
    (hmax : ∀ whole' fraction', AreDigits whole' fraction' →
      whole' ++ pointed fraction' <+: whole ++ pointed fraction ++ rest →
      (whole' ++ pointed fraction').length ≤ (whole ++ pointed fraction).length) :
    readNumber (whole ++ pointed fraction ++ rest) =
      ⟨.number (numberValue whole fraction), whole ++ pointed fraction, rest⟩ := by
  obtain ⟨c, r, hcons, hc⟩ : ∃ c r, whole ++ pointed fraction ++ rest = c :: r ∧ Ascii.isDigit c = true := by
    cases whole with
    | nil => exact absurd rfl h.whole_ne_nil
    | cons c cs => exact ⟨c, _, rfl, h.whole_isDigit c List.mem_cons_self⟩
  have hshort := length_le_readNumber h (List.prefix_append (whole ++ pointed fraction) rest)
  have hwhole := chars_append_rest_readNumber (whole ++ pointed fraction ++ rest)
  obtain ⟨whole', fraction', h', hchars, hkind⟩ := exists_readNumber hc r
  rw [← hcons] at hchars hkind
  -- both numerals begin the text, and neither is longer than the other
  have hlong := hmax whole' fraction' h' ⟨_, by rw [← hchars]; exact hwhole⟩
  rw [hchars] at hshort hwhole
  obtain ⟨hsame, hrest⟩ := List.append_inj hwhole (Nat.le_antisymm hlong hshort)
  obtain ⟨rfl, rfl⟩ := h'.eq_of_append_eq h hsame
  generalize readNumber (whole' ++ pointed fraction' ++ rest) = l at hchars hkind hrest ⊢
  obtain ⟨kind, chars, rest'⟩ := l
  cases hchars
  cases hkind
  cases hrest
  rfl

/-! #### Symbols -/

private theorem maximal_of_read? {s : Symbol} (h : Symbol.read? cs = some (s, rest)) (hstop : ¬ Trivia.Begins cs) :
    Maximal (.symbol s) s.text.toList rest := by
  unfold Symbol.read? at h
  split at h
  case h_4 r hequal hgreater =>
    cases h
    intro c hc
    cases rest with
    | nil => cases hc
    | cons d r =>
      cases hc
      exact ⟨fun hd => hequal r (by rw [hd]), fun hd => hgreater r (by rw [hd])⟩
  case h_6 r hequal =>
    cases h
    intro c hc
    cases rest with
    | nil => cases hc
    | cons d r =>
      cases hc
      exact fun hd => hequal r (by rw [hd])
  case h_11 =>
    cases h
    intro c hc
    cases rest with
    | nil => cases hc
    | cons d r =>
      cases hc
      exact ⟨fun hd => hstop (hd ▸ .line r), fun hd => hstop (hd ▸ .block r)⟩
  all_goals cases h <;> exact True.intro

private theorem read?_of_maximal {s : Symbol} (hmax : Maximal (.symbol s) s.text.toList rest) :
    Symbol.read? (s.text.toList ++ rest) = some (s, rest) := by
  cases s
  case less =>
    have hmax : ∀ c ∈ rest.head?, c ≠ '=' ∧ c ≠ '>' := hmax
    show Symbol.read? ('<' :: rest) = _
    rw [Symbol.read?]
    · rintro r rfl
      exact (hmax '=' rfl).1 rfl
    · rintro r rfl
      exact (hmax '>' rfl).2 rfl
  case greater =>
    have hmax : ∀ c ∈ rest.head?, c ≠ '=' := hmax
    show Symbol.read? ('>' :: rest) = _
    rw [Symbol.read?]
    rintro r rfl
    exact hmax '=' rfl rfl
  all_goals rfl

/-! #### All lexemes -/

/-- What is read in front of a text is spelled there, and does not go on. -/
theorem spells_of_read {l : Lexeme} (h : read cs = .ok l) (hstop : ¬ Trivia.Begins cs) (hkind : l.kind ≠ .eof) :
    Spells l.chars l.kind ∧ Maximal l.kind l.chars l.rest := by
  have hwhole := chars_append_rest h
  cases cs with
  | nil =>
    cases h
    exact absurd rfl hkind
  | cons c r =>
    unfold read at h
    dsimp only at h
    split at h
    · split at h
      · rename_i hread
        cases h
        unfold readString? at hread
        dsimp only at hread
        split at hread
        · cases hread
        · rename_i q r' hdrop
          cases hread
          have hq : q = '"' := by simpa using head_dropWhile (· != '"') r q (by rw [hdrop]; rfl)
          have hbody : '"' ∉ r.takeWhile (· != '"') := by
            intro hmem
            simpa using List.all_eq_true.1 List.all_takeWhile _ hmem
          rw [hq]
          exact ⟨.string hbody, True.intro⟩
      · cases h
    · split at h
      · rename_i hword
        cases h
        refine ⟨.word ?_, head_dropWhile _ _⟩
        show Ascii.isWord ((c :: r).takeWhile Ascii.isWordPart) = true
        rw [List.takeWhile_cons_of_pos (Ascii.isWordPart_of_isWordStart hword)]
        simp only [Ascii.isWord, hword, Bool.true_and]
        exact List.all_takeWhile
      · split at h
        · rename_i hdigit
          cases h
          obtain ⟨whole, fraction, hdigits, hchars, hvalue⟩ := exists_readNumber hdigit r
          rw [hvalue]
          refine ⟨hchars ▸ .number hdigits, ?_⟩
          intro whole' fraction' hdigits' hpre
          exact length_le_readNumber hdigits' (hwhole ▸ hpre)
        · split at h
          · rename_i s rest hs
            cases h
            exact ⟨.symbol s, maximal_of_read? hs hstop⟩
          · cases h

private theorem not_isWordStart_of_isDigit {c : Char} (h : Ascii.isDigit c = true) :
    ¬ Ascii.isWordStart c = true := by
  simp only [Ascii.isDigit, Char.le_def, UInt32.le_iff_toNat_le, Bool.and_eq_true, decide_eq_true_eq] at h
  have hrange : 48 ≤ c.toNat ∧ c.toNat ≤ 57 := h
  rw [Ascii.isWordStart_iff]
  omega

/-- No symbol begins like a string, a word or a number. -/
private theorem exists_first (s : Symbol) :
    ∃ c r, s.text.toList = c :: r ∧ c ≠ '"' ∧ ¬ Ascii.isWordStart c = true ∧ ¬ Ascii.isDigit c = true := by
  cases s <;> exact ⟨_, _, rfl, by decide, by decide, by decide⟩

/-- What is spelled in front of a text and does not go on is read. -/
theorem Spells.read_eq (h : Spells chars kind) (hmax : Maximal kind chars rest) :
    read (chars ++ rest) = .ok ⟨kind, chars, rest⟩ := by
  cases h with
  | word h =>
    have hread := readWord_of_isWord h hmax
    cases chars with
    | nil => cases h
    | cons c cs =>
      have hc : Ascii.isWordStart c = true := (Bool.and_eq_true_iff.1 h).1
      have hquote : c ≠ '"' := by
        rintro rfl
        exact absurd hc (by decide)
      rw [List.cons_append] at hread ⊢
      rw [read, if_neg hquote, if_pos hc, hread]
  | @string body h =>
    have hread := readString?_of_body h rest
    rw [List.cons_append, List.append_assoc, List.singleton_append, read, if_pos rfl, hread]
  | @number whole fraction h =>
    have hread := readNumber_of_maximal h hmax
    cases whole with
    | nil => exact absurd rfl h.whole_ne_nil
    | cons c cs =>
      have hc : Ascii.isDigit c = true := h.whole_isDigit c List.mem_cons_self
      have hquote : c ≠ '"' := by
        rintro rfl
        exact absurd hc (by decide)
      have hstart : ¬ Ascii.isWordStart c = true := not_isWordStart_of_isDigit hc
      rw [List.cons_append, List.cons_append] at hread ⊢
      rw [read, if_neg hquote, if_neg hstart, if_pos hc, hread]
  | symbol s =>
    have hread := read?_of_maximal hmax
    obtain ⟨c, r, htext, hquote, hstart, hdigit⟩ := exists_first s
    rw [htext, List.cons_append] at hread ⊢
    rw [read, if_neg hquote, if_neg hstart, if_neg hdigit, hread, ← htext]

end Lexeme

end FormulaQuery
