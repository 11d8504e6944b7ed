import FormulaQuery.Token.Run

/-!
# Texts set side by side

A text that can be cut into tokens is cut into the same tokens if a line feed and more text follow it
(`lexes_append_newline`): a line feed is a blank, it ends a comment that runs to the end of its line, and it belongs
to no word, number or symbol. Places are left out of account, as they depend on where a text begins.
-/

namespace FormulaQuery

variable {cs more : List Char} {ks : List Token.Kind}

/-- A text goes on as it does if a line feed and more text follow. -/
private theorem head_append_newline {d : Char} {r : List Char} (hd : d ≠ '\n') (h : cs ++ '\n' :: more = d :: r) :
    ∃ r', cs = d :: r' := by
  cases cs with
  | nil =>
    cases h
    exact absurd rfl hd
  | cons c cs =>
    cases h
    exact ⟨cs, rfl⟩

/-! ### Trivia -/

namespace Trivia

/-- Skipping stops at the same place if a line feed and more text follow, or goes on after the line feed. -/
theorem skip_append_newline {mode : Mode} {pos : Position} {c : Cursor} (h : skip mode pos cs = .ok c)
    (more : List Char) (pos' : Position) :
    ∃ pos'', skip mode pos' (cs ++ '\n' :: more) =
      if c.rest = [] then skip .plain pos'' more else .ok ⟨c.rest ++ '\n' :: more, pos''⟩ := by
  fun_induction skip mode pos cs generalizing pos' with
  | case1 pos r ih => exact ih h _
  | case2 pos r ih => exact ih h _
  | case3 pos d r hline hblock hblank ih =>
    obtain ⟨pos'', hskip⟩ := ih h (pos'.advance d)
    refine ⟨pos'', ?_⟩
    rw [List.cons_append, skip, if_pos hblank, hskip]
    · rintro r' hd hr
      obtain ⟨r'', rfl⟩ := head_append_newline (by decide) hr
      exact hline r'' hd rfl
    · rintro r' hd hr
      obtain ⟨r'', rfl⟩ := head_append_newline (by decide) hr
      exact hblock r'' hd rfl
  | case4 pos d r hline hblock hblank =>
    cases h
    refine ⟨pos', ?_⟩
    rw [if_neg (List.cons_ne_nil _ _), List.cons_append, skip, if_neg hblank]
    · rintro r' hd hr
      obtain ⟨r'', rfl⟩ := head_append_newline (by decide) hr
      exact hline r'' hd rfl
    · rintro r' hd hr
      obtain ⟨r'', rfl⟩ := head_append_newline (by decide) hr
      exact hblock r'' hd rfl
  | case5 pos =>
    cases h
    refine ⟨pos'.advance '\n', ?_⟩
    rw [if_pos rfl, List.nil_append, skip, if_pos (by decide)]
    · exact fun r' hd => absurd hd (by decide)
    · exact fun r' hd => absurd hd (by decide)
  | case6 pos d r ih =>
    rw [List.cons_append, skip]
    exact ih h _
  | case7 pos =>
    cases h
    exact ⟨pos'.advance '\n', by rw [if_pos rfl, List.nil_append, skip, if_pos rfl]⟩
  | case8 pos r ih => exact ih h _
  | case9 pos d r hend ih =>
    obtain ⟨pos'', hskip⟩ := ih h (pos'.advance d)
    refine ⟨pos'', ?_⟩
    rw [List.cons_append, skip, hskip]
    rintro r' hd hr
    obtain ⟨r'', rfl⟩ := head_append_newline (by decide) hr
    exact hend r'' hd rfl
  | case10 => cases h

end Trivia

/-! ### Lexemes -/

namespace Lexeme

/-- A part of a text stays as it is if it ends before the text does, or if a line feed ends it too. -/
private theorem span_append {p : Char → Bool} (h : cs.dropWhile p ≠ [] ∨ p '\n' = false) :
    (cs ++ '\n' :: more).takeWhile p = cs.takeWhile p ∧
      (cs ++ '\n' :: more).dropWhile p = cs.dropWhile p ++ '\n' :: more := by
  induction cs with
  | nil =>
    have hp : p '\n' = false := h.resolve_left fun hne => hne rfl
    simp [hp]
  | cons c cs ih =>
    cases hc : p c with
    | false => simp [hc]
    | true =>
      rw [List.dropWhile_cons_of_pos hc] at h
      obtain ⟨htake, hdrop⟩ := ih h
      simp [hc, htake, hdrop]

/-- A number with digits after the point. -/
theorem readNumber_of_point {r : List Char} (hpoint : cs.dropWhile Ascii.isDigit = '.' :: r)
    (hdigits : r.takeWhile Ascii.isDigit ≠ []) :
    readNumber cs = ⟨.number (numberValue (cs.takeWhile Ascii.isDigit) (r.takeWhile Ascii.isDigit)),
      cs.takeWhile Ascii.isDigit ++ '.' :: r.takeWhile Ascii.isDigit, r.dropWhile Ascii.isDigit⟩ := by
  unfold readNumber
  rw [hpoint]
  exact if_neg fun h => hdigits (List.isEmpty_iff.1 h)

/-- A number without a point that belongs to it. -/
theorem readNumber_of_whole
    (h : ∀ r, cs.dropWhile Ascii.isDigit = '.' :: r → r.takeWhile Ascii.isDigit = []) :
    readNumber cs = ⟨.number (numberValue (cs.takeWhile Ascii.isDigit) []), cs.takeWhile Ascii.isDigit,
      cs.dropWhile Ascii.isDigit⟩ := by
  unfold readNumber
  dsimp only
  split
  · rename_i r hr
    rw [h r hr, hr]
    rfl
  · rfl

private theorem readNumber_append (cs more : List Char) :
    readNumber (cs ++ '\n' :: more) =
      ⟨(readNumber cs).kind, (readNumber cs).chars, (readNumber cs).rest ++ '\n' :: more⟩ := by
  have hspan : ∀ r : List Char, (r ++ '\n' :: more).takeWhile Ascii.isDigit = r.takeWhile Ascii.isDigit ∧
      (r ++ '\n' :: more).dropWhile Ascii.isDigit = r.dropWhile Ascii.isDigit ++ '\n' :: more :=
    fun r => span_append (Or.inr (by decide))
  by_cases h : ∃ r, cs.dropWhile Ascii.isDigit = '.' :: r ∧ r.takeWhile Ascii.isDigit ≠ []
  · obtain ⟨r, hpoint, hdigits⟩ := h
    have hpoint' : (cs ++ '\n' :: more).dropWhile Ascii.isDigit = '.' :: (r ++ '\n' :: more) := by
      rw [(hspan cs).2, hpoint, List.cons_append]
    rw [readNumber_of_point hpoint hdigits, readNumber_of_point hpoint' (by rwa [(hspan r).1]), (hspan cs).1,
      (hspan r).1, (hspan r).2]
  · have hwhole : ∀ r, cs.dropWhile Ascii.isDigit = '.' :: r → r.takeWhile Ascii.isDigit = [] :=
      fun r hr => Classical.byContradiction fun hne => h ⟨r, hr, hne⟩
    rw [readNumber_of_whole hwhole, readNumber_of_whole, (hspan cs).1, (hspan cs).2]
    intro r hr
    rw [(hspan cs).2] at hr
    obtain ⟨r', hr'⟩ := head_append_newline (by decide) hr
    rw [hr', List.cons_append] at hr
    cases hr
    rw [(hspan r').1]
    exact hwhole r' hr'

private theorem read?_append {s : Symbol} {r : List Char} (h : Symbol.read? cs = some (s, r)) :
    Symbol.read? (cs ++ '\n' :: more) = some (s, r ++ '\n' :: more) := by
  -- only `<` and `>` could have been the start of a longer symbol
  unfold Symbol.read? at h
  split at h
  case h_4 r hequal hgreater =>
    cases h
    rw [List.cons_append, Symbol.read?]
    · intro r' hr
      obtain ⟨r'', hr''⟩ := head_append_newline (by decide) hr
      exact hequal r'' hr''
    · intro r' hr
      obtain ⟨r'', hr''⟩ := head_append_newline (by decide) hr
      exact hgreater r'' hr''
  case h_6 r hequal =>
    cases h
    rw [List.cons_append, Symbol.read?]
    intro r' hr
    obtain ⟨r'', hr''⟩ := head_append_newline (by decide) hr
    exact hequal r'' hr''
  all_goals cases h <;> rfl

private theorem readString?_append {l : Lexeme} (h : readString? cs = some l) :
    readString? (cs ++ '\n' :: more) = some ⟨l.kind, l.chars, l.rest ++ '\n' :: more⟩ := by
  unfold readString? at h ⊢
  dsimp only at h ⊢
  split at h
  · cases h
  · rename_i q r hr
    cases h
    obtain ⟨htake, hdrop⟩ : (cs ++ '\n' :: more).takeWhile (· != '"') = cs.takeWhile (· != '"') ∧
        (cs ++ '\n' :: more).dropWhile (· != '"') = cs.dropWhile (· != '"') ++ '\n' :: more :=
      span_append (Or.inl (by rw [hr]; exact List.cons_ne_nil q r))
    rw [htake, hdrop, hr]
    rfl

private theorem readWord_append (cs more : List Char) :
    readWord (cs ++ '\n' :: more) = ⟨(readWord cs).kind, (readWord cs).chars,
      (readWord cs).rest ++ '\n' :: more⟩ := by
  obtain ⟨htake, hdrop⟩ : (cs ++ '\n' :: more).takeWhile Ascii.isWordPart = cs.takeWhile Ascii.isWordPart ∧
      (cs ++ '\n' :: more).dropWhile Ascii.isWordPart = cs.dropWhile Ascii.isWordPart ++ '\n' :: more :=
    span_append (Or.inr (by decide))
  unfold readWord
  dsimp only
  rw [htake, hdrop]

/-- The lexeme at the front of a text is the same if a line feed and more text follow. -/
theorem read_append_newline {l : Lexeme} (h : read cs = .ok l) (hcs : cs ≠ []) :
    read (cs ++ '\n' :: more) = .ok ⟨l.kind, l.chars, l.rest ++ '\n' :: more⟩ := by
  cases cs with
  | nil => exact absurd rfl hcs
  | cons c r =>
    unfold read at h ⊢
    dsimp only [List.cons_append] at h ⊢
    split at h
    · rename_i hc
      rw [if_pos hc]
      split at h
      · rename_i l' hl
        cases h
        rw [readString?_append hl]
      · cases h
    · rename_i hc
      rw [if_neg hc]
      split at h
      · rename_i hword
        cases h
        rw [if_pos hword]
        exact congrArg Except.ok (readWord_append (c :: r) more)
      · rename_i hword
        rw [if_neg hword]
        split at h
        · rename_i hdigit
          cases h
          rw [if_pos hdigit]
          exact congrArg Except.ok (readNumber_append (c :: r) more)
        · rename_i hdigit
          rw [if_neg hdigit]
          split at h
          · rename_i s rest hs
            cases h
            rw [← List.cons_append, read?_append hs]
          · cases h

private theorem readNumber_kind_ne_eof (cs : List Char) : (readNumber cs).kind ≠ .eof := by
  unfold readNumber
  dsimp only
  split
  · split <;> rintro ⟨⟩
  · rintro ⟨⟩

private theorem readString?_kind_ne_eof {l : Lexeme} (h : readString? cs = some l) : l.kind ≠ .eof := by
  unfold readString? at h
  dsimp only at h
  split at h
  · cases h
  · cases h
    rintro ⟨⟩

/-- Only the empty text has the end of the formula in front. -/
theorem eq_nil_of_kind_eq_eof {l : Lexeme} (h : read cs = .ok l) (hl : l.kind = .eof) : cs = [] := by
  cases cs with
  | nil => rfl
  | cons c r =>
    unfold read at h
    dsimp only at h
    split at h
    · split at h
      · rename_i l' hs
        cases h
        exact absurd hl (readString?_kind_ne_eof hs)
      · cases h
    · split at h
      · cases h
        cases hl
      · split at h
        · cases h
          exact absurd hl (readNumber_kind_ne_eof _)
        · split at h
          · cases h
            cases hl
          · cases h

end Lexeme

/-! ### Tokens -/

/-- The text is cut into tokens of the kinds `ks` and then ends, wherever it begins. -/
def Lexes (cs : List Char) (ks : List Token.Kind) : Prop :=
  ∀ pos, (Cursor.run ⟨cs, pos⟩).tokens.map (·.kind) = ks ∧ (Cursor.run ⟨cs, pos⟩).ending.error? = none

namespace Cursor

/-- What is skipped and read before a token. -/
theorem next_eq_ok_iff {c c' : Cursor} {t : Token} :
    c.next = (.ok t, c') ↔ ∃ d l, Trivia.skip .plain c.pos c.rest = .ok d ∧ Lexeme.read d.rest = .ok l ∧
      t = ⟨l.kind, d.pos⟩ ∧ c' = ⟨l.rest, d.pos.after l.chars⟩ := by
  unfold next
  constructor
  · intro h
    split at h
    · cases h
    · rename_i d hd
      split at h
      · rename_i l hl
        cases h
        exact ⟨d, l, hd, hl, rfl, rfl⟩
      · cases h
      · cases h
  · rintro ⟨d, l, hd, hl, rfl, rfl⟩
    rw [hd]
    dsimp only
    rw [hl]

theorem run_of_error {c c' : Cursor} {e : LexError} (h : c.next = (.error e, c')) :
    c.run = ⟨[], if c'.rest.isEmpty then .broken e c'.pos else .stuck e⟩ := by
  rw [run, h]

theorem run_of_eof {c c' : Cursor} {t : Token} (h : c.next = (.ok t, c')) (ht : t.kind = .eof) :
    c.run = ⟨[], .closed t.pos⟩ := by
  rw [run, h]
  exact dif_pos ht

theorem run_of_token {c c' : Cursor} {t : Token} (h : c.next = (.ok t, c')) (ht : t.kind ≠ .eof) :
    c.run = ⟨t :: c'.run.tokens, c'.run.ending⟩ := by
  rw [run, h]
  exact dif_neg ht

/-- The first answer decides on all. -/
theorem run_eq_of_next_eq {c d : Cursor} (h : c.next = d.next) : c.run = d.run := by
  obtain ⟨answer, d', hd⟩ : ∃ answer d', d.next = (answer, d') := ⟨_, _, rfl⟩
  rw [hd] at h
  cases answer with
  | error e => rw [run_of_error h, run_of_error hd]
  | ok t =>
    by_cases ht : t.kind = .eof
    · rw [run_of_eof h ht, run_of_eof hd ht]
    · rw [run_of_token h ht, run_of_token hd ht]

end Cursor

theorem lexes_nil : Lexes [] [] := by
  intro pos
  rw [Cursor.run]
  exact ⟨rfl, rfl⟩

/-- A blank may stand before a text. -/
theorem Lexes.cons_space (h : Lexes cs ks) : Lexes (' ' :: cs) ks := by
  intro pos
  have hnext : Cursor.next ⟨' ' :: cs, pos⟩ = Cursor.next ⟨cs, pos.advance ' '⟩ := by
    unfold Cursor.next
    dsimp only
    rw [Trivia.skip, if_pos (by decide)]
    · exact fun r hd => absurd hd (by decide)
    · exact fun r hd => absurd hd (by decide)
  rw [Cursor.run_eq_of_next_eq hnext]
  exact h _

/-- A symbol may stand before a text, if a blank follows where a longer symbol or a comment could begin. -/
theorem Lexes.cons_symbol {s : Symbol} (h : Lexes cs ks) (hs : s.isOperator = true → ∃ r, cs = ' ' :: r) :
    Lexes (s.text.toList ++ cs) (.symbol s :: ks) := by
  have hread : Symbol.read? (s.text.toList ++ cs) = some (s, cs) := by
    cases s
    case leftParen | rightParen | comma | dot => rfl
    all_goals
      obtain ⟨r, rfl⟩ := hs rfl
      rfl
  obtain ⟨c, r, heq, hblank, hquote, hword, hdigit, hslash⟩ : ∃ c r, s.text.toList ++ cs = c :: r ∧
      ¬Blank.isBlank c = true ∧ c ≠ '"' ∧ ¬Ascii.isWordStart c = true ∧ ¬Ascii.isDigit c = true ∧
      (c = '/' → ∃ r', r = ' ' :: r') := by
    cases s
    case slash => exact ⟨_, _, rfl, by decide, by decide, by decide, by decide, fun _ => hs rfl⟩
    all_goals exact ⟨_, _, rfl, by decide, by decide, by decide, by decide, fun hc => absurd hc (by decide)⟩
  intro pos
  have hnext : Cursor.next ⟨s.text.toList ++ cs, pos⟩ = (.ok ⟨.symbol s, pos⟩, ⟨cs, pos.after s.text.toList⟩) := by
    refine Cursor.next_eq_ok_iff.2 ⟨⟨s.text.toList ++ cs, pos⟩, ⟨.symbol s, s.text.toList, cs⟩, ?_, ?_, rfl, rfl⟩
    · rw [heq, Trivia.skip, if_neg hblank]
      · intro r' hc hr
        obtain ⟨r'', rfl⟩ := hslash hc
        cases hr
      · intro r' hc hr
        obtain ⟨r'', rfl⟩ := hslash hc
        cases hr
    · rw [heq] at hread ⊢
      rw [Lexeme.read, if_neg hquote, if_neg hword, if_neg hdigit, hread]
  rw [Cursor.run_of_token hnext (by rintro ⟨⟩)]
  exact ⟨congrArg _ (h _).1, (h _).2⟩

/-- A text is cut into the same tokens if a line feed and more text follow. -/
theorem lexes_append_newline {c : Cursor} (hc : c.run.ending.error? = none) (h : Lexes more ks) :
    Lexes (c.rest ++ '\n' :: more) (c.run.tokens.map (·.kind) ++ ks) := by
  induction c using Cursor.run.induct with
  | case1 c e c' hnext =>
    rw [Cursor.run_of_error hnext] at hc
    dsimp only at hc
    split at hc <;> cases hc
  | case2 c t c' hnext heof =>
    obtain ⟨d, l, hskip, hread, rfl, rfl⟩ := Cursor.next_eq_ok_iff.1 hnext
    intro pos
    obtain ⟨pos', hskip'⟩ := Trivia.skip_append_newline hskip more pos
    rw [if_pos (Lexeme.eq_nil_of_kind_eq_eof hread heof)] at hskip'
    have hsame : Cursor.next ⟨c.rest ++ '\n' :: more, pos⟩ = Cursor.next ⟨more, pos'⟩ := by
      unfold Cursor.next
      rw [hskip']
    rw [Cursor.run_eq_of_next_eq hsame, Cursor.run_of_eof hnext heof]
    exact h pos'
  | case3 c t c' hnext heof ih =>
    obtain ⟨d, l, hskip, hread, rfl, rfl⟩ := Cursor.next_eq_ok_iff.1 hnext
    rw [Cursor.run_of_token hnext heof] at hc ⊢
    have hne : d.rest ≠ [] := by
      intro hnil
      rw [hnil, Lexeme.read] at hread
      cases hread
      exact heof rfl
    intro pos
    obtain ⟨pos', hskip'⟩ := Trivia.skip_append_newline hskip more pos
    rw [if_neg hne] at hskip'
    have hnext' : Cursor.next ⟨c.rest ++ '\n' :: more, pos⟩ =
        (.ok ⟨l.kind, pos'⟩, ⟨l.rest ++ '\n' :: more, pos'.after l.chars⟩) :=
      Cursor.next_eq_ok_iff.2 ⟨_, _, hskip', Lexeme.read_append_newline hread hne, rfl, rfl⟩
    obtain ⟨hkinds, hending⟩ := ih hc (pos'.after l.chars)
    rw [Cursor.run_of_token hnext' heof]
    exact ⟨congrArg _ hkinds, hending⟩

end FormulaQuery
