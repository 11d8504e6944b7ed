import FormulaQuery.Proofs.Spelling
import Mathlib.Logic.ExistsUnique

/-!
# Lexers that are called forever

A lexer may be called any number of times, also after a failure and after the end of the formula. Its answers are
those of its run (`Cursor.answer_eq`): finitely many tokens, and then an ending that repeats. What one call can do
is said by `Cursor.gives_next`; all else follows by induction on the run.
-/

namespace FormulaQuery

/-! ### Calls and answers -/

namespace Cursor

/-- Where the lexer is after the given number of calls. -/
def after (c : Cursor) : Nat → Cursor
  | 0 => c
  | n + 1 => c.next.2.after n

/-- The answer to the call that follows the given number of calls. -/
def answer (c : Cursor) (n : Nat) : Except LexError Token := (c.after n).next.1

/-- Takes tokens until the end of the formula or a failure is met, in at most the given number of calls. -/
def collect (c : Cursor) : Nat → Option (Except LexError (List Token))
  | 0 => none
  | n + 1 =>
    match c.next with
    | (.error e, _) => some (.error e)
    | (.ok t, c') => if t.kind = .eof then some (.ok [t]) else (c'.collect n).map fun r => r.map (t :: ·)

end Cursor

namespace Ending

/-- The answers of an ending, the first of them counted zero. -/
def answer : Ending → Nat → Except LexError Token
  | closed p, _ => .ok ⟨.eof, p⟩
  | stuck e, _ => .error e
  | broken e _, 0 => .error e
  | broken _ p, _ + 1 => .ok ⟨.eof, p⟩

/-- The ending of a text with the given number of characters: its end is met, or a character that begins no token is
never passed, or a string or comment does not end, which is reported before the end is met. -/
def IsAt (length : Nat) : Ending → Prop
  | closed p => p.offset = length
  | stuck e => ∃ c, e.cause = .unexpected c
  | broken e p => (e.cause = .unterminatedString ∨ e.cause = .unterminatedComment) ∧ p.offset = length

end Ending

namespace Run

/-- The answers of a run: its tokens, and then those of its ending. -/
def answer (r : Run) (n : Nat) : Except LexError Token :=
  match r.tokens[n]? with
  | some t => .ok t
  | none => r.ending.answer (n - r.tokens.length)

/-- A run over a text with the given number of characters. -/
structure Settles (length : Nat) (r : Run) : Prop where
  count_le : r.tokens.length ≤ length
  kind_ne_eof : ∀ t ∈ r.tokens, t.kind ≠ .eof
  increasing : r.tokens.Pairwise fun t u => t.pos.offset < u.pos.offset
  ending : r.ending.IsAt length

end Run

/-! ### One call -/

/-- Lexemes fail on strings without an end and on characters that begin none. -/
theorem Lexeme.cause_of_read_eq_error {cs : List Char} {cause : LexError.Cause} (h : read cs = .error cause) :
    cause = .unterminatedString ∨ ∃ c, cause = .unexpected c := by
  unfold read at h
  split at h
  · cases h
  · split at h
    · split at h
      · cases h
      · cases h
        exact Or.inl rfl
    · split at h
      · cases h
      · split at h
        · cases h
        · split at h
          · cases h
          · cases h
            exact Or.inr ⟨_, rfl⟩

namespace Cursor

variable {c c' : Cursor} {t : Token} {e : LexError} {result : Except LexError Token} {text : List Char}

theorem next_of_skip_error {p : Position} (h : Trivia.skip .plain c.pos c.rest = .error p) :
    c.next = (.error ⟨.unterminatedComment, p⟩, ⟨[], p⟩) := by
  unfold next
  rw [h]

/-- Where no lexeme is read the lexer stays, unless a string does not end. -/
theorem next_of_read_error {d : Cursor} {cause : LexError.Cause} (hskip : Trivia.skip .plain c.pos c.rest = .ok d)
    (hread : Lexeme.read d.rest = .error cause) :
    c.next = (.error ⟨cause, d.pos⟩, if cause = .unterminatedString then ⟨[], d.pos.after d.rest⟩ else d) := by
  unfold next
  rw [hskip]
  dsimp only
  rw [hread]
  cases cause <;> rfl

/-- What a call can give: a comment without an end, a token behind trivia, a string without an end, or a character
that begins no token, where the lexer stays. -/
inductive Gives (c : Cursor) : Except LexError Token × Cursor → Prop
  | comment : Gives c (.error ⟨.unterminatedComment, c.pos.after c.rest⟩, ⟨[], c.pos.after c.rest⟩)
  | token {w : List Char} {l : Lexeme} (hw : c.rest = w ++ (l.chars ++ l.rest))
    (hread : Lexeme.read (l.chars ++ l.rest) = .ok l) :
    Gives c (.ok ⟨l.kind, c.pos.after w⟩, ⟨l.rest, (c.pos.after w).after l.chars⟩)
  | string {w r : List Char} (hw : c.rest = w ++ r) :
    Gives c (.error ⟨.unterminatedString, c.pos.after w⟩, ⟨[], (c.pos.after w).after r⟩)
  | unexpected {w r : List Char} {d : Char} (hw : c.rest = w ++ r) (hstop : ¬ Trivia.Begins r)
    (hread : Lexeme.read r = .error (.unexpected d)) :
    Gives c (.error ⟨.unexpected d, c.pos.after w⟩, ⟨r, c.pos.after w⟩)

theorem gives_next (c : Cursor) : c.Gives c.next := by
  cases hskip : Trivia.skip .plain c.pos c.rest with
  | error p =>
    rw [next_of_skip_error hskip, Trivia.eq_after_of_skip_eq_error hskip]
    exact .comment
  | ok d =>
    obtain ⟨w, hw, hpos, -, hstop⟩ := Trivia.skip_eq_ok_iff.1 hskip
    obtain ⟨r, pos⟩ := d
    obtain rfl : pos = c.pos.after w := hpos
    cases hread : Lexeme.read r with
    | ok l =>
      have hchars := Lexeme.chars_append_rest hread
      rw [next_eq_ok_iff.2 ⟨_, l, hskip, hread, rfl, rfl⟩]
      exact .token (by rw [hchars]; exact hw) (by rw [hchars]; exact hread)
    | error cause =>
      rw [next_of_read_error hskip hread]
      rcases Lexeme.cause_of_read_eq_error hread with rfl | ⟨d, rfl⟩
      · exact .string hw
      · exact .unexpected hw hstop hread

/-- The lexer stands in a text, of which it has the rest before it. -/
def IsIn (text : List Char) (c : Cursor) : Prop := ∃ before, text = before ++ c.rest ∧ c.pos = .behind before

theorem isIn_next (h : c.IsIn text) (hnext : c.next = (result, c')) : c'.IsIn text := by
  obtain ⟨before, rfl, hpos⟩ := h
  have hgives := c.gives_next
  rw [hnext] at hgives
  cases hgives with
  | comment => exact ⟨before ++ c.rest, (List.append_nil _).symm, by rw [hpos, Position.after_behind]⟩
  | @token w l hw =>
    refine ⟨before ++ w ++ l.chars, by simp [hw], ?_⟩
    rw [hpos, Position.after_behind, Position.after_behind]
  | @string w r hw =>
    refine ⟨before ++ w ++ r, by simp [hw], ?_⟩
    rw [hpos, Position.after_behind, Position.after_behind]
  | @unexpected w r d hw => exact ⟨before ++ w, by simp [hw], by rw [hpos, Position.after_behind]⟩

private theorem IsIn.offset_add_length (h : c.IsIn text) : c.pos.offset + c.rest.length = text.length := by
  obtain ⟨before, rfl, hpos⟩ := h
  rw [hpos, Position.offset_behind, List.length_append]

/-- At the end of the text the lexer stays there. -/
theorem next_of_rest_eq_nil (h : c.rest = []) : c.next = (.ok ⟨.eof, c.pos⟩, c) := by
  obtain ⟨rest, pos⟩ := c
  obtain rfl : rest = [] := h
  rfl

/-- A failure is met again and again, or leaves the lexer at the end of the text. -/
theorem next_eq_error (h : c.next = (.error e, c')) :
    (∃ d, e.cause = .unexpected d) ∧ c'.rest ≠ [] ∧ c'.next = (.error e, c') ∨
      (e.cause = .unterminatedString ∨ e.cause = .unterminatedComment) ∧ c'.rest = [] := by
  have hgives := c.gives_next
  rw [h] at hgives
  cases hgives with
  | comment => exact Or.inr ⟨Or.inr rfl, rfl⟩
  | string => exact Or.inr ⟨Or.inl rfl, rfl⟩
  | @unexpected w r d hw hstop hread =>
    refine Or.inl ⟨⟨d, rfl⟩, ?_, ?_⟩
    · rintro rfl
      cases hread
    · have hskip : Trivia.skip .plain (c.pos.after w) r = .ok ⟨r, c.pos.after w⟩ :=
        Trivia.Skipped.nil.skip_eq hstop (c.pos.after w)
      exact next_of_read_error (d := ⟨r, c.pos.after w⟩) hskip hread

/-- The end of the formula is met at the end of the text. -/
theorem next_eq_eof (h : c.next = (.ok t, c')) (ht : t.kind = .eof) : c'.rest = [] ∧ c'.pos = t.pos := by
  obtain ⟨d, l, -, hread, rfl, rfl⟩ := next_eq_ok_iff.1 h
  have hnil := Lexeme.eq_nil_of_kind_eq_eof hread ht
  rw [hnil] at hread
  cases hread
  exact ⟨rfl, rfl⟩

/-! ### Any number of calls -/

private theorem isIn_after (h : c.IsIn text) (n : Nat) : (c.after n).IsIn text := by
  induction n generalizing c with
  | zero => exact h
  | succ n ih => exact ih (isIn_next h rfl)

private theorem answer_succ (h : c.next = (result, c')) (n : Nat) : c.answer (n + 1) = c'.answer n := by
  unfold Cursor.answer
  rw [after, h]

private theorem answer_zero (h : c.next = (result, c')) : c.answer 0 = result := by
  unfold Cursor.answer
  rw [after, h]

/-- A lexer that stays where it is gives the same answer forever. -/
theorem answer_of_next_eq_self (h : c.next = (result, c)) (n : Nat) : c.answer n = result := by
  induction n with
  | zero => exact answer_zero h
  | succ n ih => rw [answer_succ h, ih]

/-- The answers are those of the run. -/
theorem answer_eq (c : Cursor) (n : Nat) : c.answer n = c.run.answer n := by
  induction c using Cursor.run.induct generalizing n with
  | case1 c e c' hnext =>
    rw [run_of_error hnext]
    rcases next_eq_error hnext with ⟨-, hrest, hstay⟩ | ⟨-, hrest⟩
    · rw [if_neg (by simpa using hrest)]
      cases n with
      | zero => exact answer_zero hnext
      | succ n =>
        rw [answer_succ hnext, answer_of_next_eq_self hstay]
        rfl
    · rw [if_pos (by simpa using hrest)]
      cases n with
      | zero => exact answer_zero hnext
      | succ n =>
        rw [answer_succ hnext, answer_of_next_eq_self (next_of_rest_eq_nil hrest)]
        rfl
  | case2 c t c' hnext heof =>
    obtain ⟨hrest, hpos⟩ := next_eq_eof hnext heof
    obtain ⟨kind, pos⟩ := t
    obtain rfl : kind = .eof := heof
    rw [run_of_eof hnext rfl]
    cases n with
    | zero => exact answer_zero hnext
    | succ n =>
      rw [answer_succ hnext, answer_of_next_eq_self (next_of_rest_eq_nil hrest), hpos]
      rfl
  | case3 c t c' hnext heof ih =>
    rw [run_of_token hnext heof]
    cases n with
    | zero => exact answer_zero hnext
    | succ n =>
      rw [answer_succ hnext, ih n]
      simp [Run.answer]

/-- The tokens of a run stand where the lexer is or behind it, each behind the one before it. -/
theorem increasing_run (c : Cursor) :
    (∀ t ∈ c.run.tokens, c.pos.offset ≤ t.pos.offset) ∧
      c.run.tokens.Pairwise fun t u => t.pos.offset < u.pos.offset := by
  induction c using Cursor.run.induct with
  | case1 c e c' hnext =>
    rw [run_of_error hnext]
    exact ⟨List.forall_mem_nil _, .nil⟩
  | case2 c t c' hnext heof =>
    rw [run_of_eof hnext heof]
    exact ⟨List.forall_mem_nil _, .nil⟩
  | case3 c t c' hnext heof ih =>
    rw [run_of_token hnext heof]
    obtain ⟨hle, hpairwise⟩ := ih
    obtain ⟨hfirst, hbehind⟩ := offset_of_next_eq_ok hnext heof
    have hlater : ∀ u ∈ c'.run.tokens, t.pos.offset < u.pos.offset := by
      intro u hu
      have hu := hle u hu
      omega
    refine ⟨List.forall_mem_cons.2 ⟨hfirst, fun u hu => ?_⟩, List.pairwise_cons.2 ⟨hlater, hpairwise⟩⟩
    have hu := hlater u hu
    omega

private theorem bounded_run (h : c.IsIn text) :
    c.run.tokens.length ≤ c.rest.length ∧ (∀ t ∈ c.run.tokens, t.kind ≠ .eof) ∧ c.run.ending.IsAt text.length := by
  induction c using Cursor.run.induct with
  | case1 c e c' hnext =>
    have hplace := (isIn_next h hnext).offset_add_length
    rw [run_of_error hnext]
    refine ⟨Nat.zero_le _, List.forall_mem_nil _, ?_⟩
    rcases next_eq_error hnext with ⟨hcause, hrest, -⟩ | ⟨hcause, hrest⟩
    · rw [if_neg (by simpa using hrest)]
      exact hcause
    · rw [if_pos (by simpa using hrest)]
      rw [hrest] at hplace
      exact ⟨hcause, hplace⟩
  | case2 c t c' hnext heof =>
    have hplace := (isIn_next h hnext).offset_add_length
    obtain ⟨hrest, hpos⟩ := next_eq_eof hnext heof
    rw [run_of_eof hnext heof]
    rw [hrest, hpos] at hplace
    exact ⟨Nat.zero_le _, List.forall_mem_nil _, hplace⟩
  | case3 c t c' hnext heof ih =>
    obtain ⟨hcount, hkind, hending⟩ := ih (isIn_next h hnext)
    have hlt := next_length_lt hnext heof
    rw [run_of_token hnext heof]
    refine ⟨?_, List.forall_mem_cons.2 ⟨heof, hkind⟩, hending⟩
    rw [List.length_cons]
    omega

private theorem settles_run (h : c.IsIn text) : c.run.Settles text.length := by
  obtain ⟨hcount, hkind, hending⟩ := bounded_run h
  have hlength := h.offset_add_length
  exact ⟨by omega, hkind, c.increasing_run.2, hending⟩

/-- Collecting tokens takes no more calls than there are characters left, and one. -/
theorem collect_eq {n : Nat} (h : c.rest.length < n) : c.collect n = some c.run.tokens? := by
  induction n generalizing c with
  | zero => exact absurd h (Nat.not_lt_zero _)
  | succ n ih =>
    rw [collect]
    split
    · rename_i e c' hnext
      rw [run_of_error hnext]
      unfold Run.tokens?
      dsimp only
      split_ifs <;> rfl
    · rename_i t c' hnext
      split
      · rename_i heof
        rw [run_of_eof hnext heof]
        obtain ⟨kind, pos⟩ := t
        cases heof
        rfl
      · rename_i heof
        have hlt := next_length_lt hnext heof
        rw [run_of_token hnext heof, ih (by omega)]
        unfold Run.tokens?
        dsimp only
        cases c'.run.ending <;> rfl

end Cursor

/-! ### Runs are known by their answers -/

namespace Ending

variable {length : Nat} {a b : Ending}

/-- The first answer of an ending is no token but the end of the formula. -/
theorem answer_zero_ne (a : Ending) {t : Token} (ht : t.kind ≠ .eof) : a.answer 0 ≠ .ok t := by
  cases a with
  | closed p =>
    rintro ⟨⟩
    exact ht rfl
  | stuck e | broken e p => rintro ⟨⟩

private theorem eq_of_answer_eq (h : ∀ n, a.answer n = b.answer n) : a = b := by
  have hfirst := h 0
  have hsecond := h 1
  cases a with
  | closed p =>
    cases b with
    | closed q =>
      cases hfirst
      rfl
    | stuck e | broken e q => cases hfirst
  | stuck e =>
    cases b with
    | closed q => cases hfirst
    | stuck e' =>
      cases hfirst
      rfl
    | broken e' q => cases hsecond
  | broken e p =>
    cases b with
    | closed q => cases hfirst
    | stuck e' => cases hsecond
    | broken e' q =>
      cases hfirst
      cases hsecond
      rfl

end Ending

/-- Two runs with the same answers are equal. -/
theorem Run.eq_of_answer_eq {r r' : Run} (hr : ∀ t ∈ r.tokens, t.kind ≠ .eof) (hr' : ∀ t ∈ r'.tokens, t.kind ≠ .eof)
    (h : ∀ n, r.answer n = r'.answer n) : r = r' := by
  obtain ⟨ts, a⟩ := r
  obtain ⟨ts', a'⟩ := r'
  induction ts generalizing ts' with
  | nil =>
    cases ts' with
    | nil =>
      have hending : a = a' := Ending.eq_of_answer_eq h
      rw [hending]
    | cons t' ts' => exact absurd (h 0) (a.answer_zero_ne (hr' t' List.mem_cons_self))
  | cons t ts ih =>
    cases ts' with
    | nil => exact absurd (h 0).symm (a'.answer_zero_ne (hr t List.mem_cons_self))
    | cons t' ts' =>
      have hfirst : t = t' := Except.ok.inj (h 0)
      have hmore : ∀ n, Run.answer ⟨ts, a⟩ n = Run.answer ⟨ts', a'⟩ n := by
        intro n
        simpa [Run.answer] using h (n + 1)
      have hrest := ih (List.forall_mem_cons.1 hr).2 ts' (List.forall_mem_cons.1 hr').2 hmore
      cases hrest
      rw [hfirst]

theorem Cursor.isIn_ofString (s : String) : (Cursor.ofString s).IsIn s.toList := ⟨[], rfl, rfl⟩

/-- A lexer over a text of `n` characters settles, however often it is called. There is exactly one run that its
answers are those of: at most `n` tokens at increasing offsets, and then the end of the formula at offset `n`
forever, or one unexpected character forever, or a string or comment without an end, reported once, and the end of
the formula forever. The lexer is never behind the text, and `n + 1` calls are enough to collect all tokens. -/
theorem Cursor.answers_settle (s : String) :
    (∃! r : Run, r.Settles s.length ∧ ∀ n, (Cursor.ofString s).answer n = r.answer n) ∧
      (∀ n, ((Cursor.ofString s).after n).pos.offset ≤ s.length) ∧
      (Cursor.ofString s).collect (s.length + 1) = some (tokenize s) := by
  have hin := Cursor.isIn_ofString s
  refine ⟨⟨(Cursor.ofString s).run, ⟨?_, (Cursor.ofString s).answer_eq⟩, ?_⟩, ?_, ?_⟩
  · rw [← String.length_toList]
    exact settles_run hin
  · rintro r ⟨hr, hanswer⟩
    refine Run.eq_of_answer_eq hr.kind_ne_eof (settles_run hin).kind_ne_eof fun n => ?_
    rw [← hanswer n, answer_eq]
  · intro n
    have hplace := (isIn_after hin n).offset_add_length
    rw [String.length_toList] at hplace
    omega
  · refine collect_eq ?_
    show s.toList.length < s.length + 1
    rw [String.length_toList]
    exact Nat.lt_succ_self _

end FormulaQuery
