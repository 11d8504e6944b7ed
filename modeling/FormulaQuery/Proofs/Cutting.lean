import FormulaQuery.Proofs.Spelling

/-!
# Texts cut into lexemes

A formula that has tokens is cut into lexemes with trivia around them, and in one way only (`tokenize_iff_cutting`).
The cutting is known from the tokens with their places, and also from the rule that every lexeme goes as far as it
can.
-/

namespace FormulaQuery

/-- Lexemes of tokens, with trivia before each of them and after the last one. -/
inductive Cutting where
  | last (trivia : List Char)
  | lexeme (trivia chars : List Char) (kind : Token.Kind) (more : Cutting)

namespace Cutting

/-- The text that is cut. -/
def text : Cutting → List Char
  | last w => w
  | lexeme w l _ more => w ++ (l ++ more.text)

/-- The tokens of the lexemes and the end of the formula, each placed behind all that comes before it. -/
def tokens (before : List Char) : Cutting → List Token
  | last w => [⟨.eof, .behind (before ++ w)⟩]
  | lexeme w l kind more => ⟨kind, .behind (before ++ w)⟩ :: more.tokens (before ++ w ++ l)

/-- Trivia are trivia, and lexemes spell their tokens. -/
def Fits : Cutting → Prop
  | last w => Trivia.Skipped [] w
  | lexeme w l kind more => Trivia.Skipped (l ++ more.text) w ∧ Lexeme.Spells l kind ∧ more.Fits

/-- No lexeme goes on in the text after it. -/
def IsMaximal : Cutting → Prop
  | last _ => True
  | lexeme _ l kind more => Lexeme.Maximal kind l more.text ∧ more.IsMaximal

/-! ### From runs to cuttings -/

/-- A run that ends well cuts what is left of the text. -/
theorem exists_of_run {c : Cursor} {before : List Char} (hpos : c.pos = .behind before)
    (hending : c.run.ending.error? = none) :
    ∃ k : Cutting, k.text = c.rest ∧ k.Fits ∧ k.IsMaximal ∧
      k.tokens before = c.run.tokens ++ [⟨.eof, .behind (before ++ c.rest)⟩] := by
  induction c using Cursor.run.induct generalizing before with
  | case1 c e c' hnext =>
    rw [Cursor.run_of_error hnext] at hending
    dsimp only at hending
    split at hending <;> cases hending
  | case2 c t c' hnext heof =>
    obtain ⟨d, l, hskip, hread, rfl, rfl⟩ := Cursor.next_eq_ok_iff.1 hnext
    obtain ⟨w, hw, -, hskipped, -⟩ := Trivia.skip_eq_ok_iff.1 hskip
    rw [Lexeme.eq_nil_of_kind_eq_eof hread heof, List.append_nil] at hw
    rw [Lexeme.eq_nil_of_kind_eq_eof hread heof] at hskipped
    rw [Cursor.run_of_eof hnext heof, hw]
    exact ⟨.last w, rfl, hskipped, True.intro, rfl⟩
  | case3 c t c' hnext heof ih =>
    obtain ⟨d, l, hskip, hread, rfl, rfl⟩ := Cursor.next_eq_ok_iff.1 hnext
    obtain ⟨w, hw, hd, hskipped, hstop⟩ := Trivia.skip_eq_ok_iff.1 hskip
    have hchars := Lexeme.chars_append_rest hread
    obtain ⟨hspells, hmax⟩ := Lexeme.spells_of_read hread hstop heof
    rw [Cursor.run_of_token hnext heof] at hending ⊢
    have hplace : d.pos.after l.chars = .behind (before ++ w ++ l.chars) := by
      rw [hd, hpos, Position.after_behind, Position.after_behind]
    obtain ⟨k, htext, hfits, hmaximal, htokens⟩ := ih hplace hending
    have hrest : k.text = l.rest := htext
    refine ⟨.lexeme w l.chars l.kind k, ?_, ⟨?_, hspells, hfits⟩, ⟨?_, hmaximal⟩, ?_⟩
    · rw [text, hrest, hchars, hw]
    · rw [hrest, hchars]
      exact hskipped
    · rw [hrest]
      exact hmax
    · rw [tokens, htokens, hd, hpos, Position.after_behind, hw, ← hchars]
      simp

/-! ### From cuttings to runs -/

/-- The text of a cutting whose lexemes do not go on is cut like that. -/
theorem run_text {k : Cutting} (hfits : k.Fits) (hmax : k.IsMaximal) (before : List Char) :
    (Cursor.run ⟨k.text, .behind before⟩).ending = .closed (.behind (before ++ k.text)) ∧
      k.tokens before = (Cursor.run ⟨k.text, .behind before⟩).tokens ++ [⟨.eof, .behind (before ++ k.text)⟩] := by
  induction k generalizing before with
  | last w =>
    have hskip := hfits.skip_eq (by rintro ⟨⟩) (.behind before)
    rw [List.append_nil, Position.after_behind] at hskip
    have hnext : Cursor.next ⟨w, .behind before⟩ =
        (.ok ⟨.eof, .behind (before ++ w)⟩, ⟨[], .behind (before ++ w)⟩) :=
      Cursor.next_eq_ok_iff.2 ⟨_, _, hskip, rfl, rfl, rfl⟩
    rw [text, Cursor.run_of_eof hnext rfl]
    exact ⟨rfl, rfl⟩
  | lexeme w l kind more ih =>
    obtain ⟨hw, hspells, hmore⟩ := hfits
    obtain ⟨hl, hmaxMore⟩ := hmax
    have hskip := hw.skip_eq (hspells.not_begins hl) (.behind before)
    have hnext : Cursor.next ⟨w ++ (l ++ more.text), .behind before⟩ =
        (.ok ⟨kind, .behind (before ++ w)⟩, ⟨more.text, .behind (before ++ w ++ l)⟩) := by
      refine Cursor.next_eq_ok_iff.2 ⟨_, _, hskip, hspells.read_eq hl, ?_, ?_⟩
      · rw [Position.after_behind]
      · rw [Position.after_behind, Position.after_behind]
    have heof : kind ≠ .eof := by
      rintro rfl
      cases hspells
    obtain ⟨hending, htokens⟩ := ih hmore hmaxMore (before ++ w ++ l)
    rw [text, tokens, Cursor.run_of_token hnext heof, htokens, hending]
    simp

/-! ### One cutting only -/

/-- Of two spellings of a token, only numerals can be parts of each other. -/
theorem isDigit_of_spells_append {chars chars' r : List Char} {kind kind' : Token.Kind} {d : Char}
    (h : Lexeme.Spells chars kind) (h' : Lexeme.Spells chars' kind') (hkind : kind = kind')
    (hchars : chars' = chars ++ d :: r) : Ascii.isDigit d = true ∨ d = '.' := by
  have hlength : chars.length < chars'.length := by
    rw [hchars, List.length_append, List.length_cons]
    omega
  cases h with
  | word =>
    cases h' with
    | word =>
      have hupper := congrArg (·.toList.length) (Token.Kind.word.inj hkind)
      simp only [Ascii.upper, String.toList_ofList, List.length_map] at hupper
      omega
    | string | number | symbol => cases hkind
  | string =>
    cases h' with
    | string =>
      have hbody := congrArg (·.toList.length) (Token.Kind.string.inj hkind)
      simp only [String.toList_ofList] at hbody
      simp only [List.length_cons, List.length_append] at hlength
      omega
    | word | number | symbol => cases hkind
  | number =>
    cases h' with
    | number hdigits =>
      refine hdigits.mem_append_pointed ?_
      rw [hchars]
      exact List.mem_append_right _ List.mem_cons_self
    | word | string | symbol => cases hkind
  | symbol =>
    cases h' with
    | symbol =>
      cases hkind
      omega
    | word | string | number => cases hkind

/-- The trivia that a cutting begins with. -/
def front : Cutting → List Char
  | last w => w
  | lexeme w _ _ _ => w

private theorem exists_text_eq (k : Cutting) : ∃ r, k.text = k.front ++ r := by
  cases k with
  | last w => exact ⟨[], (List.append_nil w).symm⟩
  | lexeme w l kind more => exact ⟨l ++ more.text, rfl⟩

private theorem Fits.head_front {k : Cutting} (h : k.Fits) {c : Char} {r : List Char} (hr : k.front = c :: r) :
    Blank.isBlank c = true ∨ c = '/' := by
  cases k with
  | last w =>
    have hskipped : Trivia.Skipped [] (c :: r) := hr ▸ h
    exact hskipped.head
  | lexeme w l kind more =>
    have hskipped : Trivia.Skipped (l ++ more.text) (c :: r) := hr ▸ h.1
    exact hskipped.head

/-- The first token stands behind the trivia at the front. -/
theorem exists_tokens_eq (k : Cutting) (before : List Char) :
    ∃ kind ts, k.tokens before = ⟨kind, .behind (before ++ k.front)⟩ :: ts := by
  cases k with
  | last w => exact ⟨_, _, rfl⟩
  | lexeme w l kind more => exact ⟨_, _, rfl⟩

/-- A lexeme is not shorter than another spelling of its token, if the tokens after both stand at the same place. -/
private theorem not_length_lt {l l' : List Char} {kind : Token.Kind} {k k' : Cutting} (hl : Lexeme.Spells l kind)
    (hl' : Lexeme.Spells l' kind) (hk : k.Fits) (htext : l ++ k.text = l' ++ k'.text)
    (hplace : l.length + k.front.length = l'.length + k'.front.length) : ¬ l.length < l'.length := by
  intro hlt
  obtain ⟨r, hr⟩ := k.exists_text_eq
  cases hfront : k.front with
  | nil =>
    rw [hfront, List.length_nil] at hplace
    omega
  | cons c w =>
    -- the trivia after the shorter spelling would begin inside of the longer one
    rw [hr, hfront] at htext
    obtain ⟨m, hm, hrest⟩ | ⟨m, hm, -⟩ := List.append_eq_append_iff.1 htext
    · cases m with
      | nil =>
        rw [hm, List.append_nil] at hlt
        omega
      | cons d m =>
        obtain rfl : c = d := (List.cons.inj hrest).1
        have hdigit := isDigit_of_spells_append hl hl' rfl hm
        rcases hk.head_front hfront with hc | rfl
        · have hrange := Blank.toNat_of_isBlank hc
          rcases hdigit with hdigit | rfl
          · have hpart := (Ascii.isWordPart_iff c).1 (Ascii.isWordPart_of_isDigit hdigit)
            omega
          · exact absurd hc (by decide)
        · exact absurd hdigit (by decide)
    · rw [hm, List.length_append] at hlt
      omega

/-- A cutting is known from its text and its tokens. -/
theorem Fits.eq_of_tokens_eq {k k' : Cutting} (hk : k.Fits) (hk' : k'.Fits) (htext : k.text = k'.text)
    {before : List Char} (htokens : k.tokens before = k'.tokens before) : k = k' := by
  induction k generalizing k' before with
  | last w =>
    cases k' with
    | last w' => rw [show w = w' from htext]
    | lexeme w' l' kind' more' =>
      obtain ⟨kind, ts, hmore⟩ := more'.exists_tokens_eq (before ++ w' ++ l')
      rw [tokens, tokens, hmore] at htokens
      cases (List.cons.inj htokens).2
  | lexeme w l kind more ih =>
    cases k' with
    | last w' =>
      obtain ⟨kind, ts, hmore⟩ := more.exists_tokens_eq (before ++ w ++ l)
      rw [tokens, tokens, hmore] at htokens
      cases (List.cons.inj htokens).2
    | lexeme w' l' kind' more' =>
      obtain ⟨-, hl, hmore⟩ := hk
      obtain ⟨-, hl', hmore'⟩ := hk'
      obtain ⟨hfirst, hrest⟩ := List.cons.inj htokens
      obtain ⟨rfl, hplace⟩ := Token.mk.inj hfirst
      have hw : w.length = w'.length := by
        have hoffset := congrArg Position.offset hplace
        simp only [Position.offset_behind, List.length_append] at hoffset
        omega
      obtain ⟨rfl, hafter⟩ := List.append_inj htext hw
      have hnext : l.length + more.front.length = l'.length + more'.front.length := by
        obtain ⟨k₁, ts₁, h₁⟩ := more.exists_tokens_eq (before ++ w ++ l)
        obtain ⟨k₂, ts₂, h₂⟩ := more'.exists_tokens_eq (before ++ w ++ l')
        rw [h₁, h₂] at hrest
        have hoffset := congrArg (fun t : Token => t.pos.offset) (List.cons.inj hrest).1
        simp only [Position.offset_behind, List.length_append] at hoffset
        omega
      have hlength : l.length = l'.length := by
        have hle := not_length_lt hl hl' hmore hafter hnext
        have hge := not_length_lt hl' hl hmore' hafter.symm hnext.symm
        omega
      obtain ⟨rfl, hmoreText⟩ := List.append_inj hafter hlength
      rw [ih hmore hmore' hmoreText hrest]

/-- A cutting whose lexemes do not go on has the tokens of its text. -/
theorem Fits.tokenize_eq {k : Cutting} (hfits : k.Fits) (hmax : k.IsMaximal) {s : String}
    (htext : k.text = s.toList) :
    tokenize s = .ok (k.tokens []) ∧ (k.tokens []).getLast? = some ⟨.eof, .behind s.toList⟩ := by
  obtain ⟨hending, htokens⟩ := run_text hfits hmax []
  rw [htext, List.nil_append] at hending htokens
  have hrun : Run.ofString s = Cursor.run ⟨s.toList, .behind []⟩ := rfl
  constructor
  · rw [tokenize, Run.tokens?, hrun, hending, htokens]
  · rw [htokens, List.getLast?_concat]

end Cutting

/-- A formula has the given tokens exactly if it is cut into lexemes of these tokens, where no lexeme goes on in the
text after it, tokens stand at the places of their lexemes, and the end of the formula stands behind all of it. It
can be cut in one way only: no other cutting has these tokens, and in no other cutting all lexemes go as far as they
can. -/
theorem tokenize_iff_cutting (s : String) (ts : List Token) :
    tokenize s = .ok ts ↔ ∃ k : Cutting, k.text = s.toList ∧ k.Fits ∧ k.IsMaximal ∧ k.tokens [] = ts ∧
      ts.getLast? = some ⟨.eof, .behind s.toList⟩ ∧
      ∀ k' : Cutting, k'.text = s.toList → k'.Fits → k'.tokens [] = ts ∨ k'.IsMaximal → k' = k := by
  constructor
  · intro h
    have hending : (Run.ofString s).ending.error? = none := by
      unfold tokenize Run.tokens? at h
      split at h
      · rename_i hclosed
        rw [hclosed]
        rfl
      · cases h
      · cases h
    have hstart : (Cursor.ofString s).pos = .behind [] := rfl
    obtain ⟨k, htext, hfits, hmax, -⟩ := Cutting.exists_of_run hstart hending
    obtain ⟨htokens, hlast⟩ := hfits.tokenize_eq hmax htext
    obtain rfl : ts = k.tokens [] := Except.ok.inj (h.symm.trans htokens)
    refine ⟨k, htext, hfits, hmax, rfl, hlast, ?_⟩
    intro k' htext' hfits' hk'
    have hsame : k'.tokens [] = k.tokens [] := by
      rcases hk' with hsame | hmax'
      · exact hsame
      · exact Except.ok.inj ((hfits'.tokenize_eq hmax' htext').1.symm.trans htokens)
    exact hfits'.eq_of_tokens_eq hfits (htext'.trans htext.symm) hsame
  · rintro ⟨k, htext, hfits, hmax, rfl, -⟩
    exact (hfits.tokenize_eq hmax htext).1

end FormulaQuery
