import FormulaQuery.Proofs.Composition
import FormulaQuery.Proofs.Spelling

/-!
# Formulas as texts

Every well formed formula has a text. It is written down with parentheses around everything but paths
(`Formula.tokens`), one lexeme after the other with a blank behind each (`Token.textOf`). These lexemes are cut into
the tokens again (`Token.lexes_textOf`), which derive the formula (`Formula.WellFormed.written`). So the text of a
well formed formula spells this formula (`Formula.WellFormed.exists_parse_rendered`).
-/

namespace FormulaQuery

/-! ### Lexemes -/

namespace Lexeme

variable {cs chars : List Char} {kind : Token.Kind} {ks : List Token.Kind}

/-- What goes beyond a text up to a blank holds the blank. -/
private theorem length_le_of_not_mem {c : Char} {p rest : List Char} (hp : p <+: chars ++ c :: rest) (hc : c ∉ p) :
    p.length ≤ chars.length := by
  rcases List.prefix_or_prefix_of_prefix hp (List.prefix_append chars (c :: rest)) with h | h
  · exact h.length_le
  · obtain ⟨tail, rfl⟩ := h
    cases tail with
    | nil => simp
    | cons d tail =>
      obtain ⟨hd, -⟩ := List.cons_prefix_cons.1 ((List.prefix_append_right_inj chars).1 hp)
      exact absurd (by simp [hd]) hc

/-- No lexeme goes on with a blank. -/
theorem maximal_space (kind : Token.Kind) (chars rest : List Char) : Maximal kind chars (' ' :: rest) := by
  unfold Maximal
  split
  · simpa using (by decide : Ascii.isWordPart ' ' = false)
  · intro whole fraction h hpre
    refine length_le_of_not_mem hpre ?_
    intro hblank
    rcases h.mem_append_pointed hblank with hdigit | hpoint
    · exact absurd hdigit (by decide)
    · exact absurd hpoint (by decide)
  · simp
  · simp
  · simp
  · trivial

/-- A numeral at the end of a text does not go on. -/
theorem maximal_number_nil (n : Binary64) (chars : List Char) : Maximal (.number n) chars [] := by
  intro whole fraction _ hpre
  rw [List.append_nil] at hpre
  exact hpre.length_le

/-- A lexeme may stand before a text that does not go on with it. -/
theorem Spells.lexes_append (h : Spells chars kind) (hmax : Maximal kind chars cs) (hcs : Lexes cs ks) :
    Lexes (chars ++ cs) (kind :: ks) := by
  have hkind : kind ≠ .eof := by
    rintro rfl
    cases h
  intro pos
  have hskip := Trivia.Skipped.nil.skip_eq (h.not_begins hmax) pos
  have hnext : Cursor.next ⟨chars ++ cs, pos⟩ = (.ok ⟨kind, pos⟩, ⟨cs, pos.after chars⟩) :=
    Cursor.next_eq_ok_iff.2 ⟨_, _, hskip, h.read_eq hmax, rfl, rfl⟩
  obtain ⟨htokens, hending⟩ := hcs (pos.after chars)
  rw [Cursor.run_of_token hnext hkind]
  exact ⟨congrArg _ htokens, hending⟩

/-- A lexeme with a blank behind it may stand before a text. -/
theorem Spells.lexes (h : Spells chars kind) (hcs : Lexes cs ks) : Lexes (chars ++ ' ' :: cs) (kind :: ks) :=
  h.lexes_append (maximal_space kind chars cs) hcs.cons_space

end Lexeme

/-- A numeral beyond the greatest double. -/
theorem Lexeme.numberValue_nines :
    numberValue (List.replicate 309 '9') [] = .ranked false (Fin.last infinityRank) := by
  decide +kernel

/-- A numeral that is read as the number. None is infinite itself, but those beyond the greatest double are read
so. -/
def Binary64.numeral (n : Binary64) : List Char := if n.isInfinite then List.replicate 309 '9' else n.text.toList

private theorem Binary64.spells_numeral (rank : Fin (infinityRank + 1)) :
    Lexeme.Spells (numeral (.ranked false rank)) (.number (.ranked false rank)) := by
  unfold numeral
  by_cases hrank : rank.val = infinityRank
  · obtain rfl : rank = Fin.last infinityRank := Fin.ext hrank
    have hspells := Lexeme.Spells.number (AreDigits.nines (n := 309) (by decide))
    rw [Lexeme.numberValue_nines, pointed, List.append_nil] at hspells
    have hinfinite : isInfinite (.ranked false (Fin.last infinityRank)) = true := beq_self_eq_true infinityRank
    rwa [if_pos hinfinite]
  · obtain ⟨whole, fraction, hdigits, htext, hvalue⟩ := exists_numeral hrank
    rw [if_neg (by simpa [isInfinite] using hrank), htext, ← hvalue]
    exact .number hdigits

namespace Token

/-- How a token is spelled in the texts below. -/
def Kind.spelling : Kind → List Char
  | number n => n.numeral
  | string s => '"' :: (s.toList ++ ['"'])
  | word name => name.toList
  | symbol s => s.text.toList
  | eof => []

private theorem Kind.WellFormed.spells {kind : Kind} (h : kind.WellFormed) (hkind : kind ≠ .eof) :
    Lexeme.Spells kind.spelling kind := by
  cases kind with
  | number n =>
    obtain ⟨rank, rfl⟩ := h
    exact Binary64.spells_numeral rank
  | string s =>
    have hspells := Lexeme.Spells.string h
    rwa [String.ofList_toList] at hspells
  | word name =>
    have hspells := Lexeme.Spells.word h.1
    rwa [String.ofList_toList, h.2] at hspells
  | symbol s => exact .symbol s
  | eof => exact absurd rfl hkind

/-- The text of tokens, with a blank behind each. -/
def textOf (ts : List Token) : String := String.ofList (ts.flatMap fun t => t.kind.spelling ++ [' '])

theorem lexes_textOf {ts : List Token} (h : ∀ t ∈ ts, Lexeme.Spells t.kind.spelling t.kind) :
    Lexes (textOf ts).toList (ts.map (·.kind)) := by
  rw [textOf, String.toList_ofList]
  induction ts with
  | nil => exact lexes_nil
  | cons t ts ih =>
    obtain ⟨ht, hts⟩ := List.forall_mem_cons.1 h
    rw [List.flatMap_cons, List.append_assoc, List.singleton_append]
    exact ht.lexes (ih hts)

end Token

/-! ### Tokens of formulas -/

/-- The symbol that formulas are written with. -/
def BinaryOperator.sign : BinaryOperator → Symbol
  | equal => .equal
  | notEqual => .notEqual
  | less => .less
  | greater => .greater
  | lessEqual => .lessEqual
  | greaterEqual => .greaterEqual
  | add => .plus
  | subtract => .minus
  | multiply => .star
  | divide => .slash
  | concat => .ampersand

private theorem BinaryOperator.ofSymbol?_sign (op : BinaryOperator) : ofSymbol? op.sign = some op := by
  cases op <;> rfl

namespace Token

/-- A symbol without a place. -/
def ofSymbol (s : Symbol) : Token := ⟨.symbol s, .start⟩

/-- A string without a place. -/
def ofString (text : String) : Token := ⟨.string text, .start⟩

/-- A word without a place. -/
def ofWord (name : String) : Token := ⟨.word name, .start⟩

/-- Tokens between parentheses. -/
def grouped (ts : List Token) : List Token := ofSymbol .leftParen :: (ts ++ [ofSymbol .rightParen])

/-- Names with a point behind each. -/
def links (names : List String) : List Token := names.flatMap fun name => [ofWord name, ofSymbol .dot]

/-- Names with a point before each. -/
def segments (names : List String) : List Token := names.flatMap fun name => [ofSymbol .dot, ofWord name]

end Token

open Token (grouped)

namespace Formula

mutual

/-- Tokens that spell a formula, in parentheses unless it is a path. -/
def tokens : Formula → List Token
  | number _ n => grouped [⟨.number n, .start⟩]
  | string _ text => grouped [.ofString text]
  | boolean _ value => grouped [.ofWord (if value then "TRUE" else "FALSE")]
  | null _ => grouped [.ofWord "NULL"]
  | date _ text => grouped (.ofWord "DATE" :: grouped [.ofString text])
  | column _ name => grouped [.ofWord name]
  | related _ chain field => grouped (Token.links chain ++ field.toList.map .ofWord)
  | path _ names =>
    match names with
    | [] => []
    | name :: names => .ofWord name :: Token.segments names
  | negate _ e => grouped (.ofSymbol .minus :: e.tokens)
  | binary _ op l r => grouped (l.tokens ++ .ofSymbol op.sign :: r.tokens)
  | call _ name args =>
    match args with
    | [] => grouped (.ofWord name :: grouped [])
    | first :: more => grouped (.ofWord name :: grouped (first.tokens ++ moreTokens more))

/-- Tokens of the arguments after the first one. -/
def moreTokens : List Formula → List Token
  | [] => []
  | arg :: args => .ofSymbol .comma :: (arg.tokens ++ moreTokens args)

end

end Formula

/-! ### Tokens that can stand in a text -/

/-- Tokens that can be spelled, of which no two operators stand side by side, and the last is none. -/
structure Token.Writable (ts : List Token) : Prop where
  plain : Parser.Plain ts
  spells : ∀ t ∈ ts, Lexeme.Spells t.kind.spelling t.kind

namespace Token

variable {t : Token} {ts us : List Token}

private theorem writable_nil : Writable [] := ⟨Parser.plain_nil, List.forall_mem_nil _⟩

private theorem Writable.append (hts : Writable ts) (hus : Writable us) : Writable (ts ++ us) :=
  ⟨hts.plain.append hus.plain, List.forall_mem_append.2 ⟨hts.spells, hus.spells⟩⟩

private theorem Writable.cons (h : Writable ts) (ht : t.kind.isOperator = false)
    (hspells : Lexeme.Spells t.kind.spelling t.kind) : Writable (t :: ts) :=
  ⟨h.plain.cons ht, List.forall_mem_cons.2 ⟨hspells, h.spells⟩⟩

private theorem Writable.cons_word {name : String} (h : Writable ts) (hname : Ascii.IsCapitalWord name) :
    Writable (ofWord name :: ts) :=
  h.cons rfl (Kind.WellFormed.spells hname (by rintro ⟨⟩))

private theorem Writable.cons_string {text : String} (h : Writable ts) (htext : '"' ∉ text.toList) :
    Writable (ofString text :: ts) :=
  h.cons rfl (Kind.WellFormed.spells htext (by rintro ⟨⟩))

private theorem Writable.cons_symbol {s : Symbol} (h : Writable ts) (hs : s.isOperator = false) :
    Writable (ofSymbol s :: ts) :=
  h.cons hs (.symbol s)

private theorem Writable.grouped (h : Writable ts) : Writable (grouped ts) :=
  (h.append (writable_nil.cons_symbol rfl)).cons_symbol rfl

private theorem writable_links {names : List String} (h : ∀ name ∈ names, Ascii.IsCapitalWord name) :
    Writable (links names) := by
  induction names with
  | nil => exact writable_nil
  | cons name names ih =>
    obtain ⟨hname, hnames⟩ := List.forall_mem_cons.1 h
    exact ((ih hnames).cons_symbol rfl).cons_word hname

private theorem writable_segments {names : List String} (h : ∀ name ∈ names, Ascii.IsCapitalWord name) :
    Writable (segments names) := by
  induction names with
  | nil => exact writable_nil
  | cons name names ih =>
    obtain ⟨hname, hnames⟩ := List.forall_mem_cons.1 h
    exact ((ih hnames).cons_word hname).cons_symbol rfl

end Token

/-! ### The tokens of a formula derive it -/

namespace Formula

/-- What is no path is written in parentheses. -/
theorem WellFormed.exists_tokens_eq {e : Formula} (h : e.WellFormed) : ∃ ts, e.tokens = grouped ts := by
  cases h with
  | call pos _ _ _ =>
    rename_i args _ _ _
    cases args with
    | nil => exact ⟨_, rfl⟩
    | cons => exact ⟨_, rfl⟩
  | _ => exact ⟨_, rfl⟩

private theorem WellFormed.not_startsWithWord_tokens {e : Formula} (h : e.WellFormed) :
    ¬ StartsWithWord e.tokens := by
  obtain ⟨ts, hts⟩ := h.exists_tokens_eq
  rintro ⟨name, pos, rest, heq⟩
  rw [hts] at heq
  cases heq

/-- An argument after the first one with its comma. -/
def part (arg : Formula) : Part := ⟨.comma, .start, arg.tokens, arg.unplaced⟩

private theorem moreTokens_eq (args : List Formula) : moreTokens args = (args.map part).flatMap Part.all := by
  induction args with
  | nil => rfl
  | cons arg args ih =>
    rw [moreTokens, ih]
    rfl

private theorem map_value_part (args : List Formula) : (args.map part).map (·.value) = args.map unplaced := by
  rw [List.map_map]
  rfl

end Formula

open Formula (part)

namespace Derives

variable {p : Phrase} {ts : List Token} {e : Formula}

private theorem grouped (h : Derives p ts e) : Derives .factor (grouped ts) e := .group .start .start h.to_comparison

end Derives

private theorem reference_links {chain : List String} (field : String)
    (h : ∀ name ∈ chain, Formula.isRelationName name = true) :
    Reference (Token.links chain ++ [.ofWord field]) chain field := by
  induction chain with
  | nil => exact .field _ field
  | cons name chain ih =>
    obtain ⟨hname, hchain⟩ := List.forall_mem_cons.1 h
    exact .link _ _ hname (ih hchain)

private theorem pathTail_segments (names : List String) : PathTail (Token.segments names) names := by
  induction names with
  | nil => exact .nil
  | cons name names ih => exact .cons _ _ name ih

namespace Formula

/-- The tokens of a well formed formula spell it, and can stand in a text. -/
structure Written (e : Formula) : Prop where
  derives : Derives .factor e.tokens e.unplaced
  writable : Token.Writable e.tokens

/-- An operator may stand before a formula in parentheses. -/
theorem Written.cons_operator {e : Formula} (h : e.Written) (he : e.WellFormed) (s : Symbol) :
    Token.Writable (.ofSymbol s :: e.tokens) := by
  obtain ⟨ts, hts⟩ := he.exists_tokens_eq
  have hne : e.tokens ≠ [] := by simp [hts, grouped]
  have hhead : ∀ u ∈ e.tokens.head?, u.kind.isOperator = false := by
    intro u hu
    rw [hts] at hu
    cases hu
    rfl
  exact ⟨h.writable.plain.operator hne hhead, List.forall_mem_cons.2 ⟨.symbol s, h.writable.spells⟩⟩

private theorem writable_moreTokens {args : List Formula} (h : ∀ arg ∈ args, arg.Written) :
    Token.Writable (moreTokens args) := by
  induction args with
  | nil => exact Token.writable_nil
  | cons arg args ih =>
    obtain ⟨harg, hargs⟩ := List.forall_mem_cons.1 h
    rw [moreTokens]
    exact (harg.writable.append (ih hargs)).cons_symbol rfl

/-- What is written in parentheses is written down if what stands between them is. -/
private theorem written_of_grouped {e : Formula} {p : Phrase} {ts : List Token} (htokens : e.tokens = grouped ts)
    (hderives : Derives p ts e.unplaced) (hwritable : Token.Writable ts) : e.Written := by
  refine ⟨?_, ?_⟩
  · rw [htokens]
    exact hderives.grouped
  · rw [htokens]
    exact hwritable.grouped

private theorem isCapitalWord_of_mem_literalWords : ∀ name ∈ "DATE" :: literalWords, Ascii.IsCapitalWord name := by
  unfold Ascii.IsCapitalWord
  decide

private theorem derives_parts {args : List Formula} (h : ∀ arg ∈ args, arg.Written) :
    (∀ a ∈ args.map part, a.symbol = .comma) ∧ ∀ a ∈ args.map part, Derives .comparison a.tokens a.value :=
  ⟨List.forall_mem_map.2 fun _ _ => rfl, List.forall_mem_map.2 fun arg harg => (h arg harg).derives.to_comparison⟩

theorem WellFormed.written {e : Formula} (h : e.WellFormed) : e.Written := by
  induction h with
  | number pos rank =>
    refine written_of_grouped (p := .factor) rfl ?_ (Token.writable_nil.cons rfl (Binary64.spells_numeral rank))
    rw [unplaced]
    exact .number _ _
  | @string pos text htext =>
    refine written_of_grouped (p := .factor) rfl ?_ (Token.writable_nil.cons_string htext)
    rw [unplaced]
    exact .string _ _
  | boolean pos value =>
    have hword : Ascii.IsCapitalWord (if value then "TRUE" else "FALSE") :=
      isCapitalWord_of_mem_literalWords _ (by cases value <;> decide)
    have hvalue : ofWord .start (if value then "TRUE" else "FALSE") = .boolean .start value := by
      cases value <;> rfl
    refine written_of_grouped (p := .factor) rfl ?_ (Token.writable_nil.cons_word hword)
    rw [unplaced, ← hvalue]
    exact .word _ _
  | null pos =>
    have hword : Ascii.IsCapitalWord "NULL" := isCapitalWord_of_mem_literalWords _ (by decide)
    refine written_of_grouped (p := .factor) rfl ?_ (Token.writable_nil.cons_word hword)
    rw [unplaced]
    exact .word _ "NULL"
  | @date pos text hdate =>
    have hquote : '"' ∉ text.toList := by
      intro hmem
      rcases Calendar.mem_of_isDate hdate hmem with hdigit | hhyphen
      · exact absurd hdigit (by decide)
      · exact absurd hhyphen (by decide)
    have hname : Ascii.IsCapitalWord "DATE" := isCapitalWord_of_mem_literalWords _ (by decide)
    refine written_of_grouped (p := .factor) rfl ?_ ((Token.writable_nil.cons_string hquote).grouped.cons_word hname)
    rw [unplaced]
    exact .call _ _ _ (fun hname => absurd hname (by decide)) (Derives.string .start text).to_comparison
      (List.forall_mem_nil _) (List.forall_mem_nil _) (.date .start hdate)
  | @column pos name hname hliteral =>
    have hvalue : ofWord .start name = .column .start name := by
      simp only [literalWords, List.mem_cons, List.not_mem_nil, or_false, not_or] at hliteral
      obtain ⟨htrue, hfalse, hnull⟩ := hliteral
      rw [ofWord, if_neg htrue, if_neg hfalse, if_neg hnull]
    refine written_of_grouped (p := .factor) rfl ?_ (Token.writable_nil.cons_word hname)
    rw [unplaced, ← hvalue]
    exact .word _ _
  | @related pos chain field hne hchain hfield =>
    have hwords : ∀ name ∈ chain, Ascii.IsCapitalWord name := fun name hname => (hchain name hname).1
    have hwritable := (Token.writable_links hwords).append (Token.writable_nil.cons_word hfield)
    refine written_of_grouped (p := .factor) rfl ?_ hwritable
    rw [unplaced]
    cases chain with
    | nil => exact absurd rfl hne
    | cons name chain =>
      obtain ⟨hname, hrest⟩ := List.forall_mem_cons.1 hchain
      exact .related _ _ hname.2 (reference_links field fun n hn => (hrest n hn).2)
  | @negate pos e he ih =>
    refine written_of_grouped (p := .factor) rfl ?_ (ih.cons_operator he .minus)
    rw [unplaced]
    exact .negate _ ih.derives
  | @binary pos op l r hl hr ihl ihr =>
    refine written_of_grouped (p := .comparison) rfl ?_ (ihl.writable.append (ihr.cons_operator hr op.sign))
    have hwhole := Derives.of_factors op.ofSymbol?_sign ihl.derives ihr.derives .start
    rw [pos_unplaced] at hwhole
    rw [unplaced]
    exact hwhole
  | @call pos name args hname hdate hargs ih =>
    have hvalue : CallValue .start name (args.map unplaced) (.call .start name (args.map unplaced)) := by
      refine .call ?_
      rintro rfl p text heq
      obtain ⟨arg, rfl, harg⟩ := List.map_eq_singleton_iff.1 heq
      obtain ⟨p', rfl⟩ := exists_of_unplaced_eq_string harg
      exact hdate rfl p' text rfl
    cases args with
    | nil =>
      refine written_of_grouped (p := .factor) rfl ?_ (Token.writable_nil.grouped.cons_word hname)
      rw [unplaced]
      exact .emptyCall _ _ _ name
    | cons first more =>
      obtain ⟨hfirst, hmore⟩ := List.forall_mem_cons.1 ih
      have hwritable := (hfirst.writable.append (writable_moreTokens hmore)).grouped.cons_word hname
      refine written_of_grouped (p := .factor) rfl ?_ hwritable
      obtain ⟨hcomma, hderives⟩ := derives_parts hmore
      -- the first argument stands in parentheses, so not even an aggregate takes it for a path
      have hplain := (hargs first List.mem_cons_self).not_startsWithWord_tokens
      rw [List.map_cons, ← map_value_part] at hvalue
      have hcall := Derives.call .start .start .start
        (fun _ => hplain) hfirst.derives.to_comparison hcomma hderives hvalue
      rw [unplaced, List.map_cons, ← map_value_part, moreTokens_eq, grouped, List.append_assoc]
      exact hcall
  | @aggregate pos pathPos name names args hname hf hne hnames hargs ih =>
    cases names with
    | nil => exact absurd rfl hne
    | cons first rest =>
      obtain ⟨hfirst, hrest⟩ := List.forall_mem_cons.1 hnames
      have hpath := (Token.writable_segments hrest).cons_word hfirst
      have hwritable := (hpath.append (writable_moreTokens ih)).grouped.cons_word hname
      refine written_of_grouped (p := .factor) rfl ?_ hwritable
      obtain ⟨hcomma, hderives⟩ := derives_parts ih
      rw [unplaced, List.map_cons, unplaced, ← map_value_part, moreTokens_eq, grouped, List.append_assoc]
      exact .aggregate _ _ _ _ hf (pathTail_segments rest) hcomma hderives

private theorem unplaced_unplaced (f : Formula) : f.unplaced.unplaced = f.unplaced := by
  induction f using children_induction with
  | step f ih =>
    cases f with
    | negate pos e => simp only [unplaced, ih e List.mem_cons_self]
    | binary pos op l r =>
      simp only [unplaced, ih l List.mem_cons_self, ih r (List.mem_cons_of_mem _ List.mem_cons_self)]
    | call pos name args =>
      have hargs : (args.map unplaced).map unplaced = args.map unplaced := by
        rw [List.map_map]
        exact List.map_congr_left fun a ha => ih a ha
      simp only [unplaced, hargs]
    | _ => simp only [unplaced]

/-- The text of a formula. -/
def rendered (e : Formula) : String := Token.textOf e.tokens

/-- The text of a well formed formula spells this formula. -/
theorem WellFormed.exists_parse_rendered {e : Formula} (h : e.WellFormed) :
    ∃ f, Formula.parse e.rendered = .ok f ∧ f.unplaced = e.unplaced := by
  obtain ⟨hkinds, hending⟩ : (Run.ofString e.rendered).tokens.map (·.kind) = e.tokens.map (·.kind) ∧
      (Run.ofString e.rendered).ending.error? = none := Token.lexes_textOf h.written.writable.spells .start
  obtain ⟨f, hf, hunplaced⟩ := h.written.derives.to_comparison.movable _ hkinds
  have hpairs : NoOperatorPairs (Run.ofString e.rendered).tokens := by
    rw [noOperatorPairs_iff, hkinds, ← noOperatorPairs_iff]
    exact h.written.writable.plain.pairs
  refine ⟨f, Formula.parse_eq_ok_iff_lexes.2 ⟨hf, hpairs, hending⟩, ?_⟩
  rw [hunplaced, unplaced_unplaced]

end Formula

end FormulaQuery
