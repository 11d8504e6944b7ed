import FormulaQuery.Plan.Compile
import FormulaQuery.Proofs.Evaluation
import FormulaQuery.Proofs.Settling
import Mathlib.Data.List.Forall2

/-!
# Formulas without regard to case

Cutting a text into tokens commutes with making its letters capitals (`Cursor.run_capitals`): words are in capitals
anyway, and nothing but the text of a string shows the case of a letter. So texts that differ in case only have the
same answers up to the texts of strings, and if these are equal too, the same formula and the same plans
(`Formula.ignores_case`).
-/

namespace FormulaQuery

/-! ### Characters -/

namespace Ascii

private theorem isLetter_iff (c : Char) :
    isLetter c = true ↔ (97 ≤ c.toNat ∧ c.toNat ≤ 122) ∨ (65 ≤ c.toNat ∧ c.toNat ≤ 90) := by
  simp only [isLetter, Char.le_def, UInt32.le_iff_toNat_le, Bool.or_eq_true, Bool.and_eq_true, decide_eq_true_eq]
  simp only [Char.toNat, Char.reduceVal, UInt32.reduceToNat]

/-- Only letters differ from their capitals. -/
theorem toUpper_cases (c : Char) : c.toUpper = c ∨ isLetter c = true ∧ isLetter c.toUpper = true := by
  have h := toNat_toUpper c
  rw [isLetter_iff, isLetter_iff]
  split at h
  · right
    omega
  · exact Or.inl (Char.toNat_inj.1 h)

/-- What is false of letters does not tell a character from its capital. -/
theorem apply_toUpper {p : Char → Bool} (hp : ∀ c, isLetter c = true → p c = false) (c : Char) :
    p c.toUpper = p c := by
  rcases toUpper_cases c with h | ⟨hc, hupper⟩
  · rw [h]
  · rw [hp _ hc, hp _ hupper]

private theorem isDigit_of_isLetter {c : Char} (h : isLetter c = true) : isDigit c = false := by
  rw [isLetter_iff] at h
  simp only [isDigit, Char.le_def, UInt32.le_iff_toNat_le, Bool.and_eq_false_iff, decide_eq_false_iff_not]
  simp only [Char.toNat, Char.reduceVal, UInt32.reduceToNat] at h ⊢
  omega

theorem isDigit_toUpper (c : Char) : isDigit c.toUpper = isDigit c := apply_toUpper (fun _ => isDigit_of_isLetter) c

private theorem isBlank_toUpper (c : Char) : Blank.isBlank c.toUpper = Blank.isBlank c := by
  refine apply_toUpper (fun d hd => ?_) c
  rw [isLetter_iff] at hd
  rw [← Bool.not_eq_true]
  intro hblank
  have := Blank.toNat_of_isBlank hblank
  omega

private theorem beq_toUpper {d : Char} (hd : isLetter d = false) (c : Char) : (c.toUpper == d) = (c == d) := by
  refine apply_toUpper (p := (· == d)) (fun e he => ?_) c
  rw [beq_eq_false_iff_ne]
  rintro rfl
  rw [hd] at he
  cases he

/-- A character that is no letter is the capital of no other one. -/
theorem toUpper_eq_iff {c d : Char} (hd : isLetter d = false) : c.toUpper = d ↔ c = d := by
  rw [← beq_iff_eq, beq_toUpper hd, beq_iff_eq]

/-- A text in capitals begins with characters that are no letters only if the text does. -/
theorem exists_of_map_toUpper_eq {cs front r : List Char} (hfront : ∀ d ∈ front, isLetter d = false)
    (h : cs.map Char.toUpper = front ++ r) : ∃ r', cs = front ++ r' ∧ r = r'.map Char.toUpper := by
  induction front generalizing cs with
  | nil => exact ⟨cs, rfl, h.symm⟩
  | cons d front ih =>
    obtain ⟨hd, hfront⟩ := List.forall_mem_cons.1 hfront
    cases cs with
    | nil => cases h
    | cons c cs =>
      obtain ⟨hc, hrest⟩ := List.cons.inj h
      obtain ⟨r', rfl, hr⟩ := ih hfront hrest
      exact ⟨r', by rw [(toUpper_eq_iff hd).1 hc]; rfl, hr⟩

/-- Patterns that begin with a character that is no letter do not depend on case. -/
theorem not_cons_map_toUpper {d : Char} {cs : List Char} (hd : isLetter d = false) (h : ∀ r, cs = d :: r → False)
    (r : List Char) (hr : cs.map Char.toUpper = d :: r) : False := by
  obtain ⟨r', hcs, -⟩ := exists_of_map_toUpper_eq (List.forall_mem_singleton.2 hd) hr
  exact h r' hcs

private theorem not_pair_map_toUpper {a b d : Char} {r : List Char} (ha : isLetter a = false)
    (hb : isLetter b = false) (h : ∀ r', d = a → r = b :: r' → False) (r' : List Char) (hd : d.toUpper = a)
    (hr : r.map Char.toUpper = b :: r') : False :=
  not_cons_map_toUpper hb (fun r'' => h r'' ((toUpper_eq_iff ha).1 hd)) r' hr

end Ascii

private theorem Position.advance_toUpper (p : Position) (c : Char) : p.advance c.toUpper = p.advance c := by
  unfold advance
  simp only [Ascii.toUpper_eq_iff (show Ascii.isLetter '\n' = false by decide)]

/-- Places do not depend on the case of the letters before them. -/
theorem Position.after_map_toUpper (p : Position) (cs : List Char) : p.after (cs.map Char.toUpper) = p.after cs := by
  induction cs generalizing p with
  | nil => rfl
  | cons c cs ih => rw [List.map_cons, after_cons, after_cons, advance_toUpper, ih]

/-! ### Trivia -/

/-- The text before the lexer in capitals. -/
def Cursor.capitals (c : Cursor) : Cursor := ⟨c.rest.map Char.toUpper, c.pos⟩

private theorem Trivia.skip_map_toUpper (mode : Mode) (pos : Position) (cs : List Char) :
    skip mode pos (cs.map Char.toUpper) = (skip mode pos cs).map Cursor.capitals := by
  fun_induction skip mode pos cs with
  | case1 pos r ih => exact ih
  | case2 pos r ih => exact ih
  | case3 pos d r hline hblock hblank ih =>
    rw [List.map_cons, skip, if_pos (by rwa [Ascii.isBlank_toUpper]), Position.advance_toUpper, ih]
    · exact Ascii.not_pair_map_toUpper (by decide) (by decide) hline
    · exact Ascii.not_pair_map_toUpper (by decide) (by decide) hblock
  | case4 pos d r hline hblock hblank =>
    rw [List.map_cons, skip, if_neg (by rwa [Ascii.isBlank_toUpper])]
    · rfl
    · exact Ascii.not_pair_map_toUpper (by decide) (by decide) hline
    · exact Ascii.not_pair_map_toUpper (by decide) (by decide) hblock
  | case5 pos => rfl
  | case6 pos d r ih =>
    rw [List.map_cons, skip, Position.advance_toUpper]
    simp only [Ascii.toUpper_eq_iff (show Ascii.isLetter '\n' = false by decide)]
    exact ih
  | case7 pos => rfl
  | case8 pos r ih => exact ih
  | case9 pos d r hend ih =>
    rw [List.map_cons, skip, Position.advance_toUpper, ih]
    exact Ascii.not_pair_map_toUpper (by decide) (by decide) hend
  | case10 pos => rfl

/-! ### Lexemes -/

/-- The token with the text of a string in capitals; words are in capitals already. -/
def Token.Kind.capitals : Kind → Kind
  | string s => string (Ascii.upper s)
  | kind => kind

namespace Lexeme

def capitals (l : Lexeme) : Lexeme := ⟨l.kind.capitals, l.chars.map Char.toUpper, l.rest.map Char.toUpper⟩

/-- A part of a text that ends without regard to case. -/
private theorem span_map_toUpper {p : Char → Bool} (hp : ∀ c, p c.toUpper = p c) (cs : List Char) :
    (cs.map Char.toUpper).takeWhile p = (cs.takeWhile p).map Char.toUpper ∧
      (cs.map Char.toUpper).dropWhile p = (cs.dropWhile p).map Char.toUpper := by
  have hcomp : p ∘ Char.toUpper = p := funext hp
  rw [List.takeWhile_map, List.dropWhile_map, hcomp]
  exact ⟨rfl, rfl⟩

private theorem readWord_map_toUpper (cs : List Char) : readWord (cs.map Char.toUpper) = (readWord cs).capitals := by
  obtain ⟨htake, hdrop⟩ := span_map_toUpper Ascii.isWordPart_toUpper cs
  have hupper : Ascii.upper (String.ofList ((cs.takeWhile Ascii.isWordPart).map Char.toUpper)) =
      Ascii.upper (String.ofList (cs.takeWhile Ascii.isWordPart)) := by
    simp only [Ascii.upper, String.toList_ofList, List.map_map, Function.comp_def, Ascii.toUpper_toUpper]
  unfold readWord
  dsimp only
  rw [htake, hdrop, hupper]
  rfl

private theorem map_toUpper_of_isDigit {cs : List Char} (h : ∀ c ∈ cs, Ascii.isDigit c = true) :
    cs.map Char.toUpper = cs := by
  refine (List.map_congr_left fun c hc => ?_).trans (List.map_id _)
  rcases Ascii.toUpper_cases c with hsame | ⟨hletter, -⟩
  · exact hsame
  · have hdigit := h c hc
    rw [Ascii.isDigit_of_isLetter hletter] at hdigit
    cases hdigit

private theorem readNumber_map_toUpper (cs : List Char) :
    readNumber (cs.map Char.toUpper) = (readNumber cs).capitals := by
  have hspan := span_map_toUpper Ascii.isDigit_toUpper
  have hdigits : ∀ r : List Char, (r.takeWhile Ascii.isDigit).map Char.toUpper = r.takeWhile Ascii.isDigit :=
    fun r => map_toUpper_of_isDigit (List.all_eq_true.1 List.all_takeWhile)
  by_cases h : ∃ r, cs.dropWhile Ascii.isDigit = '.' :: r ∧ r.takeWhile Ascii.isDigit ≠ []
  · obtain ⟨r, hpoint, hne⟩ := h
    have hpoint' : (cs.map Char.toUpper).dropWhile Ascii.isDigit = '.' :: r.map Char.toUpper := by
      rw [(hspan cs).2, hpoint]
      rfl
    rw [readNumber_of_point hpoint hne, readNumber_of_point hpoint' (by rwa [(hspan r).1, hdigits]), (hspan cs).1,
      (hspan r).1, (hspan r).2, hdigits, hdigits]
    simp only [capitals, Token.Kind.capitals, List.map_append, List.map_cons, hdigits]
    rfl
  · have hwhole : ∀ r, cs.dropWhile Ascii.isDigit = '.' :: r → r.takeWhile Ascii.isDigit = [] :=
      fun r hr => Classical.byContradiction fun hne => h ⟨r, hr, hne⟩
    rw [readNumber_of_whole hwhole, readNumber_of_whole, (hspan cs).1, (hspan cs).2, hdigits]
    · simp only [capitals, Token.Kind.capitals, hdigits]
    · intro r hr
      rw [(hspan cs).2] at hr
      obtain ⟨r', hr', rfl⟩ := Ascii.exists_of_map_toUpper_eq (List.forall_mem_singleton.2 (by decide)) hr
      rw [(hspan r').1, hdigits]
      exact hwhole r' hr'

private theorem readString?_map_toUpper (cs : List Char) :
    readString? (cs.map Char.toUpper) = (readString? cs).map capitals := by
  have hquote : ∀ c : Char, (c.toUpper != '"') = (c != '"') := fun c => by
    rw [bne, bne, Ascii.beq_toUpper (by decide)]
  obtain ⟨htake, hdrop⟩ := span_map_toUpper (p := (· != '"')) hquote cs
  unfold readString?
  dsimp only
  rw [htake, hdrop]
  cases cs.dropWhile (· != '"') with
  | nil => rfl
  | cons q r =>
    simp only [List.map_cons, Option.map_some, capitals, Token.Kind.capitals, Ascii.upper, String.toList_ofList,
      List.map_append, List.map_nil]
    rfl

private theorem read?_text_append_ne_none (s : Symbol) (r : List Char) :
    Symbol.read? (s.text.toList ++ r) ≠ none := by
  intro h
  cases s
  case less =>
    have h : Symbol.read? ('<' :: r) = none := h
    unfold Symbol.read? at h
    split at h
    case h_17 hless _ _ _ _ _ _ _ _ _ _ _ _ => exact hless r rfl
    all_goals cases h
  case greater =>
    have h : Symbol.read? ('>' :: r) = none := h
    unfold Symbol.read? at h
    split at h
    case h_17 hgreater _ _ _ _ _ _ _ _ _ _ => exact hgreater r rfl
    all_goals cases h
  all_goals cases h

private theorem isLetter_of_mem_text (s : Symbol) : ∀ d ∈ s.text.toList, Ascii.isLetter d = false := by
  have hall : s.text.toList.all (fun d => !Ascii.isLetter d) = true := by cases s <;> rfl
  simpa using hall

private theorem read?_map_toUpper (cs : List Char) :
    Symbol.read? (cs.map Char.toUpper) = (Symbol.read? cs).map fun p => (p.1, p.2.map Char.toUpper) := by
  cases h : Symbol.read? cs with
  | none =>
    cases hupper : Symbol.read? (cs.map Char.toUpper) with
    | none => rfl
    | some p =>
      -- a symbol in front of the capitals stands in front of the text too
      obtain ⟨r, rfl, -⟩ :=
        Ascii.exists_of_map_toUpper_eq (isLetter_of_mem_text p.1) (Symbol.text_append_of_read? hupper).symm
      exact absurd h (read?_text_append_ne_none p.1 r)
  | some p =>
    unfold Symbol.read? at h
    split at h
    case h_4 r hequal hgreater =>
      cases h
      show Symbol.read? ('<' :: r.map Char.toUpper) = _
      rw [Symbol.read?]
      · rfl
      · exact Ascii.not_cons_map_toUpper (by decide) hequal
      · exact Ascii.not_cons_map_toUpper (by decide) hgreater
    case h_6 r hequal =>
      cases h
      show Symbol.read? ('>' :: r.map Char.toUpper) = _
      rw [Symbol.read?]
      · rfl
      · exact Ascii.not_cons_map_toUpper (by decide) hequal
    all_goals cases h <;> rfl

/-- The lexeme in front of a text in capitals is that of the text, in capitals. -/
theorem read_map_toUpper (cs : List Char) : read (cs.map Char.toUpper) = (read cs).map capitals := by
  cases cs with
  | nil => rfl
  | cons c r =>
    have hmap : (c :: r).map Char.toUpper = c.toUpper :: r.map Char.toUpper := rfl
    unfold read
    rw [hmap]
    dsimp only
    by_cases hquote : c = '"'
    · rw [if_pos hquote, if_pos ((Ascii.toUpper_eq_iff (by decide)).2 hquote), readString?_map_toUpper]
      cases readString? r with
      | none => rfl
      | some l => rfl
    rw [if_neg hquote, if_neg (mt (Ascii.toUpper_eq_iff (by decide)).1 hquote), Ascii.isWordStart_toUpper]
    by_cases hword : Ascii.isWordStart c = true
    · rw [if_pos hword, if_pos hword, ← hmap, readWord_map_toUpper]
      rfl
    rw [if_neg hword, if_neg hword, Ascii.isDigit_toUpper]
    by_cases hdigit : Ascii.isDigit c = true
    · rw [if_pos hdigit, if_pos hdigit, ← hmap, readNumber_map_toUpper]
      rfl
    rw [if_neg hdigit, if_neg hdigit, ← hmap, read?_map_toUpper]
    cases Symbol.read? (c :: r) with
    | none =>
      -- a letter would have begun a word, so this character is its own capital
      have hsame : c.toUpper = c := (Ascii.toUpper_cases c).resolve_right fun hletter => hword (by
        rw [Ascii.isWordStart, hletter.1, Bool.true_or])
      simp only [Option.map_none, hsame]
      rfl
    | some p =>
      have htext : p.1.text.toList.map Char.toUpper = p.1.text.toList := by cases p.1 <;> rfl
      simp only [Option.map_some, Except.map, capitals, htext]
      rfl

end Lexeme

/-! ### Runs -/

def Token.capitals (t : Token) : Token := ⟨t.kind.capitals, t.pos⟩

private theorem Token.Kind.capitals_eq_eof_iff {kind : Kind} : kind.capitals = .eof ↔ kind = .eof := by
  cases kind <;> simp [capitals]

namespace Cursor

/-- One call answers in capitals what it answers for the text. -/
theorem next_capitals (c : Cursor) : c.capitals.next = (c.next.1.map Token.capitals, c.next.2.capitals) := by
  have hskip' := Trivia.skip_map_toUpper .plain c.pos c.rest
  cases hskip : Trivia.skip .plain c.pos c.rest with
  | error p =>
    rw [hskip] at hskip'
    rw [next_of_skip_error hskip, next_of_skip_error (c := c.capitals) hskip']
    rfl
  | ok d =>
    rw [hskip] at hskip'
    have hread' := Lexeme.read_map_toUpper d.rest
    cases hread : Lexeme.read d.rest with
    | ok l =>
      rw [hread] at hread'
      rw [next_eq_ok_iff.2 ⟨d, l, hskip, hread, rfl, rfl⟩,
        next_eq_ok_iff.2 ⟨d.capitals, l.capitals, hskip', hread', rfl, rfl⟩]
      simp only [capitals, Lexeme.capitals, Position.after_map_toUpper]
      rfl
    | error cause =>
      rw [hread] at hread'
      rw [next_of_read_error hskip hread, next_of_read_error (c := c.capitals) (d := d.capitals) hskip' hread']
      split_ifs
      · simp only [capitals, Position.after_map_toUpper]
        rfl
      · rfl

end Cursor

/-- The run with the texts of its strings in capitals. -/
def Run.capitals (r : Run) : Run := ⟨r.tokens.map Token.capitals, r.ending⟩

/-- Cutting a text into tokens commutes with making its letters capitals. -/
theorem Cursor.run_capitals (c : Cursor) : c.capitals.run = c.run.capitals := by
  induction c using Cursor.run.induct with
  | case1 c e c' hnext =>
    have hupper := c.next_capitals
    rw [hnext] at hupper
    rw [run_of_error hnext, run_of_error hupper]
    simp only [Run.capitals, capitals, List.map_nil, List.isEmpty_map]
  | case2 c t c' hnext heof =>
    have hupper := c.next_capitals
    rw [hnext] at hupper
    rw [run_of_eof hnext heof, run_of_eof hupper (Token.Kind.capitals_eq_eof_iff.2 heof)]
    rfl
  | case3 c t c' hnext heof ih =>
    have hupper := c.next_capitals
    rw [hnext] at hupper
    rw [run_of_token hnext heof, run_of_token hupper (mt Token.Kind.capitals_eq_eof_iff.1 heof), ih]
    rfl

private theorem Run.answer_capitals (r : Run) (n : Nat) : r.capitals.answer n = (r.answer n).map Token.capitals := by
  unfold answer capitals
  rw [List.getElem?_map, List.length_map]
  cases r.tokens[n]? with
  | some t => rfl
  | none =>
    cases r.ending with
    | closed p | stuck e => rfl
    | broken e p => cases n - r.tokens.length <;> rfl

/-! ### Strings -/

/-- The text of a string. -/
def Token.literal? (t : Token) : Option String :=
  match t.kind with
  | .string s => some s
  | _ => none

/-- The texts of the strings of a formula. -/
def Run.literals (r : Run) : List String := r.tokens.filterMap Token.literal?

/-- Tokens with the same capitals are equal, or both are strings. -/
theorem Token.eq_or_strings_of_capitals_eq {t u : Token} (h : t.capitals = u.capitals) :
    t = u ∨ ∃ a b, t = ⟨.string a, u.pos⟩ ∧ u = ⟨.string b, u.pos⟩ := by
  obtain ⟨kind, pos⟩ := t
  obtain ⟨kind', pos'⟩ := u
  obtain ⟨hkind, hpos⟩ := Token.mk.inj h
  obtain rfl : pos = pos' := hpos
  cases kind <;> cases kind' <;> simp_all [Token.Kind.capitals]

/-- Tokens are known from their capitals and the texts of their strings. -/
theorem Token.eq_of_capitals_eq {ts us : List Token} (hcapitals : ts.map Token.capitals = us.map Token.capitals)
    (hliterals : ts.filterMap Token.literal? = us.filterMap Token.literal?) : ts = us := by
  induction ts generalizing us with
  | nil =>
    cases us with
    | nil => rfl
    | cons u us => cases hcapitals
  | cons t ts ih =>
    cases us with
    | nil => cases hcapitals
    | cons u us =>
      obtain ⟨hfirst, hrest⟩ := List.cons.inj hcapitals
      rcases Token.eq_or_strings_of_capitals_eq hfirst with rfl | ⟨a, b, ht, hu⟩
      · have hmore : ts.filterMap Token.literal? = us.filterMap Token.literal? := by
          rw [List.filterMap_cons, List.filterMap_cons] at hliterals
          split at hliterals
          · exact hliterals
          · exact (List.cons.inj hliterals).2
        rw [ih hrest hmore]
      · have ha : t.literal? = some a := by rw [ht]; rfl
        have hb : u.literal? = some b := by rw [hu]; rfl
        rw [List.filterMap_cons_some ha, List.filterMap_cons_some hb] at hliterals
        obtain ⟨rfl, hmore⟩ := List.cons.inj hliterals
        rw [ih hrest hmore, ht, ← hu]

/-- Two texts that differ in case only. -/
def DifferInCase (s t : String) : Prop := List.Forall₂ (fun c d : Char => c.toLower = d.toLower) s.toList t.toList

private theorem differInCase_iff {s t : String} : DifferInCase s t ↔ Ascii.sameName s t = true := by
  rw [DifferInCase, Ascii.sameName_iff, Ascii.lower, Ascii.lower, String.ofList_inj, ← List.forall₂_eq_eq_eq,
    List.forall₂_map_left_iff, List.forall₂_map_right_iff]

instance (s t : String) : Decidable (DifferInCase s t) := decidable_of_iff _ differInCase_iff.symm

private theorem Run.capitals_ofString {s t : String} (h : DifferInCase s t) :
    (Run.ofString s).capitals = (Run.ofString t).capitals := by
  have hupper : s.toList.map Char.toUpper = t.toList.map Char.toUpper := by
    have hname := Ascii.upper_eq_of_sameName (differInCase_iff.1 h)
    rwa [Ascii.upper, Ascii.upper, String.ofList_inj] at hname
  have hcursor : (Cursor.ofString s).capitals = (Cursor.ofString t).capitals := by
    rw [Cursor.capitals, Cursor.capitals, Cursor.ofString, Cursor.ofString, hupper]
  rw [Run.ofString, Run.ofString, ← Cursor.run_capitals, ← Cursor.run_capitals, hcursor]

/-- The parser sees the run of a text only. -/
theorem Formula.parse_eq_of_run_eq {s t : String} (h : Run.ofString s = Run.ofString t) :
    Formula.parse s = Formula.parse t := by
  have hparser : Parser.ofString s = Parser.ofString t := by
    unfold Parser.ofString
    rw [h]
  unfold Formula.parse
  rw [hparser]

/-- Outside of strings the case of letters does not matter: the lexers of two texts that differ in case only answer
every call alike, up to the case of the texts of strings, and if these texts are equal, the formulas and all plans,
or the failures, are equal too. -/
theorem Formula.ignores_case {s t : String} (h : DifferInCase s t) :
    (∀ n, ((Cursor.ofString s).answer n).map Token.capitals = ((Cursor.ofString t).answer n).map Token.capitals) ∧
      ((Run.ofString s).literals = (Run.ofString t).literals → Formula.parse s = Formula.parse t ∧
        ∀ schema maxDepth, Plan.ofFormula s schema maxDepth = Plan.ofFormula t schema maxDepth) := by
  have hcapitals := Run.capitals_ofString h
  constructor
  · intro n
    rw [Cursor.answer_eq, Cursor.answer_eq, ← Run.answer_capitals, ← Run.answer_capitals]
    exact congrArg (Run.answer · n) hcapitals
  · intro hliterals
    obtain ⟨htokens, hending⟩ := Run.mk.inj hcapitals
    have hrun : Run.ofString s = Run.ofString t :=
      congrArg₂ Run.mk (Token.eq_of_capitals_eq htokens hliterals) hending
    have hparse := Formula.parse_eq_of_run_eq hrun
    refine ⟨hparse, fun schema maxDepth => ?_⟩
    unfold Plan.ofFormula
    rw [hparse]

/-- A call with comments and paths, in other letters; the string keeps its own. Both texts have the same plan. -/
theorem Formula.ignores_case_call :
    ∃ s t p, s = "if(isnull(rep_rel.name), /* Or */ \"Eur\", Rep_Rel.NAME) // Note" ∧
      t = "IF(IsNull(Rep_Rel.Name), /* or */ \"Eur\", rep_rel.name) // NOTE" ∧ DifferInCase s t ∧
      (Run.ofString s).literals = ["Eur"] ∧ (Run.ofString t).literals = ["Eur"] ∧
      (∀ n, ((Cursor.ofString s).answer n).map Token.capitals = ((Cursor.ofString t).answer n).map Token.capitals) ∧
      Formula.parse s = Formula.parse t ∧ Plan.ofFormula s .tangled 3 = .ok p ∧ Plan.ofFormula t .tangled 3 = .ok p ∧
      p.joins.size = 1 := by
  obtain ⟨p, hp, hsize⟩ := exists_ofFormula_of_check
    "if(isnull(rep_rel.name), /* Or */ \"Eur\", Rep_Rel.NAME) // Note" .tangled 3 (fun p => p.joins.size = 1)
    (by decide +kernel)
  have hcase : DifferInCase "if(isnull(rep_rel.name), /* Or */ \"Eur\", Rep_Rel.NAME) // Note"
      "IF(IsNull(Rep_Rel.Name), /* or */ \"Eur\", rep_rel.name) // NOTE" := by decide +kernel
  obtain ⟨hanswers, hplans⟩ := Formula.ignores_case hcase
  obtain ⟨hparse, hplan⟩ := hplans (by decide +kernel)
  exact ⟨_, _, p, rfl, rfl, hcase, by decide +kernel, by decide +kernel, hanswers, hparse, hp,
    (hplan .tangled 3).symm.trans hp, hsize⟩

end FormulaQuery
