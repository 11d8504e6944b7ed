import FormulaQuery.Formula.Parser
import FormulaQuery.Proofs.Names
import FormulaQuery.Proofs.Steps

/-!
# What a text can spell

The formulas that come from texts are well formed: their names are words in capitals, their numbers are not negative,
their strings hold no quote, and a path only stands where an aggregate begins. This holds of every lexeme
(`Lexeme.wellFormed_of_read`), so of every run of the lexer, and the parser keeps it (`Formula.wellFormed_of_parse`).
-/

namespace FormulaQuery

/-! ### Words -/

namespace Ascii

/-- A word without small letters. -/
def IsCapitalWord (s : String) : Prop := isWord s.toList = true ∧ upper s = s

theorem IsCapitalWord.isName {s : String} (h : IsCapitalWord s) : IsName s := isName_of_isWord h.1

theorem toUpper_toUpper (c : Char) : c.toUpper.toUpper = c.toUpper := by
  rw [← Char.toNat_inj, toNat_toUpper, toNat_toUpper]
  by_cases h : 97 ≤ c.toNat ∧ c.toNat ≤ 122
  · rw [if_pos h, if_neg (by omega)]
  · rw [if_neg h, if_neg h]

theorem isWordStart_iff (c : Char) :
    isWordStart c = true ↔ (97 ≤ c.toNat ∧ c.toNat ≤ 122) ∨ (65 ≤ c.toNat ∧ c.toNat ≤ 90) ∨ c.toNat = 95 := by
  simp only [isWordStart, isLetter, Char.le_def, UInt32.le_iff_toNat_le, Bool.or_eq_true, Bool.and_eq_true,
    decide_eq_true_eq, beq_iff_eq, ← Char.toNat_inj]
  simp only [Char.toNat, Char.reduceVal, UInt32.reduceToNat]
  omega

theorem isWordStart_toUpper (c : Char) : isWordStart c.toUpper = isWordStart c := by
  rw [Bool.eq_iff_iff, isWordStart_iff, isWordStart_iff, toNat_toUpper]
  split <;> omega

theorem isWordPart_of_isWordStart {c : Char} (h : isWordStart c = true) : isWordPart c = true := by
  rw [isWordStart_iff] at h
  rw [isWordPart_iff]
  omega

/-- The capitals of a word are a word. -/
theorem isCapitalWord_upper {s : String} (h : isWord s.toList = true) : IsCapitalWord (upper s) := by
  constructor
  · rw [upper, String.toList_ofList]
    cases hs : s.toList with
    | nil => rw [hs] at h; cases h
    | cons c cs =>
      rw [hs] at h
      simp only [isWord, Bool.and_eq_true, List.all_eq_true] at h
      simp only [isWord, List.map_cons, Bool.and_eq_true, List.all_eq_true, isWordStart_toUpper]
      refine ⟨h.1, ?_⟩
      intro d hd
      obtain ⟨e, he, rfl⟩ := List.mem_map.1 hd
      rw [isWordPart_toUpper]
      exact h.2 e he
  · rw [upper, upper, String.toList_ofList, List.map_map]
    congr 1
    apply List.map_congr_left
    intro c _
    exact toUpper_toUpper c

end Ascii

/-! ### Tokens -/

namespace Token

/-- What the lexer makes sure of in a token. -/
def Kind.WellFormed : Kind → Prop
  | number n => ∃ rank, n = .ranked false rank
  | string s => '"' ∉ s.toList
  | word name => Ascii.IsCapitalWord name
  | symbol _ | eof => True

end Token

namespace Lexeme

private theorem wellFormed_readWord {c : Char} {r : List Char} (h : Ascii.isWordStart c = true) :
    (readWord (c :: r)).kind.WellFormed := by
  refine Ascii.isCapitalWord_upper ?_
  rw [String.toList_ofList, List.takeWhile_cons_of_pos (Ascii.isWordPart_of_isWordStart h)]
  simp only [Ascii.isWord, h, Bool.true_and]
  exact List.all_takeWhile

/-- A numeral has no sign. -/
private theorem exists_rank (whole fraction : List Char) :
    ∃ rank, numberValue whole fraction = .ranked false rank := by
  unfold numberValue Binary64.ofScientific
  split
  · exact ⟨_, rfl⟩
  · split
    · exact ⟨_, rfl⟩
    · exact ⟨_, rfl⟩

private theorem wellFormed_readNumber (cs : List Char) : (readNumber cs).kind.WellFormed := by
  unfold readNumber
  dsimp only
  split
  · split
    · exact exists_rank _ _
    · exact exists_rank _ _
  · exact exists_rank _ _

private theorem wellFormed_readString? {cs : List Char} {l : Lexeme} (h : readString? cs = some l) :
    l.kind.WellFormed := by
  unfold readString? at h
  dsimp only at h
  split at h
  · cases h
  · cases h
    intro hq
    rw [String.toList_ofList] at hq
    simpa using List.all_eq_true.1 List.all_takeWhile _ hq

theorem wellFormed_of_read {cs : List Char} {l : Lexeme} (h : read cs = .ok l) : l.kind.WellFormed := by
  unfold read at h
  split at h
  · cases h
    exact True.intro
  · split at h
    · split at h
      · rename_i l' hl
        cases h
        exact wellFormed_readString? hl
      · cases h
    · split at h
      · rename_i hc
        cases h
        exact wellFormed_readWord hc
      · split at h
        · cases h
          exact wellFormed_readNumber _
        · split at h
          · cases h
            exact True.intro
          · cases h

end Lexeme

private theorem Cursor.wellFormed_of_next {c c' : Cursor} {t : Token} (h : c.next = (.ok t, c')) :
    t.kind.WellFormed := by
  unfold next at h
  split at h
  · cases h
  · split at h
    · rename_i l hl
      cases h
      exact Lexeme.wellFormed_of_read hl
    · cases h
    · cases h

private theorem Cursor.wellFormed_run (c : Cursor) : ∀ t ∈ c.run.tokens, t.kind.WellFormed := by
  induction c using Cursor.run.induct with
  | case1 c e c' h =>
    rw [Cursor.run, h]
    intro t ht
    cases ht
  | case2 c t c' h hk =>
    rw [Cursor.run, h]
    dsimp only
    rw [dif_pos hk]
    intro t ht
    cases ht
  | case3 c t c' h hk ih =>
    rw [Cursor.run, h]
    dsimp only
    rw [dif_neg hk]
    intro u hu
    rcases List.mem_cons.1 hu with rfl | hu
    · exact wellFormed_of_next h
    · exact ih u hu

/-! ### Dates -/

namespace Calendar

def IsLeapYear (year : Nat) : Prop := 4 ∣ year ∧ (¬100 ∣ year ∨ 400 ∣ year)

/-- How many days a month has. -/
inductive HasDays (year : Nat) : (month days : Nat) → Prop
  | long {month : Nat} (h : month ∈ [1, 3, 5, 7, 8, 10, 12]) : HasDays year month 31
  | short {month : Nat} (h : month ∈ [4, 6, 9, 11]) : HasDays year month 30
  | february (h : ¬IsLeapYear year) : HasDays year 2 28
  | leapFebruary (h : IsLeapYear year) : HasDays year 2 29

private theorem isLeapYear_iff (year : Nat) : isLeapYear year = true ↔ IsLeapYear year := by
  simp [isLeapYear, IsLeapYear, Nat.dvd_iff_mod_eq_zero]

private theorem hasDays_iff {year month days : Nat} :
    HasDays year month days ↔ (1 ≤ month ∧ month ≤ 12) ∧ daysInMonth year month = days := by
  constructor
  · intro h
    cases h with
    | long h | short h =>
      simp only [List.mem_cons, List.not_mem_nil, or_false] at h
      rcases h with rfl | rfl | rfl | rfl | rfl | rfl | rfl <;> exact ⟨by decide, rfl⟩
    | february h => exact ⟨by decide, if_neg (mt (isLeapYear_iff year).1 h)⟩
    | leapFebruary h => exact ⟨by decide, if_pos ((isLeapYear_iff year).2 h)⟩
  · rintro ⟨⟨hleast, hmost⟩, rfl⟩
    unfold daysInMonth
    split
    · split
      · rename_i h
        exact .leapFebruary ((isLeapYear_iff year).1 h)
      · rename_i h
        exact .february (mt (isLeapYear_iff year).2 h)
    · exact .short (by decide)
    · exact .short (by decide)
    · exact .short (by decide)
    · exact .short (by decide)
    · refine .long ?_
      simp only [List.mem_cons, List.not_mem_nil, or_false]
      grind

/-- Dates are four digits, two and two with hyphens between them, which name a day that there is. -/
theorem isDate_iff {cs : List Char} :
    isDate cs = true ↔ ∃ year month day : List Char, cs = year ++ '-' :: (month ++ '-' :: day) ∧
      (year.length = 4 ∧ month.length = 2 ∧ day.length = 2) ∧
      (∀ c ∈ year ++ month ++ day, Ascii.isDigit c = true) ∧
      ∃ days, HasDays (Ascii.digitsValue year) (Ascii.digitsValue month) days ∧
        1 ≤ Ascii.digitsValue day ∧ Ascii.digitsValue day ≤ days := by
  constructor
  · intro h
    unfold isDate at h
    split at h
    · rename_i y₁ y₂ y₃ y₄ m₁ m₂ d₁ d₂
      rw [Bool.and_eq_true, List.all_eq_true] at h
      simp only [isDay, Bool.and_eq_true, decide_eq_true_eq] at h
      obtain ⟨hdigits, ⟨hmonth, hleast⟩, hmost⟩ := h
      exact ⟨[y₁, y₂, y₃, y₄], [m₁, m₂], [d₁, d₂], rfl, ⟨rfl, rfl, rfl⟩, hdigits, _,
        hasDays_iff.2 ⟨hmonth, rfl⟩, hleast, hmost⟩
    · cases h
  · rintro ⟨year, month, day, rfl, ⟨hyear, hmonth, hday⟩, hdigits, days, hdays, hleast, hmost⟩
    obtain ⟨y₁, rest, rfl⟩ := List.exists_cons_of_length_eq_add_one hyear
    obtain ⟨y₂, y₃, y₄, rfl⟩ := List.length_eq_three.1 (Nat.succ.inj hyear)
    obtain ⟨m₁, m₂, rfl⟩ := List.length_eq_two.1 hmonth
    obtain ⟨d₁, d₂, rfl⟩ := List.length_eq_two.1 hday
    obtain ⟨hmonth, rfl⟩ := hasDays_iff.1 hdays
    show ([y₁, y₂, y₃, y₄, m₁, m₂, d₁, d₂].all Ascii.isDigit && isDay _ _ _) = true
    rw [Bool.and_eq_true, List.all_eq_true]
    simp only [isDay, Bool.and_eq_true, decide_eq_true_eq]
    exact ⟨hdigits, ⟨hmonth, hleast⟩, hmost⟩

/-- Dates are made of digits and hyphens. -/
theorem mem_of_isDate {cs : List Char} (h : isDate cs = true) {c : Char} (hc : c ∈ cs) :
    Ascii.isDigit c = true ∨ c = '-' := by
  obtain ⟨year, month, day, rfl, -, hdigits, -⟩ := isDate_iff.1 h
  simp only [List.mem_append, List.mem_cons] at hc hdigits
  rcases hc with hc | rfl | hc | rfl | hc
  · exact Or.inl (hdigits c (Or.inl (Or.inl hc)))
  · exact Or.inr rfl
  · exact Or.inl (hdigits c (Or.inl (Or.inr hc)))
  · exact Or.inr rfl
  · exact Or.inl (hdigits c (Or.inr hc))

end Calendar

/-! ### Formulas -/

/-- The words that are literals. -/
def Formula.literalWords : List String := ["TRUE", "FALSE", "NULL"]

/-- What the parser makes sure of in a formula. -/
inductive Formula.WellFormed : Formula → Prop
  | number (pos rank) : WellFormed (.number pos (.ranked false rank))
  | string (pos) {text : String} (h : '"' ∉ text.toList) : WellFormed (.string pos text)
  | boolean (pos value) : WellFormed (.boolean pos value)
  | null (pos) : WellFormed (.null pos)
  | date (pos) {text : String} (h : Calendar.isDate text.toList = true) : WellFormed (.date pos text)
  | column (pos) {name : String} (h : Ascii.IsCapitalWord name) (hl : name ∉ literalWords) :
    WellFormed (.column pos name)
  | related (pos) {chain : List String} {field : String} (hne : chain ≠ [])
    (hc : ∀ n ∈ chain, Ascii.IsCapitalWord n ∧ isRelationName n = true) (hf : Ascii.IsCapitalWord field) :
    WellFormed (.related pos chain (some field))
  | negate (pos) {e : Formula} (h : WellFormed e) : WellFormed (.negate pos e)
  | binary (pos op) {l r : Formula} (hl : WellFormed l) (hr : WellFormed r) : WellFormed (.binary pos op l r)
  /-- A call without a path; one string after `DATE` makes a date instead. -/
  | call (pos) {name : String} {args : List Formula} (h : Ascii.IsCapitalWord name)
    (hd : name = "DATE" → ∀ p t, args ≠ [.string p t]) (ha : ∀ e ∈ args, WellFormed e) :
    WellFormed (.call pos name args)
  /-- A call of an aggregate over a path. -/
  | aggregate (pos pathPos) {name : String} {segments : List String} {args : List Formula}
    (h : Ascii.IsCapitalWord name) (hf : (AggregateFunction.ofName? name).isSome = true) (hne : segments ≠ [])
    (hs : ∀ n ∈ segments, Ascii.IsCapitalWord n) (ha : ∀ e ∈ args, WellFormed e) :
    WellFormed (.call pos name (.path pathPos segments :: args))

/-- What the parser makes sure of in the arguments of a call. -/
inductive Formula.ArgumentsWellFormed (aggregate : Bool) : List Formula → Prop
  | plain {args : List Formula} (ha : ∀ e ∈ args, WellFormed e) : ArgumentsWellFormed aggregate args
  | path (pos) {segments : List String} {args : List Formula} (h : aggregate = true) (hne : segments ≠ [])
    (hs : ∀ n ∈ segments, Ascii.IsCapitalWord n) (ha : ∀ e ∈ args, WellFormed e) :
    ArgumentsWellFormed aggregate (.path pos segments :: args)

private theorem Formula.wellFormed_ofWord (pos : Position) {name : String} (h : Ascii.IsCapitalWord name) :
    (Formula.ofWord pos name).WellFormed := by
  unfold ofWord
  split
  · exact .boolean pos true
  · split
    · exact .boolean pos false
    · split
      · exact .null pos
      · rename_i ht hf hn
        exact .column pos h (by simp [literalWords, ht, hf, hn])

namespace Parser

variable {ending : Ending}

/-! ### What the parser does with a token -/

section Cases

variable {level : Nat} {left : Formula} {t next : Token} {rest ts : List Token} {s : Symbol} {name : String}

/-- A chain goes on with an operator of its own level. -/
theorem chain_of_operator {op : BinaryOperator} (hk : t.kind = .symbol s) (hop : BinaryOperator.ofSymbol? s = some op)
    (hlevel : op.precedence = level + 1) :
    chain ending level left (t :: rest) = (do
      pass ending t rest
      rejectOperator ending t.kind rest
      let right ← operand ending level rest
      let all ← chain ending level (.binary left.pos op left right.value) right.rest
      return ⟨all.value, all.rest, Nat.lt_add_right 2 (Nat.lt_of_lt_of_le all.lt right.lt)⟩) := by
  rw [chain, hk]
  dsimp only
  rw [hop]
  dsimp only
  rw [if_pos hlevel]

/-- A chain ends before an operator of another level, and before a symbol that is no operator. -/
theorem chain_of_symbol (hk : t.kind = .symbol s)
    (h : ∀ op, BinaryOperator.ofSymbol? s = some op → op.precedence ≠ level + 1) :
    chain ending level left (t :: rest) = .ok ⟨left, t :: rest, Nat.lt_succ_self _⟩ := by
  rw [chain, hk]
  dsimp only
  cases hop : BinaryOperator.ofSymbol? s with
  | none => rfl
  | some op => exact if_neg (h op hop)

/-- A chain ends before what is no symbol. -/
theorem chain_of_no_symbol (h : ∀ s, t.kind ≠ .symbol s) :
    chain ending level left (t :: rest) = .ok ⟨left, t :: rest, Nat.lt_succ_self _⟩ := by
  rw [chain]
  split
  · rename_i s hs
    exact absurd hs (h s)
  · rfl

theorem factor_of_call (hk : t.kind = .word name) (hparen : next.kind = .symbol .leftParen) :
    factor ending (t :: next :: rest) = (do
      pass ending next rest
      let args ← arguments ending (AggregateFunction.ofName? name).isSome rest
      let closed ← close ending next.pos .commaOrRightParen args.rest
      let value ← finishCall t.pos name args.value closed.rest
      return ⟨value, closed.rest, Nat.lt_succ_of_lt (Nat.lt_of_lt_of_le closed.lt args.lt)⟩) := by
  rw [factor, hk]
  exact if_pos hparen

theorem factor_of_related (hk : t.kind = .word name) (hparen : next.kind ≠ .symbol .leftParen)
    (hdot : Formula.isRelationName name ∧ next.kind = .symbol .dot) :
    factor ending (t :: next :: rest) = (do
      let r ← related ending t.pos [name] next rest
      return ⟨r.value, r.rest, Nat.lt_succ_of_lt r.lt⟩) := by
  rw [factor, hk]
  exact (if_neg hparen).trans (if_pos hdot)

theorem factor_of_word (hk : t.kind = .word name) (hparen : next.kind ≠ .symbol .leftParen)
    (hdot : ¬(Formula.isRelationName name ∧ next.kind = .symbol .dot)) :
    factor ending (t :: next :: rest) = .ok ⟨.ofWord t.pos name, next :: rest, Nat.lt_succ_self _⟩ := by
  rw [factor, hk]
  exact (if_neg hparen).trans (if_neg hdot)

/-- No factor begins with another token. -/
theorem factor_of_other (hnumber : ∀ n, t.kind ≠ .number n) (hstring : ∀ text, t.kind ≠ .string text)
    (hword : ∀ name, t.kind ≠ .word name) (hminus : t.kind ≠ .symbol .minus) (hplus : t.kind ≠ .symbol .plus)
    (hparen : t.kind ≠ .symbol .leftParen) :
    factor ending (t :: rest) = .error (unexpected ending .operand (t :: rest)) := by
  rw [factor]
  split
  · rename_i n hk
    exact absurd hk (hnumber n)
  · rename_i text hk
    exact absurd hk (hstring text)
  · rename_i name hk
    exact absurd hk (hword name)
  · rename_i hk
    exact absurd hk hminus
  · rename_i hk
    exact absurd hk hplus
  · rename_i hk
    exact absurd hk hparen
  · rfl

/-- Where no path begins, the first argument is a formula like the others. -/
theorem arguments_of_plain {aggregate : Bool} (hparen : (current ending ts).kind ≠ .symbol .rightParen)
    (hword : ∀ name pos rest, aggregate = true → ts ≠ ⟨.word name, pos⟩ :: rest) :
    arguments ending aggregate ts = (do
      let first ← operand ending 3 ts
      let more ← moreArguments ending first.rest
      return ⟨first.value :: more.value, more.rest, Nat.lt_succ_of_lt (Nat.lt_of_lt_of_le more.lt first.lt)⟩) := by
  unfold arguments
  rw [if_neg hparen]
  split
  · rename_i name pos rest
    exact absurd rfl (hword name pos rest rfl)
  · rfl

end Cases

/-! ### What the parser keeps -/

/-- What the lexer makes sure of in all tokens of a list. -/
def WellFormedTokens (ts : List Token) : Prop := ∀ t ∈ ts, t.kind.WellFormed

/-- From good tokens on, a parser reads a value with the property `P` and leaves good tokens. -/
def Keeps {α : Type} (P : α → Prop) (ts : List Token) {n : Nat} (r : Except Failure (Parsed α n)) : Prop :=
  WellFormedTokens ts → ∀ p, r = .ok p → P p.value ∧ WellFormedTokens p.rest

private theorem WellFormedTokens.head {t : Token} {ts : List Token} (h : WellFormedTokens (t :: ts)) :
    t.kind.WellFormed :=
  h t List.mem_cons_self

theorem WellFormedTokens.tail {t : Token} {ts : List Token} (h : WellFormedTokens (t :: ts)) : WellFormedTokens ts :=
  fun u hu => h u (List.mem_cons_of_mem _ hu)

/-- A token that was a word spelled a word in capitals. -/
theorem WellFormedTokens.word {t : Token} {ts : List Token} {name : String} (h : WellFormedTokens (t :: ts))
    (hk : t.kind = .word name) : Ascii.IsCapitalWord name := by
  have := h.head
  rw [hk] at this
  exact this

section Keeps

variable {α β : Type} {P : α → Prop} {Q : β → Prop} {ts ts' : List Token} {n m : Nat}

private theorem keeps_error (e : Failure) : Keeps P ts (.error e : Except Failure (Parsed α n)) := by
  intro _ p h
  cases h

private theorem keeps_ok {value : α} {rest : List Token} {hlt : rest.length < n}
    (h : WellFormedTokens ts → P value ∧ WellFormedTokens rest) :
    Keeps P ts (.ok ⟨value, rest, hlt⟩ : Except Failure (Parsed α n)) := by
  intro hts p hp
  cases hp
  exact h hts

/-- A step that reads nothing. -/
private theorem keeps_seq {x : Except Failure β} {f : β → Except Failure (Parsed α n)}
    (h : ∀ b, x = .ok b → Keeps P ts (f b)) : Keeps P ts (x >>= f) := by
  intro hts p hp
  obtain ⟨b, hb, hp⟩ := bind_eq_ok hp
  exact h b hb hts p hp

/-- A step that reads tokens, after which the rest is read on. -/
private theorem Keeps.bind {x : Except Failure (Parsed β m)} {f : Parsed β m → Except Failure (Parsed α n)}
    (hx : Keeps Q ts' x) (hts' : WellFormedTokens ts → WellFormedTokens ts')
    (hf : WellFormedTokens ts → ∀ b, Q b.value → Keeps P b.rest (f b)) : Keeps P ts (x >>= f) := by
  intro hts p hp
  obtain ⟨b, hb, hp⟩ := bind_eq_ok hp
  obtain ⟨hvalue, hrest⟩ := hx (hts' hts) b hb
  exact hf hts b hvalue hrest p hp

end Keeps

private theorem keeps_close (opened : Position) (expected : Expected) (ts : List Token) :
    Keeps (fun _ => True) ts (close ending opened expected ts) := by
  unfold close
  split
  · exact keeps_error _
  · split
    · exact keeps_seq fun _ _ => keeps_ok fun hts => ⟨True.intro, hts.tail⟩
    · exact keeps_error _

private theorem keeps_related (pos : Position) (chain : List String) (point : Token) (ts : List Token)
    (hne : chain ≠ []) (hc : ∀ n ∈ chain, Ascii.IsCapitalWord n ∧ Formula.isRelationName n = true) :
    Keeps Formula.WellFormed ts (related ending pos chain point ts) := by
  induction chain, point, ts using related.induct with
  | case1 chain point =>
    rw [related]
    exact keeps_seq fun _ _ => keeps_error _
  | case2 chain point t name hk =>
    rw [related, hk]
    exact keeps_seq fun _ _ => keeps_ok fun hts => ⟨.related pos hne hc (hts.word hk), hts.tail⟩
  | case4 chain point t next rest name hk hcond ih =>
    rw [related, hk]
    dsimp only
    rw [if_pos hcond]
    intro hts
    have hchain : ∀ n ∈ chain ++ [name], Ascii.IsCapitalWord n ∧ Formula.isRelationName n = true := by
      intro n hn
      rcases List.mem_append.1 hn with hn | hn
      · exact hc n hn
      · rw [List.mem_singleton.1 hn]
        exact ⟨hts.word hk, hcond.1⟩
    exact (ih (by simp) hchain).bind (fun hts => hts.tail.tail) (fun _ r hr => keeps_ok fun hrest => ⟨hr, hrest⟩) hts
  | case5 chain point t next rest name hk hcond =>
    rw [related, hk]
    dsimp only
    rw [if_neg hcond]
    exact keeps_ok fun hts => ⟨.related pos hne hc (hts.word hk), hts.tail⟩
  | case3 chain point t hk | case6 chain point t next rest hk =>
    rw [related]
    split
    · rename_i name hk'
      exact absurd hk' (hk name)
    · exact keeps_error _

private theorem keeps_pathTail (ts : List Token) :
    Keeps (fun segments => ∀ n ∈ segments, Ascii.IsCapitalWord n) ts (pathTail ending ts) := by
  induction ts using pathTail.induct with
  | case1 =>
    rw [pathTail]
    exact keeps_ok fun hts => ⟨nofun, hts⟩
  | case2 point hk =>
    rw [pathTail, if_pos hk]
    exact keeps_seq fun _ _ => keeps_error _
  | case4 point t rest hk name hw ih =>
    rw [pathTail, if_pos hk, hw]
    refine keeps_seq fun _ _ => ih.bind (fun hts => hts.tail.tail) fun hts r hsegments => keeps_ok fun hrest =>
      ⟨?_, hrest⟩
    exact List.forall_mem_cons.2 ⟨hts.tail.word hw, hsegments⟩
  | case5 point t rest hk hw =>
    rw [pathTail, if_pos hk]
    split
    · rename_i name hw'
      exact absurd hw' (hw name)
    · exact keeps_error _
  | case3 point hk | case6 point t rest hk =>
    rw [pathTail, if_neg hk]
    exact keeps_ok fun hts => ⟨nofun, hts⟩

private theorem wellFormed_finishCall {pos : Position} {name : String} {args : List Formula} {rest : List Token}
    {f : Formula} (h : finishCall pos name args rest = .ok f) (hn : Ascii.IsCapitalWord name)
    (ha : Formula.ArgumentsWellFormed (AggregateFunction.ofName? name).isSome args) : f.WellFormed := by
  unfold finishCall at h
  split at h
  · split at h
    · rename_i hd
      cases h
      exact .date pos hd
    · cases h
  · rename_i hne
    cases h
    cases ha with
    | plain ha =>
      refine .call pos hn ?_ ha
      rintro rfl p t rfl
      exact hne p t rfl rfl
    | path pathPos hagg hsegments hwords ha => exact .aggregate pos pathPos hn hagg hsegments hwords ha

/-- All functions of the parser keep formulas and tokens well formed. -/
private theorem keeps_all (ending : Ending) :
    (∀ level ts, Keeps Formula.WellFormed ts (operand ending level ts)) ∧
    (∀ level left ts, left.WellFormed → Keeps Formula.WellFormed ts (chain ending level left ts)) ∧
    (∀ ts, Keeps Formula.WellFormed ts (factor ending ts)) ∧
    (∀ aggregate ts, Keeps (Formula.ArgumentsWellFormed aggregate) ts (arguments ending aggregate ts)) ∧
    (∀ ts, Keeps (fun args => ∀ e ∈ args, Formula.WellFormed e) ts (moreArguments ending ts)) := by
  apply operand.mutual_induct ending
  -- operands
  · intro ts ih
    rw [operand]
    exact ih
  · intro ts level ihLeft ihChain
    rw [operand]
    exact ihLeft.bind id fun _ left hleft => (ihChain left hleft).bind id fun _ all hall => keeps_ok fun hrest =>
      ⟨hall, hrest⟩
  -- chains of operators
  · intro level left hleft
    rw [chain]
    exact keeps_ok fun hts => ⟨hleft, hts⟩
  · intro level left t rest s hk op hop hlevel ihRight ihChain hleft
    rw [chain_of_operator hk hop hlevel]
    refine keeps_seq fun _ _ => keeps_seq fun _ _ => ihRight.bind (fun hts => hts.tail) fun _ right hright => ?_
    exact (ihChain right (.binary _ _ hleft hright)).bind id fun _ all hall => keeps_ok fun hrest => ⟨hall, hrest⟩
  · intro level left t rest s hk op hop hlevel hleft
    rw [chain_of_symbol hk (by simp [hop, hlevel])]
    exact keeps_ok fun hts => ⟨hleft, hts⟩
  · intro level left t rest s hk hop hleft
    rw [chain_of_symbol hk (by simp [hop])]
    exact keeps_ok fun hts => ⟨hleft, hts⟩
  · intro level left t rest hk hleft
    rw [chain_of_no_symbol hk]
    exact keeps_ok fun hts => ⟨hleft, hts⟩
  -- factors
  · rw [factor]
    exact keeps_error _
  · intro t rest n hk
    rw [factor, hk]
    refine keeps_seq fun _ _ => keeps_ok fun hts => ⟨?_, hts.tail⟩
    have hn := hts.head
    rw [hk] at hn
    obtain ⟨rank, rfl⟩ := hn
    exact .number _ rank
  · intro t rest s hk
    rw [factor, hk]
    refine keeps_seq fun _ _ => keeps_ok fun hts => ⟨?_, hts.tail⟩
    have hs := hts.head
    rw [hk] at hs
    exact .string _ hs
  · intro t name hk
    rw [factor, hk]
    exact keeps_seq fun _ _ => keeps_ok fun hts => ⟨Formula.wellFormed_ofWord _ (hts.word hk), hts.tail⟩
  · intro t name hk next rest hparen ih
    rw [factor_of_call hk hparen]
    refine keeps_seq fun _ _ => ih.bind (fun hts => hts.tail.tail) fun hts args hargs => ?_
    refine (keeps_close _ _ _).bind id fun _ closed _ => keeps_seq fun value hvalue => keeps_ok fun hrest =>
      ⟨?_, hrest⟩
    exact wellFormed_finishCall hvalue (hts.word hk) hargs
  · intro t name hk next rest hparen hdot
    rw [factor_of_related hk hparen hdot]
    intro hts
    have hchain : ∀ n ∈ [name], Ascii.IsCapitalWord n ∧ Formula.isRelationName n = true :=
      List.forall_mem_singleton.2 ⟨hts.word hk, hdot.1⟩
    exact (keeps_related _ _ _ _ (by simp) hchain).bind (fun hts => hts.tail.tail)
      (fun _ r hr => keeps_ok fun hrest => ⟨hr, hrest⟩) hts
  · intro t name hk next rest hparen hdot
    rw [factor_of_word hk hparen hdot]
    exact keeps_ok fun hts => ⟨Formula.wellFormed_ofWord _ (hts.word hk), hts.tail⟩
  · intro t rest hk ih
    rw [factor, hk]
    refine keeps_seq fun _ _ => keeps_seq fun _ _ => ih.bind (fun hts => hts.tail) fun _ e he => ?_
    exact keeps_ok fun hrest => ⟨.negate _ he, hrest⟩
  · intro t rest hk
    rw [factor, hk]
    exact keeps_error _
  · intro t rest hk ih
    rw [factor, hk]
    refine keeps_seq fun _ _ => ih.bind (fun hts => hts.tail) fun _ e he => ?_
    exact (keeps_close _ _ _).bind id fun _ closed _ => keeps_ok fun hrest => ⟨he, hrest⟩
  · intro t rest hnumber hstring hword hminus hplus hparen
    rw [factor_of_other hnumber hstring hword hminus hplus hparen]
    exact keeps_error _
  -- arguments
  · intro aggregate ts hparen
    unfold arguments
    rw [if_pos hparen]
    exact keeps_ok fun hts => ⟨.plain nofun, hts⟩
  · intro name pos rest hparen ih
    rw [arguments, if_neg hparen]
    refine keeps_seq fun _ _ => (keeps_pathTail _).bind (fun hts => hts.tail) fun hts path hpath => ?_
    have hsegments := List.forall_mem_cons.2 ⟨hts.word rfl, hpath⟩
    exact (ih path).bind id fun _ more hmore => keeps_ok fun hrest => ⟨.path pos rfl (by simp) hsegments hmore, hrest⟩
  · intro aggregate ts hword hparen ihFirst ihMore
    rw [arguments_of_plain hparen hword]
    refine ihFirst.bind id fun _ first hfirst => (ihMore first).bind id fun _ more hmore => ?_
    exact keeps_ok fun hrest => ⟨.plain (List.forall_mem_cons.2 ⟨hfirst, hmore⟩), hrest⟩
  · rw [moreArguments]
    exact keeps_ok fun hts => ⟨nofun, hts⟩
  · intro t rest hk ihArg ihMore
    rw [moreArguments, if_pos hk]
    refine keeps_seq fun _ _ => ihArg.bind (fun hts => hts.tail) fun _ arg harg => ?_
    exact (ihMore arg).bind id fun _ more hmore => keeps_ok fun hrest => ⟨List.forall_mem_cons.2 ⟨harg, hmore⟩, hrest⟩
  · intro t rest hk
    rw [moreArguments, if_neg hk]
    exact keeps_ok fun hts => ⟨nofun, hts⟩

end Parser

/-- A text spells well formed formulas only. -/
theorem Formula.wellFormed_of_parse {s : String} {f : Formula} (h : Formula.parse s = .ok f) : f.WellFormed := by
  unfold Formula.parse at h
  split at h
  · cases h
  · rename_i p hp
    have hts : Parser.WellFormedTokens p.tokens := by
      unfold Parser.ofString at hp
      dsimp only at hp
      split at hp
      · cases hp
      · cases hp
        exact Cursor.wellFormed_run _
    unfold Parser.parse at h
    split at h
    · cases h
    · cases h
    · rename_i r hr
      split at h
      · cases h
        exact ((Parser.keeps_all p.ending).1 3 p.tokens hts r hr).1
      · cases h

end FormulaQuery
