import FormulaQuery.Proofs.Parsing
import FormulaQuery.Proofs.Spelling

/-!
# Where parsing fails

The parser takes its tokens one by one, so it may fail before the lexer does. Each of its failures is the failure of
the run that it reads, or stands at the place of a token that it has read (`Formula.failsAt_of_parse`). All these
tokens begin before the place where the run fails (`Cursor.offset_lt_of_run`), so what is reported is never hidden
behind a failure of the lexer (`Formula.parse_agrees_with_tokenize`).
-/

namespace FormulaQuery

/-! ### Failures of the lexer -/

namespace Cursor

/-- A failure stands at or after the place where the lexer was. -/
theorem offset_le_of_next_eq_error {c c' : Cursor} {e : LexError} (h : c.next = (.error e, c')) :
    c.pos.offset ≤ e.pos.offset := by
  unfold next at h
  split at h
  · rename_i p hskip
    cases h
    rw [Trivia.eq_after_of_skip_eq_error hskip, Position.offset_after]
    exact Nat.le_add_right _ _
  · rename_i d hskip
    obtain ⟨w, -, hpos, -⟩ := Trivia.skip_eq_ok_iff.1 hskip
    have hle : c.pos.offset ≤ d.pos.offset := by
      rw [hpos, Position.offset_after]
      omega
    split at h
    · cases h
    · cases h
      exact hle
    · cases h
      exact hle

/-- The tokens of a run begin before the place where the run fails. -/
theorem offset_lt_of_run {c : Cursor} {e : LexError} (h : c.run.ending.error? = some e) :
    c.pos.offset ≤ e.pos.offset ∧ ∀ t ∈ c.run.tokens, t.pos.offset < e.pos.offset := by
  induction c using Cursor.run.induct with
  | case1 c e' c' hnext =>
    rw [run_of_error hnext] at h ⊢
    have he : e' = e := by
      dsimp only at h
      split at h <;> exact Option.some.inj h
    rw [← he]
    exact ⟨offset_le_of_next_eq_error hnext, List.forall_mem_nil _⟩
  | case2 c t c' hnext heof =>
    rw [run_of_eof hnext heof] at h
    cases h
  | case3 c t c' hnext heof ih =>
    rw [run_of_token hnext heof] at h ⊢
    obtain ⟨hle, hlt⟩ := ih h
    obtain ⟨hstart, hbehind⟩ := offset_of_next_eq_ok hnext heof
    have hbefore : t.pos.offset < e.pos.offset := by omega
    exact ⟨by omega, List.forall_mem_cons.2 ⟨hbefore, hlt⟩⟩

end Cursor

/-! ### Failures of the parser -/

/-- The error is that of the run, or no error of the lexer and at a known place. -/
def ParseError.FailsAt (known : Position → Prop) (ending : Ending) (e : ParseError) : Prop :=
  (∃ lexError, e = .lex lexError ∧ ending.error? = some lexError) ∨ (∀ lexError, e ≠ .lex lexError) ∧ known e.pos

namespace Parser

/-- All places that a parser can name are known: those of its tokens and, unless the run fails, that of its end. The
failure of a run is not passed. -/
structure Known (known : Position → Prop) (ending : Ending) (ts : List Token) : Prop where
  of_mem : ∀ t ∈ ts, known t.pos
  of_end : ending.error? = none → known ending.pos
  passed : Passed ending ts

/-- A step fails at a known place, or gives a value with the property `P` and leaves known places. -/
def Locates {α : Type} {n : Nat} (known : Position → Prop) (ending : Ending) (P : α → Prop)
    (r : Except Failure (Parsed α n)) : Prop :=
  (∀ f, r = .error f → f.error.FailsAt known ending) ∧ ∀ a, r = .ok a → P a.value ∧ Known known ending a.rest

section Locates

variable {known : Position → Prop} {ending : Ending} {α β : Type} {m n : Nat} {P : α → Prop} {Q : β → Prop}
  {t : Token}
  {ts rest : List Token}

private theorem Known.head (h : Known known ending (t :: ts)) : known t.pos := h.of_mem t List.mem_cons_self

theorem Known.tail (h : Known known ending (t :: ts)) (hpassed : Passed ending ts) : Known known ending ts :=
  ⟨fun u hu => h.of_mem u (List.mem_cons_of_mem t hu), h.of_end, hpassed⟩

/-- The token that is next stands at a known place. -/
theorem Known.current (h : Known known ending ts) : known (current ending ts).pos := by
  cases ts with
  | nil => exact h.of_end (h.passed rfl)
  | cons t ts => exact h.head

private theorem locates_error {f : Failure} (h : f.error.FailsAt known ending) :
    Locates known ending P (.error f : Except Failure (Parsed α n)) := by
  refine ⟨?_, by rintro _ ⟨⟩⟩
  rintro _ ⟨⟩
  exact h

private theorem locates_ok {value : α} {hlt : rest.length < n} (hP : P value) (hrest : Known known ending rest) :
    Locates known ending P (.ok ⟨value, rest, hlt⟩ : Except Failure (Parsed α n)) := by
  refine ⟨by rintro _ ⟨⟩, ?_⟩
  rintro _ ⟨⟩
  exact ⟨hP, hrest⟩

/-- A step that reads nothing. -/
private theorem locates_seq {x : Except Failure β} {f : β → Except Failure (Parsed α n)}
    (hx : ∀ g, x = .error g → g.error.FailsAt known ending) (hf : ∀ b, x = .ok b → Locates known ending P (f b)) :
    Locates known ending P (x >>= f) := by
  cases x with
  | error g => exact locates_error (hx g rfl)
  | ok b => exact hf b rfl

private theorem Locates.bind {x : Except Failure (Parsed β m)} {f : Parsed β m → Except Failure (Parsed α n)}
    (hx : Locates known ending Q x) (hf : ∀ b, Q b.value → Known known ending b.rest → Locates known ending P (f b)) :
    Locates known ending P (x >>= f) := by
  cases x with
  | error g => exact locates_error (hx.1 g rfl)
  | ok b => exact hf b (hx.2 b rfl).1 (hx.2 b rfl).2

/-- Passing a token meets the failure of the run or leaves more tokens. -/
private theorem locates_pass {f : PUnit → Except Failure (Parsed α n)}
    (h : Passed ending rest → Locates known ending P (f ())) : Locates known ending P (pass ending t rest >>= f) := by
  refine locates_seq ?_ ?_
  · intro g hg
    unfold pass at hg
    split at hg
    · rename_i e he
      cases hg
      exact Or.inl ⟨e, rfl, he⟩
    · cases hg
  · intro _ hpass
    refine h ?_
    rintro rfl
    unfold pass at hpass
    split at hpass
    · cases hpass
    · rename_i hne
      cases herror : ending.error? with
      | none => rfl
      | some e => exact absurd herror (hne e rfl)

private theorem failsAt_unexpected (h : Known known ending ts) (expected : Expected) :
    (unexpected ending expected ts).error.FailsAt known ending :=
  Or.inr ⟨by rintro _ ⟨⟩, h.current⟩

private theorem locates_rejectOperator {first : Token.Kind} {f : PUnit → Except Failure (Parsed α n)}
    (hts : Known known ending ts) (h : Locates known ending P (f ())) :
    Locates known ending P (rejectOperator ending first ts >>= f) := by
  refine locates_seq ?_ fun _ _ => h
  intro g hg
  unfold rejectOperator at hg
  dsimp only at hg
  split at hg
  · cases hg
    exact Or.inr ⟨by rintro _ ⟨⟩, hts.current⟩
  · cases hg

end Locates

section Steps

variable {known : Position → Prop} {ending : Ending} {ts : List Token}

private theorem locates_close {opened : Position} (hopened : known opened) (expected : Expected)
    (hts : Known known ending ts) : Locates known ending (fun _ => True) (close ending opened expected ts) := by
  unfold close
  split
  · exact locates_error (Or.inr ⟨by rintro _ ⟨⟩, hopened⟩)
  · split
    · exact locates_pass fun hpassed => locates_ok True.intro (hts.tail hpassed)
    · exact locates_error (failsAt_unexpected hts expected)

private theorem passed_of_ne_nil (h : ts ≠ []) : Passed ending ts := fun hnil => absurd hnil h

private theorem locates_related {pos : Position} (hpos : known pos) (chain : List String) (point : Token)
    (ts : List Token) (hts : ∀ t ∈ ts, known t.pos) (hending : ending.error? = none → known ending.pos) :
    Locates known ending (fun e : Formula => known e.pos) (related ending pos chain point ts) := by
  induction chain, point, ts using related.induct with
  | case1 chain point =>
    rw [related]
    exact locates_pass fun hpassed => locates_error (failsAt_unexpected ⟨hts, hending, hpassed⟩ _)
  | case2 chain point t name hk =>
    rw [related, hk]
    exact locates_pass fun hpassed => locates_ok hpos ⟨List.forall_mem_nil _, hending, hpassed⟩
  | case4 chain point t next rest name hk hcond ih =>
    rw [related, hk]
    dsimp only
    rw [if_pos hcond]
    have hrest : ∀ t ∈ rest, known t.pos := fun u hu => hts u (List.mem_cons_of_mem _ (List.mem_cons_of_mem _ hu))
    exact (ih hrest).bind fun _ hr hknown => locates_ok hr hknown
  | case5 chain point t next rest name hk hcond =>
    rw [related, hk]
    dsimp only
    rw [if_neg hcond]
    have hrest : ∀ t ∈ next :: rest, known t.pos := fun u hu => hts u (List.mem_cons_of_mem _ hu)
    exact locates_ok hpos ⟨hrest, hending, passed_of_ne_nil (List.cons_ne_nil _ _)⟩
  | case3 chain point t hk | case6 chain point t next rest hk =>
    rw [related]
    split
    · rename_i name hk'
      exact absurd hk' (hk name)
    · exact locates_error (failsAt_unexpected ⟨hts, hending, passed_of_ne_nil (List.cons_ne_nil _ _)⟩ _)

private theorem locates_pathTail (ts : List Token) (hts : Known known ending ts) :
    Locates known ending (fun _ => True) (pathTail ending ts) := by
  induction ts using pathTail.induct with
  | case1 =>
    rw [pathTail]
    exact locates_ok True.intro hts
  | case2 point hk =>
    rw [pathTail, if_pos hk]
    exact locates_pass fun hpassed => locates_error (failsAt_unexpected (hts.tail hpassed) _)
  | case4 point t rest hk name hw ih =>
    rw [pathTail, if_pos hk, hw]
    have htail := hts.tail (passed_of_ne_nil (List.cons_ne_nil t rest))
    refine locates_pass fun hpassed => (ih (htail.tail hpassed)).bind fun _ _ hrest => locates_ok True.intro hrest
  | case5 point t rest hk hw =>
    rw [pathTail, if_pos hk]
    split
    · rename_i name hw'
      exact absurd hw' (hw name)
    · exact locates_error (failsAt_unexpected (hts.tail (passed_of_ne_nil (List.cons_ne_nil t rest))) _)
  | case3 point hk | case6 point t rest hk =>
    rw [pathTail, if_neg hk]
    exact locates_ok True.intro hts

/-- A call stands where its name does; it can fail at a date, which is one of its arguments. -/
private theorem locates_finishCall {α : Type} {n : Nat} {P : α → Prop} {pos : Position} {name : String}
    {args : List Formula} {rest : List Token} {f : Formula → Except Failure (Parsed α n)}
    (hargs : ∀ a ∈ args, known a.pos) (h : ∀ e : Formula, e.pos = pos → Locates known ending P (f e)) :
    Locates known ending P (finishCall pos name args rest >>= f) := by
  refine locates_seq ?_ ?_
  · intro g hg
    unfold finishCall at hg
    split at hg
    · split at hg
      · cases hg
      · cases hg
        exact Or.inr ⟨by rintro _ ⟨⟩, hargs _ List.mem_cons_self⟩
    · cases hg
  · intro e he
    refine h e ?_
    unfold finishCall at he
    split at he
    · split at he
      · cases he
        rfl
      · cases he
    · cases he
      rfl

private theorem pos_ofWord (pos : Position) (name : String) : (Formula.ofWord pos name).pos = pos := by
  unfold Formula.ofWord
  split_ifs <;> rfl

/-- All functions of the parser fail at known places. -/
private theorem locates_all (known : Position → Prop) (ending : Ending) :
    (∀ level ts, Known known ending ts →
      Locates known ending (fun e : Formula => known e.pos) (operand ending level ts)) ∧
    (∀ level left ts, known left.pos → Known known ending ts →
      Locates known ending (fun e : Formula => known e.pos) (chain ending level left ts)) ∧
    (∀ ts, Known known ending ts → Locates known ending (fun e : Formula => known e.pos) (factor ending ts)) ∧
    (∀ aggregate ts, Known known ending ts →
      Locates known ending (fun args => ∀ a ∈ args, known a.pos) (arguments ending aggregate ts)) ∧
    (∀ ts, Known known ending ts →
      Locates known ending (fun args => ∀ a ∈ args, known a.pos) (moreArguments ending ts)) := by
  apply operand.mutual_induct ending
  -- operands
  · intro ts ih hts
    rw [operand]
    exact ih hts
  · intro ts level ihLeft ihChain hts
    rw [operand]
    refine (ihLeft hts).bind fun left hleft hrest => ?_
    exact (ihChain left hleft hrest).bind fun all hall hrest => locates_ok hall hrest
  -- chains of operators
  · intro level left hleft hts
    rw [chain]
    exact locates_ok hleft hts
  · intro level left t rest s hk op hop hlevel ihRight ihChain hleft hts
    rw [chain_of_operator hk hop hlevel]
    refine locates_pass fun hpassed => locates_rejectOperator (hts.tail hpassed) ?_
    refine (ihRight (hts.tail hpassed)).bind fun right _ hrest => ?_
    exact (ihChain right hleft hrest).bind fun all hall hrest => locates_ok hall hrest
  · intro level left t rest s hk op hop hlevel hleft hts
    rw [chain_of_symbol hk (by simp [hop, hlevel])]
    exact locates_ok hleft hts
  · intro level left t rest s hk hop hleft hts
    rw [chain_of_symbol hk (by simp [hop])]
    exact locates_ok hleft hts
  · intro level left t rest hk hleft hts
    rw [chain_of_no_symbol hk]
    exact locates_ok hleft hts
  -- factors
  · intro hts
    rw [factor]
    exact locates_error (failsAt_unexpected hts _)
  · intro t rest n hk hts
    rw [factor, hk]
    exact locates_pass fun hpassed => locates_ok hts.head (hts.tail hpassed)
  · intro t rest s hk hts
    rw [factor, hk]
    exact locates_pass fun hpassed => locates_ok hts.head (hts.tail hpassed)
  · intro t name hk hts
    rw [factor, hk]
    exact locates_pass fun hpassed => locates_ok ((pos_ofWord _ _).symm ▸ hts.head) (hts.tail hpassed)
  · intro t name hk next rest hparen ih hts
    rw [factor_of_call hk hparen]
    have hnext := hts.tail (passed_of_ne_nil (List.cons_ne_nil next rest))
    refine locates_pass fun hpassed => (ih (hnext.tail hpassed)).bind fun args hargs hrest => ?_
    refine (locates_close hnext.head _ hrest).bind fun closed _ hclosed => locates_finishCall hargs fun e he => ?_
    exact locates_ok (he ▸ hts.head) hclosed
  · intro t name hk next rest hparen hdot hts
    rw [factor_of_related hk hparen hdot]
    have hrest : ∀ u ∈ rest, known u.pos := fun u hu =>
      hts.of_mem u (List.mem_cons_of_mem _ (List.mem_cons_of_mem _ hu))
    exact (locates_related hts.head _ _ _ hrest hts.of_end).bind fun _ hr hrest => locates_ok hr hrest
  · intro t name hk next rest hparen hdot hts
    rw [factor_of_word hk hparen hdot]
    exact locates_ok ((pos_ofWord _ _).symm ▸ hts.head) (hts.tail (passed_of_ne_nil (List.cons_ne_nil next rest)))
  · intro t rest hk ih hts
    rw [factor, hk]
    refine locates_pass fun hpassed => locates_rejectOperator (hts.tail hpassed) ?_
    exact (ih (hts.tail hpassed)).bind fun e _ hrest => locates_ok hts.head hrest
  · intro t rest hk hts
    rw [factor, hk]
    exact locates_error (Or.inr ⟨by rintro _ ⟨⟩, hts.head⟩)
  · intro t rest hk ih hts
    rw [factor, hk]
    refine locates_pass fun hpassed => (ih (hts.tail hpassed)).bind fun e he hrest => ?_
    exact (locates_close hts.head _ hrest).bind fun closed _ hclosed => locates_ok he hclosed
  · intro t rest hnumber hstring hword hminus hplus hparen hts
    rw [factor_of_other hnumber hstring hword hminus hplus hparen]
    exact locates_error (failsAt_unexpected hts _)
  -- arguments
  · intro aggregate ts hparen hts
    unfold arguments
    rw [if_pos hparen]
    exact locates_ok (List.forall_mem_nil _) hts
  · intro name pos rest hparen ih hts
    rw [arguments, if_neg hparen]
    refine locates_pass fun hpassed => (locates_pathTail rest (hts.tail hpassed)).bind fun path _ hpath => ?_
    exact (ih path hpath).bind fun more hmore hrest => locates_ok (List.forall_mem_cons.2 ⟨hts.head, hmore⟩) hrest
  · intro aggregate ts hword hparen ihFirst ihMore hts
    rw [arguments_of_plain hparen hword]
    refine (ihFirst hts).bind fun first hfirst hrest => ?_
    exact (ihMore first hrest).bind fun more hmore hrest => locates_ok (List.forall_mem_cons.2 ⟨hfirst, hmore⟩) hrest
  · intro hts
    rw [moreArguments]
    exact locates_ok (List.forall_mem_nil _) hts
  · intro t rest hk ihArg ihMore hts
    rw [moreArguments, if_pos hk]
    refine locates_pass fun hpassed => (ihArg (hts.tail hpassed)).bind fun arg harg hrest => ?_
    exact (ihMore arg hrest).bind fun more hmore hrest => locates_ok (List.forall_mem_cons.2 ⟨harg, hmore⟩) hrest
  · intro t rest hk hts
    rw [moreArguments, if_neg hk]
    exact locates_ok (List.forall_mem_nil _) hts

end Steps

end Parser

/-- The places of the tokens of a run and, if it ends well, of its end. -/
def Run.IsPlace (r : Run) (pos : Position) : Prop :=
  (∃ t ∈ r.tokens, t.pos = pos) ∨ r.ending.error? = none ∧ r.ending.pos = pos

/-- A parser that has not met the failure of its run fails there or at a place of its tokens. -/
theorem Parser.failsAt_of_parse {p : Parser} {e : ParseError} (hpassed : Passed p.ending p.tokens)
    (h : p.parse.1 = .error e) : e.FailsAt (Run.IsPlace ⟨p.tokens, p.ending⟩) p.ending := by
  have hknown : Known (Run.IsPlace ⟨p.tokens, p.ending⟩) p.ending p.tokens :=
    ⟨fun t ht => Or.inl ⟨t, ht, rfl⟩, fun hending => Or.inr ⟨hending, rfl⟩, hpassed⟩
  have hlocates := (locates_all (Run.IsPlace ⟨p.tokens, p.ending⟩) p.ending).1 3 p.tokens hknown
  unfold parse at h
  split at h
  · rename_i lexError tokens hoperand
    cases h
    exact hlocates.1 _ hoperand
  · rename_i f _ hoperand
    cases h
    exact hlocates.1 f hoperand
  · rename_i r hoperand
    split at h
    · cases h
    · rename_i t rest hrest
      cases h
      have htrailing : Known (Run.IsPlace ⟨p.tokens, p.ending⟩) p.ending (t :: rest) :=
        hrest ▸ (hlocates.2 r hoperand).2
      exact Or.inr ⟨by rintro _ ⟨⟩, htrailing.head⟩

/-- A formula that does not parse fails where its run fails, or at a place of its tokens. -/
theorem Formula.failsAt_of_parse {s : String} {e : ParseError} (h : Formula.parse s = .error e) :
    e.FailsAt (Run.ofString s).IsPlace (Run.ofString s).ending := by
  unfold Formula.parse Parser.ofString at h
  generalize Run.ofString s = run at h ⊢
  obtain ⟨tokens, ending⟩ := run
  dsimp only at h ⊢
  cases tokens with
  | nil =>
    cases hending : ending.error? with
    | none =>
      rw [hending] at h
      exact Parser.failsAt_of_parse (p := ⟨[], ending⟩) (fun _ => hending) h
    | some lexError =>
      rw [hending] at h
      cases h
      exact Or.inl ⟨lexError, rfl, hending⟩
  | cons t tokens =>
    exact Parser.failsAt_of_parse (p := ⟨t :: tokens, ending⟩) (fun hnil => absurd hnil (List.cons_ne_nil t tokens)) h

private theorem tokenize_eq_error_iff {s : String} {e : LexError} :
    tokenize s = .error e ↔ (Run.ofString s).ending.error? = some e := by
  unfold tokenize Run.tokens?
  cases (Run.ofString s).ending <;> simp [Ending.error?]

/-- Taking tokens one by one agrees with taking all of them. A formula that parses has tokens, a failure of the
lexer that parsing meets is the one that taking all tokens meets, and where the lexer fails, parsing fails in the
same way or on a token before that place. -/
theorem Formula.parse_agrees_with_tokenize (s : String) :
    (∀ f, Formula.parse s = .ok f → ∃ ts, tokenize s = .ok ts) ∧
    (∀ e, Formula.parse s = .error (.lex e) → tokenize s = .error e) ∧
    ∀ e, tokenize s = .error e → Formula.parse s = .error (.lex e) ∨
      ∃ p, Formula.parse s = .error p ∧ (∀ e', p ≠ .lex e') ∧ p.pos.offset < e.pos.offset := by
  have hok : ∀ f, Formula.parse s = .ok f → (Run.ofString s).ending.error? = none := by
    intro f hf
    exact (Parser.operand_iff_derives.1 (Formula.parse_eq_ok_iff.1 hf)).2.2
  refine ⟨?_, ?_, ?_⟩
  · intro f hf
    cases htokens : tokenize s with
    | ok ts => exact ⟨ts, rfl⟩
    | error e =>
      have herror := tokenize_eq_error_iff.1 htokens
      rw [hok f hf] at herror
      cases herror
  · intro e he
    rcases Formula.failsAt_of_parse he with ⟨lexError, hsame, herror⟩ | ⟨hne, -⟩
    · cases hsame
      exact tokenize_eq_error_iff.2 herror
    · exact absurd rfl (hne e)
  · intro e he
    have herror := tokenize_eq_error_iff.1 he
    cases hparse : Formula.parse s with
    | ok f =>
      rw [hok f hparse] at herror
      cases herror
    | error p =>
      rcases Formula.failsAt_of_parse hparse with ⟨lexError, rfl, hsame⟩ | ⟨hne, hplace⟩
      · rw [herror] at hsame
        cases hsame
        exact Or.inl rfl
      · -- the run fails, so the place is that of a token
        refine Or.inr ⟨p, rfl, hne, ?_⟩
        rcases hplace with ⟨t, ht, hpos⟩ | ⟨hnone, -⟩
        · rw [← hpos]
          exact (Cursor.offset_lt_of_run herror).2 t ht
        · rw [herror] at hnone
          cases hnone

/-- The second number is refused before the lexer comes to the string that does not end. -/
theorem Formula.parse_agrees_with_tokenize_unterminated :
    tokenize "1 2 \"three" = .error ⟨.unterminatedString, .behind "1 2 ".toList⟩ ∧
      ∃ p, Formula.parse "1 2 \"three" = .error p ∧ (∀ e, p ≠ .lex e) ∧ p.pos.offset < 4 := by
  have htokens : tokenize "1 2 \"three" = .error ⟨.unterminatedString, .behind "1 2 ".toList⟩ := by decide +kernel
  have hparse : (Formula.parse "1 2 \"three").map (fun _ => ()) ≠
      .error (.lex ⟨.unterminatedString, .behind "1 2 ".toList⟩) := by decide +kernel
  refine ⟨htokens, ((Formula.parse_agrees_with_tokenize _).2.2 _ htokens).resolve_left ?_⟩
  intro h
  exact hparse (by rw [h]; rfl)

end FormulaQuery
