import FormulaQuery.Plan.Compile
import FormulaQuery.Proofs.Failure
import FormulaQuery.Proofs.Settling
import FormulaQuery.Proofs.TypeRules
import FormulaQuery.Proofs.WellFormed

/-!
# Where compiling fails

A formula that does not compile is reported at a real place of its text. The places of tokens and of failures of the
lexer are in the text (`Cursor.places_run`), all nodes of a formula stand at places of tokens (`Derives.placed`),
and compiling fails at the place of a node (`Scope.failsIn_compile`). With the failures of the parser this is
`Plan.error_in_text`.
-/

namespace FormulaQuery

/-! ### Places in a text -/

namespace Position

variable {text : List Char} {p : Position}

/-- A place in a text, behind some characters that it begins with. -/
def IsIn (text : List Char) (p : Position) : Prop := ∃ before, before <+: text ∧ p = .behind before

/-- A place is known from its offset. -/
theorem IsIn.eq_behind_take (h : p.IsIn text) : p.offset ≤ text.length ∧ p = .behind (text.take p.offset) := by
  obtain ⟨before, hfront, rfl⟩ := h
  rw [offset_behind]
  exact ⟨hfront.length_le, congrArg behind (List.prefix_iff_eq_take.1 hfront)⟩

end Position

namespace Cursor

variable {c c' : Cursor} {result : Except LexError Token} {text : List Char}

/-- A call answers with a place in the text. -/
theorem isIn_result (h : c.IsIn text) (hnext : c.next = (result, c')) :
    (∀ t, result = .ok t → t.pos.IsIn text) ∧ ∀ e, result = .error e → e.pos.IsIn text := by
  obtain ⟨before, rfl, hpos⟩ := h
  have hbehind : ∀ w r, c.rest = w ++ r → (c.pos.after w).IsIn (before ++ c.rest) := by
    intro w r hw
    refine ⟨before ++ w, ⟨r, by simp [hw]⟩, ?_⟩
    rw [hpos, Position.after_behind]
  have hgives := c.gives_next
  rw [hnext] at hgives
  cases hgives with
  | comment =>
    refine ⟨by rintro _ ⟨⟩, ?_⟩
    rintro _ ⟨⟩
    exact hbehind c.rest [] (List.append_nil _).symm
  | token hw =>
    refine ⟨?_, by rintro _ ⟨⟩⟩
    rintro _ ⟨⟩
    exact hbehind _ _ hw
  | string hw | unexpected hw =>
    refine ⟨by rintro _ ⟨⟩, ?_⟩
    rintro _ ⟨⟩
    exact hbehind _ _ hw

/-- All places of a run are in the text. -/
theorem places_run (h : c.IsIn text) :
    (∀ p, c.run.IsPlace p → p.IsIn text) ∧ ∀ e, c.run.ending.error? = some e → e.pos.IsIn text := by
  induction c using Cursor.run.induct with
  | case1 c e c' hnext =>
    have hresult := (isIn_result h hnext).2 e rfl
    have hending : c.run.ending.error? = some e := by
      rw [run_of_error hnext]
      dsimp only
      split_ifs <;> rfl
    refine ⟨?_, ?_⟩
    · rintro p (⟨t, ht, -⟩ | ⟨hnone, -⟩)
      · rw [run_of_error hnext] at ht
        cases ht
      · rw [hending] at hnone
        cases hnone
    · intro e' he'
      rw [hending] at he'
      cases he'
      exact hresult
  | case2 c t c' hnext heof =>
    have hresult := (isIn_result h hnext).1 t rfl
    rw [run_of_eof hnext heof]
    refine ⟨?_, by rintro _ ⟨⟩⟩
    rintro p (⟨u, hu, -⟩ | ⟨-, hp⟩)
    · cases hu
    · rw [← hp]
      exact hresult
  | case3 c t c' hnext heof ih =>
    have hresult := (isIn_result h hnext).1 t rfl
    obtain ⟨hplaces, herror⟩ := ih (isIn_next h hnext)
    rw [run_of_token hnext heof]
    refine ⟨?_, herror⟩
    rintro p (⟨u, hu, hp⟩ | hend)
    · rcases List.mem_cons.1 hu with rfl | hu
      · rw [← hp]
        exact hresult
      · exact hplaces p (Or.inl ⟨u, hu, hp⟩)
    · exact hplaces p (Or.inr hend)

end Cursor

/-! ### Places of nodes -/

namespace Formula

variable {known : Position → Prop}

/-- All nodes of the formula stand at known places. -/
def Placed (known : Position → Prop) (f : Formula) : Prop := ∀ g, Within g f → known g.pos

private theorem placed_iff_children {f : Formula} :
    f.Placed known ↔ known f.pos ∧ ∀ c ∈ f.children, c.Placed known := by
  constructor
  · intro h
    exact ⟨h f (.refl f), fun c hc g hg => h g (.child hc hg)⟩
  · rintro ⟨hpos, hchildren⟩ g hg
    cases hg with
    | refl => exact hpos
    | child hc hg => exact hchildren _ hc g hg

theorem Placed.pos {f : Formula} (h : f.Placed known) : known f.pos := h f (.refl f)

private theorem placed_foldl_apply {ops : List Operation} {left : Formula} (hleft : left.Placed known)
    (hops : ∀ o ∈ ops, o.value.Placed known) : (ops.foldl Operation.apply left).Placed known := by
  induction ops generalizing left with
  | nil => exact hleft
  | cons o ops ih =>
    obtain ⟨ho, hops⟩ := List.forall_mem_cons.1 hops
    refine ih (placed_iff_children.2 ⟨hleft.pos, ?_⟩) hops
    exact List.forall_mem_cons.2 ⟨hleft, List.forall_mem_singleton.2 ho⟩

private theorem placed_leaf {f : Formula} (h : f.children = []) (hpos : known f.pos) : f.Placed known := by
  refine placed_iff_children.2 ⟨hpos, ?_⟩
  rw [h]
  exact List.forall_mem_nil _

private theorem placed_of_callValue {pos : Position} {name : String} {args : List Formula} {e : Formula}
    (h : CallValue pos name args e) (hpos : known pos) (hargs : ∀ a ∈ args, a.Placed known) : e.Placed known := by
  cases h with
  | date => exact placed_leaf rfl hpos
  | call => exact placed_iff_children.2 ⟨hpos, hargs⟩

/-- Phrases behind symbols, if each is placed where its own tokens are. -/
private theorem placed_parts {more : List Part} (h : ∀ a ∈ more, (∀ t ∈ a.tokens, known t.pos) → a.value.Placed known)
    (hts : ∀ t ∈ more.flatMap Part.all, known t.pos) : ∀ v ∈ more.map (·.value), v.Placed known := by
  intro v hv
  obtain ⟨a, ha, rfl⟩ := List.mem_map.1 hv
  exact h a ha fun t ht => hts t (List.mem_flatMap.2 ⟨a, ha, List.mem_cons_of_mem _ ht⟩)

end Formula

/-- All nodes stand at places of the tokens that derive them. -/
theorem Derives.placed {known : Position → Prop} {p : Phrase} {ts : List Token} {e : Formula} (h : Derives p ts e)
    (hts : ∀ t ∈ ts, known t.pos) : e.Placed known := by
  induction h with
  | @chain p q ts left ops hq hleft hops hright ihLeft ihRight =>
    simp only [List.forall_mem_append] at hts
    refine Formula.placed_foldl_apply (ihLeft hts.1) fun o ho => ihRight o ho fun t ht => hts.2 t ?_
    exact List.mem_flatMap.2 ⟨o.toPart, List.mem_map_of_mem ho, List.mem_cons_of_mem _ ht⟩
  | number | string | related | emptyCall => exact Formula.placed_leaf rfl (hts _ List.mem_cons_self)
  | word pos name =>
    have hpos : known pos := hts _ List.mem_cons_self
    unfold Formula.ofWord
    split_ifs <;> exact Formula.placed_leaf rfl hpos
  | negate pos h ih =>
    obtain ⟨hpos, hts⟩ := List.forall_mem_cons.1 hts
    exact Formula.placed_iff_children.2 ⟨hpos, List.forall_mem_singleton.2 (ih hts)⟩
  | group opening closing h ih =>
    simp only [List.forall_mem_cons, List.forall_mem_append] at hts
    exact ih hts.2.1
  | call pos opening closing hplain hfirst hcomma hmore he ihFirst ihMore =>
    simp only [List.forall_mem_cons, List.forall_mem_append] at hts
    obtain ⟨hpos, -, hfirst, hmore, -⟩ := hts
    have hargs := List.forall_mem_cons.2 ⟨ihFirst hfirst, Formula.placed_parts ihMore hmore⟩
    exact Formula.placed_of_callValue he hpos hargs
  | @aggregate pos opening closing pathPos name segment ts segments more hname hpath hcomma hmore ihMore =>
    simp only [List.forall_mem_cons, List.forall_mem_append] at hts
    obtain ⟨hpos, -, hfirst, -, hmore, -⟩ := hts
    have hpath : (Formula.path pathPos (segment :: segments)).Placed known := Formula.placed_leaf rfl hfirst
    have hargs := List.forall_mem_cons.2 ⟨hpath, Formula.placed_parts ihMore hmore⟩
    exact Formula.placed_iff_children.2 ⟨hpos, hargs⟩

/-! ### Places of faults -/

/-- The result is there or has a fault at a known place. -/
def FailsIn {α : Type} (known : Position → Prop) (r : Except SemanticError α) : Prop :=
  ∀ e, r = .error e → known e.pos

section FailsIn

variable {α β : Type} {known : Position → Prop}

private theorem failsIn_ok (a : α) : FailsIn known (.ok a) := by
  intro e h
  cases h

private theorem failsIn_error {cause : SemanticError.Cause} {pos : Position} (h : known pos) :
    FailsIn known (.error ⟨cause, pos⟩ : Except SemanticError α) := by
  intro e he
  cases he
  exact h

private theorem FailsIn.bind {x : Except SemanticError α} {f : α → Except SemanticError β} (hx : FailsIn known x)
    (hf : ∀ a, FailsIn known (f a)) : FailsIn known (x >>= f) := by
  intro e h
  rcases bind_eq_error h with h | ⟨a, -, h⟩
  · exact hx e h
  · exact hf a e h

end FailsIn

namespace Scope

variable {s : Scope} {known : Position → Prop} {pos : Position} {args : List Formula}

private theorem failsIn_column (hpos : known pos) (name : String) : FailsIn known (s.column pos name) := by
  unfold column
  split
  · exact failsIn_ok _
  · exact failsIn_error hpos

private theorem failsIn_related (hpos : known pos) (chain : List String) (field : Option String) :
    FailsIn known (s.related pos chain field) := by
  unfold related
  split
  · exact failsIn_error hpos
  · dsimp only
    split
    · split
      · exact failsIn_error hpos
      · split
        · exact failsIn_error hpos
        · exact failsIn_ok _
    · exact failsIn_error hpos

private theorem failsIn_signature (hpos : known pos) (name : String) (count : Nat) :
    FailsIn known (signature pos name count) := by
  unfold signature
  split
  · exact failsIn_error hpos
  · split
    · exact failsIn_ok _
    · exact failsIn_error hpos

private theorem failsIn_checkArgument (hpos : known pos) (sig : Signature) (index : Nat) (found : ValueType) :
    FailsIn known (checkArgument sig index pos found) := by
  unfold checkArgument
  split
  · split
    · exact failsIn_ok _
    · exact failsIn_error hpos
  · exact failsIn_ok _

private theorem failsIn_dateUnit {unit : Formula} (hunit : known unit.pos) : FailsIn known (s.dateUnit unit) := by
  unfold dateUnit
  split
  · dsimp only
    split
    · exact failsIn_ok _
    · exact failsIn_error hunit
  · exact failsIn_error hunit

private theorem failsIn_callType (hpos : known pos) (hargs : ∀ a ∈ args, known a.pos) (sig : Signature)
    (types : List ValueType) : FailsIn known (callType sig pos args types) := by
  unfold callType
  split
  · split
    · exact failsIn_ok _
    · exact failsIn_error (hargs _ (by simp))
  · exact failsIn_ok _
  · split
    · exact failsIn_ok _
    · exact failsIn_error hpos
  · split
    · exact failsIn_ok _
    · exact failsIn_ok _

private theorem failsIn_destination (hpos : known pos) {path : Formula} (hpath : known path.pos)
    (f : AggregateFunction) : FailsIn known (s.destination f pos path) := by
  unfold destination
  split
  · exact failsIn_error hpos
  · split
    · split
      · exact failsIn_error hpath
      · split
        · exact failsIn_error hpath
        · split
          · exact failsIn_ok _
          · exact failsIn_error hpath
    · exact failsIn_error hpath

private theorem failsIn_compileArguments (hargs : ∀ a ∈ args, known a.pos)
    (ih : ∀ a ∈ args, FailsIn known (s.compile a))
    (sig : Signature) (index : Nat) : FailsIn known (s.compileArguments sig index args) := by
  induction args generalizing index with
  | nil =>
    rw [compileArguments]
    exact failsIn_ok _
  | cons arg args ihArgs =>
    obtain ⟨harg, hargs⟩ := List.forall_mem_cons.1 hargs
    obtain ⟨hcompile, ih⟩ := List.forall_mem_cons.1 ih
    rw [compileArguments]
    refine hcompile.bind fun p => (failsIn_checkArgument harg _ _ _).bind fun _ => ?_
    exact (ihArgs hargs ih _).bind fun more => failsIn_ok _

private theorem failsIn_compileDateDifference (hpos : known pos) (hargs : ∀ a ∈ args, known a.pos)
    (ih : ∀ a ∈ args, FailsIn known (s.compile a)) (sig : Signature) :
    FailsIn known (s.compileDateDifference sig pos args) := by
  unfold compileDateDifference
  split
  · rename_i start finish unit
    simp only [List.forall_mem_cons] at hargs ih
    obtain ⟨hstart, hfinish, hunit, -⟩ := hargs
    refine ih.1.bind fun p => (failsIn_checkArgument hstart _ _ _).bind fun _ => ?_
    refine ih.2.1.bind fun q => (failsIn_checkArgument hfinish _ _ _).bind fun _ => ?_
    exact (failsIn_dateUnit hunit).bind fun u => failsIn_ok _
  · exact failsIn_error hpos

private theorem failsIn_compileDelimiter (hargs : ∀ a ∈ args, known a.pos)
    (ih : ∀ a ∈ args, FailsIn known (s.compile a))
    (f : AggregateFunction) : FailsIn known (s.compileDelimiter f args) := by
  unfold compileDelimiter
  split
  · rename_i delimiter _
    have hdelimiter := hargs delimiter List.mem_cons_self
    split
    · split
      · refine (ih delimiter List.mem_cons_self).bind fun p => ?_
        split
        · exact failsIn_ok _
        · exact failsIn_error hdelimiter
      · exact failsIn_error hdelimiter
    · exact failsIn_ok _
  · exact failsIn_ok _

private theorem failsIn_compileAggregate (hpos : known pos) (hargs : ∀ a ∈ args, known a.pos)
    (ih : ∀ a ∈ args, ∀ s : Scope, FailsIn known (s.compile a)) (f : AggregateFunction) :
    FailsIn known (s.compileAggregate f pos args) := by
  unfold compileAggregate
  split
  · rename_i path value more
    obtain ⟨hpath, hargs⟩ := List.forall_mem_cons.1 hargs
    obtain ⟨hvalue, hmore⟩ := List.forall_mem_cons.1 hargs
    have ihMore := (List.forall_mem_cons.1 (List.forall_mem_cons.1 ih).2).2
    refine (failsIn_destination hpos hpath f).bind fun d => (ih value (by simp) _).bind fun inner => ?_
    split
    · exact (failsIn_compileDelimiter hmore (fun a ha => ihMore a ha s) f).bind fun delimiter => failsIn_ok _
    · exact failsIn_error hvalue
  · exact failsIn_error hpos

/-- Compiling fails at the place of a node. -/
theorem failsIn_compile {f : Formula} (h : f.Placed known) (s : Scope) : FailsIn known (s.compile f) := by
  induction f using Formula.children_induction generalizing s with
  | step f ih =>
    obtain ⟨hpos, hchildren⟩ := Formula.placed_iff_children.1 h
    have hparts : ∀ a ∈ f.children, known a.pos := fun a ha => (hchildren a ha).pos
    have ih : ∀ a ∈ f.children, ∀ s : Scope, FailsIn known (s.compile a) := fun a ha => ih a ha (hchildren a ha)
    cases f with
    | number | string | boolean | null | date =>
      rw [compile]
      exact failsIn_ok _
    | column pos name =>
      rw [compile]
      exact (failsIn_column hpos name).bind fun e => failsIn_ok _
    | related pos chain field =>
      rw [compile]
      exact failsIn_related hpos chain field
    | path pos segments =>
      rw [compile]
      exact failsIn_error hpos
    | negate pos e =>
      rw [compile]
      refine (ih e (List.mem_singleton_self e) s).bind fun p => ?_
      dsimp only
      split
      · exact failsIn_ok _
      · exact failsIn_error hpos
    | binary pos op l r =>
      rw [compile]
      refine (ih l List.mem_cons_self s).bind fun p => (ih r (by simp [Formula.children]) s).bind fun q => ?_
      split
      · exact failsIn_ok _
      · exact failsIn_error hpos
    | call pos name args =>
      rw [compile]
      refine (failsIn_signature hpos name _).bind fun sig => ?_
      split
      · exact failsIn_compileAggregate hpos hparts ih _
      · split
        · exact failsIn_compileDateDifference hpos hparts (fun a ha => ih a ha s) sig
        · refine (failsIn_compileArguments hparts (fun a ha => ih a ha s) sig 0).bind fun plans => ?_
          exact (failsIn_callType hpos hparts sig _).bind fun type => failsIn_ok _

end Scope

/-- The nodes of a parsed formula stand at places of tokens. -/
theorem Formula.placed_of_parse {text : String} {f : Formula} (h : Formula.parse text = .ok f) :
    f.Placed (Run.ofString text).IsPlace :=
  (Parser.operand_iff_derives.1 (Formula.parse_eq_ok_iff.1 h)).1.placed fun t ht => Or.inl ⟨t, ht, rfl⟩

/-- A formula that does not compile is reported at a place of its text: the offset is no greater than the length of
the text, line and column count the line feeds before that offset and the characters since the last of them, and
unless the lexer fails, a token begins there, or the formula ends. -/
theorem Plan.error_in_text {text : String} {schema : Table} {maxDepth : Nat} {e : CompileError}
    (h : Plan.ofFormula text schema maxDepth = .error e) :
    e.pos.offset ≤ text.length ∧ e.pos = .behind (text.toList.take e.pos.offset) ∧
      ((∀ l, e ≠ .parse (.lex l)) → (Run.ofString text).IsPlace e.pos) := by
  obtain ⟨hplaces, herror⟩ := Cursor.places_run (Cursor.isIn_ofString text)
  have hall : e.pos.IsIn text.toList ∧ ((∀ l, e ≠ .parse (.lex l)) → (Run.ofString text).IsPlace e.pos) := by
    unfold Plan.ofFormula at h
    split at h
    · rename_i error hparse
      cases h
      rcases Formula.failsAt_of_parse hparse with ⟨l, rfl, hl⟩ | ⟨-, hplace⟩
      · exact ⟨herror l hl, fun hne => absurd rfl (hne l)⟩
      · exact ⟨hplaces _ hplace, fun _ => hplace⟩
    · rename_i f hparse
      split at h
      · rename_i error hcompile
        cases h
        have hplace := Scope.failsIn_compile (Formula.placed_of_parse hparse) _ error hcompile
        exact ⟨hplaces _ hplace, fun _ => hplace⟩
      · cases h
  obtain ⟨hin, hplace⟩ := hall
  obtain ⟨hle, heq⟩ := hin.eq_behind_take
  rw [String.length_toList] at hle
  exact ⟨hle, heq, hplace⟩

/-- A product stands where its left operand does, behind the parenthesis and in the second line. -/
theorem Plan.error_in_text_product :
    ∃ e, Plan.ofFormula "true =\n  (\"x\" & null) * null" (.ofName "orders") 3 = .error e ∧ e.pos = ⟨10, 2, 4⟩ ∧
      e.pos = .behind "true =\n  (".toList ∧ (Run.ofString "true =\n  (\"x\" & null) * null").IsPlace e.pos := by
  have herror : Plan.ofFormula "true =\n  (\"x\" & null) * null" (.ofName "orders") 3 =
      .error (.semantic ⟨.type (.operands .multiply .string .null), ⟨10, 2, 4⟩⟩) :=
    eq_error_of_map (g := fun _ => ()) (by decide +kernel)
  obtain ⟨-, hbehind, hplace⟩ := Plan.error_in_text herror
  exact ⟨_, herror, rfl, hbehind, hplace (by rintro _ ⟨⟩)⟩

end FormulaQuery
