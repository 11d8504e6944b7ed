import FormulaQuery.Proofs.Constants
import FormulaQuery.Proofs.Usage

/-!
# The limit on paths

The limit on the length of paths decides only whether a path is accepted. Under a lower limit a formula is compiled
as under a higher one, with the same plan or the same error, unless one of its paths is longer than the lower limit
and the error says so (`Scope.agrees_of_limit_le`). How long its paths are can be read off the aggregates of its
plan (`Scope.Plans.links_le_iff`). So a plan under a higher limit tells what a lower one gives
(`Plan.ofFormula_gated`).
-/

namespace FormulaQuery

/-- The error of a path that is longer than the limit. -/
def SemanticError.IsTooDeep (limit : Nat) (e : SemanticError) : Prop :=
  ∃ path depth pos, limit < depth ∧ e = ⟨.chainTooDeep path depth limit, pos⟩

namespace Formula

/-- All paths of aggregates in the formula have at most `limit` relationships. -/
def PathsWithin (limit : Nat) (f : Formula) : Prop :=
  ∀ pos name pathPos segments args, Outer (.call pos name (.path pathPos segments :: args)) f →
    (AggregateFunction.ofName? name).isSome = true → segments.length ≤ limit

private theorem PathsWithin.child {limit : Nat} {f c : Formula} (h : f.PathsWithin limit) (hw : ¬f.IsAggregate)
    (hc : c ∈ f.children) : c.PathsWithin limit :=
  fun pos name pathPos segments args hout => h pos name pathPos segments args (.child hw hc hout)

/-- What reads no row by itself is no aggregate. -/
theorem not_isAggregate_of_not_reads {f : Formula} (h : ¬f.Reads) : ¬f.IsAggregate := by
  rintro ⟨pos, name, args, g, rfl, hg⟩
  exact h (.aggregate pos (AggregateFunction.ofName?_eq_some_iff.1 hg) args)

end Formula

namespace Scope

variable {s : Scope} {limit : Nat}

/-! ### Compiling under a lower limit -/

/-- What can go wrong under a lower limit: in the main context, a path of the formula is too long. -/
def Exceeds (s : Scope) (limit : Nat) (f : Formula) (e : SemanticError) : Prop :=
  s.context.isMain = true ∧ ¬f.PathsWithin limit ∧ e.IsTooDeep limit

private theorem Exceeds.of_child {f c : Formula} {e : SemanticError} (hw : ¬f.IsAggregate) (hc : c ∈ f.children)
    (h : s.Exceeds limit c e) : s.Exceeds limit f e :=
  ⟨h.1, fun hall => h.2.1 (hall.child hw hc), h.2.2⟩

/-- A destination is refused for its length before it is looked at. -/
private theorem agrees_destination (hd : limit ≤ s.maxDepth) (f : AggregateFunction) (pos : Position)
    (path : Formula) :
    Agrees (fun e => s.context.isMain = true ∧ (∃ p segments, path = .path p segments ∧ limit < segments.length) ∧
        e.IsTooDeep limit)
      (s.destination f pos path) ((s.elsewhere s.table limit).destination f pos path) := by
  by_cases hm : s.context.isMain = true
  · cases path with
    | path p segments =>
      by_cases hlt : limit < segments.length
      · refine Or.inr ⟨_, ⟨hm, ⟨p, segments, rfl, hlt⟩, pathText segments, segments.length, p, hlt, rfl⟩, ?_⟩
        simp [destination, elsewhere, hm, hlt]
      · have hle : ¬s.maxDepth < segments.length := by omega
        left
        simp [destination, elsewhere, hm, hlt, hle]
    | _ => exact .refl _
  · left
    simp [destination, elsewhere, hm]

/-- What is put between texts has no path. -/
private theorem compileDelimiter_elsewhere (s : Scope) (limit : Nat) (f : AggregateFunction) (more : List Formula) :
    (s.elsewhere s.table limit).compileDelimiter f more = s.compileDelimiter f more := by
  cases more with
  | nil => rw [compileDelimiter, compileDelimiter]
  | cons delimiter rest =>
    rw [compileDelimiter, compileDelimiter]
    by_cases hc : delimiter.isConstant = true
    · rw [compile_of_isConstant s.table limit (delimiter.isConstant_iff.1 hc)]
    · simp [hc]

private theorem agrees_compileAggregate {args : List Formula} (hd : limit ≤ s.maxDepth)
    (ih : ∀ c ∈ args, ∀ {s : Scope}, limit ≤ s.maxDepth →
      Agrees (s.Exceeds limit c) (s.compile c) ((s.elsewhere s.table limit).compile c))
    (f : AggregateFunction) (pos : Position) :
    Agrees (fun e => s.context.isMain = true ∧ (∃ p segments more, args = .path p segments :: more ∧
        limit < segments.length) ∧ e.IsTooDeep limit)
      (s.compileAggregate f pos args) ((s.elsewhere s.table limit).compileAggregate f pos args) := by
  rcases args with _ | ⟨path, _ | ⟨value, more⟩⟩
  · left
    simp [compileAggregate]
  · left
    simp [compileAggregate]
  · rw [compileAggregate, compileAggregate]
    refine ((agrees_destination hd f pos path).mono ?_).bind fun d _ => ?_
    · rintro e ⟨hm, ⟨p, segments, rfl, hlt⟩, he⟩
      exact ⟨hm, ⟨p, segments, value :: more, rfl, hlt⟩, he⟩
    · -- aggregates are refused in the scope of an aggregate, whatever the limit is
      have hinner : ((s.elsewhere s.table limit).nested d).compile value = (s.nested d).compile value :=
        (ih value (by simp) (s := s.nested d) hd).eq_of_not fun e h => Bool.false_ne_true h.1
      rw [hinner, compileDelimiter_elsewhere]
      exact .refl _

/-- Under a lower limit a formula has the same plan or the same error, unless one of its paths is too long. -/
theorem agrees_of_limit_le (hd : limit ≤ s.maxDepth) (f : Formula) :
    Agrees (s.Exceeds limit f) (s.compile f) ((s.elsewhere s.table limit).compile f) := by
  induction f using Formula.children_induction generalizing s with
  | step f ih =>
    refine agrees_compile ?_ ?_
    · intro hreads
      cases hreads with
      | column | related | path =>
        rw [compile, compile]
        exact .refl _
      | @aggregate pos g name hg args =>
        have hname := AggregateFunction.ofName?_eq_some_iff.2 hg
        refine agrees_compile_aggregate hname ((agrees_compileAggregate hd ih g pos).mono ?_)
        rintro e ⟨hm, ⟨p, segments, more, rfl, hlt⟩, he⟩
        refine ⟨hm, fun hall => ?_, he⟩
        have hle := hall pos name p segments more (.refl _) (by rw [hname]; rfl)
        omega
    · intro hreads c hc
      exact (ih c hc hd).mono fun e => Exceeds.of_child (Formula.not_isAggregate_of_not_reads hreads) hc

end Scope

/-! ### Paths in plans -/

/-- Each name is followed by one hop. -/
theorem Hop.length_of_follow {kind : Table → NameMap (Link Table)} {t : Table} {chain : List String} {hops : List Hop}
    (h : follow kind t chain = .ok hops) : hops.length = chain.length := by
  induction chain generalizing t hops with
  | nil =>
    cases h
    rfl
  | cons name chain ih =>
    unfold follow at h
    split at h
    · cases h
    · obtain ⟨more, hmore, h⟩ := bind_eq_ok h
      cases h
      simp [ih hmore]

namespace Scope

variable {s : Scope} {f : Formula} {p : Plan}

/-- A call of an aggregate over a path that has a plan. -/
private theorem Plans.exists_of_path {pos pathPos : Position} {name : String} {segments : List String}
    {args : List Formula} (h : Plans s (.call pos name (.path pathPos segments :: args)) p)
    (hname : (AggregateFunction.ofName? name).isSome = true) :
    segments.length ≤ s.maxDepth ∧ ∃ hops value more, args = value :: more ∧
      Hop.follow Table.inverse s.table segments = .ok hops := by
  cases h with
  | call _ hs hn hg =>
    rw [← AggregateFunction.ofName?_eq_of_sameName hn, hg] at hname
    cases hname
  | dateDifference _ _ hs hn hd =>
    rw [← AggregateFunction.ofName?_eq_of_sameName hn, hd] at hname
    cases hname
  | aggregate _ _ hn hm hdepth hpath => exact ⟨hdepth, _, _, _, rfl, hpath⟩

/-- The paths of a formula that has a plan are within the limit. -/
theorem Plans.pathsWithin (h : Plans s f p) : f.PathsWithin s.maxDepth := by
  intro pos name pathPos segments args hout hname
  obtain ⟨q, hq⟩ := h.exists_of_outer hout
  exact (hq.exists_of_path hname).1

/-- The aggregates of a plan have as many links as the paths of the formula. -/
theorem Plans.links_le_iff (h : Plans s f p) (limit : Nat) (hf : f.WellFormed) :
    (∀ a ∈ p.aggregates.values, a.links.length ≤ limit) ↔ f.PathsWithin limit := by
  have hlength : ∀ {segments : List String} {d : Destination} {g : AggregateFunction} {inner : Plan}
      {delimiter : Option Plan}, Hop.follow Table.inverse s.table segments = .ok d.hops →
      (s.aggregateEntry g d inner delimiter).links.length = segments.length := by
    intro segments d g inner delimiter hfollow
    rw [← Hop.length_of_follow hfollow]
    exact List.length_map _
  constructor
  · intro hall pos name pathPos segments args hout hname
    obtain ⟨q, hq⟩ := h.exists_of_outer hout
    obtain ⟨-, hops, value, more, rfl, hfollow⟩ := hq.exists_of_path hname
    obtain ⟨g, hg⟩ := Option.isSome_iff_exists.1 hname
    have hfolds : f.Folds s.table g hops value more := ⟨pos, name, pathPos, segments, hout, hg, hfollow⟩
    obtain ⟨target, inner, delimiter, htarget, hinner, hdelimiter⟩ := h.exists_of_folds hfolds
    have hmem := ((h.registers hf).aggregates _).2
      ⟨g, ⟨hops, target⟩, value, more, inner, delimiter, hfolds, htarget, hinner, hdelimiter, rfl⟩
    rw [← hlength (d := ⟨hops, target⟩) hfollow]
    exact hall _ hmem
  · intro hall a ha
    obtain ⟨g, d, value, more, inner, delimiter, ⟨pos, name, pathPos, segments, hout, hg, hfollow⟩, -, -, -, rfl⟩ :=
      ((h.registers hf).aggregates a).1 ha
    rw [hlength hfollow]
    exact hall pos name pathPos segments _ hout (by rw [hg]; rfl)

end Scope

/-! ### Texts -/

namespace Plan

variable {schema : Table} {limit limit' : Nat}

/-- The text is refused because a path in it is longer than the limit. -/
def RefusedAt (text : String) (schema : Table) (limit : Nat) : Prop :=
  ∃ e, SemanticError.IsTooDeep limit e ∧ ofFormula text schema limit = .error (.semantic e)

/-- Under a lower limit a text gives what it gives under a higher one, unless it is a formula that has a path over the
lower limit and so gives the error for this. -/
private theorem ofFormula_eq_or_refusedAt (text : String) (schema : Table) (hle : limit ≤ limit') :
    ofFormula text schema limit = ofFormula text schema limit' ∨
      RefusedAt text schema limit ∧ ∀ f, Formula.parse text = .ok f → ¬f.PathsWithin limit := by
  cases hparse : Formula.parse text with
  | error e => exact Or.inl (by simp only [ofFormula, hparse])
  | ok f =>
    have hagrees : Agrees _ _ ((schema.scope limit).compile f) := (schema.scope limit').agrees_of_limit_le hle f
    rcases hagrees with heq | ⟨e, ⟨-, hlong, he⟩, herror⟩
    · refine Or.inl ?_
      simp only [ofFormula, hparse, Formula.compile, heq]
    · refine Or.inr ⟨⟨e, he, ?_⟩, ?_⟩
      · simp only [ofFormula, hparse, Formula.compile, herror]
      · rintro g hg
        cases hg
        exact hlong

/-- The limit on paths only gates. Under a lower limit a text gives the same plan or the same error as under a
higher one, or the error that a path is too long. So a plan under the lower limit is the plan under the higher one;
and a plan under the higher limit is the plan under the lower one if no aggregate has more links than that allows,
and else there is the error that a path is too long. -/
theorem ofFormula_gated (text : String) (schema : Table) (hle : limit ≤ limit') :
    (ofFormula text schema limit = ofFormula text schema limit' ∨ RefusedAt text schema limit) ∧
      (∀ p, ofFormula text schema limit = .ok p → ofFormula text schema limit' = .ok p) ∧
      ∀ p, ofFormula text schema limit' = .ok p →
        ((∀ a ∈ p.aggregates.values, a.links.length ≤ limit) → ofFormula text schema limit = .ok p) ∧
        (¬(∀ a ∈ p.aggregates.values, a.links.length ≤ limit) → RefusedAt text schema limit) := by
  have hgated := ofFormula_eq_or_refusedAt text schema hle
  refine ⟨hgated.imp_right And.left, ?_, ?_⟩
  · intro p hp
    rcases hgated with heq | ⟨⟨e, -, herror⟩, -⟩
    · rw [← heq]
      exact hp
    · rw [herror] at hp
      cases hp
  · intro p hp
    obtain ⟨f, hparse, hplans⟩ := ofFormula_eq_ok_iff.1 hp
    have hlinks := hplans.links_le_iff limit (Formula.wellFormed_of_parse hparse)
    rcases hgated with heq | ⟨hdeep, hlong⟩
    · rw [heq]
      refine ⟨fun _ => hp, fun hnot => ?_⟩
      obtain ⟨g, hparse', hplans'⟩ := ofFormula_eq_ok_iff.1 (heq.trans hp)
      rw [hparse] at hparse'
      cases hparse'
      exact absurd (hlinks.2 hplans'.pathsWithin) hnot
    · exact ⟨fun hall => absurd (hlinks.1 hall) (hlong f hparse), fun _ => hdeep⟩

/-- A path of two relationships and a chain of two, under three limits: only the path counts. -/
theorem ofFormula_gated_tangled :
    ∃ p, ofFormula "SUM_AGG(orders.lines, amount) - rep_rel.region_rel.quota" .tangled 3 = .ok p ∧
      ofFormula "SUM_AGG(orders.lines, amount) - rep_rel.region_rel.quota" .tangled 2 = .ok p ∧
      RefusedAt "SUM_AGG(orders.lines, amount) - rep_rel.region_rel.quota" .tangled 1 := by
  obtain ⟨p, hp, htwo, hone⟩ := exists_ofFormula_of_check
    "SUM_AGG(orders.lines, amount) - rep_rel.region_rel.quota" .tangled 3
    (fun p => (∀ a ∈ p.aggregates.values, a.links.length ≤ 2) ∧ ¬(∀ a ∈ p.aggregates.values, a.links.length ≤ 1))
    (by decide +kernel)
  have hsame := ((ofFormula_gated _ .tangled (show 2 ≤ 3 by decide)).2.2 p hp).1 htwo
  have hdeep := ((ofFormula_gated _ .tangled (show 1 ≤ 3 by decide)).2.2 p hp).2 hone
  exact ⟨p, hp, hsame, hdeep⟩

end Plan

end FormulaQuery
