import FormulaQuery.Proofs.Juxtaposition
import FormulaQuery.Proofs.Parsing
import FormulaQuery.Proofs.Planning

/-!
# Composing formulas by their texts

Two formulas in parentheses with an operator between them are the operation on these formulas: the plan of the
composed text is put together from the plans of its parts (`Plan.ofFormula_compose`). The parts are cut into the
same tokens as before, but these stand at other places; neither the derivation of a formula (`Derives.movable`) nor
its plan (`Scope.Plans.of_unplaced_eq`) looks at places.
-/

namespace FormulaQuery

/-! ### Derivations at other places -/

/-- A part with the same symbol as another one and, apart from places, the same value. -/
structure Part.Alike (q : Phrase) (a b : Part) : Prop where
  symbol : b.symbol = a.symbol
  derives : Derives q b.tokens b.value
  value : b.value.unplaced = a.value.unplaced

namespace Derives

variable {p q : Phrase} {ts ts' : List Token} {e : Formula}

/-- What tokens derive can be derived from all tokens of the same kinds. -/
def Movable (p : Phrase) (ts : List Token) (e : Formula) : Prop :=
  ∀ ts' : List Token, ts'.map (·.kind) = ts.map (·.kind) → ∃ e', Derives p ts' e' ∧ e'.unplaced = e.unplaced

private theorem exists_parts {as : List Part} (ih : ∀ a ∈ as, Movable q a.tokens a.value)
    (h : ts'.map (·.kind) = (as.flatMap Part.all).map (·.kind)) :
    ∃ bs : List Part, ts' = bs.flatMap Part.all ∧ List.Forall₂ (Part.Alike q) as bs := by
  induction as generalizing ts' with
  | nil =>
    rw [List.flatMap_nil, List.map_nil, List.map_eq_nil_iff] at h
    exact ⟨[], h, .nil⟩
  | cons a as ihParts =>
    obtain ⟨iha, ih⟩ := List.forall_mem_cons.1 ih
    rw [List.flatMap_cons, List.map_append, List.map_eq_append_iff] at h
    obtain ⟨us, vs, rfl, hus, hvs⟩ := h
    obtain ⟨⟨kind, pos⟩, tokens, rfl, hkind, htokens⟩ := List.map_eq_cons_iff.1 hus
    cases hkind
    obtain ⟨e, he, hvalue⟩ := iha tokens htokens
    obtain ⟨bs, rfl, hbs⟩ := ihParts ih hvs
    exact ⟨⟨a.symbol, pos, tokens, e⟩ :: bs, rfl, .cons ⟨rfl, he, hvalue⟩ hbs⟩

private theorem exists_operations {ops : List Operation} {bs : List Part}
    (h : List.Forall₂ (Part.Alike q) (ops.map (·.toPart)) bs) :
    ∃ ops' : List Operation, ops'.map (·.toPart) = bs ∧
      List.Forall₂ (fun o o' => o'.op = o.op ∧ Part.Alike q o.toPart o'.toPart) ops ops' := by
  induction ops generalizing bs with
  | nil =>
    cases h
    exact ⟨[], rfl, .nil⟩
  | cons o ops ih =>
    cases h with
    | @cons _ b _ bs hb hbs =>
      obtain ⟨ops', rfl, hops⟩ := ih hbs
      exact ⟨⟨b, o.op⟩ :: ops', rfl, .cons ⟨rfl, hb⟩ hops⟩

private theorem unplaced_foldl_of_alike {ops ops' : List Operation} {left left' : Formula}
    (h : List.Forall₂ (fun o o' => o'.op = o.op ∧ Part.Alike q o.toPart o'.toPart) ops ops')
    (hleft : left'.unplaced = left.unplaced) :
    (ops'.foldl Operation.apply left').unplaced = (ops.foldl Operation.apply left).unplaced := by
  induction h generalizing left left' with
  | nil => exact hleft
  | cons ho _ ih =>
    refine ih ?_
    simp only [Operation.apply, Formula.unplaced, hleft, ho.1, ho.2.value]

private theorem reference_of_kinds_eq {chain : List String} {field : String} (h : Reference ts chain field)
    (hk : ts'.map (·.kind) = ts.map (·.kind)) : Reference ts' chain field := by
  induction h generalizing ts' with
  | field pos name =>
    obtain ⟨⟨kind, pos'⟩, rfl, hkind⟩ := List.map_eq_singleton_iff.1 hk
    cases hkind
    exact .field pos' name
  | link pos dot hname _ ih =>
    obtain ⟨⟨kind, pos'⟩, us, rfl, hkind, hus⟩ := List.map_eq_cons_iff.1 hk
    obtain ⟨⟨kind', dot'⟩, vs, rfl, hkind', hvs⟩ := List.map_eq_cons_iff.1 hus
    cases hkind
    cases hkind'
    exact .link pos' dot' hname (ih hvs)

private theorem pathTail_of_kinds_eq {segments : List String} (h : PathTail ts segments)
    (hk : ts'.map (·.kind) = ts.map (·.kind)) : PathTail ts' segments := by
  induction h generalizing ts' with
  | nil =>
    rw [List.map_eq_nil_iff.1 hk]
    exact .nil
  | cons dot pos name _ ih =>
    obtain ⟨⟨kind, dot'⟩, us, rfl, hkind, hus⟩ := List.map_eq_cons_iff.1 hk
    obtain ⟨⟨kind', pos'⟩, vs, rfl, hkind', hvs⟩ := List.map_eq_cons_iff.1 hus
    cases hkind
    cases hkind'
    exact .cons dot' pos' name (ih hvs)

private theorem startsWithWord_of_kinds_eq (hk : ts'.map (·.kind) = ts.map (·.kind)) (h : StartsWithWord ts') :
    StartsWithWord ts := by
  obtain ⟨name, pos, rest, rfl⟩ := h
  obtain ⟨⟨kind, pos'⟩, rest', rfl, hkind, -⟩ := List.map_eq_cons_iff.1 hk.symm
  cases hkind
  exact ⟨name, pos', rest', rfl⟩

private theorem exists_callValue {pos : Position} {name : String} {args args' : List Formula}
    (h : CallValue pos name args e) (hargs : args'.map Formula.unplaced = args.map Formula.unplaced)
    (pos' : Position) : ∃ e', CallValue pos' name args' e' ∧ e'.unplaced = e.unplaced := by
  cases h with
  | @date stringPos text hd =>
    obtain ⟨arg, rfl, harg⟩ := List.map_eq_singleton_iff.1 hargs
    rw [Formula.unplaced] at harg
    obtain ⟨p, rfl⟩ := Formula.exists_of_unplaced_eq_string harg
    exact ⟨.date pos' text, .date p hd, by rw [Formula.unplaced, Formula.unplaced]⟩
  | call hne =>
    refine ⟨.call pos' name args', .call ?_, by rw [Formula.unplaced, Formula.unplaced, hargs]⟩
    rintro hname p text rfl
    obtain ⟨arg, rfl, harg⟩ := List.map_eq_singleton_iff.1 hargs.symm
    rw [Formula.unplaced] at harg
    obtain ⟨p', rfl⟩ := Formula.exists_of_unplaced_eq_string harg
    exact hne hname p' text rfl

private theorem values_of_alike {as bs : List Part} (h : List.Forall₂ (Part.Alike q) as bs) :
    (bs.map (·.value)).map Formula.unplaced = (as.map (·.value)).map Formula.unplaced := by
  induction h with
  | nil => rfl
  | cons hb _ ih => exact congrArg₂ List.cons hb.value ih

private theorem forall_of_alike {as bs : List Part} (h : List.Forall₂ (Part.Alike q) as bs) :
    ∀ b ∈ bs, Derives q b.tokens b.value ∧ ∃ a ∈ as, b.symbol = a.symbol := by
  intro b hb
  obtain ⟨a, ha, hab⟩ := exists_mem_of_forall₂ h.flip hb
  exact ⟨hab.derives, a, ha, hab.symbol⟩

/-- Tokens of a call after its first argument: further arguments and the closing parenthesis. -/
private theorem exists_more {as : List Part} {closing : Position} (hcomma : ∀ a ∈ as, a.symbol = .comma)
    (ih : ∀ a ∈ as, Movable .comparison a.tokens a.value)
    (h : ts'.map (·.kind) = (as.flatMap Part.all ++ [(⟨.symbol .rightParen, closing⟩ : Token)]).map (·.kind)) :
    ∃ (bs : List Part) (closing' : Position), ts' = bs.flatMap Part.all ++ [⟨.symbol .rightParen, closing'⟩] ∧
      (∀ b ∈ bs, b.symbol = .comma) ∧ (∀ b ∈ bs, Derives .comparison b.tokens b.value) ∧
      (bs.map (·.value)).map Formula.unplaced = (as.map (·.value)).map Formula.unplaced := by
  rw [List.map_append, List.map_eq_append_iff] at h
  obtain ⟨us, vs, rfl, hus, hvs⟩ := h
  obtain ⟨bs, rfl, halike⟩ := exists_parts ih hus
  obtain ⟨⟨kind, closing'⟩, rfl, hkind⟩ := List.map_eq_singleton_iff.1 hvs
  cases hkind
  refine ⟨bs, closing', rfl, ?_, fun b hb => (forall_of_alike halike b hb).1, values_of_alike halike⟩
  intro b hb
  obtain ⟨-, a, ha, hsymbol⟩ := forall_of_alike halike b hb
  rw [hsymbol, hcomma a ha]

/-- A derivation does not depend on the places of its tokens. -/
theorem movable (h : Derives p ts e) : Movable p ts e := by
  induction h with
  | @chain p q ts left ops hq _ hops _ ihLeft ihRight =>
    intro ts' hk
    rw [List.map_append, List.map_eq_append_iff] at hk
    obtain ⟨us, vs, rfl, hus, hvs⟩ := hk
    obtain ⟨left', hleft', hunplaced⟩ := ihLeft us hus
    obtain ⟨bs, rfl, halike⟩ := exists_parts (List.forall_mem_map.2 ihRight) hvs
    obtain ⟨ops', rfl, hsame⟩ := exists_operations halike
    refine ⟨ops'.foldl Operation.apply left', .chain hq hleft' ?_ ?_, unplaced_foldl_of_alike hsame hunplaced⟩
    · intro o' ho'
      obtain ⟨o, ho, hop, hpart⟩ := exists_mem_of_forall₂ hsame.flip ho'
      rw [hop, hpart.symbol]
      exact hops o ho
    · intro o' ho'
      obtain ⟨o, ho, hop, hpart⟩ := exists_mem_of_forall₂ hsame.flip ho'
      exact hpart.derives
  | number pos n =>
    intro ts' hk
    obtain ⟨⟨kind, pos'⟩, rfl, hkind⟩ := List.map_eq_singleton_iff.1 hk
    cases hkind
    exact ⟨.number pos' n, .number pos' n, by rw [Formula.unplaced, Formula.unplaced]⟩
  | string pos text =>
    intro ts' hk
    obtain ⟨⟨kind, pos'⟩, rfl, hkind⟩ := List.map_eq_singleton_iff.1 hk
    cases hkind
    exact ⟨.string pos' text, .string pos' text, by rw [Formula.unplaced, Formula.unplaced]⟩
  | word pos name =>
    intro ts' hk
    obtain ⟨⟨kind, pos'⟩, rfl, hkind⟩ := List.map_eq_singleton_iff.1 hk
    cases hkind
    exact ⟨.ofWord pos' name, .word pos' name, by rw [Formula.unplaced_ofWord, Formula.unplaced_ofWord]⟩
  | negate pos _ ih =>
    intro ts' hk
    obtain ⟨⟨kind, pos'⟩, us, rfl, hkind, hus⟩ := List.map_eq_cons_iff.1 hk
    cases hkind
    obtain ⟨e', he', hunplaced⟩ := ih us hus
    exact ⟨.negate pos' e', .negate pos' he', by rw [Formula.unplaced, Formula.unplaced, hunplaced]⟩
  | group opening closing _ ih =>
    intro ts' hk
    obtain ⟨⟨kind, opening'⟩, us, rfl, hkind, hus⟩ := List.map_eq_cons_iff.1 hk
    cases hkind
    rw [List.map_append, List.map_eq_append_iff] at hus
    obtain ⟨vs, ws, rfl, hvs, hws⟩ := hus
    obtain ⟨⟨kind', closing'⟩, rfl, hkind'⟩ := List.map_eq_singleton_iff.1 hws
    cases hkind'
    obtain ⟨e', he', hunplaced⟩ := ih vs hvs
    exact ⟨e', .group opening' closing' he', hunplaced⟩
  | @related pos dot name field ts chain hname h =>
    intro ts' hk
    obtain ⟨⟨kind, pos'⟩, us, rfl, hkind, hus⟩ := List.map_eq_cons_iff.1 hk
    obtain ⟨⟨kind', dot'⟩, vs, rfl, hkind', hvs⟩ := List.map_eq_cons_iff.1 hus
    cases hkind
    cases hkind'
    exact ⟨.related pos' (name :: chain) (some field), .related pos' dot' hname (reference_of_kinds_eq h hvs),
      by rw [Formula.unplaced, Formula.unplaced]⟩
  | emptyCall pos opening closing name =>
    intro ts' hk
    obtain ⟨⟨kind, pos'⟩, us, rfl, hkind, hus⟩ := List.map_eq_cons_iff.1 hk
    obtain ⟨⟨kind', opening'⟩, vs, rfl, hkind', hvs⟩ := List.map_eq_cons_iff.1 hus
    obtain ⟨⟨kind'', closing'⟩, rfl, hkind''⟩ := List.map_eq_singleton_iff.1 hvs
    cases hkind
    cases hkind'
    cases hkind''
    exact ⟨.call pos' name [], .emptyCall pos' opening' closing' name, by rw [Formula.unplaced, Formula.unplaced]⟩
  | @call pos opening closing name ts first e more hplain hfirst hcomma _ he ih ihMore =>
    intro ts' hk
    obtain ⟨⟨kind, pos'⟩, us, rfl, hkind, hus⟩ := List.map_eq_cons_iff.1 hk
    obtain ⟨⟨kind', opening'⟩, vs, rfl, hkind', hvs⟩ := List.map_eq_cons_iff.1 hus
    cases hkind
    cases hkind'
    rw [List.map_append, List.map_eq_append_iff] at hvs
    obtain ⟨xs, ys, rfl, hxs, hys⟩ := hvs
    obtain ⟨first', hfirst', hunplaced⟩ := ih xs hxs
    obtain ⟨more', closing', rfl, hcomma', hmore', hvalues⟩ := exists_more hcomma ihMore hys
    have hargs : (first' :: more'.map (·.value)).map Formula.unplaced =
        (first :: more.map (·.value)).map Formula.unplaced := by
      rw [List.map_cons, List.map_cons, hunplaced, hvalues]
    obtain ⟨e', he', heq⟩ := exists_callValue he hargs pos'
    refine ⟨e', .call pos' opening' closing' ?_ hfirst' hcomma' hmore' he', heq⟩
    exact fun hname h => hplain hname (startsWithWord_of_kinds_eq hxs h)
  | @aggregate pos opening closing pathPos name segment ts segments more hname hpath hcomma _ ihMore =>
    intro ts' hk
    obtain ⟨⟨kind, pos'⟩, us, rfl, hkind, hus⟩ := List.map_eq_cons_iff.1 hk
    obtain ⟨⟨kind', opening'⟩, vs, rfl, hkind', hvs⟩ := List.map_eq_cons_iff.1 hus
    obtain ⟨⟨kind'', pathPos'⟩, ws, rfl, hkind'', hws⟩ := List.map_eq_cons_iff.1 hvs
    cases hkind
    cases hkind'
    cases hkind''
    rw [List.map_append, List.map_eq_append_iff] at hws
    obtain ⟨xs, ys, rfl, hxs, hys⟩ := hws
    obtain ⟨more', closing', rfl, hcomma', hmore', hvalues⟩ := exists_more hcomma ihMore hys
    refine ⟨.call pos' name (.path pathPos' (segment :: segments) :: more'.map (·.value)), ?_, ?_⟩
    · exact .aggregate pos' opening' closing' pathPos' hname (pathTail_of_kinds_eq hpath hxs) hcomma' hmore'
    · simp only [Formula.unplaced, List.map_cons, hvalues]

end Derives

/-! ### Plans at other places -/

namespace Formula

private theorem isConstant_unplaced (f : Formula) : f.unplaced.isConstant = f.isConstant := by
  induction f using children_induction with
  | step f ih =>
    cases f with
    | negate pos e => rw [unplaced, isConstant, isConstant, ih e List.mem_cons_self]
    | binary pos op l r =>
      rw [unplaced, isConstant, isConstant, ih l List.mem_cons_self, ih r (List.mem_cons_of_mem _ List.mem_cons_self)]
    | call pos name args =>
      have hargs : areConstant (args.map unplaced) = areConstant args := by
        rw [Bool.eq_iff_iff, areConstant_iff, areConstant_iff, List.forall_mem_map]
        exact forall₂_congr fun a ha => by rw [ih a ha]
      rw [unplaced, isConstant, isConstant, hargs]
    | _ => rw [unplaced, isConstant, isConstant]

private theorem isConstant_of_unplaced_eq {f f' : Formula} (h : f'.unplaced = f.unplaced) :
    f'.isConstant = f.isConstant := by
  rw [← isConstant_unplaced f', h, isConstant_unplaced f]

/-- Arguments that are the same apart from places stand beside the same values. -/
theorem exists_mem_zip_of_unplaced_eq {α : Type} {args args' : List Formula} {values : List α}
    (h : args'.map unplaced = args.map unplaced) {x : Formula × α} (hx : x ∈ args'.zip values) :
    ∃ a, (a, x.2) ∈ args.zip values ∧ x.1.unplaced = a.unplaced := by
  induction args' generalizing args values with
  | nil => cases hx
  | cons a' args' ih =>
    obtain ⟨a, args, rfl, ha, hargs⟩ := List.map_eq_cons_iff.1 h.symm
    cases values with
    | nil => cases hx
    | cons v values =>
      rcases List.mem_cons.1 hx with rfl | hx
      · exact ⟨a, List.mem_cons_self, ha.symm⟩
      · obtain ⟨b, hb, hunplaced⟩ := ih hargs.symm hx
        exact ⟨b, List.mem_cons_of_mem _ hb, hunplaced⟩

end Formula

namespace Scope

/-- The plan of a formula does not depend on the places of its nodes. -/
theorem Plans.of_unplaced_eq {s : Scope} {f f' : Formula} {p : Plan} (h : Plans s f p)
    (hf : f'.unplaced = f.unplaced) : Plans s f' p := by
  induction h generalizing f' with
  | number s pos n =>
    cases f' with
    | number pos' n' =>
      simp only [Formula.unplaced, Formula.number.injEq, true_and] at hf
      rw [hf]
      exact .number s pos' n
    | _ => simp [Formula.unplaced] at hf
  | string s pos text =>
    rw [Formula.unplaced] at hf
    obtain ⟨pos', rfl⟩ := Formula.exists_of_unplaced_eq_string hf
    exact .string s pos' text
  | boolean s pos b =>
    cases f' with
    | boolean pos' b' =>
      simp only [Formula.unplaced, Formula.boolean.injEq, true_and] at hf
      rw [hf]
      exact .boolean s pos' b
    | _ => simp [Formula.unplaced] at hf
  | null s pos =>
    cases f' with
    | null pos' => exact .null s pos'
    | _ => simp [Formula.unplaced] at hf
  | date s pos text =>
    cases f' with
    | date pos' text' =>
      simp only [Formula.unplaced, Formula.date.injEq, true_and] at hf
      rw [hf]
      exact .date s pos' text
    | _ => simp [Formula.unplaced] at hf
  | column pos h =>
    cases f' with
    | column pos' name' =>
      simp only [Formula.unplaced, Formula.column.injEq, true_and] at hf
      rw [hf]
      exact .column pos' h
    | _ => simp [Formula.unplaced] at hf
  | related pos hc h =>
    cases f' with
    | related pos' chain' field' =>
      simp only [Formula.unplaced, Formula.related.injEq, true_and] at hf
      rw [hf.1, hf.2]
      exact .related pos' hc h
    | _ => simp [Formula.unplaced] at hf
  | negate pos _ h ih =>
    cases f' with
    | negate pos' e' =>
      simp only [Formula.unplaced, Formula.negate.injEq, true_and] at hf
      exact .negate pos' (ih hf) h
    | _ => simp [Formula.unplaced] at hf
  | binary pos _ _ h ihl ihr =>
    cases f' with
    | binary pos' op' l' r' =>
      simp only [Formula.unplaced, Formula.binary.injEq, true_and] at hf
      obtain ⟨rfl, hl, hr⟩ := hf
      exact .binary pos' (ihl hl) (ihr hr) h
    | _ => simp [Formula.unplaced] at hf
  | @call s pos name sig args plans type hs hn hfn hd ha hl _ htypes h ih =>
    cases f' with
    | call pos' name' args' =>
      simp only [Formula.unplaced, Formula.call.injEq, true_and] at hf
      obtain ⟨rfl, hargs⟩ := hf
      have hlength : args'.length = args.length := by simpa using congrArg List.length hargs
      refine .call pos' hs hn hfn hd (hlength ▸ ha) (hlength ▸ hl) ?_ htypes h
      rintro x hx
      obtain ⟨a, hmem, hunplaced⟩ := Formula.exists_mem_zip_of_unplaced_eq hargs hx
      exact ih (a, x.2) hmem hunplaced
    | _ => simp [Formula.unplaced] at hf
  | @dateDifference s pos unitPos name text sig start finish p q hs hn hd ha _ _ htypes hunit ihp ihq =>
    cases f' with
    | call pos' name' args' =>
      simp only [Formula.unplaced, Formula.call.injEq, true_and] at hf
      obtain ⟨rfl, hargs⟩ := hf
      obtain ⟨start', rest, rfl, hstart, hrest⟩ := List.map_eq_cons_iff.1 hargs
      obtain ⟨finish', rest', rfl, hfinish, hrest'⟩ := List.map_eq_cons_iff.1 hrest
      obtain ⟨unit', rfl, hunit'⟩ := List.map_eq_singleton_iff.1 hrest'
      rw [Formula.unplaced] at hunit'
      obtain ⟨unitPos', rfl⟩ := Formula.exists_of_unplaced_eq_string hunit'
      exact .dateDifference pos' unitPos' hs hn hd ha (ihp hstart) (ihq hfinish) htypes hunit
    | _ => simp [Formula.unplaced] at hf
  | @aggregate s pos pathPos name f segments value more d inner delimiter hn hm hdepth hpath htarget _ h hcount hl
      hconstant _ htext ihv ihm =>
    cases f' with
    | call pos' name' args' =>
      simp only [Formula.unplaced, Formula.call.injEq, true_and] at hf
      obtain ⟨rfl, hargs⟩ := hf
      obtain ⟨path', rest, rfl, hpath', hrest⟩ := List.map_eq_cons_iff.1 hargs
      obtain ⟨value', more', rfl, hvalue, hmore⟩ := List.map_eq_cons_iff.1 hrest
      obtain ⟨pathPos', rfl⟩ : ∃ pathPos', path' = .path pathPos' segments := by
        cases path' with
        | path pathPos' segments' =>
          simp only [Formula.unplaced, Formula.path.injEq, true_and] at hpath'
          exact ⟨pathPos', by rw [hpath']⟩
        | _ => simp [Formula.unplaced] at hpath'
      have hlength : more'.length = more.length := by simpa using congrArg List.length hmore
      refine .aggregate pos' pathPos' hn hm hdepth hpath htarget (ihv hvalue) h (hlength.trans hcount)
        (hlength.trans hl)
        ?_ ?_ htext
      · intro c hc
        have hmem : c.unplaced ∈ more'.map Formula.unplaced := List.mem_map_of_mem hc
        rw [hmore] at hmem
        obtain ⟨c', hc', hunplaced⟩ := List.mem_map.1 hmem
        rw [Formula.isConstant_of_unplaced_eq hunplaced.symm]
        exact hconstant c' hc'
      · intro x hx
        obtain ⟨a, hmem, hunplaced⟩ := Formula.exists_mem_zip_of_unplaced_eq hmore hx
        exact ihm (a, x.2) hmem hunplaced
    | _ => simp [Formula.unplaced] at hf

end Scope

/-! ### Composing -/

namespace Derives

variable {p : Phrase} {ts : List Token} {e : Formula}

/-- An operand is a phrase without operators. -/
theorem of_operand {q : Phrase} (hq : p.operand? = some q) (h : Derives q ts e) : Derives p ts e := by
  have hchain : Derives p (ts ++ (([] : List Operation).map (·.toPart)).flatMap Part.all) e :=
    .chain hq h (List.forall_mem_nil _) (List.forall_mem_nil _)
  rwa [List.map_nil, List.flatMap_nil, List.append_nil] at hchain

private theorem of_factor (p : Phrase) (h : Derives .factor ts e) : Derives p ts e := by
  cases p with
  | factor => exact h
  | multiplicative => exact of_operand rfl h
  | additive => exact of_operand rfl (of_operand (p := .multiplicative) rfl h)
  | comparison => exact of_operand rfl (of_operand (p := .additive) rfl (of_operand (p := .multiplicative) rfl h))

theorem to_comparison (h : Derives p ts e) : Derives .comparison ts e := by
  cases p with
  | factor => exact of_factor .comparison h
  | multiplicative => exact of_operand rfl (of_operand (p := .additive) rfl h)
  | additive => exact of_operand rfl h
  | comparison => exact h

/-- Two operands with an operator between them. -/
theorem of_operation {q : Phrase} {s : Symbol} {op : BinaryOperator} {us : List Token} {l r : Formula}
    (hq : p.operand? = some q) (hl : Derives q ts l) (hop : (s, op) ∈ p.operators) (hr : Derives q us r)
    (pos : Position) : Derives p (ts ++ ⟨.symbol s, pos⟩ :: us) (.binary l.pos op l r) := by
  have hchain : Derives p (ts ++ (([⟨⟨s, pos, us, r⟩, op⟩] : List Operation).map (·.toPart)).flatMap Part.all)
      (([⟨⟨s, pos, us, r⟩, op⟩] : List Operation).foldl Operation.apply l) :=
    .chain hq hl (List.forall_mem_singleton.2 hop) (List.forall_mem_singleton.2 hr)
  rwa [List.map_singleton, List.flatMap_singleton] at hchain

/-- Two factors with an operator between them. -/
theorem of_factors {s : Symbol} {op : BinaryOperator} (hs : BinaryOperator.ofSymbol? s = some op) {us : List Token}
    {l r : Formula} (hl : Derives .factor ts l) (hr : Derives .factor us r) (pos : Position) :
    Derives .comparison (ts ++ ⟨.symbol s, pos⟩ :: us) (.binary l.pos op l r) := by
  obtain ⟨p, hp⟩ : ∃ p : Phrase, op.precedence = p.level := by
    cases op
    case multiply | divide => exact ⟨.multiplicative, rfl⟩
    case add | subtract | concat => exact ⟨.additive, rfl⟩
    all_goals exact ⟨.comparison, rfl⟩
  have hop : (s, op) ∈ p.operators := Phrase.mem_operators.2 ⟨hs, hp⟩
  obtain ⟨q, hq⟩ : ∃ q, p.operand? = some q := by
    cases p with
    | factor => cases hop
    | _ => exact ⟨_, rfl⟩
  exact (of_operation hq (of_factor q hl) hop (of_factor q hr) pos).to_comparison

/-- Two formulas in parentheses with an operator between them. -/
theorem binary {s : Symbol} {op : BinaryOperator} (hs : BinaryOperator.ofSymbol? s = some op) {us : List Token}
    {l r : Formula} (hl : Derives .comparison ts l) (hr : Derives .comparison us r)
    (opening closing pos opening' closing' : Position) :
    Derives .comparison (⟨.symbol .leftParen, opening⟩ :: (ts ++ ⟨.symbol .rightParen, closing⟩ :: ⟨.symbol s, pos⟩ ::
      ⟨.symbol .leftParen, opening'⟩ :: (us ++ [⟨.symbol .rightParen, closing'⟩]))) (.binary l.pos op l r) := by
  have hwhole := of_factors hs (.group opening closing hl) (.group opening' closing' hr) pos
  rwa [List.cons_append, List.append_assoc, List.singleton_append] at hwhole

end Derives

/-- Whether operators follow each other is seen from the kinds of tokens. -/
theorem noOperatorPairs_iff {ts : List Token} :
    NoOperatorPairs ts ↔ (ts.map (·.kind)).IsChain fun a b => ¬(a.isOperator = true ∧ b.isOperator = true) := by
  rw [List.isChain_map]
  rfl

/-- A text spells a formula if it can be cut into tokens that derive it. -/
theorem Formula.parse_eq_ok_iff_lexes {text : String} {f : Formula} :
    Formula.parse text = .ok f ↔ Derives .comparison (Run.ofString text).tokens f ∧
      NoOperatorPairs (Run.ofString text).tokens ∧ (Run.ofString text).ending.error? = none := by
  rw [Formula.parse_eq_ok_iff, Parser.operand_iff_derives]

/-- The text of two formulas in parentheses with an operator between them. -/
def composedText (f : String) (s : Symbol) (g : String) : String := "(" ++ f ++ "\n) " ++ s.text ++ " (" ++ g ++ "\n)"

/-- What composed texts are cut into. -/
theorem lexes_composedText {f g : String} {s : Symbol} (hf : (Run.ofString f).ending.error? = none)
    (hg : (Run.ofString g).ending.error? = none) :
    Lexes (composedText f s g).toList (.symbol .leftParen :: ((Run.ofString f).tokens.map (·.kind) ++
      .symbol .rightParen :: .symbol s :: .symbol .leftParen ::
        ((Run.ofString g).tokens.map (·.kind) ++ [.symbol .rightParen]))) := by
  have htext : (composedText f s g).toList = Symbol.leftParen.text.toList ++ (f.toList ++ '\n' ::
      (Symbol.rightParen.text.toList ++ ' ' :: (s.text.toList ++ ' ' :: (Symbol.leftParen.text.toList ++
        (g.toList ++ '\n' :: (Symbol.rightParen.text.toList ++ [])))))) := by
    simp [composedText, Symbol.text]
  rw [htext]
  have hend : Lexes (Symbol.rightParen.text.toList ++ []) [.symbol .rightParen] :=
    lexes_nil.cons_symbol (by rintro ⟨⟩)
  have hright := (lexes_append_newline (c := .ofString g) hg hend).cons_symbol (s := .leftParen) (by rintro ⟨⟩)
  have hop := hright.cons_space.cons_symbol (s := s) (fun _ => ⟨_, rfl⟩)
  have hclosing := hop.cons_space.cons_symbol (s := .rightParen) (by rintro ⟨⟩)
  exact (lexes_append_newline (c := .ofString f) hf hclosing).cons_symbol (by rintro ⟨⟩)

/-- No operators come together in composed texts. -/
private theorem isChain_composed {ks ks' : List Token.Kind} {s : Symbol}
    (h : ks.IsChain fun a b => ¬(a.isOperator = true ∧ b.isOperator = true))
    (h' : ks'.IsChain fun a b => ¬(a.isOperator = true ∧ b.isOperator = true)) :
    (Token.Kind.symbol .leftParen :: (ks ++ .symbol .rightParen :: .symbol s :: .symbol .leftParen ::
      (ks' ++ [.symbol .rightParen]))).IsChain fun a b => ¬(a.isOperator = true ∧ b.isOperator = true) := by
  have hopening : Token.Kind.isOperator (.symbol .leftParen) = false := rfl
  have hclosing : Token.Kind.isOperator (.symbol .rightParen) = false := rfl
  simpa [List.isChain_cons, List.isChain_append, hopening, hclosing] using And.intro h h'

/-- The parse of a composed text is the operation on the parses of its parts, apart from places. -/
theorem Formula.exists_parse_composedText {f g : String} {l r : Formula} {s : Symbol} {op : BinaryOperator}
    (hf : Formula.parse f = .ok l) (hg : Formula.parse g = .ok r) (hs : BinaryOperator.ofSymbol? s = some op) :
    ∃ pos l' r', Formula.parse (composedText f s g) = .ok (.binary pos op l' r') ∧ l'.unplaced = l.unplaced ∧
      r'.unplaced = r.unplaced := by
  obtain ⟨hl, hpairs, hending⟩ := Formula.parse_eq_ok_iff_lexes.1 hf
  obtain ⟨hr, hpairs', hending'⟩ := Formula.parse_eq_ok_iff_lexes.1 hg
  obtain ⟨hkinds, hclosed⟩ : (Run.ofString (composedText f s g)).tokens.map (·.kind) = _ ∧
      (Run.ofString (composedText f s g)).ending.error? = none := lexes_composedText hending hending' .start
  have hchain : NoOperatorPairs (Run.ofString (composedText f s g)).tokens := by
    rw [noOperatorPairs_iff, hkinds]
    exact isChain_composed (noOperatorPairs_iff.1 hpairs) (noOperatorPairs_iff.1 hpairs')
  generalize hts : (Run.ofString (composedText f s g)).tokens = ts at hkinds hchain
  obtain ⟨⟨k₁, opening⟩, rest, rfl, hk₁, hrest⟩ := List.map_eq_cons_iff.1 hkinds
  obtain ⟨us, rest, rfl, hus, hrest⟩ := List.map_eq_append_iff.1 hrest
  obtain ⟨⟨k₂, closing⟩, rest, rfl, hk₂, hrest⟩ := List.map_eq_cons_iff.1 hrest
  obtain ⟨⟨k₃, pos⟩, rest, rfl, hk₃, hrest⟩ := List.map_eq_cons_iff.1 hrest
  obtain ⟨⟨k₄, opening'⟩, rest, rfl, hk₄, hrest⟩ := List.map_eq_cons_iff.1 hrest
  obtain ⟨vs, rest, rfl, hvs, hrest⟩ := List.map_eq_append_iff.1 hrest
  obtain ⟨⟨k₅, closing'⟩, rfl, hk₅⟩ := List.map_eq_singleton_iff.1 hrest
  dsimp only at hk₁ hk₂ hk₃ hk₄ hk₅
  subst hk₁ hk₂ hk₃ hk₄ hk₅
  obtain ⟨l', hl', hunplaced⟩ := hl.movable us hus
  obtain ⟨r', hr', hunplaced'⟩ := hr.movable vs hvs
  refine ⟨l'.pos, l', r', Formula.parse_eq_ok_iff_lexes.2 ⟨?_, ?_, hclosed⟩, hunplaced, hunplaced'⟩
  · rw [hts]
    exact .binary hs hl' hr' opening closing pos opening' closing'
  · rw [hts]
    exact hchain

/-! ### Plans of composed texts -/

/-- A map that has the entries of two others and no more. -/
def KeyMap.IsUnion {α : Type} (m a b : KeyMap α) : Prop :=
  ∀ key value, m.find? key = some value ↔ a.find? key = some value ∨ b.find? key = some value

/-- Entries of a map that collects those of two others. -/
theorem KeyMap.isUnion_of_mem_values {α : Type} {id : α → String} {m a b : KeyMap α} (hm : m.Keyed id)
    (ha : a.Keyed id) (hb : b.Keyed id) (h : ∀ x, x ∈ m.values ↔ x ∈ a.values ∨ x ∈ b.values) : m.IsUnion a b := by
  intro key value
  rw [hm.find?_eq_some_iff, ha.find?_eq_some_iff, hb.find?_eq_some_iff, h, or_and_right]

/-- The plan of a composed text is the one of the operation. -/
private theorem ofFormula_composedText_iff {schema : Table} {maxDepth : Nat} {f g : String} {p q r : Plan}
    {s : Symbol}
    {op : BinaryOperator} (hp : Plan.ofFormula f schema maxDepth = .ok p)
    (hq : Plan.ofFormula g schema maxDepth = .ok q) (hs : BinaryOperator.ofSymbol? s = some op) :
    Plan.ofFormula (composedText f s g) schema maxDepth = .ok r ↔
      ∃ type, op.resultType? p.expression.type q.expression.type = some type ∧
        r = .combine (.binary ((schema.scope maxDepth).info "binary" op.symbol type [] [p.expression, q.expression])
          op p.expression q.expression) [p, q] := by
  obtain ⟨l, hf, hl⟩ := Plan.ofFormula_eq_ok_iff.1 hp
  obtain ⟨k, hg, hk⟩ := Plan.ofFormula_eq_ok_iff.1 hq
  obtain ⟨pos, l', k', hparse, hunplaced, hunplaced'⟩ := Formula.exists_parse_composedText hf hg hs
  have hl' := hl.of_unplaced_eq hunplaced
  have hk' := hk.of_unplaced_eq hunplaced'
  rw [Plan.ofFormula_eq_ok_iff]
  constructor
  · rintro ⟨e, he, hplans⟩
    rw [hparse] at he
    cases he
    cases hplans with
    | @binary _ _ _ _ _ p' q' type hp' hq' htype =>
      rw [hp'.unique hl', hq'.unique hk'] at htype ⊢
      exact ⟨type, htype, rfl⟩
  · rintro ⟨type, htype, rfl⟩
    exact ⟨_, hparse, .binary pos hl' hk' htype⟩

/-- Composing formulas by their texts composes their plans. The composed text has a plan exactly if the operator has
a result for the types of its parts; its plan is then the operator on their expressions, and reads all that they
read. -/
theorem Plan.ofFormula_compose {schema : Table} {maxDepth : Nat} {f g : String} {p q : Plan} {s : Symbol}
    {op : BinaryOperator} (hp : Plan.ofFormula f schema maxDepth = .ok p)
    (hq : Plan.ofFormula g schema maxDepth = .ok q) (hs : BinaryOperator.ofSymbol? s = some op) :
    ((∃ r, Plan.ofFormula (composedText f s g) schema maxDepth = .ok r) ↔
        ∃ type, op.resultType? p.expression.type q.expression.type = some type) ∧
      ∀ r, Plan.ofFormula (composedText f s g) schema maxDepth = .ok r →
        (∃ info, r.expression = .binary info op p.expression q.expression ∧
          op.resultType? p.expression.type q.expression.type = some info.type) ∧
        r.joins.IsUnion p.joins q.joins ∧ r.aggregates.IsUnion p.aggregates q.aggregates := by
  constructor
  · constructor
    · rintro ⟨r, hr⟩
      obtain ⟨type, htype, -⟩ := (ofFormula_composedText_iff hp hq hs).1 hr
      exact ⟨type, htype⟩
    · rintro ⟨type, htype⟩
      exact ⟨_, (ofFormula_composedText_iff hp hq hs).2 ⟨type, htype, rfl⟩⟩
  · intro r hr
    obtain ⟨type, htype, rfl⟩ := (ofFormula_composedText_iff hp hq hs).1 hr
    have hp := Plan.compiled_of_ofFormula hp
    have hq := Plan.compiled_of_ofFormula hq
    have hall : ∀ t ∈ [p, q], (schema.scope maxDepth).Compiled t := by simpa using And.intro hp hq
    refine ⟨⟨_, rfl, htype⟩, ?_, ?_⟩
    · obtain ⟨hclosed, hmem⟩ := JoinsClosed.combine _ fun t ht => (hall t ht).joinsClosed
      refine KeyMap.isUnion_of_mem_values hclosed.toKeyed hp.joinsClosed.toKeyed hq.joinsClosed.toKeyed fun j => ?_
      simpa using hmem j
    · obtain ⟨hcollects, hmem⟩ := Scope.collects_combine _ fun t ht => (hall t ht).collects
      refine KeyMap.isUnion_of_mem_values hcollects.toKeyed hp.collects.toKeyed hq.collects.toKeyed fun a => ?_
      simpa using hmem a

/-- Comments that run to the end of the parts do not take in what follows. -/
theorem Plan.ofFormula_compose_commented :
    ∃ p q, Plan.ofFormula "rep_rel.region_rel.quota // due" .tangled 3 = .ok p ∧
      Plan.ofFormula "SUM_AGG(orders.lines, amount) /* paid */ //" .tangled 3 = .ok q ∧
      (p.expression.type = .number ∧ p.joins.size = 2) ∧ (q.expression.type = .number ∧ q.aggregates.size = 1) ∧
      ∃ r, Plan.ofFormula "(rep_rel.region_rel.quota // due\n) <> (SUM_AGG(orders.lines, amount) /* paid */ //\n)"
          .tangled 3 = .ok r ∧
        (∃ info, r.expression = .binary info .notEqual p.expression q.expression ∧
          BinaryOperator.notEqual.resultType? p.expression.type q.expression.type = some info.type) ∧
        r.joins.IsUnion p.joins q.joins ∧ r.aggregates.IsUnion p.aggregates q.aggregates := by
  obtain ⟨p, hp, htypes⟩ := exists_ofFormula_of_check "rep_rel.region_rel.quota // due" .tangled 3
    (fun p => p.expression.type = .number ∧ p.joins.size = 2) (by decide +kernel)
  obtain ⟨q, hq, htypes'⟩ := exists_ofFormula_of_check "SUM_AGG(orders.lines, amount) /* paid */ //" .tangled 3
    (fun q => q.expression.type = .number ∧ q.aggregates.size = 1) (by decide +kernel)
  have htext : composedText "rep_rel.region_rel.quota // due" .lessGreater
      "SUM_AGG(orders.lines, amount) /* paid */ //" =
      "(rep_rel.region_rel.quota // due\n) <> (SUM_AGG(orders.lines, amount) /* paid */ //\n)" := by decide +kernel
  obtain ⟨hiff, hall⟩ := Plan.ofFormula_compose (s := .lessGreater) hp hq rfl
  obtain ⟨r, hr⟩ := hiff.2 ⟨.boolean, by rw [htypes.1, htypes'.1]; rfl⟩
  exact ⟨p, q, hp, hq, htypes, htypes', r, htext ▸ hr, hall r hr⟩

end FormulaQuery
