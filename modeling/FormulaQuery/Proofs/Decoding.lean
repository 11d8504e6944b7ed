import FormulaQuery.Proofs.Compiled
import FormulaQuery.Proofs.NumberText
import FormulaQuery.Proofs.Quotation
import Mathlib.Data.List.Nodup

/-!
# Decoding identifiers

The plans of one scope are known by the identifiers of their expressions (`Scope.Compiled.discerned`). An identifier
is read from the left: its kind and its details tell how many parts to expect in which scope, each part is read in
the same way, and the context at the end is that of the scope. It may hold any text, and need not be read.
-/

namespace FormulaQuery

/-! ### Kinds, details and parts -/

/-- Identifiers of different kinds are different, whatever follows. -/
private theorem kind_eq_of_append_eq {kind kind' details details' : String} {parts parts' : List String}
    {context : Context} {u v : List Char} (hk : Ascii.IsName kind) (hk' : Ascii.IsName kind')
    (e : (semanticId kind details parts context).toList ++ u =
      (semanticId kind' details' parts' context).toList ++ v) :
    kind = kind' := by
  have shape : ∀ (k d : String) (ps : List String) (w : List Char), ∃ c rest,
      (c = ':' ∨ c = '[' ∨ c = '@') ∧ (semanticId k d ps context).toList ++ w = k.toList ++ c :: rest := by
    intro k d ps w
    by_cases hd : d.isEmpty = true
    · by_cases hp : ps.isEmpty = true
      · exact ⟨'@', context.text.toList ++ w, by simp, by simp [semanticId, hd, hp]⟩
      · exact ⟨'[', (",".intercalate ps).toList ++ ']' :: '@' :: (context.text.toList ++ w), by simp,
          by simp [semanticId, hd, hp]⟩
    · refine ⟨':', d.toList ++ (if ps.isEmpty then "" else "[" ++ ",".intercalate ps ++ "]").toList
        ++ '@' :: (context.text.toList ++ w), by simp, ?_⟩
      simp [semanticId, hd]
  have stop : ∀ k, Ascii.IsName k → ∀ c ∈ k.toList, ¬(c = ':' ∨ c = '[' ∨ c = '@') := by
    rintro k hk c hc (rfl | rfl | rfl)
    · exact ne_of_isWordPart (hk _ hc) (by decide) rfl
    · exact ne_of_isWordPart (hk _ hc) (by decide) rfl
    · exact ne_of_isWordPart (hk _ hc) (by decide) rfl
  obtain ⟨c, rest, hc, h⟩ := shape kind details parts u
  obtain ⟨c', rest', hc', h'⟩ := shape kind' details' parts' v
  rw [h, h'] at e
  exact String.toList_inj.1 (append_stop_inj _ (stop kind hk) (stop kind' hk') hc hc' e).1

/-- Details that end where the parts or the context begin. -/
structure IsDetails (details : String) : Prop where
  ne_nil : details.toList ≠ []
  not_stop : ∀ c ∈ details.toList, ¬(c = '[' ∨ c = '@')

private theorem not_stop_of_isWordPart {c : Char} (h : Ascii.isWordPart c = true) : ¬(c = '[' ∨ c = '@') := by
  rintro (rfl | rfl)
  · exact ne_of_isWordPart h (by decide) rfl
  · exact ne_of_isWordPart h (by decide) rfl

private theorem isDetails_of_isName {s : String} (hne : s.toList ≠ []) (h : Ascii.IsName s) : IsDetails s :=
  ⟨hne, fun c hc => not_stop_of_isWordPart (h c hc)⟩

private theorem isDetails_of_not_mem {s : String} (hne : s.toList ≠ []) (h : '[' ∉ s.toList) (h' : '@' ∉ s.toList) :
    IsDetails s := by
  refine ⟨hne, ?_⟩
  rintro c hc (rfl | rfl)
  · exact h hc
  · exact h' hc

private theorem isDetails_of_dotted {names : List String} (hne : (".".intercalate names).toList ≠ [])
    (h : ∀ n ∈ names, Ascii.IsName n) : IsDetails (".".intercalate names) := by
  refine ⟨hne, fun c hc => ?_⟩
  rcases mem_dotted h hc with rfl | hc
  · decide
  · exact not_stop_of_isWordPart hc

/-- Reading an identifier of known kind up to the end of its details. -/
private theorem details_eq_of_append_eq {kind details details' : String} {parts parts' : List String}
    {context : Context} {u v : List Char} (hd : IsDetails details) (hd' : IsDetails details')
    (e : (semanticId kind details parts context).toList ++ u =
      (semanticId kind details' parts' context).toList ++ v) :
    details = details' ∧
      partsText parts ++ '@' :: (context.text.toList ++ u) =
        partsText parts' ++ '@' :: (context.text.toList ++ v) := by
  rw [toList_semanticId hd.ne_nil, toList_semanticId hd'.ne_nil] at e
  simp only [List.append_assoc, List.cons_append] at e
  have htail := (List.cons.inj (List.append_cancel_left e)).2
  have stop : ∀ (ps : List String) (w : List Char), ∃ c rest,
      (c = '[' ∨ c = '@') ∧ partsText ps ++ '@' :: (context.text.toList ++ w) = c :: rest := by
    intro ps w
    cases ps with
    | nil => exact ⟨'@', context.text.toList ++ w, Or.inr rfl, rfl⟩
    | cons p ps => exact ⟨'[', _, Or.inl rfl, List.cons_append⟩
  obtain ⟨c, rest, hc, h⟩ := stop parts u
  obtain ⟨c', rest', hc', h'⟩ := stop parts' v
  rw [h, h'] at htail ⊢
  obtain ⟨hdetails, rfl, rfl⟩ := append_stop_inj _ hd.not_stop hd'.not_stop hc hc' htail
  exact ⟨String.toList_inj.1 hdetails, rfl⟩

/-- Reading an identifier of known kind that has no parts. -/
private theorem leaf_append_inj {kind details details' : String} {context : Context} {u v : List Char}
    (hd : IsDetails details) (hd' : IsDetails details')
    (e : (semanticId kind details [] context).toList ++ u = (semanticId kind details' [] context).toList ++ v) :
    details = details' ∧ u = v := by
  obtain ⟨hdetails, hrest⟩ := details_eq_of_append_eq hd hd' e
  exact ⟨hdetails, List.append_cancel_left (List.cons.inj hrest).2⟩

/-- The identifier of a text is read up to the quote that ends the text, whatever the text holds. -/
private theorem quoted_append_inj {kind text text' : String} {context : Context} {u v : List Char}
    (e : (semanticId kind (Escaped.quoted text) [] context).toList ++ u =
      (semanticId kind (Escaped.quoted text') [] context).toList ++ v) : text = text' ∧ u = v := by
  rw [toList_semanticId (Escaped.quoted_toList_ne_nil _), toList_semanticId (Escaped.quoted_toList_ne_nil _)] at e
  simp only [List.append_assoc, List.cons_append] at e
  obtain ⟨htext, hrest⟩ := Escaped.quoted_append_inj (List.cons.inj (List.append_cancel_left e)).2
  exact ⟨htext, List.append_cancel_left (List.cons.inj hrest).2⟩

section Parts

variable {α : Type} (f : α → String)

private theorem intercalate_append_inj {a b : α} {as bs : List α} {u v : List Char}
    (h : ∀ x y, (x, y) ∈ (a :: as).zip (b :: bs) → ∀ u v, (f x).toList ++ u = (f y).toList ++ v → x = y ∧ u = v)
    (e : [','].intercalate (((a :: as).map f).map String.toList) ++ ']' :: u =
      [','].intercalate (((b :: bs).map f).map String.toList) ++ ']' :: v) : a :: as = b :: bs ∧ u = v := by
  -- the first parts are read off; a comma or a bracket then tells whether there are more
  induction as generalizing a b bs with
  | nil =>
    cases bs with
    | nil =>
      simp only [List.map_cons, List.map_nil, List.intercalate_singleton] at e
      obtain ⟨rfl, hrest⟩ := h a b List.mem_cons_self _ _ e
      exact ⟨rfl, (List.cons.inj hrest).2⟩
    | cons b' bs =>
      simp only [List.map_cons, List.map_nil, List.intercalate_singleton, List.intercalate_cons_cons,
        List.append_assoc] at e
      obtain ⟨-, hrest⟩ := h a b List.mem_cons_self _ _ e
      exact absurd (List.cons.inj hrest).1 (by decide)
  | cons a' as ih =>
    cases bs with
    | nil =>
      simp only [List.map_cons, List.map_nil, List.intercalate_singleton, List.intercalate_cons_cons,
        List.append_assoc] at e
      obtain ⟨-, hrest⟩ := h a b List.mem_cons_self _ _ e
      exact absurd (List.cons.inj hrest).1 (by decide)
    | cons b' bs =>
      simp only [List.map_cons, List.intercalate_cons_cons, List.append_assoc] at e
      obtain ⟨rfl, hrest⟩ := h a b List.mem_cons_self _ _ e
      obtain ⟨htail, hrest⟩ := ih (fun x y hxy => h x y (List.mem_cons_of_mem _ hxy)) (List.cons.inj hrest).2
      exact ⟨by rw [htail], hrest⟩

/-- Parts that are known by their texts are known by the text of all. -/
private theorem partsText_append_inj {as bs : List α} {u v : List Char}
    (h : ∀ x y, (x, y) ∈ as.zip bs → ∀ u v, (f x).toList ++ u = (f y).toList ++ v → x = y ∧ u = v)
    (e : partsText (as.map f) ++ '@' :: u = partsText (bs.map f) ++ '@' :: v) : as = bs ∧ u = v := by
  cases as with
  | nil =>
    cases bs with
    | nil => exact ⟨rfl, (List.cons.inj e).2⟩
    | cons b bs => exact absurd (List.cons.inj e).1 (by decide)
  | cons a as =>
    cases bs with
    | nil => exact absurd (List.cons.inj e).1 (by decide)
    | cons b bs =>
      simp only [List.map_cons, partsText, List.cons_append, List.append_assoc, List.nil_append] at e
      obtain ⟨heq, hrest⟩ := intercalate_append_inj f h (List.cons.inj e).2
      exact ⟨heq, (List.cons.inj hrest).2⟩

end Parts

/-! ### Plans that identifiers tell apart -/

/-- The kinds of expressions. -/
inductive Expression.Kind where
  | number | string | boolean | null | date | column | related | negate | binary | call | aggregate

/-- The word that identifiers of a kind begin with. -/
def Expression.Kind.word : Expression.Kind → String
  | number => "number"
  | string => "string"
  | boolean => "boolean"
  | null => "null"
  | date => "date"
  | column => "column"
  | related => "relationship"
  | negate => "unary"
  | binary => "binary"
  | call => "function"
  | aggregate => "aggregate"

private theorem Expression.Kind.isName_word (k : Expression.Kind) : Ascii.IsName k.word := by
  cases k <;> decide

private theorem Expression.Kind.word_inj {k k' : Expression.Kind} (h : k.word = k'.word) : k = k' := by
  cases k <;> cases k' <;> first | rfl | exact absurd h (by decide)

def Expression.kind : Expression → Expression.Kind
  | number _ _ => .number
  | string _ _ => .string
  | boolean _ _ => .boolean
  | null _ => .null
  | date _ _ => .date
  | column _ _ => .column
  | related _ _ _ => .related
  | negate _ _ => .negate
  | binary _ _ _ _ => .binary
  | call _ _ _ => .call
  | aggregate _ _ => .aggregate

def Plan.id (p : Plan) : String := p.expression.info.id

/-- Two plans are equal if their identifiers begin alike, and then these are equal too. -/
def Plan.Discerned (p q : Plan) : Prop := ∀ u v, p.id.toList ++ u = q.id.toList ++ v → p = q ∧ u = v

namespace Scope

private theorem Compiled.exists_id_eq {s : Scope} {p : Plan} (h : Compiled s p) :
    ∃ details parts, p.id = semanticId p.expression.kind.word details parts s.context := by
  cases h <;> exact ⟨_, _, rfl⟩

private theorem kind_eq {s : Scope} {p q : Plan} (hp : Compiled s p) (hq : Compiled s q) {u v : List Char}
    (e : p.id.toList ++ u = q.id.toList ++ v) : p.expression.kind = q.expression.kind := by
  obtain ⟨d, ps, h⟩ := hp.exists_id_eq
  obtain ⟨d', ps', h'⟩ := hq.exists_id_eq
  rw [h, h'] at e
  exact Expression.Kind.word_inj
    (kind_eq_of_append_eq (Expression.Kind.isName_word _) (Expression.Kind.isName_word _) e)

/-! ### What parts of an identifier tell -/

/-- The type of a call depends on its arguments through their types alone. -/
private theorem callType_congr {sig : Signature} {pos pos' : Position} {args args' : List Formula}
    {types : List ValueType} {type : ValueType} (hl : args.length = args'.length)
    (h : callType sig pos args types = .ok type) : callType sig pos' args' types = .ok type := by
  have three : ∀ xs : List Formula, xs.length = 3 → ∃ x y z, xs = [x, y, z] := by
    intro xs hxs
    match xs, hxs with
    | [x, y, z], _ => exact ⟨x, y, z, rfl⟩
  unfold callType at h ⊢
  split at h
  · rename_i hname
    split at h
    · rename_i hc
      cases h
      obtain ⟨x, y, z, rfl⟩ := three _ hl.symm
      simp only [hname, hc, if_true]
    · cases h
  · rename_i hname
    cases h
    simp only [hname]
  · rename_i hname
    split at h
    · rename_i hc
      cases h
      simp only [hname, hc, if_true]
    · cases h
  · rename_i hshort hnull hlong
    split
    · rename_i hname
      obtain ⟨x, y, z, hargs⟩ := three _ hl
      exact absurd rfl (hlong x y z _ _ _ hname hargs)
    · rename_i hname
      exact absurd rfl (hshort _ _ hname)
    · rename_i hname
      exact absurd rfl (hnull _ _ hname)
    · exact h

private theorem isDetails_signature {sig : Signature} (h : sig ∈ Signature.catalog) : IsDetails sig.name := by
  have : ∀ t ∈ Signature.catalog, t.name.toList ≠ [] ∧ Ascii.IsName t.name := by decide +kernel
  exact isDetails_of_isName (this sig h).1 (this sig h).2

private theorem signature_eq_of_name_eq {sig sig' : Signature} (h : sig ∈ Signature.catalog)
    (h' : sig' ∈ Signature.catalog) (e : sig.name = sig'.name) : sig = sig' := by
  have hnodup : (Signature.catalog.map Signature.name).Nodup := by decide +kernel
  exact List.inj_on_of_nodup_map hnodup h h' e

private theorem isDetails_symbol (op : BinaryOperator) : IsDetails op.symbol := by
  cases op <;> exact isDetails_of_not_mem (by decide) (by decide) (by decide)

private theorem symbol_inj {op op' : BinaryOperator} (h : op.symbol = op'.symbol) : op = op' := by
  cases op <;> cases op' <;> first | rfl | exact absurd h (by decide)

private theorem isDetails_boolean (value : Bool) : IsDetails (if value then "TRUE" else "FALSE") := by
  cases value
  · exact isDetails_of_isName (by decide) (by decide)
  · exact isDetails_of_isName (by decide) (by decide)

private theorem booleanText_inj :
    ∀ value value' : Bool, (if value then "TRUE" else "FALSE") = (if value' then "TRUE" else "FALSE") →
      value = value' := by
  decide

private theorem isDetails_date {text : String} (h : Calendar.isDate text.toList = true) : IsDetails text := by
  have hne : text.toList ≠ [] := by
    intro hnil
    rw [hnil] at h
    cases h
  refine ⟨hne, fun c hc => ?_⟩
  rcases Calendar.mem_of_isDate h hc with hc | rfl
  · exact not_stop_of_isWordPart (Ascii.isWordPart_of_isDigit hc)
  · decide

private theorem isDetails_number (rank : Fin (infinityRank + 1)) :
    IsDetails (Binary64.text (.ranked false rank)) := by
  have h := Binary64.isNumberText rank
  refine ⟨h.ne_nil, fun c hc => ?_⟩
  rcases h.mem hc with hc | rfl
  · exact not_stop_of_isWordPart hc
  · decide

/-- A chain and a column are told apart by the last point. -/
private theorem related_details (init : List Hop) (last : Hop) (column : String) :
    ".".intercalate (Hop.names (init ++ [last])) ++ "." ++ column =
      ".".intercalate (Hop.names (init ++ [last]) ++ [column]) := by
  rw [String.intercalate_append_of_ne_nil (by simp [Hop.names]) (by simp), String.intercalate_singleton]

private theorem isDetails_related {s : Scope} {init : List Hop} {last : Hop} {column : String}
    (hr : Hop.Route Table.direct s.table (init ++ [last])) (hn : Ascii.IsName column) :
    (∀ n ∈ Hop.names (init ++ [last]) ++ [column], Ascii.IsName n) ∧
      IsDetails (".".intercalate (Hop.names (init ++ [last]) ++ [column])) := by
  have hnames : ∀ n ∈ Hop.names (init ++ [last]) ++ [column], Ascii.IsName n := by
    intro n hmem
    rcases List.mem_append.1 hmem with hmem | hmem
    · exact hr.isName n hmem
    · rw [List.mem_singleton.1 hmem]
      exact hn
  refine ⟨hnames, isDetails_of_dotted ?_ hnames⟩
  rw [← related_details]
  simp

/-- A column of a related table is known by its identifier. -/
private theorem related_append_inj {s : Scope} {init init' : List Hop} {last last' : Hop} {name name' : String}
    (hr : Hop.Route Table.direct s.table (init ++ [last])) (hr' : Hop.Route Table.direct s.table (init' ++ [last']))
    (hn : Ascii.IsName name) (hn' : Ascii.IsName name') {u v : List Char}
    (e : (semanticId "relationship" (".".intercalate (Hop.names (init ++ [last])) ++ "." ++ name) []
        s.context).toList ++ u =
      (semanticId "relationship" (".".intercalate (Hop.names (init' ++ [last'])) ++ "." ++ name') []
        s.context).toList ++ v) : (init = init' ∧ last = last' ∧ name = name') ∧ u = v := by
  rw [related_details, related_details] at e
  obtain ⟨hnames, hdetails⟩ := isDetails_related hr hn
  obtain ⟨hnames', hdetails'⟩ := isDetails_related hr' hn'
  obtain ⟨htext, hrest⟩ := leaf_append_inj hdetails hdetails' e
  obtain ⟨hchain, hcolumn⟩ := List.append_inj' (dotted_inj hnames hnames' (by simp) (by simp) htext) rfl
  obtain ⟨hinit, hlast⟩ := List.append_inj' (hr.eq_of_names_eq hr' hchain) rfl
  exact ⟨⟨hinit, (List.cons.inj hlast).1, (List.cons.inj hcolumn).1⟩, hrest⟩

theorem destination_names_ne_nil {s : Scope} {d : Destination} (h : s.IsDestination d) :
    Hop.names d.hops ≠ [] := by
  intro e
  have htarget := h.target
  rw [List.map_eq_nil_iff.1 e] at htarget
  cases htarget

/-- A destination is known by the names on the way. -/
theorem destination_eq {s : Scope} {d d' : Destination} (h : s.IsDestination d) (h' : s.IsDestination d')
    (e : ".".intercalate (Hop.names d.hops) = ".".intercalate (Hop.names d'.hops)) : d = d' := by
  have hnames := dotted_inj h.route.isName h'.route.isName (destination_names_ne_nil h)
    (destination_names_ne_nil h') e
  have hhops := h.route.eq_of_names_eq h'.route hnames
  have htarget := h.target
  have htarget' := h'.target
  obtain ⟨hops, target⟩ := d
  obtain ⟨hops', target'⟩ := d'
  dsimp only at *
  subst hhops
  rw [htarget] at htarget'
  cases htarget'
  rfl

private theorem isName_function (f : AggregateFunction) : Ascii.IsName f.name := by
  cases f <;> decide

private theorem isDetails_aggregate {s : Scope} {d : Destination} (f : AggregateFunction) (h : s.IsDestination d) :
    IsDetails (f.name ++ ":" ++ ".".intercalate (Hop.names d.hops)) := by
  refine ⟨by simp, fun c hc => ?_⟩
  rw [String.toList_append, String.toList_append] at hc
  rcases List.mem_append.1 hc with hc | hc
  · rcases List.mem_append.1 hc with hc | hc
    · exact not_stop_of_isWordPart (isName_function f c hc)
    · rw [List.mem_singleton.1 hc]
      decide
  · rcases mem_dotted h.route.isName hc with rfl | hc
    · decide
    · exact not_stop_of_isWordPart hc

private theorem aggregate_details_inj {f g : AggregateFunction} {relation relation' : String}
    (e : f.name ++ ":" ++ relation = g.name ++ ":" ++ relation') : f = g ∧ relation = relation' := by
  have colon : ∀ h : AggregateFunction, ∀ c ∈ h.name.toList, ¬c = ':' := fun h c hc =>
    ne_of_isWordPart (isName_function h c hc) (by decide)
  have hlist := congrArg String.toList e
  simp only [String.toList_append, List.append_assoc] at hlist
  obtain ⟨hname, -, hrest⟩ := append_stop_inj (· = ':') (colon f) (colon g) rfl rfl hlist
  refine ⟨?_, String.toList_inj.1 hrest⟩
  have hinv : ∀ h : AggregateFunction, AggregateFunction.ofName? h.name = some h := by
    intro h
    cases h <;> decide
  have hsome := hinv f
  rw [String.toList_inj.1 hname, hinv g] at hsome
  cases hsome
  rfl

private theorem aggregate_id (s : Scope) (f : AggregateFunction) (d : Destination) (inner : Plan)
    (delimiter : Option Plan) :
    (s.aggregate f d inner delimiter).id =
      semanticId "aggregate" (f.name ++ ":" ++ ".".intercalate (Hop.names d.hops))
        ((inner :: delimiter.toList).map Plan.id) s.context := by
  cases delimiter <;> rfl

private theorem call_id (s : Scope) (sig : Signature) (type : ValueType) (plans : List Plan) :
    (s.call sig type plans).id = semanticId "function" sig.name (plans.map Plan.id) s.context := by
  show semanticId "function" sig.name ((plans.map (·.expression)).map (·.info.id)) s.context = _
  rw [List.map_map]
  rfl

/-- An aggregate is known by its identifier if what it folds and what it puts between texts are. -/
theorem aggregate_append_inj {s : Scope} {f f' : AggregateFunction} {d d' : Destination} {inner inner' : Plan}
    {delimiter delimiter' : Option Plan} (hd : s.IsDestination d) (hd' : s.IsDestination d')
    (hinner : d = d' → inner.Discerned inner')
    (hdelimiter : ∀ p ∈ delimiter, ∀ q ∈ delimiter', p.Discerned q) {u v : List Char}
    (e : (s.aggregate f d inner delimiter).id.toList ++ u = (s.aggregate f' d' inner' delimiter').id.toList ++ v) :
    (f = f' ∧ d = d' ∧ inner = inner' ∧ delimiter = delimiter') ∧ u = v := by
  rw [aggregate_id, aggregate_id] at e
  obtain ⟨hdetails, hrest⟩ := details_eq_of_append_eq (isDetails_aggregate f hd) (isDetails_aggregate f' hd') e
  obtain ⟨rfl, hrelation⟩ := aggregate_details_inj hdetails
  have hdest := destination_eq hd hd' hrelation
  have hzip : ∀ x y, (x, y) ∈ (inner :: delimiter.toList).zip (inner' :: delimiter'.toList) → x.Discerned y := by
    intro x y hxy
    rcases List.mem_cons.1 hxy with hxy | hxy
    · cases hxy
      exact hinner hdest
    · obtain ⟨hx, hy⟩ := List.of_mem_zip hxy
      exact hdelimiter x (Option.mem_toList.1 hx) y (Option.mem_toList.1 hy)
  obtain ⟨hparts, hend⟩ := partsText_append_inj Plan.id hzip hrest
  obtain ⟨rfl, hlist⟩ := List.cons.inj hparts
  have hdelim : delimiter = delimiter' := by
    cases delimiter <;> cases delimiter' <;> cases hlist <;> rfl
  exact ⟨⟨rfl, hdest, rfl, hdelim⟩, List.append_cancel_left hend⟩

/-- An expression with parts is known by its identifier if its parts are. -/
private theorem node_append_inj (plans plans' : List Plan) {kind details details' : String} {context : Context}
    {u v : List Char} (hd : IsDetails details) (hd' : IsDetails details')
    (h : ∀ p ∈ plans, ∀ q ∈ plans', p.Discerned q)
    (e : (semanticId kind details (plans.map Plan.id) context).toList ++ u =
      (semanticId kind details' (plans'.map Plan.id) context).toList ++ v) :
    details = details' ∧ plans = plans' ∧ u = v := by
  obtain ⟨hdetails, hrest⟩ := details_eq_of_append_eq hd hd' e
  obtain ⟨hplans, hend⟩ := partsText_append_inj Plan.id
    (fun x y hxy => h x (List.of_mem_zip hxy).1 y (List.of_mem_zip hxy).2) hrest
  exact ⟨hdetails, hplans, List.append_cancel_left hend⟩

/-! ### Plans are known by their identifiers -/

theorem Compiled.discerned {s : Scope} {p q : Plan} (hp : Compiled s p) (hq : Compiled s q) : p.Discerned q := by
  -- identifiers that begin alike are of one kind, so `q` is built as `p` is and only their details and parts are left
  induction hp generalizing q with
  | number s rank =>
    intro u v e
    have hkind := kind_eq (.number s rank) hq e
    cases hq with
    | number _ rank' =>
      obtain ⟨htext, hrest⟩ := leaf_append_inj (isDetails_number rank) (isDetails_number rank') e
      rw [Binary64.text_inj htext]
      exact ⟨rfl, hrest⟩
    | _ => cases hkind
  | string s text =>
    intro u v e
    have hkind := kind_eq (.string s text) hq e
    cases hq with
    | string _ text' =>
      obtain ⟨rfl, hrest⟩ := quoted_append_inj e
      exact ⟨rfl, hrest⟩
    | _ => cases hkind
  | boolean s value =>
    intro u v e
    have hkind := kind_eq (.boolean s value) hq e
    cases hq with
    | boolean _ value' =>
      obtain ⟨htext, hrest⟩ := leaf_append_inj (isDetails_boolean value) (isDetails_boolean value') e
      rw [booleanText_inj value value' htext]
      exact ⟨rfl, hrest⟩
    | _ => cases hkind
  | null s =>
    intro u v e
    have hkind := kind_eq (.null s) hq e
    cases hq with
    | null =>
      have hdetails : IsDetails "NULL" := isDetails_of_isName (by decide) (by decide)
      exact ⟨rfl, (leaf_append_inj hdetails hdetails e).2⟩
    | _ => cases hkind
  | date s hd =>
    intro u v e
    have hkind := kind_eq (.date s hd) hq e
    cases hq with
    | date _ hd' =>
      obtain ⟨rfl, hrest⟩ := leaf_append_inj (isDetails_date hd) (isDetails_date hd') e
      exact ⟨rfl, hrest⟩
    | _ => cases hkind
  | column s hn hne hget =>
    intro u v e
    have hkind := kind_eq (.column s hn hne hget) hq e
    cases hq with
    | column _ hn' hne' hget' =>
      obtain ⟨rfl, hrest⟩ := leaf_append_inj (isDetails_of_isName hne hn) (isDetails_of_isName hne' hn') e
      rw [hget] at hget'
      cases hget'
      exact ⟨rfl, hrest⟩
    | _ => cases hkind
  | @related s init last name type hr hn hget =>
    intro u v e
    have hkind := kind_eq (.related s hr hn hget) hq e
    cases hq with
    | @related _ init' last' name' type' hr' hn' hget' =>
      obtain ⟨⟨rfl, rfl, rfl⟩, hrest⟩ := related_append_inj hr hr' hn hn' e
      rw [hget] at hget'
      cases hget'
      exact ⟨rfl, hrest⟩
    | _ => cases hkind
  | @negate s p hp ih =>
    intro u v e
    have hkind := kind_eq (.negate hp) hq e
    cases hq with
    | @negate _ q hq =>
      have hdetails : IsDetails "-" := isDetails_of_not_mem (by decide) (by decide) (by decide)
      obtain ⟨-, hplans, hrest⟩ := node_append_inj [p] [q] hdetails hdetails (by simpa using ih hq) e
      cases hplans
      exact ⟨rfl, hrest⟩
    | _ => cases hkind
  | @binary s p₁ p₂ op type hp₁ hp₂ ht ih₁ ih₂ =>
    intro u v e
    have hkind := kind_eq (.binary hp₁ hp₂ ht) hq e
    cases hq with
    | @binary _ q₁ q₂ op' type' hq₁ hq₂ ht' =>
      have hzip : ∀ x ∈ [p₁, p₂], ∀ y ∈ [q₁, q₂], x.Discerned y := by
        simp only [List.mem_cons, List.not_mem_nil, or_false]
        rintro x (rfl | rfl) y (rfl | rfl)
        · exact ih₁ hq₁
        · exact ih₁ hq₂
        · exact ih₂ hq₁
        · exact ih₂ hq₂
      obtain ⟨hsymbol, hplans, hrest⟩ :=
        node_append_inj [p₁, p₂] [q₁, q₂] (isDetails_symbol op) (isDetails_symbol op')
        hzip e
      cases hplans
      cases symbol_inj hsymbol
      rw [ht] at ht'
      cases ht'
      exact ⟨rfl, hrest⟩
    | _ => cases hkind
  | @call s sig type plans pos args hs ha hp hl ht hm ih =>
    intro u v e
    have hkind := kind_eq (.call hs ha hp hl ht hm) hq e
    cases hq with
    | @call _ sig' type' plans' pos' args' hs' ha' hp' hl' ht' =>
      rw [call_id, call_id] at e
      obtain ⟨hname, rfl, hrest⟩ := node_append_inj plans plans' (isDetails_signature hs) (isDetails_signature hs')
        (fun x hx y hy => ih x hx (hp' y hy)) e
      have hsig := signature_eq_of_name_eq hs hs' hname
      subst hsig
      rw [callType_congr (hl.trans hl'.symm) ht] at ht'
      cases ht'
      exact ⟨rfl, hrest⟩
    | _ => cases hkind
  | @aggregate s f d inner delimiter hm hd hi hp hc ihi ihp =>
    intro u v e
    have hkind := kind_eq (.aggregate hm hd hi hp hc) hq e
    cases hq with
    | @aggregate _ f' d' inner' delimiter' hm' hd' hi' hp' hc' =>
      obtain ⟨⟨rfl, rfl, rfl, rfl⟩, hrest⟩ := aggregate_append_inj hd hd' (fun h => ihi (h ▸ hi'))
        (fun x hx y hy => ihp x hx (hp' y hy)) e
      exact ⟨rfl, hrest⟩
    | _ => cases hkind

end Scope

end FormulaQuery
