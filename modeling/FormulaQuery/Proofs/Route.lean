import FormulaQuery.Proofs.Identifier

/-!
# Routes through a schema

The hops that following names gives form a route: each stands in the schema under its own name, and starts where the
one before it leads. A route is known by the names of its hops (`Route.eq_of_names_eq`), so within one context a
join is known by its chain, and by its identifier (`IsJoin.eq_of_id_eq`), although the identifier holds table names
and join columns that may be any text.
-/

namespace FormulaQuery

namespace Hop

/-- Hops from a table on, each found under its own name at the table that the one before it leads to. -/
def Route (kind : Table → NameMap (Link Table)) : Table → List Hop → Prop
  | _, [] => True
  | t, h :: hops =>
    h.source = t.name ∧ (kind t).get? h.name = some (h.name, h.link) ∧ Ascii.IsName h.name ∧
      Route kind h.link.target hops

variable {kind : Table → NameMap (Link Table)} {t : Table} {hops more : List Hop}

/-- Names that a formula can spell lead along a route. -/
theorem route_of_follow {chain : List String} (hn : ∀ n ∈ chain, Ascii.IsName n)
    (h : follow kind t chain = .ok hops) : Route kind t hops := by
  induction chain generalizing t hops with
  | nil =>
    cases h
    exact True.intro
  | cons name rest ih =>
    unfold follow at h
    split at h
    · cases h
    · rename_i spelling link hfind
      obtain ⟨hget, hname⟩ := Link.find?_spelling hfind
      cases hrest : follow kind link.target rest with
      | error e => rw [hrest] at h; cases h
      | ok tail =>
        rw [hrest] at h
        cases h
        exact ⟨rfl, hget, hname (hn name List.mem_cons_self),
          ih (fun n hmem => hn n (List.mem_cons_of_mem _ hmem)) hrest⟩

theorem Route.isName (h : Route kind t hops) : ∀ n ∈ names hops, Ascii.IsName n := by
  induction hops generalizing t with
  | nil => intro n hn; cases hn
  | cons k hops ih =>
    obtain ⟨-, -, hname, htail⟩ := h
    intro n hn
    rcases List.mem_cons.1 hn with rfl | hn
    · exact hname
    · exact ih htail n hn

/-- A route is known by the names of its hops. -/
theorem Route.eq_of_names_eq {hops' : List Hop} (h : Route kind t hops) (h' : Route kind t hops')
    (e : names hops = names hops') : hops = hops' := by
  induction hops generalizing t hops' with
  | nil =>
    cases hops' with
    | nil => rfl
    | cons k hops' => cases e
  | cons k hops ih =>
    cases hops' with
    | nil => cases e
    | cons k' hops' =>
      obtain ⟨hsource, hget, -, htail⟩ := h
      obtain ⟨hsource', hget', -, htail'⟩ := h'
      obtain ⟨source, name, link⟩ := k
      obtain ⟨source', name', link'⟩ := k'
      dsimp only at hsource hsource' hget hget' htail htail'
      obtain ⟨hname, htails⟩ := List.cons.inj e
      dsimp only at hname
      subst hname hsource hsource'
      rw [hget'] at hget
      cases hget
      rw [ih htail htail' htails]

theorem Route.take (h : Route kind t (hops ++ more)) : Route kind t hops := by
  induction hops generalizing t with
  | nil => exact True.intro
  | cons k hops ih =>
    obtain ⟨hsource, hget, hname, htail⟩ := h
    exact ⟨hsource, hget, hname, ih htail⟩

theorem names_append (hops more : List Hop) : names (hops ++ more) = names hops ++ names more := List.map_append

/-! ### Joins along a route -/

theorem joins_append_singleton (context : Context) (before : List String) (hops : List Hop) (h : Hop) :
    joins context before (hops ++ [h]) = joins context before hops ++ [h.join context (before ++ names hops)] := by
  induction hops generalizing before with
  | nil => simp [joins, names]
  | cons k hops ih => simp [joins, ih, names]

private theorem joins_append (context : Context) (before : List String) (hops more : List Hop) :
    joins context before (hops ++ more) =
      joins context before hops ++ joins context (before ++ names hops) more := by
  induction hops generalizing before with
  | nil => simp [joins, names]
  | cons k hops ih => simp [joins, ih, names]

/-- Every join along hops belongs to some of the first ones. -/
theorem mem_joins {context : Context} {j : Join} (h : j ∈ joins context [] hops) :
    ∃ init k rest, hops = init ++ k :: rest ∧ j = k.join context (names init) := by
  have step : ∀ (before : List String) (hops : List Hop), j ∈ joins context before hops →
      ∃ init k rest, hops = init ++ k :: rest ∧ j = k.join context (before ++ names init) := by
    intro before hops
    induction hops generalizing before with
    | nil => intro h; cases h
    | cons k hops ih =>
      intro h
      rcases List.mem_cons.1 h with rfl | h
      · exact ⟨[], k, hops, rfl, by simp [names]⟩
      · obtain ⟨init, k', rest, rfl, rfl⟩ := ih _ h
        exact ⟨k :: init, k', rest, rfl, by simp [names]⟩
  obtain ⟨init, k, rest, e, rfl⟩ := step [] hops h
  exact ⟨init, k, rest, e, by rw [List.nil_append]⟩

theorem join_mem_joins (context : Context) (init : List Hop) (k : Hop) (rest : List Hop) :
    k.join context (names init) ∈ joins context [] (init ++ k :: rest) := by
  rw [joins_append]
  exact List.mem_append_right _ (by rw [List.nil_append]; exact List.mem_cons_self)

/-! ### What a join is known by -/

/-- A join of a table in a context: that of the last hop of a route. -/
def IsJoin (t : Table) (context : Context) (j : Join) : Prop :=
  ∃ init k, Route Table.direct t (init ++ [k]) ∧ j = k.join context (names init)

variable {context : Context} {j j' : Join}

theorem isJoin_of_mem_joins (h : Route Table.direct t hops) (hj : j ∈ joins context [] hops) :
    IsJoin t context j := by
  obtain ⟨init, k, rest, rfl, rfl⟩ := mem_joins hj
  refine ⟨init, k, ?_, rfl⟩
  rw [List.append_cons] at h
  exact h.take

theorem IsJoin.eq_of_chain_eq (h : IsJoin t context j) (h' : IsJoin t context j') (e : j.chain = j'.chain) :
    j = j' := by
  obtain ⟨init, k, hr, rfl⟩ := h
  obtain ⟨init', k', hr', rfl⟩ := h'
  have hnames : names (init ++ [k]) = names (init' ++ [k']) := by
    rw [names_append, names_append]
    exact e
  have hhops := hr.eq_of_names_eq hr' hnames
  obtain ⟨rfl, hk⟩ := List.append_inj' hhops rfl
  cases hk
  rfl

/-- The identifier of a join begins with its chain. -/
theorem toList_join_id (context : Context) (k : Hop) (before : List String) :
    ∃ tail, (k.join context before).id.toList =
      "join:direct:".toList ++ ((".".intercalate (k.join context before).chain).toList ++ ':' :: tail) := by
  have hne : ("direct:" ++ ".".intercalate (before ++ [k.name]) ++ ":" ++ k.source ++ "->" ++ k.link.target.name
      ++ "[" ++ k.link.joinColumn ++ "]").toList ≠ [] := by simp
  refine ⟨k.source.toList ++ "->".toList ++ k.link.target.name.toList ++ "[".toList ++ k.link.joinColumn.toList
    ++ "]@".toList ++ context.text.toList, ?_⟩
  show (semanticId "join" _ [] context).toList = _
  rw [toList_semanticId hne]
  simp [partsText, join]

theorem IsJoin.chain_ne_nil (h : IsJoin t context j) : j.chain ≠ [] := by
  obtain ⟨init, k, -, rfl⟩ := h
  exact List.append_ne_nil_of_right_ne_nil _ (by simp)

private theorem IsJoin.isName (h : IsJoin t context j) : ∀ n ∈ j.chain, Ascii.IsName n := by
  obtain ⟨init, k, hr, rfl⟩ := h
  have := hr.isName
  rw [names_append] at this
  exact this

/-- Within one context a join is known by its identifier. -/
theorem IsJoin.eq_of_id_eq (h : IsJoin t context j) (h' : IsJoin t context j') (e : j.id = j'.id) : j = j' := by
  have hn := h.isName
  have hn' := h'.isName
  refine h.eq_of_chain_eq h' (dotted_inj hn hn' h.chain_ne_nil h'.chain_ne_nil ?_)
  have colon : ∀ ns : List String, (∀ n ∈ ns, Ascii.IsName n) → ∀ c ∈ (".".intercalate ns).toList, ¬c = ':' := by
    intro ns hns c hc
    rcases mem_dotted hns hc with rfl | hc
    · decide
    · exact ne_of_isWordPart hc (by decide)
  obtain ⟨init, k, -, rfl⟩ := h
  obtain ⟨init', k', -, rfl⟩ := h'
  obtain ⟨tail, ht⟩ := toList_join_id context k (names init)
  obtain ⟨tail', ht'⟩ := toList_join_id context k' (names init')
  have hlist := congrArg String.toList e
  rw [ht, ht'] at hlist
  have hrest := List.append_cancel_left hlist
  exact String.toList_inj.1 (append_stop_inj (· = ':') (colon _ hn) (colon _ hn') rfl rfl hrest).1

end Hop

end FormulaQuery
