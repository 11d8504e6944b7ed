import FormulaQuery.Proofs.Alias
import FormulaQuery.Proofs.KeyMap
import FormulaQuery.Query.Assembly

/-!
# The least free alias

The search for an alias starts from the name of a join and goes on to the forms of this name that are numbered from
two on, as long as what it has is taken. It has no bound of its own. It ends after at most as many rounds as names
are taken (`exists_search`), because different numbers give different names, and it ends with the first free name
(`Search.isFirstFree`). So every join gets its name with the least number that the names taken before it leave
(`assign_first_free`), also where names of other joins look like numbered ones.
-/

namespace FormulaQuery.Alias

/-- A search that has come to `name`, with `n` as the next number, and ends with `label` after some more rounds. -/
inductive Search (base : String) (used : String → Prop) : (rounds : Nat) → (name : String) → (n : Nat) →
    (label : String) → Prop
  | free {name : String} {n : Nat} (h : ¬used name) : Search base used 0 name n name
  | next {rounds n : Nat} {name label : String} (h : used name)
    (more : Search base used rounds (numbered base n) (n + 1) label) : Search base used (rounds + 1) name n label

/-- The first of a name and its numbered forms that is not used. -/
inductive IsFirstFree (base : String) (used : String → Prop) : (label : String) → Prop
  | base (h : ¬used base) : IsFirstFree base used base
  | numbered {n : Nat} (h : used base) (hn : 2 ≤ n) (hfree : ¬used (numbered base n))
    (hleast : ∀ m, 2 ≤ m → m < n → used (Alias.numbered base m)) : IsFirstFree base used (numbered base n)

/-! ### One search -/

section Search

variable {base label : String} {used : String → Prop}

/-- From one number to another the search passes over the numbers between them. -/
private theorem search_numbered {k n : Nat} (hk : k ≤ n) (hused : ∀ m, k ≤ m → m < n → used (numbered base m))
    (hfree : ¬used (numbered base n)) : Search base used (n - k) (numbered base k) (k + 1) (numbered base n) := by
  obtain ⟨rounds, rfl⟩ : ∃ rounds, n = k + rounds := ⟨n - k, by omega⟩
  rw [Nat.add_sub_cancel_left]
  clear hk
  induction rounds generalizing k with
  | zero => exact .free hfree
  | succ rounds ih =>
    have hshift : k + 1 + rounds = k + (rounds + 1) := by omega
    have hmore := @ih (k + 1)
    rw [hshift] at hmore
    exact .next (hused k (by omega) (by omega)) (hmore (fun m hm => hused m (by omega)) hfree)

/-- A name that is taken gives way to the first of its numbered forms that is not. -/
private theorem fresh_of_mem {taken : List String} (h : base ∈ taken) :
    fresh base taken =
      (((List.range' 2 taken.length).find? fun n => numbered base n ∉ taken).map (numbered base)).getD base := by
  rw [fresh, if_pos h, List.find?_map]
  rfl

/-- The search ends with the name that is chosen, within as many rounds as names are taken. -/
theorem exists_search (base : String) (taken : List String) :
    ∃ rounds ≤ taken.length, Search base (· ∈ taken) rounds base 2 (fresh base taken) := by
  by_cases hbase : base ∈ taken
  · have hchosen := fresh_of_mem hbase
    have hfresh := fresh_not_mem base taken
    cases hfind : (List.range' 2 taken.length).find? fun n => numbered base n ∉ taken with
    | none =>
      -- without a free number the name itself were chosen, which is taken
      rw [hchosen, hfind] at hfresh
      exact absurd hbase hfresh
    | some n =>
      rw [hfind] at hchosen
      obtain ⟨hfree, hrange, hleast⟩ := List.find?_range'_eq_some.1 hfind
      have hn := List.mem_range'_1.1 hrange
      refine ⟨n - 2 + 1, by omega, ?_⟩
      rw [hchosen]
      refine .next hbase (search_numbered hn.1 ?_ (by simpa using hfree))
      intro m hm hlt
      simpa using hleast m hm hlt
  · have hchosen : fresh base taken = base := if_neg hbase
    rw [hchosen]
    exact ⟨0, Nat.zero_le _, .free hbase⟩

/-- What a search that has come to the number `k` ends with is its first free form from there on. -/
private theorem Search.exists_numbered {rounds k : Nat}
    (h : Search base used rounds (numbered base k) (k + 1) label) :
    ∃ n, k ≤ n ∧ label = numbered base n ∧ ¬used (numbered base n) ∧ ∀ m, k ≤ m → m < n → used (numbered base m) := by
  induction rounds generalizing k with
  | zero =>
    cases h with
    | free h => exact ⟨k, Nat.le_refl k, rfl, h, fun m hm hlt => absurd hlt (by omega)⟩
  | succ rounds ih =>
    cases h with
    | next h more =>
      obtain ⟨n, hn, hlabel, hfree, hleast⟩ := ih more
      refine ⟨n, by omega, hlabel, hfree, ?_⟩
      intro m hm hlt
      by_cases hmk : m = k
      · exact hmk ▸ h
      · exact hleast m (by omega) hlt

/-- A search that ends has found the first free name. -/
theorem Search.isFirstFree {rounds : Nat} (h : Search base used rounds base 2 label) :
    IsFirstFree base used label := by
  cases h with
  | free h => exact .base h
  | next h more =>
    obtain ⟨n, hn, rfl, hfree, hleast⟩ := more.exists_numbered
    exact .numbered h hn hfree hleast

end Search

/-! ### One search after another -/

/-- The alias of a join by its identifier, if joins are named one after another. -/
def of? (taken : List String) (js : List Join) (j : Join) : Option String :=
  (Assembly.joinSources (assign taken js)).lookup j.id

variable {taken : List String} {js : List Join} {label : String}

/-- Behind other joins their aliases are taken as well. -/
theorem assign_append (taken : List String) (before after : List Join) :
    assign taken (before ++ after) =
      assign taken before ++ assign (((assign taken before).map (·.2)).reverse ++ taken) after := by
  induction before generalizing taken with
  | nil => rfl
  | cons j before ih => simp [assign, ih]

/-- Joins with different identifiers keep their own aliases. -/
theorem of?_eq_some (hids : (js.map (·.id)).Nodup) {j : Join} (h : (j, label) ∈ assign taken js) :
    of? taken js j = some label := by
  have hkeys : (Assembly.joinSources (assign taken js)).map (·.1) = js.map (·.id) := by
    conv => rhs; rw [← map_fst_assign taken js]
    simp [Assembly.joinSources]
  exact KeyMap.lookup_of_mem (hkeys ▸ hids) (List.mem_map_of_mem h)

/-- What is taken when the joins `before` have been named. -/
private theorem mem_taken_iff {before after : List Join} (hids : ((before ++ after).map (·.id)).Nodup)
    (name : String) :
    name ∈ ((assign taken before).map (·.2)).reverse ++ taken ↔
      name ∈ taken ∨ ∃ i ∈ before, of? taken (before ++ after) i = some name := by
  have hof : ∀ n ∈ assign taken before, of? taken (before ++ after) n.1 = some n.2 := by
    intro n hn
    refine of?_eq_some hids ?_
    rw [assign_append]
    exact List.mem_append_left _ hn
  have hfst := map_fst_assign taken before
  rw [List.mem_append, List.mem_reverse, or_comm]
  refine or_congr_right ⟨?_, ?_⟩
  · intro h
    obtain ⟨n, hn, rfl⟩ := List.mem_map.1 h
    exact ⟨n.1, hfst ▸ List.mem_map_of_mem hn, hof n hn⟩
  · rintro ⟨i, hi, h⟩
    obtain ⟨n, hn, rfl⟩ := List.mem_map.1 (hfst.symm ▸ hi)
    rw [hof n hn] at h
    exact Option.some.inj h ▸ List.mem_map_of_mem hn

/-- Every join is named. -/
private theorem exists_mem_assign (taken : List String) {j : Join} (h : j ∈ js) :
    ∃ label, (j, label) ∈ assign taken js := by
  have hmem : j ∈ (assign taken js).map (·.1) := by rwa [map_fst_assign]
  obtain ⟨⟨i, label⟩, hn, rfl⟩ := List.mem_map.1 hmem
  exact ⟨label, hn⟩

/-- Joins with different identifiers all get aliases. These are different from each other and from the names that
were taken, and each comes from a search that ends with the first free name: the name of the join, or its form with
the least number, that neither was taken nor is the alias of an earlier join. -/
theorem assign_first_free (taken : List String) {js : List Join} (hids : (js.map (·.id)).Nodup) :
    (∀ j ∈ js, ∃ label, of? taken js j = some label ∧ label ∉ taken) ∧
      (∀ i ∈ js, ∀ j ∈ js, of? taken js i = of? taken js j → i = j) ∧
      ∀ before j after, js = before ++ j :: after →
        ∃ label rounds, of? taken js j = some label ∧ rounds ≤ taken.length + before.length ∧
          Search (base j) (fun name => name ∈ taken ∨ ∃ i ∈ before, of? taken js i = some name) rounds (base j) 2
            label ∧
          IsFirstFree (base j) (fun name => name ∈ taken ∨ ∃ i ∈ before, of? taken js i = some name) label := by
  refine ⟨?_, ?_, ?_⟩
  · intro j hj
    obtain ⟨label, hlabel⟩ := exists_mem_assign taken hj
    exact ⟨label, of?_eq_some hids hlabel, assign_not_mem hlabel⟩
  · intro i hi j hj heq
    obtain ⟨label, hlabel⟩ := exists_mem_assign taken hi
    obtain ⟨label', hlabel'⟩ := exists_mem_assign taken hj
    rw [of?_eq_some hids hlabel, of?_eq_some hids hlabel'] at heq
    have hsame := List.inj_on_of_nodup_map (nodup_assign taken js) hlabel hlabel' (Option.some.inj heq)
    exact congrArg Prod.fst hsame
  · rintro before j after rfl
    obtain ⟨rounds, hrounds, hsearch⟩ := exists_search (base j) (((assign taken before).map (·.2)).reverse ++ taken)
    have hlength : (((assign taken before).map (·.2)).reverse ++ taken).length = taken.length + before.length := by
      have := congrArg List.length (map_fst_assign taken before)
      simp at this ⊢
      omega
    have hused : (· ∈ ((assign taken before).map (·.2)).reverse ++ taken) =
        fun name => name ∈ taken ∨ ∃ i ∈ before, of? taken (before ++ j :: after) i = some name :=
      funext fun name => propext (mem_taken_iff hids name)
    have hmem : (j, fresh (base j) (((assign taken before).map (·.2)).reverse ++ taken)) ∈
        assign taken (before ++ j :: after) := by
      rw [assign_append]
      exact List.mem_append_right _ List.mem_cons_self
    rw [hused] at hsearch
    exact ⟨_, rounds, of?_eq_some hids hmem, hlength ▸ hrounds, hsearch, hsearch.isFirstFree⟩

/-- Joins whose names collide with each other and with numbered forms of each other. -/
def collidingJoins : List Join :=
  [⟨"orders", "Merchant 2", "m_id", ["A"], "a", .main⟩, ⟨"orders", "merchant", "b_id", ["B"], "b", .main⟩,
    ⟨"orders", "S", "s_id", ["C"], "c", .main⟩, ⟨"orders", "MERCHANT", "d_id", ["D"], "d", .main⟩,
    ⟨"x", "y", "e_id", ["Merchant", "2"], "e", .main⟩]

theorem assign_first_free_colliding :
    (collidingJoins.map (of? ["s", "agg_1"] collidingJoins) =
      [some "merchant_2", some "merchant", some "s_2", some "merchant_3", some "merchant_2_2"]) ∧
    ∀ before j after, collidingJoins = before ++ j :: after →
      ∃ label rounds, of? ["s", "agg_1"] collidingJoins j = some label ∧ rounds ≤ 2 + before.length ∧
        Search (base j) (fun name => name ∈ ["s", "agg_1"] ∨
          ∃ i ∈ before, of? ["s", "agg_1"] collidingJoins i = some name) rounds (base j) 2 label ∧
        IsFirstFree (base j) (fun name => name ∈ ["s", "agg_1"] ∨
          ∃ i ∈ before, of? ["s", "agg_1"] collidingJoins i = some name) label :=
  ⟨by decide +kernel, (assign_first_free ["s", "agg_1"] (by decide +kernel : (collidingJoins.map (·.id)).Nodup)).2.2⟩

end FormulaQuery.Alias
