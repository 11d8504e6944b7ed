import FormulaQuery.Proofs.Names

/-!
# The text of identifiers

Identifiers are plain concatenations, and table names and join columns may hold any of the characters that set their
parts off. What can be read back is what stands before the first such character: the kind, and details made of names
(`append_stop_inj`, `dotted_inj`).
-/

namespace FormulaQuery

/-- Two texts that agree up to their first stops agree before these stops. -/
theorem append_stop_inj (stop : Char → Prop) {xs ys u v : List Char} {c d : Char} (hx : ∀ x ∈ xs, ¬stop x)
    (hy : ∀ y ∈ ys, ¬stop y) (hc : stop c) (hd : stop d) (h : xs ++ c :: u = ys ++ d :: v) :
    xs = ys ∧ c = d ∧ u = v := by
  induction xs generalizing ys with
  | nil =>
    cases ys with
    | nil =>
      obtain ⟨rfl, rfl⟩ := List.cons.inj h
      exact ⟨rfl, rfl, rfl⟩
    | cons y ys =>
      obtain ⟨rfl, -⟩ := List.cons.inj h
      exact absurd hc (hy _ List.mem_cons_self)
  | cons x xs ih =>
    cases ys with
    | nil =>
      obtain ⟨rfl, -⟩ := List.cons.inj h
      exact absurd hd (hx _ List.mem_cons_self)
    | cons y ys =>
      obtain ⟨rfl, htail⟩ := List.cons.inj h
      obtain ⟨rfl, rest⟩ := ih (fun x hx' => hx x (List.mem_cons_of_mem _ hx'))
        (fun y hy' => hy y (List.mem_cons_of_mem _ hy')) htail
      exact ⟨rfl, rest⟩

/-! ### Dotted names -/

theorem ne_of_isWordPart {c d : Char} (hc : Ascii.isWordPart c = true) (hd : Ascii.isWordPart d = false) : c ≠ d := by
  rintro rfl
  rw [hc] at hd
  cases hd

/-- Names joined by points hold nothing but word characters and points. -/
theorem mem_dotted {names : List String} (h : ∀ n ∈ names, Ascii.IsName n) {c : Char}
    (hc : c ∈ (".".intercalate names).toList) : c = '.' ∨ Ascii.isWordPart c = true := by
  induction names with
  | nil => simp at hc
  | cons n names ih =>
    cases names with
    | nil =>
      rw [String.intercalate_singleton] at hc
      exact Or.inr (h n List.mem_cons_self c hc)
    | cons m names =>
      rw [String.intercalate_cons_cons, String.toList_append, String.toList_append] at hc
      rcases List.mem_append.1 hc with hc | hc
      · rcases List.mem_append.1 hc with hc | hc
        · exact Or.inr (h n List.mem_cons_self c hc)
        · exact Or.inl (List.mem_singleton.1 hc)
      · exact ih (fun k hk => h k (List.mem_cons_of_mem _ hk)) hc

/-- Names joined by points can be told apart again. -/
theorem dotted_inj {names names' : List String} (h : ∀ n ∈ names, Ascii.IsName n)
    (h' : ∀ n ∈ names', Ascii.IsName n) (hne : names ≠ []) (hne' : names' ≠ [])
    (e : ".".intercalate names = ".".intercalate names') : names = names' := by
  have point : ∀ ns : List String, (∀ n ∈ ns, Ascii.IsName n) → ∀ l ∈ ns.map String.toList, '.' ∉ l := by
    intro ns hns l hl hdot
    obtain ⟨n, hn, rfl⟩ := List.mem_map.1 hl
    exact ne_of_isWordPart (hns n hn '.' hdot) (by decide) rfl
  have e' := congrArg String.toList e
  rw [String.toList_intercalate, String.toList_intercalate] at e'
  have split := congrArg (List.splitOn '.') e'
  rw [show (".".toList : List Char) = ['.'] from rfl, List.splitOn_intercalate '.' (point names h)
    (by simpa using hne), List.splitOn_intercalate '.' (point names' h') (by simpa using hne')] at split
  exact (List.map_inj_right fun _ _ => String.toList_inj.1).1 split

/-! ### Identifiers -/

/-- The parts of an identifier as they stand in it. -/
def partsText : List String → List Char
  | [] => []
  | parts => '[' :: ([','].intercalate (parts.map String.toList) ++ [']'])

theorem toList_semanticId {kind details : String} {parts : List String} {context : Context}
    (h : details.toList ≠ []) :
    (semanticId kind details parts context).toList =
      kind.toList ++ ':' :: (details.toList ++ (partsText parts ++ '@' :: context.text.toList)) := by
  have hd : details.isEmpty = false := by
    rw [Bool.eq_false_iff]
    intro he
    rw [String.isEmpty_iff] at he
    exact h (by rw [he]; rfl)
  cases parts with
  | nil => simp [semanticId, partsText, hd]
  | cons p ps => simp [semanticId, partsText, hd]

end FormulaQuery
