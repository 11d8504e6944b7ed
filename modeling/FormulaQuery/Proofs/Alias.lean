import FormulaQuery.Query.Alias
import Mathlib.Data.List.Nodup
import Mathlib.Data.List.Perm.Subperm

/-!
# Aliases are free

The search for a free name always ends with one: `taken.length + 1` different names cannot all be taken
(`fresh_not_mem`). So the joins of one level get different aliases, none of which was taken before (`nodup_assign`,
`assign_not_mem`).
-/

namespace FormulaQuery.Alias

/-- Numbers at the end of a name tell names apart. -/
theorem append_toString_inj (stem : String) {m n : Nat} (h : stem ++ toString m = stem ++ toString n) : m = n := by
  have hlist := congrArg String.toList h
  rw [String.toList_append, String.toList_append] at hlist
  have hdigits := List.append_cancel_left hlist
  rw [Nat.toString_eq_repr, Nat.toString_eq_repr, Nat.toList_repr, Nat.toList_repr] at hdigits
  have hvalue := congrArg (Nat.ofDigitChars 10 · 0) hdigits
  rw [Nat.ofDigitChars_toDigits (by decide) (by decide), Nat.ofDigitChars_toDigits (by decide) (by decide)] at hvalue
  exact hvalue

private theorem numbered_ne (base : String) (n : Nat) : numbered base n ≠ base := by
  intro h
  have hlength := congrArg (·.toList.length) h
  simp [numbered] at hlength

/-- A name that is taken has a numbered form that is not. -/
private theorem exists_numbered_not_mem {base : String} {taken : List String} (h : base ∈ taken) :
    ∃ n ∈ List.range' 2 taken.length, numbered base n ∉ taken := by
  by_contra hall
  have hall : ∀ n ∈ List.range' 2 taken.length, numbered base n ∈ taken := by
    intro n hn
    by_contra hfree
    exact hall ⟨n, hn, hfree⟩
  have hnodup : (base :: (List.range' 2 taken.length).map (numbered base)).Nodup := by
    refine List.nodup_cons.2 ⟨?_, List.Nodup.map_on ?_ List.nodup_range'⟩
    · intro hmem
      obtain ⟨n, -, hn⟩ := List.mem_map.1 hmem
      exact numbered_ne base n hn
    · intro m _ n _ hmn
      exact append_toString_inj _ hmn
  have hsubset : base :: (List.range' 2 taken.length).map (numbered base) ⊆ taken := by
    intro name hname
    rcases List.mem_cons.1 hname with rfl | hname
    · exact h
    · obtain ⟨n, hn, rfl⟩ := List.mem_map.1 hname
      exact hall n hn
  have hlength := (List.subperm_of_subset hnodup hsubset).length_le
  rw [List.length_cons, List.length_map, List.length_range'] at hlength
  omega

theorem fresh_not_mem (base : String) (taken : List String) : fresh base taken ∉ taken := by
  unfold fresh
  split
  · rename_i hbase
    cases hfind : ((List.range' 2 taken.length).map (numbered base)).find? (· ∉ taken) with
    | none =>
      obtain ⟨n, hn, hfree⟩ := exists_numbered_not_mem hbase
      have := List.find?_eq_none.1 hfind _ (List.mem_map_of_mem hn)
      simp at this
      exact absurd this hfree
    | some name =>
      have := List.find?_some hfind
      simpa using this
  · assumption

/-! ### Naming joins one after another -/

theorem map_fst_assign (taken : List String) (js : List Join) : (assign taken js).map (·.1) = js := by
  induction js generalizing taken with
  | nil => rfl
  | cons j js ih => rw [assign, List.map_cons, ih]

theorem assign_not_mem {taken : List String} {js : List Join} {n : Join × String} (h : n ∈ assign taken js) :
    n.2 ∉ taken := by
  induction js generalizing taken with
  | nil => cases h
  | cons j js ih =>
    rcases List.mem_cons.1 h with rfl | h
    · exact fresh_not_mem (base j) taken
    · exact fun hmem => ih h (List.mem_cons_of_mem _ hmem)

theorem nodup_assign (taken : List String) (js : List Join) : ((assign taken js).map (·.2)).Nodup := by
  induction js generalizing taken with
  | nil => exact List.nodup_nil
  | cons j js ih =>
    refine List.nodup_cons.2 ⟨?_, ih _⟩
    intro hmem
    obtain ⟨n, hn, hlabel⟩ := List.mem_map.1 hmem
    exact assign_not_mem hn (hlabel ▸ List.mem_cons_self)

end FormulaQuery.Alias
