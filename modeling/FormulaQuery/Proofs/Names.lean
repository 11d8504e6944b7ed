import FormulaQuery.AggregateFunction
import FormulaQuery.Plan.Scope

/-!
# Names of tables, columns and relationships

A formula can only spell names made of letters, digits and underscores, so an entry of a schema is within its reach
only if its own name is made of these, whatever stands in the schema beside it. A name that a map has given out
leads back to the same entry (`NameMap.get?_spelling`), and so does the name of a relationship
(`Link.find?_spelling`).
-/

namespace FormulaQuery

namespace Ascii

/-! ### Characters -/

theorem toNat_toLower (c : Char) :
    c.toLower.toNat = if 65 ≤ c.toNat ∧ c.toNat ≤ 90 then c.toNat + 32 else c.toNat := by
  unfold Char.toLower
  simp only [Char.toNat, ge_iff_le, UInt32.le_iff_toNat_le]
  split
  · rename_i h
    have h1 : 65 ≤ c.val.toNat := h.1
    have h2 : c.val.toNat ≤ 90 := h.2
    have e : ('a'.val - 'A'.val).toNat = 32 := rfl
    rw [if_pos ⟨h1, h2⟩, UInt32.toNat_add, e]
    omega
  · rename_i h
    have h' : ¬(65 ≤ c.val.toNat ∧ c.val.toNat ≤ 90) := h
    rw [if_neg h']

theorem toNat_toUpper (c : Char) :
    c.toUpper.toNat = if 97 ≤ c.toNat ∧ c.toNat ≤ 122 then c.toNat - 32 else c.toNat := by
  unfold Char.toUpper
  simp only [Char.toNat, UInt32.le_iff_toNat_le]
  split
  · rename_i h
    have h1 : 97 ≤ c.val.toNat := h.1
    have h2 : c.val.toNat ≤ 122 := h.2
    have e : ('A'.val - 'a'.val).toNat = 2 ^ 32 - 32 := rfl
    rw [if_pos ⟨h1, h2⟩, UInt32.toNat_add, e]
    omega
  · rename_i h
    have h' : ¬(97 ≤ c.val.toNat ∧ c.val.toNat ≤ 122) := h
    rw [if_neg h']

theorem isWordPart_iff (c : Char) :
    isWordPart c = true ↔ (97 ≤ c.toNat ∧ c.toNat ≤ 122) ∨ (65 ≤ c.toNat ∧ c.toNat ≤ 90) ∨
      (48 ≤ c.toNat ∧ c.toNat ≤ 57) ∨ c.toNat = 95 := by
  simp only [isWordPart, isLetter, isDigit, Char.le_def, UInt32.le_iff_toNat_le, Bool.or_eq_true, Bool.and_eq_true,
    decide_eq_true_eq, beq_iff_eq, ← Char.toNat_inj]
  simp only [Char.toNat, Char.reduceVal, UInt32.reduceToNat]
  omega

theorem isWordPart_toLower (c : Char) : isWordPart c.toLower = isWordPart c := by
  rw [Bool.eq_iff_iff, isWordPart_iff, isWordPart_iff, toNat_toLower]
  split <;> omega

theorem isWordPart_toUpper (c : Char) : isWordPart c.toUpper = isWordPart c := by
  rw [Bool.eq_iff_iff, isWordPart_iff, isWordPart_iff, toNat_toUpper]
  split <;> omega

private theorem toUpper_toLower (c : Char) : c.toLower.toUpper = c.toUpper := by
  rw [← Char.toNat_inj, toNat_toUpper, toNat_toLower, toNat_toUpper]
  by_cases h : 65 ≤ c.toNat ∧ c.toNat ≤ 90
  · rw [if_pos h, if_pos (by omega), if_neg (by omega)]
    omega
  · rw [if_neg h]

end Ascii

namespace Blank

/-- Blanks are neither letters, digits nor marks of ASCII. -/
theorem toNat_of_isBlank {c : Char} (h : isBlank c = true) : c.toNat ≤ 32 ∨ 133 ≤ c.toNat := by
  simp only [isBlank, ranges, List.any_cons, List.any_nil, Bool.or_false, Bool.or_eq_true, Bool.and_eq_true,
    decide_eq_true_eq] at h
  omega

theorem not_isBlank_of_isWordPart {c : Char} (h : Ascii.isWordPart c = true) : ¬isBlank c = true := by
  intro hblank
  have hword := (Ascii.isWordPart_iff c).1 h
  have hrange := toNat_of_isBlank hblank
  omega

end Blank

namespace Ascii

/-! ### Names that a formula can spell -/

/-- A text of letters, digits and underscores. -/
def IsName (s : String) : Prop := ∀ c ∈ s.toList, isWordPart c = true

instance : DecidablePred IsName := fun s => List.decidableBAll (fun c => isWordPart c = true) s.toList

theorem sameName_iff {s t : String} : sameName s t = true ↔ lower s = lower t := by
  rw [sameName, beq_iff_eq]

theorem sameName_trans_right {s t u : String} (h : sameName s t = true) : sameName u s = sameName u t := by
  rw [sameName, sameName, sameName_iff.1 h]

private theorem map_toLower_of_sameName {s t : String} (h : sameName s t = true) :
    s.toList.map Char.toLower = t.toList.map Char.toLower := by
  have := congrArg String.toList (sameName_iff.1 h)
  simpa only [lower, String.toList_ofList] using this

theorem isName_of_sameName {s t : String} (h : sameName s t = true) (ht : IsName t) : IsName s := by
  intro c hc
  have hm : c.toLower ∈ t.toList.map Char.toLower := by
    rw [← map_toLower_of_sameName h]
    exact List.mem_map_of_mem hc
  obtain ⟨d, hd, hdc⟩ := List.mem_map.1 hm
  rw [← isWordPart_toLower, ← hdc, isWordPart_toLower]
  exact ht d hd

theorem toList_ne_nil_of_sameName {s t : String} (h : sameName s t = true) (ht : t.toList ≠ []) : s.toList ≠ [] := by
  intro hs
  have := map_toLower_of_sameName h
  rw [hs, List.map_nil] at this
  exact ht (List.map_eq_nil_iff.1 this.symm)

theorem upper_eq_of_sameName {s t : String} (h : sameName s t = true) : upper s = upper t := by
  have := congrArg (List.map Char.toUpper) (map_toLower_of_sameName h)
  simp only [List.map_map] at this
  rw [upper, upper]
  congr 1
  simpa only [Function.comp_def, toUpper_toLower] using this

theorem isName_upper {s : String} (h : IsName s) : IsName (upper s) := by
  intro c hc
  rw [upper, String.toList_ofList] at hc
  obtain ⟨d, hd, rfl⟩ := List.mem_map.1 hc
  rw [isWordPart_toUpper]
  exact h d hd

theorem isWordPart_of_isDigit {c : Char} (h : isDigit c = true) : isWordPart c = true := by
  rw [isWordPart, h, Bool.or_true, Bool.true_or]

theorem isWordPart_of_isWord {cs : List Char} (h : isWord cs = true) : ∀ c ∈ cs, isWordPart c = true := by
  intro c hc
  cases cs with
  | nil => cases hc
  | cons d ds =>
    simp only [isWord, Bool.and_eq_true, List.all_eq_true] at h
    rcases List.mem_cons.1 hc with rfl | hc
    · have := h.1
      simp only [isWordStart, Bool.or_eq_true] at this
      simp only [isWordPart, Bool.or_eq_true]
      rcases this with h | h
      · exact Or.inl (Or.inl h)
      · exact Or.inr h
    · exact h.2 c hc

theorem isName_of_isWord {s : String} (h : isWord s.toList = true) : IsName s := isWordPart_of_isWord h

theorem ne_nil_of_isWord {cs : List Char} (h : isWord cs = true) : cs ≠ [] := by
  rintro rfl
  cases h

private theorem isName_of_dropEnding? {tail : List Char} {s : String} {stem : List Char}
    (h : dropEnding? tail s.toList = some stem) (hs : IsName s) : IsName (String.ofList stem) := by
  unfold dropEnding? at h
  split at h
  · cases h
    intro c hc
    rw [String.toList_ofList] at hc
    exact hs c (List.mem_of_mem_take hc)
  · cases h

end Ascii

theorem AggregateFunction.ofName?_eq_of_sameName {s t : String} (h : Ascii.sameName s t = true) :
    ofName? s = ofName? t := by
  rw [ofName?, ofName?, Ascii.upper_eq_of_sameName h]

/-! ### Looking names up -/

theorem NameMap.get?_eq_of_sameName {α : Type} (m : NameMap α) {a b : String} (h : Ascii.sameName a b = true) :
    m.get? a = m.get? b := by
  have hsame : (fun e : String × α => Ascii.sameName e.1 a) = fun e => Ascii.sameName e.1 b :=
    funext fun _ => Ascii.sameName_trans_right h
  rw [get?, get?, hsame]

/-- The spelling of a name leads to the same entry as the name. -/
theorem NameMap.get?_spelling {α : Type} {m : NameMap α} {name spelling : String} {value : α}
    (h : m.get? name = some (spelling, value)) :
    Ascii.sameName spelling name = true ∧ m.get? spelling = some (spelling, value) := by
  have hsame : Ascii.sameName spelling name = true := List.find?_some (a := (spelling, value)) h
  exact ⟨hsame, by rw [m.get?_eq_of_sameName hsame, h]⟩

/-- Relationships that a name leads to stand under their spellings in the map. -/
theorem Link.find?_spelling {links : NameMap (Link Table)} {name spelling : String} {link : Link Table}
    (h : Link.find? links name = some (spelling, link)) :
    links.get? spelling = some (spelling, link) ∧ (Ascii.IsName name → Ascii.IsName spelling) := by
  have direct : links.get? (Ascii.upper name) = some (spelling, link) →
      links.get? spelling = some (spelling, link) ∧ (Ascii.IsName name → Ascii.IsName spelling) := by
    intro h
    obtain ⟨hsame, hget⟩ := NameMap.get?_spelling h
    exact ⟨hget, fun hn => Ascii.isName_of_sameName hsame (Ascii.isName_upper hn)⟩
  unfold Link.find? at h
  dsimp only at h
  split at h
  · rename_i stem hstem
    split at h
    · rename_i found hfound
      cases h
      obtain ⟨hsame, hget⟩ := NameMap.get?_spelling hfound
      refine ⟨hget, fun hn => ?_⟩
      exact Ascii.isName_of_sameName hsame (Ascii.isName_of_dropEnding? hstem (Ascii.isName_upper hn))
    · exact direct h
  · exact direct h

end FormulaQuery
