import FormulaQuery.Proofs.Names
import Mathlib.Data.Finset.Card
import Mathlib.Data.List.Induction
import Mathlib.Data.List.Nodup

/-!
# What a map keeps of its insertions

Columns and relationships are put into their maps one after another, and names that differ only in case displace
each other. An insertion changes what is found under its own name (`NameMap.get?_insert`), and it adds a name to the
list of names only if the list has none that is the same (`NameMap.map_lower_names_insert`). So a map tells the
first insertions of names by the order of its entries and their last insertions by the entries themselves
(`NameMap.ofList_keeps_insertions`).
-/

namespace FormulaQuery

/-! ### The place of an insertion -/

section Place

variable {α : Type} {same : String → String → Bool} {name : String} {value : α} {es : List (String × α)}

/-- An entry is put in the place of the first one with the same name, or else at the end. -/
theorem replaceOrAppend_cases (same : String → String → Bool) (name : String) (value : α) (es : List (String × α)) :
    ∃ front back, replaceOrAppend same name value es = front ++ (name, value) :: back ∧
      (∀ e ∈ front, same e.1 name = false) ∧
      (es = front ∧ back = [] ∨ ∃ old, same old.1 name = true ∧ es = front ++ old :: back) := by
  induction es with
  | nil => exact ⟨[], [], rfl, by simp, Or.inl ⟨rfl, rfl⟩⟩
  | cons e es ih =>
    by_cases he : same e.1 name = true
    · exact ⟨[], es, by simp [replaceOrAppend, he], by simp, Or.inr ⟨e, he, rfl⟩⟩
    · obtain ⟨front, back, hput, hfront, hes⟩ := ih
      refine ⟨e :: front, back, by simp [replaceOrAppend, he, hput], ?_, ?_⟩
      · simpa [he] using hfront
      · rcases hes with ⟨rfl, hback⟩ | ⟨old, hold, rfl⟩
        · exact Or.inl ⟨rfl, hback⟩
        · exact Or.inr ⟨old, hold, rfl⟩

/-- A name that no entry has goes to the end. -/
theorem replaceOrAppend_of_new (h : ∀ e ∈ es, same e.1 name = false) :
    replaceOrAppend same name value es = es ++ [(name, value)] := by
  obtain ⟨front, back, hput, -, ⟨rfl, rfl⟩ | ⟨old, hold, rfl⟩⟩ := replaceOrAppend_cases same name value es
  · exact hput
  · have hnot := h old (by simp)
    rw [hold] at hnot
    cases hnot

theorem mem_replaceOrAppend {e : String × α} (h : e ∈ replaceOrAppend same name value es) :
    e = (name, value) ∨ e ∈ es := by
  obtain ⟨front, back, hput, -, ⟨rfl, rfl⟩ | ⟨old, -, rfl⟩⟩ := replaceOrAppend_cases same name value es
  · rw [hput] at h
    simpa [or_comm] using h
  · rw [hput] at h
    simp only [List.mem_append, List.mem_cons] at h ⊢
    tauto

/-- Where names are the same by their keys, an entry adds its key unless the key is there. -/
theorem map_key_replaceOrAppend (key : String → String) (hsame : ∀ a b, same a b = true ↔ key a = key b) :
    ((replaceOrAppend same name value es).map fun e => key e.1) =
      if key name ∈ es.map fun e => key e.1 then es.map fun e => key e.1
      else (es.map fun e => key e.1) ++ [key name] := by
  obtain ⟨front, back, hput, hfront, ⟨rfl, rfl⟩ | ⟨old, hold, rfl⟩⟩ := replaceOrAppend_cases same name value es
  · have hnew : key name ∉ es.map fun e => key e.1 := by
      rw [List.mem_map]
      rintro ⟨e, he, hkey⟩
      have hnot := hfront e he
      rw [(hsame e.1 name).2 hkey] at hnot
      cases hnot
    rw [if_neg hnew, hput, List.map_append]
    rfl
  · have hkey := (hsame old.1 name).1 hold
    have hthere : key name ∈ (front ++ old :: back).map fun e => key e.1 := by
      simp [hkey]
    rw [if_pos hthere, hput]
    simp [hkey]

theorem replaceOrAppend_ne_nil (same : String → String → Bool) (name : String) (value : α) (es : List (String × α)) :
    replaceOrAppend same name value es ≠ [] := by
  obtain ⟨front, back, hput, -⟩ := replaceOrAppend_cases same name value es
  simp [hput]

end Place

/-! ### The order of first places -/

/-- `keys` has the members of `log`, ordered by the places where `log` has them first. -/
structure InFirstOrder (keys log : List String) : Prop where
  mem_iff : ∀ key, key ∈ keys ↔ key ∈ log
  ordered : keys.Pairwise fun key later => log.idxOf key < log.idxOf later

namespace InFirstOrder

variable {keys log : List String} {key : String}

theorem nil : InFirstOrder [] [] := ⟨fun _ => Iff.rfl, List.Pairwise.nil⟩

theorem nodup (h : InFirstOrder keys log) : keys.Nodup :=
  h.ordered.imp fun hlt heq => absurd (heq ▸ hlt) (lt_irrefl _)

/-- First places do not change when something is written behind. -/
private theorem ordered_append (h : InFirstOrder keys log) (more : List String) :
    keys.Pairwise fun key later => (log ++ more).idxOf key < (log ++ more).idxOf later := by
  refine h.ordered.imp_of_mem ?_
  intro key later hkey hlater hlt
  rw [List.idxOf_append_of_mem ((h.mem_iff key).1 hkey), List.idxOf_append_of_mem ((h.mem_iff later).1 hlater)]
  exact hlt

/-- What has been there before keeps its place. -/
theorem again (h : InFirstOrder keys log) (hkey : key ∈ keys) : InFirstOrder keys (log ++ [key]) := by
  refine ⟨?_, h.ordered_append [key]⟩
  intro k
  have hlog := (h.mem_iff key).1 hkey
  rw [h.mem_iff, List.mem_append, List.mem_singleton]
  constructor
  · exact Or.inl
  · rintro (hk | rfl)
    · exact hk
    · exact hlog

/-- What has not been there before comes last. -/
theorem new (h : InFirstOrder keys log) (hkey : key ∉ keys) : InFirstOrder (keys ++ [key]) (log ++ [key]) := by
  have hlog : key ∉ log := fun hmem => hkey ((h.mem_iff key).2 hmem)
  constructor
  · intro k
    simp [h.mem_iff]
  · rw [List.pairwise_append]
    refine ⟨h.ordered_append [key], List.pairwise_singleton _ _, ?_⟩
    intro k hk later hlater
    rw [List.mem_singleton] at hlater
    subst hlater
    have hk' := (h.mem_iff k).1 hk
    have hplace := List.idxOf_lt_length_of_mem hk'
    rw [List.idxOf_append_of_mem hk', List.idxOf_append_of_notMem hlog]
    omega

theorem length_eq (h : InFirstOrder keys log) : keys.length = log.toFinset.card := by
  have hset : keys.toFinset = log.toFinset := by
    ext key
    simp [h.mem_iff]
  rw [← hset, List.toFinset_card_of_nodup h.nodup]

end InFirstOrder

namespace NameMap

variable {α : Type}

/-! ### One insertion -/

/-- An insertion is found under its name, and all other names lead to what they led to. -/
theorem get?_insert (m : NameMap α) (name : String) (value : α) (x : String) :
    (m.insert name value).get? x = if Ascii.sameName name x then some (name, value) else m.get? x := by
  obtain ⟨front, back, hput, hfront, hes⟩ := replaceOrAppend_cases Ascii.sameName name value m.entries
  have hentries : (m.insert name value).entries = front ++ (name, value) :: back := hput
  rw [get?, hentries, List.find?_append, List.find?_cons]
  by_cases hx : Ascii.sameName name x = true
  · -- what stands before the insertion has other names
    have hnone : (front.find? fun e => Ascii.sameName e.1 x) = none := by
      rw [List.find?_eq_none]
      intro e he
      rw [← Ascii.sameName_trans_right hx, hfront e he]
      exact Bool.false_ne_true
    simp [hx, hnone]
  · rw [Bool.not_eq_true] at hx
    rw [get?]
    rcases hes with ⟨hm, rfl⟩ | ⟨old, hold, hm⟩
    · simp [hm, hx]
    · -- the entry that is replaced was not found under `x` either
      have hold' : Ascii.sameName old.1 x = false := by
        rw [Ascii.sameName, Ascii.sameName_iff.1 hold]
        exact hx
      simp [hm, hx, hold']

/-- An insertion adds its name unless the same name is there. -/
theorem map_lower_names_insert (m : NameMap α) (name : String) (value : α) :
    (m.insert name value).names.map Ascii.lower =
      if Ascii.lower name ∈ m.names.map Ascii.lower then m.names.map Ascii.lower
      else m.names.map Ascii.lower ++ [Ascii.lower name] := by
  rw [names, names, List.map_map, List.map_map]
  exact map_key_replaceOrAppend Ascii.lower fun _ _ => Ascii.sameName_iff

/-! ### One insertion after another -/

theorem ofList_append_singleton (es : List (String × α)) (e : String × α) :
    ofList (es ++ [e]) = (ofList es).insert e.1 e.2 := by
  simp [ofList]

/-- The names of entries, with their ASCII capitals made small. -/
def foldedNames (es : List (String × α)) : List String := es.map fun e => Ascii.lower e.1

/-- The last entry whose name is the same as `name`. -/
def lastNamed? (es : List (String × α)) (name : String) : Option (String × α) :=
  es.reverse.find? fun e => Ascii.sameName e.1 name

/-- The last insertion under a name is what the name leads to. -/
theorem get?_ofList (es : List (String × α)) (name : String) : (ofList es).get? name = lastNamed? es name := by
  induction es using List.reverseRecOn with
  | nil => rfl
  | append_singleton es e ih =>
    rw [ofList_append_singleton, get?_insert, ih]
    by_cases he : Ascii.sameName e.1 name = true
    · simp [lastNamed?, he]
    · simp [lastNamed?, he]

/-- Names are listed in the order of their first insertions. -/
theorem inFirstOrder_ofList (es : List (String × α)) :
    InFirstOrder ((ofList es).names.map Ascii.lower) (foldedNames es) := by
  induction es using List.reverseRecOn with
  | nil => exact .nil
  | append_singleton es e ih =>
    have hlog : foldedNames (es ++ [e]) = foldedNames es ++ [Ascii.lower e.1] := List.map_append
    rw [ofList_append_singleton, map_lower_names_insert, hlog]
    by_cases he : Ascii.lower e.1 ∈ (ofList es).names.map Ascii.lower
    · rw [if_pos he]
      exact ih.again he
    · rw [if_neg he]
      exact ih.new he

/-- Where names stand once, an entry is found under its own name. -/
theorem get?_of_mem {m : NameMap α} (h : (m.names.map Ascii.lower).Nodup) {e : String × α} (he : e ∈ m.entries) :
    m.get? e.1 = some e := by
  rw [names, List.map_map] at h
  have hsome : (m.get? e.1).isSome = true := by
    rw [get?, List.find?_isSome]
    exact ⟨e, he, Ascii.sameName_iff.2 rfl⟩
  obtain ⟨found, hfound⟩ := Option.isSome_iff_exists.1 hsome
  have hmem : found ∈ m.entries := List.mem_of_find?_eq_some hfound
  have hsame := (get?_spelling hfound).1
  rw [hfound, List.inj_on_of_nodup_map h hmem he (Ascii.sameName_iff.1 hsame)]

/-- After any insertions into the empty map, names that differ in case at most are listed once, in the order of
their first insertions and as they were last spelled; each name leads to the last insertion under it, if there is
one; and the size is the number of different names. -/
theorem ofList_keeps_insertions (es : List (String × α)) :
    ((ofList es).names.map Ascii.lower).Nodup ∧
      (∀ key, key ∈ (ofList es).names.map Ascii.lower ↔ key ∈ foldedNames es) ∧
      ((ofList es).names.map Ascii.lower).Pairwise
        (fun key later => (foldedNames es).idxOf key < (foldedNames es).idxOf later) ∧
      (∀ name ∈ (ofList es).names, ∃ value, lastNamed? es name = some (name, value)) ∧
      (∀ name, (ofList es).get? name = lastNamed? es name) ∧
      (ofList es).size = (foldedNames es).toFinset.card := by
  have horder := inFirstOrder_ofList es
  refine ⟨horder.nodup, horder.mem_iff, horder.ordered, ?_, get?_ofList es, ?_⟩
  · intro name hname
    obtain ⟨e, he, rfl⟩ := List.mem_map.1 hname
    exact ⟨e.2, by rw [← get?_ofList, get?_of_mem horder.nodup he]⟩
  · have hlength := horder.length_eq
    rw [names, List.length_map, List.length_map] at hlength
    exact hlength

example : (ofList [("Total", 1), ("name", 2), ("TOTAL", 3)]).entries = [("TOTAL", 3), ("name", 2)] := by decide

end NameMap

end FormulaQuery
