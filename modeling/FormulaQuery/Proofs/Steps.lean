import Mathlib.Data.List.Forall2

/-!
# Steps that can fail

A step gives a result or an error. Two steps succeed one after the other if both do (`bind_eq_ok`), and steps for
all members of a list give their results one by one (`forall₂_of_mapM_eq_ok`, `exists_mapM_eq_ok`). That the members
of two lists correspond is said with `List.Forall₂` throughout.
-/

namespace FormulaQuery

/-! ### One step after another -/

section Bind

variable {ε α β : Type} {x : Except ε α} {f : α → Except ε β} {a : α} {b : β} {e : ε}

/-- A sequence of steps succeeds if both of its parts do. -/
theorem bind_eq_ok (h : (x >>= f) = .ok b) : ∃ a, x = .ok a ∧ f a = .ok b := by
  cases x with
  | error e => cases h
  | ok a => exact ⟨a, rfl, h⟩

theorem bind_of_eq_ok (hx : x = .ok a) (hf : f a = .ok b) : (x >>= f) = .ok b := by
  rw [hx]
  exact hf

/-- A sequence of steps fails where its first part or the rest fails. -/
theorem bind_eq_error (h : (x >>= f) = .error e) : x = .error e ∨ ∃ a, x = .ok a ∧ f a = .error e := by
  cases x with
  | error d =>
    cases h
    exact Or.inl rfl
  | ok a => exact Or.inr ⟨a, rfl, h⟩

theorem bind_of_eq_error (f : α → Except ε β) (hx : x = .error e) : (x >>= f) = .error e := by
  rw [hx]
  rfl

/-- Steps that correspond, after a step that corresponds. -/
theorem bind_of_eq_map {α' β' : Type} {x' : Except ε α'} {g : α → α'} {f' : α' → Except ε β'} {k : β → β'}
    (hx : x' = x.map g) (hf : ∀ a, x = .ok a → f' (g a) = (f a).map k) : x' >>= f' = (x >>= f).map k := by
  subst hx
  cases x with
  | error e => rfl
  | ok a => exact hf a rfl

/-- Steps that correspond, after a step that is the same. -/
theorem bind_of_eq {β' : Type} {f' : α → Except ε β'} {k : β → β'} (hf : ∀ a, x = .ok a → f' a = (f a).map k) :
    x >>= f' = (x >>= f).map k := by
  cases x with
  | error e => rfl
  | ok a => exact hf a rfl

/-- An error is known from what is left of a result without its value. -/
theorem eq_error_of_map {g : α → β} (h : x.map g = .error e) : x = .error e := by
  cases x with
  | error d =>
    cases h
    rfl
  | ok a => cases h

/-- What passes a check is there. -/
theorem exists_of_any_toOption {P : α → Bool} (h : x.toOption.any P = true) : ∃ a, x = .ok a ∧ P a = true := by
  cases x with
  | error e => cases h
  | ok a => exact ⟨a, rfl, h⟩

theorem exists_of_isOk (h : x.isOk = true) : ∃ a, x = .ok a := by
  cases x with
  | error e => cases h
  | ok a => exact ⟨a, rfl⟩

end Bind

/-! ### A step for each member of a list -/

section Traversal

variable {ε α β γ : Type} {as : List α}

/-- Steps that succeed give their results one by one. -/
theorem forall₂_of_mapM_eq_ok {f : α → Except ε β} {bs : List β} (h : as.mapM f = .ok bs) :
    List.Forall₂ (fun a b => f a = .ok b) as bs := by
  induction as generalizing bs with
  | nil =>
    cases h
    exact .nil
  | cons a as ih =>
    rw [List.mapM_cons] at h
    obtain ⟨b, hb, h⟩ := bind_eq_ok h
    obtain ⟨more, hmore, h⟩ := bind_eq_ok h
    cases h
    exact .cons hb (ih hmore)

/-- Steps of which each succeeds, with results of which something is known. -/
theorem exists_mapM_eq_ok {f : α → Except ε β} (g : γ → β) {R : α → γ → Prop}
    (h : ∀ a ∈ as, ∃ c, f a = .ok (g c) ∧ R a c) :
    ∃ cs, as.mapM f = .ok (cs.map g) ∧ List.Forall₂ R as cs := by
  induction as with
  | nil => exact ⟨[], rfl, .nil⟩
  | cons a as ih =>
    obtain ⟨c, hc, hr⟩ := h a List.mem_cons_self
    obtain ⟨cs, hcs, hall⟩ := ih fun b hb => h b (List.mem_cons_of_mem _ hb)
    refine ⟨c :: cs, ?_, .cons hr hall⟩
    rw [List.mapM_cons, hc, hcs]
    rfl

/-- Steps of which each succeeds succeed together. -/
theorem mapM_eq_ok_map {f : α → Except ε β} {g : α → β} (h : ∀ a ∈ as, f a = .ok (g a)) :
    as.mapM f = .ok (as.map g) := by
  induction as with
  | nil => rfl
  | cons a as ih =>
    obtain ⟨ha, has⟩ := List.forall_mem_cons.1 h
    rw [List.mapM_cons]
    exact bind_of_eq_ok ha (bind_of_eq_ok (ih has) rfl)

theorem foldlM_eq_ok {f : β → α → Except ε β} {g : β → α → β} (h : ∀ a ∈ as, ∀ b, f b a = .ok (g b a)) (b : β) :
    as.foldlM f b = .ok (as.foldl g b) := by
  induction as generalizing b with
  | nil => rfl
  | cons a as ih =>
    rw [List.foldlM_cons, h a List.mem_cons_self b]
    exact ih (fun c hc => h c (List.mem_cons_of_mem _ hc)) (g b a)

/-- Steps that give what `g` gives whenever they succeed. -/
theorem eq_foldl_of_foldlM {f : β → α → Except ε β} {g : β → α → β} (h : ∀ b a c, f b a = .ok c → c = g b a) {b c : β}
    (hf : as.foldlM f b = .ok c) : c = as.foldl g b := by
  induction as generalizing b with
  | nil =>
    cases hf
    rfl
  | cons a as ih =>
    rw [List.foldlM_cons] at hf
    obtain ⟨d, hd, hf⟩ := bind_eq_ok hf
    rw [List.foldl_cons, ← h b a d hd]
    exact ih hf

/-- Steps that only fail in one way only fail in this way together. -/
theorem of_foldlM_eq_error {f : β → α → Except ε β} (P : ε → Prop) (h : ∀ b a e, f b a = .error e → P e) {b : β}
    {e : ε} (hf : as.foldlM f b = .error e) : P e := by
  induction as generalizing b with
  | nil => cases hf
  | cons a as ih =>
    rw [List.foldlM_cons] at hf
    rcases bind_eq_error hf with hf | ⟨c, -, hf⟩
    · exact h b a e hf
    · exact ih hf

/-- One step that always fails makes all fail. -/
theorem exists_foldlM_eq_error (f : β → α → Except ε β) {a : α} (ha : a ∈ as) (h : ∀ b, ∃ e, f b a = .error e)
    (b : β) : ∃ e, as.foldlM f b = .error e := by
  induction as generalizing b with
  | nil => cases ha
  | cons a' as ih =>
    rw [List.foldlM_cons]
    cases hstep : f b a' with
    | error e => exact ⟨e, rfl⟩
    | ok c =>
      rcases List.mem_cons.1 ha with rfl | ha
      · obtain ⟨e, he⟩ := h b
        rw [hstep] at he
        cases he
      · exact ih ha c

end Traversal

/-! ### Lists member by member -/

section Members

variable {α β γ : Type} {R : α → β → Prop} {as : List α} {bs : List β}

/-- Every member of the first list has its partner in the second one. -/
theorem exists_mem_of_forall₂ (h : List.Forall₂ R as bs) {a : α} (ha : a ∈ as) : ∃ b ∈ bs, R a b := by
  induction h with
  | nil => cases ha
  | cons hab _ ih =>
    rcases List.mem_cons.1 ha with rfl | ha
    · exact ⟨_, List.mem_cons_self, hab⟩
    · obtain ⟨b, hb, hab⟩ := ih ha
      exact ⟨b, List.mem_cons_of_mem _ hb, hab⟩

theorem exists_forall₂ (h : ∀ b ∈ bs, ∃ a, R a b) : ∃ as, List.Forall₂ R as bs := by
  induction bs with
  | nil => exact ⟨[], .nil⟩
  | cons b bs ih =>
    obtain ⟨a, ha⟩ := h b List.mem_cons_self
    obtain ⟨as, has⟩ := ih fun c hc => h c (List.mem_cons_of_mem _ hc)
    exact ⟨a :: as, .cons ha has⟩

theorem map_eq_map_of_forall₂ {f : α → γ} {g : β → γ} (h : List.Forall₂ (fun a b => f a = g b) as bs) :
    as.map f = bs.map g := by
  rw [← List.forall₂_eq_eq_eq, List.forall₂_map_left_iff, List.forall₂_map_right_iff]
  exact h

theorem flatMap_eq_flatMap_of_forall₂ {f : α → List γ} {g : β → List γ}
    (h : List.Forall₂ (fun a b => f a = g b) as bs) : as.flatMap f = bs.flatMap g := by
  rw [List.flatMap_def, List.flatMap_def, map_eq_map_of_forall₂ h]

/-- What follows from the relation for members follows for the lists. -/
theorem forall₂_imp_of_mem {S : α → β → Prop} (h : List.Forall₂ R as bs)
    (himp : ∀ a ∈ as, ∀ b ∈ bs, R a b → S a b) : List.Forall₂ S as bs := by
  obtain ⟨hlength, h⟩ := List.forall₂_iff_zip.1 h
  refine List.forall₂_iff_zip.2 ⟨hlength, ?_⟩
  intro a b hx
  obtain ⟨ha, hb⟩ := List.of_mem_zip hx
  exact himp a ha b hb (h hx)

theorem forall₂_and {S : α → β → Prop} (h : List.Forall₂ R as bs) (h' : List.Forall₂ S as bs) :
    List.Forall₂ (fun a b => R a b ∧ S a b) as bs := by
  rw [List.forall₂_iff_zip] at *
  exact ⟨h.1, fun hx => ⟨h.2 hx, h'.2 hx⟩⟩

theorem forall₂_comp {S : β → γ → Prop} {cs : List γ} (h : List.Forall₂ R as bs) (h' : List.Forall₂ S bs cs) :
    List.Forall₂ (fun a c => ∃ b, R a b ∧ S b c) as cs := by
  induction h generalizing cs with
  | nil =>
    cases h'
    exact .nil
  | cons hab _ ih =>
    cases h' with
    | cons hbc h' => exact .cons ⟨_, hab, hbc⟩ (ih h')

theorem forall_mem_of_zip {P : β → Prop} (hl : as.length = bs.length) (h : ∀ x ∈ as.zip bs, P x.2) :
    ∀ b ∈ bs, P b := by
  rw [← List.map_snd_zip (Nat.le_of_eq hl.symm), List.forall_mem_map]
  exact h

/-- What depends on the places of members alone. -/
theorem map_mapIdx {f : Nat → α → β} {g : β → γ} {name : Nat → γ} (as : List α) (h : ∀ i a, g (f i a) = name i) :
    (as.mapIdx f).map g = (List.range as.length).map name := by
  apply List.ext_getElem
  · simp
  · intro i h₁ h₂
    simp [h]

end Members

end FormulaQuery
