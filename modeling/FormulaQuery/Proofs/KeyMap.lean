import FormulaQuery.KeyMap

/-!
# Maps keyed by identifiers

Joins and aggregates are kept under their own identifiers. Such a map is a set of values: where values with equal
identifiers are equal, adding a value and joining two maps are the insertion and the union of sets
(`mem_values_insertNew`, `Collects.mem_values_union`), and looking up an identifier finds its value
(`Keyed.find?_eq_some_iff`).
-/

namespace FormulaQuery.KeyMap

variable {α : Type} {id : α → String} {m n : KeyMap α}

/-- The keys ascend, and each value stands under its own identifier. -/
structure Keyed (id : α → String) (m : KeyMap α) : Prop where
  ascending : m.entries.Pairwise fun a b => a.1 < b.1
  key_eq : ∀ e ∈ m.entries, e.1 = id e.2

/-! ### Placing an entry -/

theorem mem_place {key : String} {value : α} {es : List (String × α)} {e : String × α}
    (h : e ∈ place key value es) : e = (key, value) ∨ e ∈ es := by
  induction es with
  | nil => exact Or.inl (List.mem_singleton.1 h)
  | cons d es ih =>
    unfold place at h
    split at h
    · exact List.mem_cons.1 h
    · split at h
      · rcases List.mem_cons.1 h with h | h
        · exact Or.inl h
        · exact Or.inr (List.mem_cons_of_mem _ h)
      · rcases List.mem_cons.1 h with rfl | h
        · exact Or.inr List.mem_cons_self
        · rcases ih h with h | h
          · exact Or.inl h
          · exact Or.inr (List.mem_cons_of_mem _ h)

private theorem mem_place_self (key : String) (value : α) (es : List (String × α)) :
    (key, value) ∈ place key value es := by
  induction es with
  | nil => exact List.mem_cons_self
  | cons d es ih =>
    unfold place
    split
    · exact List.mem_cons_self
    · split
      · exact List.mem_cons_self
      · exact List.mem_cons_of_mem _ ih

private theorem mem_place_of_ne {key : String} {value : α} {es : List (String × α)} {e : String × α}
    (h : e ∈ es) (hk : e.1 ≠ key) : e ∈ place key value es := by
  induction es with
  | nil => cases h
  | cons d es ih =>
    unfold place
    split
    · exact List.mem_cons_of_mem _ h
    · split
      · rename_i hd
        rcases List.mem_cons.1 h with rfl | h
        · exact absurd hd.symm hk
        · exact List.mem_cons_of_mem _ h
      · rcases List.mem_cons.1 h with rfl | h
        · exact List.mem_cons_self
        · exact List.mem_cons_of_mem _ (ih h)

theorem place_ascending {key : String} {value : α} {es : List (String × α)}
    (h : es.Pairwise fun a b => a.1 < b.1) : (place key value es).Pairwise fun a b => a.1 < b.1 := by
  induction es with
  | nil => exact List.pairwise_singleton _ _
  | cons d es ih =>
    rw [List.pairwise_cons] at h
    unfold place
    split
    · rename_i hlt
      rw [List.pairwise_cons, List.pairwise_cons]
      refine ⟨?_, h.1, h.2⟩
      intro e he
      rcases List.mem_cons.1 he with rfl | he
      · exact hlt
      · exact String.lt_trans hlt (h.1 e he)
    · split
      · rename_i heq
        rw [List.pairwise_cons]
        refine ⟨?_, h.2⟩
        intro e he
        rw [heq]
        exact h.1 e he
      · rename_i hnlt hne
        rw [List.pairwise_cons]
        refine ⟨?_, ih h.2⟩
        intro e he
        rcases mem_place he with rfl | he
        · exact Std.lt_of_le_of_ne (String.not_lt.1 hnlt) (Ne.symm hne)
        · exact h.1 e he

/-! ### Looking up -/

/-- Where no key stands twice, a key leads to the one entry that has it. -/
theorem lookup_of_mem {es : List (String × α)} (h : (es.map (·.1)).Nodup) {e : String × α} (he : e ∈ es) :
    es.lookup e.1 = some e.2 := by
  induction es with
  | nil => cases he
  | cons d es ih =>
    rw [List.map_cons, List.nodup_cons] at h
    obtain ⟨k, v⟩ := d
    rcases List.mem_cons.1 he with rfl | he'
    · exact List.lookup_cons_self
    · have hne : (e.1 == k) = false := by
        rw [beq_eq_false_iff_ne]
        intro heq
        exact h.1 (List.mem_map.2 ⟨e, he', heq⟩)
      rw [List.lookup_cons, hne]
      exact ih h.2 he'

theorem mem_of_lookup {es : List (String × α)} {key : String} {value : α}
    (h : es.lookup key = some value) : (key, value) ∈ es := by
  obtain ⟨l₁, l₂, rfl, -⟩ := List.lookup_eq_some_iff.1 h
  exact List.mem_append_right _ List.mem_cons_self

private theorem Keyed.nodup_keys (hm : m.Keyed id) : (m.entries.map (·.1)).Nodup := by
  rw [List.nodup_iff_pairwise_ne, List.pairwise_map]
  refine hm.ascending.imp ?_
  intro a b hlt heq
  rw [heq] at hlt
  exact String.lt_irrefl _ hlt

theorem Keyed.mem_entries (hm : m.Keyed id) {a : α} (h : a ∈ m.values) : (id a, a) ∈ m.entries := by
  obtain ⟨e, he, rfl⟩ := List.mem_map.1 h
  rw [← hm.key_eq e he]
  exact he

theorem Keyed.mem_keys (hm : m.Keyed id) {k : String} : k ∈ m.keys ↔ ∃ a ∈ m.values, id a = k := by
  constructor
  · intro h
    obtain ⟨e, he, rfl⟩ := List.mem_map.1 h
    exact ⟨e.2, List.mem_map_of_mem he, (hm.key_eq e he).symm⟩
  · rintro ⟨a, ha, rfl⟩
    exact List.mem_map_of_mem (hm.mem_entries ha)

/-- An identifier leads to the value that has it. -/
theorem Keyed.find?_eq_some_iff (hm : m.Keyed id) {key : String} {a : α} :
    m.find? key = some a ↔ a ∈ m.values ∧ id a = key := by
  constructor
  · intro h
    have he := mem_of_lookup h
    exact ⟨List.mem_map_of_mem he, (hm.key_eq _ he).symm⟩
  · rintro ⟨ha, rfl⟩
    exact lookup_of_mem hm.nodup_keys (hm.mem_entries ha)

/-- A map has one value for each identifier. -/
theorem Keyed.eq_of_id_eq (hm : m.Keyed id) {a b : α} (ha : a ∈ m.values) (hb : b ∈ m.values) (h : id a = id b) :
    a = b := by
  have ea := hm.find?_eq_some_iff.2 ⟨ha, h⟩
  have eb := hm.find?_eq_some_iff.2 ⟨hb, rfl⟩
  rw [ea] at eb
  exact Option.some.inj eb

theorem Keyed.nodup_values (hm : m.Keyed id) : (m.values.map id).Nodup := by
  have hkeys : m.values.map id = m.entries.map (·.1) := by
    rw [values, List.map_map]
    apply List.map_congr_left
    intro e he
    exact (hm.key_eq e he).symm
  rw [hkeys]
  exact hm.nodup_keys

/-! ### Adding values -/

theorem keyed_empty : (empty : KeyMap α).Keyed id := ⟨List.Pairwise.nil, fun _ h => by cases h⟩

@[simp] theorem values_empty : (empty : KeyMap α).values = [] := rfl

theorem mem_entries_insertNew {key : String} {value : α} {e : String × α}
    (h : e ∈ (m.insertNew key value).entries) : e = (key, value) ∨ e ∈ m.entries := by
  unfold KeyMap.insertNew at h
  split at h
  · exact Or.inr h
  · exact mem_place h

theorem Keyed.insertNew (hm : m.Keyed id) (a : α) : (m.insertNew (id a) a).Keyed id := by
  unfold KeyMap.insertNew
  split
  · exact hm
  · refine ⟨place_ascending hm.ascending, ?_⟩
    intro e he
    rcases mem_place he with rfl | he
    · rfl
    · exact hm.key_eq e he

/-- Adding a value to a map in which no other value has its identifier. -/
theorem mem_values_insertNew (hm : m.Keyed id) {a : α} (ha : ∀ b ∈ m.values, id b = id a → b = a) {x : α} :
    x ∈ (m.insertNew (id a) a).values ↔ x = a ∨ x ∈ m.values := by
  unfold KeyMap.insertNew
  split
  · rename_i h
    obtain ⟨b, hb⟩ := Option.isSome_iff_exists.1 h
    obtain ⟨hbm, hid⟩ := hm.find?_eq_some_iff.1 hb
    refine ⟨Or.inr, ?_⟩
    rintro (rfl | hx)
    · rwa [← ha b hbm hid]
    · exact hx
  · rename_i h
    constructor
    · intro hx
      obtain ⟨e, he, rfl⟩ := List.mem_map.1 hx
      rcases mem_place he with rfl | he
      · exact Or.inl rfl
      · exact Or.inr (List.mem_map_of_mem he)
    · rintro (rfl | hx)
      · exact List.mem_map.2 ⟨_, mem_place_self _ _ _, rfl⟩
      · refine List.mem_map.2 ⟨_, mem_place_of_ne (hm.mem_entries hx) ?_, rfl⟩
        intro hid
        exact h (Option.isSome_iff_exists.2 ⟨x, hm.find?_eq_some_iff.2 ⟨hx, hid⟩⟩)

/-- Values in a list are added one by one. -/
def insertAll (id : α → String) (m : KeyMap α) (as : List α) : KeyMap α :=
  as.foldl (fun m a => m.insertNew (id a) a) m

theorem Keyed.insertAll (hm : m.Keyed id) (as : List α) : (m.insertAll id as).Keyed id := by
  induction as generalizing m with
  | nil => exact hm
  | cons a as ih => exact ih (hm.insertNew a)

theorem mem_of_mem_insertAll {as : List α} {x : α} (h : x ∈ (m.insertAll id as).values) : x ∈ m.values ∨ x ∈ as := by
  induction as generalizing m with
  | nil => exact Or.inl h
  | cons a as ih =>
    rcases ih h with h | h
    · obtain ⟨e, he, rfl⟩ := List.mem_map.1 h
      rcases mem_entries_insertNew he with rfl | he
      · exact Or.inr List.mem_cons_self
      · exact Or.inl (List.mem_map_of_mem he)
    · exact Or.inr (List.mem_cons_of_mem _ h)

theorem mem_values_insertAll {P : α → Prop} (hP : ∀ a b, P a → P b → id a = id b → a = b) (hm : m.Keyed id)
    (hmP : ∀ a ∈ m.values, P a) {as : List α} (has : ∀ a ∈ as, P a) {x : α} :
    x ∈ (m.insertAll id as).values ↔ x ∈ m.values ∨ x ∈ as := by
  induction as generalizing m with
  | nil => simp [KeyMap.insertAll]
  | cons a as ih =>
    have ha : P a := has a List.mem_cons_self
    have hmem : ∀ y, y ∈ (m.insertNew (id a) a).values ↔ y = a ∨ y ∈ m.values := fun y =>
      mem_values_insertNew hm fun b hb hid => hP b a (hmP b hb) ha hid
    have hP' : ∀ y ∈ (m.insertNew (id a) a).values, P y := by
      intro y hy
      rcases (hmem y).1 hy with rfl | hy
      · exact ha
      · exact hmP y hy
    have step := ih (hm.insertNew a) hP' (fun b hb => has b (List.mem_cons_of_mem _ hb))
    rw [show m.insertAll id (a :: as) = (m.insertNew (id a) a).insertAll id as from rfl, step, hmem x, List.mem_cons,
      or_comm (a := x = a), or_assoc]

theorem union_eq_insertAll (hn : n.Keyed id) : m.union n = m.insertAll id n.values := by
  have step : ∀ (es : List (String × α)) (m : KeyMap α), (∀ e ∈ es, e.1 = id e.2) →
      es.foldl (fun m e => m.insertNew e.1 e.2) m = m.insertAll id (es.map (·.2)) := by
    intro es
    induction es with
    | nil => intro m _; rfl
    | cons e es ih =>
      intro m h
      rw [List.foldl_cons, h e List.mem_cons_self, ih _ fun d hd => h d (List.mem_cons_of_mem _ hd)]
      rfl
  exact step n.entries m hn.key_eq

theorem Keyed.union (hm : m.Keyed id) (hn : n.Keyed id) : (m.union n).Keyed id := by
  rw [union_eq_insertAll hn]
  exact hm.insertAll _

/-! ### Maps of values that are known by their identifiers -/

/-- A keyed map whose values all belong to one class. -/
structure Collects (id : α → String) (P : α → Prop) (m : KeyMap α) : Prop extends Keyed id m where
  all : ∀ a ∈ m.values, P a

variable {P : α → Prop}

theorem collects_empty : (empty : KeyMap α).Collects id P := ⟨keyed_empty, nofun⟩

theorem Collects.insertNew (hm : m.Collects id P) {a : α} (ha : P a) : (m.insertNew (id a) a).Collects id P := by
  refine ⟨hm.toKeyed.insertNew a, fun x hx => ?_⟩
  obtain ⟨e, he, rfl⟩ := List.mem_map.1 hx
  rcases mem_entries_insertNew he with rfl | he
  · exact ha
  · exact hm.all _ (List.mem_map_of_mem he)

theorem Collects.insertAll (hm : m.Collects id P) {as : List α} (has : ∀ a ∈ as, P a) :
    (m.insertAll id as).Collects id P := by
  induction as generalizing m with
  | nil => exact hm
  | cons a as ih =>
    obtain ⟨ha, has⟩ := List.forall_mem_cons.1 has
    exact ih (hm.insertNew ha) has

theorem collects_insertAll (hP : ∀ a b, P a → P b → id a = id b → a = b) {as : List α} (has : ∀ a ∈ as, P a) :
    (empty.insertAll id as).Collects id P ∧ ∀ x, x ∈ (empty.insertAll id as).values ↔ x ∈ as := by
  have hmem : ∀ x, x ∈ (empty.insertAll id as).values ↔ x ∈ as := by
    intro x
    rw [mem_values_insertAll hP keyed_empty nofun has, values_empty]
    simp
  exact ⟨⟨keyed_empty.insertAll as, fun a ha => has a ((hmem a).1 ha)⟩, hmem⟩

theorem Collects.mem_values_union (hP : ∀ a b, P a → P b → id a = id b → a = b) (hm : m.Collects id P)
    (hn : n.Collects id P) {x : α} : x ∈ (m.union n).values ↔ x ∈ m.values ∨ x ∈ n.values := by
  rw [union_eq_insertAll hn.toKeyed]
  exact mem_values_insertAll hP hm.toKeyed hm.all hn.all

theorem Collects.union (hm : m.Collects id P) (hn : n.Collects id P) : (m.union n).Collects id P := by
  rw [union_eq_insertAll hn.toKeyed]
  exact hm.insertAll hn.all

theorem Collects.foldl_union {β : Type} (f : β → KeyMap α) (hP : ∀ a b, P a → P b → id a = id b → a = b)
    (hm : m.Collects id P) {bs : List β} (h : ∀ b ∈ bs, (f b).Collects id P) :
    (bs.foldl (fun m b => m.union (f b)) m).Collects id P ∧
      ∀ x, x ∈ (bs.foldl (fun m b => m.union (f b)) m).values ↔ x ∈ m.values ∨ ∃ b ∈ bs, x ∈ (f b).values := by
  induction bs generalizing m with
  | nil => exact ⟨hm, fun x => by simp⟩
  | cons b bs ih =>
    have hb := h b List.mem_cons_self
    obtain ⟨hcollects, hmem⟩ := ih (hm.union hb) fun c hc => h c (List.mem_cons_of_mem _ hc)
    refine ⟨hcollects, fun x => ?_⟩
    rw [List.foldl_cons, hmem x, hm.mem_values_union hP hb]
    simp [or_assoc]

/-! ### Entries and keys -/

private theorem mem_map_place {key k : String} {value : α} {es : List (String × α)} :
    k ∈ (place key value es).map (·.1) ↔ k = key ∨ k ∈ es.map (·.1) := by
  induction es with
  | nil => simp [place]
  | cons d es ih =>
    unfold place
    split
    · simp
    · split
      · rename_i h
        simp [h]
      · rw [List.map_cons, List.mem_cons, ih, List.map_cons, List.mem_cons]
        exact or_left_comm

theorem mem_keys_insertNew {key k : String} {value : α} :
    k ∈ (m.insertNew key value).keys ↔ k = key ∨ k ∈ m.keys := by
  unfold KeyMap.insertNew
  split
  · rename_i h
    obtain ⟨found, hfound⟩ := Option.isSome_iff_exists.1 h
    refine (or_iff_right_of_imp ?_).symm
    rintro rfl
    exact List.mem_map_of_mem (mem_of_lookup hfound)
  · exact mem_map_place

theorem mem_entries_union {e : String × α} (h : e ∈ (m.union n).entries) : e ∈ m.entries ∨ e ∈ n.entries := by
  obtain ⟨es⟩ := n
  induction es generalizing m with
  | nil => exact Or.inl h
  | cons d es ih =>
    rcases ih h with h | h
    · rcases mem_entries_insertNew h with rfl | h
      · exact Or.inr List.mem_cons_self
      · exact Or.inl h
    · exact Or.inr (List.mem_cons_of_mem _ h)

theorem mem_keys_union {k : String} : k ∈ (m.union n).keys ↔ k ∈ m.keys ∨ k ∈ n.keys := by
  obtain ⟨es⟩ := n
  induction es generalizing m with
  | nil => simp [union, keys]
  | cons d es ih =>
    rw [show m.union ⟨d :: es⟩ = (m.insertNew d.1 d.2).union ⟨es⟩ from rfl, ih, mem_keys_insertNew,
      or_comm (a := k = d.1), or_assoc, keys, keys, keys, List.map_cons, List.mem_cons]

section

variable {β : Type} (f : β → KeyMap α) {bs : List β}

theorem mem_entries_foldl_union {e : String × α} (h : e ∈ (bs.foldl (fun m b => m.union (f b)) m).entries) :
    e ∈ m.entries ∨ ∃ b ∈ bs, e ∈ (f b).entries := by
  induction bs generalizing m with
  | nil => exact Or.inl h
  | cons b bs ih =>
    rcases ih h with h | ⟨c, hc, h⟩
    · rcases mem_entries_union h with h | h
      · exact Or.inl h
      · exact Or.inr ⟨b, List.mem_cons_self, h⟩
    · exact Or.inr ⟨c, List.mem_cons_of_mem _ hc, h⟩

theorem mem_keys_foldl_union {k : String} :
    k ∈ (bs.foldl (fun m b => m.union (f b)) m).keys ↔ k ∈ m.keys ∨ ∃ b ∈ bs, k ∈ (f b).keys := by
  induction bs generalizing m with
  | nil => simp
  | cons b bs ih => simp only [List.foldl_cons, ih, mem_keys_union, List.mem_cons, exists_eq_or_imp, or_assoc]

end

/-! ### Sorting keys -/

private theorem mem_placeKey {key k : String} {ks : List String} : k ∈ placeKey key ks ↔ k = key ∨ k ∈ ks := by
  induction ks with
  | nil => simp [placeKey]
  | cons l ks ih =>
    unfold placeKey
    split
    · simp
    · split
      · rename_i h
        rw [h]
        simp
      · simp only [List.mem_cons, ih]
        exact or_left_comm

theorem mem_sortKeys {k : String} {ks : List String} : k ∈ sortKeys ks ↔ k ∈ ks := by
  have step : ∀ (ks acc : List String), k ∈ ks.foldl (fun ks k => placeKey k ks) acc ↔ k ∈ acc ∨ k ∈ ks := by
    intro ks
    induction ks with
    | nil => simp
    | cons l ks ih =>
      intro acc
      rw [List.foldl_cons, ih, mem_placeKey, List.mem_cons, or_comm (a := k = l), or_assoc]
  rw [sortKeys, step]
  simp

private theorem placeKey_ascending {key : String} {ks : List String} (h : ks.Pairwise (· < ·)) :
    (placeKey key ks).Pairwise (· < ·) := by
  induction ks with
  | nil => exact List.pairwise_singleton _ _
  | cons l ks ih =>
    obtain ⟨hl, hks⟩ := List.pairwise_cons.1 h
    unfold placeKey
    split
    · rename_i hlt
      refine List.pairwise_cons.2 ⟨?_, h⟩
      intro k hk
      rcases List.mem_cons.1 hk with rfl | hk
      · exact hlt
      · exact String.lt_trans hlt (hl k hk)
    · split
      · exact h
      · rename_i hnlt hne
        refine List.pairwise_cons.2 ⟨?_, ih hks⟩
        intro k hk
        rcases mem_placeKey.1 hk with rfl | hk
        · exact Std.lt_of_le_of_ne (String.not_lt.1 hnlt) (Ne.symm hne)
        · exact hl k hk

theorem ascending_sortKeys (ks : List String) : (sortKeys ks).Pairwise (· < ·) := by
  have step : ∀ (ks acc : List String), acc.Pairwise (· < ·) →
      (ks.foldl (fun ks k => placeKey k ks) acc).Pairwise (· < ·) := by
    intro ks
    induction ks with
    | nil => exact fun acc h => h
    | cons l ks ih => exact fun acc h => ih _ (placeKey_ascending h)
  exact step ks [] .nil

theorem nodup_sortKeys (ks : List String) : (sortKeys ks).Nodup := by
  refine List.Pairwise.imp ?_ (ascending_sortKeys ks)
  rintro k l h rfl
  exact String.lt_irrefl k h

end FormulaQuery.KeyMap
