import FormulaQuery.Proofs.Consolidation

/-!
# Edits of a batch

A batch is made by adding and removing fields. One that is added and removed leaves no trace (`Batch.erase_insert`).
Whatever the edits have been, no name stands twice, and a name stands for the plan that was added last under it,
unless it has been removed since (`Batch.edited_keeps_last`). So what can be assembled after the edits is told by the
last edit of each name (`Batch.exists_assemble_edited_iff`).
-/

namespace FormulaQuery.Batch

def names (b : Batch) : List String := b.fields.map (·.1)

/-! ### One edit -/

theorem contains_iff {b : Batch} {name : String} : b.contains name = true ↔ name ∈ b.names := by
  simp [contains, names]

theorem nodup_names_insert {b : Batch} (h : b.names.Nodup) (name : String) (plan : Plan) :
    (b.insert name plan).names.Nodup := by
  have hnames : (b.insert name plan).names = if name ∈ b.names then b.names else b.names ++ [name] :=
    map_key_replaceOrAppend id fun _ _ => beq_iff_eq
  rw [hnames]
  split
  · exact h
  · rename_i hnew
    refine List.nodup_append.2 ⟨h, List.nodup_singleton name, ?_⟩
    intro x hx y hy heq
    rw [List.mem_singleton] at hy
    exact hnew (hy ▸ heq ▸ hx)

theorem nodup_names_erase {b : Batch} (h : b.names.Nodup) (name : String) : (b.erase name).names.Nodup :=
  h.sublist (List.filter_sublist.map _)

/-- An added field displaces what had its name, and nothing else. -/
theorem mem_fields_insert {b : Batch} (h : b.names.Nodup) {name : String} {plan : Plan} {f : String × Plan} :
    f ∈ (b.insert name plan).fields ↔ f = (name, plan) ∨ f ∈ b.fields ∧ f.1 ≠ name := by
  obtain ⟨front, back, hput, hfront, hes⟩ := replaceOrAppend_cases (· == ·) name plan b.fields
  have hfields : (b.insert name plan).fields = front ++ (name, plan) :: back := hput
  have hne : ∀ f ∈ front, f.1 ≠ name := fun f hf => beq_eq_false_iff_ne.1 (hfront f hf)
  rcases hes with ⟨hb, rfl⟩ | ⟨old, hold, hb⟩
  · rw [hfields, hb]
    grind
  · -- behind the field that is displaced the name does not stand again
    have hback : ∀ f ∈ back, f.1 ≠ name := by
      rw [names, hb, List.map_append, List.map_cons, beq_iff_eq.1 hold] at h
      have hnot := (List.nodup_cons.1 (List.nodup_append.1 h).2.1).1
      exact fun f hf heq => hnot (heq ▸ List.mem_map_of_mem hf)
    have hold := beq_iff_eq.1 hold
    rw [hfields, hb]
    grind

theorem mem_fields_erase {b : Batch} {name : String} {f : String × Plan} :
    f ∈ (b.erase name).fields ↔ f ∈ b.fields ∧ f.1 ≠ name := by
  simp [erase]

/-- A field that is added and removed leaves no trace. -/
theorem erase_insert (b : Batch) (name : String) (plan : Plan) : (b.insert name plan).erase name = b.erase name := by
  obtain ⟨front, back, hput, -, hes⟩ := replaceOrAppend_cases (· == ·) name plan b.fields
  have hfields : (b.insert name plan).fields = front ++ (name, plan) :: back := hput
  rw [erase, erase, hfields]
  rcases hes with ⟨hb, rfl⟩ | ⟨old, hold, hb⟩
  · simp [hb]
  · simp [hb, beq_iff_eq.1 hold]

/-! ### One edit after another -/

inductive Edit where
  | insert (name : String) (plan : Plan)
  | erase (name : String)

namespace Edit

def name : Edit → String
  | insert n _ | erase n => n

/-- What the name of the edit stands for afterwards. -/
def plan? : Edit → Option Plan
  | insert _ p => some p
  | erase _ => none

/-- What the last edit of a name leaves under it. -/
def lastPlan? (edits : List Edit) (name : String) : Option Plan :=
  (edits.reverse.find? fun e => e.name == name).bind plan?

theorem lastPlan?_append_singleton (edits : List Edit) (e : Edit) (name : String) :
    lastPlan? (edits ++ [e]) name = if e.name = name then e.plan? else lastPlan? edits name := by
  by_cases h : e.name = name
  · simp [lastPlan?, h]
  · simp [lastPlan?, h]

end Edit

def edit (b : Batch) : Edit → Batch
  | .insert name plan => b.insert name plan
  | .erase name => b.erase name

/-- The batch that edits make from nothing. -/
def edited (edits : List Edit) : Batch := edits.foldl edit .empty

private theorem nodup_names_edit {b : Batch} (h : b.names.Nodup) (e : Edit) : (b.edit e).names.Nodup := by
  cases e with
  | insert name plan => exact nodup_names_insert h name plan
  | erase name => exact nodup_names_erase h name

private theorem mem_fields_edit {b : Batch} (h : b.names.Nodup) {e : Edit} {name : String} {plan : Plan} :
    (name, plan) ∈ (b.edit e).fields ↔ if e.name = name then e.plan? = some plan else (name, plan) ∈ b.fields := by
  cases e with
  | insert n p =>
    rw [edit, mem_fields_insert h]
    by_cases hn : n = name
    · simp [Edit.name, Edit.plan?, hn, eq_comm]
    · simp [Edit.name, hn, Ne.symm hn]
  | erase n =>
    rw [edit, mem_fields_erase]
    by_cases hn : n = name
    · simp [Edit.name, Edit.plan?, hn]
    · simp [Edit.name, hn, Ne.symm hn]

/-- After any edits each name stands once, and for what its last edit has left under it. -/
theorem edited_keeps_last (edits : List Edit) :
    (edited edits).names.Nodup ∧
      (∀ name plan, (name, plan) ∈ (edited edits).fields ↔ Edit.lastPlan? edits name = some plan) ∧
      ∀ name, (edited edits).contains name = (Edit.lastPlan? edits name).isSome := by
  have hfields : (edited edits).names.Nodup ∧
      ∀ name plan, (name, plan) ∈ (edited edits).fields ↔ Edit.lastPlan? edits name = some plan := by
    induction edits using List.reverseRecOn with
    | nil => exact ⟨List.nodup_nil, by simp [edited, empty, Edit.lastPlan?]⟩
    | append_singleton edits e ih =>
      obtain ⟨hnodup, hmem⟩ := ih
      have hlast : edited (edits ++ [e]) = (edited edits).edit e := by simp [edited]
      rw [hlast]
      refine ⟨nodup_names_edit hnodup e, ?_⟩
      intro name plan
      rw [mem_fields_edit hnodup, hmem, Edit.lastPlan?_append_singleton]
      split
      · exact Iff.rfl
      · exact Iff.rfl
  refine ⟨hfields.1, hfields.2, ?_⟩
  intro name
  rw [Bool.eq_iff_iff, contains_iff, names, List.mem_map, Option.isSome_iff_exists]
  constructor
  · rintro ⟨f, hf, rfl⟩
    exact ⟨f.2, (hfields.2 f.1 f.2).1 hf⟩
  · rintro ⟨plan, hplan⟩
    exact ⟨(name, plan), (hfields.2 name plan).2 hplan, rfl⟩

/-- After edits that add plans of the base table only, there is a query exactly if some name has not been removed
since it was added. -/
theorem exists_assemble_edited_iff {s : Scope} {edits : List Edit}
    (h : ∀ e ∈ edits, ∀ plan ∈ e.plan?, Scope.Compiled s plan) :
    (∃ q, (edited edits).assemble s.table.name = .ok q) ↔ ∃ name, (edited edits).contains name = true := by
  obtain ⟨-, hmem, -⟩ := edited_keeps_last edits
  have hcompiled : ∀ f ∈ (edited edits).fields, Scope.Compiled s f.2 := by
    intro f hf
    obtain ⟨e, he, hplan⟩ := Option.bind_eq_some_iff.1 ((hmem f.1 f.2).1 hf)
    exact h e (List.mem_reverse.1 (List.mem_of_find?_eq_some he)) f.2 hplan
  constructor
  · rintro ⟨q, hq⟩
    obtain ⟨f, hf⟩ := List.exists_mem_of_ne_nil _ (Assembly.assemble_eq_ok_iff.1 hq).1
    exact ⟨f.1, contains_iff.2 (List.mem_map_of_mem hf)⟩
  · rintro ⟨name, hname⟩
    have hne : (edited edits).fields ≠ [] := by
      intro hnil
      rw [contains_iff, names, hnil] at hname
      cases hname
    obtain ⟨q, hq, -⟩ := exists_assemble hcompiled hne
    exact ⟨q, hq⟩

end FormulaQuery.Batch
