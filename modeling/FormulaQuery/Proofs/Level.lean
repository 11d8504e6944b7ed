import FormulaQuery.Proofs.Alias
import FormulaQuery.Proofs.Printing
import FormulaQuery.Query.Assembly
import Mathlib.Data.List.Induction

/-!
# The joins of one query level

The base query and every subquery have a level of joins of their own, which starts from one alias. Every join finds
the join that it starts from (`exists_lookupJoins`), and whoever follows the joins back from the alias of a chain
reads the columns of the chain in turn and ends at the start of the level (`Reaches`).
-/

namespace FormulaQuery

/-- The alias `label` stands for where `hops` lead: it is introduced by a join of the last table, which reads the last
column from the alias of the hops before it, down to `root`. -/
inductive Reaches (joins : List LookupJoin) (root : String) : (hops : List Hop) → (label : String) → Prop
  | root : Reaches joins root [] root
  | hop {hops : List Hop} {k : Hop} {up label : String} (h : Reaches joins root hops up)
    (hj : ⟨k.link.target.name, label, up, k.link.joinColumn⟩ ∈ joins) : Reaches joins root (hops ++ [k]) label

/-- How a level reads the joins `m`: every route among them leads to the alias that its last join is looked up by, and
nothing else is joined. -/
structure LevelReads (t : Table) (context : Context) (m : KeyMap Join) (root : String) (taken : List String)
    (sources : List (String × String)) (lookups : List LookupJoin) : Prop where
  reaches : ∀ init last, Hop.Route Table.direct t (init ++ [last]) → last.join context (Hop.names init) ∈ m.values →
    ∃ label, sources.lookup (last.join context (Hop.names init)).id = some label ∧
      Reaches lookups root (init ++ [last]) label
  nodup : (lookups.map (·.label)).Nodup
  not_taken : ∀ l ∈ lookups, l.label ∉ taken
  exists_join : ∀ l ∈ lookups, ∃ j ∈ m.values, l.table = j.target ∧ l.column = j.joinColumn
  parent_mem : ∀ l ∈ lookups, l.parent ∈ root :: lookups.map (·.label)
  label_mem : ∀ id label, sources.lookup id = some label → label ∈ lookups.map (·.label)

theorem LevelReads.isSome_lookup {t : Table} {context : Context} {m : KeyMap Join} {root : String}
    {taken : List String} {sources : List (String × String)} {lookups : List LookupJoin}
    (h : LevelReads t context m root taken sources lookups) (hm : JoinsClosed t context m) {j : Join}
    (hj : j ∈ m.values) : (sources.lookup j.id).isSome := by
  obtain ⟨init, last, hr, rfl⟩ := hm.all j hj
  obtain ⟨label, hlabel, -⟩ := h.reaches init last hr hj
  exact Option.isSome_iff_exists.2 ⟨label, hlabel⟩

namespace Assembly

variable {t : Table} {context : Context} {m : KeyMap Join}

/-! ### Joins with their aliases -/

/-- The joins of a map with aliases of their own. -/
structure Named (m : KeyMap Join) (named : List (Join × String)) : Prop where
  nodup : (named.map (·.1.id)).Nodup
  mem : ∀ n ∈ named, n.1 ∈ m.values
  exists_mem : ∀ j ∈ m.values, ∃ label, (j, label) ∈ named

theorem ordered_perm (m : KeyMap Join) : (ordered m).Perm m.values := List.mergeSort_perm _ _

theorem named_assign (hm : m.Keyed Join.id) (taken : List String) : Named m (Alias.assign taken (ordered m)) := by
  have hperm := ordered_perm m
  have hfst := Alias.map_fst_assign taken (ordered m)
  refine ⟨?_, ?_, ?_⟩
  · have hids : (Alias.assign taken (ordered m)).map (·.1.id) = (ordered m).map Join.id := by
      conv => rhs; rw [← hfst, List.map_map]
      rfl
    rw [hids, (hperm.map Join.id).nodup_iff]
    exact hm.nodup_values
  · intro n hn
    rw [← hperm.mem_iff, ← hfst]
    exact List.mem_map_of_mem hn
  · intro j hj
    rw [← hperm.mem_iff, ← hfst] at hj
    obtain ⟨⟨i, label⟩, hn, rfl⟩ := List.mem_map.1 hj
    exact ⟨label, hn⟩

variable {named : List (Join × String)}

theorem Named.lookup (h : Named m named) {j : Join} {label : String} (hj : (j, label) ∈ named) :
    (joinSources named).lookup j.id = some label := by
  have hkeys : ((joinSources named).map (·.1)).Nodup := by
    rw [joinSources, List.map_map]
    exact h.nodup
  exact KeyMap.lookup_of_mem hkeys (List.mem_map_of_mem hj)

theorem Named.label_eq (h : Named m named) {j : Join} {label label' : String} (hj : (j, label) ∈ named)
    (hj' : (j, label') ∈ named) : label = label' := by
  have := h.lookup hj
  rw [h.lookup hj'] at this
  exact (Option.some.inj this).symm

/-! ### Parents -/

/-- The join that a join starts from is found by its chain. -/
private theorem parentAlias_eq (hm : JoinsClosed t context m) (hn : Named m named) {root : String} {i j : Join}
    {label : String} (hj : j ∈ m.values) (hchain : j.parentChain? = some i.chain) (hi : (i, label) ∈ named) :
    parentAlias named root j = .ok label := by
  unfold parentAlias
  rw [hchain]
  dsimp only
  have hcontext : ∀ k ∈ m.values, k.context = context := by
    intro k hk
    obtain ⟨init, last, -, rfl⟩ := hm.all k hk
    rfl
  have him : i ∈ m.values := hn.mem _ hi
  cases hfind : named.reverse.find? (fun n => n.1.chain = i.chain ∧ n.1.context = j.context) with
  | none =>
    have := List.find?_eq_none.1 hfind (i, label) (List.mem_reverse.2 hi)
    simp [hcontext i him, hcontext j hj] at this
  | some found =>
    obtain ⟨k, label'⟩ := found
    have hk : (k, label') ∈ named := List.mem_reverse.1 (List.mem_of_find?_eq_some hfind)
    have hsame := List.find?_some hfind
    simp only [decide_eq_true_eq] at hsame
    -- a chain says where it leads, so the last join with this chain is the only one
    have heq : k = i := (hm.all k (hn.mem _ hk)).eq_of_chain_eq (hm.all i him) hsame.1
    subst heq
    dsimp only
    rw [hn.label_eq hk hi]

private theorem exists_parentAlias (hm : JoinsClosed t context m) (hn : Named m named) (root : String) {j : Join}
    (hj : j ∈ m.values) : ∃ parent, parentAlias named root j = .ok parent := by
  cases hchain : j.parentChain? with
  | none => exact ⟨root, by rw [parentAlias, hchain]⟩
  | some chain =>
    obtain ⟨i, hi, rfl⟩ := hm.parent j hj chain hchain
    obtain ⟨label, hlabel⟩ := hn.exists_mem i hi
    exact ⟨label, parentAlias_eq hm hn hj hchain hlabel⟩

private theorem parentAlias_mem {root parent : String} {j : Join} (h : parentAlias named root j = .ok parent) :
    parent ∈ root :: named.map (·.2) := by
  unfold parentAlias at h
  split at h
  · cases h
    exact List.mem_cons_self
  · split at h
    · rename_i found hfind
      cases h
      exact List.mem_cons_of_mem _ (List.mem_map_of_mem (List.mem_reverse.1 (List.mem_of_find?_eq_some hfind)))
    · cases h

/-! ### Following joins back -/

private theorem reaches_of_route (hm : JoinsClosed t context m) (hn : Named m named) {root : String}
    {lookups : List LookupJoin}
    (hl : ∀ n ∈ named, ∃ parent, parentAlias named root n.1 = .ok parent ∧
      ⟨n.1.target, n.2, parent, n.1.joinColumn⟩ ∈ lookups)
    {init : List Hop} {last : Hop} (hr : Hop.Route Table.direct t (init ++ [last])) {label : String}
    (hj : (last.join context (Hop.names init), label) ∈ named) : Reaches lookups root (init ++ [last]) label := by
  -- the hops before the last one are the route of the parent
  induction init using List.reverseRecOn generalizing last label with
  | nil =>
    obtain ⟨parent, hparent, hmem⟩ := hl _ hj
    rw [parentAlias, JoinsClosed.parentChain?_join, if_pos rfl] at hparent
    cases hparent
    exact .hop .root hmem
  | append_singleton front k ih =>
    obtain ⟨parent, hparent, hmem⟩ := hl _ hj
    have hlast := hn.mem _ hj
    have hchain : (last.join context (Hop.names (front ++ [k]))).parentChain? =
        some (k.join context (Hop.names front)).chain := by
      rw [JoinsClosed.parentChain?_join, if_neg (by simp), Hop.names_append]
      rfl
    obtain ⟨i, hi, hic⟩ := hm.parent _ hlast _ hchain
    have hfront : Hop.Route Table.direct t (front ++ [k]) := hr.take
    have heq : i = k.join context (Hop.names front) := (hm.all i hi).eq_of_chain_eq ⟨front, k, hfront, rfl⟩ hic
    subst heq
    obtain ⟨up, hup⟩ := hn.exists_mem _ hi
    rw [parentAlias_eq hm hn hlast hchain hup] at hparent
    cases hparent
    exact .hop (ih hfront hup) hmem

/-- Joins of a level are always found, and are read as their chains say. -/
theorem exists_lookupJoins (hm : JoinsClosed t context m) (root : String) (taken : List String) :
    ∃ lookups, lookupJoins (Alias.assign taken (ordered m)) root = .ok lookups ∧
      LevelReads t context m root taken (joinSources (Alias.assign taken (ordered m))) lookups := by
  have hn := named_assign hm.toKeyed taken
  have hfresh : ∀ n ∈ Alias.assign taken (ordered m), n.2 ∉ taken := fun n h => Alias.assign_not_mem h
  have hnodup := Alias.nodup_assign taken (ordered m)
  generalize Alias.assign taken (ordered m) = named at *
  obtain ⟨lookups, hlookups, hall⟩ : ∃ lookups, lookupJoins named root = .ok (lookups.map id) ∧
      List.Forall₂ (fun (n : Join × String) (l : LookupJoin) => ∃ parent,
        parentAlias named root n.1 = .ok parent ∧ l = ⟨n.1.target, n.2, parent, n.1.joinColumn⟩) named lookups := by
    refine exists_mapM_eq_ok id ?_
    intro n hmem
    obtain ⟨parent, hparent⟩ := exists_parentAlias hm hn root (hn.mem n hmem)
    exact ⟨⟨n.1.target, n.2, parent, n.1.joinColumn⟩, by rw [hparent]; rfl, parent, hparent, rfl⟩
  rw [List.map_id] at hlookups
  have hlabels : lookups.map (·.label) = named.map (·.2) := by
    refine (map_eq_map_of_forall₂ (hall.imp ?_)).symm
    rintro n l ⟨parent, -, rfl⟩
    rfl
  refine ⟨lookups, hlookups, ?_, hlabels ▸ hnodup, ?_, ?_, ?_, ?_⟩
  · intro init last hr hmem
    obtain ⟨label, hlabel⟩ := hn.exists_mem _ hmem
    refine ⟨label, hn.lookup hlabel, reaches_of_route hm hn ?_ hr hlabel⟩
    intro n hmem
    obtain ⟨l, hl, parent, hparent, rfl⟩ := exists_mem_of_forall₂ hall hmem
    exact ⟨parent, hparent, hl⟩
  · intro l hl
    have hmem : l.label ∈ named.map (·.2) := hlabels ▸ List.mem_map_of_mem hl
    obtain ⟨n, hn, e⟩ := List.mem_map.1 hmem
    exact e ▸ hfresh n hn
  · intro l hl
    obtain ⟨n, hmem, parent, -, rfl⟩ := exists_mem_of_forall₂ hall.flip hl
    exact ⟨n.1, hn.mem n hmem, rfl, rfl⟩
  · intro l hl
    obtain ⟨n, -, parent, hparent, rfl⟩ := exists_mem_of_forall₂ hall.flip hl
    rw [hlabels]
    exact parentAlias_mem hparent
  · intro id label h
    rw [hlabels]
    obtain ⟨n, hmem, e⟩ := List.mem_map.1 (KeyMap.mem_of_lookup h)
    cases e
    exact List.mem_map_of_mem hmem

end Assembly

end FormulaQuery
