import FormulaQuery.Proofs.Loading
import FormulaQuery.Proofs.WellFormed
import Mathlib.Data.List.Basic

/-!
# What loading a schema accepts and reports

Which JSON values are schemas is said of each place in them where a table has to be described (`Json.IsSchema`), and
so are the ways to go against it (`Json.Violates`). The faults that loading would list are exactly these
(`Json.mem_faults_iff`). They are listed by their places: fields of a table in a fixed order, entries of a list by
their keys (`Json.pairwise_faults`). So loading succeeds exactly on schemas, and otherwise reports the violation
that comes before all others (`Table.ofJson_exact`). Which names of types are known is said by
`ValueType.ofSpelling?_eq_some_iff`.
-/

namespace FormulaQuery

/-! ### Names of types -/

namespace Blank

private theorem dropWhile_blanks {before cs : List Char} (hb : ∀ c ∈ before, isBlank c = true)
    (hcs : ∀ c ∈ cs, ¬isBlank c = true) (hne : cs ≠ []) (after : List Char) :
    (before ++ (cs ++ after)).dropWhile isBlank = cs ++ after := by
  rw [List.dropWhile_append_of_pos hb]
  obtain ⟨c, cs, rfl⟩ := List.exists_cons_of_ne_nil hne
  exact List.dropWhile_cons_of_neg (hcs c List.mem_cons_self)

theorem trim_append {before cs after : List Char} (hb : ∀ c ∈ before, isBlank c = true)
    (ha : ∀ c ∈ after, isBlank c = true) (hcs : ∀ c ∈ cs, ¬isBlank c = true) (hne : cs ≠ []) :
    trim (before ++ cs ++ after) = cs := by
  rw [trim, List.append_assoc, dropWhile_blanks hb hcs hne, List.reverse_append]
  have hend : (after.reverse ++ (cs.reverse ++ [])).dropWhile isBlank = cs.reverse ++ [] :=
    dropWhile_blanks (by simpa using ha) (by simpa using hcs) (by simpa using hne) []
  rw [List.append_nil] at hend
  rw [hend, List.reverse_reverse]

theorem exists_trim (cs : List Char) : ∃ before after, cs = before ++ trim cs ++ after ∧
    (∀ c ∈ before, isBlank c = true) ∧ ∀ c ∈ after, isBlank c = true := by
  have hall : ∀ ds : List Char, ∀ c ∈ ds.takeWhile isBlank, isBlank c = true := fun ds c hc =>
    List.all_eq_true.1 List.all_takeWhile c hc
  have hfront := List.takeWhile_append_dropWhile (p := isBlank) (l := cs)
  have hback := List.takeWhile_append_dropWhile (p := isBlank) (l := (cs.dropWhile isBlank).reverse)
  refine ⟨cs.takeWhile isBlank, ((cs.dropWhile isBlank).reverse.takeWhile isBlank).reverse, ?_, hall cs, ?_⟩
  · rw [trim, List.append_assoc, ← List.reverse_append, hback, List.reverse_reverse, hfront]
  · intro c hc
    exact hall _ c (List.mem_reverse.1 hc)

end Blank

namespace ValueType

/-- The names of a type in small letters. -/
def names : ValueType → List String
  | number => ["number", "numeric", "integer", "int", "bigint", "decimal", "float", "double"]
  | string => ["string", "text", "varchar", "char", "uuid"]
  | boolean => ["boolean", "bool"]
  | date => ["date", "timestamp", "datetime", "timestamptz"]
  | null => ["null"]

private theorem lookup_spellings_iff {n : String} {t : ValueType} : spellings.lookup n = some t ↔ n ∈ t.names := by
  have hnames : ∀ e ∈ spellings, e.1 ∈ e.2.names := by decide +kernel
  constructor
  · intro h
    exact hnames (n, t) (KeyMap.mem_of_lookup h)
  · revert n
    cases t <;> decide +kernel

/-- A text is known for a type if it is a name of the type in any ASCII case, with or without blanks around it. -/
theorem ofSpelling?_eq_some_iff {s : String} {t : ValueType} :
    ofSpelling? s = some t ↔ ∃ name ∈ t.names, ∃ before spelled after, s.toList = before ++ spelled ++ after ∧
      (∀ c ∈ before ++ after, Blank.isBlank c = true) ∧ spelled.map Char.toLower = name.toList := by
  rw [ofSpelling?, lookup_spellings_iff]
  constructor
  · intro h
    obtain ⟨before, after, hsplit, hb, ha⟩ := Blank.exists_trim s.toList
    refine ⟨_, h, before, _, after, hsplit, List.forall_mem_append.2 ⟨hb, ha⟩, ?_⟩
    rw [Ascii.lower, String.toList_ofList, String.toList_ofList]
  · rintro ⟨name, hname, before, spelled, after, hsplit, hblank, hspelled⟩
    obtain ⟨hb, ha⟩ := List.forall_mem_append.1 hblank
    have hword : ∀ n ∈ t.names, Ascii.IsName n ∧ n.toList ≠ [] := by cases t <;> decide +kernel
    have hne : spelled ≠ [] := by
      rintro rfl
      exact (hword name hname).2 hspelled.symm
    have hletters : ∀ c ∈ spelled, ¬Blank.isBlank c = true := by
      intro c hc
      refine Blank.not_isBlank_of_isWordPart ?_
      rw [← Ascii.isWordPart_toLower]
      exact (hword name hname).1 _ (hspelled ▸ List.mem_map_of_mem hc)
    rw [hsplit, Blank.trim_append hb ha hletters hne, Ascii.lower, String.toList_ofList, hspelled,
      String.ofList_toList]
    exact hname

end ValueType

namespace Json

/-! ### Schemas -/

/-- The values in `v` that have to describe tables, with the keys that lead to them: the value itself, and the
entries of relationships, which are marked. -/
inductive Place (v : Json) : Bool → List String → Json → Prop
  | root : Place v false [] v
  | link {isLink : Bool} {path : List String} {u w : Json} {field name : String} (h : Place v isLink path u)
    (hfield : field ∈ linkFields) (hw : (name, w) ∈ u.membersAt field) : Place v true (path ++ [field, name]) w

/-- An object with the strings that a table needs, and, where they are given, objects of columns and of
relationships. -/
structure HasShape (isLink : Bool) (u : Json) : Prop where
  isObject : u.isObject = true
  strings : ∀ field ∈ stringFields isLink, ∃ s, u.member? field = some (.string s)
  lists : ∀ field ∈ "columnList" :: linkFields, ∀ w, u.member? field = some w → w.isObject = true
  columns : ∀ c ∈ u.membersAt "columnList", ∃ s type, c.2 = .string s ∧ ValueType.ofSpelling? s = some type

/-- All places of a schema have the shape of tables. -/
def IsSchema (v : Json) : Prop := ∀ isLink path u, v.Place isLink path u → u.HasShape isLink

/-- The ways in which a value is no schema, with the place of each. -/
inductive Violates (v : Json) : SchemaError → Prop
  | notObject {isLink : Bool} {path : List String} {u : Json} (h : v.Place isLink path u) (hu : u.isObject = false) :
    Violates v (.invalidValue path .object)
  | missing {isLink : Bool} {path : List String} {u : Json} {field : String} (h : v.Place isLink path u)
    (hu : u.isObject = true) (hfield : field ∈ stringFields isLink) (hw : u.member? field = none) :
    Violates v (.missingField path field)
  | notString {isLink : Bool} {path : List String} {u w : Json} {field : String} (h : v.Place isLink path u)
    (hfield : field ∈ stringFields isLink) (hw : u.member? field = some w) (hs : ∀ s, w ≠ .string s) :
    Violates v (.invalidValue (path ++ [field]) .string)
  | notList {isLink : Bool} {path : List String} {u w : Json} {field : String} (h : v.Place isLink path u)
    (hfield : field ∈ "columnList" :: linkFields) (hw : u.member? field = some w) (ho : w.isObject = false) :
    Violates v (.invalidValue (path ++ [field]) .object)
  | notType {isLink : Bool} {path : List String} {u w : Json} {name : String} (h : v.Place isLink path u)
    (hw : (name, w) ∈ u.membersAt "columnList") (hs : ∀ s, w ≠ .string s) :
    Violates v (.invalidValue (path ++ ["columnList", name]) .typeName)
  | unknownType {isLink : Bool} {path : List String} {u : Json} {name s : String} (h : v.Place isLink path u)
    (hw : (name, .string s) ∈ u.membersAt "columnList") (hs : ValueType.ofSpelling? s = none) :
    Violates v (.unknownType (path ++ ["columnList"]) name s)

variable {v u w : Json} {isLink : Bool} {path : List String} {field : String} {e : SchemaError}

private theorem isObject_of_mem_members {x : String × Json} (h : x ∈ v.members) : v.isObject = true := by
  cases v with
  | object m => rfl
  | _ => cases h

private theorem isObject_of_member? (h : v.member? field = some w) : v.isObject = true :=
  isObject_of_mem_members (KeyMap.mem_of_lookup h)

private theorem isObject_of_mem_membersAt {x : String × Json} (h : x ∈ v.membersAt field) : v.isObject = true := by
  obtain ⟨w, hw, -⟩ := mem_membersAt.1 h
  exact isObject_of_member? hw

/-- A value is a schema if nothing goes against it. -/
theorem isSchema_iff : v.IsSchema ↔ ∀ e, ¬ v.Violates e := by
  constructor
  · intro h e he
    cases he with
    | notObject hu ho =>
      rw [(h _ _ _ hu).isObject] at ho
      cases ho
    | missing hu _ hfield hw =>
      obtain ⟨s, hs⟩ := (h _ _ _ hu).strings _ hfield
      rw [hs] at hw
      cases hw
    | notString hu hfield hw hs =>
      obtain ⟨s, hs'⟩ := (h _ _ _ hu).strings _ hfield
      rw [hs'] at hw
      exact hs s (Option.some.inj hw).symm
    | notList hu hfield hw ho =>
      rw [(h _ _ _ hu).lists _ hfield _ hw] at ho
      cases ho
    | notType hu hw hs =>
      obtain ⟨s, type, rfl, -⟩ := (h _ _ _ hu).columns _ hw
      exact hs s rfl
    | unknownType hu hw hs =>
      obtain ⟨s, type, heq, htype⟩ := (h _ _ _ hu).columns _ hw
      cases heq
      rw [hs] at htype
      cases htype
  · intro h isLink path u hu
    have hobject : u.isObject = true := by
      by_contra ho
      exact h _ (.notObject hu (Bool.of_not_eq_true ho))
    refine ⟨hobject, ?_, ?_, ?_⟩
    · intro field hfield
      cases hw : u.member? field with
      | none => exact absurd (.missing hu hobject hfield hw) (h _)
      | some w =>
        by_contra hs
        refine h _ (.notString hu hfield hw ?_)
        rintro s rfl
        exact hs ⟨s, rfl⟩
    · intro field hfield w hw
      by_contra ho
      exact h _ (.notList hu hfield hw (Bool.of_not_eq_true ho))
    · rintro ⟨name, w⟩ hc
      by_cases hs : ∃ s, w = .string s
      · obtain ⟨s, rfl⟩ := hs
        cases htype : ValueType.ofSpelling? s with
        | none => exact absurd (.unknownType hu hc htype) (h _)
        | some type => exact ⟨s, type, rfl, htype⟩
      · exact absurd (.notType hu hc fun s hw => hs ⟨s, hw⟩) (h _)

/-! ### Faults are violations -/

private theorem mem_stringFaults : e ∈ u.stringFaults path field ↔
    (u.member? field = none ∧ e = .missingField path field) ∨
      ∃ w, u.member? field = some w ∧ (∀ s, w ≠ .string s) ∧ e = .invalidValue (path ++ [field]) .string := by
  unfold stringFaults
  cases u.member? field with
  | none => simp
  | some w => cases w <;> simp

private theorem mem_listFaults : e ∈ u.listFaults path field ↔
    ∃ w, u.member? field = some w ∧ w.isObject = false ∧ e = .invalidValue (path ++ [field]) .object := by
  unfold listFaults
  cases u.member? field with
  | none => simp
  | some w => cases w <;> simp [isObject]

private theorem mem_columnFaults {c : String × Json} : e ∈ columnFaults path c ↔
    ((∀ s, c.2 ≠ .string s) ∧ e = .invalidValue (path ++ [c.1]) .typeName) ∨
      ∃ s, c.2 = .string s ∧ ValueType.ofSpelling? s = none ∧ e = .unknownType path c.1 s := by
  obtain ⟨name, w⟩ := c
  unfold columnFaults
  cases w with
  | string s => cases ValueType.ofSpelling? s <;> simp
  | _ => simp

/-- The faults of an object, by the fields that they lie under. -/
theorem mem_faults_of_isObject (h : u.isObject = true) : e ∈ u.faults isLink path ↔
    (∃ field ∈ stringFields isLink, e ∈ u.stringFaults path field) ∨
    (∃ field ∈ "columnList" :: linkFields, e ∈ u.listFaults path field) ∨
    (∃ c ∈ u.membersAt "columnList", e ∈ columnFaults (path ++ ["columnList"]) c) ∨
    ∃ field ∈ linkFields, ∃ l ∈ u.membersAt field, e ∈ l.2.faults true (path ++ [field, l.1]) := by
  rw [faults_of_isObject h, bodyFaults]
  simp only [List.mem_append, List.mem_flatMap, List.mem_cons, exists_eq_or_imp, and_or_left, exists_or]
  exact or_congr_right or_or_or_comm

/-- The faults of a value at some place go against the whole. -/
theorem violates_of_mem_faults {isLink : Bool} {path : List String} {u : Json} (hu : v.Place isLink path u)
    (he : e ∈ u.faults isLink path) : v.Violates e := by
  by_cases hobject : u.isObject = true
  · rcases (mem_faults_of_isObject hobject).1 he with
      ⟨field, hfield, he⟩ | ⟨field, hfield, he⟩ | ⟨c, hc, he⟩ | ⟨field, hfield, l, hl, he⟩
    · rcases mem_stringFaults.1 he with ⟨hw, rfl⟩ | ⟨w, hw, hs, rfl⟩
      · exact .missing hu hobject hfield hw
      · exact .notString hu hfield hw hs
    · obtain ⟨w, hw, ho, rfl⟩ := mem_listFaults.1 he
      exact .notList hu hfield hw ho
    · rcases mem_columnFaults.1 he with ⟨hs, rfl⟩ | ⟨s, hs, htype, rfl⟩
      · rw [List.append_assoc, List.singleton_append]
        exact .notType hu hc hs
      · obtain ⟨name, w⟩ := c
        cases hs
        exact .unknownType hu hc htype
    · exact violates_of_mem_faults (.link hu hfield hl) he
  · have hnot := Bool.of_not_eq_true hobject
    rw [faults_of_not_isObject hnot, List.mem_singleton] at he
    rw [he]
    exact .notObject hu hnot
termination_by sizeOf u
decreasing_by exact sizeOf_lt_of_mem_membersAt hl

/-- The faults of a value at some place are among those of the whole. -/
theorem Place.mem_faults (hu : v.Place isLink path u) (he : e ∈ u.faults isLink path) : e ∈ v.faults false [] := by
  induction hu with
  | root => exact he
  | link _ hfield hw ih =>
    have hobject := isObject_of_mem_membersAt hw
    exact ih ((mem_faults_of_isObject hobject).2 (.inr (.inr (.inr ⟨_, hfield, _, hw, he⟩))))

/-- The faults of a value are what goes against it as a schema. -/
theorem mem_faults_iff : e ∈ v.faults false [] ↔ v.Violates e := by
  constructor
  · exact violates_of_mem_faults .root
  · intro h
    cases h with
    | notObject hu ho =>
      refine hu.mem_faults ?_
      rw [faults_of_not_isObject ho]
      exact List.mem_singleton_self _
    | missing hu hobject hfield hw =>
      refine hu.mem_faults ((mem_faults_of_isObject hobject).2 (.inl ⟨_, hfield, ?_⟩))
      exact mem_stringFaults.2 (.inl ⟨hw, rfl⟩)
    | notString hu hfield hw hs =>
      refine hu.mem_faults ((mem_faults_of_isObject (isObject_of_member? hw)).2 (.inl ⟨_, hfield, ?_⟩))
      exact mem_stringFaults.2 (.inr ⟨_, hw, hs, rfl⟩)
    | notList hu hfield hw ho =>
      refine hu.mem_faults ((mem_faults_of_isObject (isObject_of_member? hw)).2 (.inr (.inl ⟨_, hfield, ?_⟩)))
      exact mem_listFaults.2 ⟨_, hw, ho, rfl⟩
    | notType hu hw hs =>
      refine hu.mem_faults ((mem_faults_of_isObject (isObject_of_mem_membersAt hw)).2
        (.inr (.inr (.inl ⟨_, hw, ?_⟩))))
      exact mem_columnFaults.2 (.inl ⟨hs, by simp⟩)
    | unknownType hu hw hs =>
      refine hu.mem_faults ((mem_faults_of_isObject (isObject_of_mem_membersAt hw)).2
        (.inr (.inr (.inl ⟨_, hw, ?_⟩))))
      exact mem_columnFaults.2 (.inr ⟨_, rfl, hs, rfl⟩)

end Json

/-! ### The order of violations -/

namespace SchemaError

/-- The fields of a table in the order in which they are looked at. -/
def fields : List String := ["tableName", "joinColumn", "columnList", "relationshipInfo", "inverseRelationshipInfo"]

/-- The keys that lead to what is wrong or missing. -/
def place : SchemaError → List String
  | json _ => []
  | missingField path field => path ++ [field]
  | invalidValue path _ => path
  | unknownType path column _ => path ++ [column]

/-- The order of two keys under the same `depth` keys: fields of a table and names of a list take turns. -/
def KeyBefore (depth : Nat) (k k' : String) : Prop :=
  if depth % 2 = 0 then fields.idxOf k < fields.idxOf k' else k < k'

/-- The order in which errors are met: by the first keys in which their places differ. -/
def Before (e e' : SchemaError) : Prop :=
  ∃ path k k' rest rest', e.place = path ++ k :: rest ∧ e'.place = path ++ k' :: rest' ∧ KeyBefore path.length k k'

private theorem KeyBefore.asymm {depth : Nat} {k k' : String} (h : KeyBefore depth k k') :
    ¬ KeyBefore depth k' k := by
  unfold KeyBefore at *
  by_cases hdepth : depth % 2 = 0
  · rw [if_pos hdepth] at *
    omega
  · rw [if_neg hdepth] at *
    exact String.lt_asymm h

/-- Two texts of keys differ first in one place. -/
private theorem path_eq {p q : List String} {k k' l l' : String} {r r' s s' : List String} (hk : k ≠ k') (hl : l ≠ l')
    (h : p ++ k :: r = q ++ l' :: s') (h' : p ++ k' :: r' = q ++ l :: s) : p = q ∧ k = l' ∧ k' = l := by
  induction p generalizing q with
  | nil =>
    cases q with
    | nil => exact ⟨rfl, (List.cons.inj h).1, (List.cons.inj h').1⟩
    | cons a q => exact absurd ((List.cons.inj h).1.trans (List.cons.inj h').1.symm) hk
  | cons b p ih =>
    cases q with
    | nil => exact absurd ((List.cons.inj h').1.symm.trans (List.cons.inj h).1) hl
    | cons a q =>
      obtain ⟨rfl, htail⟩ := List.cons.inj h
      obtain ⟨rfl, hk, hl⟩ := ih htail (List.cons.inj h').2
      exact ⟨rfl, hk, hl⟩

private theorem Before.asymm {e e' : SchemaError} (h : e.Before e') : ¬ e'.Before e := by
  rintro ⟨q, l, l', s, s', hs, hs', hl⟩
  obtain ⟨p, k, k', r, r', hr, hr', hk⟩ := h
  have hne : k ≠ k' := by
    rintro rfl
    exact hk.asymm hk
  have hne' : l ≠ l' := by
    rintro rfl
    exact hl.asymm hl
  obtain ⟨rfl, rfl, rfl⟩ := path_eq hne hne' (hr.symm.trans hs') (hr'.symm.trans hs)
  exact hk.asymm hl

/-- An error that lies under a key of the object at a path. -/
def Under (path : List String) (key : String) (e : SchemaError) : Prop := ∃ rest, e.place = path ++ key :: rest

theorem Under.up {path : List String} {k k' : String} {e : SchemaError} (h : Under (path ++ [k]) k' e) :
    Under path k e := by
  obtain ⟨rest, hrest⟩ := h
  exact ⟨k' :: rest, by rw [hrest, List.append_assoc, List.singleton_append]⟩

theorem Under.before {path : List String} {k k' : String} {e e' : SchemaError} (h : Under path k e)
    (h' : Under path k' e') (hk : KeyBefore path.length k k') : e.Before e' := by
  obtain ⟨rest, hrest⟩ := h
  obtain ⟨rest', hrest'⟩ := h'
  exact ⟨path, k, k', rest, rest', hrest, hrest', hk⟩

end SchemaError

namespace Json

variable {v u : Json} {isLink : Bool} {path : List String} {field : String} {e : SchemaError}

private theorem under_of_mem_stringFaults (h : e ∈ u.stringFaults path field) : e.Under path field := by
  rcases mem_stringFaults.1 h with ⟨-, rfl⟩ | ⟨w, -, -, rfl⟩
  · exact ⟨[], rfl⟩
  · exact ⟨[], rfl⟩

private theorem under_of_mem_listFaults (h : e ∈ u.listFaults path field) : e.Under path field := by
  obtain ⟨w, -, -, rfl⟩ := mem_listFaults.1 h
  exact ⟨[], rfl⟩

private theorem under_of_mem_columnFaults {c : String × Json} (h : e ∈ columnFaults path c) : e.Under path c.1 := by
  rcases mem_columnFaults.1 h with ⟨-, rfl⟩ | ⟨s, -, -, rfl⟩
  · exact ⟨[], rfl⟩
  · exact ⟨[], rfl⟩

/-- The faults of a value at a path lie there or further down. -/
theorem exists_place_eq {isLink : Bool} {path : List String} {u : Json} (h : e ∈ u.faults isLink path) :
    ∃ rest, e.place = path ++ rest := by
  by_cases hobject : u.isObject = true
  · rcases (mem_faults_of_isObject hobject).1 h with
      ⟨field, -, he⟩ | ⟨field, -, he⟩ | ⟨c, -, he⟩ | ⟨field, -, l, hl, he⟩
    · obtain ⟨rest, hrest⟩ := under_of_mem_stringFaults he
      exact ⟨_, hrest⟩
    · obtain ⟨rest, hrest⟩ := under_of_mem_listFaults he
      exact ⟨_, hrest⟩
    · obtain ⟨rest, hrest⟩ := under_of_mem_columnFaults he
      exact ⟨_, by rw [hrest, List.append_assoc]⟩
    · obtain ⟨rest, hrest⟩ := exists_place_eq he
      exact ⟨_, by rw [hrest, List.append_assoc]⟩
  · rw [faults_of_not_isObject (Bool.of_not_eq_true hobject), List.mem_singleton] at h
    rw [h]
    exact ⟨[], (List.append_nil path).symm⟩
termination_by sizeOf u
decreasing_by exact sizeOf_lt_of_mem_membersAt hl

private theorem under_of_mem_faults {l : String × Json} (h : e ∈ l.2.faults true (path ++ [field, l.1])) :
    e.Under (path ++ [field]) l.1 := by
  obtain ⟨rest, hrest⟩ := exists_place_eq h
  exact ⟨rest, by simp [hrest]⟩

/-- All objects that keys lead to list their members in ascending order of their keys. -/
inductive Ordered : Json → Prop
  | intro {v : Json} (ascending : v.members.Pairwise fun a b => a.1 < b.1) (members : ∀ e ∈ v.members, Ordered e.2) :
    Ordered v

private theorem Ordered.membersAt (h : v.Ordered) (key : String) :
    ((v.membersAt key).Pairwise fun a b => a.1 < b.1) ∧ ∀ e ∈ v.membersAt key, e.2.Ordered := by
  cases hw : v.member? key with
  | none =>
    rw [membersAt_of_member?_eq_none hw]
    exact ⟨.nil, List.forall_mem_nil _⟩
  | some w =>
    rw [membersAt_of_member? hw]
    obtain ⟨-, hmembers⟩ := h
    obtain ⟨hascending, hinner⟩ := hmembers _ (KeyMap.mem_of_lookup hw)
    exact ⟨hascending, hinner⟩

open SchemaError (Before KeyBefore)

/-- Faults under keys that are met one after the other. -/
private theorem pairwise_flatMap {α : Type} (key : α → String) {f : α → List SchemaError} {xs : List α}
    (hinner : ∀ x ∈ xs, (f x).Pairwise Before) (hunder : ∀ x ∈ xs, ∀ e ∈ f x, e.Under path (key x))
    (hkeys : xs.Pairwise fun x y => KeyBefore path.length (key x) (key y)) : (xs.flatMap f).Pairwise Before := by
  rw [List.pairwise_flatMap]
  refine ⟨hinner, hkeys.imp_of_mem ?_⟩
  intro x y hx hy hkey e he e' he'
  exact (hunder x hx e he).before (hunder y hy e' he') hkey

/-- A list and its entries: a list that is no object has no entries. -/
private theorem pairwise_list {f : String × Json → List SchemaError} (hpath : path.length % 2 = 0)
    (hkeys : (u.membersAt field).Pairwise fun a b => a.1 < b.1)
    (hinner : ∀ l ∈ u.membersAt field, (f l).Pairwise Before)
    (hunder : ∀ l ∈ u.membersAt field, ∀ e ∈ f l, e.Under (path ++ [field]) l.1) :
    (u.listFaults path field ++ (u.membersAt field).flatMap f).Pairwise Before := by
  have hodd : ¬ (path ++ [field]).length % 2 = 0 := by
    rw [List.length_append, List.length_singleton]
    omega
  have hentries : ((u.membersAt field).flatMap f).Pairwise Before := by
    refine pairwise_flatMap (·.1) hinner hunder (hkeys.imp ?_)
    intro a b hlt
    rwa [KeyBefore, if_neg hodd]
  unfold listFaults
  cases hw : u.member? field with
  | none => exact hentries
  | some w =>
    cases w with
    | object m => exact hentries
    | _ =>
      rw [membersAt_of_member? hw]
      exact List.pairwise_singleton _ _

private theorem under_list {f : String × Json → List SchemaError}
    (hunder : ∀ l ∈ u.membersAt field, ∀ e ∈ f l, e.Under (path ++ [field]) l.1)
    (h : e ∈ u.listFaults path field ++ (u.membersAt field).flatMap f) : e.Under path field := by
  rcases List.mem_append.1 h with h | h
  · exact under_of_mem_listFaults h
  · obtain ⟨l, hl, he⟩ := List.mem_flatMap.1 h
    exact (hunder l hl e he).up

private theorem under_columns (h : e ∈ u.listFaults path "columnList" ++
    (u.membersAt "columnList").flatMap (columnFaults (path ++ ["columnList"]))) : e.Under path "columnList" :=
  under_list (fun _ _ _ => under_of_mem_columnFaults) h

private theorem exists_under_links (h : e ∈ linkFields.flatMap fun field => u.listFaults path field ++
    (u.membersAt field).flatMap fun l => l.2.faults true (path ++ [field, l.1])) :
    ∃ field ∈ linkFields, e.Under path field := by
  obtain ⟨field, hfield, he⟩ := List.mem_flatMap.1 h
  exact ⟨field, hfield, under_list (fun _ _ _ => under_of_mem_faults) he⟩

/-- Faults are listed in the order of their places. -/
theorem pairwise_faults {isLink : Bool} {path : List String} {u : Json} (hu : u.Ordered)
    (hpath : path.length % 2 = 0) : (u.faults isLink path).Pairwise Before := by
  by_cases hobject : u.isObject = true
  · -- tables stand at even depths, since on the way to each of them a field and a name take turns
    have hbefore : ∀ {k k'}, SchemaError.fields.idxOf k < SchemaError.fields.idxOf k' →
        KeyBefore path.length k k' := by
      intro k k' h
      rwa [KeyBefore, if_pos hpath]
    have hstrings : ((stringFields isLink).flatMap (stringFaults path u)).Pairwise Before := by
      have hkeys : (stringFields isLink).Pairwise fun k k' =>
          SchemaError.fields.idxOf k < SchemaError.fields.idxOf k' := by
        cases isLink <;> decide
      refine pairwise_flatMap id ?_ (fun _ _ _ => under_of_mem_stringFaults) (hkeys.imp hbefore)
      intro field _
      unfold stringFaults
      split <;> simp
    have hcolumns : (u.listFaults path "columnList" ++
        (u.membersAt "columnList").flatMap (columnFaults (path ++ ["columnList"]))).Pairwise Before := by
      refine pairwise_list hpath (hu.membersAt _).1 ?_ (fun _ _ _ => under_of_mem_columnFaults)
      intro c _
      unfold columnFaults
      split
      · split <;> simp
      · simp
    have hlinks : (linkFields.flatMap fun field => u.listFaults path field ++
        (u.membersAt field).flatMap fun l => l.2.faults true (path ++ [field, l.1])).Pairwise Before := by
      have hkeys : linkFields.Pairwise fun k k' => SchemaError.fields.idxOf k < SchemaError.fields.idxOf k' := by
        decide
      refine pairwise_flatMap id ?_ (fun _ _ _ => under_list fun _ _ _ => under_of_mem_faults) (hkeys.imp hbefore)
      intro field _
      refine pairwise_list hpath (hu.membersAt field).1 ?_ (fun _ _ _ => under_of_mem_faults)
      intro l hl
      have heven : (path ++ [field, l.1]).length % 2 = 0 := by
        simp only [List.length_append, List.length_cons, List.length_nil]
        omega
      exact pairwise_faults ((hu.membersAt field).2 l hl) heven
    rw [faults_of_isObject hobject, bodyFaults, List.pairwise_append, List.pairwise_append]
    refine ⟨hstrings, ⟨hcolumns, hlinks, ?_⟩, ?_⟩
    -- faults under different fields come in the order of the fields
    · intro e he e' he'
      obtain ⟨field, hfield, hunder⟩ := exists_under_links he'
      have hkeys : ∀ k ∈ linkFields, SchemaError.fields.idxOf "columnList" < SchemaError.fields.idxOf k := by decide
      exact (under_columns he).before hunder (hbefore (hkeys field hfield))
    · intro e he e' he'
      obtain ⟨field, hfield, he⟩ := List.mem_flatMap.1 he
      obtain ⟨field', hfield', hunder⟩ : ∃ k ∈ "columnList" :: linkFields, e'.Under path k := by
        rcases List.mem_append.1 he' with he' | he'
        · exact ⟨_, List.mem_cons_self, under_columns he'⟩
        · obtain ⟨k, hk, hunder⟩ := exists_under_links he'
          exact ⟨k, List.mem_cons_of_mem _ hk, hunder⟩
      have hkeys : ∀ k ∈ stringFields isLink, ∀ k' ∈ "columnList" :: linkFields,
          SchemaError.fields.idxOf k < SchemaError.fields.idxOf k' := by
        cases isLink <;> decide
      exact (under_of_mem_stringFaults he).before hunder (hbefore (hkeys field hfield field' hfield'))
  · rw [faults_of_not_isObject (Bool.of_not_eq_true hobject)]
    exact List.pairwise_singleton _ _
termination_by sizeOf u
decreasing_by exact sizeOf_lt_of_mem_membersAt hl

/-! ### Values that are read -/

private theorem ordered_of_members_eq_nil (h : v.members = []) : v.Ordered := by
  refine ⟨?_, ?_⟩
  · rw [h]
    exact .nil
  · rw [h]
    exact List.forall_mem_nil _

/-- Members are put in order when an object is made of them. -/
theorem ordered_ofList {es : List (String × Json)} (h : ∀ e ∈ es, e.2.Ordered) : (object (.ofList es)).Ordered := by
  have hfold : ∀ m : KeyMap Json, (object m).Ordered →
      (object (es.foldl (fun m e => m.insert e.1 e.2) m)).Ordered := by
    induction es with
    | nil => exact fun m hm => hm
    | cons e es ih =>
      obtain ⟨he, hes⟩ := List.forall_mem_cons.1 h
      rintro m ⟨hascending, hmembers⟩
      refine ih hes _ ⟨KeyMap.place_ascending hascending, ?_⟩
      intro x hx
      rcases KeyMap.mem_place hx with rfl | hx
      · exact he
      · exact hmembers x hx
  exact hfold .empty (ordered_of_members_eq_nil rfl)

namespace Reader

/-- The members that are read are in order if the values under them are. -/
theorem ordered_members {depth : Nat} {cs : List Char} {r : Reading Char (List (String × Json)) cs.length}
    (hvalue : ∀ {cs} {r : Reading Char Json cs.length}, value depth cs = .ok r → r.value.Ordered)
    (h : members depth cs = .ok r) : ∀ e ∈ r.value, e.2.Ordered := by
  rw [members] at h
  split at h
  · cases h
  · rename_i r₀ hskip
    obtain ⟨key, hkey, h⟩ := bind_eq_ok h
    dsimp only at h
    split at h
    · rename_i r₁ hskip₁
      obtain ⟨w, hw, h⟩ := bind_eq_ok h
      split at h
      · rename_i r₂ hskip₂
        obtain ⟨more, hmore, h⟩ := bind_eq_ok h
        cases h
        have hlt : r₂.length < cs.length := by
          have h₀ := length_lt_of_skip hskip
          have h₁ := length_lt_of_skip hskip₁
          have h₂ := length_lt_of_skip hskip₂
          have hk := key.lt
          have hl := w.lt
          omega
        exact List.forall_mem_cons.2 ⟨hvalue hw, ordered_members hvalue hmore⟩
      · cases h
        exact List.forall_mem_singleton.2 (hvalue hw)
      · cases h
      · cases h
    · cases h
    · cases h
  · cases h
termination_by cs.length

private theorem members_number {negative : Bool} {cs : List Char} {r : Reading Char Json cs.length}
    (h : number negative cs = .ok r) : r.value.members = [] := by
  obtain ⟨whole, -, h⟩ := bind_eq_ok h
  obtain ⟨fraction, -, h⟩ := bind_eq_ok h
  obtain ⟨exponent, -, h⟩ := bind_eq_ok h
  split at h
  · cases h
  · cases h
    rfl

/-- Objects are read with their members in order. -/
theorem ordered_value {depth : Nat} {cs : List Char} {r : Reading Char Json cs.length} (h : value depth cs = .ok r) :
    r.value.Ordered := by
  rw [value] at h
  split at h
  · cases h
  · dsimp only at h
    split at h
    · obtain ⟨s, -, h⟩ := bind_eq_ok h
      cases h
      exact ordered_of_members_eq_nil rfl
    · split at h
      · split at h
        · cases h
        · split at h
          · cases h
            exact ordered_of_members_eq_nil rfl
          · obtain ⟨items, -, h⟩ := bind_eq_ok h
            cases h
            exact ordered_of_members_eq_nil rfl
      · split at h
        · split at h
          · cases h
          · split at h
            · cases h
              exact ordered_of_members_eq_nil rfl
            · obtain ⟨entries, hentries, h⟩ := bind_eq_ok h
              cases h
              exact ordered_ofList (ordered_members ordered_value hentries)
        · split at h
          · obtain ⟨n, hn, h⟩ := bind_eq_ok h
            have hnil := members_number hn
            cases h
            exact ordered_of_members_eq_nil hnil
          · split at h
            · obtain ⟨n, hn, h⟩ := bind_eq_ok h
              have hnil := members_number hn
              cases h
              exact ordered_of_members_eq_nil hnil
            · split at h
              · obtain ⟨word, -, h⟩ := bind_eq_ok h
                cases h
                exact ordered_of_members_eq_nil rfl
              · split at h
                · obtain ⟨word, -, h⟩ := bind_eq_ok h
                  cases h
                  exact ordered_of_members_eq_nil rfl
                · split at h
                  · obtain ⟨word, -, h⟩ := bind_eq_ok h
                    cases h
                    exact ordered_of_members_eq_nil rfl
                  · cases h
termination_by depth

end Reader

/-- The objects in the value of a text list their members in ascending order. -/
theorem ordered_of_parse {s : String} {v : Json} (h : parse s = .ok v) : v.Ordered := by
  obtain ⟨r, hr, h⟩ := bind_eq_ok h
  split at h
  · cases h
    exact Reader.ordered_value hr
  · cases h

end Json

/-- The first of errors in order is the one that comes before all others. -/
theorem SchemaError.head?_eq_some_iff {es : List SchemaError} (h : es.Pairwise Before) {e : SchemaError} :
    es.head? = some e ↔ e ∈ es ∧ ∀ e' ∈ es, e' ≠ e → e.Before e' := by
  cases es with
  | nil => simp
  | cons d es =>
    obtain ⟨hd, -⟩ := List.pairwise_cons.1 h
    constructor
    · intro hhead
      obtain rfl : d = e := Option.some.inj hhead
      refine ⟨List.mem_cons_self, ?_⟩
      intro e' he' hne
      rcases List.mem_cons.1 he' with rfl | he'
      · exact absurd rfl hne
      · exact hd e' he'
    · rintro ⟨he, hfirst⟩
      rcases List.mem_cons.1 he with rfl | he
      · rfl
      · by_cases hne : d = e
        · rw [hne]
          rfl
        · exact absurd (hd e he) (hfirst d List.mem_cons_self hne).asymm

/-- Paths are written as the root and their keys, with a point before each. -/
theorem SchemaError.pathText_eq (path : List String) : pathText path = "$" ++ String.join (path.map ("." ++ ·)) := by
  unfold pathText
  generalize "$" = root
  induction path generalizing root with
  | nil => simp
  | cons key path ih =>
    rw [List.foldl_cons, ih]
    simp [String.append_assoc]

/-- Loading succeeds exactly on schemas, and gives the table that comes of adding all columns and relationships one
by one. Otherwise it reports the violation that comes before all others, if objects list their members in ascending
order, as in all values of texts. Paths are written with points from the root on. -/
theorem Table.ofJson_exact :
    (∀ v t, Table.ofJson v = .ok t ↔ v.IsSchema ∧ t = v.table) ∧
    (∀ v : Json, v.Ordered → ∀ e, Table.ofJson v = .error e ↔
      v.Violates e ∧ ∀ e', v.Violates e' → e' ≠ e → e.Before e') ∧
    (∀ s v, Json.parse s = .ok v → v.Ordered) ∧
    ∀ path, SchemaError.pathText path = "$" ++ String.join (path.map ("." ++ ·)) := by
  refine ⟨?_, ?_, fun s v => Json.ordered_of_parse, SchemaError.pathText_eq⟩
  · intro v t
    rw [ofJson_eq, settle_eq_ok_iff, Json.isSchema_iff, List.eq_nil_iff_forall_not_mem]
    simp only [Json.mem_faults_iff]
  · intro v hv e
    have hpairwise : (v.faults false []).Pairwise SchemaError.Before := Json.pairwise_faults hv rfl
    rw [ofJson_eq, settle_eq_error_iff, SchemaError.head?_eq_some_iff hpairwise]
    simp only [Json.mem_faults_iff]

/-- A schema with faults under its columns and under a relationship, whose keys do not stand in order. -/
def misnamedSchema : String :=
  "\x7b\"relationshipInfo\": \x7b\"owner\": \x7b\"tableName\": 1\x7d\x7d, " ++
    "\"columnList\": \x7b\"b\": \"blob\", \"a\": 1\x7d, \"tableName\": \"orders\"\x7d"

/-- The fault of the column that comes first by its key is reported. -/
theorem Table.ofJson_exact_misnamed :
    ∃ v, Json.parse misnamedSchema = .ok v ∧ v.Ordered ∧ v.Violates (.invalidValue ["columnList", "a"] .typeName) ∧
      ∀ e, v.Violates e → e ≠ .invalidValue ["columnList", "a"] .typeName →
        (SchemaError.invalidValue ["columnList", "a"] .typeName).Before e := by
  have hcheck : ((Json.parse misnamedSchema).toOption.any fun v => decide ((Table.ofJson v).map (fun _ => ()) =
      .error (.invalidValue ["columnList", "a"] .typeName))) = true := by decide +kernel
  obtain ⟨v, hv, herror⟩ := exists_of_any_toOption hcheck
  have hordered : v.Ordered := Table.ofJson_exact.2.2.1 _ v hv
  have hfirst := (Table.ofJson_exact.2.1 v hordered _).1 (eq_error_of_map (of_decide_eq_true herror))
  exact ⟨v, hv, hordered, hfirst⟩

end FormulaQuery
