import FormulaQuery.Proofs.KeyMap
import FormulaQuery.Table.Loader

/-!
# Loading a schema in two steps

What is wrong with a JSON value as a schema is listed in the order in which it is met (`Json.faults`), and the table
that a value describes is put together by adding its columns and relationships one by one (`Json.table`), whether or
not something is wrong. Loading gives the table if there are no faults, and the first fault otherwise
(`Table.ofJson_eq`).
-/

namespace FormulaQuery

/-! ### Members of values -/

namespace Json

/-- The members of an object. Other values have none. -/
def members : Json → List (String × Json)
  | object m => m.entries
  | _ => []

def isObject : Json → Bool
  | object _ => true
  | _ => false

def member? (v : Json) (key : String) : Option Json := v.members.lookup key

/-- The members of the object under a key. -/
def membersAt (v : Json) (key : String) : List (String × Json) := ((v.member? key).map members).getD []

/-- The string under a key, or the empty text if there is none. -/
def stringAt (v : Json) (key : String) : String :=
  match v.member? key with
  | some (string s) => s
  | _ => ""

/-- The type of values that a value names. -/
def type? : Json → Option ValueType
  | string s => ValueType.ofSpelling? s
  | _ => none

variable {v : Json} {key : String}

theorem membersAt_of_member? {w : Json} (h : v.member? key = some w) : v.membersAt key = w.members := by
  rw [membersAt, h]
  rfl

theorem membersAt_of_member?_eq_none (h : v.member? key = none) : v.membersAt key = [] := by
  rw [membersAt, h]
  rfl

theorem mem_membersAt {e : String × Json} : e ∈ v.membersAt key ↔ ∃ w, v.member? key = some w ∧ e ∈ w.members := by
  unfold membersAt
  cases v.member? key with
  | none => simp
  | some w => simp

private theorem sizeOf_lt_of_mem_members {e : String × Json} (h : e ∈ v.members) : sizeOf e.2 < sizeOf v := by
  cases v with
  | object m =>
    obtain ⟨entries⟩ := m
    obtain ⟨k, w⟩ := e
    have hlt : sizeOf (k, w) < sizeOf entries := List.sizeOf_lt_of_mem h
    simp only [Prod.mk.sizeOf_spec] at hlt
    simp only [object.sizeOf_spec, KeyMap.mk.sizeOf_spec]
    omega
  | _ => cases h

theorem sizeOf_lt_of_mem_membersAt {e : String × Json} (h : e ∈ v.membersAt key) : sizeOf e.2 < sizeOf v := by
  obtain ⟨w, hw, he⟩ := mem_membersAt.1 h
  have hmember : sizeOf w < sizeOf v := sizeOf_lt_of_mem_members (KeyMap.mem_of_lookup hw)
  exact Nat.lt_trans (sizeOf_lt_of_mem_members he) hmember

/-! ### The table that a value describes -/

/-- The table of an object: its columns and relationships are added in the order in which the object lists them. -/
def table (v : Json) : Table :=
  let columns := (v.membersAt "columnList").map fun c => (c.1, c.2.type?.getD .null)
  let links (field : String) : List (String × Link Table) :=
    (v.membersAt field).attach.map fun l => (l.1.1, ⟨l.1.2.stringAt "joinColumn", l.1.2.table⟩)
  let bare := columns.foldl (fun t c => t.withColumn c.1 c.2) (.ofName (v.stringAt "tableName"))
  let direct := (links "relationshipInfo").foldl (fun t l => t.withDirect l.1 l.2) bare
  (links "inverseRelationshipInfo").foldl (fun t l => t.withInverse l.1 l.2) direct
termination_by sizeOf v
decreasing_by exact sizeOf_lt_of_mem_membersAt l.2

/-- The relationship of an object: the column that it goes by and the table that it leads to. -/
def link (v : Json) : Link Table := ⟨v.stringAt "joinColumn", v.table⟩

/-! ### Faults -/

/-- The keys of relationships. -/
def linkFields : List String := ["relationshipInfo", "inverseRelationshipInfo"]

/-- The keys under which an object has to have a string. -/
def stringFields (isLink : Bool) : List String := if isLink then ["tableName", "joinColumn"] else ["tableName"]

/-- What is wrong with the string that an object has to have under a key. -/
def stringFaults (path : List String) (v : Json) (field : String) : List SchemaError :=
  match v.member? field with
  | some (string _) => []
  | some _ => [.invalidValue (path ++ [field]) .string]
  | none => [.missingField path field]

/-- What is wrong with the object that an object may have under a key. -/
def listFaults (path : List String) (v : Json) (field : String) : List SchemaError :=
  match v.member? field with
  | some (object _) => []
  | some _ => [.invalidValue (path ++ [field]) .object]
  | none => []

/-- What is wrong with a column of the list at a path. -/
def columnFaults (path : List String) (c : String × Json) : List SchemaError :=
  match c.2 with
  | string s => if (ValueType.ofSpelling? s).isSome then [] else [.unknownType path c.1 s]
  | _ => [.invalidValue (path ++ [c.1]) .typeName]

/-- All that is wrong with a value at a path as the description of a table, or of a relationship to one. -/
def faults (isLink : Bool) (path : List String) (v : Json) : List SchemaError :=
  if v.isObject then
    (stringFields isLink).flatMap (stringFaults path v) ++
      (listFaults path v "columnList" ++
        (v.membersAt "columnList").flatMap (columnFaults (path ++ ["columnList"]))) ++
      linkFields.flatMap fun field => listFaults path v field ++
        (v.membersAt field).attach.flatMap fun l => l.1.2.faults true (path ++ [field, l.1.1])
  else [.invalidValue path .object]
termination_by sizeOf v
decreasing_by exact sizeOf_lt_of_mem_membersAt l.2

/-- All that is wrong with the lists of an object at a path. -/
def bodyFaults (path : List String) (v : Json) : List SchemaError :=
  (listFaults path v "columnList" ++ (v.membersAt "columnList").flatMap (columnFaults (path ++ ["columnList"]))) ++
    linkFields.flatMap fun field => listFaults path v field ++
      (v.membersAt field).flatMap fun l => l.2.faults true (path ++ [field, l.1])

theorem faults_of_isObject {v : Json} (h : v.isObject = true) (isLink : Bool) (path : List String) :
    v.faults isLink path = (stringFields isLink).flatMap (stringFaults path v) ++ bodyFaults path v := by
  have hattach : ∀ field, ((v.membersAt field).attach.flatMap fun l => l.1.2.faults true (path ++ [field, l.1.1])) =
      (v.membersAt field).flatMap fun l => l.2.faults true (path ++ [field, l.1]) := by
    intro field
    rw [← List.flatMap_map Subtype.val (fun l : String × Json => l.2.faults true (path ++ [field, l.1])),
      List.attach_map_subtype_val]
  rw [faults, if_pos h, bodyFaults, List.append_assoc]
  simp only [hattach]

theorem faults_of_not_isObject {v : Json} (h : v.isObject = false) (isLink : Bool) (path : List String) :
    v.faults isLink path = [.invalidValue path .object] := by
  rw [faults, h, if_neg Bool.false_ne_true]

/-- Entries that are added one by one to a table that otherwise stays as it is. -/
private theorem foldl_add {α : Type} (add : Table → String → α → Table) (put : NameMap α → Table)
    (h : ∀ m name a, add (put m) name a = put (m.insert name a)) (es : List (String × α)) :
    es.foldl (fun t e => add t e.1 e.2) (put .empty) = put (.ofList es) := by
  unfold NameMap.ofList
  generalize NameMap.empty = m
  induction es generalizing m with
  | nil => rfl
  | cons e es ih => rw [List.foldl_cons, List.foldl_cons, h, ih]

/-- The table of a value, with its columns and relationships gathered first. -/
theorem table_eq (v : Json) : v.table =
    ⟨v.stringAt "tableName", .ofList ((v.membersAt "columnList").map fun c => (c.1, c.2.type?.getD .null)),
      .ofList ((v.membersAt "relationshipInfo").map fun l => (l.1, l.2.link)),
      .ofList ((v.membersAt "inverseRelationshipInfo").map fun l => (l.1, l.2.link))⟩ := by
  have hlinks : ∀ field, ((v.membersAt field).attach.map fun l => (l.1.1, l.1.2.link)) =
      (v.membersAt field).map fun l => (l.1, l.2.link) :=
    fun field => List.attach_map_val (f := fun l : String × Json => (l.1, l.2.link))
  unfold link at hlinks ⊢
  rw [table, Table.ofName]
  simp only [hlinks]
  rw [foldl_add Table.withColumn (fun m => ⟨_, m, .empty, .empty⟩) (fun _ _ _ => rfl),
    foldl_add Table.withDirect (fun m => ⟨_, _, m, .empty⟩) (fun _ _ _ => rfl),
    foldl_add Table.withInverse (fun m => ⟨_, _, _, m⟩) (fun _ _ _ => rfl)]

end Json

/-! ### Loading -/

namespace Table

/-- A value, unless there are faults; then the first of them. -/
def settle {α : Type} (faults : List SchemaError) (a : α) : Except SchemaError α :=
  match faults with
  | [] => .ok a
  | e :: _ => .error e

section Settle

variable {α β : Type} {faults more : List SchemaError} {a : α} {b : β}

private theorem settle_bind {f : α → Except SchemaError β} (h : f a = settle more b) :
    (settle faults a >>= f) = settle (faults ++ more) b := by
  cases faults with
  | nil => exact h
  | cons e es => rfl

private theorem settle_map (f : α → β) : (settle faults a >>= fun x => pure (f x)) = settle faults (f a) := by
  cases faults <;> rfl

theorem settle_eq_ok_iff {x : α} : settle faults a = .ok x ↔ faults = [] ∧ x = a := by
  cases faults with
  | nil => simp [settle, eq_comm]
  | cons e es => simp [settle]

theorem settle_eq_error_iff {e : SchemaError} : settle faults a = .error e ↔ faults.head? = some e := by
  cases faults with
  | nil => simp [settle]
  | cons e es => simp [settle]

end Settle

variable {m : KeyMap Json} {path : List String}

private theorem readString_eq (m : KeyMap Json) (path : List String) (field : String) :
    readString m path field = settle (Json.stringFaults path (.object m) field) ((Json.object m).stringAt field) := by
  have hmember : (Json.object m).member? field = m.find? field := rfl
  unfold readString Json.stringFaults Json.stringAt
  rw [hmember]
  cases m.find? field with
  | none => rfl
  | some w => cases w <;> rfl

private theorem readType_eq (path : List String) (c : String × Json) :
    readType path c.1 c.2 = settle (Json.columnFaults path c) (c.2.type?.getD .null) := by
  obtain ⟨column, w⟩ := c
  cases w with
  | string s =>
    unfold readType Json.columnFaults Json.type?
    dsimp only
    generalize ValueType.ofSpelling? s = type
    cases type <;> rfl
  | _ => rfl

private theorem mapM_readType_eq (path : List String) (cs : List (String × Json)) :
    (cs.mapM fun c => do return (c.1, ← readType path c.1 c.2)) =
      settle (cs.flatMap (Json.columnFaults path)) (cs.map fun c => (c.1, c.2.type?.getD .null)) := by
  induction cs with
  | nil => rfl
  | cons c cs ih =>
    rw [List.mapM_cons, ih, readType_eq, settle_map (fun t => (c.1, t))]
    exact settle_bind (settle_map _)

private theorem readColumns_eq (m : KeyMap Json) (path : List String) :
    readColumns m path = settle (Json.listFaults path (.object m) "columnList" ++
      ((Json.object m).membersAt "columnList").flatMap (Json.columnFaults (path ++ ["columnList"])))
      (.ofList (((Json.object m).membersAt "columnList").map fun c => (c.1, c.2.type?.getD .null))) := by
  have hmember : (Json.object m).member? "columnList" = m.find? "columnList" := rfl
  unfold readColumns Json.listFaults Json.membersAt
  rw [hmember]
  cases m.find? "columnList" with
  | none => rfl
  | some w =>
    cases w with
    | object columns =>
      dsimp only
      rw [mapM_readType_eq]
      exact settle_map _
    | _ => rfl

/-- An object is loaded as the table that it describes, wherever it stands. -/
def Loads (v : Json) : Prop :=
  ∀ m path, v = .object m → readTable (v.stringAt "tableName") m path = settle (v.bodyFaults path) v.table

private theorem readEntries_eq {links : List (String × Json)} (ih : ∀ l ∈ links, Loads l.2) (path : List String) :
    readEntries links path = settle (links.flatMap fun l => l.2.faults true (path ++ [l.1]))
      (links.map fun l => (l.1, l.2.link)) := by
  induction links with
  | nil =>
    rw [readEntries]
    rfl
  | cons l links ihLinks =>
    obtain ⟨hl, hlinks⟩ := List.forall_mem_cons.1 ih
    obtain ⟨name, w⟩ := l
    cases w with
    | object m =>
      have hstrings : Json.stringFields true = ["tableName", "joinColumn"] := rfl
      rw [readEntries, List.flatMap_cons, Json.faults_of_isObject rfl, hstrings, readString_eq, readString_eq]
      simp only [List.flatMap_cons, List.flatMap_nil, List.append_nil, List.append_assoc]
      refine settle_bind (settle_bind ?_)
      rw [hl m _ rfl, ihLinks hlinks]
      exact settle_bind (settle_map _)
    | _ =>
      rw [readEntries, List.flatMap_cons, Json.faults_of_not_isObject rfl]
      · rfl
      · rintro _ ⟨⟩

private theorem readLinks_eq (field : String) (ih : ∀ l ∈ (Json.object m).membersAt field, Loads l.2)
    (path : List String) :
    readLinks m path field = settle (Json.listFaults path (.object m) field ++
      ((Json.object m).membersAt field).flatMap fun l => l.2.faults true (path ++ [field, l.1]))
      (.ofList (((Json.object m).membersAt field).map fun l => (l.1, l.2.link))) := by
  rw [readLinks]
  split
  · rename_i hnone
    have hmember : (Json.object m).member? field = none := hnone
    rw [Json.listFaults, hmember, Json.membersAt_of_member?_eq_none hmember]
    rfl
  · rename_i links hlinks
    have hmember : (Json.object m).member? field = some (.object ⟨links⟩) := hlinks
    rw [Json.membersAt_of_member? hmember] at ih ⊢
    have hentries := readEntries_eq ih (path ++ [field])
    simp only [List.append_assoc, List.singleton_append] at hentries
    rw [Json.listFaults, hmember, List.nil_append]
    dsimp only [Json.members] at hentries ⊢
    rw [hentries]
    exact settle_map _
  · rename_i w hobject hw
    have hmember : (Json.object m).member? field = some w := hw
    rw [Json.listFaults, hmember, Json.membersAt_of_member? hmember]
    cases w with
    | object links => exact absurd rfl (hobject links.entries)
    | _ => rfl

/-- Objects are loaded as the tables that they describe. -/
theorem loads (v : Json) : Loads v := by
  intro m path hv
  have ih : ∀ field, ∀ l ∈ v.membersAt field, Loads l.2 := fun field l hl => loads l.2
  subst hv
  rw [readTable, readColumns_eq, readLinks_eq _ (ih _), readLinks_eq _ (ih _), Json.table_eq,
    Json.bodyFaults, Json.linkFields, List.flatMap_cons, List.flatMap_singleton]
  exact settle_bind (settle_bind (settle_map _))
termination_by sizeOf v
decreasing_by exact Json.sizeOf_lt_of_mem_membersAt hl

/-- Loading gives the table that a value describes if nothing is wrong with the value, and otherwise the first
fault. -/
theorem ofJson_eq (v : Json) : ofJson v = settle (v.faults false []) v.table := by
  cases v with
  | object m =>
    have hstrings : Json.stringFields false = ["tableName"] := rfl
    rw [ofJson, readString_eq, Json.faults_of_isObject rfl, hstrings, List.flatMap_singleton]
    exact settle_bind (loads (.object m) m [] rfl)
  | _ =>
    rw [ofJson, Json.faults_of_not_isObject rfl]
    · rfl
    · rintro _ ⟨⟩

end Table

end FormulaQuery
