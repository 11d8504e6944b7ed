/-!
# Maps in key order

A map from texts to values that lists its entries in ascending order of their keys. The order of texts is that of
their code points, which is also the order of their UTF-8 bytes.
-/

namespace FormulaQuery

structure KeyMap (α : Type) where
  entries : List (String × α)
deriving DecidableEq, Repr

namespace KeyMap

variable {α : Type}

def empty : KeyMap α := ⟨[]⟩

/-- Puts an entry at its place in a list that ascends; an entry with the same key is replaced. -/
def place (key : String) (value : α) : List (String × α) → List (String × α)
  | [] => [(key, value)]
  | e :: es =>
    if key < e.1 then (key, value) :: e :: es
    else if key = e.1 then (key, value) :: es
    else e :: place key value es

def find? (m : KeyMap α) (key : String) : Option α := m.entries.lookup key

/-- Adds an entry, in place of one with the same key. -/
def insert (m : KeyMap α) (key : String) (value : α) : KeyMap α := ⟨place key value m.entries⟩

/-- Adds an entry unless there is one with the same key. -/
def insertNew (m : KeyMap α) (key : String) (value : α) : KeyMap α :=
  if (m.find? key).isSome then m else m.insert key value

/-- The last of the entries with one key counts. -/
def ofList (es : List (String × α)) : KeyMap α := es.foldl (fun m e => m.insert e.1 e.2) empty

/-- The entries of both maps; where both have a key, that of the first map counts. -/
def union (m n : KeyMap α) : KeyMap α := n.entries.foldl (fun m e => m.insertNew e.1 e.2) m

def keys (m : KeyMap α) : List String := m.entries.map (·.1)

def values (m : KeyMap α) : List α := m.entries.map (·.2)

def size (m : KeyMap α) : Nat := m.entries.length

/-- Puts a key at its place in a list that ascends, unless it is there. -/
def placeKey (key : String) : List String → List String
  | [] => [key]
  | k :: ks => if key < k then key :: k :: ks else if key = k then k :: ks else k :: placeKey key ks

/-- The keys in ascending order, each once. -/
def sortKeys (keys : List String) : List String := keys.foldl (fun ks k => placeKey k ks) []

theorem sizeOf_lookup_lt [SizeOf α] {es : List (String × α)} {key : String} {value : α}
    (h : es.lookup key = some value) : sizeOf value < sizeOf es := by
  induction es with
  | nil => cases h
  | cons e es ih =>
    obtain ⟨k, v⟩ := e
    simp only [List.cons.sizeOf_spec, Prod.mk.sizeOf_spec]
    rw [List.lookup_cons] at h
    split at h
    · cases h
      omega
    · have := ih h
      omega

theorem sizeOf_find?_lt [SizeOf α] {m : KeyMap α} {key : String} {value : α} (h : m.find? key = some value) :
    sizeOf value < sizeOf m := by
  obtain ⟨es⟩ := m
  have : sizeOf value < sizeOf es := sizeOf_lookup_lt h
  simp only [KeyMap.mk.sizeOf_spec]
  omega

end KeyMap

end FormulaQuery
