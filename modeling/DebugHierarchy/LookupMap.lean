/-!
Finite maps in which values are looked up by key.

A map lists its entries in the order in which their keys were first written. No reader of a map
depends on that order: an entry is found by its key alone.
-/

namespace DebugHierarchy

variable {κ μ α β : Type}

/-- Writes `v` at key `k`: over the value that is there, or else behind all entries. -/
def writeEntry [DecidableEq κ] (k : κ) (v : α) : List (κ × α) → List (κ × α)
  | [] => [(k, v)]
  | e :: rest => if e.1 = k then (k, v) :: rest else e :: writeEntry k v rest

theorem find?_writeEntry [DecidableEq κ] (k j : κ) (v : α) (entries : List (κ × α)) :
    (writeEntry k v entries).find? (·.1 = j) =
      if k = j then some (k, v) else entries.find? (·.1 = j) := by
  induction entries with
  | nil => by_cases same : k = j <;> simp [writeEntry, same]
  | cons e rest ih =>
    unfold writeEntry
    by_cases here : e.1 = k
    · by_cases same : k = j <;> simp [here, same]
    · rw [if_neg here, List.find?_cons, ih, List.find?_cons]
      by_cases found : e.1 = j
      · simp [found, show k ≠ j from fun same => here (found.trans same.symm)]
      · simp [found]

/-- A finite map from keys to values. -/
@[ext]
structure LookupMap (κ α : Type) where
  entries : List (κ × α)
  deriving DecidableEq

namespace LookupMap

def empty : LookupMap κ α := ⟨[]⟩

def find? [DecidableEq κ] (m : LookupMap κ α) (k : κ) : Option α :=
  (m.entries.find? (·.1 = k)).map (·.2)

/-- Writes `v` at `k`, over a value that is there. -/
def insert [DecidableEq κ] (m : LookupMap κ α) (k : κ) (v : α) : LookupMap κ α :=
  ⟨writeEntry k v m.entries⟩

/-- Writes `v` at `k`, which has no value yet. -/
def push (m : LookupMap κ α) (k : κ) (v : α) : LookupMap κ α := ⟨m.entries ++ [(k, v)]⟩

def map (f : α → β) (m : LookupMap κ α) : LookupMap κ β := ⟨m.entries.map fun e => (e.1, f e.2)⟩

def mapKeys (f : κ → μ) (m : LookupMap κ α) : LookupMap μ α := ⟨m.entries.map fun e => (f e.1, e.2)⟩

section Lookup

variable [DecidableEq κ] {m : LookupMap κ α} {k : κ} {v : α}

@[simp] theorem find?_empty (k : κ) : (empty : LookupMap κ α).find? k = none := rfl

theorem find?_insert (m : LookupMap κ α) (k j : κ) (v : α) :
    (m.insert k v).find? j = if k = j then some v else m.find? j := by
  rw [find?, insert, find?_writeEntry, find?]
  split <;> rfl

theorem find?_push (m : LookupMap κ α) (k j : κ) (v : α) :
    (m.push k v).find? j = (m.find? j).or (if k = j then some v else none) := by
  rw [find?, push, List.find?_append, Option.map_or, ← find?]
  by_cases same : k = j <;> simp [same]

theorem find?_map (f : α → β) (m : LookupMap κ α) (k : κ) :
    (m.map f).find? k = (m.find? k).map f := by
  simp only [find?, map, List.find?_map, Option.map_map]
  rfl

/-- A value is found where it was found under its old key. -/
theorem find?_mapKeys [DecidableEq μ] {f : κ → μ} (injective : Function.Injective f)
    (m : LookupMap κ α) (k : κ) : (m.mapKeys f).find? (f k) = m.find? k := by
  simp only [find?, mapKeys, List.find?_map, Option.map_map, Function.comp_def, injective.eq_iff]

theorem mem_of_find? (found : m.find? k = some v) : (k, v) ∈ m.entries := by
  obtain ⟨e, there, rfl⟩ := Option.map_eq_some_iff.1 found
  have same := List.find?_some there
  exact of_decide_eq_true same ▸ List.mem_of_find?_eq_some there

end Lookup

end LookupMap

end DebugHierarchy
