/-!
Finite maps listed by ascending key.

Keys have an integer rank, and a map lists its entries in the strict order of their ranks, so equal
maps have equal lists. Where a key is written twice, the last writer wins.
-/

namespace DebugHierarchy

/-- Keys in a linear order, given by an integer that tells them apart. -/
class Ranked (κ : Type) where
  rank : κ → Int
  rank_injective : ∀ {a b : κ}, rank a = rank b → a = b

instance : Ranked Int := ⟨id, id⟩

variable {κ α β : Type} [Ranked κ]

/-- Puts `v` at key `k` in an ascending list of entries, in the place of an entry that is there. -/
def insertEntry (k : κ) (v : α) : List (κ × α) → List (κ × α)
  | [] => [(k, v)]
  | (k', v') :: rest =>
    if Ranked.rank k < Ranked.rank k' then (k, v) :: (k', v') :: rest
    else if Ranked.rank k = Ranked.rank k' then (k, v) :: rest
    else (k', v') :: insertEntry k v rest

theorem mem_of_mem_insertEntry {k : κ} {v : α} {e : κ × α} {entries : List (κ × α)}
    (h : e ∈ insertEntry k v entries) : e = (k, v) ∨ e ∈ entries := by
  induction entries with
  | nil => simpa [insertEntry] using h
  | cons e' rest ih =>
    obtain ⟨k', v'⟩ := e'
    simp only [insertEntry] at h
    split at h
    · simpa using h
    · split at h
      · rcases List.mem_cons.1 h with rfl | h
        · exact .inl rfl
        · exact .inr (List.mem_cons_of_mem _ h)
      · rcases List.mem_cons.1 h with rfl | h
        · exact .inr List.mem_cons_self
        · exact (ih h).imp_right (List.mem_cons_of_mem _)

/-- A look-up finds what was written last. -/
theorem find?_insertEntry [DecidableEq κ] (k j : κ) (v : α) (entries : List (κ × α)) :
    (insertEntry k v entries).find? (·.1 = j) =
      if k = j then some (k, v) else entries.find? (·.1 = j) := by
  induction entries with
  | nil => by_cases same : k = j <;> simp [insertEntry, same]
  | cons e rest ih =>
    obtain ⟨k', v'⟩ := e
    simp only [insertEntry]
    split
    · by_cases same : k = j <;> simp [same]
    · split
      · next rank =>
        obtain rfl := Ranked.rank_injective rank
        by_cases same : k = j <;> simp [same]
      · next other =>
        have apart : k ≠ k' := fun same => other (congrArg Ranked.rank same)
        rw [List.find?_cons, List.find?_cons, ih]
        by_cases here : k' = j
        · simp [here, here ▸ apart]
        · simp [here]

/-- Entries in strictly ascending order of their keys. -/
abbrev Ascending (entries : List (κ × α)) : Prop :=
  entries.Pairwise fun a b => Ranked.rank a.1 < Ranked.rank b.1

theorem ascending_insertEntry (k : κ) (v : α) {entries : List (κ × α)} (h : Ascending entries) :
    Ascending (insertEntry k v entries) := by
  induction entries with
  | nil => simp [insertEntry, Ascending]
  | cons e rest ih =>
    obtain ⟨k', v'⟩ := e
    obtain ⟨below, tail⟩ := List.pairwise_cons.1 h
    simp only [insertEntry]
    split
    · next less =>
        refine List.pairwise_cons.2 ⟨fun e he => ?_, h⟩
        rcases List.mem_cons.1 he with rfl | he
        · exact less
        · exact Int.lt_trans less (below e he)
    · next notLess =>
        split
        · next same => exact List.pairwise_cons.2 ⟨fun e he => same ▸ below e he, tail⟩
        · next other =>
            refine List.pairwise_cons.2 ⟨fun e he => ?_, ih tail⟩
            rcases mem_of_mem_insertEntry he with rfl | he
            · show Ranked.rank k' < Ranked.rank k; omega
            · exact below e he

/-- A finite map from ranked keys, listed in ascending order. -/
@[ext]
structure SortedMap (κ α : Type) [Ranked κ] where
  toList : List (κ × α)
  ascending : Ascending toList
  deriving DecidableEq

namespace SortedMap

def empty : SortedMap κ α := ⟨[], List.Pairwise.nil⟩

instance : Inhabited (SortedMap κ α) := ⟨empty⟩

def find? [DecidableEq κ] (m : SortedMap κ α) (k : κ) : Option α :=
  (m.toList.find? (·.1 = k)).map (·.2)

/-- Writes `v` at `k`, over a value that is there. -/
def insert (m : SortedMap κ α) (k : κ) (v : α) : SortedMap κ α :=
  ⟨insertEntry k v m.toList, ascending_insertEntry k v m.ascending⟩

/-- Writes entries in order, so that the last of two with one key stays. -/
def ofList (entries : List (κ × α)) : SortedMap κ α :=
  entries.foldl (fun m e => m.insert e.1 e.2) empty

section Lookup

variable [DecidableEq κ]

@[simp] theorem find?_empty (k : κ) : (empty : SortedMap κ α).find? k = none := rfl

theorem find?_insert (m : SortedMap κ α) (k j : κ) (v : α) :
    (m.insert k v).find? j = if k = j then some v else m.find? j := by
  rw [find?, insert, find?_insertEntry, find?]
  split <;> rfl

/-- Of the entries with one key, a map that is made of a list keeps the last. -/
theorem find?_ofList (entries : List (κ × α)) (k : κ) :
    (ofList entries).find? k = ((entries.filter (·.1 = k)).getLast?).map (·.2) := by
  suffices ∀ m : SortedMap κ α, (entries.foldl (fun m e => m.insert e.1 e.2) m).find? k =
      (((entries.filter (·.1 = k)).getLast?).map (·.2)).or (m.find? k) by
    rw [ofList, this, find?_empty, Option.or_none]
  induction entries with
  | nil => exact fun _ => rfl
  | cons e rest ih =>
    intro m
    rw [List.foldl_cons, ih, find?_insert]
    by_cases same : e.1 = k
    · rw [if_pos same, List.filter_cons_of_pos (by simpa using same), List.getLast?_cons]
      cases (rest.filter (·.1 = k)).getLast? <;> rfl
    · rw [if_neg same, List.filter_cons_of_neg (by simpa using same)]

/-- The keys are those at which there is a value. -/
theorem mem_keys_iff {m : SortedMap κ α} {k : κ} : k ∈ m.toList.map (·.1) ↔ (m.find? k).isSome := by
  rw [find?, Option.isSome_map, List.find?_isSome, List.mem_map]
  simp

end Lookup

def map (f : α → β) (m : SortedMap κ α) : SortedMap κ β :=
  ⟨m.toList.map fun e => (e.1, f e.2), by
    rw [Ascending, List.pairwise_map]
    exact m.ascending⟩

end SortedMap

end DebugHierarchy
