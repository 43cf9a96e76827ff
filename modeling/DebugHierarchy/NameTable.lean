import DebugHierarchy.Handle
import DebugHierarchy.LookupMap

/-!
Tables of names: strings by number, each string once.

A table has a list, which says what a number stands for, and a map, which says what number a
string has. Learning a string writes to both. Whatever a table learns, the map and the list stay
inverse to each other (`NameIndex.Inverse.addAll`), so looking a string up and reading a number
are (`find?_eq_some_iff`).
-/

namespace DebugHierarchy

/-- The port directions, and the mnemonics of the operations that have one of their own. -/
def dialectNames : List String :=
  ["input", "output", "inout", "hw.module", "hw.module.extern", "hw.instance",
    "hw.wire", "hw.output", "dbg.variable", "dbg.scope", "dbg.moduleinfo", "dbg.enumdef"]

/-- The strings every table starts with. -/
def reservedStrings : List String := "" :: dialectNames

/-- The numbers of strings, and the strings in the order of their numbers. -/
@[ext]
structure NameIndex where
  numbers : LookupMap String Name
  strings : List String
  deriving DecidableEq

namespace NameIndex

/-- The index that knows the empty string only. -/
def bare : NameIndex := ⟨LookupMap.empty.insert "" default, [""]⟩

/-- Learns a string and gives its number: the one it has, or the next free one. -/
def intern (t : NameIndex) (s : String) : Name × NameIndex :=
  match t.numbers.find? s with
  | some n => (n, t)
  | none =>
    let next : Name := ⟨t.strings.length⟩
    (next, ⟨t.numbers.insert s next, t.strings ++ [s]⟩)

def add (t : NameIndex) (s : String) : NameIndex := (t.intern s).2

def addAll (t : NameIndex) (ss : List String) : NameIndex := ss.foldl add t

theorem addAll_append_singleton (t : NameIndex) (ss : List String) (s : String) :
    t.addAll (ss ++ [s]) = (t.addAll ss).add s := List.foldl_append

/-- The index of a new table. -/
def fresh : NameIndex := bare.addAll dialectNames

/-- Whatever was learned before, a string that is learned is found at the number it is given. -/
theorem find?_add (t : NameIndex) (s : String) :
    (t.add s).numbers.find? s = some (t.intern s).1 := by
  rw [add, intern]
  split
  · assumption
  · rw [LookupMap.find?_insert, if_pos rfl]

/-- What stands in a list with one more entry stood there before, or it is that entry. -/
theorem getElem?_append_singleton {α : Type} {l : List α} {x y : α} {i : Nat} :
    (l ++ [x])[i]? = some y ↔ l[i]? = some y ∨ i = l.length ∧ x = y := by
  rcases Nat.lt_trichotomy i l.length with before | rfl | past
  · rw [List.getElem?_append_left before]
    simp [Nat.ne_of_lt before]
  · simp
  · have beyond : (l ++ [x])[i]? = none := List.getElem?_eq_none (by simp; omega)
    simp [beyond, List.getElem?_eq_none (Nat.le_of_lt past), Nat.ne_of_gt past]

/-- The map finds a string at a number just where the list has it in that place. -/
def Inverse (t : NameIndex) : Prop :=
  ∀ s n, t.numbers.find? s = some n ↔ t.strings[n.index]? = some s

variable {t : NameIndex} {s : String}

namespace Inverse

variable (inverse : t.Inverse)

include inverse

theorem find?_isSome_iff : (t.numbers.find? s).isSome ↔ s ∈ t.strings := by
  rw [Option.isSome_iff_exists, List.mem_iff_getElem?]
  constructor
  · rintro ⟨n, found⟩
    exact ⟨n.index, (inverse s n).1 found⟩
  · rintro ⟨i, there⟩
    exact ⟨⟨i⟩, (inverse s ⟨i⟩).2 there⟩

theorem find?_eq_none_iff : t.numbers.find? s = none ↔ s ∉ t.strings := by
  rw [← inverse.find?_isSome_iff, Bool.not_eq_true, Option.isSome_eq_false_iff,
    Option.isNone_iff_eq_none]

theorem nodup : t.strings.Nodup := by
  refine List.pairwise_iff_getElem.2 fun i j hi hj less same => ?_
  have first := (inverse _ ⟨i⟩).2 (List.getElem?_eq_getElem hi)
  rw [same, (inverse _ ⟨j⟩).2 (List.getElem?_eq_getElem hj)] at first
  cases first
  exact Nat.lt_irrefl _ less

theorem add_of_mem (known : s ∈ t.strings) : t.add s = t := by
  obtain ⟨n, found⟩ := Option.isSome_iff_exists.1 (inverse.find?_isSome_iff.2 known)
  rw [NameIndex.add, intern, found]

theorem strings_add_of_not_mem (new : s ∉ t.strings) : (t.add s).strings = t.strings ++ [s] := by
  rw [NameIndex.add, intern, inverse.find?_eq_none_iff.2 new]

/-- A string that is learned gets one more entry in the map and one in the
list, and both say the same. -/
theorem add (s : String) : (t.add s).Inverse := by
  by_cases known : s ∈ t.strings
  · rwa [inverse.add_of_mem known]
  · rw [NameIndex.add, intern, inverse.find?_eq_none_iff.2 known]
    intro r n
    dsimp only
    rw [LookupMap.find?_insert, getElem?_append_singleton, ← inverse r n]
    -- The new string had no number, and the new number no string.
    by_cases same : s = r
    · subst same
      rw [if_pos rfl, inverse.find?_eq_none_iff.2 known]
      simp [Handle.ext_iff, eq_comm]
    · rw [if_neg same]
      simp [same]

/-- **Maps and lists.** Whatever strings are learned, the map and the list
stay inverse to each other. -/
theorem addAll (ss : List String) : (t.addAll ss).Inverse := by
  induction ss generalizing t with
  | nil => exact inverse
  | cons s rest ih => exact ih (inverse.add s)

end Inverse

theorem bare_inverse : bare.Inverse := by
  intro s n
  rw [bare, LookupMap.find?_insert]
  by_cases empty : "" = s
  · subst empty
    obtain ⟨_ | i⟩ := n <;> simp [default]
  · obtain ⟨_ | i⟩ := n <;> simp [empty]

theorem fresh_inverse : fresh.Inverse := bare_inverse.addAll dialectNames

theorem fresh_strings : fresh.strings = reservedStrings := by decide

theorem prefix_addAll (t : NameIndex) (ss : List String) : t.strings <+: (t.addAll ss).strings := by
  induction ss generalizing t with
  | nil => exact ⟨[], List.append_nil _⟩
  | cons s rest ih =>
    refine List.IsPrefix.trans ?_ (ih (t.add s))
    unfold add intern
    split
    · exact ⟨[], List.append_nil _⟩
    · exact List.prefix_append _ _

end NameIndex

/-- The strings a table has learned, one after the other, beyond those it starts with. -/
structure NameTable extends NameIndex where
  made : ∃ learned, toNameIndex = NameIndex.fresh.addAll learned
  deriving DecidableEq

/-- A table that cannot number another string. -/
structure Overflow where
  count : Nat
  deriving DecidableEq, Repr

namespace NameTable

/-- The table that knows the reserved strings only. -/
def fresh : NameTable := ⟨.fresh, [], rfl⟩

instance : Inhabited NameTable := ⟨fresh⟩

def size (t : NameTable) : Nat := t.strings.length

/-- A table counts as empty when it knows at most the empty string; no table
with the reserved strings does. -/
def isEmpty (t : NameTable) : Bool := t.size ≤ 1

def text (t : NameTable) (n : Name) : Except Dangling String := n.expect t.strings[n.index]?

/-- The string with number `n`, empty when `n` names nothing. -/
def textD (t : NameTable) (n : Name) : String := t.strings[n.index]?.getD ""

def find? (t : NameTable) (s : String) : Option Name := t.numbers.find? s

/-- The number of `s`: the one it has, or the next free one. -/
def number (t : NameTable) (s : String) : Name := (t.toNameIndex.intern s).1

/-- Learns a string; a string the table knows already leaves it as it is. -/
def add (t : NameTable) (s : String) : NameTable where
  toNameIndex := t.toNameIndex.add s
  made := by
    obtain ⟨learned, made⟩ := t.made
    exact ⟨learned ++ [s], by rw [made, NameIndex.addAll_append_singleton]⟩

def addAll (t : NameTable) (ss : List String) : NameTable := ss.foldl add t

def intern (t : NameTable) (s : String) : Name × NameTable := (t.number s, t.add s)

/-- How many strings a table can number. -/
def capacity : Nat := 1 <<< 32

/-- Learns a string and gives its number, unless the string is new and the numbers are used up. -/
def tryIntern (t : NameTable) (s : String) : Except Overflow (Name × NameTable) :=
  if (t.find? s).isSome ∨ t.size < capacity then .ok (t.intern s) else .error ⟨t.size⟩

theorem ext {t u : NameTable} (same : t.toNameIndex = u.toNameIndex) : t = u := by
  cases t
  cases u
  cases same
  rfl

theorem inverse (t : NameTable) : t.Inverse := by
  obtain ⟨learned, made⟩ := t.made
  rw [made]
  exact NameIndex.fresh_inverse.addAll learned

theorem reserved (t : NameTable) : reservedStrings <+: t.strings := by
  obtain ⟨learned, made⟩ := t.made
  rw [made, ← NameIndex.fresh_strings]
  exact NameIndex.fresh.prefix_addAll learned

theorem text_eq_ok_iff {t : NameTable} {n : Name} {s : String} :
    t.text n = .ok s ↔ t.strings[n.index]? = some s := by
  unfold text Handle.expect
  cases t.strings[n.index]? <;> simp

/-- Looking a string up and reading a number are inverse to each other. -/
theorem find?_eq_some_iff {t : NameTable} {s : String} {n : Name} :
    t.find? s = some n ↔ t.text n = .ok s := by
  rw [text_eq_ok_iff]
  exact t.inverse s n

theorem text_default (t : NameTable) : t.text default = .ok "" := by
  obtain ⟨rest, strings⟩ := t.reserved
  rw [text_eq_ok_iff, ← strings]
  rfl

section Number

variable {t : NameTable} {s : String}

theorem find?_isSome_iff : (t.find? s).isSome ↔ s ∈ t.strings := t.inverse.find?_isSome_iff

theorem number_of_text {n : Name} (text : t.text n = .ok s) : t.number s = n := by
  have found : t.numbers.find? s = some n := find?_eq_some_iff.2 text
  rw [number, NameIndex.intern, found]

theorem text_number (known : s ∈ t.strings) : t.text (t.number s) = .ok s := by
  obtain ⟨n, found⟩ := Option.isSome_iff_exists.1 (find?_isSome_iff.2 known)
  have text := find?_eq_some_iff.1 found
  rwa [number_of_text text]

/-- A string that was learned is found at the number that it was given. -/
theorem text_add_number (t : NameTable) (s : String) : (t.add s).text (t.number s) = .ok s :=
  find?_eq_some_iff.1 (t.find?_add s)

theorem add_of_mem (known : s ∈ t.strings) : t.add s = t := ext (t.inverse.add_of_mem known)

theorem strings_add_of_not_mem (new : s ∉ t.strings) : (t.add s).strings = t.strings ++ [s] :=
  t.inverse.strings_add_of_not_mem new

theorem tryIntern_of_room (room : s ∈ t.strings ∨ t.size < capacity) :
    t.tryIntern s = .ok (t.number s, t.add s) := if_pos (room.imp_left find?_isSome_iff.2)

theorem tryIntern_of_full (full : ¬ (s ∈ t.strings ∨ t.size < capacity)) :
    t.tryIntern s = .error ⟨t.size⟩ := if_neg fun room => full (room.imp_left find?_isSome_iff.1)

end Number

end NameTable

end DebugHierarchy
