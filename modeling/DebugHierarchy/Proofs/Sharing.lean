import DebugHierarchy.Proofs.Permanence
import Mathlib.Data.List.Induction

/-!
Tables of names in several hands.

A table may have many holders, and every one of them may hand it strings and ask it for numbers.
Which strings a table knows, and in which order, is told by the calls alone: those it had from the
start, and then every other string where it was handed over for the first time, whoever did it.
Tables of other holders do not come into it.

* `NameHolders.History`: who holds what, and what was handed to which table;
* `History.note_tells`, `History.run_tells`: a call that is noted leads from a told state to a
  told one, and so does any run;
* `NameHolders.Answers`: strings and numbers of a table answer to each
  other, through whichever holder;
* `shared_tables_answer`: both for the state after any run.
-/

namespace DebugHierarchy

theorem NamePool.set_self {p : NamePool} {id : TableId} {t : NameTable} (found : p.get id = .ok t) :
    p.set id t = p := by
  obtain ⟨inside, same⟩ := List.getElem?_eq_some_iff.1 (NamePool.get_eq_ok_iff.1 found)
  rw [NamePool.set, ← same, List.set_getElem_self]

namespace NameHolders

/-- The table of each holder, and the strings that each table was handed, in order. -/
structure History where
  held : List TableId
  handed : List (List String)

/-- What a table knows that was handed these strings. -/
def contents (handed : List String) : List String :=
  reservedStrings ++ (handed.filter (· ∉ reservedStrings)).eraseDups

namespace History

def start : History := ⟨[⟨0⟩], [[]]⟩

/-- Notes a call on a holder. Where there is no such holder nothing
happens, and a question is no news. -/
def note (x : History) (entry : Nat × Call) : History :=
  match x.held[entry.1]? with
  | none => x
  | some table =>
    match entry.2 with
    | .intern s | .tryIntern s => { x with handed := x.handed.modify table.index (· ++ [s]) }
    | .share => { x with held := x.held ++ [table] }
    | .fresh => ⟨x.held ++ [⟨x.handed.length⟩], x.handed ++ [[]]⟩
    | _ => x

def of (calls : List (Nat × Call)) : History := calls.foldl note start

/-- No table is to know more strings than it can number. -/
def Fits (x : History) : Prop := ∀ handed ∈ x.handed, (contents handed).length ≤ NameTable.capacity

/-- The holders and the tables are those of the history. -/
structure Tells (x : History) (h : NameHolders) : Prop where
  held : h.held = x.held
  /-- A table has the map and the list that come of what it was handed,
  one string after the other. -/
  tables : h.pool.tables.map (·.toNameIndex) = x.handed.map NameIndex.fresh.addAll
  inside : ∀ id ∈ x.held, id.index < x.handed.length

end History

theorem mem_contents {handed : List String} {s : String} :
    s ∈ contents handed ↔ s ∈ reservedStrings ∨ s ∈ handed := by
  simp only [contents, List.mem_append, List.mem_eraseDups, List.mem_filter, decide_eq_true_eq]
  by_cases reserved : s ∈ reservedStrings <;> simp [reserved]

theorem contents_append_of_mem {handed : List String} {s : String} (known : s ∈ contents handed) :
    contents (handed ++ [s]) = contents handed := by
  rw [mem_contents] at known
  by_cases reserved : s ∈ reservedStrings
  · simp [contents, List.filter_append, reserved]
  · have old : s ∈ handed := known.resolve_left reserved
    simp [contents, List.filter_append, List.eraseDups_append, List.removeAll, reserved, old]

theorem contents_append_of_not_mem {handed : List String} {s : String} (new : s ∉ contents handed) :
    contents (handed ++ [s]) = contents handed ++ [s] := by
  rw [mem_contents, not_or] at new
  simp [contents, List.filter_append, List.eraseDups_append, List.removeAll, new.1, new.2,
    List.eraseDups_cons]

/-- The list of an index has what was handed to it, in order, and each string once. -/
theorem strings_addAll (handed : List String) :
    (NameIndex.fresh.addAll handed).strings = contents handed := by
  induction handed using List.reverseRecOn with
  | nil => exact NameIndex.fresh_strings.trans (List.append_nil _).symm
  | append_singleton before s ih =>
    have inverse := NameIndex.fresh_inverse.addAll before
    rw [NameIndex.addAll_append_singleton]
    by_cases known : s ∈ contents before
    · rw [inverse.add_of_mem (ih ▸ known), contents_append_of_mem known, ih]
    · rw [inverse.strings_add_of_not_mem (ih ▸ known), contents_append_of_not_mem known, ih]

def Call.asks : Call → Bool
  | .find _ | .text _ | .size | .isEmpty | .sameTable _ => true
  | .intern _ | .tryIntern _ | .share | .fresh => false

/-- A question changes nothing. -/
theorem call_of_asks {h next : NameHolders} {holder : Nat} {c : Call} {reply : Reply}
    (asks : c.asks = true) (answered : h.call holder c = .ok (reply, next)) : next = h := by
  obtain ⟨id, _, answered⟩ := bind_eq_ok_iff.1 answered
  obtain ⟨t, _, answered⟩ := bind_eq_ok_iff.1 answered
  cases c with
  | find | size | isEmpty =>
    cases answered
    rfl
  | text n =>
    obtain ⟨s, _, answered⟩ := bind_eq_ok_iff.1 answered
    cases answered
    rfl
  | sameTable other =>
    obtain ⟨id', _, answered⟩ := bind_eq_ok_iff.1 answered
    cases answered
    rfl
  | intern | tryIntern | share | fresh => cases asks

/-- The holder refers to the table `t`, which has the number `id`. -/
structure Sees (h : NameHolders) (holder : Nat) (id : TableId) (t : NameTable) : Prop where
  table : h.tableOf holder = .ok id
  found : h.pool.get id = .ok t

namespace Sees

variable {h : NameHolders} {holder : Nat} {id : TableId} {t : NameTable} (sees : h.Sees holder id t)

include sees

theorem answer_intern (s : String) :
    h.call holder (.intern s) =
      .ok (.name (t.number s), { h with pool := h.pool.set id (t.add s) }) := by
  simp only [call, sees.table, sees.found, bind, Except.bind]
  rfl

theorem answer_tryIntern {s : String} (room : s ∈ t.strings ∨ t.size < NameTable.capacity) :
    h.call holder (.tryIntern s) =
      .ok (.learned (.ok (t.number s)), { h with pool := h.pool.set id (t.add s) }) := by
  simp only [call, sees.table, sees.found, bind, Except.bind, NameTable.tryIntern_of_room room]
  rfl

theorem answer_find (s : String) : h.call holder (.find s) = .ok (.found (t.find? s), h) := by
  simp only [call, sees.table, sees.found, bind, Except.bind]
  rfl

theorem answer_size : h.call holder .size = .ok (.count t.size, h) := by
  simp only [call, sees.table, sees.found, bind, Except.bind]
  rfl

theorem answer_text (n : Name) :
    h.call holder (.text n) = (fun s => (.text s, h)) <$> t.text n := by
  simp only [call, sees.table, sees.found, bind, Except.bind]
  cases t.text n <;> rfl

theorem answer_share : h.call holder .share = .ok (h.hold id) := by
  simp only [call, sees.table, sees.found, bind, Except.bind]
  rfl

theorem answer_fresh : h.call holder .fresh =
    .ok ({ h with pool := h.pool.addTable.2 }.hold h.pool.addTable.1) := by
  simp only [call, sees.table, sees.found, bind, Except.bind]
  rfl

end Sees

theorem run_append (h : NameHolders) (before after : List (Nat × Call)) :
    (h.run (before ++ after)).2 = ((h.run before).2.run after).2 := by
  induction before generalizing h with
  | nil => rfl
  | cons entry rest ih =>
    rw [List.cons_append, run, run]
    cases h.call entry.1 entry.2 with
    | ok answer => exact ih answer.2
    | error missing => exact ih h

theorem run_one_of_ok {h next : NameHolders} {holder : Nat} {c : Call} {reply : Reply}
    (answered : h.call holder c = .ok (reply, next)) : (h.run [(holder, c)]).2 = next := by
  simp only [run, answered]

theorem run_one_of_error {h : NameHolders} {holder : Nat} {c : Call} {missing : Dangling}
    (failed : h.call holder c = .error missing) : (h.run [(holder, c)]).2 = h := by
  simp only [run, failed]

theorem run_one_of_asks {h : NameHolders} {holder : Nat} {c : Call} (asks : c.asks = true) :
    (h.run [(holder, c)]).2 = h := by
  cases answered : h.call holder c with
  | ok answer => rw [run_one_of_ok answered, call_of_asks asks answered]
  | error missing => exact run_one_of_error answered

namespace History

variable {x : History} {h : NameHolders} {holder : Nat} {table : TableId} {handed : List String}
  {t : NameTable}

/-- What a table was handed stays, and at most one string follows. -/
theorem exists_of_note {entry : Nat × Call} (there : handed ∈ x.handed) :
    handed ∈ (x.note entry).handed ∨ ∃ s, handed ++ [s] ∈ (x.note entry).handed := by
  unfold note
  split
  · exact .inl there
  · next table _ =>
    have learns (s : String) : handed ∈ x.handed.modify table.index (· ++ [s]) ∨
        ∃ r, handed ++ [r] ∈ x.handed.modify table.index (· ++ [s]) := by
      obtain ⟨i, found⟩ := List.mem_iff_getElem?.1 there
      by_cases here : table.index = i
      · refine .inr ⟨s, List.mem_iff_getElem?.2 ⟨i, ?_⟩⟩
        simp [here, found]
      · refine .inl (List.mem_iff_getElem?.2 ⟨i, ?_⟩)
        simp [here, found]
    split
    · exact learns _
    · exact learns _
    · exact .inl there
    · exact .inl (List.mem_append_left _ there)
    · exact .inl there

theorem Fits.of_note {entry : Nat × Call} (fits : (x.note entry).Fits) : x.Fits := by
  intro handed there
  rcases exists_of_note there with same | ⟨s, longer⟩
  · exact fits handed same
  · have room := fits _ longer
    by_cases known : s ∈ contents handed
    · rwa [contents_append_of_mem known] at room
    · rw [contents_append_of_not_mem known, List.length_append] at room
      exact Nat.le_trans (Nat.le_add_right _ _) room

/-- A holder of the history sees the table of its strings. -/
theorem Tells.sees (tells : x.Tells h) (held : x.held[holder]? = some table) :
    ∃ t handed, h.Sees holder table t ∧ x.handed[table.index]? = some handed ∧
      t.toNameIndex = NameIndex.fresh.addAll handed := by
  have inside := tells.inside table (List.mem_of_getElem? held)
  have handed := List.getElem?_eq_getElem inside
  have same := congrArg (·[table.index]?) tells.tables
  simp only [List.getElem?_map, handed, Option.map_some, Option.map_eq_some_iff] at same
  obtain ⟨t, found, made⟩ := same
  refine ⟨t, _, ⟨?_, NamePool.get_eq_ok_iff.2 found⟩, handed, made⟩
  exact Handle.expect_eq_ok_iff.2 (tells.held ▸ held)

theorem Tells.absent (tells : x.Tells h) (absent : x.held[holder]? = none) (c : Call) :
    ∃ missing, h.call holder c = .error missing := by
  have none : h.tableOf holder = .error ⟨.table, holder⟩ := by
    rw [tableOf, tells.held, absent]
    rfl
  refine ⟨⟨.table, holder⟩, ?_⟩
  simp only [call, none, bind, Except.bind]

/-- A table learns a string, and the history that it was handed one. -/
theorem Tells.learn (tells : x.Tells h) (there : x.handed[table.index]? = some handed)
    (made : t.toNameIndex = NameIndex.fresh.addAll handed) (s : String) :
    ({ x with handed := x.handed.modify table.index (· ++ [s]) } : History).Tells
      { h with pool := h.pool.set table (t.add s) } where
  held := tells.held
  tables := by
    have here : (t.add s).toNameIndex = NameIndex.fresh.addAll (handed ++ [s]) := by
      rw [NameIndex.addAll_append_singleton, ← made]
      rfl
    have known := tells.tables
    refine List.ext_getElem? fun i => ?_
    have before := congrArg (·[i]?) known
    simp only [List.getElem?_map] at before ⊢
    by_cases same : table.index = i
    · subst same
      rw [there] at before
      obtain ⟨old, found, _⟩ := Option.map_eq_some_iff.1 before
      have inside := (List.getElem?_eq_some_iff.1 found).1
      simp [NamePool.set, inside, there, here]
    · simp [NamePool.set, same, before]
  inside id hid := by
    rw [List.length_modify]
    exact tells.inside id hid

theorem tells_start : start.Tells single := ⟨rfl, rfl, by simp [start]⟩

/-- A further holder of a table that is there. -/
theorem Tells.hold (tells : x.Tells h) (inside : table.index < x.handed.length) :
    (⟨x.held ++ [table], x.handed⟩ : History).Tells (h.hold table).2 where
  held := by rw [NameHolders.hold, tells.held]
  tables := tells.tables
  inside id hid := by
    rcases List.mem_append.1 hid with old | new
    · exact tells.inside id old
    · rw [List.mem_singleton.1 new]
      exact inside

/-- One more table, to which nothing was handed. -/
theorem Tells.addTable (tells : x.Tells h) :
    (⟨x.held, x.handed ++ [[]]⟩ : History).Tells { h with pool := h.pool.addTable.2 } where
  held := tells.held
  tables := by
    rw [NamePool.addTable, List.map_append, List.map_append, tells.tables]
    rfl
  inside id hid := by
    have := tells.inside id hid
    simp only [List.length_append]
    omega

/-- **Noted calls.** A call leads from a state that a history tells to one that
it tells with the call noted. -/
theorem note_tells (tells : x.Tells h) {entry : Nat × Call} (fits : (x.note entry).Fits) :
    (x.note entry).Tells (h.run [entry]).2 := by
  obtain ⟨holder, c⟩ := entry
  cases held : x.held[holder]? with
  | none =>
    obtain ⟨missing, failed⟩ := tells.absent held c
    simp only [note, held, run_one_of_error failed]
    exact tells
  | some table =>
    obtain ⟨t, handed, sees, there, made⟩ := tells.sees held
    have strings : t.strings = contents handed := by rw [made, strings_addAll]
    have inside := (List.getElem?_eq_some_iff.1 there).1
    simp only [note, held] at fits ⊢
    cases c with
    | intern s =>
      rw [run_one_of_ok (sees.answer_intern s)]
      exact tells.learn there made s
    | tryIntern s =>
      -- The strings fit after this call, so there is a number left if it brings a new one.
      have room : s ∈ t.strings ∨ t.size < NameTable.capacity := by
        by_cases known : s ∈ t.strings
        · exact .inl known
        · have longer : handed ++ [s] ∈ x.handed.modify table.index (· ++ [s]) :=
            List.mem_iff_getElem?.2 ⟨table.index, by simp [there]⟩
          have most := fits _ longer
          rw [contents_append_of_not_mem (strings ▸ known), ← strings, List.length_append] at most
          exact .inr most
      rw [run_one_of_ok (sees.answer_tryIntern room)]
      exact tells.learn there made s
    | find | text | size | isEmpty | sameTable =>
      rw [run_one_of_asks rfl]
      exact tells
    | share =>
      rw [run_one_of_ok sees.answer_share]
      exact tells.hold inside
    | fresh =>
      have count : h.pool.tables.length = x.handed.length := by
        simpa using congrArg List.length tells.tables
      rw [run_one_of_ok sees.answer_fresh, NamePool.addTable, count]
      have more := tells.addTable
      rw [NamePool.addTable] at more
      exact more.hold (by simp)

/-- After any run the state is the one that the calls tell. -/
theorem run_tells (calls : List (Nat × Call)) (fits : (of calls).Fits) :
    (of calls).Tells (single.run calls).2 := by
  induction calls using List.reverseRecOn with
  | nil => exact tells_start
  | append_singleton before entry ih =>
    have noted : of (before ++ [entry]) = (of before).note entry := by simp [of, List.foldl_append]
    rw [noted] at fits ⊢
    rw [run_append]
    exact note_tells (ih fits.of_note) fits

end History

/-! ### Strings and numbers -/

/-- The strings and the numbers of a table answer to each other, through a
holder that sees the table. -/
structure Answers (h : NameHolders) (holder : Nat) (id : TableId) (t : NameTable) : Prop where
  distinct : t.strings.Nodup
  /-- The numbers are those below the count of the strings, -/
  size : h.call holder .size = .ok (.count t.strings.length, h)
  /-- each of them stands for the string in its place, -/
  text : ∀ n s, h.call holder (.text n) = .ok (.text s, h) ↔ t.strings[n.index]? = some s
  /-- and no other number stands for anything. -/
  outside : ∀ n, (∃ missing, h.call holder (.text n) = .error missing) ↔ t.strings.length ≤ n.index
  /-- A string is looked for, -/
  looked : ∀ s, ∃ n?, h.call holder (.find s) = .ok (.found n?, h)
  /-- and found at the number that stands for it. -/
  find : ∀ s n, h.call holder (.find s) = .ok (.found (some n), h) ↔
    h.call holder (.text n) = .ok (.text s, h)
  /-- A string that is handed over, in one way or the other, gets a number that
  stands for it from then on. -/
  learned : ∀ s, s ∈ t.strings ∨ t.strings.length < NameTable.capacity → ∃ n next,
    h.call holder (.intern s) = .ok (.name n, next) ∧
      h.call holder (.tryIntern s) = .ok (.learned (.ok n), next) ∧
      next.call holder (.text n) = .ok (.text s, next)
  /-- A string that some number stands for keeps this number, and nothing changes. -/
  known : ∀ n s, h.call holder (.text n) = .ok (.text s, h) →
    h.call holder (.intern s) = .ok (.name n, h) ∧
      h.call holder (.tryIntern s) = .ok (.learned (.ok n), h)
  /-- What a number stands for is never changed by any calls. -/
  stays : ∀ later n s, h.call holder (.text n) = .ok (.text s, h) →
    (h.run later).2.call holder (.text n) = .ok (.text s, (h.run later).2)
  /-- A call on a holder of another table leaves this table as it is. -/
  apart : ∀ other c, h.tableOf other ≠ .ok id → (h.run [(other, c)]).2.Sees holder id t

variable {h next : NameHolders} {holder other : Nat} {id : TableId} {t : NameTable} {c : Call}
  {reply : Reply}

/-- What can come of a call: nothing, a table that was handed a string, a further holder of the
table, or a holder of a table of its own. -/
theorem call_cases (answered : h.call holder c = .ok (reply, next)) : ∃ id t, h.Sees holder id t ∧
    (next = h ∨ (∃ s, next = { h with pool := h.pool.set id (t.add s) }) ∨ next = (h.hold id).2 ∨
      next = ({ h with pool := h.pool.addTable.2 }.hold h.pool.addTable.1).2) := by
  obtain ⟨id, table, rest⟩ := bind_eq_ok_iff.1 answered
  obtain ⟨t, found, rest⟩ := bind_eq_ok_iff.1 rest
  have sees : h.Sees holder id t := ⟨table, found⟩
  refine ⟨id, t, sees, ?_⟩
  cases c with
  | intern s =>
    cases rest
    exact .inr (.inl ⟨s, rfl⟩)
  | tryIntern s =>
    by_cases room : s ∈ t.strings ∨ t.size < NameTable.capacity
    · rw [sees.answer_tryIntern room] at answered
      cases answered
      exact .inr (.inl ⟨s, rfl⟩)
    · simp only [NameTable.tryIntern_of_full room] at rest
      cases rest
      exact .inl rfl
  | share =>
    cases rest
    exact .inr (.inr (.inl rfl))
  | fresh =>
    cases rest
    exact .inr (.inr (.inr rfl))
  | find | text | size | isEmpty | sameTable => exact .inl (call_of_asks rfl answered)

namespace Sees

/-- A further holder changes nothing for those that are there. -/
theorem hold (sees : h.Sees holder id t) (table : TableId) : (h.hold table).2.Sees holder id t where
  table := by
    have held := Handle.expect_eq_ok_iff.1 sees.table
    have inside := (List.getElem?_eq_some_iff.1 held).1
    refine Handle.expect_eq_ok_iff.2 ?_
    rw [NameHolders.hold, List.getElem?_append_left inside, held]
  found := sees.found

theorem addTable (sees : h.Sees holder id t) :
    Sees { h with pool := h.pool.addTable.2 } holder id t where
  table := sees.table
  found := by
    have found := NamePool.get_eq_ok_iff.1 sees.found
    have inside := (List.getElem?_eq_some_iff.1 found).1
    rw [NamePool.get_eq_ok_iff, NamePool.addTable, List.getElem?_append_left inside, found]

/-- A holder keeps its table, and only its own table's holders change it. -/
theorem after_call (sees : h.Sees holder id t) (answered : h.call other c = .ok (reply, next)) :
    (∃ u, next.Sees holder id u ∧ t.Extends u) ∧
      (h.tableOf other ≠ .ok id → next.Sees holder id t) := by
  obtain ⟨id', t', sees', same | ⟨s, learned⟩ | shared | opened⟩ := call_cases answered
  · rw [same]
    exact ⟨⟨t, sees, .refl t⟩, fun _ => sees⟩
  · rw [learned]
    by_cases here : id' = id
    · subst here
      cases sees.found.symm.trans sees'.found
      exact ⟨⟨t.add s, ⟨sees.table, NamePool.get_set_self sees.found _⟩, t.extends_add s⟩,
        fun apart => absurd sees'.table apart⟩
    · have kept : Sees { h with pool := h.pool.set id' (t'.add s) } holder id t :=
        ⟨sees.table, (NamePool.get_set_of_ne here).trans sees.found⟩
      exact ⟨⟨t, kept, .refl t⟩, fun _ => kept⟩
  · rw [shared]
    exact ⟨⟨t, sees.hold id', .refl t⟩, fun _ => sees.hold id'⟩
  · rw [opened]
    exact ⟨⟨t, sees.addTable.hold _, .refl t⟩, fun _ => sees.addTable.hold _⟩

/-- Whatever is called, a holder sees the same table, which may have grown. -/
theorem after_run (sees : h.Sees holder id t) (calls : List (Nat × Call)) :
    ∃ u, (h.run calls).2.Sees holder id u ∧ t.Extends u := by
  induction calls generalizing h t with
  | nil => exact ⟨t, sees, .refl t⟩
  | cons entry rest ih =>
    rw [run]
    cases answered : h.call entry.1 entry.2 with
    | ok answer =>
      obtain ⟨u, seen, grown⟩ := (sees.after_call answered).1
      obtain ⟨v, last, further⟩ := ih seen
      exact ⟨v, last, grown.trans further⟩
    | error missing => exact ih sees

theorem text_iff (sees : h.Sees holder id t) {n : Name} {s : String} :
    h.call holder (.text n) = .ok (.text s, h) ↔ t.text n = .ok s := by
  rw [sees.answer_text n]
  cases t.text n <;> simp [Functor.map, Except.map]

/-- **Strings and numbers.** Whoever sees a table finds its strings and its
numbers answer to each other. -/
theorem answers (sees : h.Sees holder id t) : h.Answers holder id t where
  distinct := t.inverse.nodup
  size := sees.answer_size
  text n s := by rw [sees.text_iff, NameTable.text_eq_ok_iff]
  outside n := by
    rw [sees.answer_text n, ← List.getElem?_eq_none_iff]
    unfold NameTable.text Handle.expect
    cases t.strings[n.index]? <;> simp [Functor.map, Except.map]
  looked s := ⟨_, sees.answer_find s⟩
  find s n := by
    rw [sees.answer_find s, sees.text_iff, ← NameTable.find?_eq_some_iff]
    simp
  learned s room := by
    have sees' : Sees { h with pool := h.pool.set id (t.add s) } holder id (t.add s) :=
      ⟨sees.table, NamePool.get_set_self sees.found _⟩
    exact ⟨t.number s, _, sees.answer_intern s, sees.answer_tryIntern room,
      sees'.text_iff.2 (t.text_add_number s)⟩
  known n s text := by
    have text := sees.text_iff.1 text
    have known : s ∈ t.strings := List.mem_of_getElem? (NameTable.text_eq_ok_iff.1 text)
    have idle : { h with pool := h.pool.set id (t.add s) } = h := by
      rw [NameTable.add_of_mem known, NamePool.set_self sees.found]
    rw [sees.answer_intern s, sees.answer_tryIntern (.inl known),
      NameTable.number_of_text text, idle]
    exact ⟨rfl, rfl⟩
  stays later n s text := by
    obtain ⟨u, seen, grown⟩ := sees.after_run later
    exact seen.text_iff.2 (grown.text (sees.text_iff.1 text))
  apart other c apart := by
    cases answered : h.call other c with
    | ok answer =>
      rw [run_one_of_ok answered]
      exact (sees.after_call answered).2 apart
    | error missing =>
      rw [run_one_of_error answered]
      exact sees

end Sees

end NameHolders

open NameHolders

/-- **Shared tables.** After any calls that leave room for numbers, every table knows what it was
handed and nothing else, in the order in which its holders handed it over, and it answers to each
of its holders by that order. -/
theorem shared_tables_answer (calls : List (Nat × Call)) (fits : (History.of calls).Fits) :
    (History.of calls).Tells (single.run calls).2 ∧
      ∀ holder, holder < (single.run calls).2.held.length → ∃ id handed t,
        (History.of calls).held[holder]? = some id ∧
          (History.of calls).handed[id.index]? = some handed ∧
          t.strings = contents handed ∧ t.Inverse ∧ (single.run calls).2.Sees holder id t ∧
          (single.run calls).2.Answers holder id t := by
  have tells := History.run_tells calls fits
  refine ⟨tells, fun holder inside => ?_⟩
  rw [tells.held] at inside
  have held := List.getElem?_eq_getElem inside
  obtain ⟨t, handed, sees, there, made⟩ := tells.sees held
  refine ⟨_, handed, t, held, there, ?_, ?_, sees, sees.answers⟩
  · rw [made, strings_addAll]
  · rw [made]
    exact NameIndex.fresh_inverse.addAll handed

/-- Two holders of one table and one of another, which are handed some of the same strings. -/
def threeHands : List (Nat × Call) :=
  [(0, .share), (0, .fresh), (1, .intern "clk"), (2, .tryIntern "rst"), (0, .tryIntern "hw.wire"),
    (2, .intern "clk"), (0, .intern "clk"), (0, .intern "rst"), (1, .intern ""),
    (3, .intern "lost")]

theorem answers_of_threeHands : (History.of threeHands).Fits ∧
    (History.of threeHands).handed.map (·.filter (· ∉ reservedStrings)) =
      [["clk", "clk", "rst"], ["rst", "clk"]] ∧
      ∃ id t, (single.run threeHands).2.Sees 2 id t ∧
      t.strings = reservedStrings ++ ["rst", "clk"] ∧
        (single.run threeHands).2.Answers 2 id t := by
  have fits : (History.of threeHands).Fits := by unfold History.Fits; decide
  obtain ⟨_, answers⟩ := shared_tables_answer threeHands fits
  obtain ⟨id, handed, t, held, there, strings, _, sees, answers⟩ := answers 2 (by decide)
  cases held
  cases there
  exact ⟨fits, by decide, _, t, sees, strings.trans (by decide), answers⟩

end DebugHierarchy
