import DebugHierarchy.Proofs.Growing
import DebugHierarchy.Proofs.Naming
import DebugHierarchy.Workspace

/-!
Hierarchies outlive the growth of their tables.

A table of names is shared: whoever holds it may go on learning strings, drawing designs and
extracting hierarchies. What was extracted before reads its names from the same table all the time,
and looks strings up in it.

* `Session`: holders of tables, the designs drawn with names from them, and
  the hierarchies extracted;
* `Session.step_extends`: no step takes anything back that a table knew or that was kept;
* `Session.step_known`: the names of a kept hierarchy are numbers of its table;
* `extracted_frozen`: the answers of a kept hierarchy never change.
-/

namespace DebugHierarchy

namespace NameTable

/-- What the first table knows has the same number in the second one. -/
def Extends (t u : NameTable) : Prop := t.strings <+: u.strings

theorem Extends.refl (t : NameTable) : t.Extends t := List.prefix_rfl

theorem Extends.trans {t u v : NameTable} (first : t.Extends u) (next : u.Extends v) :
    t.Extends v :=
  List.IsPrefix.trans first next

theorem extends_add (t : NameTable) (s : String) : t.Extends (t.add s) := by
  by_cases known : s ∈ t.strings
  · rw [add_of_mem known]
    exact Extends.refl t
  · rw [Extends, strings_add_of_not_mem known]
    exact List.prefix_append t.strings [s]

theorem extends_addAll (t : NameTable) (ss : List String) : t.Extends (t.addAll ss) := by
  unfold addAll
  induction ss generalizing t with
  | nil => exact Extends.refl t
  | cons s rest ih => exact (t.extends_add s).trans (ih (t.add s))

theorem extends_tryIntern {t u : NameTable} {s : String} {n : Name}
    (learned : t.tryIntern s = .ok (n, u)) : t.Extends u := by
  unfold tryIntern at learned
  split at learned
  · cases learned
    exact t.extends_add s
  · cases learned

theorem Extends.text {t u : NameTable} (grown : t.Extends u) {n : Name} {s : String}
    (known : t.text n = .ok s) : u.text n = .ok s := by
  obtain ⟨rest, strings⟩ := grown
  rw [text_eq_ok_iff] at known ⊢
  have bound := (List.getElem?_eq_some_iff.1 known).1
  rw [← strings, List.getElem?_append_left bound, known]

/-- A string that both tables know has one number. -/
theorem Extends.find? {t u : NameTable} (grown : t.Extends u) {s : String} {n : Name}
    (known : t.find? s = some n) : u.find? s = some n := by
  rw [find?_eq_some_iff] at known ⊢
  exact grown.text known

end NameTable

theorem Script.build_extends {script : Script} {known learned : NameTable}
    {result : Except Fault (Design Name)} (built : script.build known = (result, learned)) :
    known.Extends learned := by
  unfold Script.build at built
  split at built
  · cases built
    exact known.extends_addAll _
  · cases built
    exact known.extends_addAll _

/-- The names of a hierarchy are numbers of the table: those of its
nodes and those of its catalog. -/
structure Hierarchy.KnownIn (names : NameTable) (h : Hierarchy Name) : Prop where
  nodes : ∀ n ∈ h.names, ∃ s, names.text n = .ok s
  catalog : ∀ e ∈ h.catalog.slots.entries, ∃ s, names.text e.1 = .ok s

theorem Script.build_knownIn {script : Script} {known learned : NameTable} {d : Design Name}
    (built : script.build known = (.ok d, learned)) {options : Options} {h : Hierarchy Name}
    (extracted : (d.extract options).outcome = .ok h) : h.KnownIn learned where
  nodes := Script.build_names built extracted
  catalog := by
    obtain ⟨g, rfl⟩ := Script.build_hierarchy built extracted
    intro e he
    obtain ⟨x, _, rfl⟩ := List.mem_map.1 he
    exact ⟨x.1.val, NameTable.text_number x.1.2⟩

namespace Hierarchy.KnownIn

variable {names later : NameTable} {h : Hierarchy Name}

theorem extend (known : h.KnownIn names) (grown : names.Extends later) : h.KnownIn later where
  nodes n hn := (known.nodes n hn).imp fun _ => grown.text
  catalog e he := (known.catalog e he).imp fun _ => grown.text

/-- A string is looked up with the same result after the table has grown: where only the later table
knows it, its number is none of the catalog's. -/
theorem findText_eq (known : h.KnownIn names) (grown : names.Extends later) (s : String) :
    h.findText? later s = h.findText? names s := by
  unfold Hierarchy.findText?
  cases before : names.find? s with
  | some n => rw [grown.find? before]
  | none =>
    cases after : later.find? s with
    | none => rfl
    | some n =>
      have absent : h.find? n = none := by
        unfold Hierarchy.find? Catalog.find?
        rw [Option.map_eq_none_iff, Option.eq_none_iff_forall_ne_some]
        intro slot there
        obtain ⟨r, text⟩ := known.catalog _ (LookupMap.mem_of_find? there)
        have read := grown.text text
        rw [NameTable.find?_eq_some_iff.1 after] at read
        cases read
        rw [NameTable.find?_eq_some_iff.2 text] at before
        cases before
      exact absent

end Hierarchy.KnownIn

namespace NamePool

variable {p q r : NamePool} {id : TableId} {t u : NameTable}

/-- Every table of the first pool is there in the second one, and what
it knew has the same number. -/
def Extends (p q : NamePool) : Prop :=
  ∀ id t, p.get id = .ok t → ∃ u, q.get id = .ok u ∧ t.Extends u

theorem Extends.refl (p : NamePool) : p.Extends p := fun _ t found => ⟨t, found, .refl t⟩

theorem Extends.trans (first : p.Extends q) (next : q.Extends r) : p.Extends r := by
  intro id t found
  obtain ⟨u, there, grown⟩ := first id t found
  obtain ⟨v, last, further⟩ := next id u there
  exact ⟨v, last, grown.trans further⟩

theorem get_eq_ok_iff : p.get id = .ok t ↔ p.tables[id.index]? = some t := Handle.expect_eq_ok_iff

theorem get_set_self (found : p.get id = .ok t) (u : NameTable) : (p.set id u).get id = .ok u := by
  rw [get_eq_ok_iff] at found ⊢
  have bound := (List.getElem?_eq_some_iff.1 found).1
  simp [set, bound]

theorem extends_set (found : p.get id = .ok t) (grown : t.Extends u) : p.Extends (p.set id u) := by
  intro other v there
  by_cases same : id = other
  · subst same
    cases found.symm.trans there
    exact ⟨u, get_set_self found u, grown⟩
  · exact ⟨v, (get_set_of_ne same).trans there, .refl v⟩

theorem extends_addTable (p : NamePool) : p.Extends p.addTable.2 := by
  intro id t found
  rw [get_eq_ok_iff] at found
  have bound := (List.getElem?_eq_some_iff.1 found).1
  have there : p.addTable.2.get id = .ok t := by
    rw [get_eq_ok_iff, addTable, List.getElem?_append_left bound, found]
  exact ⟨t, there, .refl t⟩

end NamePool

/-- Whatever a holder is asked, the tables only grow. -/
theorem NameHolders.call_extends {h next : NameHolders} {holder : Nat} {c : NameHolders.Call}
    {reply : NameHolders.Reply} (answered : h.call holder c = .ok (reply, next)) :
    h.pool.Extends next.pool := by
  obtain ⟨id, _, answered⟩ := bind_eq_ok_iff.1 answered
  obtain ⟨t, found, answered⟩ := bind_eq_ok_iff.1 answered
  cases c with
  | intern s =>
    cases answered
    exact NamePool.extends_set found (t.extends_add s)
  | tryIntern s =>
    cases learned : t.tryIntern s with
    | ok answer =>
      simp only [learned] at answered
      cases answered
      exact NamePool.extends_set found (NameTable.extends_tryIntern learned)
    | error full =>
      simp only [learned] at answered
      cases answered
      exact .refl h.pool
  | text n =>
    obtain ⟨s, _, answered⟩ := bind_eq_ok_iff.1 answered
    cases answered
    exact .refl h.pool
  | sameTable other =>
    obtain ⟨id', _, answered⟩ := bind_eq_ok_iff.1 answered
    cases answered
    exact .refl h.pool
  | fresh =>
    cases answered
    exact NamePool.extends_addTable h.pool
  | find | size | isEmpty | share =>
    cases answered
    exact .refl h.pool

/-! ### Sessions -/

/-- Holders of tables of names, the designs drawn so far, each with the table of its names, and the
hierarchies extracted so far. -/
structure Session where
  holders : NameHolders
  drawn : List (Design Name × TableId)
  extracted : List Extracted

namespace Session

def start : Session := ⟨.single, [], []⟩

inductive Act where
  /-- A holder of a table is asked something. -/
  | call (holder : Nat) (c : NameHolders.Call)
  /-- A design is drawn by a script, with names from the table of a holder. -/
  | draw (holder : Nat) (script : Script)
  /-- A hierarchy is extracted from one of the designs. -/
  | extract (design : Nat) (options : Options)

/-- Carries out an act; it fails where its holder has no table. Strings that a script has mentioned
before a fault stay in the table, and a hierarchy is kept if there is one. -/
def act (s : Session) : Act → Except Dangling Session
  | .call holder c => do
    let (_, holders) ← s.holders.call holder c
    return { s with holders }
  | .draw holder script => do
    let table ← s.holders.tableOf holder
    let names ← s.holders.pool.get table
    let (result, names) := script.build names
    let holders := { s.holders with pool := s.holders.pool.set table names }
    match result with
    | .ok design => return { s with holders, drawn := s.drawn ++ [(design, table)] }
    | .error _ => return { s with holders }
  | .extract number options => do
    let some (design, table) := s.drawn[number]? | return s
    match (design.extract options).outcome with
    | .ok hierarchy => return { s with extracted := s.extracted ++ [⟨hierarchy, table⟩] }
    | .error _ => return s

/-- Carries out acts in order; an act that fails changes nothing. -/
def run (s : Session) : List Act → Session
  | [] => s
  | a :: rest =>
    match s.act a with
    | .ok next => next.run rest
    | .error _ => s.run rest

variable {s t u : Session}

/-- What can come of an act: nothing, longer tables, one more design, or one more hierarchy. -/
inductive Step (s : Session) : Session → Prop
  | idle : Step s s
  | grow {holders : NameHolders} (grown : s.holders.pool.Extends holders.pool) :
      Step s { s with holders }
  | draw {script : Script} {table : TableId} {names learned : NameTable} {design : Design Name}
      (found : s.holders.pool.get table = .ok names)
      (built : script.build names = (.ok design, learned)) : Step s { s with
        holders := { s.holders with pool := s.holders.pool.set table learned }
        drawn := s.drawn ++ [(design, table)] }
  | extract {design : Design Name} {table : TableId} {options : Options}
      {hierarchy : Hierarchy Name} (member : (design, table) ∈ s.drawn)
      (outcome : (design.extract options).outcome = .ok hierarchy) :
      Step s { s with extracted := s.extracted ++ [⟨hierarchy, table⟩] }

theorem act_step {a : Act} (done : s.act a = .ok t) : s.Step t := by
  cases a with
  | call holder c =>
    obtain ⟨answer, answered, done⟩ := bind_eq_ok_iff.1 done
    cases done
    exact .grow (NameHolders.call_extends answered)
  | draw holder script =>
    obtain ⟨table, _, done⟩ := bind_eq_ok_iff.1 done
    obtain ⟨names, found, done⟩ := bind_eq_ok_iff.1 done
    cases built : script.build names with
    | mk result learned =>
      cases result with
      | ok design =>
        simp only [built] at done
        cases done
        exact .draw found built
      | error fault =>
        simp only [built] at done
        cases done
        exact .grow (NamePool.extends_set found (Script.build_extends built))
  | extract number options =>
    cases found : s.drawn[number]? with
    | none =>
      simp only [act, found] at done
      cases done
      exact .idle
    | some x =>
      cases outcome : (x.1.extract options).outcome with
      | ok h =>
        simp only [act, found, outcome] at done
        cases done
        exact .extract (List.mem_of_getElem? found) outcome
      | error failure =>
        simp only [act, found, outcome] at done
        cases done
        exact .idle

/-- What a table knew, it still knows, and what was drawn or extracted is kept. -/
structure Extends (s t : Session) : Prop where
  pool : s.holders.pool.Extends t.holders.pool
  drawn : s.drawn <+: t.drawn
  extracted : s.extracted <+: t.extracted

theorem Extends.refl (s : Session) : s.Extends s := ⟨.refl _, List.prefix_rfl, List.prefix_rfl⟩

theorem Extends.trans (first : s.Extends t) (next : t.Extends u) : s.Extends u :=
  ⟨first.pool.trans next.pool, first.drawn.trans next.drawn, first.extracted.trans next.extracted⟩

/-- A step takes nothing back. -/
theorem step_extends (step : s.Step t) : s.Extends t := by
  cases step with
  | idle => exact .refl s
  | grow grown => exact ⟨grown, List.prefix_rfl, List.prefix_rfl⟩
  | draw found built =>
    have grown := NamePool.extends_set found (Script.build_extends built)
    exact ⟨grown, List.prefix_append _ _, List.prefix_rfl⟩
  | extract drawn outcome => exact ⟨.refl _, List.prefix_rfl, List.prefix_append _ _⟩

theorem run_extends (s : Session) (acts : List Act) : s.Extends (s.run acts) := by
  induction acts generalizing s with
  | nil => exact .refl s
  | cons a rest ih =>
    rw [run]
    cases done : s.act a with
    | ok t => exact (step_extends (act_step done)).trans (ih t)
    | error missing => exact ih s

theorem run_append (s : Session) (before after : List Act) :
    s.run (before ++ after) = (s.run before).run after := by
  induction before generalizing s with
  | nil => rfl
  | cons a rest ih =>
    rw [List.cons_append, run, run]
    cases s.act a with
    | ok t => exact ih t
    | error missing => exact ih s

def Knows (p : NamePool) (table : TableId) (h : Hierarchy Name) : Prop :=
  ∃ names, p.get table = .ok names ∧ h.KnownIn names

theorem Knows.extend {p q : NamePool} {table : TableId} {h : Hierarchy Name}
    (known : Knows p table h) (grown : p.Extends q) : Knows q table h := by
  obtain ⟨names, found, known⟩ := known
  obtain ⟨later, there, further⟩ := grown table names found
  exact ⟨later, there, known.extend further⟩

/-- The names of all hierarchies, those that were extracted and those that the designs have,
are numbers of their tables. -/
structure Known (s : Session) : Prop where
  drawn : ∀ x ∈ s.drawn, ∀ options h, (x.1.extract options).outcome = .ok h →
    Knows s.holders.pool x.2 h
  extracted : ∀ x ∈ s.extracted, Knows s.holders.pool x.table x.hierarchy

theorem start_known : start.Known := ⟨by simp [start], by simp [start]⟩

/-- A step leaves all names known. -/
theorem step_known (known : s.Known) (step : s.Step t) : t.Known := by
  have grown := (step_extends step).pool
  have drawn : ∀ x ∈ s.drawn, ∀ options h, (x.1.extract options).outcome = .ok h →
      Knows t.holders.pool x.2 h := fun x hx options h extracted =>
    (known.drawn x hx options h extracted).extend grown
  have extracted : ∀ x ∈ s.extracted, Knows t.holders.pool x.table x.hierarchy := fun x hx =>
    (known.extracted x hx).extend grown
  cases step with
  | idle | grow => exact ⟨drawn, extracted⟩
  | draw found built =>
    refine ⟨?_, extracted⟩
    intro x hx options h outcome
    rcases List.mem_append.1 hx with old | new
    · exact drawn x old options h outcome
    · cases List.mem_singleton.1 new
      exact ⟨_, NamePool.get_set_self found _, Script.build_knownIn built outcome⟩
  | extract member outcome =>
    refine ⟨drawn, ?_⟩
    intro y hy
    rcases List.mem_append.1 hy with old | new
    · exact extracted y old
    · cases List.mem_singleton.1 new
      exact drawn _ member _ _ outcome

theorem run_known (known : s.Known) (acts : List Act) : (s.run acts).Known := by
  induction acts generalizing s with
  | nil => exact known
  | cons a rest ih =>
    rw [run]
    cases done : s.act a with
    | ok t => exact ih (step_known known (act_step done))
    | error missing => exact ih known

end Session

/-- A hierarchy that is kept gives the same answers in two sessions: each of its names has the text
it had, and each string leads to the module it led to, or to none. -/
structure Extracted.Frozen (x : Extracted) (s t : Session) : Prop where
  kept : x ∈ t.extracted
  answers : ∃ names later, s.holders.pool.get x.table = .ok names ∧
    t.holders.pool.get x.table = .ok later ∧
    (∀ n ∈ x.hierarchy.names, ∃ text, names.text n = .ok text ∧ later.text n = .ok text) ∧
    ∀ text, x.hierarchy.findText? later text = x.hierarchy.findText? names text

/-- **Permanence.** Whatever happens after a hierarchy was extracted,
its answers stay as they were. -/
theorem extracted_frozen (before after : List Session.Act) (x : Extracted)
    (kept : x ∈ (Session.start.run before).extracted) :
    x.Frozen (Session.start.run before) (Session.start.run (before ++ after)) := by
  rw [Session.run_append]
  obtain ⟨names, found, known⟩ := (Session.run_known Session.start_known before).extracted x kept
  have stays := (Session.start.run before).run_extends after
  obtain ⟨later, there, grown⟩ := stays.pool x.table names found
  refine ⟨stays.extracted.subset kept, names, later, found, there, ?_, ?_⟩
  · intro n hn
    obtain ⟨text, read⟩ := known.nodes n hn
    exact ⟨text, read, grown.text read⟩
  · exact known.findText_eq grown

/-- The hierarchy of a design with the module `A`. -/
def firstModule : List Session.Act := [.draw 0 (.module "A" [] .done .done), .extract 0 {}]

/-- Another holder learns `B` and draws a design with a module of that name. -/
def secondModule : List Session.Act :=
  [.call 0 .share, .call 1 (.tryIntern "B"), .draw 1 (.module "B" [] .done .done), .extract 1 {}]

theorem frozen_of_secondModule :
    (Session.start.run (firstModule ++ secondModule)).extracted.length = 2 ∧
      ∃ x ∈ (Session.start.run firstModule).extracted,
        x.Frozen (Session.start.run firstModule)
          (Session.start.run (firstModule ++ secondModule)) := by
  have one : 0 < (Session.start.run firstModule).extracted.length := by decide +kernel
  have kept := List.getElem_mem one
  exact ⟨by decide +kernel, _, kept, extracted_frozen firstModule secondModule _ kept⟩

end DebugHierarchy
