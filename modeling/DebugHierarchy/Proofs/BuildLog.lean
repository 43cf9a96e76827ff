import DebugHierarchy.Extraction.Trace
import DebugHierarchy.Proofs.Chronicles
import DebugHierarchy.Proofs.Reordering

/-!
What the report on an extraction tells of the hierarchy.

Whoever reads the report of a successful extraction can follow the hierarchy as it grew. Of each
kind of nodes the report names every one, in the order of the handles; only ports of extern modules
come without a record. What a record says of its node holds of the node in the end. Between these
records stand the warnings, one for each loose reference of the design.

* `ModuleNode.birth`, `Hierarchy.InstBirth`, `Hierarchy.VarBirth`: the records of nodes;
* `filter_report`: some records of a report are those of some events;
* `report_replays`: the report on an extraction tells its hierarchy.
-/

namespace DebugHierarchy

/-- The record of a module: that of its scope if it is inline, and else that of its name. -/
def ModuleNode.birth (m : ModuleNode Name) (id : ModuleId) : TraceRecord :=
  match m.origin with
  | .scope scope _ =>
    .event .trace "created inline module" [("scope", .handle scope), ("inline", .handle id)]
  | _ => .event .trace "registered module" [("name", .handle m.name), ("id", .handle id)]

theorem ModuleNode.birth_of_not_inline (m : ModuleNode Name) (plain : m.isInline = false)
    (id : ModuleId) :
    m.birth id = .event .trace "registered module" [("name", .handle m.name),
      ("id", .handle id)] := by
  unfold birth
  split
  · next origin => exact absurd origin (isInline_eq_false_iff.1 plain _ _)
  · rfl

/-- The record of an instance: that of the module that lists it if it leads to an inline module,
and else that of its target. -/
inductive Hierarchy.InstBirth (h : Hierarchy Name) (i : InstanceId) (node : InstanceNode Name) :
    TraceRecord → Prop
  | scope {owner : ModuleId} {inner outer : ModuleNode Name} :
      h.module node.target = .ok inner → inner.isInline = true →
      h.module owner = .ok outer → i ∈ outer.insts →
      h.InstBirth i node (.event .trace "scope instance" [("instance", .handle i),
        ("owner", .handle owner)])
  | structural {inner : ModuleNode Name} :
      h.module node.target = .ok inner → inner.isInline = false →
      h.InstBirth i node
        (.event .trace "structural instance" [("instance", .handle i),
          ("target", .handle node.target)])

/-- The record of a variable: that of the owner of an annotation, or, if the owner is a module with
a body, that of the value of a port or that of a wire. -/
inductive Hierarchy.VarBirth (h : Hierarchy Name) (v : VariableId) (node : VariableNode Name) :
    TraceRecord → Prop
  | port {m : ModuleNode Name} {op : OpId} {value : ValueId} :
      h.module node.owner = .ok m → m.definition? = some (.module, op) → node.value = some value →
      h.VarBirth v node (.event .trace "port variable" [("variable", .handle v),
        ("value", .handle value)])
  | annotated :
      h.VarBirth v node
        (.event .trace "annotated variable" [("variable", .handle v),
          ("owner", .handle node.owner)])
  | wire {m : ModuleNode Name} {op : OpId} :
      h.module node.owner = .ok m → m.definition? = some (.module, op) →
      h.VarBirth v node (.event .trace "wire variable" [("variable", .handle v)])

def Hierarchy.isExternOwned {ν : Type} (h : Hierarchy ν) (v : VariableId) : Bool :=
  (h.store.vars[v.index]?).any fun node => (h.store.modules[node.owner.index]?).any (·.isExtern)

def looseWarning (x : OpId × ValueId) : TraceRecord :=
  .event .warn "scope is not a dbg.scope of this module; attaching to the module itself"
    [("op", .handle x.1), ("scope", .handle x.2)]

/-- The report tells the hierarchy: of each kind of nodes the records are those of the handles from
zero on, and each tells what the hierarchy holds of the node. -/
structure Replays (d : Design Name) (options : Options) (h : Hierarchy Name)
    (log : List TraceRecord) : Prop where
  modules : List.Forall₂ (fun r i => ∃ m, h.module ⟨i⟩ = .ok m ∧ r = m.birth ⟨i⟩)
    (log.filter (·.message ∈ ["registered module", "created inline module"]))
    (List.range h.moduleCount)
  insts : List.Forall₂ (fun r i => ∃ node, h.inst ⟨i⟩ = .ok node ∧ h.InstBirth ⟨i⟩ node r)
    (log.filter (·.message ∈ ["scope instance", "structural instance"]))
    (List.range h.store.insts.size)
  /-- Variables of extern modules have no record. -/
  vars : List.Forall₂ (fun r i => ∃ node, h.dbgVariable ⟨i⟩ = .ok node ∧ h.VarBirth ⟨i⟩ node r)
    (log.filter (·.message ∈ ["port variable", "annotated variable", "wire variable"]))
    ((List.range h.store.vars.size).filter fun i => !h.isExternOwned ⟨i⟩)
  /-- There is one warning for each reference to a scope of another module,
  in the order of the bodies. -/
  warnings : log.filter (·.level = .warn) = d.looseScopes.map looseWarning
  /-- A strict policy lets no such reference pass. -/
  strict : options.scopes = .error → d.looseScopes = []
  last : log.getLast? = some (.event .debug "built debug info"
    [("registry_modules", .count h.stats.registryModules),
      ("inline_modules", .count h.stats.inlineModules), ("instances", .count h.stats.insts),
      ("variables", .count h.stats.vars)])

/-- Where a property of records is one of their events, the records with the
property are those of these events. -/
theorem filter_report {names : NameTable} {ops : Nat} {keep : TraceRecord → Bool}
    {kind : Event Name → Bool} (unopened : keep (.opening ops) = false)
    (agree : ∀ e r, e.record? names = some r → keep r = kind e) (x : Extraction Name) :
    (x.report names ops).filter keep =
      (x.journal.filter kind).filterMap (·.record? names) := by
  rw [Extraction.report, List.filter_cons_of_neg (by simp [unopened]), List.filter_filterMap,
    List.filterMap_filter]
  apply List.filterMap_congr
  intro e _
  cases found : e.record? names with
  | none => simp
  | some r => simp [Option.filter, agree e r found]

/-- The message of a record tells whether its event makes a node, and of which kind, and its level
whether the event lets a loose reference pass. -/
theorem Event.kind_of_record {names : NameTable} {e : Event Name} {r : TraceRecord}
    (reported : e.record? names = some r) :
    decide (r.message ∈ ["registered module", "created inline module"]) = Census.modules.makes e ∧
      decide (r.message ∈ ["scope instance", "structural instance"]) = Census.insts.makes e ∧
      decide (r.message ∈ ["port variable", "annotated variable", "wire variable"]) =
        Census.vars.makes e ∧
      decide (r.level = .warn) = e.loose?.isSome := by
  cases e with
  | collect kind name op =>
    cases reported
    cases kind <;> simp [TraceRecord.event, Census.modules, Census.insts, Census.vars, Event.loose?]
  | addVariable origin id node =>
    cases origin <;> cases reported <;>
      simp [TraceRecord.event, Census.modules, Census.insts, Census.vars, Event.loose?]
  | addInstance origin id owner node =>
    cases reported
    cases origin <;>
      simp [InstanceOrigin.record, TraceRecord.event, Census.modules, Census.insts,
        Census.vars, Event.loose?]
  | define | setInfo | setEnum => cases reported
  | _ =>
    cases reported
    simp [TraceRecord.event, Census.modules, Census.insts, Census.vars, Event.loose?]

section Finished

variable {d : Design Name} {options : Options} {accounts : List (Account Name)}
  {part : List (Entry Name)} {q : Progress Name} {names : NameTable}

namespace Collected

variable (c : Collected d accounts part q)

include c

/-- What an event made a module of, it is in the end. -/
theorem made_of_mem {e : Event Name} (member : e ∈ q.journal.toList)
    (makes : Census.modules.makes e = true) : ∃ i, Census.modules.Made q.hierarchy e i := by
  obtain ⟨i, _, made⟩ := exists_of_forall₂ (c.counted Census.modules)
      (List.mem_filter.2 ⟨member, makes⟩)
  exact ⟨i, made⟩

theorem module_of_find? {id : ModuleId} {name : Name} (found : q.hierarchy.find? name = some id) :
    ∃ m, q.hierarchy.module id = .ok m ∧ m.name = name ∧ m.isInline = false := by
  obtain ⟨origin, label, plain⟩ := c.labels.catalog.1 found
  obtain ⟨m, there, named, rfl⟩ := Hierarchy.module_of_labelAt label
  exact ⟨m, there, named, ModuleNode.isInline_eq_false_iff.2 plain⟩

theorem module_of_inlined {id : ModuleId} (inlined : Inlined q.journal.toList id) :
    ∃ m, q.hierarchy.module id = .ok m ∧ m.isInline = true ∧ m.isExtern = false := by
  obtain ⟨name, scope, parent, member⟩ := inlined
  obtain ⟨_, rfl, label⟩ := c.made_of_mem member rfl
  obtain ⟨m, there, _, origin⟩ := Hierarchy.module_of_labelAt label
  exact ⟨m, there, by rw [ModuleNode.isInline, origin], by rw [ModuleNode.isExtern, origin]⟩

theorem module_of_define {id : ModuleId} {kind : ModuleKind} {op : OpId}
    (member : .define id kind op ∈ q.journal.toList) :
    ∃ m, q.hierarchy.module id = .ok m ∧ m.definition? = some (kind, op) ∧
      m.isExtern = decide (kind = .external) := by
  obtain ⟨name, label⟩ := c.label_of_define member
  obtain ⟨m, there, _, origin⟩ := Hierarchy.module_of_labelAt label
  refine ⟨m, there, by rw [ModuleNode.definition?, origin, Origin.definition?], ?_⟩
  rw [ModuleNode.isExtern, origin]
  cases kind <;> rfl

end Collected

/-- Where the events that make nodes of a kind have records that tell of the kept nodes, these are
the records of the kept nodes, one after the other. -/
theorem Census.Counted.reported {census : Census Name} (counted : census.Counted q)
    (founded : ∀ e ∈ q.journal.toList, e.Founded q.journal.toList) (keep : Nat → Bool)
    {tells : TraceRecord → Nat → Prop}
    (reads : ∀ {e i}, e.Founded q.journal.toList → census.Made q.hierarchy e i →
      if keep i then ∃ r, e.record? names = some r ∧ tells r i else e.record? names = none) :
    List.Forall₂ tells ((q.journal.toList.filter census.makes).filterMap (·.record? names))
      ((List.range (census.count q.hierarchy)).filter keep) := by
  have both : List.Forall₂ (fun e i => e.Founded q.journal.toList ∧ census.Made q.hierarchy e i)
      (q.journal.toList.filter census.makes) (List.range (census.count q.hierarchy)) :=
    (List.forall₂_and_left _ _).2 ⟨fun e he => founded e (List.mem_filter.1 he).1, counted⟩
  rw [← congrFun (List.filterMap_eq_filter (p := keep))]
  refine List.rel_filterMap (fun e i known => ?_) both
  have read := reads known.1 known.2
  by_cases kept : keep i = true
  · rw [if_pos kept] at read
    obtain ⟨r, found, told⟩ := read
    rw [found, Option.guard, if_pos kept]
    exact .some told
  · rw [if_neg kept] at read
    rw [read, Option.guard, if_neg kept]
    exact .none

theorem Census.Counted.reported_all {census : Census Name} (counted : census.Counted q)
    (founded : ∀ e ∈ q.journal.toList, e.Founded q.journal.toList)
    {tells : TraceRecord → Nat → Prop}
    (reads : ∀ {e i}, e.Founded q.journal.toList → census.Made q.hierarchy e i →
      ∃ r, e.record? names = some r ∧ tells r i) :
    List.Forall₂ tells ((q.journal.toList.filter census.makes).filterMap (·.record? names))
      (List.range (census.count q.hierarchy)) := by
  have all := counted.reported founded (fun _ => true) fun known made => by
    rw [if_pos rfl]
    exact reads known made
  rwa [List.filter_true] at all

namespace Collected

variable (c : Collected d accounts part q)

include c

theorem birth_of_made {e : Event Name} {i : Nat} (made : Census.modules.Made q.hierarchy e i) :
    ∃ r, e.record? names = some r ∧ ∃ m, q.hierarchy.module ⟨i⟩ = .ok m ∧ r = m.birth ⟨i⟩ := by
  cases e with
  | register id name =>
    obtain ⟨rfl, found⟩ := made
    obtain ⟨m, there, rfl, plain⟩ := c.module_of_find? found
    exact ⟨_, rfl, m, there, (m.birth_of_not_inline plain _).symm⟩
  | inlineModule id name scope parent =>
    obtain ⟨rfl, label⟩ := made
    obtain ⟨m, there, _, origin⟩ := Hierarchy.module_of_labelAt label
    exact ⟨_, rfl, m, there, by rw [ModuleNode.birth, origin]⟩
  | _ => exact made.elim

theorem instBirth_of_made {e : Event Name} {i : Nat} (founded : e.Founded q.journal.toList)
    (made : Census.insts.Made q.hierarchy e i) :
    ∃ r, e.record? names = some r ∧
      ∃ node, q.hierarchy.inst ⟨i⟩ = .ok node ∧ q.hierarchy.InstBirth ⟨i⟩ node r := by
  cases e with
  | addInstance origin id owner node =>
    obtain ⟨rfl, there, listed⟩ := made
    cases origin with
    | scope =>
      obtain ⟨inner, level, inline, _⟩ := c.module_of_inlined founded
      obtain ⟨outer, lister, member⟩ := Hierarchy.mem_instanceIds_iff.1 listed
      exact ⟨_, rfl, node, there, .scope level inline lister member⟩
    | structural =>
      obtain ⟨name, member⟩ := founded
      obtain ⟨_, _, found⟩ := c.made_of_mem member rfl
      obtain ⟨inner, target, _, plain⟩ := c.module_of_find? found
      exact ⟨_, rfl, node, there, .structural target plain⟩
  | _ => exact made.elim

/-- A variable has a record unless an extern module owns it. -/
theorem varBirth_of_made {e : Event Name} {i : Nat} (founded : e.Founded q.journal.toList)
    (made : Census.vars.Made q.hierarchy e i) :
    if !q.hierarchy.isExternOwned ⟨i⟩ then
      ∃ r, e.record? names = some r ∧ ∃ node, q.hierarchy.dbgVariable ⟨i⟩ = .ok node ∧
        q.hierarchy.VarBirth ⟨i⟩ node r
    else e.record? names = none := by
  cases e with
  | addVariable origin id node =>
    obtain ⟨rfl, there⟩ := made
    have owned {m : ModuleNode Name} (owner : q.hierarchy.module node.owner = .ok m) :
        q.hierarchy.isExternOwned ⟨i⟩ = m.isExtern := by
      simp [Hierarchy.isExternOwned, Hierarchy.dbgVariable_eq_ok_iff.1 there,
        Hierarchy.module_eq_ok_iff.1 owner]
    cases origin with
    | externPort =>
      obtain ⟨op, member⟩ := founded
      obtain ⟨m, owner, _, foreign⟩ := c.module_of_define member
      rw [if_neg (by simp [owned owner, foreign])]
      rfl
    | port =>
      obtain ⟨bound, op, member⟩ := founded
      obtain ⟨m, owner, defined, inside⟩ := c.module_of_define member
      obtain ⟨value, bound⟩ := Option.isSome_iff_exists.1 bound
      rw [if_pos (by simp [owned owner, inside])]
      exact ⟨_, by rw [Event.record?, VariableOrigin.record?, bound]; rfl, node, there,
        .port owner defined bound⟩
    | annotated =>
      have inside : q.hierarchy.isExternOwned ⟨i⟩ = false := by
        rcases founded with ⟨op, member⟩ | inlined
        · obtain ⟨m, owner, _, inside⟩ := c.module_of_define member
          rw [owned owner, inside]
          rfl
        · obtain ⟨m, owner, _, inside⟩ := c.module_of_inlined inlined
          rw [owned owner, inside]
      rw [if_pos (by simp [inside])]
      exact ⟨_, rfl, node, there, .annotated⟩
    | wire =>
      obtain ⟨op, member⟩ := founded
      obtain ⟨m, owner, defined, inside⟩ := c.module_of_define member
      rw [if_pos (by simp [owned owner, inside])]
      exact ⟨_, rfl, node, there, .wire owner defined⟩
  | _ => exact made.elim

end Collected

end Finished

/-! ### Reports -/

/-- **Replay.** The report on a successful extraction tells its hierarchy. -/
theorem report_replays {d : Design Name} (scripted : d.Scripted) {options : Options}
    {h : Hierarchy Name} (extracted : (d.extract options).outcome = .ok h) (names : NameTable)
    (ops : Nat) :
    Replays d options h ((d.extract options).report names ops) := by
  obtain ⟨F, n⟩ := scripted.nesting
  obtain ⟨a, q, run, rfl, journal⟩ := d.run_of_extract extracted
  obtain ⟨accounts, c⟩ := Leaves.of_settles (scripted.settles options) a q run
  obtain ⟨chronicle, last⟩ := Building.all_chronicled n scripted.wellLinked a q run
  have records {keep : TraceRecord → Bool} {kind : Event Name → Bool}
      (unopened : keep (.opening ops) = false)
      (agree : ∀ e r, e.record? names = some r → keep r = kind e) :
      ((d.extract options).report names ops).filter keep =
        (q.journal.toList.filter kind).filterMap (·.record? names) := by
    rw [filter_report unopened agree, journal]
  constructor
  · rw [records (by simp [TraceRecord.opening]) fun e r found => (Event.kind_of_record found).1]
    exact (c.counted Census.modules).reported_all chronicle.founded fun _ => c.birth_of_made
  · rw [records (by simp [TraceRecord.opening]) fun e r found => (Event.kind_of_record found).2.1]
    exact (c.counted Census.insts).reported_all chronicle.founded c.instBirth_of_made
  · rw [records (by simp [TraceRecord.opening]) fun e r found => (Event.kind_of_record found).2.2.1]
    exact (c.counted Census.vars).reported chronicle.founded _ c.varBirth_of_made
  · rw [records (by simp [TraceRecord.opening]) fun e r found => (Event.kind_of_record found).2.2.2,
      ← chronicle.passed, List.map_filterMap, List.filterMap_filter]
    apply List.filterMap_congr
    intro e _
    cases e <;> rfl
  · exact chronicle.strict
  · obtain ⟨earlier, whole⟩ := List.getLast?_eq_some_iff.1 last
    rw [Extraction.report, ← journal, whole, List.filterMap_append, ← List.cons_append]
    exact List.getLast?_concat

/-- An extern module, a body without annotations, a body with a scope, and a reference to
that scope from another body. -/
def crossedScopes : Script :=
  .externModule "Ext" [⟨.input, "x", none⟩] <|
  .module "Plain" [⟨.input, "a", none⟩]
    (.leaf none (.wire "w" (some (.input 0))) <|
     .leaf none (.inst "u" "Ext" [.input 0]) .done) <|
  .module "Scoped" [⟨.input, "b", none⟩]
    (.leaf (some "s") (.dbgScope ⟨"s", "Level", none⟩) <|
     .leaf none (.dbgVariable ⟨"v", .input 0, some (.label "s"), none, none, none⟩) .done) <|
  .module "Crossing" [⟨.input, "c", none⟩]
    (.leaf none (.dbgVariable ⟨"l", .input 0, some (.label "s"), none, none, none⟩) .done) .done

theorem report_of_crossedScopes : crossedScopes.design.Scripted ∧
    crossedScopes.design.looseScopes.length = 1 ∧
    ∃ h, (crossedScopes.design.extract { scopes := .enclosing }).outcome = .ok h ∧
      Replays crossedScopes.design { scopes := .enclosing } h
        ((crossedScopes.design.extract { scopes := .enclosing }).report crossedScopes.names
          crossedScopes.design.ops.size) := by
  have extracted : (crossedScopes.design.extract { scopes := .enclosing }).outcome =
      .ok (crossedScopes.design.hierarchy { scopes := .enclosing }) := by decide +kernel
  exact ⟨crossedScopes.design_scripted, by decide +kernel, _, extracted,
    report_replays crossedScopes.design_scripted extracted _ _⟩

end DebugHierarchy
