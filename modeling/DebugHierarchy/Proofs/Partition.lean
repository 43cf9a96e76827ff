import DebugHierarchy.Proofs.Contents
import DebugHierarchy.Proofs.Naming
import DebugHierarchy.Proofs.Recording

/-!
The nodes of a hierarchy, shared out among its modules.

At every moment of an extraction each variable and each instance is listed by one
module, and no node refers to one that is not there. An extraction that fails has kept
to this until its last event.

* `Partitioned`: what holds after every event;
* `Hierarchy.Gives`: the handles that a hierarchy gives out;
* `states_partitioned`: every state is partitioned, and a finished hierarchy answers for
  every handle that it gives out.
-/

namespace DebugHierarchy

variable {ν : Type}

/-- Every node is listed once, and refers only to what is there. -/
structure Partitioned (d : Design ν) (h : Hierarchy ν) : Prop where
  /-- The lists of all modules, taken together, hold each variable once. -/
  vars_once : ((List.range h.moduleCount).flatMap fun i => h.variableIds ⟨i⟩).Perm
    ((List.range h.store.vars.size).map (⟨·⟩))
  /-- A variable is listed by its owner. -/
  vars_owner : ∀ v node, h.dbgVariable v = .ok node → v ∈ h.variableIds node.owner
  /-- The lists of all modules, taken together, hold each instance once. -/
  insts_once : ((List.range h.moduleCount).flatMap fun i => h.instanceIds ⟨i⟩).Perm
    ((List.range h.store.insts.size).map (⟨·⟩))
  ascending : ∀ id, (h.variableIds id).Pairwise (· < ·) ∧ (h.instanceIds id).Pairwise (· < ·)
  owners : ∀ v node, h.dbgVariable v = .ok node → node.owner.index < h.moduleCount
  targets : ∀ i node, h.inst i = .ok node → node.target.index < h.moduleCount
  /-- An inline module has a parent, which is not inline; no other module has one. -/
  parents : ∀ id m, h.module id = .ok m → (m.isInline = true ↔ m.parent?.isSome) ∧
    ∀ parent, m.parent? = some parent → parent.index < h.moduleCount ∧
      ∃ around, h.module parent = .ok around ∧ around.isInline = false
  /-- A module that an operation made comes from an operation of the fitting kind: an inline one
  from a scope, any other one from an operation that defines a module. -/
  modules : ∀ id m op, h.module id = .ok m → m.op? = some op → op.index < d.ops.size ∧
    ∃ o, d.op op = .ok o ∧ if m.isInline then ∃ note, o.payload = .dbgScope note
      else o.payload.isModuleLike = true
  /-- An instance comes from an instance operation or from a scope. -/
  insts : ∀ i node, h.inst i = .ok node → node.op.index < d.ops.size ∧ d.Instantiates node.op

section Lists

variable {α : Type} {s : Space}

theorem positions_ascending {test : α → Bool} {l : List α} :
    (positions test l : List (Handle s)).Pairwise (· < ·) := by
  rw [positions, List.pairwise_map]
  exact List.pairwise_lt_range.filter _

/-- Where every position has an owner below `count`, the lists of the
owners hold each position once. -/
theorem shared_out {count : Nat} (owner : α → Nat) {l : List α} (owned : ∀ a ∈ l, owner a < count) :
    ((List.range count).flatMap fun i => (positions (owner · = i) l : List (Handle s))).Perm
      ((List.range l.length).map (⟨·⟩)) := by
  have listed {i : Nat} {h : Handle s} :
      h ∈ (positions (owner · = i) l : List (Handle s)) ↔ ∃ a, l[h.index]? = some a ∧
        owner a = i := by
    simp [mem_positions]
  refine (List.perm_ext_iff_of_nodup ?_ ?_).2 fun h => ?_
  · refine List.nodup_flatMap.2 ⟨fun _ _ => positions_nodup, ?_⟩
    refine List.nodup_range.imp fun {i j} apart h hi hj => ?_
    obtain ⟨a, ha, rfl⟩ := listed.1 hi
    obtain ⟨b, hb, rfl⟩ := listed.1 hj
    rw [ha] at hb
    cases hb
    exact apart rfl
  · exact List.nodup_range.map fun _ _ same => congrArg Handle.index same
  · simp only [List.mem_flatMap, List.mem_range, List.mem_map, listed]
    constructor
    · rintro ⟨_, _, a, ha, _⟩
      exact ⟨h.index, (List.getElem?_eq_some_iff.1 ha).1, rfl⟩
    · rintro ⟨i, there, rfl⟩
      exact ⟨_, owned _ (List.getElem_mem there), l[i], List.getElem?_eq_getElem there, rfl⟩

end Lists

namespace Lists

variable {h : Hierarchy ν} {f : Findings ν}

theorem variableIds_eq (l : Lists h f) {i : Nat} (there : i < h.moduleCount) :
    h.variableIds ⟨i⟩ = positions (·.owner.index = i) f.vars := by
  obtain ⟨vs, is, found⟩ := Hierarchy.listsAt_of_lt there
  rw [Hierarchy.variableIds, found, Option.map_some, Option.getD_some, (l.lists found).1]

theorem instanceIds_eq (l : Lists h f) {i : Nat} (there : i < h.moduleCount) :
    h.instanceIds ⟨i⟩ = positions (·.owner.index = i) f.insts := by
  obtain ⟨vs, is, found⟩ := Hierarchy.listsAt_of_lt there
  rw [Hierarchy.instanceIds, found, Option.map_some, Option.getD_some, (l.lists found).2]

theorem ids_ascending (l : Lists h f) (id : ModuleId) :
    (h.variableIds id).Pairwise (· < ·) ∧ (h.instanceIds id).Pairwise (· < ·) := by
  by_cases there : id.index < h.moduleCount
  · rw [l.variableIds_eq there, l.instanceIds_eq there]
    exact ⟨positions_ascending, positions_ascending⟩
  · have nothing : h.listsAt id.index = none := by
      unfold Hierarchy.listsAt
      rw [Array.getElem?_eq_none (Nat.le_of_not_lt there)]
      rfl
    rw [Hierarchy.variableIds, Hierarchy.instanceIds, nothing]
    exact ⟨.nil, .nil⟩

theorem vars_shared (l : Lists h f) :
    ((List.range h.moduleCount).flatMap fun i => h.variableIds ⟨i⟩).Perm
    ((List.range h.store.vars.size).map (⟨·⟩)) := by
  have whole : h.store.vars.size = f.vars.length := by rw [← l.vars, Array.length_toList]
  rw [whole, List.flatMap_congr fun i hi => l.variableIds_eq (List.mem_range.1 hi)]
  exact shared_out (fun v : VariableNode ν => v.owner.index) l.varOwners

theorem insts_shared (l : Lists h f) :
    ((List.range h.moduleCount).flatMap fun i => h.instanceIds ⟨i⟩).Perm
    ((List.range h.store.insts.size).map (⟨·⟩)) := by
  have whole : h.store.insts.size = f.insts.length := by
    rw [← Array.length_toList, l.insts, List.length_map]
  rw [whole, List.flatMap_congr fun i hi => l.instanceIds_eq (List.mem_range.1 hi)]
  exact shared_out (fun p : Placement ν => p.owner.index) l.instOwners

end Lists

namespace Hierarchy

variable {h : Hierarchy ν}

theorem module_eq_ok_iff {id : ModuleId} {m : ModuleNode ν} :
    h.module id = .ok m ↔ h.store.modules[id.index]? = some m := by
  unfold module Handle.expect
  cases h.store.modules[id.index]? <;> simp

theorem inst_eq_ok_iff {i : InstanceId} {node : InstanceNode ν} :
    h.inst i = .ok node ↔ h.store.insts[i.index]? = some node := by
  unfold inst Handle.expect
  cases h.store.insts[i.index]? <;> simp

theorem module_of_lt {id : ModuleId} (there : id.index < h.moduleCount) :
    ∃ m, h.module id = .ok m :=
  ⟨_, module_eq_ok_iff.2 (Array.getElem?_eq_getElem there)⟩

theorem labelAt_of_module {id : ModuleId} {m : ModuleNode ν} (found : h.module id = .ok m) :
    h.labelAt id.index = some (m.name, m.origin) := by
  rw [labelAt, module_eq_ok_iff.1 found]
  rfl

theorem module_of_labelAt {id : ModuleId} {name : ν} {origin : Origin}
    (label : h.labelAt id.index = some (name, origin)) :
    ∃ m, h.module id = .ok m ∧ m.name = name ∧ m.origin = origin := by
  obtain ⟨m, hm, both⟩ := Option.map_eq_some_iff.1 label
  cases both
  exact ⟨m, module_eq_ok_iff.2 hm, rfl, rfl⟩

end Hierarchy

theorem Design.index_lt_of_op {d : Design ν} {op : OpId} {o : Operation ν}
    (found : d.op op = .ok o) : op.index < d.ops.size := by
  unfold Design.op Handle.expect at found
  cases there : d.ops[op.index]? with
  | none =>
    rw [there] at found
    cases found
  | some _ => exact (Array.getElem?_eq_some_iff.1 there).1

/-- A closed hierarchy is partitioned. -/
theorem Closed.partitioned [DecidableEq ν] {d : Design ν} {h : Hierarchy ν} (c : Closed d h) :
    Partitioned d h := by
  obtain ⟨f, lists⟩ := c.lists
  refine ⟨lists.vars_shared, ?_, lists.insts_shared, lists.ids_ascending, ?_, ?_, ?_, ?_, ?_⟩
  · intro v node found
    exact lists.mem_variableIds.2 ⟨node, lists.dbgVariable_eq_ok_iff.1 found, rfl⟩
  · intro v node found
    exact lists.varOwners node (List.mem_of_getElem? (lists.dbgVariable_eq_ok_iff.1 found))
  · intro i node found
    exact (c.insts (Hierarchy.inst_eq_ok_iff.1 found)).1
  · intro id m found
    refine ⟨?_, ?_⟩
    · cases origin : m.origin <;> simp [ModuleNode.isInline, ModuleNode.parent?, origin]
    intro parent inner
    have label := Hierarchy.labelAt_of_module found
    cases origin : m.origin with
    | scope op around =>
      rw [ModuleNode.parent?, origin] at inner
      cases inner
      rw [origin] at label
      obtain ⟨⟨name, kind, definition, outer⟩, _⟩ := c.scopes label
      obtain ⟨node, found, _, defined⟩ := Hierarchy.module_of_labelAt outer
      exact ⟨Hierarchy.labelAt_lt outer, node, found, by rw [ModuleNode.isInline, defined]⟩
    | _ =>
      rw [ModuleNode.parent?, origin] at inner
      cases inner
  · intro id m op found made
    have label := Hierarchy.labelAt_of_module found
    cases origin : m.origin with
    | referenced =>
      rw [ModuleNode.op?, origin] at made
      cases made
    | defined kind definition =>
      rw [ModuleNode.op?, origin] at made
      cases made
      rw [origin] at label
      obtain ⟨o, there, symbol, _⟩ := c.defined label
      refine ⟨Design.index_lt_of_op there, o, there, ?_⟩
      rw [ModuleNode.isInline, origin, if_neg (by simp), Payload.isModuleLike, symbol]
      rfl
    | scope scope parent =>
      rw [ModuleNode.op?, origin] at made
      cases made
      rw [origin] at label
      obtain ⟨_, o, note, there, payload, _⟩ := c.scopes label
      refine ⟨Design.index_lt_of_op there, o, there, ?_⟩
      rw [ModuleNode.isInline, origin, if_pos rfl]
      exact ⟨note, payload⟩
  · intro i node found
    obtain ⟨_, o, there, kind⟩ := c.insts (Hierarchy.inst_eq_ok_iff.1 found)
    exact ⟨Design.index_lt_of_op there, o, there, kind⟩

/-! ### Handles that are given out -/

/-- The handles that a hierarchy gives out: in its lists, in answer to a look-up, and in the nodes
that belong to handles it gave out before. -/
inductive Hierarchy.Gives (h : Hierarchy Name) : {s : Space} → Handle s → Prop
  | listed {id : ModuleId} : id ∈ h.modules → h.Gives id
  | topLevel {id : ModuleId} : id ∈ h.topLevel → h.Gives id
  | root {id : ModuleId} : id ∈ h.roots → h.Gives id
  | found {id : ModuleId} {name : Name} : h.find? name = some id → h.Gives id
  | foundText {id : ModuleId} {names : NameTable} {s : String} :
      h.findText? names s = some id → h.Gives id
  | parent {id parent : ModuleId} {m : ModuleNode Name} : h.Gives id → h.module id = .ok m →
      m.parent? = some parent → h.Gives parent
  | listedVariable {id : ModuleId} {m : ModuleNode Name} {v : VariableId} : h.Gives id →
      h.module id = .ok m → v ∈ m.vars → h.Gives v
  | listedInstance {id : ModuleId} {m : ModuleNode Name} {i : InstanceId} : h.Gives id →
      h.module id = .ok m → i ∈ m.insts → h.Gives i
  | owner {v : VariableId} {node : VariableNode Name} : h.Gives v → h.dbgVariable v = .ok node →
      h.Gives node.owner
  | target {i : InstanceId} {node : InstanceNode Name} : h.Gives i → h.inst i = .ok node →
      h.Gives node.target
  | moduleName {id : ModuleId} {m : ModuleNode Name} {n : Name} : h.Gives id → h.module id = .ok m →
      n ∈ m.names → h.Gives n
  | variableName {v : VariableId} {node : VariableNode Name} {n : Name} : h.Gives v →
      h.dbgVariable v = .ok node → n ∈ node.names → h.Gives n
  | instanceName {i : InstanceId} {node : InstanceNode Name} : h.Gives i → h.inst i = .ok node →
      h.Gives node.name
  | enumName {id : ModuleId} {enum : EnumId} {e : EnumDefinition Name} {n : Name} : h.Gives id →
      h.enum? id enum = .ok (some e) → n ∈ e.names → h.Gives n
  | resolvedName {v : VariableId} {e : EnumDefinition Name} {n : Name} : h.Gives v →
      h.resolveEnum v = .ok (some e) → n ∈ e.names → h.Gives n

/-- The hierarchy answers for every handle that it gives out. -/
structure Answers (h : Hierarchy Name) (names : NameTable) : Prop where
  module : ∀ id : ModuleId, h.Gives id → ∃ m, h.module id = .ok m
  inst : ∀ i : InstanceId, h.Gives i → ∃ node, h.inst i = .ok node
  dbgVariable : ∀ v : VariableId, h.Gives v → ∃ node, h.dbgVariable v = .ok node
  enum : ∀ id : ModuleId, h.Gives id → ∀ number, ∃ found, h.enum? id number = .ok found
  resolveEnum : ∀ v : VariableId, h.Gives v → ∃ found, h.resolveEnum v = .ok found
  /-- A look-up that goes from a module outwards finds every module on its way. -/
  chain : ∀ id : ModuleId, h.Gives id → ∃ m, h.module id = .ok m ∧
    match m.parent? with
    | none => h.chain id = [m]
    | some parent => ∃ around, h.module parent = .ok around ∧ h.chain id = [m, around]
  name : ∀ n : Name, h.Gives n → ∃ s, names.text n = .ok s

/-- The handle stands for something in the hierarchy, or, a name, in the table. -/
def Hierarchy.Holds (h : Hierarchy Name) (names : NameTable) : {s : Space} → Handle s → Prop
  | .module, id => id.index < h.moduleCount
  | .inst, i => i.index < h.store.insts.size
  | .dbgVariable, v => v.index < h.store.vars.size
  | .name, n => ∃ s, names.text n = .ok s
  | _, _ => True

namespace Hierarchy

variable {h : Hierarchy Name}

theorem names_of_module {id : ModuleId} {m : ModuleNode Name} (found : h.module id = .ok m)
    {n : Name} (hn : n ∈ m.names) : n ∈ h.names := by
  have there := Array.mem_toList_iff.2 (Array.mem_of_getElem? (module_eq_ok_iff.1 found))
  exact List.mem_append_left _ (List.mem_append_left _ (List.mem_flatMap.2 ⟨m, there, hn⟩))

theorem names_of_enum {m : ModuleNode Name} {number : EnumId} {e : EnumDefinition Name}
    (found : m.enum? number = some e) {n : Name} (hn : n ∈ e.names) : n ∈ m.names := by
  obtain ⟨⟨k, e'⟩, member, rfl⟩ := Option.map_eq_some_iff.1 found
  exact List.mem_append_right _ (List.mem_flatMap.2 ⟨_, List.mem_of_find?_eq_some member, hn⟩)

theorem module_of_enum {id : ModuleId} {number : EnumId} {e : EnumDefinition Name}
    (looked : h.enum? id number = .ok (some e)) : ∃ m, h.module id = .ok m ∧
      m.enum? number = some e := by
  unfold enum? at looked
  cases found : h.module id with
  | error what =>
    rw [found] at looked
    cases looked
  | ok m =>
    rw [found] at looked
    exact ⟨m, rfl, Except.ok.inj looked⟩

theorem module_of_mem_chain {steps : Nat} {id : ModuleId} {m : ModuleNode Name}
    (member : m ∈ h.chainFrom steps id) : ∃ j, h.module j = .ok m := by
  induction steps generalizing id with
  | zero => cases member
  | succ steps ih =>
    rw [chainFrom] at member
    split at member
    · cases member
    · next m' there =>
      rcases List.mem_cons.1 member with rfl | member
      · exact ⟨id, module_eq_ok_iff.2 there⟩
      · split at member
        · exact ih member
        · cases member

theorem module_of_resolveEnum {v : VariableId} {e : EnumDefinition Name}
    (looked : h.resolveEnum v = .ok (some e)) :
    ∃ id m number, h.module id = .ok m ∧ m.enum? number = some e := by
  unfold resolveEnum at looked
  cases found : h.dbgVariable v with
  | error what =>
    rw [found] at looked
    cases looked
  | ok node =>
    rw [found] at looked
    obtain ⟨number, _, resolved⟩ := Option.bind_eq_some_iff.1 (Except.ok.inj looked)
    obtain ⟨m, member, here⟩ := List.exists_of_findSome?_eq_some resolved
    obtain ⟨id, there⟩ := module_of_mem_chain member
    exact ⟨id, m, number, there, here⟩

end Hierarchy

/-- What a closed hierarchy gives out, it holds. -/
theorem Closed.holds {d : Design Name} {h : Hierarchy Name} (c : Closed d h) {names : NameTable}
    (named : ∀ n ∈ h.names, ∃ s, names.text n = .ok s) {s : Space} {x : Handle s}
    (given : h.Gives x) : h.Holds names x := by
  have p := c.partitioned
  obtain ⟨f, lists⟩ := c.lists
  have lists_of {id : ModuleId} {m : ModuleNode Name} (found : h.module id = .ok m) :
      h.variableIds id = m.vars.toList ∧ h.instanceIds id = m.insts.toList := by
    rw [Hierarchy.variableIds, Hierarchy.instanceIds, Hierarchy.listsAt,
      Hierarchy.module_eq_ok_iff.1 found]
    exact ⟨rfl, rfl⟩
  have defined {id : ModuleId} (member : id ∈ h.topLevel) : id.index < h.moduleCount :=
    (c.topLevel id (Array.mem_toList_iff.1 member)).made.lt
  cases given with
  | listed member =>
    exact c.listed _ (Array.mem_toList_iff.1 member)
  | topLevel member => exact defined member
  | root member => exact defined (List.mem_filter.1 member).1
  | found named => exact c.find?_lt named
  | foundText looked =>
    obtain ⟨name, _, named⟩ := Option.bind_eq_some_iff.1 looked
    exact c.find?_lt named
  | parent _ found inner => exact ((p.parents _ _ found).2 _ inner).1
  | listedVariable _ found member =>
    have listed := Array.mem_toList_iff.2 member
    rw [← (lists_of found).1] at listed
    obtain ⟨node, there, _⟩ := lists.mem_variableIds.1 listed
    show _ < h.store.vars.size
    rw [← Array.length_toList, lists.vars]
    exact (List.getElem?_eq_some_iff.1 there).1
  | listedInstance _ found member =>
    have listed := Array.mem_toList_iff.2 member
    rw [← (lists_of found).2] at listed
    obtain ⟨node, there, _⟩ := lists.mem_instanceIds.1 listed
    show _ < h.store.insts.size
    rw [← Array.length_toList, lists.insts, List.length_map]
    exact (List.getElem?_eq_some_iff.1 there).1
  | owner _ found => exact p.owners _ _ found
  | target _ found => exact p.targets _ _ found
  | moduleName _ found member => exact named _ (Hierarchy.names_of_module found member)
  | variableName _ found member =>
    have there := List.mem_of_getElem? (lists.dbgVariable_eq_ok_iff.1 found)
    rw [← lists.vars] at there
    exact named _ (List.mem_append_right _ (List.mem_flatMap.2 ⟨_, there, member⟩))
  | instanceName _ found =>
    have there := Array.mem_toList_iff.2 (Array.mem_of_getElem? (Hierarchy.inst_eq_ok_iff.1 found))
    exact named _ (List.mem_append_left _ (List.mem_append_right _ (List.mem_map_of_mem there)))
  | enumName _ looked member =>
    obtain ⟨m, found, number⟩ := Hierarchy.module_of_enum looked
    exact named _ (Hierarchy.names_of_module found (Hierarchy.names_of_enum number member))
  | resolvedName _ looked member =>
    obtain ⟨id, m, number, found, number⟩ := Hierarchy.module_of_resolveEnum looked
    exact named _ (Hierarchy.names_of_module found (Hierarchy.names_of_enum number member))

/-- Outside of a module there is at most one more. -/
theorem Closed.chain_eq {d : Design Name} {h : Hierarchy Name} (c : Closed d h) {id : ModuleId}
    {m : ModuleNode Name} (found : h.module id = .ok m) :
    match m.parent? with
    | none => h.chain id = [m]
    | some parent => ∃ around, h.module parent = .ok around ∧ h.chain id = [m, around] := by
  have there := Hierarchy.module_eq_ok_iff.1 found
  have inside : id.index < h.store.modules.size := (Array.getElem?_eq_some_iff.1 there).1
  obtain ⟨isInline, parents⟩ := c.partitioned.parents id m found
  cases inner : m.parent? with
  | none =>
    obtain ⟨steps, room⟩ := Nat.exists_eq_add_one.2 (Nat.zero_lt_of_lt inside)
    simp only [Hierarchy.chain, room, Hierarchy.chainFrom, there, inner]
  | some parent =>
    obtain ⟨room, around, outer, outermost⟩ := parents parent inner
    have apart : id.index ≠ parent.index := by
      intro same
      have both := Hierarchy.module_eq_ok_iff.1 outer
      rw [← same, there] at both
      rw [← Option.some.inj both, isInline.2 (by rw [inner]; rfl)] at outermost
      cases outermost
    -- Two modules are there, so the look-up does not stop before the second one.
    obtain ⟨steps, count⟩ : ∃ steps, h.store.modules.size = steps + 2 :=
      ⟨h.store.modules.size - 2, by unfold Hierarchy.moduleCount at room; omega⟩
    have last : around.parent? = none := by
      have flag := (c.partitioned.parents parent around outer).1
      rw [outermost] at flag
      simpa using flag
    refine ⟨around, outer, ?_⟩
    have beyond := Hierarchy.module_eq_ok_iff.1 outer
    simp only [Hierarchy.chain, count, Hierarchy.chainFrom, there, inner, beyond, last]

/-- **Answers.** A closed hierarchy answers for every handle that it gives out. -/
theorem Closed.answers {d : Design Name} {h : Hierarchy Name} (c : Closed d h) {names : NameTable}
    (named : ∀ n ∈ h.names, ∃ s, names.text n = .ok s) : Answers h names := by
  have module {id : ModuleId} (given : h.Gives id) : ∃ m, h.module id = .ok m :=
    Hierarchy.module_of_lt (c.holds named given)
  have dbgVariable {v : VariableId} (given : h.Gives v) : ∃ node, h.dbgVariable v = .ok node := by
    unfold Hierarchy.dbgVariable
    rw [Array.getElem?_eq_getElem (c.holds named given)]
    exact ⟨_, rfl⟩
  refine ⟨fun _ => module, ?_, fun _ => dbgVariable, ?_, ?_, ?_, fun _ => c.holds named⟩
  · intro i given
    unfold Hierarchy.inst
    rw [Array.getElem?_eq_getElem (c.holds named given)]
    exact ⟨_, rfl⟩
  · intro id given number
    obtain ⟨m, found⟩ := module given
    rw [Hierarchy.enum?, found]
    exact ⟨_, rfl⟩
  · intro v given
    obtain ⟨node, found⟩ := dbgVariable given
    rw [Hierarchy.resolveEnum, found]
    exact ⟨_, rfl⟩
  · intro id given
    obtain ⟨m, found⟩ := module given
    exact ⟨m, found, c.chain_eq found⟩

/-- **States.** After every event of an extraction, whether it succeeds in the end
or fails, the hierarchy is partitioned. A hierarchy that was extracted answers for
every handle that it gives out. -/
theorem states_partitioned {script : Script} {known learned : NameTable} {d : Design Name}
    (built : script.build known = (.ok d, learned)) (options : Options) :
    (∀ part, part <+: (d.extract options).journal → Partitioned d (.replay part)) ∧
      ∀ h, (d.extract options).outcome = .ok h →
        h = .replay (d.extract options).journal ∧ Answers h learned := by
  have safe := Building.all_safe d options (p := .start) .start
  have named := @Script.build_names script known learned d built options
  unfold Design.extract at named ⊢
  cases run : (Building.all d options).run .start with
  | ok a q =>
    rw [run] at safe named
    refine ⟨fun part up => (safe.1.closed part up).partitioned, fun h extracted => ?_⟩
    cases extracted
    exact ⟨safe.1.replayed, safe.1.here.answers (named rfl)⟩
  | error failure q =>
    rw [run] at safe
    exact ⟨fun part up => (safe.closed part up).partitioned, nofun⟩

theorem states_of_nestedScopes :
    (∀ part, part <+: (nestedScopes.design.extract {}).journal →
      Partitioned nestedScopes.design (.replay part)) ∧
      Answers (nestedScopes.design.hierarchy {}) nestedScopes.names := by
  have extracted : (nestedScopes.design.extract {}).outcome =
      .ok (nestedScopes.design.hierarchy {}) := by
    decide +kernel
  have built : nestedScopes.build .fresh = (.ok nestedScopes.design, nestedScopes.names) :=
    Script.build_fresh (by decide +kernel)
  obtain ⟨states, finished⟩ := states_partitioned built {}
  exact ⟨states, (finished _ extracted).2⟩

end DebugHierarchy
