import DebugHierarchy.Proofs.Attribution
import DebugHierarchy.Proofs.Partition
import Mathlib.Data.List.Forall2

/-!
The events that make nodes.

A hierarchy grows by one node at a time, and each kind of nodes is numbered in the order of
creation. So the events of a journal that make modules stand for the modules one by one,
and so do those that make instances and variables. What such an event tells of its node
still holds of it in the end.

* `Census`: a kind of nodes, with the events that make them;
* `Census.Counted.record`, `Census.Counted.writes`: every event, and so every stretch of them, keeps
  the events of a kind in step with the nodes;
* `Census.modules`, `Census.insts`, `Census.vars`: the three kinds.
-/

namespace DebugHierarchy

variable {ν : Type}

namespace Hierarchy

variable {h : Hierarchy ν}

theorem mem_instanceIds_iff {i : InstanceId} {id : ModuleId} :
    i ∈ h.instanceIds id ↔ ∃ m, h.module id = .ok m ∧ i ∈ m.insts := by
  unfold instanceIds listsAt
  simp only [module_eq_ok_iff]
  cases h.store.modules[id.index]? <;> simp

/-- What a module lists it lists for good. -/
theorem mem_instanceIds_apply {i : InstanceId} {id : ModuleId} (listed : i ∈ h.instanceIds id)
    (e : Event ν) :
    i ∈ (h.apply e).instanceIds id := by
  obtain ⟨m, found, member⟩ := mem_instanceIds_iff.1 listed
  rw [module_eq_ok_iff] at found
  have there : id.index ≠ h.store.modules.size :=
    Nat.ne_of_lt (Array.getElem?_eq_some_iff.1 found).1
  have changed (target : ModuleId) (change : ModuleNode ν → ModuleNode ν)
      (keeps : i ∈ (change m).insts) :
      ∃ m', (if target.index = id.index then h.store.modules[id.index]?.map change
        else h.store.modules[id.index]?) = some m' ∧ i ∈ m'.insts := by
    rw [found]
    split
    · exact ⟨_, rfl, keeps⟩
    · exact ⟨_, rfl, member⟩
  rw [mem_instanceIds_iff]
  simp only [module_eq_ok_iff]
  cases e with
  | register | inlineModule =>
    refine ⟨m, ?_, member⟩
    rw [apply, Store.addModule, Array.getElem?_push, if_neg there, found]
  | define id' | setInfo id' | setEnum id' | surveyed id' =>
    simp only [apply, Store.modifyModule, Array.getElem?_modify]
    exact changed id' _ member
  | addVariable origin v node =>
    simp only [apply, Store.addVariable, Store.modifyModule, Array.getElem?_modify]
    exact changed node.owner _ member
  | addInstance origin j owner node =>
    simp only [apply, Store.addInstance, Store.modifyModule, Array.getElem?_modify]
    exact changed owner _ (Array.mem_push_of_mem _ member)
  | collect | replaceInfo | keepEnum | looseScope | built => exact ⟨m, found, member⟩

theorem inst_apply {i : InstanceId} {node : InstanceNode ν} (found : h.inst i = .ok node)
    (e : Event ν) : (h.apply e).inst i = .ok node := by
  rw [inst_eq_ok_iff] at found ⊢
  cases e with
  | addInstance origin j owner new =>
    have there : i.index ≠ h.store.insts.size := Nat.ne_of_lt (Array.getElem?_eq_some_iff.1 found).1
    simp only [apply, Store.addInstance, Store.modifyModule, Array.getElem?_push,
      if_neg there, found]
  | _ => exact found

theorem dbgVariable_eq_ok_iff {v : VariableId} {node : VariableNode ν} :
    h.dbgVariable v = .ok node ↔ h.store.vars[v.index]? = some node := by
  unfold dbgVariable Handle.expect
  cases h.store.vars[v.index]? <;> simp

theorem dbgVariable_apply {v : VariableId} {node : VariableNode ν}
    (found : h.dbgVariable v = .ok node) (e : Event ν) : (h.apply e).dbgVariable v = .ok node := by
  rw [dbgVariable_eq_ok_iff] at found ⊢
  cases e with
  | addVariable origin w new =>
    have there : v.index ≠ h.store.vars.size := Nat.ne_of_lt (Array.getElem?_eq_some_iff.1 found).1
    simp only [apply, Store.addVariable, Store.modifyModule, Array.getElem?_push,
      if_neg there, found]
  | _ => exact found

end Hierarchy

variable [DecidableEq ν]

/-- A kind of nodes that are numbered in the order of the events that make them. -/
structure Census (ν : Type) [DecidableEq ν] where
  /-- The event makes a node of the kind. -/
  makes : Event ν → Bool
  /-- How many nodes of the kind there are. -/
  count : Hierarchy ν → Nat
  /-- The event made the node with the number, and the node is as the event tells. -/
  Made : Hierarchy ν → Event ν → Nat → Prop
  nobody : count .empty = 0
  others : ∀ h e, makes e = false → count (h.apply e) = count h
  born : ∀ h e, e.Fits h → makes e = true → count (h.apply e) = count h + 1 ∧
    Made (h.apply e) e (count h)
  lasts : ∀ h e f i, f.Fits h → Made h e i → Made (h.apply f) e i

namespace Census

variable (c : Census ν) {p q : Progress ν} {e : Event ν} {es : List (Event ν)}

/-- One after the other, the events of the kind in the journal made the nodes of the hierarchy. -/
def Counted (p : Progress ν) : Prop :=
  List.Forall₂ (c.Made p.hierarchy) (p.journal.toList.filter c.makes)
    (List.range (c.count p.hierarchy))

variable {c}

theorem Counted.start : c.Counted .start := by
  rw [Counted, show c.count Progress.start.hierarchy = 0 from c.nobody]
  exact .nil

/-- An event that makes a node makes the next one, and any other event makes none. -/
theorem Counted.record (counted : c.Counted p) (fits : e.Fits p.hierarchy) :
    c.Counted (p.record e) := by
  have before : List.Forall₂ (c.Made (p.hierarchy.apply e)) (p.journal.toList.filter c.makes)
      (List.range (c.count p.hierarchy)) := counted.imp fun f i made => c.lasts _ f e i fits made
  unfold Counted
  rw [p.journal_record, List.filter_append]
  cases makes : c.makes e with
  | true =>
    obtain ⟨next, made⟩ := c.born p.hierarchy e fits makes
    rw [List.filter_singleton, makes, show (p.record e).hierarchy = p.hierarchy.apply e from rfl,
      next, List.range_succ]
    exact List.rel_append before (.cons made .nil)
  | false =>
    rw [List.filter_singleton, makes, show (p.record e).hierarchy = p.hierarchy.apply e from rfl,
      c.others p.hierarchy e makes]
    simpa using before

/-- **Censuses.** Fitting events keep the journal in step with the nodes. -/
theorem Counted.writes (counted : c.Counted p) (writes : p.Writes es q) : c.Counted q := by
  induction writes with
  | nil => exact counted
  | cons fits _ ih => exact ih (counted.record fits)

end Census

/-! ### The three kinds -/

namespace Census

/-- Modules. A name finds the module that it was registered for, and an
inline module keeps its scope. -/
def modules : Census ν where
  makes
    | .register .. | .inlineModule .. => true
    | _ => false
  count := Hierarchy.moduleCount
  Made h e i := match e with
    | .register id name => id = ⟨i⟩ ∧ h.find? name = some id
    | .inlineModule id name scope parent =>
      id = ⟨i⟩ ∧ h.labelAt i = some (name, .scope scope parent)
    | _ => False
  nobody := rfl
  others h e silent := by
    rw [Hierarchy.moduleCount_apply]
    cases e <;> first | rfl | cases silent
  born h e fits makes := by
    rw [Hierarchy.moduleCount_apply]
    cases e with
    | register id name =>
      obtain ⟨rfl, fresh⟩ := fits
      refine ⟨rfl, rfl, ?_⟩
      rw [Hierarchy.find?_register, fresh, if_pos rfl]
      rfl
    | inlineModule id name scope parent =>
      obtain ⟨rfl, _⟩ := fits
      refine ⟨rfl, rfl, ?_⟩
      rw [Hierarchy.apply, Hierarchy.labelAt_addModule h.store h.catalog]
      exact if_pos rfl
    | _ => cases makes
  lasts h e f i fits made := by
    cases e with
    | register id name => exact ⟨made.1, Hierarchy.find?_apply made.2 f⟩
    | inlineModule id name scope parent => exact ⟨made.1, Hierarchy.labelAt_apply fits made.2 nofun⟩
    | _ => exact made

/-- Instances. The module that was given an instance lists it. -/
def insts : Census ν where
  makes
    | .addInstance .. => true
    | _ => false
  count h := h.store.insts.size
  Made h e i := match e with
    | .addInstance _ id owner node => id = ⟨i⟩ ∧ h.inst id = .ok node ∧ id ∈ h.instanceIds owner
    | _ => False
  nobody := rfl
  others h e silent := by cases e <;> first | rfl | cases silent
  born h e fits makes := by
    cases e with
    | addInstance origin id owner node =>
      obtain ⟨rfl, inside, _⟩ := fits
      refine ⟨Array.size_push _, rfl, ?_, ?_⟩
      · simp [Hierarchy.inst_eq_ok_iff, Hierarchy.apply, Store.addInstance, Store.modifyModule,
          Store.nextInstance]
      · obtain ⟨m, found⟩ := Hierarchy.module_of_lt inside
        rw [Hierarchy.module_eq_ok_iff] at found
        simp [Hierarchy.mem_instanceIds_iff, Hierarchy.module_eq_ok_iff, Hierarchy.apply,
          Store.addInstance, Store.modifyModule, Store.nextInstance, Array.getElem?_modify, found]
    | _ => cases makes
  lasts h e f i _ made := by
    cases e with
    | addInstance origin id owner node =>
      exact ⟨made.1, Hierarchy.inst_apply made.2.1 f, Hierarchy.mem_instanceIds_apply made.2.2 f⟩
    | _ => exact made

def vars : Census ν where
  makes
    | .addVariable .. => true
    | _ => false
  count h := h.store.vars.size
  Made h e i := match e with
    | .addVariable _ id node => id = ⟨i⟩ ∧ h.dbgVariable id = .ok node
    | _ => False
  nobody := rfl
  others h e silent := by cases e <;> first | rfl | cases silent
  born h e fits makes := by
    cases e with
    | addVariable origin id node =>
      obtain ⟨rfl, _⟩ := fits
      refine ⟨Array.size_push _, rfl, ?_⟩
      simp [Hierarchy.dbgVariable_eq_ok_iff, Hierarchy.apply, Store.addVariable, Store.modifyModule,
        Store.nextVariable]
    | _ => cases makes
  lasts h e f i _ made := by
    cases e with
    | addVariable origin id node => exact ⟨made.1, Hierarchy.dbgVariable_apply made.2 f⟩
    | _ => exact made

end Census

/-- A finished extraction has counted every kind of nodes. -/
theorem Collected.counted {d : Design ν} {accounts : List (Account ν)} {part : List (Entry ν)}
    {q : Progress ν} (collected : Collected d accounts part q) (c : Census ν) : c.Counted q := by
  obtain ⟨es, writes, _⟩ := collected.leads
  exact Census.Counted.start.writes writes

end DebugHierarchy
