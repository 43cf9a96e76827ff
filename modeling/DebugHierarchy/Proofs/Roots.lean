import DebugHierarchy.Proofs.Reordering
import DebugHierarchy.Proofs.ScopeChains
import Mathlib.Data.Set.Finite.Basic

/-!
Where a hierarchy starts.

A root is a defined module that no body instantiates. Instances between defined modules may run in
circles, and then there may be no root at all. Where they do not, the way up from a defined module
ends at a root, since every instance of a module is listed by a defined one.

* `Design.InstantiatesName`: some body without scopes instantiates a name;
* `Hierarchy.LeadsTo`: a defined module lists an instance of another module;
* `Collected.leadsTo_of_not_root`: what is not a root is led to;
* `roots_reach`: the roots are the modules that are not instantiated, and where instances run in no
  circle every defined module is reached from one.
-/

namespace DebugHierarchy

variable {ν : Type}

/-- Some definition has a body without scopes in which an instance of the name lies. -/
def Design.InstantiatesName (d : Design ν) (s : ν) : Prop :=
  ∃ e ∈ d.definitions, ∃ name ports block, e.2.payload = .module name ports block ∧
    hasScope (d.bodyOf block) = false ∧ ∃ f ∈ d.bodyOf block, ∃ inst inputs, f.2.payload =
      .inst inst s inputs

theorem Design.instantiatesName_iff {d : Design ν} {s : ν} :
    d.InstantiatesName s ↔ ∃ e ∈ d.definitions, s ∈ d.mentionsOf e :=
  exists_congr fun _ => and_congr_right fun _ => Design.mem_mentionsOf.symm

namespace Hierarchy

/-- A defined module lists an instance that leads to a module which is not inline. -/
def LeadsTo (h : Hierarchy ν) (id target : ModuleId) : Prop :=
  id ∈ h.topLevel ∧ (∃ m, h.module target = .ok m ∧ m.isInline = false) ∧
    ∃ i ∈ h.instanceIds id, ∃ node, h.inst i = .ok node ∧ node.target = target

def Acyclic (h : Hierarchy ν) : Prop := ∀ id, ¬Relation.TransGen h.LeadsTo id id

/-- Instances that all lead to later handles run in no circle. -/
theorem acyclic_of_forward {h : Hierarchy ν}
    (forward : ∀ id ∈ h.topLevel, ∀ i ∈ h.instanceIds id, ∀ node,
    h.inst i = .ok node → id.index < node.target.index) : h.Acyclic := by
  have later {id target : ModuleId} (way : Relation.TransGen h.LeadsTo id target) :
      id.index < target.index := by
    induction way with
    | single last =>
      obtain ⟨hid, _, i, hi, node, hnode, rfl⟩ := last; exact forward _ hid i hi node hnode
    | tail _ last ih =>
      obtain ⟨hid, _, i, hi, node, hnode, rfl⟩ :=
        last; exact ih.trans (forward _ hid i hi node hnode)
  exact fun id circle => Nat.lt_irrefl _ (later circle)

/-- Without circles, a defined module that is led to can be taken after those that lead to it. -/
theorem Acyclic.induction {h : Hierarchy ν} (acyclic : h.Acyclic) {P : ModuleId → Prop}
    (step : ∀ id ∈ h.topLevel, (∀ before, h.LeadsTo before id → P before) → P id) :
    ∀ id ∈ h.topLevel, P id := by
  have : Finite { id // id ∈ h.topLevel } := List.finite_toSet h.topLevel
  let Leads (a b : { id // id ∈ h.topLevel }) : Prop := Relation.TransGen h.LeadsTo a.1 b.1
  have : IsTrans _ Leads := ⟨fun _ _ _ => Relation.TransGen.trans⟩
  have : Std.Irrefl Leads := ⟨fun a => acyclic a.1⟩
  have founded : WellFounded Leads := Finite.wellFounded_of_trans_of_irrefl _
  intro id hid
  exact founded.induction (C := fun a => P a.1) ⟨id, hid⟩ fun a ih =>
    step a.1 a.2 fun before leads => ih ⟨before, leads.1⟩ (.single leads)

end Hierarchy

/-- How the roots of a hierarchy lie among its defined modules. -/
structure Rooted (d : Design ν) (h : Hierarchy ν) : Prop where
  /-- The roots stand in the order of the defined modules, no two of which are the same. -/
  sublist : h.roots.Sublist h.topLevel
  nodup : h.topLevel.Nodup
  /-- A defined module is a root just where no body without scopes instantiates its name. -/
  root_iff : ∀ id, id ∈ h.roots ↔
    id ∈ h.topLevel ∧ ∃ m, h.module id = .ok m ∧ ¬d.InstantiatesName m.name
  /-- Without circles, every defined module is reached from a root. -/
  reached : h.Acyclic → ∀ id ∈ h.topLevel, ∃ root ∈ h.roots, ∃ way, h.Route root way id
  /-- Without circles, there are roots unless nothing is defined. -/
  nonempty : h.Acyclic → h.topLevel ≠ [] → h.roots ≠ []

namespace Collected

variable [DecidableEq ν] {d : Design ν} {F : Forest ν} {accounts : List (Account ν)}
  {q : Progress ν} (c : Collected d accounts d.definitions q) (n : Nesting d F)
  (closed : Closed d q.hierarchy)

include c n closed

theorem mem_roots_iff {id : ModuleId} : id ∈ q.hierarchy.roots ↔
    id ∈ q.hierarchy.topLevel ∧ ∃ m, q.hierarchy.module id = .ok m ∧
      ¬d.InstantiatesName m.name := by
  rw [Hierarchy.roots, List.mem_filter, Bool.not_eq_true']
  refine and_congr_right fun hid => ?_
  obtain ⟨m, there, _⟩ := ((c.registered n closed).topLevel id).1 hid
  have leads := c.isInstantiated_of_topLevel n closed hid there
  rw [← Design.instantiatesName_iff] at leads
  rw [← Bool.not_eq_true, leads]
  constructor
  · exact fun free => ⟨m, there, free⟩
  · rintro ⟨m', there', free⟩
    cases there.symm.trans there'
    exact free

/-- What is not a root is led to: the instance of its name is listed by the
module whose body it lies in. -/
theorem leadsTo_of_not_root {id : ModuleId} (hid : id ∈ q.hierarchy.topLevel)
    (led : id ∉ q.hierarchy.roots) : ∃ before, q.hierarchy.LeadsTo before id := by
  have registered := c.registered n closed
  obtain ⟨m, there, named, _⟩ := (registered.topLevel id).1 hid
  have instantiated : d.InstantiatesName m.name := by
    by_contra free
    exact led ((c.mem_roots_iff n closed).2 ⟨hid, m, there, free⟩)
  obtain ⟨b, hb, name, ports, block, payload, silent, f, hf, inst, inputs, here⟩ :=
    c.exists_account.2 instantiated
  have found : q.hierarchy.find? m.name = some id := (registered.found _ _).2 ⟨m, there, named, rfl⟩
  obtain ⟨i, hi, node⟩ := c.listed_of_told hb
      (c.placement_of_instance n hb payload silent hf here found)
  have defined : b.owner ∈ q.hierarchy.topLevel := by
    rw [c.topLevel_eq]
    exact List.mem_map_of_mem hb
  exact ⟨b.owner, defined, ⟨m, there, named⟩, i, hi, _, node, rfl⟩

theorem rooted : Rooted d q.hierarchy := by
  have reached (acyclic : q.hierarchy.Acyclic) : ∀ id ∈ q.hierarchy.topLevel,
      ∃ root ∈ q.hierarchy.roots, ∃ way, q.hierarchy.Route root way id := by
    refine acyclic.induction fun id hid ih => ?_
    by_cases free : id ∈ q.hierarchy.roots
    · exact ⟨id, free, [], .here⟩
    · obtain ⟨before, leads⟩ := c.leadsTo_of_not_root n closed hid free
      obtain ⟨root, hroot, way, route⟩ := ih before leads
      obtain ⟨_, _, i, hi, node, hnode, rfl⟩ := leads
      exact ⟨root, hroot, way ++ [i], .onward route hi hnode⟩
  refine ⟨List.filter_sublist, ?_, fun id => c.mem_roots_iff n closed, reached,
    fun acyclic some none => ?_⟩
  · rw [c.topLevel_eq]
    exact c.owners_nodup n
  · obtain ⟨id, hid⟩ := List.exists_mem_of_ne_nil _ some
    obtain ⟨root, hroot, _⟩ := reached acyclic id hid
    rw [none] at hroot
    cases hroot

end Collected

/-- **Roots.** The roots of a hierarchy are its defined modules that are not instantiated, in their
order. Where instances run in no circle, every defined module is reached from a root. -/
theorem roots_reach {d : Design Name} {options : Options} {h : Hierarchy Name}
    (scripted : d.Scripted) (extracted : (d.extract options).outcome = .ok h) : Rooted d h := by
  have closed := Design.closed_of_extract extracted
  obtain ⟨F, accounts, q, rfl, n, c, _⟩ := scripted.collected extracted
  exact c.rooted n closed

/-- Two roots, one of them extern, over a chain of instances, and a module with a scope
whose instance does not count. -/
def twoRoots : Script :=
  .module "Top" [] (.leaf none (.inst "m" "Mid" []) .done) <|
  .module "Mid" [] (.region "r" (.leaf none (.inst "l" "Leaf" []) .done) .done) <|
  .module "Leaf" [] (.leaf none (.dbgScope ⟨"s", "Level", none⟩) <|
    .leaf none (.inst "e" "Ext" []) .done) <|
  .externModule "Ext" [] .done

theorem rooted_twoRoots : (twoRoots.design.hierarchy {}).Acyclic ∧
    (twoRoots.design.hierarchy {}).topLevel = [⟨0⟩, ⟨1⟩, ⟨2⟩, ⟨4⟩] ∧
    (twoRoots.design.hierarchy {}).roots = [⟨0⟩, ⟨4⟩] ∧
    Rooted twoRoots.design (twoRoots.design.hierarchy {}) := by
  have extracted : (twoRoots.design.extract {}).outcome = .ok (twoRoots.design.hierarchy {}) := by
    decide +kernel
  have forward : ∀ id ∈ (twoRoots.design.hierarchy {}).topLevel,
      ∀ i ∈ (twoRoots.design.hierarchy {}).instanceIds id,
      ((twoRoots.design.hierarchy {}).inst i).toOption.all (id.index < ·.target.index) = true := by
        decide +kernel
  refine ⟨Hierarchy.acyclic_of_forward fun id hid i hi node found => ?_, by decide +kernel, by
    decide +kernel,
    roots_reach twoRoots.design_scripted extracted⟩
  have later := forward id hid i hi
  rw [found] at later
  exact of_decide_eq_true later

end DebugHierarchy
