import DebugHierarchy.Proofs.Collecting
import Mathlib.Data.List.Flatten
import Mathlib.Data.List.Pairwise

/-!
The modules of a finished hierarchy in families.

A module and the inline modules of the scopes in its body form a family. The accounts of an
extraction share nothing: each has a family of its own, and what it tells belongs to that family.

* `Collected.inline?_eq_some_iff`: every scope has one inline module;
* `Collected.vars_of_family`, `Collected.insts_of_family`: what a family owns
  is what its account tells;
* `Collected.insts_distinct`: no operation has two instances.
-/

namespace DebugHierarchy

variable {ν : Type}

namespace Hierarchy

variable (h : Hierarchy ν)

def variableIds (id : ModuleId) : List VariableId := ((h.listsAt id.index).map (·.1.toList)).getD []

def instanceIds (id : ModuleId) : List InstanceId := ((h.listsAt id.index).map (·.2.toList)).getD []

def varsOf (id : ModuleId) : List (VariableNode ν) :=
  (h.variableIds id).filterMap fun v => h.store.vars[v.index]?

def instsOf (id : ModuleId) : List (InstanceNode ν) :=
  (h.instanceIds id).filterMap fun i => h.store.insts[i.index]?

/-- The module whose family a module is of: that around an inline module,
and else the module itself. -/
def home (id : ModuleId) : ModuleId :=
  match h.labelAt id.index with
  | some (_, .scope _ parent) => parent
  | _ => id

def isInlineOf (op : OpId) (i : Nat) : Bool :=
  match h.labelAt i with
  | some (_, .scope scope _) => scope = op
  | _ => false

def inline? (op : OpId) : Option ModuleId :=
  ((List.range h.moduleCount).find? (h.isInlineOf op)).map (⟨·⟩)

variable {h} in
theorem isInlineOf_iff {op : OpId} {i : Nat} :
    h.isInlineOf op i ↔ ∃ name owner, h.labelAt i = some (name, .scope op owner) := by
  unfold isInlineOf
  cases h.labelAt i with
  | none => simp
  | some label =>
    obtain ⟨name, origin⟩ := label
    cases origin <;> simp

end Hierarchy

namespace Lists

variable {h : Hierarchy ν} {f : Findings ν}

/-- A module lists just the variables that it owns. -/
theorem mem_variableIds (l : Lists h f) {v : VariableId} {id : ModuleId} :
    v ∈ h.variableIds id ↔ ∃ x, f.vars[v.index]? = some x ∧ x.owner = id := by
  unfold Hierarchy.variableIds
  cases lists : h.listsAt id.index with
  | none =>
    constructor
    · intro hv
      cases hv
    · rintro ⟨x, hx, rfl⟩
      obtain ⟨_, _, found⟩ := Hierarchy.listsAt_of_lt (l.varOwners x (List.mem_of_getElem? hx))
      rw [lists] at found
      cases found
  | some found =>
    rw [Option.map_some, Option.getD_some, (l.lists lists).1, mem_positions]
    simp [Handle.ext_iff]

/-- A module lists just the instances that were placed in it. -/
theorem mem_instanceIds (l : Lists h f) {i : InstanceId} {id : ModuleId} :
    i ∈ h.instanceIds id ↔ ∃ p, f.insts[i.index]? = some p ∧ p.owner = id := by
  unfold Hierarchy.instanceIds
  cases lists : h.listsAt id.index with
  | none =>
    constructor
    · intro hi
      cases hi
    · rintro ⟨p, hp, rfl⟩
      obtain ⟨_, _, found⟩ := Hierarchy.listsAt_of_lt (l.instOwners p (List.mem_of_getElem? hp))
      rw [lists] at found
      cases found
  | some found =>
    rw [Option.map_some, Option.getD_some, (l.lists lists).2, mem_positions]
    simp [Handle.ext_iff]

theorem variableIds_nodup (l : Lists h f) (id : ModuleId) : (h.variableIds id).Nodup := by
  unfold Hierarchy.variableIds
  cases lists : h.listsAt id.index with
  | none => exact .nil
  | some found =>
    rw [Option.map_some, Option.getD_some, (l.lists lists).1]
    exact positions_nodup

theorem instanceIds_nodup (l : Lists h f) (id : ModuleId) : (h.instanceIds id).Nodup := by
  unfold Hierarchy.instanceIds
  cases lists : h.listsAt id.index with
  | none => exact .nil
  | some found =>
    rw [Option.map_some, Option.getD_some, (l.lists lists).2]
    exact positions_nodup

theorem dbgVariable_eq_ok_iff (l : Lists h f) {v : VariableId} {x : VariableNode ν} :
    h.dbgVariable v = .ok x ↔ f.vars[v.index]? = some x := by
  rw [← l.vars, Array.getElem?_toList]
  unfold Hierarchy.dbgVariable Handle.expect
  cases h.store.vars[v.index]? <;> simp

theorem inst_eq_ok_iff (l : Lists h f) {i : InstanceId} {node : InstanceNode ν} :
    h.inst i = .ok node ↔ ∃ p, f.insts[i.index]? = some p ∧ p.node = node := by
  rw [← Option.map_eq_some_iff, ← List.getElem?_map, ← l.insts, Array.getElem?_toList]
  unfold Hierarchy.inst Handle.expect
  cases h.store.insts[i.index]? <;> simp

/-- No two modules list one instance. -/
theorem lister_unique (l : Lists h f) {i : InstanceId} {id id' : ModuleId}
    (hi : i ∈ h.instanceIds id) (hi' : i ∈ h.instanceIds id') : id = id' := by
  obtain ⟨p, hp, rfl⟩ := l.mem_instanceIds.1 hi
  obtain ⟨p', hp', rfl⟩ := l.mem_instanceIds.1 hi'
  rw [hp] at hp'
  rw [Option.some.inj hp']

theorem lister_of_inst (l : Lists h f) {i : InstanceId} {node : InstanceNode ν}
    (hi : h.inst i = .ok node) : ∃! id, i ∈ h.instanceIds id := by
  obtain ⟨p, hp, _⟩ := l.inst_eq_ok_iff.1 hi
  have listed := l.mem_instanceIds.2 ⟨p, hp, rfl⟩
  exact ⟨p.owner, listed, fun _ hi' => l.lister_unique hi' listed⟩

theorem inst_of_listed (l : Lists h f) {i : InstanceId} {id : ModuleId}
    (hi : i ∈ h.instanceIds id) : ∃ node, h.inst i = .ok node := by
  obtain ⟨p, hp, _⟩ := l.mem_instanceIds.1 hi
  exact ⟨p.node, l.inst_eq_ok_iff.2 ⟨p, hp, rfl⟩⟩

theorem varsOf_eq (l : Lists h f) {id : ModuleId} (there : id.index < h.moduleCount) :
    h.varsOf id = f.vars.filter (·.owner = id) := by
  obtain ⟨vs, is, found⟩ := Hierarchy.listsAt_of_lt there
  unfold Hierarchy.varsOf Hierarchy.variableIds
  rw [found, Option.map_some, Option.getD_some, (l.lists found).1]
  have read : (fun v : VariableId => h.store.vars[v.index]?) = fun v => f.vars[v.index]? := by
    funext v
    rw [← l.vars, Array.getElem?_toList]
  rw [read, filterMap_positions]
  exact List.filter_congr fun v _ => by simp [Handle.ext_iff]

theorem instsOf_eq (l : Lists h f) {id : ModuleId} (there : id.index < h.moduleCount) :
    h.instsOf id = (f.insts.filter (·.owner = id)).map (·.node) := by
  obtain ⟨vs, is, found⟩ := Hierarchy.listsAt_of_lt there
  unfold Hierarchy.instsOf Hierarchy.instanceIds
  rw [found, Option.map_some, Option.getD_some, (l.lists found).2]
  have read : (fun i : InstanceId => h.store.insts[i.index]?) =
      fun i => (f.insts[i.index]?).map (·.node) := by
    funext i
    rw [← Array.getElem?_toList, l.insts, List.getElem?_map]
  have split : (positions (·.owner.index = id.index) f.insts : List InstanceId).filterMap
      (fun i => (f.insts[i.index]?).map (·.node)) =
      ((positions (·.owner.index = id.index) f.insts : List InstanceId).filterMap
        fun i => f.insts[i.index]?).map (·.node) := by
    rw [List.map_filterMap]
  rw [read, split, filterMap_positions]
  exact congrArg _ (List.filter_congr fun p _ => by simp [Handle.ext_iff])

end Lists

/-- What an account tells has its inline modules from the scopes of the body. -/
theorem Account.inlined_eq (d : Design ν) (find : ν → Option ModuleId) (a : Account ν) :
    (a.findings d find).inlined = inlinings a.base a.owner (d.bodyIn a.entry) := by
  unfold Account.findings Design.bodyIn
  cases a.entry.2.payload <;> rfl

section Lists

variable {α β κ : Type}

/-- Where every member of a list has a key of its own and marks what it gives with it,
the mark finds what it gives. -/
theorem filter_flatMap_of_key [DecidableEq κ] {key : α → κ} {give : α → List β} (mark : β → κ)
    {l : List α} (distinct : (l.map key).Nodup) (marked : ∀ a ∈ l, ∀ b ∈ give a, mark b = key a)
    {a : α} (ha : a ∈ l) : (l.flatMap give).filter (mark · = key a) = give a := by
  induction l with
  | nil => cases ha
  | cons x rest ih =>
    rw [List.map_cons, List.nodup_cons] at distinct
    have own := marked x List.mem_cons_self
    have others := fun b hb => marked b (List.mem_cons_of_mem _ hb)
    rw [List.flatMap_cons, List.filter_append]
    rcases List.mem_cons.1 ha with rfl | ha
    · have mine : (give a).filter (mark · = key a) = give a :=
        List.filter_eq_self.2 fun b hb => decide_eq_true (own b hb)
      have none : (rest.flatMap give).filter (mark · = key a) = [] := by
        refine List.filter_eq_nil_iff.2 fun b hb same => ?_
        obtain ⟨y, hy, hb⟩ := List.mem_flatMap.1 hb
        rw [decide_eq_true_eq, others y hy b hb] at same
        exact distinct.1 (same ▸ List.mem_map_of_mem hy)
      rw [mine, none, List.append_nil]
    · have none : (give x).filter (mark · = key a) = [] := by
        refine List.filter_eq_nil_iff.2 fun b hb same => ?_
        rw [decide_eq_true_eq, own b hb] at same
        exact distinct.1 (same ▸ List.mem_map_of_mem ha)
      rw [none, List.nil_append]
      exact ih distinct.2 others ha

/-- Where nothing is given twice, what two members both give comes from one. -/
theorem eq_of_mem_flatMap {give : α → List β} {l : List α} (distinct : (l.flatMap give).Nodup)
    {a a' : α} (ha : a ∈ l) (ha' : a' ∈ l) {b : β} (hb : b ∈ give a) (hb' : b ∈ give a') :
    a = a' := by
  have symm : Std.Symm (Function.onFun List.Disjoint give) := ⟨fun _ _ apart _ h h' => apart h' h⟩
  by_contra other
  exact (List.nodup_flatMap.1 distinct).2.forall ha ha' other hb hb'

theorem map_filterMap_sublist {f : α → Option β} {source : β → κ} {key : α → κ}
    (keyed : ∀ {a b}, f a = some b → source b = key a) (l : List α) :
    ((l.filterMap f).map source).Sublist (l.map key) := by
  induction l with
  | nil => exact .slnil
  | cons a rest ih =>
    rw [List.filterMap_cons, List.map_cons]
    cases found : f a with
    | none => exact ih.cons _
    | some b =>
      rw [List.map_cons, keyed found]
      exact ih.cons_cons _

end Lists

/-- An operation stands in the body of one module only. -/
theorem Nesting.home_unique {d : Design ν} {F : Forest ν} (n : Nesting d F) {e e' : Entry ν}
    (he : e ∈ d.definitions) (he' : e' ∈ d.definitions) {id : OpId}
    (inside : id ∈ (d.bodyIn e).map (·.1)) (inside' : id ∈ (d.bodyIn e').map (·.1)) : e = e' := by
  have distinct := n.sections_nodup
  rw [List.map_flatMap] at distinct
  exact eq_of_mem_flatMap distinct he he' (List.mem_cons_of_mem _ inside)
    (List.mem_cons_of_mem _ inside')

/-! ### Families apart -/

namespace Collected

variable [DecidableEq ν] {d : Design ν} {F : Forest ν} {accounts : List (Account ν)}
  {q : Progress ν} {a b : Account ν}

section

variable {part : List (Entry ν)} (c : Collected d accounts part q)

include c

theorem kind_of_account (ha : a ∈ accounts) :
    ∃ kind, a.entry.2.payload.moduleKind? = some kind := by
  obtain ⟨name, symbol, _⟩ := c.known a ha
  cases payload : a.entry.2.payload <;> simp [payload, Payload.symbol?] at symbol <;>
    simp [Payload.moduleKind?]

theorem label_of_owner (ha : a ∈ accounts) :
    ∃ name kind, q.hierarchy.labelAt a.owner.index = some (name, .defined kind a.entry.1) := by
  obtain ⟨kind, kind_eq⟩ := c.kind_of_account ha
  obtain ⟨name, label⟩ := (c.mem_defined (x := ⟨a.owner, kind, a.entry.1⟩)).2 ⟨a, ha,
      kind, kind_eq, rfl⟩
  exact ⟨name, kind, label⟩

/-- The inline modules are those of the scopes in the bodies. -/
theorem label_of_scope_iff {inline owner : ModuleId} {scope : OpId} {name : ν} :
    q.hierarchy.labelAt inline.index = some (name, .scope scope owner) ↔
      ∃ a ∈ accounts, a.owner = owner ∧ ∃ note,
        ((scope, note), inline) ∈ numberedScopes a.base (d.bodyIn a.entry) ∧
          note.moduleName = name := by
  rw [← c.labels.inlined (x := ⟨inline, name, scope, owner⟩), Findings.gather_inlined,
    List.mem_flatMap]
  simp only [Account.inlined_eq, inlinings, List.mem_map, Inlining.mk.injEq]
  constructor
  · rintro ⟨a, ha, ⟨⟨s, note⟩, i⟩, numbered, rfl, rfl, rfl, rfl⟩
    exact ⟨a, ha, rfl, note, numbered, rfl⟩
  · rintro ⟨a, ha, rfl, note, numbered, rfl⟩
    exact ⟨a, ha, _, numbered, rfl, rfl, rfl, rfl⟩

/-- Every instance is told by an account. -/
theorem inst_iff {node : InstanceNode ν} : (∃ i, q.hierarchy.inst i = .ok node) ↔
    ∃ a ∈ accounts, ∃ p ∈ (a.findings d q.hierarchy.find?).insts, p.node = node := by
  simp only [c.lists.inst_eq_ok_iff]
  constructor
  · rintro ⟨i, p, hp, same⟩
    obtain ⟨a, ha, told⟩ := Findings.mem_gather_insts.1 (List.mem_of_getElem? hp)
    exact ⟨a, ha, p, told, same⟩
  · rintro ⟨a, ha, p, told, same⟩
    obtain ⟨i, hp⟩ := List.mem_iff_getElem?.1 (Findings.mem_gather_insts.2 ⟨a, ha, told⟩)
    exact ⟨⟨i⟩, p, hp, same⟩

theorem mem_part (ha : a ∈ accounts) : a.entry ∈ part := c.entries ▸ List.mem_map_of_mem ha

theorem home_owner (ha : a ∈ accounts) : q.hierarchy.home a.owner = a.owner := by
  obtain ⟨name, kind, label⟩ := c.label_of_owner ha
  rw [Hierarchy.home, label]

end

variable (c : Collected d accounts d.definitions q) (n : Nesting d F)

include c n

theorem mem_entries (ha : a ∈ accounts) : a.entry ∈ d.entries := by
  exact (n.mem_definitions_iff.1 (c.mem_part ha)).1

theorem account_ids_nodup : (accounts.map (·.entry.1)).Nodup := by
  have ids : accounts.map (·.entry.1) = d.definitions.map (·.1) := by
    rw [← c.entries, List.map_map]; rfl
  rw [ids]
  exact List.pairwise_map.2 (n.definitions_ascending.imp fun less same =>
    absurd (same ▸ less) (Nat.lt_irrefl _))

theorem account_of_entry (ha : a ∈ accounts) (hb : b ∈ accounts) (same : a.entry.1 = b.entry.1) :
    a = b :=
  List.inj_on_of_nodup_map (c.account_ids_nodup n) ha hb same

/-- Two definitions never get one module. -/
theorem account_of_owner (ha : a ∈ accounts) (hb : b ∈ accounts) (same : a.owner = b.owner) :
    a = b := by
  obtain ⟨_, _, label⟩ := c.label_of_owner ha
  obtain ⟨_, _, label'⟩ := c.label_of_owner hb
  rw [same, label', Option.some.injEq, Prod.mk.injEq, Origin.defined.injEq] at label
  exact c.account_of_entry n ha hb label.2.2.symm

theorem owners_nodup : (accounts.map (·.owner)).Nodup :=
  List.Nodup.map_on (fun _ ha _ hb same => c.account_of_owner n ha hb same)
    (.of_map (·.entry.1) (c.account_ids_nodup n))

/-- Two bodies share no operation. -/
theorem account_of_body (ha : a ∈ accounts) (hb : b ∈ accounts) {op : OpId}
    (inA : op ∈ (d.bodyIn a.entry).map (·.1)) (inB : op ∈ (d.bodyIn b.entry).map (·.1)) :
    a = b := by
  have sections := n.sections_nodup
  rw [List.map_flatMap] at sections
  have entries := eq_of_mem_flatMap sections (c.mem_part ha) (c.mem_part hb)
    (List.mem_cons_of_mem _ inA) (List.mem_cons_of_mem _ inB)
  exact c.account_of_entry n ha hb (congrArg Prod.fst entries)

theorem body_nodup (ha : a ∈ accounts) : ((d.bodyIn a.entry).map (·.1)).Nodup :=
  n.body_ids_nodup (c.mem_part ha)

/-- A module that a module operation defines has an account, and the operation a body. -/
theorem account_of_module {owner : ModuleId} {op : OpId} {name : ν}
    (label : q.hierarchy.labelAt owner.index = some (name, .defined .module op)) :
    ∃ a ∈ accounts, a.owner = owner ∧ a.entry.1 = op ∧ d.op op = .ok a.entry.2 ∧
      a.entry ∈ d.entries ∧ ∃ name ports block, a.entry.2.payload = .module name ports block := by
  obtain ⟨a, ha, kind, kind_eq, same⟩ := (c.mem_defined (x := ⟨owner, .module, op⟩)).1 ⟨name, label⟩
  cases same
  have there := c.mem_entries n ha
  refine ⟨a, ha, rfl, rfl, op_of_mem_entries there, there, ?_⟩
  cases payload : a.entry.2.payload with
  | module name ports block => exact ⟨name, ports, block, rfl⟩
  | _ => simp [payload, Payload.moduleKind?] at kind_eq

/-- A scope has one inline module. -/
theorem inline_unique {i j owner owner' : ModuleId} {scope : OpId} {name name' : ν}
    (hi : q.hierarchy.labelAt i.index = some (name, .scope scope owner))
    (hj : q.hierarchy.labelAt j.index = some (name', .scope scope owner')) : i = j := by
  obtain ⟨a, ha, _, note, numbered, _⟩ := c.label_of_scope_iff.1 hi
  obtain ⟨b, hb, _, note', numbered', _⟩ := c.label_of_scope_iff.1 hj
  have there {x : Account ν} {note : ScopeNote ν ValueId} {i : ModuleId}
      (numbered : ((scope, note), i) ∈ numberedScopes x.base (d.bodyIn x.entry)) :
      scope ∈ (d.bodyIn x.entry).map (·.1) := by
    have member : (scope, note) ∈ scopesOf (d.bodyIn x.entry) :=
      numberedScopes_map_fst x.base (d.bodyIn x.entry) ▸ List.mem_map_of_mem numbered
    obtain ⟨e, he, rfl, _⟩ := mem_scopesOf.1 member
    exact List.mem_map_of_mem he
  obtain rfl := c.account_of_body n ha hb (there numbered) (there numbered')
  have found := (Survey.scope?_eq_some_iff (c.body_nodup n ha)).2 ⟨note, numbered⟩
  have found' := (Survey.scope?_eq_some_iff (c.body_nodup n ha)).2 ⟨note', numbered'⟩
  rw [found] at found'
  exact Option.some.inj found'

theorem inline?_eq_some_iff {scope : OpId} {inline : ModuleId} :
    q.hierarchy.inline? scope = some inline ↔
      ∃ name owner, q.hierarchy.labelAt inline.index = some (name, .scope scope owner) := by
  unfold Hierarchy.inline?
  rw [Option.map_eq_some_iff]
  constructor
  · rintro ⟨i, found, rfl⟩
    exact Hierarchy.isInlineOf_iff.1 (List.find?_some found)
  · rintro ⟨name, owner, label⟩
    have there : ((List.range q.hierarchy.moduleCount).find?
        (q.hierarchy.isInlineOf scope)).isSome :=
      List.find?_isSome.2 ⟨_, List.mem_range.2 (Hierarchy.labelAt_lt label),
        Hierarchy.isInlineOf_iff.2 ⟨name, owner, label⟩⟩
    obtain ⟨i, found⟩ := Option.isSome_iff_exists.1 there
    obtain ⟨_, _, label'⟩ := Hierarchy.isInlineOf_iff.1 (List.find?_some found)
    exact ⟨i, found, c.inline_unique n (i := ⟨i⟩) label' label⟩

/-- The scope table of a survey gives the inline modules of the finished hierarchy. -/
theorem survey_inline (ha : a ∈ accounts) {op : OpId}
    (member : op ∈ (scopesOf (d.bodyIn a.entry)).map (·.1)) :
    (Survey.of a.base (d.bodyIn a.entry)).scope? op = q.hierarchy.inline? op := by
  have distinct := c.body_nodup n ha
  obtain ⟨inline, found⟩ := Option.isSome_iff_exists.1
    ((Survey.scope?_isSome_iff distinct a.base).2 member)
  obtain ⟨note, numbered⟩ := (Survey.scope?_eq_some_iff distinct).1 found
  have label := c.label_of_scope_iff.2 ⟨a, ha, rfl, note, numbered, rfl⟩
  rw [found, (c.inline?_eq_some_iff n).2 ⟨_, _, label⟩]

theorem survey_target (ha : a ∈ accounts) (ref : Option ValueId) :
    targetIn d (d.bodyIn a.entry) (Survey.of a.base (d.bodyIn a.entry)).scope? a.owner ref =
      targetIn d (d.bodyIn a.entry) q.hierarchy.inline? a.owner ref := by
  unfold targetIn
  cases found : d.scopeIn (d.bodyIn a.entry) ref with
  | none => rfl
  | some op =>
    obtain ⟨_, note, scope⟩ := Design.scopeIn_eq_some_iff.1 found
    rw [Option.bind_some, Option.bind_some, c.survey_inline n ha (List.mem_map_of_mem scope)]

/-- A scope of a body has an inline module in the family of the body's module. -/
theorem inline_of_scope (ha : a ∈ accounts) {op : OpId} {note : ScopeNote ν ValueId}
    (member : (op, note) ∈ scopesOf (d.bodyIn a.entry)) : ∃ inline,
      q.hierarchy.inline? op = some inline ∧
        q.hierarchy.labelAt inline.index = some (note.moduleName, .scope op a.owner) := by
  rw [← numberedScopes_map_fst a.base] at member
  obtain ⟨⟨_, inline⟩, numbered, rfl⟩ := List.mem_map.1 member
  have label := c.label_of_scope_iff.2 ⟨a, ha, rfl, note, numbered, rfl⟩
  exact ⟨inline, (c.inline?_eq_some_iff n).2 ⟨_, _, label⟩, label⟩

/-- A reference to a scope stands for the module itself or for the inline
module of a scope of the body. -/
theorem target_cases (ha : a ∈ accounts) (ref : Option ValueId) :
    (d.scopeIn (d.bodyIn a.entry) ref = none ∧
      targetIn d (d.bodyIn a.entry) q.hierarchy.inline? a.owner ref = a.owner) ∨
    ∃ op label, d.scopeIn (d.bodyIn a.entry) ref = some op ∧ q.hierarchy.labelAt
      (targetIn d (d.bodyIn a.entry) q.hierarchy.inline? a.owner ref).index =
        some (label, .scope op a.owner) := by
  unfold targetIn
  cases found : d.scopeIn (d.bodyIn a.entry) ref with
  | none => exact .inl ⟨rfl, rfl⟩
  | some op =>
    obtain ⟨_, note, scope⟩ := Design.scopeIn_eq_some_iff.1 found
    obtain ⟨inline, known, label⟩ := c.inline_of_scope n ha scope
    refine .inr ⟨op, note.moduleName, rfl, ?_⟩
    rw [Option.bind_some, known, Option.getD_some, label]

/-- A reference to a scope stands for a module of the family. -/
theorem home_target (ha : a ∈ accounts) (ref : Option ValueId) :
    q.hierarchy.home (targetIn d (d.bodyIn a.entry) q.hierarchy.inline? a.owner ref) = a.owner := by
  rcases c.target_cases n ha ref with ⟨_, own⟩ | ⟨op, label, _, found⟩
  · rw [own, c.home_owner ha]
  · rw [Hierarchy.home, found]

/-- The variables of a module are told by its body and the inline
modules of the finished hierarchy. -/
theorem vars_of_module (ha : a ∈ accounts) {name : ν} {ports : List (Port ν)} {block : BlockId}
    (payload : a.entry.2.payload = .module name ports block) :
    (a.findings d q.hierarchy.find?).vars = bodyVars d q.hierarchy.inline? a.owner ports block := by
  have body := d.bodyIn_of_module payload
  have same : annotated d (d.bodyOf block) (Survey.of a.base (d.bodyOf block)).scope? a.owner =
      annotated d (d.bodyOf block) q.hierarchy.inline? a.owner := by
    funext e
    unfold annotated
    simp only [← body, c.survey_target n ha]
  simp only [Account.findings, payload, bodyFindings, bodyVars, same]

/-- The instances of a module are told by its body, the inline modules and the catalog. -/
theorem insts_of_module (ha : a ∈ accounts) {name : ν} {ports : List (Port ν)} {block : BlockId}
    (payload : a.entry.2.payload = .module name ports block) :
    (a.findings d q.hierarchy.find?).insts =
      bodyInsts d q.hierarchy.inline? a.owner q.hierarchy.find? (d.bodyOf block) := by
  have body := d.bodyIn_of_module payload
  have same : (d.bodyOf block).filterMap
        (opened d (d.bodyOf block) (Survey.of a.base (d.bodyOf block)).scope? a.owner) =
      (d.bodyOf block).filterMap (opened d (d.bodyOf block) q.hierarchy.inline? a.owner) := by
    refine List.filterMap_congr fun e he => ?_
    unfold opened
    cases scope : e.2.payload.scope? with
    | none => rfl
    | some note =>
      have member : e.1 ∈ (scopesOf (d.bodyIn a.entry)).map (·.1) := by
        rw [body]
        exact List.mem_map.2 ⟨(e.1, note), List.mem_filterMap.2 ⟨e, he, by rw [scope]; rfl⟩, rfl⟩
      rw [Option.bind_some, Option.bind_some, ← c.survey_inline n ha member, body]
      simp only [← body, c.survey_target n ha]
  simp only [Account.findings, payload, bodyFindings, bodyInsts, same]

theorem home_of_var (ha : a ∈ accounts) {v : VariableNode ν}
    (hv : v ∈ (a.findings d q.hierarchy.find?).vars) : q.hierarchy.home v.owner = a.owner := by
  cases payload : a.entry.2.payload with
  | module name ports block =>
    have body := d.bodyIn_of_module payload
    rw [c.vars_of_module n ha payload, bodyVars] at hv
    split at hv
    · obtain ⟨e, _, told⟩ := List.mem_filterMap.1 hv
      obtain ⟨note, _, own⟩ := owner_of_annotated told
      rw [own, ← body]
      exact c.home_target n ha note.scope
    · rcases List.mem_append.1 hv with hv | hv
      · obtain ⟨port, _, rfl⟩ := List.mem_map.1 hv
        exact c.home_owner ha
      · obtain ⟨e, _, told⟩ := List.mem_filterMap.1 hv
        rw [owner_of_wired told]
        exact c.home_owner ha
  | externModule name ports =>
    simp only [Account.findings, payload] at hv
    obtain ⟨port, _, rfl⟩ := List.mem_map.1 hv
    exact c.home_owner ha
  | _ => simp [Account.findings, payload, Findings.none] at hv

theorem home_of_inst (ha : a ∈ accounts) {p : Placement ν}
    (hp : p ∈ (a.findings d q.hierarchy.find?).insts) : q.hierarchy.home p.owner = a.owner := by
  cases payload : a.entry.2.payload with
  | module name ports block =>
    have body := d.bodyIn_of_module payload
    rw [c.insts_of_module n ha payload, bodyInsts] at hp
    split at hp
    · obtain ⟨e, _, told⟩ := List.mem_filterMap.1 hp
      obtain ⟨note, _, _, _, rfl⟩ := opened_eq_some_iff.1 told
      rw [← body]
      exact c.home_target n ha note.scope
    · obtain ⟨e, _, told⟩ := List.mem_filterMap.1 hp
      obtain ⟨_, _, _, _, _, _, rfl⟩ := instantiated_eq_some_iff.1 told
      exact c.home_owner ha
  | _ => simp [Account.findings, payload, Findings.none] at hp

/-- A family owns the variables that its account tells, in their order. -/
theorem vars_of_family (ha : a ∈ accounts) :
    q.hierarchy.store.vars.toList.filter (q.hierarchy.home ·.owner = a.owner) =
      (a.findings d q.hierarchy.find?).vars := by
  rw [c.lists.vars, Findings.gather_vars]
  exact filter_flatMap_of_key (fun v => q.hierarchy.home v.owner) (c.owners_nodup n)
    (fun b hb v hv => c.home_of_var n hb hv) ha

/-- A module of a family lists its part of the instances that the account tells, in their order. -/
theorem insts_of_family (ha : a ∈ accounts) {id : ModuleId} (home : q.hierarchy.home id = a.owner)
    (there : id.index < q.hierarchy.moduleCount) :
    q.hierarchy.instsOf id =
      ((a.findings d q.hierarchy.find?).insts.filter (·.owner = id)).map (·.node) := by
  have family : (Findings.gather (Account.findings d q.hierarchy.find?) accounts).insts.filter
      (q.hierarchy.home ·.owner = a.owner) = (a.findings d q.hierarchy.find?).insts := by
    rw [Findings.gather_insts]
    exact filter_flatMap_of_key (fun p => q.hierarchy.home p.owner) (c.owners_nodup n)
      (fun b hb p hp => c.home_of_inst n hb hp) ha
  rw [c.lists.instsOf_eq there, ← family, List.filter_filter]
  refine congrArg _ (List.filter_congr fun p _ => ?_)
  by_cases own : p.owner = id
  · simp [own, home]
  · simp [own]

/-- The instances of a body come from its operations, in their order. -/
theorem inst_ops_sublist (ha : a ∈ accounts) :
    ((a.findings d q.hierarchy.find?).insts.map (·.node.op)).Sublist
      ((d.bodyIn a.entry).map (·.1)) := by
  cases payload : a.entry.2.payload with
  | module name ports block =>
    rw [c.insts_of_module n ha payload, bodyInsts, Design.bodyIn, payload]
    split
    · refine map_filterMap_sublist (fun {e p} told => ?_) _
      obtain ⟨_, _, _, _, rfl⟩ := opened_eq_some_iff.1 told
      rfl
    · refine map_filterMap_sublist (fun {e p} told => ?_) _
      obtain ⟨_, _, _, _, _, _, rfl⟩ := instantiated_eq_some_iff.1 told
      rfl
  | _ => simp [Account.findings, payload, Findings.none]

/-- **One instance each.** No operation has two instances. -/
theorem insts_distinct : (q.hierarchy.store.insts.toList.map (·.op)).Nodup := by
  have sections : (accounts.flatMap fun a => (d.bodyIn a.entry).map (·.1)).Nodup := by
    have parts : (d.definitions.flatMap fun e => (d.bodyIn e).map (·.1)).Sublist
        ((d.definitions.flatMap fun e => e :: d.bodyIn e).map (·.1)) := by
      rw [List.map_flatMap]
      exact List.Sublist.flatMap_right _ fun e _ => List.sublist_cons_self _ _
    have distinct := parts.nodup n.sections_nodup
    rwa [← c.entries, List.flatMap_map] at distinct
  rw [c.lists.insts, Findings.gather_insts, List.map_map, List.map_flatMap]
  exact (List.Sublist.flatMap_right _ fun a ha => c.inst_ops_sublist n ha).nodup sections

theorem inst_unique {i j : InstanceId} {x y : InstanceNode ν} (hi : q.hierarchy.inst i = .ok x)
    (hj : q.hierarchy.inst j = .ok y) (same : x.op = y.op) : i = j := by
  have distinct := c.insts_distinct n
  rw [c.lists.insts, List.map_map] at distinct
  obtain ⟨p, hp, rfl⟩ := c.lists.inst_eq_ok_iff.1 hi
  obtain ⟨p', hp', rfl⟩ := c.lists.inst_eq_ok_iff.1 hj
  refine Handle.ext ((List.getElem?_inj ?_ distinct).1 ?_)
  · rw [List.length_map]
    exact (List.getElem?_eq_some_iff.1 hp).1
  · rw [List.getElem?_map, List.getElem?_map, hp, hp']
    exact congrArg some same

end Collected

end DebugHierarchy
