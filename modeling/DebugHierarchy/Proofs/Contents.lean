import DebugHierarchy.Proofs.Families
import DebugHierarchy.Proofs.Outcome

/-!
What a module of an extracted hierarchy holds.

The variables and the instances of a module and of the inline modules in its body are told by the
operations of the body, one by one and in their order. Annotations come first: where there is one
for a variable, no port and no wire is a variable, and where there is one for a scope, no
instance operation is an instance.

* `variables_of_module`: the variables of a module and of the inline modules in its body;
* `instances_of_module`: their instances, and one inline module for each scope.
-/

namespace DebugHierarchy

variable {ν : Type}

/-- The variables of a module and of the inline modules in its body, in
the order of their creation. -/
def Hierarchy.familyVars (h : Hierarchy ν) (owner : ModuleId) : List (VariableNode ν) :=
  h.store.vars.toList.filter (h.home ·.owner = owner)

/-- Where a reference to a scope attaches what it comes from: to the inline module of the
scope of the body that it names, and else to `owner`. Only a lenient policy lets a
reference pass that names no scope. -/
def Attaches (d : Design ν) (policy : ScopePolicy) (h : Hierarchy ν) (body : List (Entry ν))
    (owner : ModuleId) (ref : Option ValueId) (target : ModuleId) : Prop :=
  (d.scopeIn body ref = none ∧ (ref = none ∨ policy = .enclosing) ∧ target = owner) ∨
    ∃ scope name, d.scopeIn body ref = some scope ∧
      h.labelAt target.index = some (name, .scope scope owner)

/-- The variables of a module are those that its body tells. -/
structure VariablesOf (d : Design ν) (options : Options) (h : Hierarchy ν) (owner : ModuleId)
    (ports : List (Port ν)) (block : BlockId) : Prop where
  /-- Every module lists just the variables that it owns, each once. -/
  own : ∀ id, (h.variableIds id).Nodup ∧
    ∀ v, v ∈ h.variableIds id ↔ ∃ node, h.dbgVariable v = .ok node ∧ node.owner = id
  /-- Every module of the family lists those it owns, in the order of their creation. -/
  lists : ∀ id : ModuleId, h.home id = owner → id.index < h.moduleCount →
    h.varsOf id = (h.familyVars owner).filter (·.owner = id)
  /-- Where there are annotations, they are the variables of the family. -/
  told : hasVariable (d.bodyOf block) = true →
    h.familyVars owner = (d.bodyOf block).filterMap (annotated d (d.bodyOf block) h.inline? owner)
  /-- An annotation is listed where its scope says. -/
  attached : ∀ e ∈ d.bodyOf block, ∀ note, e.2.payload = .dbgVariable note →
    Attaches d options.scopes h (d.bodyOf block) owner note.scope
      (targetIn d (d.bodyOf block) h.inline? owner note.scope)
  /-- An annotation that refers to an enum definition refers to one of the body. -/
  linked : ∀ e ∈ d.bodyOf block, ∀ note value, e.2.payload = .dbgVariable note →
    note.enumDef = some value → ∃ f ∈ d.bodyOf block, ∃ enum, d.definingOp value = .ok (some f.1) ∧
      f.2.payload = .enumDef enum ∧ d.enumIn (d.bodyOf block) (some value) = some enum.id
  /-- Without annotations, the ports of the module and the wires of the body are the variables,
  and the module lists them all. -/
  fallback : hasVariable (d.bodyOf block) = false →
    h.varsOf owner = (ports.map fun port => .ofPort port (d.portValue? block port) owner) ++
      (d.bodyOf block).filterMap (wired owner) ∧ h.familyVars owner = h.varsOf owner
  /-- A port that is a variable has a value. -/
  bound : hasVariable (d.bodyOf block) = false → ∀ port ∈ ports, (d.portValue? block port).isSome

/-- The instances of a module are those that its body tells. -/
structure InstancesOf [DecidableEq ν] (d : Design ν) (options : Options) (h : Hierarchy ν)
    (owner : ModuleId) (body : List (Entry ν)) : Prop where
  /-- Every instance is listed by one module, once. -/
  own : (∀ id, (h.instanceIds id).Nodup) ∧
    ∀ i node, h.inst i = .ok node → ∃! id, i ∈ h.instanceIds id
  /-- What a module lists is there. -/
  there : ∀ id, ∀ i ∈ h.instanceIds id, ∃ node, h.inst i = .ok node
  /-- A scope has one inline module and one instance, which leads to the inline module. -/
  scopes : ∀ e ∈ body, ∀ note, e.2.payload = .dbgScope note → ∃ inline : ModuleId,
    h.labelAt inline.index = some (note.moduleName, .scope e.1 owner) ∧
      (∀ (other : ModuleId) name parent, h.labelAt other.index = some (name, .scope e.1 parent) →
        other = inline) ∧
      (∃! i, ∃ node, h.inst i = .ok node ∧ node.op = e.1) ∧
      ∀ i node, h.inst i = .ok node → node.op = e.1 → node = ⟨note.name, inline, e.1⟩
  /-- Where there are scopes, they are the instances of the family, in the order of the body. -/
  told : hasScope body = true → ∀ id : ModuleId, h.home id = owner → id.index < h.moduleCount →
    h.instsOf id =
      ((body.filterMap (opened d body h.inline? owner)).filter (·.owner = id)).map (·.node)
  /-- A scope is listed where the scope around it says. -/
  attached : ∀ e ∈ body, ∀ note, e.2.payload = .dbgScope note →
    Attaches d options.scopes h body owner note.scope (targetIn d body h.inline? owner note.scope)
  /-- Where there are scopes, instance operations are no instances. -/
  silent : hasScope body = true → ∀ e ∈ body, ∀ name moduleName inputs,
    e.2.payload = .inst name moduleName inputs → ∀ i node, h.inst i = .ok node → node.op ≠ e.1
  /-- Without scopes, the instance operations are the instances, in the order of the body. -/
  fallback : hasScope body = false →
    h.instsOf owner = body.filterMap fun e => (instantiated owner h.find? e).map (·.node)
  /-- A name that is instantiated has a module. -/
  known : hasScope body = false → ∀ e ∈ body, ∀ name moduleName inputs,
    e.2.payload = .inst name moduleName inputs → ∃ target, h.find? moduleName = some target

section Definitions

variable {d : Design ν} {h : Hierarchy ν}

theorem labelAt_of_definition {owner : ModuleId} {m : ModuleNode ν} {kind : ModuleKind} {op : OpId}
    (node : h.module owner = .ok m) (defined : m.definition? = some (kind, op)) :
    h.labelAt owner.index = some (m.name, .defined kind op) := by
  unfold Hierarchy.module Handle.expect at node
  unfold Hierarchy.labelAt
  split at node
  · next found =>
    cases node
    rw [found]
    rw [ModuleNode.definition?] at defined
    cases origin : m.origin with
    | defined k o =>
      rw [origin] at defined
      cases defined
      rw [Option.map_some, origin]
    | _ => simp [origin] at defined
  · cases node

/-- The number that a reference to an enum definition gives is that of one in the body. -/
theorem enum_of_enumIn {body : List (Entry ν)} (distinct : (body.map (·.1)).Nodup) {value : ValueId}
    {id : EnumId} (found : d.enumIn body (some value) = some id) : ∃ f ∈ body, ∃ enum,
      d.definingOp value = .ok (some f.1) ∧ f.2.payload = .enumDef enum ∧ id = enum.id := by
  unfold Design.enumIn at found
  obtain ⟨op, produced, found⟩ := Option.bind_eq_some_iff.1 found
  rw [lookup_eq_some_iff (enumsOf_ids_nodup distinct)] at found
  obtain ⟨f, hf, told⟩ := List.mem_filterMap.1 found
  obtain ⟨enum, isEnum, same⟩ := Option.map_eq_some_iff.1 told
  cases same
  refine ⟨f, hf, enum, ?_, ?_, rfl⟩
  · obtain ⟨_, same, known⟩ := Design.producer?_eq_some_iff.1 produced
    cases same
    exact known
  · cases payload : f.2.payload <;> simp [payload, Payload.enum?] at isEnum
    rw [isEnum]

theorem module_of_bind {α : Type} (h : Hierarchy ν) (id : ModuleId) (read : ModuleNode ν → Option α)
    {x : α} (found : (h.module id).toOption.bind read = some x) : ∃ m, h.module id = .ok m ∧
      read m = some x := by
  cases node : h.module id with
  | ok m =>
    rw [node] at found
    exact ⟨m, rfl, found⟩
  | error what =>
    rw [node] at found
    cases found

end Definitions

namespace Collected

variable [DecidableEq ν] {d : Design ν} {F : Forest ν} {accounts : List (Account ν)}
  {q : Progress ν} {a : Account ν} {policy : ScopePolicy}

/-- A reference without a problem attaches to the module it stands for. -/
theorem attaches (c : Collected d accounts d.definitions q) (n : Nesting d F) (ha : a ∈ accounts)
    {user : OpId} {ref : Option ValueId}
    (fine : scopeProblem d policy (d.bodyIn a.entry) user ref = none) :
    Attaches d policy q.hierarchy (d.bodyIn a.entry) a.owner ref
      (targetIn d (d.bodyIn a.entry) q.hierarchy.inline? a.owner ref) := by
  rcases c.target_cases n ha ref with ⟨none, own⟩ | ⟨op, label, found⟩
  · refine .inl ⟨none, ?_, own⟩
    cases ref with
    | none => exact .inl rfl
    | some scope =>
      refine .inr ?_
      simp only [scopeProblem] at fine
      cases policy with
      | enclosing => rfl
      | error =>
        split at fine
        · cases fine
        · simp [none] at fine
  · exact .inr ⟨op, label, found⟩

/-- A reference to an enum definition without a problem names one of the body. -/
theorem links (c : Collected d accounts d.definitions q) (n : Nesting d F) (ha : a ∈ accounts)
    {user : OpId} {value : ValueId}
    (fine : enumProblem d (d.bodyIn a.entry) user (some value) = none) :
    ∃ f ∈ d.bodyIn a.entry, ∃ enum, d.definingOp value = .ok (some f.1) ∧
      f.2.payload = .enumDef enum ∧ d.enumIn (d.bodyIn a.entry) (some value) = some enum.id := by
  cases found : d.enumIn (d.bodyIn a.entry) (some value) with
  | none =>
    simp only [enumProblem] at fine
    split at fine
    · cases fine
    · simp [found] at fine
  | some id =>
    obtain ⟨f, hf, enum, produced, payload, rfl⟩ := enum_of_enumIn (c.body_nodup n ha) found
    exact ⟨f, hf, enum, produced, payload, rfl⟩

/-- A module of a family lists its part of the variables of the family. -/
theorem varsOf_eq (c : Collected d accounts d.definitions q) {id : ModuleId}
    (home : q.hierarchy.home id = a.owner) (there : id.index < q.hierarchy.moduleCount) :
    q.hierarchy.varsOf id = (q.hierarchy.familyVars a.owner).filter (·.owner = id) := by
  rw [c.lists.varsOf_eq there, ← c.lists.vars, Hierarchy.familyVars, List.filter_filter]
  refine List.filter_congr fun v _ => ?_
  by_cases own : v.owner = id
  · simp [own, home]
  · simp [own]

/-- The instance of a scope in the body of a module. -/
theorem inst_of_scope (c : Collected d accounts d.definitions q) (n : Nesting d F)
    (ha : a ∈ accounts) {name : ν} {ports : List (Port ν)} {block : BlockId}
    (payload : a.entry.2.payload = .module name ports block) {e : Entry ν} (he : e ∈ d.bodyOf block)
    {note : ScopeNote ν ValueId} (isScope : e.2.payload = .dbgScope note) : ∃ inline,
      q.hierarchy.inline? e.1 = some inline ∧
        q.hierarchy.labelAt inline.index = some (note.moduleName, .scope e.1 a.owner) ∧
        ⟨targetIn d (d.bodyOf block) q.hierarchy.inline? a.owner note.scope,
          ⟨note.name, inline, e.1⟩⟩ ∈ (a.findings d q.hierarchy.find?).insts := by
  have body := d.bodyIn_of_module payload
  have member : (e.1, note) ∈ scopesOf (d.bodyIn a.entry) :=
    body ▸ mem_scopesOf.2 ⟨e, he, rfl, isScope⟩
  obtain ⟨inline, known, label⟩ := c.inline_of_scope n ha member
  have present : hasScope (d.bodyOf block) = true :=
    List.any_eq_true.2 ⟨e, he, by rw [isScope]; rfl⟩
  refine ⟨inline, known, label, ?_⟩
  rw [c.insts_of_module n ha payload, bodyInsts, if_pos present]
  exact List.mem_filterMap.2 ⟨e, he, opened_eq_some_iff.2 ⟨note, inline, isScope, known, rfl⟩⟩

/-- An operation that has an instance, in a body with scopes, is a scope. -/
theorem scope_of_inst (c : Collected d accounts d.definitions q) (n : Nesting d F)
    (ha : a ∈ accounts) {name : ν} {ports : List (Port ν)} {block : BlockId}
    (payload : a.entry.2.payload = .module name ports block)
    (present : hasScope (d.bodyOf block) = true) {e : Entry ν} (he : e ∈ d.bodyOf block)
    {i : InstanceId} {node : InstanceNode ν} (hi : q.hierarchy.inst i = .ok node)
    (same : node.op = e.1) : ∃ note, e.2.payload = .dbgScope note := by
  have body := d.bodyIn_of_module payload
  obtain ⟨b, hb, p, hp, rfl⟩ := c.inst_iff.1 ⟨i, hi⟩
  have inB := (c.inst_ops_sublist n hb).subset (List.mem_map_of_mem hp)
  obtain rfl := c.account_of_body n ha hb
    (show p.node.op ∈ _ by rw [same, body]; exact List.mem_map_of_mem he) inB
  rw [c.insts_of_module n ha payload, bodyInsts, if_pos present] at hp
  obtain ⟨f, hf, told⟩ := List.mem_filterMap.1 hp
  obtain ⟨note, _, isScope, _, rfl⟩ := opened_eq_some_iff.1 told
  obtain rfl : f = e := List.inj_on_of_nodup_map (body ▸ c.body_nodup n ha) hf he same
  exact ⟨note, isScope⟩

end Collected

variable {d : Design Name} {options : Options} {h : Hierarchy Name}

/-- **Variables.** The variables of a module and of the inline modules in its body are the
annotations of the body, one for each, or else the ports of the module and the wires of the body. -/
theorem variables_of_module (scripted : d.Scripted)
    (extracted : (d.extract options).outcome = .ok h) {owner : ModuleId} {m : ModuleNode Name}
    (node : h.module owner = .ok m) {op : OpId} (defined : m.definition? = some (.module, op)) :
    ∃ definition name ports block,
      d.op op = .ok definition ∧ definition.payload = .module name ports block ∧
        VariablesOf d options h owner ports block := by
  obtain ⟨F, accounts, q, rfl, n, c, none⟩ := scripted.collected extracted
  obtain ⟨a, ha, rfl, rfl, found, entry, name, ports, block, payload⟩ :=
    c.account_of_module n (labelAt_of_definition node defined)
  obtain ⟨bound, notes⟩ := bodyProblem_none none entry payload
  have body := d.bodyIn_of_module payload
  have note_fine {e : Entry Name} (he : e ∈ d.bodyOf block) {note : VariableNote Name ValueId}
      (isNote : e.2.payload = .dbgVariable note) :
      scopeProblem d options.scopes (d.bodyOf block) e.1 note.scope = .none ∧
        enumProblem d (d.bodyOf block) e.1 note.enumDef = .none := by
    have fine := notes e he
    rwa [noteProblem, isNote, Option.or_eq_none_iff] at fine
  have told : q.hierarchy.familyVars a.owner = _ := c.vars_of_family n ha
  rw [c.vars_of_module n ha payload, bodyVars] at told
  refine ⟨a.entry.2, name, ports, block, found, payload, ?_⟩
  refine ⟨fun id => ⟨c.lists.variableIds_nodup id, ?_⟩, fun id home there => c.varsOf_eq home there,
    ?_, ?_, ?_, ?_, bound⟩
  · intro v
    simp only [c.lists.mem_variableIds, c.lists.dbgVariable_eq_ok_iff]
  · intro present
    rw [told, if_pos present]
  · intro e he note isNote
    have fine := (note_fine he isNote).1
    rw [← body] at fine ⊢
    exact c.attaches n ha fine
  · intro e he note value isNote link
    have fine := (note_fine he isNote).2
    rw [link, ← body] at fine
    rw [← body]
    exact c.links n ha fine
  · intro absent
    rw [if_neg (by simp [absent])] at told
    have there : a.owner.index < q.hierarchy.moduleCount :=
      Hierarchy.labelAt_lt (labelAt_of_definition node defined)
    have own : q.hierarchy.varsOf a.owner = q.hierarchy.familyVars a.owner := by
      rw [c.varsOf_eq (c.home_owner ha) there, told]
      refine List.filter_eq_self.2 fun v hv => decide_eq_true ?_
      rcases List.mem_append.1 hv with hv | hv
      · obtain ⟨port, _, rfl⟩ := List.mem_map.1 hv
        rfl
      · obtain ⟨e, _, wire⟩ := List.mem_filterMap.1 hv
        exact owner_of_wired wire
    exact ⟨own.trans told, own.symm⟩

/-- A scope in a scope, with a variable in the inner one and an instance beside them. -/
def nestedScopes : Script :=
  .module "Top" [⟨.input, "a", none⟩]
    (.leaf (some "outer") (.dbgScope ⟨"o", "Outer", none⟩) <|
     .region "always"
       (.leaf (some "inner") (.dbgScope ⟨"i", "Inner", some (.label "outer")⟩) <|
        .leaf none (.dbgVariable ⟨"v", .input 0, some (.label "inner"), none, none, none⟩) .done) <|
     .leaf none (.inst "u" "Child" []) .done)
    .done

theorem variables_of_nestedScopes : ∃ definition name ports block,
    nestedScopes.design.op ⟨0⟩ = .ok definition ∧ definition.payload = .module name ports block ∧
      VariablesOf nestedScopes.design {} (nestedScopes.design.hierarchy {}) ⟨0⟩ ports block := by
  have extracted : (nestedScopes.design.extract {}).outcome =
      .ok (nestedScopes.design.hierarchy {}) := by
    decide +kernel
  obtain ⟨m, node, defined⟩ :=
    module_of_bind (x := (.module, ⟨0⟩)) (nestedScopes.design.hierarchy {}) ⟨0⟩
    (·.definition?) (by decide +kernel)
  exact variables_of_module nestedScopes.design_scripted extracted node defined

/-- **Instances.** The instances of a module and of the inline modules in its body are the
scopes of the body, one for each, or else the instance operations of the body, which lead to
the modules of their names. -/
theorem instances_of_module (scripted : d.Scripted)
    (extracted : (d.extract options).outcome = .ok h) {owner : ModuleId} {m : ModuleNode Name}
    (node : h.module owner = .ok m) {op : OpId} (defined : m.definition? = some (.module, op)) :
    ∃ definition name ports block,
      d.op op = .ok definition ∧ definition.payload = .module name ports block ∧
        InstancesOf d options h owner (d.bodyOf block) := by
  obtain ⟨F, accounts, q, rfl, n, c, none⟩ := scripted.collected extracted
  obtain ⟨a, ha, rfl, rfl, found, entry, name, ports, block, payload⟩ :=
    c.account_of_module n (labelAt_of_definition node defined)
  have there : a.owner.index < q.hierarchy.moduleCount :=
    Hierarchy.labelAt_lt (labelAt_of_definition node defined)
  obtain ⟨_, notes⟩ := bodyProblem_none none entry payload
  have body := d.bodyIn_of_module payload
  have insts := c.insts_of_module n ha payload
  refine ⟨a.entry.2, name, ports, block, found, payload, ?_⟩
  refine ⟨⟨c.lists.instanceIds_nodup, fun i node => c.lists.lister_of_inst⟩,
    fun id i => c.lists.inst_of_listed, ?_, ?_, ?_, ?_, ?_, ?_⟩
  · intro e he note isScope
    obtain ⟨inline, known, label, placed⟩ := c.inst_of_scope n ha payload he isScope
    obtain ⟨i, hi⟩ := c.inst_iff.2 ⟨a, ha, _, placed, rfl⟩
    refine ⟨inline, label, ?_, ⟨i, ⟨_, hi, rfl⟩, ?_⟩, ?_⟩
    · intro other name parent otherLabel
      exact c.inline_unique n otherLabel label
    · rintro j ⟨x, hj, same⟩
      exact c.inst_unique n hj hi same
    · intro j x hj same
      obtain rfl := c.inst_unique n hj hi same
      rw [hi] at hj
      exact (Except.ok.inj hj).symm
  · intro present id home there
    rw [c.insts_of_family n ha home there, insts, bodyInsts, if_pos present]
  · intro e he note isScope
    have fine := notes e he
    rw [noteProblem, isScope, ← body] at fine
    rw [← body]
    exact c.attaches n ha fine
  · intro present e he name moduleName inputs isInst i node hi same
    obtain ⟨note, isScope⟩ := c.scope_of_inst n ha payload present he hi same
    rw [isInst] at isScope
    cases isScope
  · intro absent
    rw [c.insts_of_family n ha (c.home_owner ha) there, insts, bodyInsts, if_neg (by simp [absent])]
    rw [List.filter_eq_self.2, List.map_filterMap]
    intro p hp
    obtain ⟨e, _, told⟩ := List.mem_filterMap.1 hp
    obtain ⟨_, _, _, _, _, _, rfl⟩ := instantiated_eq_some_iff.1 told
    exact decide_eq_true rfl
  · intro absent e he name moduleName inputs isInst
    exact c.met a ha payload absent e he isInst

theorem instances_of_nestedScopes : ∃ definition name ports block,
    nestedScopes.design.op ⟨0⟩ = .ok definition ∧ definition.payload = .module name ports block ∧
      InstancesOf nestedScopes.design {} (nestedScopes.design.hierarchy {}) ⟨0⟩
        (nestedScopes.design.bodyOf block) := by
  have extracted : (nestedScopes.design.extract {}).outcome =
      .ok (nestedScopes.design.hierarchy {}) := by
    decide +kernel
  obtain ⟨m, node, defined⟩ :=
    module_of_bind (x := (.module, ⟨0⟩)) (nestedScopes.design.hierarchy {}) ⟨0⟩
    (·.definition?) (by decide +kernel)
  exact instances_of_module nestedScopes.design_scripted extracted node defined

end DebugHierarchy
