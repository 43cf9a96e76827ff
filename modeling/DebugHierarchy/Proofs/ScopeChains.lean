import DebugHierarchy.Proofs.Contents
import Mathlib.Logic.ExistsUnique

/-!
Which inline modules can be reached.

A scope may refer to any value, so the scopes of a body need not form a tree: a scope may
lie in itself, or two scopes in each other. Each inline module still has one instance that
leads to it. Whether the module around can reach it along such instances depends on the
chain of scopes around its scope.

* `Ends`: the chain of scopes around a scope comes to an end;
* `Hierarchy.Route`: a way along instances;
* `inline_modules_reached`: an inline module is reached just where the chain of its scope
  ends, and in one way only.
-/

namespace DebugHierarchy

variable {ν : Type}

/-- The chain of scopes of a body that starts at a scope, each in the next, comes to an end. -/
inductive Ends (d : Design ν) (body : List (Entry ν)) : OpId → Prop
  | outermost {op : OpId} {note : ScopeNote ν ValueId} :
    (op, note) ∈ scopesOf body → d.scopeIn body note.scope = none → Ends d body op
  | within {op around : OpId} {note : ScopeNote ν ValueId} :
    (op, note) ∈ scopesOf body → d.scopeIn body note.scope = some around → Ends d body around →
      Ends d body op

/-- The scopes of a body refer only to values that come before their own result. -/
def RefersBack (body : List (Entry ν)) : Prop :=
  ∀ e ∈ body, ∀ note, e.2.payload = .dbgScope note → ∀ v ∈ note.scope, ∀ r ∈ e.2.results, v < r

/-- Ways from a module along instances, each listed by the module that the one before leads to. -/
inductive Hierarchy.Route (h : Hierarchy ν) (start : ModuleId) : List InstanceId → ModuleId → Prop
  | here : h.Route start [] start
  | onward {way : List InstanceId} {id : ModuleId} {i : InstanceId} {node : InstanceNode ν} :
    h.Route start way id → i ∈ h.instanceIds id → h.inst i = .ok node →
      h.Route start (way ++ [i]) node.target

/-- How an inline module is reached from the module around it. -/
structure InlineOf (d : Design ν) (h : Hierarchy ν) (parent : ModuleId) (body : List (Entry ν))
    (scope : OpId) (inline : ModuleId) : Prop where
  /-- One instance leads to the inline module. -/
  led : ∃! i, ∃ node, h.inst i = .ok node ∧ node.target = inline
  /-- That instance is listed once, by the module around or by an inline module in it. -/
  listed : ∀ i node, h.inst i = .ok node → node.target = inline → ∃ id, i ∈ h.instanceIds id ∧
    (id = parent ∨ ∃ name s, h.labelAt id.index = some (name, .scope s parent)) ∧
    ∀ other, i ∈ h.instanceIds other → other = id
  /-- The module around reaches it just where the chain of its scope ends. -/
  reached_iff : (∃ way, h.Route parent way inline) ↔ Ends d body scope
  /-- There is one way at most. -/
  unique : ∀ way way', h.Route parent way inline → h.Route parent way' inline → way = way'
  /-- Where scopes refer back only, there is one way. -/
  tree : RefersBack body → ∃! way, h.Route parent way inline
  /-- Where the chain does not end, what the inline module owns is listed
  by no module that is reached. -/
  hidden : ¬ Ends d body scope → ∀ way id, h.Route parent way id → ∀ v ∈ h.variableIds id,
    ∀ node, h.dbgVariable v = .ok node → node.owner ≠ inline

theorem result_of_definingOp {d : Design ν} (linked : d.Linked) {f : Entry ν} {v : ValueId}
    (found : d.ops[f.1.index]? = some f.2) (known : d.definingOp v = .ok (some f.1)) :
    v ∈ f.2.results := by
  unfold Design.definingOp Design.value Handle.expect at known
  cases value : d.values[v.index]? with
  | none =>
    rw [value] at known
    cases known
  | some source =>
    rw [value] at known
    cases source with
    | blockArg block i => cases known
    | opResult op i =>
      cases known
      obtain ⟨o, there, result⟩ := linked.results value
      rw [found] at there
      cases there
      exact List.mem_of_getElem? result

/-- Where scopes refer back only, every chain ends. -/
theorem ends_of_refersBack {d : Design ν} (linked : d.Linked) {body : List (Entry ν)}
    (found : ∀ e ∈ body, d.ops[e.1.index]? = some e.2) (back : RefersBack body) {e : Entry ν}
    (he : e ∈ body) {note : ScopeNote ν ValueId} (isScope : e.2.payload = .dbgScope note) :
    Ends d body e.1 := by
  -- Along a chain the results of the scopes become smaller.
  have below : ∀ k, ∀ e ∈ body, ∀ note, e.2.payload = .dbgScope note →
      ∀ r ∈ e.2.results, r.index < k →
      Ends d body e.1 := by
    intro k
    induction k with
    | zero => exact fun _ _ _ _ _ _ small => absurd small (Nat.not_lt_zero _)
    | succ k ih =>
      intro e he note isScope r hr small
      have member := mem_scopesOf.2 ⟨e, he, rfl, isScope⟩
      cases around : d.scopeIn body note.scope with
      | none => exact .outermost member around
      | some op =>
        obtain ⟨produced, outer, scope⟩ := Design.scopeIn_eq_some_iff.1 around
        obtain ⟨f, hf, rfl, isOuter⟩ := mem_scopesOf.1 scope
        obtain ⟨v, ref, known⟩ := Design.producer?_eq_some_iff.1 produced
        have result : v ∈ f.2.results := result_of_definingOp linked (found f hf) known
        have less : v.index < r.index := back e he note isScope v ref r hr
        exact .within member around (ih f hf outer isOuter v result (by omega))
  obtain ⟨r, hr⟩ := List.length_eq_one_iff.1 (linked.scopes (found e he) isScope)
  exact below (r.index + 1) e he note isScope r (by rw [hr]; exact List.mem_singleton_self r)
    (Nat.lt_succ_self _)

namespace Collected

variable [DecidableEq ν] {d : Design ν} {F : Forest ν} {accounts : List (Account ν)}
  {q : Progress ν} {a : Account ν}

/-- A listed instance is told by the account of the family. -/
theorem told_of_listed (c : Collected d accounts d.definitions q) (n : Nesting d F) {i : InstanceId}
    {id : ModuleId} {node : InstanceNode ν} (hi : i ∈ q.hierarchy.instanceIds id)
    (hnode : q.hierarchy.inst i = .ok node) : ∃ a ∈ accounts, a.owner = q.hierarchy.home id ∧
      ⟨id, node⟩ ∈ (a.findings d q.hierarchy.find?).insts := by
  obtain ⟨p, hp, rfl⟩ := c.lists.mem_instanceIds.1 hi
  obtain ⟨p', hp', rfl⟩ := c.lists.inst_eq_ok_iff.1 hnode
  obtain rfl := Option.some.inj (hp.symm.trans hp')
  obtain ⟨a, ha, told⟩ := Findings.mem_gather_insts.1 (List.mem_of_getElem? hp)
  exact ⟨a, ha, (c.home_of_inst n ha told).symm, told⟩

/-- What an account tells is listed. -/
theorem listed_of_told (c : Collected d accounts d.definitions q) (ha : a ∈ accounts)
    {p : Placement ν} (told : p ∈ (a.findings d q.hierarchy.find?).insts) :
    ∃ i ∈ q.hierarchy.instanceIds p.owner, q.hierarchy.inst i = .ok p.node := by
  obtain ⟨i, hi⟩ := List.mem_iff_getElem?.1 (Findings.mem_gather_insts.2 ⟨a, ha, told⟩)
  exact ⟨⟨i⟩, c.lists.mem_instanceIds.2 ⟨p, hi, rfl⟩, c.lists.inst_eq_ok_iff.2 ⟨p, hi, rfl⟩⟩

/-- An instance that leads to an inline module comes from its scope. -/
theorem op_of_target (c : Collected d accounts d.definitions q) (n : Nesting d F) {i : InstanceId}
    {node : InstanceNode ν} (hi : q.hierarchy.inst i = .ok node) {name : ν} {scope : OpId}
    {parent : ModuleId} (label :
      q.hierarchy.labelAt node.target.index = some (name, .scope scope parent)) :
    node.op = scope := by
  obtain ⟨b, hb, p, hp, rfl⟩ := c.inst_iff.1 ⟨i, hi⟩
  cases payload : b.entry.2.payload with
  | module _ ports block =>
    rw [c.insts_of_module n hb payload, bodyInsts] at hp
    split at hp
    · obtain ⟨e, _, told⟩ := List.mem_filterMap.1 hp
      obtain ⟨_, _, _, known, rfl⟩ := opened_eq_some_iff.1 told
      obtain ⟨_, _, label'⟩ := (c.inline?_eq_some_iff n).1 known
      rw [label'] at label
      simp only [Option.some.injEq, Prod.mk.injEq, Origin.scope.injEq] at label
      exact label.2.1
    · obtain ⟨e, _, told⟩ := List.mem_filterMap.1 hp
      obtain ⟨_, _, _, _, _, known, rfl⟩ := instantiated_eq_some_iff.1 told
      -- A name never stands for an inline module.
      obtain ⟨_, label', inline⟩ := c.labels.catalog.1 known
      rw [label'] at label
      cases label
      exact absurd rfl (inline _ _)
  | _ => simp [Account.findings, payload, Findings.none] at hp

/-- An inline module stands for a scope in the body of the module around it. -/
theorem scope_of_inline (c : Collected d accounts d.definitions q)
    {inline parent : ModuleId} {name : ν} {scope : OpId}
    (label : q.hierarchy.labelAt inline.index = some (name, .scope scope parent)) :
    ∃ a ∈ accounts, a.owner = parent ∧
      ∃ name ports block, a.entry.2.payload = .module name ports block ∧
      ∃ note, (scope, note) ∈ scopesOf (d.bodyOf block) := by
  obtain ⟨a, ha, rfl, note, numbered, _⟩ := c.label_of_scope_iff.1 label
  have member : (scope, note) ∈ scopesOf (d.bodyIn a.entry) :=
    numberedScopes_map_fst a.base (d.bodyIn a.entry) ▸ List.mem_map_of_mem numbered
  cases payload : a.entry.2.payload with
  | module name ports block =>
    rw [Design.bodyIn, payload] at member
    exact ⟨a, ha, rfl, name, ports, block, payload, note, member⟩
  | _ =>
    rw [Design.bodyIn, payload] at member
    cases member

/-! ### The family of a module as a graph -/

section Family

variable (c : Collected d accounts d.definitions q) (n : Nesting d F) (ha : a ∈ accounts) {name : ν}
  {ports : List (Port ν)} {block : BlockId} (payload : a.entry.2.payload = .module name ports block)

include c n ha payload

/-- The instance of a scope is listed by the module that the scope around it stands for. -/
theorem edge_of_scope {scope : OpId} {note : ScopeNote ν ValueId}
    (member : (scope, note) ∈ scopesOf (d.bodyOf block)) : ∃ inline i,
      q.hierarchy.labelAt inline.index = some (note.moduleName, .scope scope a.owner) ∧
        i ∈ q.hierarchy.instanceIds
          (targetIn d (d.bodyOf block) q.hierarchy.inline? a.owner note.scope) ∧
        q.hierarchy.inst i = .ok ⟨note.name, inline, scope⟩ := by
  obtain ⟨e, he, rfl, isScope⟩ := mem_scopesOf.1 member
  obtain ⟨inline, _, label, placed⟩ := c.inst_of_scope n ha payload he isScope
  obtain ⟨i, hi, hnode⟩ := c.listed_of_told ha placed
  exact ⟨inline, i, label, hi, hnode⟩

/-- An instance that leads to the inline module of a scope is the one of the scope. -/
theorem edge_unique {scope : OpId} {note : ScopeNote ν ValueId}
    (member : (scope, note) ∈ scopesOf (d.bodyOf block)) {i : InstanceId} {id : ModuleId}
    {node : InstanceNode ν} (hi : i ∈ q.hierarchy.instanceIds id)
    (hnode : q.hierarchy.inst i = .ok node) {label : ν}
    (target : q.hierarchy.labelAt node.target.index = some (label, .scope scope a.owner)) :
    id = targetIn d (d.bodyOf block) q.hierarchy.inline? a.owner note.scope := by
  obtain ⟨_, j, _, hj, hnode'⟩ := c.edge_of_scope n ha payload member
  obtain rfl := c.inst_unique n hnode hnode' (c.op_of_target n hnode target)
  exact c.lists.lister_unique hi hj

/-- From the family of a module, instances lead to its inline modules only. -/
theorem target_inline (present : hasScope (d.bodyOf block) = true) {i : InstanceId} {id : ModuleId}
    {node : InstanceNode ν} (home : q.hierarchy.home id = a.owner)
    (hi : i ∈ q.hierarchy.instanceIds id) (hnode : q.hierarchy.inst i = .ok node) : ∃ label scope,
      q.hierarchy.labelAt node.target.index = some (label, .scope scope a.owner) := by
  obtain ⟨b, hb, own, told⟩ := c.told_of_listed n hi hnode
  obtain rfl := c.account_of_owner n hb ha (own.trans home)
  rw [c.insts_of_module n ha payload, bodyInsts, if_pos present] at told
  obtain ⟨e, he, told⟩ := List.mem_filterMap.1 told
  obtain ⟨note, target, isScope, known, same⟩ := opened_eq_some_iff.1 told
  cases same
  have member : (e.1, note) ∈ scopesOf (d.bodyIn b.entry) := by
    rw [d.bodyIn_of_module payload]
    exact mem_scopesOf.2 ⟨e, he, rfl, isScope⟩
  obtain ⟨inline, known', label⟩ := c.inline_of_scope n hb member
  rw [known'] at known
  cases known
  exact ⟨_, _, label⟩

/-- A way from a module stays among the inline modules in its body. -/
theorem route_inside (present : hasScope (d.bodyOf block) = true) {way : List InstanceId}
    {id : ModuleId} (route : q.hierarchy.Route a.owner way id) : id = a.owner ∨ ∃ label scope,
      q.hierarchy.labelAt id.index = some (label, .scope scope a.owner) := by
  induction route with
  | here => exact .inl rfl
  | @onward way id i node _ hi hnode ih =>
    have home : q.hierarchy.home id = a.owner := by
      rcases ih with rfl | ⟨label, scope, found⟩
      · exact c.home_owner ha
      · rw [Hierarchy.home, found]
    exact .inr (c.target_inline n ha payload present home hi hnode)

/-- An inline module that is reached has a chain that ends. -/
theorem ends_of_route {way : List InstanceId} {id : ModuleId}
    (route : q.hierarchy.Route a.owner way id) {label : ν} {scope : OpId}
    (found : q.hierarchy.labelAt id.index = some (label, .scope scope a.owner)) :
    Ends d (d.bodyOf block) scope := by
  induction route generalizing label scope with
  | here =>
    obtain ⟨_, _, own⟩ := c.label_of_owner ha
    rw [own] at found
    cases found
  | @onward way id i node _ hi hnode ih =>
    obtain ⟨b, hb, own, _, _, _, payload', note, member⟩ := c.scope_of_inline found
    obtain rfl := c.account_of_owner n hb ha own
    rw [payload] at payload'
    cases payload'
    have lister := c.edge_unique n ha payload member hi hnode found
    have body := d.bodyIn_of_module payload
    rcases c.target_cases n ha note.scope with ⟨none, _⟩ | ⟨outer, outerName, around, outerLabel⟩
    · rw [body] at none
      exact .outermost member none
    · rw [body, ← lister] at outerLabel
      rw [body] at around
      exact .within member around (ih outerLabel)

/-- Where the chain of a scope ends, its inline module is reached. -/
theorem route_of_ends {scope : OpId} (ends : Ends d (d.bodyOf block) scope) {inline : ModuleId}
    {label : ν} (found : q.hierarchy.labelAt inline.index = some (label, .scope scope a.owner)) :
    ∃ way, q.hierarchy.Route a.owner way inline := by
  induction ends generalizing inline label with
  | @outermost op note member none =>
    obtain ⟨inline', i, label', hi, hnode⟩ := c.edge_of_scope n ha payload member
    obtain rfl := c.inline_unique n found label'
    rw [targetIn, none, Option.bind_none, Option.getD_none] at hi
    exact ⟨_, .onward .here hi hnode⟩
  | @within op outer note member around outerEnds ih =>
    obtain ⟨inline', i, label', hi, hnode⟩ := c.edge_of_scope n ha payload member
    obtain rfl := c.inline_unique n found label'
    have body := d.bodyIn_of_module payload
    rcases c.target_cases n ha note.scope with ⟨none, _⟩ | ⟨outer', outerName, around', outerLabel⟩
    · rw [body, around] at none
      cases none
    · rw [body] at around' outerLabel
      obtain rfl := Option.some.inj (around.symm.trans around')
      obtain ⟨way, route⟩ := ih outerLabel
      exact ⟨_, .onward route hi hnode⟩

theorem home_of_route (present : hasScope (d.bodyOf block) = true) {way : List InstanceId}
    {id : ModuleId} (route : q.hierarchy.Route a.owner way id) : q.hierarchy.home id = a.owner := by
  rcases c.route_inside n ha payload present route with rfl | ⟨label, scope, found⟩
  · exact c.home_owner ha
  · rw [Hierarchy.home, found]

/-- No way leads back to the module. -/
theorem target_ne_owner (present : hasScope (d.bodyOf block) = true) {way : List InstanceId}
    {id : ModuleId} (route : q.hierarchy.Route a.owner way id) {i : InstanceId}
    {node : InstanceNode ν} (hi : i ∈ q.hierarchy.instanceIds id)
    (hnode : q.hierarchy.inst i = .ok node) : node.target ≠ a.owner := by
  intro back
  obtain ⟨_, _, found⟩ :=
    c.target_inline n ha payload present (c.home_of_route n ha payload present route) hi hnode
  obtain ⟨_, _, own⟩ := c.label_of_owner ha
  rw [back, own] at found
  cases found

/-- There is one way at most from a module to a module in its body. -/
theorem route_unique (present : hasScope (d.bodyOf block) = true) {way way' : List InstanceId}
    {id id' : ModuleId} (route : q.hierarchy.Route a.owner way id)
    (route' : q.hierarchy.Route a.owner way' id') (same : id = id') : way = way' := by
  induction route generalizing way' id' with
  | here =>
    cases route' with
    | here => rfl
    | onward before hi hnode =>
      exact absurd same.symm (c.target_ne_owner n ha payload present before hi hnode)
  | @onward way id i node before hi hnode ih =>
    cases route' with
    | here => exact absurd same (c.target_ne_owner n ha payload present before hi hnode)
    | @onward way' id' j node' before' hj hnode' =>
      obtain ⟨label, scope, found⟩ :=
        c.target_inline n ha payload present (c.home_of_route n ha payload present before) hi hnode
      have found' := same ▸ found
      have one : i = j := c.inst_unique n hnode hnode'
        ((c.op_of_target n hnode found).trans (c.op_of_target n hnode' found').symm)
      subst one
      rw [ih before' (c.lists.lister_unique hi hj)]

end Family

end Collected

section Labels

variable {h : Hierarchy ν} {id : ModuleId}

theorem definition_of_labelAt {name : ν} {kind : ModuleKind} {op : OpId}
    (label : h.labelAt id.index = some (name, .defined kind op)) :
    ∃ m, h.module id = .ok m ∧ m.definition? = some (kind, op) := by
  unfold Hierarchy.labelAt at label
  obtain ⟨m, found, same⟩ := Option.map_eq_some_iff.1 label
  obtain ⟨_, origin⟩ := Prod.mk.inj same
  refine ⟨m, ?_, ?_⟩
  · rw [Hierarchy.module, found]
    rfl
  · rw [ModuleNode.definition?, origin, Origin.definition?]

theorem labelAt_of_parent {m : ModuleNode ν} {parent : ModuleId} (node : h.module id = .ok m)
    (inner : m.parent? = some parent) : ∃ scope,
      h.labelAt id.index = some (m.name, .scope scope parent) ∧ m.op? = some scope := by
  unfold Hierarchy.module Handle.expect at node
  unfold Hierarchy.labelAt
  split at node
  · next found =>
    cases node
    rw [found]
    unfold ModuleNode.parent? at inner
    split at inner
    · next scope _ origin =>
      cases inner
      exact ⟨scope, by rw [Option.map_some, origin], by rw [ModuleNode.op?, origin]⟩
    · cases inner
  · cases node

end Labels

variable {d : Design Name} {options : Options} {h : Hierarchy Name}

/-- **Scope chains.** An inline module belongs to a module that an operation defines. One instance
leads to it; and the module reaches it just where the chain of its scope ends, in one way only. -/
theorem inline_modules_reached (scripted : d.Scripted)
    (extracted : (d.extract options).outcome = .ok h) {inline parent : ModuleId}
    {m : ModuleNode Name} (node : h.module inline = .ok m) (inner : m.parent? = some parent) :
    ∃ scope around op definition name ports block,
      m.op? = some scope ∧ h.module parent = .ok around ∧ around.definition? = some (.module, op) ∧
        d.op op = .ok definition ∧ definition.payload = .module name ports block ∧
        (∃ note, (scope, note) ∈ scopesOf (d.bodyOf block)) ∧
        InlineOf d h parent (d.bodyOf block) scope inline := by
  obtain ⟨F, accounts, q, rfl, n, c, _⟩ := scripted.collected extracted
  obtain ⟨scope, label, origin⟩ := labelAt_of_parent node inner
  obtain ⟨a, ha, rfl, name, ports, block, payload, note, member⟩ := c.scope_of_inline label
  obtain ⟨_, own⟩ := (c.mem_defined (x := ⟨a.owner, .module, a.entry.1⟩)).2
    ⟨a, ha, .module, by rw [payload]; rfl, rfl⟩
  obtain ⟨around, parentNode, defined⟩ := definition_of_labelAt own
  have definition := c.mem_part ha
  obtain ⟨e, he, rfl, isScope⟩ := mem_scopesOf.1 member
  have present : hasScope (d.bodyOf block) = true :=
    List.any_eq_true.2 ⟨e, he, by rw [isScope]; rfl⟩
  obtain ⟨inline', i, label', hi, hnode⟩ := c.edge_of_scope n ha payload member
  obtain rfl := c.inline_unique n label label'
  have reached_iff : (∃ way, q.hierarchy.Route a.owner way inline) ↔ Ends d (d.bodyOf block) e.1 :=
    ⟨fun ⟨_, route⟩ => c.ends_of_route n ha payload route label,
      fun ends => c.route_of_ends n ha payload ends label⟩
  have unique (way way' : List InstanceId) (route : q.hierarchy.Route a.owner way inline)
      (route' : q.hierarchy.Route a.owner way' inline) : way = way' :=
    c.route_unique n ha payload present route route' rfl
  refine ⟨e.1, around, a.entry.1, a.entry.2, name, ports, block, origin, parentNode, defined,
    op_of_mem_entries (c.mem_entries n ha), payload, ⟨note, member⟩, ?_, ?_,
    reached_iff, unique, ?_, ?_⟩
  · refine ⟨i, ⟨_, hnode, rfl⟩, ?_⟩
    rintro j ⟨x, hj, target⟩
    exact c.inst_unique n hj hnode (c.op_of_target n hj (target ▸ label))
  · intro j x hj target
    obtain rfl := c.inst_unique n hj hnode (c.op_of_target n hj (target ▸ label))
    refine ⟨_, hi, ?_, fun other hother => c.lists.lister_unique hother hi⟩
    have body := d.bodyIn_of_module payload
    rw [← body]
    rcases c.target_cases n ha note.scope with ⟨_, own⟩ | ⟨s, name, _, found⟩
    · exact .inl own
    · exact .inr ⟨name, s, found⟩
  · intro back
    have found (f : Entry Name) (hf : f ∈ d.bodyOf block) : d.ops[f.1.index]? = some f.2 := by
      refine Design.ops_of_mem_entries (n.mem_entries_of_body definition ?_)
      rw [Design.bodyIn, payload]
      exact hf
    obtain ⟨way, route⟩ := reached_iff.2 (ends_of_refersBack scripted.linked found back he isScope)
    exact ⟨way, route, fun way' route' => unique way' way route' route⟩
  · intro endless way id route v hv x hx owned
    obtain ⟨y, hy, rfl⟩ := c.lists.mem_variableIds.1 hv
    obtain rfl := Option.some.inj (hy.symm.trans (c.lists.dbgVariable_eq_ok_iff.1 hx))
    subst owned
    exact endless (reached_iff.1 ⟨way, route⟩)

/-- Two scopes, each in the other, with a variable in one. -/
def mutualScopes : Script :=
  .module "Top" [⟨.input, "a", none⟩]
    (.leaf none (.dbgScope ⟨"x", "X", some (.value ⟨2⟩)⟩) <|
     .leaf none (.dbgScope ⟨"y", "Y", some (.value ⟨1⟩)⟩) <|
     .leaf none (.dbgVariable ⟨"v", .input 0, some (.value ⟨1⟩), none, none, none⟩) .done)
    .done

theorem inline_of_mutualScopes : ∃ scope around op definition name ports block,
    (mutualScopes.design.hierarchy {}).module ⟨0⟩ = .ok around ∧
      around.definition? = some (.module, op) ∧ mutualScopes.design.op op = .ok definition ∧
      definition.payload = .module name ports block ∧
      (∃ note, (scope, note) ∈ scopesOf (mutualScopes.design.bodyOf block)) ∧
      InlineOf mutualScopes.design (mutualScopes.design.hierarchy {}) ⟨0⟩
        (mutualScopes.design.bodyOf block) scope ⟨1⟩ := by
  have extracted : (mutualScopes.design.extract {}).outcome =
      .ok (mutualScopes.design.hierarchy {}) := by
    decide +kernel
  obtain ⟨m, node, inner⟩ := module_of_bind (x := ⟨0⟩) (mutualScopes.design.hierarchy {}) ⟨1⟩
    (·.parent?) (by decide +kernel)
  obtain ⟨scope, around, op, definition, name, ports, block, _, reached⟩ :=
    inline_modules_reached mutualScopes.design_scripted extracted node inner
  exact ⟨scope, around, op, definition, name, ports, block, reached⟩

end DebugHierarchy
