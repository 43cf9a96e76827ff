import DebugHierarchy.Proofs.Partition
import Mathlib.Data.List.Sort

/-!
The catalog of a hierarchy, read off its modules.

A catalog is written beside the modules: the slot of a name, the order in which names
are met, and the order of definitions. In a finished hierarchy it says nothing that the
modules do not say themselves.

* `Catalogued`: the slots and the two orders of a catalog along an extraction;
* `Registered`: what the modules tell of the catalog;
* `registry_determined`: every finished hierarchy is registered, so hierarchies with
  the same nodes are the same.
-/

namespace DebugHierarchy

variable {ν β : Type}

namespace Hierarchy

/-- What `read` makes of the labels of all modules, in the order of the modules. -/
def labelled (h : Hierarchy ν) (read : Nat → ν × Origin → Option β) : List β :=
  (List.range h.moduleCount).filterMap fun i => (h.labelAt i).bind (read i)

/-- What a new module adds to such a list. -/
def added (h : Hierarchy ν) (read : Nat → ν × Origin → Option β) : Event ν → Option β
  | .register _ name => read h.moduleCount (name, .referenced)
  | .inlineModule _ name scope parent => read h.moduleCount (name, .scope scope parent)
  | _ => none

variable {h : Hierarchy ν}

theorem labelled_push {h' : Hierarchy ν} {label : ν × Origin} (read : Nat → ν × Origin → Option β)
    (count : h'.moduleCount = h.moduleCount + 1)
    (labels : ∀ i, h'.labelAt i = if i = h.store.modules.size then some label else h.labelAt i) :
    h'.labelled read = h.labelled read ++ (read h.moduleCount label).toList := by
  have last : h'.labelAt h.moduleCount = some label := (labels _).trans (if_pos rfl)
  rw [labelled, count, List.range_succ, List.filterMap_append, labelled]
  congr 1
  · refine List.filterMap_congr fun i hi => ?_
    have old : i ≠ h.store.modules.size := Nat.ne_of_lt (List.mem_range.1 hi)
    rw [labels, if_neg old]
  · cases found : read h.moduleCount label <;> simp [last, found]

theorem labelled_congr {h' : Hierarchy ν} {read : Nat → ν × Origin → Option β}
    (count : h'.moduleCount = h.moduleCount)
    (labels : ∀ i, (h'.labelAt i).bind (read i) = (h.labelAt i).bind (read i)) :
    h'.labelled read = h.labelled read := by
  rw [labelled, count, labelled]
  exact List.filterMap_congr fun i _ => labels i

/-- A list that does not tell definitions from references grows with new modules only. -/
theorem labelled_apply [DecidableEq ν] {e : Event ν} (fits : e.Fits h)
    (read : Nat → ν × Origin → Option β)
    (same : ∀ i name kind op, read i (name, .defined kind op) = read i (name, .referenced)) :
    (h.apply e).labelled read = h.labelled read ++ (h.added read e).toList := by
  cases e with
  | register id name =>
    exact labelled_push read (moduleCount_apply _ _)
      (labelAt_addModule h.store h.catalog _ (.bare name .referenced))
  | inlineModule id name scope parent =>
    exact labelled_push read (moduleCount_apply _ _)
      (labelAt_addModule h.store h.catalog _ (.bare name (.scope scope parent)))
  | define id kind op =>
    obtain ⟨name, undefined⟩ := fits
    refine (labelled_congr (moduleCount_apply _ _) fun i => ?_).trans (List.append_nil _).symm
    rw [labelAt_define undefined]
    split
    · next here => rw [here, undefined, Option.bind_some, Option.bind_some, same]
    · rfl
  | addVariable | addInstance | setInfo | setEnum | surveyed =>
    refine (labelled_congr (moduleCount_apply _ _) fun i => ?_).trans (List.append_nil _).symm
    refine congrArg (fun label => Option.bind label (read i)) (labelAt_modifyModule h.catalog ?_ i)
    exact fun m => ⟨rfl, rfl⟩
  | collect | replaceInfo | keepEnum | looseScope | built => exact (List.append_nil _).symm

end Hierarchy

def entryOf (i : Nat) : ν × Origin → Option (ν × ModuleId)
  | (_, .scope ..) => none
  | (name, _) => some (name, ⟨i⟩)

/-- What is told of an inline module; of any other module nothing. -/
def inliningOf (i : Nat) : ν × Origin → Option (Inlining ν)
  | (name, .scope scope parent) => some ⟨⟨i⟩, name, scope, parent⟩
  | _ => none

/-- The catalog lists the modules in the order of their handles, and the defined ones in the
order of their definitions. -/
structure Catalogued (h : Hierarchy ν) (f : Findings ν) : Prop where
  entries : h.catalog.slots.entries.map (fun e => (e.1, e.2.id)) = h.labelled entryOf
  order : h.catalog.order.toList = h.catalog.slots.entries.map (·.2.id)
  inlined : h.labelled inliningOf = f.inlined
  defined : h.catalog.defined.toList = f.defined.map (·.id)

theorem Catalogued.apply [DecidableEq ν] {h : Hierarchy ν} {f : Findings ν} {e : Event ν}
    (c : Catalogued h f) (fits : e.Fits h) : Catalogued (h.apply e) (f ++ e.findings) := by
  refine ⟨?_, ?_, ?_, ?_⟩
  · rw [Hierarchy.labelled_apply fits entryOf fun _ _ _ _ => rfl, ← c.entries]
    cases e with
    | register id name =>
      obtain ⟨rfl, _⟩ := fits
      exact List.map_append
    | define id kind op => simp [Hierarchy.apply, Catalog.define, LookupMap.map, Hierarchy.added]
    | _ => exact (List.append_nil _).symm
  · cases e with
    | register id name => simp [Hierarchy.apply, Catalog.register, LookupMap.push, c.order]
    | define id kind op => simp [Hierarchy.apply, Catalog.define, LookupMap.map, c.order]
    | _ => exact c.order
  · rw [Hierarchy.labelled_apply fits inliningOf fun _ _ _ _ => rfl, c.inlined]
    cases e with
    | inlineModule id name scope parent =>
      obtain ⟨rfl, _⟩ := fits
      rfl
    | _ => rfl
  · rw [Findings.defined_append, List.map_append, ← c.defined]
    cases e with
    | define id kind op => exact Array.toList_push
    | _ => exact (List.append_nil _).symm

theorem Progress.Leads.catalogued [DecidableEq ν] {p q : Progress ν} {f g : Findings ν}
    (leads : p.Leads f q) (c : Catalogued p.hierarchy g) : Catalogued q.hierarchy (g ++ f) := by
  obtain ⟨es, hes, rfl⟩ := leads
  induction hes generalizing g with
  | nil => exact (Findings.append_none g).symm ▸ c
  | cons fits _ ih => exact Findings.append_assoc _ _ _ ▸ ih (c.apply fits)

theorem Progress.catalogued_start : Catalogued (Progress.start : Progress ν).hierarchy .none :=
  ⟨rfl, rfl, rfl, rfl⟩

/-- A slot belongs to a module that is not inline, and has its name. -/
theorem Catalogued.module_of_slot {h : Hierarchy ν} {f : Findings ν} (c : Catalogued h f)
    {e : ν × Slot} (he : e ∈ h.catalog.slots.entries) :
    ∃ m, h.module e.2.id = .ok m ∧ m.name = e.1 ∧ m.isInline = false := by
  have listed : (e.1, e.2.id) ∈ h.labelled entryOf := c.entries ▸ List.mem_map_of_mem he
  obtain ⟨i, _, read⟩ := List.mem_filterMap.1 listed
  obtain ⟨⟨name, origin⟩, label, read⟩ := Option.bind_eq_some_iff.1 read
  obtain ⟨m, found, rfl, rfl⟩ := Hierarchy.module_of_labelAt label
  cases origin : m.origin with
  | scope => simp [entryOf, origin] at read
  | _ =>
    simp only [entryOf, origin, Option.some.injEq, Prod.mk.injEq] at read
    exact ⟨m, read.2 ▸ found, read.1, by rw [ModuleNode.isInline, origin]⟩

/-! ### Finished hierarchies -/

namespace Hierarchy

def opOf (h : Hierarchy ν) (id : ModuleId) : Option OpId := h.store.modules[id.index]?.bind (·.op?)

end Hierarchy

/-- The catalog and the counts say what the modules say. -/
structure Registered [DecidableEq ν] (d : Design ν) (h : Hierarchy ν) : Prop where
  /-- The modules with a name of their own are those that are not inline, by ascending handle. -/
  modules : h.modules = positions (!·.isInline) h.store.modules.toList
  /-- No two of them share their name. -/
  names : ∀ i j m m', h.module i = .ok m → h.module j = .ok m' → m.isInline = false →
    m'.isInline = false → m.name = m'.name → i = j
  found : ∀ name id, h.find? name = some id ↔
    ∃ m, h.module id = .ok m ∧ m.isInline = false ∧ m.name = name
  /-- The look-up has one slot for each of them, -/
  slots : h.catalog.slots.entries.map (·.2.id) = h.modules
  /-- at its name, and with the definition that the module has itself. -/
  definitions : ∀ e ∈ h.catalog.slots.entries, ∃ m, h.module e.2.id = .ok m ∧ m.name = e.1 ∧
    e.2.definition = m.op?.map fun op => (if m.isExtern then .external else .module, op)
  /-- The defined modules are those of them that come from an operation. -/
  topLevel : ∀ id, id ∈ h.topLevel ↔ ∃ m, h.module id = .ok m ∧ m.isInline = false ∧ m.op?.isSome
  /-- They stand in the order of these operations. -/
  ordered : h.topLevel.Pairwise fun i j => ∃ op op', h.opOf i = some op ∧
    h.opOf j = some op' ∧ op < op'
  /-- Each comes from the operation that defines its name, and is
  extern just where that is extern. -/
  defined : ∀ id ∈ h.topLevel, ∃ m op o, h.module id = .ok m ∧ m.op? = some op ∧ d.op op = .ok o ∧
    ((m.isExtern = false ∧ ∃ ports body, o.payload = .module m.name ports body) ∨
      m.isExtern = true ∧ ∃ ports, o.payload = .externModule m.name ports)
  /-- Nothing is known of a module that was only referred to. -/
  bare : ∀ id m, h.module id = .ok m → m.isInline = false → m.op? = none →
    m = .bare m.name .referenced
  /-- There are as many inline modules as scopes in the bodies of the definitions. -/
  counts : h.stats.registryModules ≤ h.store.modules.size ∧
    h.stats.inlineModules = (positions (·.isInline) h.store.modules.toList : List ModuleId).length ∧
      h.stats.inlineModules = (d.definitions.flatMap fun e => scopesOf (d.bodyIn e)).length

section Lists

variable {α : Type} {s : Space}

theorem positions_eq_filterMap (test : α → Bool) (l : List α) :
    (positions test l : List (Handle s)) =
    (List.range l.length).filterMap fun i => (l[i]?.filter test).map fun _ => ⟨i⟩ := by
  unfold positions
  induction List.range l.length with
  | nil => rfl
  | cons i rest ih =>
    rw [List.filter_cons, List.filterMap_cons, ← ih]
    cases found : l[i]? with
    | none => rfl
    | some a => cases pass : test a <;> simp [Option.filter, pass]

/-- A test and its negation pass as many positions as there are. -/
theorem length_positions_add_not (test : α → Bool) (l : List α) :
    (positions (!test ·) l : List (Handle s)).length + (positions test l : List (Handle s)).length =
      l.length := by
  have pass (test : α → Bool) : (positions test l : List (Handle s)).length = l.countP test := by
    rw [List.countP_eq_length_filter, ← filterMap_positions (s := s)]
    refine (List.filterMap_length_eq_length.2 fun h hh => ?_).symm
    obtain ⟨x, hx, _⟩ := mem_positions.1 hh
    rw [hx]
    rfl
  rw [pass, pass, Nat.add_comm, List.length_eq_countP_add_countP test]
  simp

end Lists

/-- A list of handles read off the labels is that of the modules that pass a test. -/
theorem Hierarchy.labelled_map {h : Hierarchy ν} {read : Nat → ν × Origin → Option β}
    {id : β → ModuleId} {test : ModuleNode ν → Bool}
    (agree : ∀ i m, (read i (m.name, m.origin)).map id = if test m then some ⟨i⟩ else none) :
    (h.labelled read).map id = positions test h.store.modules.toList := by
  rw [positions_eq_filterMap, labelled, List.map_filterMap, Array.length_toList]
  refine List.filterMap_congr fun i _ => ?_
  rw [labelAt, Array.getElem?_toList]
  cases h.store.modules[i]? with
  | none => rfl
  | some m =>
    rw [Option.map_some, Option.bind_some, agree]
    cases pass : test m <;> simp [Option.filter, pass]

theorem ModuleNode.isInline_eq_false_iff {m : ModuleNode ν} :
    m.isInline = false ↔ ∀ s p, m.origin ≠ .scope s p := by
  cases origin : m.origin <;> simp [isInline, origin]

/-- What defines a module that is not inline is told by its operation
and by whether it is extern. -/
theorem ModuleNode.definition?_of_outline (m : ModuleNode ν) (outline : m.isInline = false) :
    m.definition? = m.op?.map fun op => (if m.isExtern then .external else .module, op) := by
  unfold definition? op? isExtern
  cases origin : m.origin with
  | referenced => rfl
  | defined kind op => cases kind <;> rfl
  | scope => simp [isInline, origin] at outline

namespace Collected

variable [DecidableEq ν] {d : Design ν} {F : Forest ν} {accounts : List (Account ν)}
  {q : Progress ν}

theorem catalogued {part : List (Entry ν)} (c : Collected d accounts part q) :
    Catalogued q.hierarchy (.gather (Account.findings d q.hierarchy.find?) accounts) :=
  c.leads.catalogued Progress.catalogued_start

/-- The defined modules are those of the accounts. -/
theorem topLevel_eq {part : List (Entry ν)} (c : Collected d accounts part q) :
    q.hierarchy.topLevel = accounts.map (·.owner) := by
  rw [Hierarchy.topLevel, c.catalogued.defined, Findings.gather_defined, List.map_flatMap,
    ← List.flatMap_pure_eq_map]
  refine List.flatMap_congr fun a ha => ?_
  obtain ⟨kind, kind_eq⟩ := c.kind_of_account ha
  cases payload : a.entry.2.payload <;> simp [payload, Payload.moduleKind?] at kind_eq <;>
    simp [Account.findings, payload]

theorem opOf_owner {part : List (Entry ν)} (c : Collected d accounts part q) {a : Account ν}
    (ha : a ∈ accounts) : q.hierarchy.opOf a.owner = some a.entry.1 := by
  obtain ⟨name, kind, label⟩ := c.label_of_owner ha
  obtain ⟨m, found, _, origin⟩ := Hierarchy.module_of_labelAt label
  rw [Hierarchy.opOf, Hierarchy.module_eq_ok_iff.1 found, Option.bind_some, ModuleNode.op?, origin]

/-- There are as many inline modules as scopes in the bodies. -/
theorem inlined_length (c : Collected d accounts d.definitions q) :
    (Findings.gather (Account.findings d q.hierarchy.find?) accounts).inlined.length =
      (d.definitions.flatMap fun e => scopesOf (d.bodyIn e)).length := by
  rw [Findings.gather_inlined, ← c.entries, List.flatMap_map, List.length_flatMap,
    List.length_flatMap]
  refine congrArg List.sum (List.map_congr_left fun a _ => ?_)
  rw [a.inlined_eq, inlinings, List.length_map, ← List.length_map (·.1), numberedScopes_map_fst]

theorem modules_eq {part : List (Entry ν)} (c : Collected d accounts part q) :
    q.hierarchy.modules = positions (!·.isInline) q.hierarchy.store.modules.toList := by
  have ids : q.hierarchy.modules = (q.hierarchy.labelled entryOf).map (·.2) := by
    rw [Hierarchy.modules, c.catalogued.order, ← c.catalogued.entries, List.map_map]
    rfl
  rw [ids]
  refine Hierarchy.labelled_map fun i m => ?_
  cases origin : m.origin <;> simp [entryOf, ModuleNode.isInline, origin]

theorem inlined_ids {part : List (Entry ν)} (c : Collected d accounts part q) :
    (Findings.gather (Account.findings d q.hierarchy.find?) accounts).inlined.map (·.id) =
      positions (·.isInline) q.hierarchy.store.modules.toList := by
  rw [← c.catalogued.inlined]
  refine Hierarchy.labelled_map fun i m => ?_
  cases origin : m.origin <;> simp [inliningOf, ModuleNode.isInline, origin]

/-- A name finds the module that has it and is not inline. -/
theorem find?_iff {part : List (Entry ν)} (c : Collected d accounts part q) (name : ν)
    (id : ModuleId) : q.hierarchy.find? name = some id ↔
      ∃ m, q.hierarchy.module id = .ok m ∧ m.isInline = false ∧ m.name = name := by
  rw [c.labels.catalog]
  constructor
  · rintro ⟨origin, label, named⟩
    obtain ⟨m, there, rfl, rfl⟩ := Hierarchy.module_of_labelAt label
    exact ⟨m, there, ModuleNode.isInline_eq_false_iff.2 named, rfl⟩
  · rintro ⟨m, there, named, rfl⟩
    exact ⟨m.origin, Hierarchy.labelAt_of_module there, ModuleNode.isInline_eq_false_iff.1 named⟩

theorem definition_of_slot {part : List (Entry ν)} (c : Collected d accounts part q) {e : ν × Slot}
    (he : e ∈ q.hierarchy.catalog.slots.entries) :
    ∃ m, q.hierarchy.module e.2.id = .ok m ∧ m.name = e.1 ∧
      e.2.definition = m.op?.map fun op => (if m.isExtern then .external else .module, op) := by
  obtain ⟨m, there, named, outline⟩ := c.catalogued.module_of_slot he
  obtain ⟨origin, label, definition⟩ := c.labels.slots e he
  obtain ⟨m', there', _, rfl⟩ := Hierarchy.module_of_labelAt label
  cases there.symm.trans there'
  exact ⟨m, there, named, definition.trans (m.definition?_of_outline outline)⟩

theorem mem_topLevel_iff {part : List (Entry ν)} (c : Collected d accounts part q) (id : ModuleId) :
    id ∈ q.hierarchy.topLevel ↔
      ∃ m, q.hierarchy.module id = .ok m ∧ m.isInline = false ∧ m.op?.isSome := by
  rw [c.topLevel_eq, List.mem_map]
  constructor
  · rintro ⟨a, ha, rfl⟩
    obtain ⟨name, kind, label⟩ := c.label_of_owner ha
    obtain ⟨m, there, _, origin⟩ := Hierarchy.module_of_labelAt label
    exact ⟨m, there, by rw [ModuleNode.isInline, origin], by rw [ModuleNode.op?, origin]; rfl⟩
  · rintro ⟨m, there, named, made⟩
    have label := Hierarchy.labelAt_of_module there
    cases origin : m.origin with
    | referenced => simp [ModuleNode.op?, origin] at made
    | scope s p => simp [ModuleNode.isInline, origin] at named
    | defined kind op =>
      rw [origin] at label
      obtain ⟨a, ha, _, _, same⟩ := (c.mem_defined (x := ⟨id, kind, op⟩)).1 ⟨_, label⟩
      cases same
      exact ⟨a, ha, rfl⟩

/-- The module of an account comes from the operation that defines its name. -/
theorem definition_of_owner {part : List (Entry ν)} (c : Collected d accounts part q)
    (closed : Closed d q.hierarchy) {a : Account ν} (ha : a ∈ accounts) :
    ∃ m op o, q.hierarchy.module a.owner = .ok m ∧ m.op? = some op ∧ d.op op = .ok o ∧
      ((m.isExtern = false ∧ ∃ ports body, o.payload = .module m.name ports body) ∨
        m.isExtern = true ∧ ∃ ports, o.payload = .externModule m.name ports) := by
  obtain ⟨name, kind, label⟩ := c.label_of_owner ha
  obtain ⟨m, there, rfl, origin⟩ := Hierarchy.module_of_labelAt label
  obtain ⟨o, known, symbol, kind_eq⟩ := closed.defined label
  refine ⟨m, a.entry.1, o, there, by rw [ModuleNode.op?, origin], known, ?_⟩
  cases payload : o.payload with
  | module name ports body =>
    rw [payload] at symbol kind_eq
    cases symbol
    cases kind_eq
    exact .inl ⟨by rw [ModuleNode.isExtern, origin], ports, body, rfl⟩
  | externModule name ports =>
    rw [payload] at symbol kind_eq
    cases symbol
    cases kind_eq
    exact .inr ⟨by rw [ModuleNode.isExtern, origin], ports, rfl⟩
  | _ => simp [payload, Payload.symbol?] at symbol

/-- The catalog of a finished hierarchy says what its modules say. -/
theorem registered (c : Collected d accounts d.definitions q) (n : Nesting d F)
    (closed : Closed d q.hierarchy) : Registered d q.hierarchy := by
  refine ⟨c.modules_eq, ?_, c.find?_iff, c.catalogued.order.symm, fun e => c.definition_of_slot,
    c.mem_topLevel_iff, ?_, ?_, ?_, ?_⟩
  · intro i j m m' hi hj named named' same
    have first := (c.find?_iff m.name i).2 ⟨m, hi, named, rfl⟩
    rw [(c.find?_iff m.name j).2 ⟨m', hj, named', same.symm⟩] at first
    exact (Option.some.inj first).symm
  · have ascending := n.definitions_ascending
    rw [← c.entries, List.pairwise_map] at ascending
    rw [c.topLevel_eq, List.pairwise_map]
    refine ascending.imp_of_mem fun {a b} ha hb less => ?_
    exact ⟨a.entry.1, b.entry.1, c.opOf_owner ha, c.opOf_owner hb, less⟩
  · intro id hid
    rw [c.topLevel_eq] at hid
    obtain ⟨a, ha, rfl⟩ := List.mem_map.1 hid
    exact c.definition_of_owner closed ha
  · intro id m there named unmade
    refine closed.bare (Hierarchy.module_eq_ok_iff.1 there) ?_
    cases origin : m.origin with
    | referenced => rfl
    | defined kind op => simp [ModuleNode.op?, origin] at unmade
    | scope s p => simp [ModuleNode.isInline, origin] at named
  -- The counts: every module is either inline or in the catalog.
  · have all := length_positions_add_not (s := .module)
      (·.isInline) q.hierarchy.store.modules.toList
    have outline := congrArg List.length c.modules_eq
    have inline := congrArg List.length c.inlined_ids
    rw [Hierarchy.modules, Array.length_toList] at outline
    rw [List.length_map, c.inlined_length] at inline
    have size : q.hierarchy.store.modules.toList.length = q.hierarchy.store.modules.size :=
      Array.length_toList
    simp only [Hierarchy.stats]
    omega

end Collected

def Hierarchy.slotOf (h : Hierarchy ν) (entry : ν × ModuleId) : ν × Slot :=
  (entry.1, ⟨entry.2, (h.labelAt entry.2.index).bind (·.2.definition?)⟩)

theorem Labels.slots_eq [DecidableEq ν] {h : Hierarchy ν} {f : Findings ν} (labels : Labels h f) :
    h.catalog.slots.entries =
      (h.catalog.slots.entries.map fun e => (e.1, e.2.id)).map h.slotOf := by
  rw [List.map_map]
  refine (List.map_id _).symm.trans (List.map_congr_left fun e he => ?_)
  obtain ⟨origin, label, definition⟩ := labels.slots e he
  rw [Function.comp_apply, Hierarchy.slotOf, label, Option.bind_some, ← definition]
  rfl

/-- What comes before in the order of the operations that modules come from. -/
def Hierarchy.Before (h : Hierarchy ν) (i j : ModuleId) : Prop :=
  ∃ op op', h.opOf i = some op ∧ h.opOf j = some op' ∧ op < op'

/-- The lists of a catalog are told by the modules, so hierarchies with
the same nodes are the same. -/
theorem eq_of_store_eq [DecidableEq ν] {d d' : Design ν} {h h' : Hierarchy ν} {f f' : Findings ν}
    (l : Labels h f) (l' : Labels h' f') (c : Catalogued h f) (c' : Catalogued h' f')
    (r : Registered d h) (r' : Registered d' h') (same : h.store = h'.store) : h = h' := by
  have slots : h.catalog.slots.entries = h'.catalog.slots.entries := by
    rw [l.slots_eq, l'.slots_eq, c.entries, c'.entries]
    unfold Hierarchy.slotOf Hierarchy.labelled Hierarchy.labelAt Hierarchy.moduleCount
    rw [same]
  have order : h.catalog.order.toList = h'.catalog.order.toList := by rw [c.order, c'.order, slots]
  have module (id : ModuleId) : h.module id = h'.module id := by unfold Hierarchy.module; rw [same]
  have topLevel : h.topLevel = h'.topLevel := by
    have before : h'.Before = h.Before := by unfold Hierarchy.Before Hierarchy.opOf; rw [same]
    have ordered' : h'.topLevel.Pairwise h.Before := before ▸ r'.ordered
    have asymm {i j : ModuleId} (first : h.Before i j) (next : h.Before j i) : False := by
      obtain ⟨a, b, ha, hb, less⟩ := first
      obtain ⟨b', a', hb', ha', less'⟩ := next
      rw [ha] at ha'
      rw [hb] at hb'
      cases ha'
      cases hb'
      exact Nat.lt_asymm less less'
    have : Std.Irrefl h.Before := ⟨fun i self => asymm self self⟩
    have : Std.Antisymm h.Before := ⟨fun i j first next => (asymm first next).elim⟩
    have ordered : h.topLevel.Pairwise h.Before := r.ordered
    exact ordered.eq_of_mem_iff ordered' fun id => by rw [r.topLevel, r'.topLevel, module]
  refine Hierarchy.ext same (Catalog.ext (LookupMap.ext slots) ?_ ?_)
  · exact Array.toList_inj.1 order
  · exact Array.toList_inj.1 topLevel

/-- **Registries.** The catalog of an extracted hierarchy says what its modules say. So two
hierarchies are equal just where their modules, instances and variables are. -/
theorem registry_determined {d d' : Design Name} (scripted : d.Scripted) (scripted' : d'.Scripted)
    {options options' : Options} {h h' : Hierarchy Name}
    (extracted : (d.extract options).outcome = .ok h)
    (extracted' : (d'.extract options').outcome = .ok h') :
    Registered d h ∧ (h = h' ↔ h.store = h'.store) := by
  have closed := Design.closed_of_extract extracted
  have closed' := Design.closed_of_extract extracted'
  obtain ⟨F, accounts, q, rfl, n, c, _⟩ := scripted.collected extracted
  obtain ⟨F', accounts', q', rfl, n', c', _⟩ := scripted'.collected extracted'
  have registered := c.registered n closed
  exact ⟨registered, congrArg _,
    eq_of_store_eq c.labels c'.labels c.catalogued c'.catalogued registered
      (c'.registered n' closed')⟩

/-- A module that is instantiated before it is defined, and one that never is. -/
def lateDefinition : Script :=
  .module "Top" []
    (.leaf none (.inst "u" "Late" []) <|
     .leaf none (.inst "w" "Unknown" []) .done) <|
  .module "Late" [⟨.input, "a", none⟩] (.leaf none (.dbgScope ⟨"s", "Level", none⟩) .done) <|
  .externModule "Ext" [] .done

theorem registry_of_lateDefinition :
    Registered lateDefinition.design (lateDefinition.design.hierarchy {}) ∧
      (lateDefinition.design.hierarchy {} = nestedScopes.design.hierarchy {} ↔
        (lateDefinition.design.hierarchy {}).store = (nestedScopes.design.hierarchy {}).store) := by
  have extracted : (lateDefinition.design.extract {}).outcome =
      .ok (lateDefinition.design.hierarchy {}) := by
    decide +kernel
  have extracted' : (nestedScopes.design.extract {}).outcome =
      .ok (nestedScopes.design.hierarchy {}) := by
    decide +kernel
  exact registry_determined lateDefinition.design_scripted nestedScopes.design_scripted
    extracted extracted'

end DebugHierarchy
