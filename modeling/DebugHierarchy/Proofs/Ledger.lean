import DebugHierarchy.Extraction.Basic
import Mathlib.Data.List.Basic
import Mathlib.Data.List.Induction

/-!
What a journal tells of its hierarchy.

Events are recorded one by one, and each fits the hierarchy that it is recorded in (`Event.Fits`).
Of a stretch of events only four lists matter afterwards, its `Findings`: definitions, inline
modules, variables and instances, these with the module that lists them.

* `Labels`: names and origins of the modules, and the catalog, are those that the findings tell;
* `Lists`: the lists of each module are the positions, in creation order, of what it owns;
* `Leads`: from one state to another by fitting events with given findings. Both views are kept
  along every such stretch (`Leads.labels`, `Leads.lists`).
-/

namespace DebugHierarchy

variable {ν α : Type}

/-- The positions of a list that pass a test, in ascending order. -/
def positions {s : Space} (test : α → Bool) (l : List α) : List (Handle s) :=
  ((List.range l.length).filter fun i => l[i]?.any test).map (⟨·⟩)

section Positions

variable {s : Space} {test : α → Bool} {l : List α}

theorem positions_append_singleton (x : α) : (positions test (l ++ [x]) : List (Handle s)) =
    positions test l ++ if test x then [⟨l.length⟩] else [] := by
  have old : (List.range l.length).filter (fun i => (l ++ [x])[i]?.any test) =
      (List.range l.length).filter fun i => l[i]?.any test :=
    List.filter_congr fun i hi => by rw [List.getElem?_append_left (List.mem_range.1 hi)]
  simp only [positions, List.length_append, List.length_singleton, List.range_succ,
    List.filter_append, old, List.map_append]
  cases h : test x <;> simp [h]

theorem mem_positions {h : Handle s} : h ∈ positions test l ↔
    ∃ x, l[h.index]? = some x ∧ test x := by
  simp only [positions, List.mem_map, List.mem_filter, List.mem_range, Option.any_eq_true]
  constructor
  · rintro ⟨i, ⟨_, x, hx, pass⟩, rfl⟩
    exact ⟨x, hx, pass⟩
  · rintro ⟨x, hx, pass⟩
    exact ⟨h.index, ⟨(List.getElem?_eq_some_iff.1 hx).1, x, hx, pass⟩, rfl⟩

theorem positions_eq_nil (none : ∀ x ∈ l, test x = false) :
    (positions test l : List (Handle s)) = [] := by
  rw [List.eq_nil_iff_forall_not_mem]
  intro h hh
  obtain ⟨x, hx, pass⟩ := mem_positions.1 hh
  simp [none x (List.mem_of_getElem? hx)] at pass

theorem positions_nodup : (positions test l : List (Handle s)).Nodup := by
  rw [positions, List.Nodup, List.pairwise_map]
  exact (List.nodup_range.filter _).imp fun other same => other (congrArg Handle.index same)

/-- Reading a list at the positions of a test gives what passes the test. -/
theorem filterMap_positions :
    ((positions test l : List (Handle s)).filterMap fun h => l[h.index]?) = l.filter test := by
  induction l using List.reverseRecOn with
  | nil => rfl
  | append_singleton l x ih =>
    rw [positions_append_singleton, List.filterMap_append, List.filter_append]
    congr 1
    · rw [← ih]
      refine List.filterMap_congr fun h hh => ?_
      obtain ⟨y, hy, _⟩ := mem_positions.1 hh
      exact List.getElem?_append_left (List.getElem?_eq_some_iff.1 hy).1
    · cases h : test x <;> simp [h]

end Positions

structure Definition where
  id : ModuleId
  kind : ModuleKind
  op : OpId

/-- An inline module with the scope it stands for and the module around it. -/
structure Inlining (ν : Type) where
  id : ModuleId
  name : ν
  scope : OpId
  parent : ModuleId

structure Placement (ν : Type) where
  owner : ModuleId
  node : InstanceNode ν

/-- What a stretch of a journal tells, each list in the order of the events. -/
structure Findings (ν : Type) where
  defined : List Definition
  inlined : List (Inlining ν)
  vars : List (VariableNode ν)
  insts : List (Placement ν)

namespace Findings

def none : Findings ν := ⟨[], [], [], []⟩

def append (f g : Findings ν) : Findings ν :=
  ⟨f.defined ++ g.defined, f.inlined ++ g.inlined, f.vars ++ g.vars, f.insts ++ g.insts⟩

instance : Append (Findings ν) := ⟨append⟩

variable (f g k : Findings ν)

@[simp] theorem defined_append : (f ++ g).defined = f.defined ++ g.defined := rfl
@[simp] theorem inlined_append : (f ++ g).inlined = f.inlined ++ g.inlined := rfl
@[simp] theorem vars_append : (f ++ g).vars = f.vars ++ g.vars := rfl
@[simp] theorem insts_append : (f ++ g).insts = f.insts ++ g.insts := rfl

theorem mk_append_mk {d d' : List Definition} {i i' : List (Inlining ν)}
    {v v' : List (VariableNode ν)} {p p' : List (Placement ν)} :
    (⟨d, i, v, p⟩ ++ ⟨d', i', v', p'⟩ : Findings ν) =
      ⟨d ++ d', i ++ i', v ++ v', p ++ p'⟩ := rfl

@[simp] theorem append_none : f ++ none = f := by
  obtain ⟨a, b, c, d⟩ := f
  show Findings.mk (a ++ []) (b ++ []) (c ++ []) (d ++ []) = _
  simp only [List.append_nil]

theorem append_assoc : f ++ g ++ k = f ++ (g ++ k) := by
  show Findings.mk _ _ _ _ = Findings.mk _ _ _ _
  simp only [defined_append, inlined_append, vars_append, insts_append, List.append_assoc]

/-- What the members of a list tell, one after the other. -/
def gather (tell : α → Findings ν) : List α → Findings ν
  | [] => none
  | a :: rest => tell a ++ gather tell rest

variable (tell : α → Findings ν) (l : List α)

theorem gather_append (l' : List α) : gather tell (l ++ l') = gather tell l ++ gather tell l' := by
  induction l with
  | nil => rfl
  | cons a rest ih => simp only [List.cons_append, gather, ih, append_assoc]

theorem gather_singleton (a : α) : gather tell [a] = tell a := append_none _

theorem gather_congr {tell tell' : α → Findings ν} {l : List α} (same : ∀ a ∈ l, tell a = tell' a) :
    gather tell l = gather tell' l := by
  induction l with
  | nil => rfl
  | cons a rest ih =>
    rw [gather, gather, same a List.mem_cons_self,
      ih fun a ha => same a (List.mem_cons_of_mem _ ha)]

theorem gather_defined : (gather tell l).defined = l.flatMap fun a => (tell a).defined := by
  induction l with
  | nil => rfl
  | cons a rest ih => simp [gather, ih]

theorem gather_inlined : (gather tell l).inlined = l.flatMap fun a => (tell a).inlined := by
  induction l with
  | nil => rfl
  | cons a rest ih => simp [gather, ih]

theorem gather_vars : (gather tell l).vars = l.flatMap fun a => (tell a).vars := by
  induction l with
  | nil => rfl
  | cons a rest ih => simp [gather, ih]

theorem gather_insts : (gather tell l).insts = l.flatMap fun a => (tell a).insts := by
  induction l with
  | nil => rfl
  | cons a rest ih => simp [gather, ih]

variable {tell l} in
theorem mem_gather_insts {p : Placement ν} : p ∈ (gather tell l).insts ↔
    ∃ a ∈ l, p ∈ (tell a).insts := by
  rw [gather_insts, List.mem_flatMap]

end Findings

def Event.findings : Event ν → Findings ν
  | .define id kind op => { Findings.none with defined := [⟨id, kind, op⟩] }
  | .inlineModule id name scope parent =>
    { Findings.none with inlined := [⟨id, name, scope, parent⟩] }
  | .addVariable _ _ node => { Findings.none with vars := [node] }
  | .addInstance _ _ owner node => { Findings.none with insts := [⟨owner, node⟩] }
  | _ => .none

namespace Hierarchy

def labelAt (h : Hierarchy ν) (i : Nat) : Option (ν × Origin) :=
  h.store.modules[i]?.map fun m => (m.name, m.origin)

def listsAt (h : Hierarchy ν) (i : Nat) : Option (Array VariableId × Array InstanceId) :=
  h.store.modules[i]?.map fun m => (m.vars, m.insts)

def moduleCount (h : Hierarchy ν) : Nat := h.store.modules.size

end Hierarchy

/-- What an event needs of the hierarchy it is recorded in: new handles are the next free ones, and
all others are those of modules that are there. -/
def Event.Fits [DecidableEq ν] (h : Hierarchy ν) : Event ν → Prop
  | .register id name => id = h.store.nextModule ∧ h.find? name = none
  | .define id _ _ => ∃ name, h.labelAt id.index = some (name, .referenced)
  | .inlineModule id _ _ parent => id = h.store.nextModule ∧ parent.index < h.moduleCount
  | .setInfo id _ | .setEnum id _ _ | .surveyed id _ => id.index < h.moduleCount
  | .addVariable _ id node => id = h.store.nextVariable ∧ node.owner.index < h.moduleCount
  | .addInstance _ id owner node =>
    id = h.store.nextInstance ∧ owner.index < h.moduleCount ∧ node.target.index < h.moduleCount
  | .collect .. | .replaceInfo .. | .keepEnum .. | .looseScope .. | .built .. => True

namespace Hierarchy

variable {h : Hierarchy ν}

theorem labelAt_lt {i : Nat} {l : ν × Origin} (found : h.labelAt i = some l) :
    i < h.moduleCount := by
  obtain ⟨m, hm, _⟩ := Option.map_eq_some_iff.1 found
  exact (Array.getElem?_eq_some_iff.1 hm).1

theorem listsAt_of_lt {i : Nat} (there : i < h.moduleCount) :
    ∃ vs is, h.listsAt i = some (vs, is) := by
  unfold listsAt
  rw [Array.getElem?_eq_getElem there]
  exact ⟨_, _, rfl⟩

@[simp] theorem labelAt_size : h.labelAt h.store.modules.size = none := by simp [labelAt]

/-- Changing a module in other respects keeps every name and origin. -/
theorem labelAt_modifyModule {s : Store ν} {id : ModuleId} {change : ModuleNode ν → ModuleNode ν}
    (c : Catalog ν) (same : ∀ m, (change m).name = m.name ∧ (change m).origin = m.origin)
    (i : Nat) :
    labelAt ⟨s.modifyModule id change, c⟩ i = labelAt ⟨s, c⟩ i := by
  simp only [labelAt, Store.modifyModule, Array.getElem?_modify]
  split
  · cases s.modules[i]? <;> simp [same]
  · rfl

/-- Changing a module in other respects keeps every list. -/
theorem listsAt_modifyModule {s : Store ν} {id : ModuleId} {change : ModuleNode ν → ModuleNode ν}
    (c : Catalog ν) (same : ∀ m, (change m).vars = m.vars ∧ (change m).insts = m.insts) (i : Nat) :
    listsAt ⟨s.modifyModule id change, c⟩ i = listsAt ⟨s, c⟩ i := by
  simp only [listsAt, Store.modifyModule, Array.getElem?_modify]
  split
  · cases s.modules[i]? <;> simp [same]
  · rfl

theorem labelAt_addModule (s : Store ν) (c c' : Catalog ν) (m : ModuleNode ν) (i : Nat) :
    labelAt ⟨s.addModule m, c'⟩ i =
      if i = s.modules.size then some (m.name, m.origin) else labelAt ⟨s, c⟩ i := by
  simp only [labelAt, Store.addModule, Array.getElem?_push]
  split <;> rfl

theorem listsAt_addModule (s : Store ν) (c c' : Catalog ν) (m : ModuleNode ν) (i : Nat) :
    listsAt ⟨s.addModule m, c'⟩ i =
      if i = s.modules.size then some (m.vars, m.insts) else listsAt ⟨s, c⟩ i := by
  simp only [listsAt, Store.addModule, Array.getElem?_push]
  split <;> rfl

end Hierarchy

namespace Hierarchy

/-- A module that was only referred to gets its definition, and no other label changes. -/
theorem labelAt_define {h : Hierarchy ν} {id : ModuleId} {name : ν}
    (undefined : h.labelAt id.index = some (name, .referenced)) (kind : ModuleKind) (op : OpId)
    (i : Nat) : (h.apply (.define id kind op)).labelAt i =
      if i = id.index then some (name, .defined kind op) else h.labelAt i := by
  simp only [apply, labelAt, Store.modifyModule, Array.getElem?_modify]
  obtain ⟨m, hm, label⟩ := Option.map_eq_some_iff.1 undefined
  obtain ⟨rfl, _⟩ := Prod.mk.inj label
  split
  · next same => rw [if_pos same.symm, ← same, hm]; rfl
  · next other => rw [if_neg (Ne.symm other)]

theorem find?_register [DecidableEq ν] (h : Hierarchy ν) (id : ModuleId) (name n : ν) :
    (h.apply (.register id name)).find? n =
      (h.find? n).or (if name = n then some id else none) := by
  simp only [find?, Catalog.find?, apply, Catalog.register, LookupMap.find?_push, Option.map_or]
  split <;> rfl

/-- A definition changes no name's module. -/
theorem find?_define [DecidableEq ν] (h : Hierarchy ν) (id : ModuleId) (kind : ModuleKind)
    (op : OpId) (n : ν) : (h.apply (.define id kind op)).find? n = h.find? n := by
  simp [find?, Catalog.find?, apply, Catalog.define, LookupMap.find?_map, Function.comp_def]

/-- A name once met keeps its module. -/
theorem find?_apply [DecidableEq ν] {h : Hierarchy ν} {name : ν} {id : ModuleId}
    (found : h.find? name = some id) (e : Event ν) :
    (h.apply e).find? name = some id := by
  cases e with
  | register j n => rw [find?_register, found]; rfl
  | define j kind op => rwa [find?_define]
  | _ => exact found

theorem moduleCount_apply (h : Hierarchy ν) (e : Event ν) :
    (h.apply e).moduleCount = h.moduleCount + match e with
      | .register .. | .inlineModule .. => 1
      | _ => 0 := by
  cases e <;>
    simp [moduleCount, apply, Store.addModule, Store.modifyModule, Store.addVariable,
      Store.addInstance]

end Hierarchy

/-! ### What the findings tell of the modules -/

/-- Inline modules, definitions and the catalog are those that the findings tell. -/
structure Labels [DecidableEq ν] (h : Hierarchy ν) (f : Findings ν) : Prop where
  inlined : ∀ {x}, x ∈ f.inlined ↔ h.labelAt x.id.index = some (x.name, .scope x.scope x.parent)
  defined : ∀ {x}, x ∈ f.defined ↔ ∃ name, h.labelAt x.id.index = some (name, .defined x.kind x.op)
  catalog : ∀ {name id}, h.find? name = some id ↔
    ∃ origin, h.labelAt id.index = some (name, origin) ∧ ∀ s p, origin ≠ .scope s p
  /-- The slot of a name has the definition that the name's module has. -/
  slots : ∀ e ∈ h.catalog.slots.entries, ∃ origin, h.labelAt e.2.id.index = some (e.1, origin) ∧
    e.2.definition = origin.definition?

/-- Every variable and every instance is listed by the module that owns
it, in the order of creation. -/
structure Lists (h : Hierarchy ν) (f : Findings ν) : Prop where
  vars : h.store.vars.toList = f.vars
  insts : h.store.insts.toList = f.insts.map (·.node)
  lists : ∀ {i vs is}, h.listsAt i = some (vs, is) →
    vs.toList = positions (·.owner.index = i) f.vars ∧
      is.toList = positions (·.owner.index = i) f.insts
  varOwners : ∀ v ∈ f.vars, v.owner.index < h.moduleCount
  instOwners : ∀ p ∈ f.insts, p.owner.index < h.moduleCount

section Keeping

variable {h : Hierarchy ν} {f : Findings ν} {e : Event ν}

theorem Labels.of_same [DecidableEq ν] {h' : Hierarchy ν} (l : Labels h f)
    (labels : ∀ i, h'.labelAt i = h.labelAt i) (catalog : h'.catalog = h.catalog) :
    Labels h' f where
  inlined := by simp only [labels]; exact l.inlined
  defined := by simp only [labels]; exact l.defined
  catalog := by simp only [labels, Hierarchy.find?, catalog]; exact l.catalog
  slots := by simp only [labels, catalog]; exact l.slots

/-- Findings without definitions and inline modules tell nothing of names and origins. -/
theorem Labels.append_of_quiet [DecidableEq ν] (l : Labels h f) {g : Findings ν}
    (defined : g.defined = []) (inlined : g.inlined = []) : Labels h (f ++ g) where
  inlined := by rw [Findings.inlined_append, inlined, List.append_nil]; exact l.inlined
  defined := by rw [Findings.defined_append, defined, List.append_nil]; exact l.defined
  catalog := l.catalog
  slots := l.slots

/-- A new module leaves every slot with the definition of its module. -/
theorem Labels.slot_kept [DecidableEq ν] (l : Labels h f) {h' : Hierarchy ν}
    {label : Option (ν × Origin)}
    (labels : ∀ i, h'.labelAt i = if i = h.store.modules.size then label else h.labelAt i)
    {e : ν × Slot} (he : e ∈ h.catalog.slots.entries) :
    ∃ origin, h'.labelAt e.2.id.index = some (e.1, origin) ∧
      e.2.definition = origin.definition? := by
  obtain ⟨origin, there, definition⟩ := l.slots e he
  have old : e.2.id.index ≠ h.store.modules.size := Nat.ne_of_lt (Hierarchy.labelAt_lt there)
  exact ⟨origin, (labels _).trans ((if_neg old).trans there), definition⟩

/-- A name gets a module that nothing else was said of. -/
theorem Labels.register [DecidableEq ν] (l : Labels h f) {name : ν} (fresh : h.find? name = none) :
    Labels (h.apply (.register h.store.nextModule name)) f := by
  have labels := Hierarchy.labelAt_addModule h.store h.catalog
    (h.catalog.register h.store.nextModule name) (.bare name .referenced)
  refine ⟨?_, ?_, ?_, ?_⟩
  · intro x
    rw [l.inlined, Hierarchy.apply, labels]
    split
    · next new => rw [new, Hierarchy.labelAt_size]; simp [ModuleNode.bare]
    · rfl
  · intro x
    rw [l.defined, Hierarchy.apply, labels]
    split
    · next new => rw [new, Hierarchy.labelAt_size]; simp [ModuleNode.bare]
    · rfl
  · intro n id
    rw [Hierarchy.find?_register, Option.or_eq_some_iff, l.catalog, Hierarchy.apply, labels]
    by_cases new : id.index = h.store.modules.size
    · rw [if_pos new, new, Hierarchy.labelAt_size]
      constructor
      · rintro (⟨origin, found, _⟩ | ⟨_, found⟩)
        · cases found
        · split at found
          · next same => exact ⟨.referenced, by rw [← same]; rfl, nofun⟩
          · cases found
      · rintro ⟨origin, found, _⟩
        cases found
        exact .inr ⟨fresh, (if_pos rfl).trans (congrArg some (Handle.ext new.symm))⟩
    · rw [if_neg new]
      constructor
      · rintro (old | ⟨_, found⟩)
        · exact old
        · split at found
          · cases found
            exact absurd rfl new
          · cases found
      · exact .inl
  · intro e he
    rcases List.mem_append.1 he with old | new
    · exact l.slot_kept labels old
    · rw [List.mem_singleton.1 new]
      exact ⟨.referenced, (labels _).trans (if_pos rfl), rfl⟩

/-- A module that was only referred to gets its definition. -/
theorem Labels.define [DecidableEq ν] (l : Labels h f) {id : ModuleId} {kind : ModuleKind}
    {op : OpId} {name : ν} (undefined : h.labelAt id.index = some (name, .referenced)) :
    Labels (h.apply (.define id kind op)) (f ++ (Event.define id kind op).findings) := by
  have labels := Hierarchy.labelAt_define undefined kind op
  refine ⟨?_, ?_, ?_, ?_⟩
  · intro x
    rw [labels]
    simp only [Event.findings, Findings.inlined_append, Findings.none, List.append_nil, l.inlined]
    split
    · next same => rw [same, undefined]; simp
    · rfl
  · intro x
    rw [labels]
    simp only [Event.findings, Findings.defined_append, List.mem_append,
      List.mem_singleton, l.defined]
    split
    · next same =>
      rw [same, undefined]
      constructor
      · rintro (⟨n, found⟩ | rfl)
        · cases found
        · exact ⟨name, rfl⟩
      · rintro ⟨n, found⟩
        obtain ⟨i, k, o⟩ := x
        obtain rfl : i = id := Handle.ext same
        cases found
        exact .inr rfl
    · next other =>
      constructor
      · rintro (old | rfl)
        · exact old
        · exact absurd rfl other
      · exact .inl
  · intro n j
    rw [labels, Hierarchy.find?_define, l.catalog]
    split
    · next same => rw [same, undefined]; simp
    · rfl
  · intro e he
    obtain ⟨old, hold, rfl⟩ := List.mem_map.1 he
    obtain ⟨origin, label, definition⟩ := l.slots old hold
    simp only [labels, Slot.define_id]
    by_cases same : old.2.id = id
    · rw [same, undefined] at label
      cases label
      rw [if_pos (congrArg _ same), Slot.define, if_pos same]
      exact ⟨_, rfl, rfl⟩
    · rw [if_neg fun here => same (Handle.ext here), Slot.define, if_neg same]
      exact ⟨origin, label, definition⟩

/-- A scope gets an inline module. -/
theorem Labels.inlineModule [DecidableEq ν] (l : Labels h f) {name : ν} {scope : OpId}
    {parent : ModuleId} :
    Labels (h.apply (.inlineModule h.store.nextModule name scope parent))
      (f ++ (Event.inlineModule h.store.nextModule name scope parent).findings) := by
  have labels := Hierarchy.labelAt_addModule h.store h.catalog h.catalog
    (.bare name (.scope scope parent))
  refine ⟨?_, ?_, ?_, ?_⟩
  · intro x
    rw [Hierarchy.apply, labels]
    simp only [Event.findings, Findings.inlined_append, List.mem_append,
      List.mem_singleton, l.inlined]
    split
    · next new =>
      rw [new, Hierarchy.labelAt_size]
      constructor
      · rintro (old | rfl)
        · cases old
        · rfl
      · intro found
        obtain ⟨i, n, s, p⟩ := x
        obtain rfl : i = h.store.nextModule := Handle.ext new
        cases found
        exact .inr rfl
    · next other =>
      constructor
      · rintro (old | rfl)
        · exact old
        · exact absurd rfl other
      · exact .inl
  · intro x
    rw [Hierarchy.apply, labels]
    simp only [Event.findings, Findings.defined_append, Findings.none, List.append_nil, l.defined]
    split
    · next new => rw [new, Hierarchy.labelAt_size]; simp [ModuleNode.bare]
    · rfl
  · intro n id
    have same : (h.apply (.inlineModule h.store.nextModule name scope parent)).find? n =
        h.find? n := rfl
    rw [same, l.catalog, Hierarchy.apply, labels]
    split
    · next new => rw [new, Hierarchy.labelAt_size]; simp [ModuleNode.bare]
    · rfl
  · exact fun e he => l.slot_kept labels he

/-- Names, origins and the catalog stay as the findings tell them. -/
theorem Labels.apply [DecidableEq ν] (l : Labels h f) (fits : e.Fits h) :
    Labels (h.apply e) (f ++ e.findings) := by
  cases e with
  | register id name =>
    obtain ⟨rfl, fresh⟩ := fits
    exact (l.register fresh).append_of_quiet rfl rfl
  | define id kind op =>
    obtain ⟨name, undefined⟩ := fits
    exact l.define undefined
  | inlineModule id name scope parent =>
    obtain ⟨rfl, _⟩ := fits
    exact l.inlineModule
  | addVariable | addInstance | setInfo | setEnum | surveyed =>
    apply Labels.append_of_quiet _ rfl rfl
    exact l.of_same (Hierarchy.labelAt_modifyModule h.catalog fun m => ⟨rfl, rfl⟩) rfl
  | collect | replaceInfo | keepEnum | looseScope | built => exact l.append_of_quiet rfl rfl

theorem Lists.of_same {h' : Hierarchy ν} (l : Lists h f)
    (lists : ∀ i, h'.listsAt i = h.listsAt i) (count : h'.moduleCount = h.moduleCount)
    (vars : h'.store.vars = h.store.vars) (insts : h'.store.insts = h.store.insts) :
    Lists h' f where
  vars := vars ▸ l.vars
  insts := insts ▸ l.insts
  lists found := l.lists (lists _ ▸ found)
  varOwners := count ▸ l.varOwners
  instOwners := count ▸ l.instOwners

/-- Findings without variables and instances tell nothing of lists. -/
theorem Lists.append_of_quiet (l : Lists h f) {g : Findings ν} (vars : g.vars = [])
    (insts : g.insts = []) :
    Lists h (f ++ g) := by
  have sameVars : (f ++ g).vars = f.vars := by rw [Findings.vars_append, vars, List.append_nil]
  have sameInsts : (f ++ g).insts = f.insts := by rw [Findings.insts_append, insts, List.append_nil]
  refine ⟨?_, ?_, ?_, ?_, ?_⟩ <;> simp only [sameVars, sameInsts]
  exacts [l.vars, l.insts, l.lists, l.varOwners, l.instOwners]

/-- A new module lists nothing, and nothing that is there belongs to it. -/
theorem Lists.addModule (l : Lists h f) {m : ModuleNode ν} (noVars : m.vars = #[])
    (noInsts : m.insts = #[]) (c : Catalog ν) : Lists ⟨h.store.addModule m, c⟩ f := by
  have count : Hierarchy.moduleCount ⟨h.store.addModule m, c⟩ = h.moduleCount + 1 := by
    simp [Hierarchy.moduleCount, Store.addModule]
  refine ⟨l.vars, l.insts, ?_, ?_, ?_⟩
  · intro i vs is found
    rw [Hierarchy.listsAt_addModule h.store h.catalog] at found
    split at found
    · next new =>
      cases found
      have above {j : Nat} (below : j < h.moduleCount) : decide (j = i) = false :=
        decide_eq_false (by unfold Hierarchy.moduleCount at below; omega)
      rw [noVars, noInsts, positions_eq_nil fun v hv => above (l.varOwners v hv),
        positions_eq_nil fun p hp => above (l.instOwners p hp)]
      exact ⟨rfl, rfl⟩
    · exact l.lists found
  · intro v hv
    have := l.varOwners v hv
    omega
  · intro p hp
    have := l.instOwners p hp
    omega

/-- A new variable is listed last by its owner. -/
theorem Lists.addVariable (l : Lists h f) {origin : VariableOrigin} {id : VariableId}
    {node : VariableNode ν} (owner : node.owner.index < h.moduleCount) :
    Lists (h.apply (.addVariable origin id node))
      (f ++ (Event.addVariable origin id node).findings) := by
  have count : (h.apply (.addVariable origin id node)).moduleCount = h.moduleCount := by
    simp [Hierarchy.moduleCount, Hierarchy.apply, Store.addVariable, Store.modifyModule]
  have fresh : h.store.vars.size = f.vars.length := by rw [← l.vars, Array.length_toList]
  refine ⟨?_, ?_, ?_, ?_, ?_⟩
  · simp [Hierarchy.apply, Store.addVariable, Store.modifyModule, Event.findings, l.vars]
  · simpa [Hierarchy.apply, Store.addVariable, Store.modifyModule, Event.findings, Findings.none]
      using l.insts
  · intro i vs is found
    simp only [Event.findings, Findings.vars_append, Findings.insts_append, Findings.none,
      List.append_nil, positions_append_singleton]
    simp only [Hierarchy.listsAt, Hierarchy.apply, Store.addVariable, Store.modifyModule,
      Array.getElem?_modify] at found
    split at found
    · next same =>
      obtain ⟨m', hm', both⟩ := Option.map_eq_some_iff.1 found
      obtain ⟨m, hm, rfl⟩ := Option.map_eq_some_iff.1 hm'
      cases both
      obtain ⟨hv, hi⟩ := l.lists (i := i) (by rw [Hierarchy.listsAt, hm]; rfl)
      rw [if_pos (decide_eq_true same), Array.toList_push, hv, fresh]
      exact ⟨rfl, hi⟩
    · next other =>
      rw [if_neg (by simpa using other), List.append_nil]
      exact l.lists found
  · intro v hv
    rw [count]
    rcases List.mem_append.1 hv with hv | hv
    · exact l.varOwners v hv
    · rw [List.mem_singleton.1 hv]
      exact owner
  · intro p hp
    rw [count]
    exact l.instOwners p (by simpa [Event.findings, Findings.none] using hp)

/-- A new instance is listed last by its owner. -/
theorem Lists.addInstance (l : Lists h f) {origin : InstanceOrigin} {id : InstanceId}
    {owner : ModuleId} {node : InstanceNode ν} (inside : owner.index < h.moduleCount) :
    Lists (h.apply (.addInstance origin id owner node))
      (f ++ (Event.addInstance origin id owner node).findings) := by
  have count : (h.apply (.addInstance origin id owner node)).moduleCount = h.moduleCount := by
    simp [Hierarchy.moduleCount, Hierarchy.apply, Store.addInstance, Store.modifyModule]
  have fresh : h.store.insts.size = f.insts.length := by
    rw [← Array.length_toList, l.insts, List.length_map]
  refine ⟨?_, ?_, ?_, ?_, ?_⟩
  · simpa [Hierarchy.apply, Store.addInstance, Store.modifyModule, Event.findings, Findings.none]
      using l.vars
  · simp [Hierarchy.apply, Store.addInstance, Store.modifyModule, Event.findings, l.insts]
  · intro i vs is found
    simp only [Event.findings, Findings.vars_append, Findings.insts_append, Findings.none,
      List.append_nil, positions_append_singleton]
    simp only [Hierarchy.listsAt, Hierarchy.apply, Store.addInstance, Store.modifyModule,
      Array.getElem?_modify] at found
    split at found
    · next same =>
      obtain ⟨m', hm', both⟩ := Option.map_eq_some_iff.1 found
      obtain ⟨m, hm, rfl⟩ := Option.map_eq_some_iff.1 hm'
      cases both
      obtain ⟨hv, hi⟩ := l.lists (i := i) (by rw [Hierarchy.listsAt, hm]; rfl)
      rw [if_pos (decide_eq_true same), Array.toList_push, hi, fresh]
      exact ⟨hv, rfl⟩
    · next other =>
      rw [if_neg (by simpa using other), List.append_nil]
      exact l.lists found
  · intro v hv
    rw [count]
    exact l.varOwners v (by simpa [Event.findings, Findings.none] using hv)
  · intro p hp
    rw [count]
    rcases List.mem_append.1 hp with hp | hp
    · exact l.instOwners p hp
    · rw [List.mem_singleton.1 hp]
      exact inside

/-- What belongs to a module stays listed by it. -/
theorem Lists.apply [DecidableEq ν] (l : Lists h f) (fits : e.Fits h) :
    Lists (h.apply e) (f ++ e.findings) := by
  cases e with
  | register | inlineModule => exact (l.addModule rfl rfl _).append_of_quiet rfl rfl
  | addVariable origin id node => exact l.addVariable fits.2
  | addInstance origin id owner node => exact l.addInstance fits.2.1
  | define | setInfo | setEnum | surveyed =>
    apply Lists.append_of_quiet _ rfl rfl
    exact l.of_same (Hierarchy.listsAt_modifyModule _ fun m => ⟨rfl, rfl⟩)
      (Hierarchy.moduleCount_apply _ _) rfl rfl
  | collect | replaceInfo | keepEnum | looseScope | built => exact l.append_of_quiet rfl rfl

end Keeping

namespace Progress

variable [DecidableEq ν]

/-- `q` is `p` with more events recorded, each of which fits. -/
inductive Writes : Progress ν → List (Event ν) → Progress ν → Prop
  | nil (p : Progress ν) : Writes p [] p
  | cons {p q : Progress ν} {e : Event ν} {es : List (Event ν)} :
      e.Fits p.hierarchy → Writes (p.record e) es q → Writes p (e :: es) q

theorem Writes.append {p q r : Progress ν} {es fs : List (Event ν)} (first : p.Writes es q)
    (next : q.Writes fs r) : p.Writes (es ++ fs) r := by
  induction first with
  | nil => exact next
  | cons fits _ ih => exact .cons fits (ih next)

/-- Fitting events lead from `p` to `q`, and these are their findings. -/
def Leads (p : Progress ν) (f : Findings ν) (q : Progress ν) : Prop :=
  ∃ es, p.Writes es q ∧ .gather Event.findings es = f

variable {p q r : Progress ν} {f g : Findings ν}

theorem Leads.refl (p : Progress ν) : p.Leads .none p := ⟨[], .nil p, rfl⟩

theorem Leads.trans (first : p.Leads f q) (next : q.Leads g r) : p.Leads (f ++ g) r := by
  obtain ⟨es, hes, rfl⟩ := first
  obtain ⟨fs, hfs, rfl⟩ := next
  exact ⟨es ++ fs, hes.append hfs, Findings.gather_append _ _ _⟩

theorem Leads.record {e : Event ν} (fits : e.Fits p.hierarchy) : p.Leads e.findings (p.record e) :=
  ⟨[e], .cons fits (.nil _), Findings.append_none _⟩

theorem Leads.labels (leads : p.Leads f q) (l : Labels p.hierarchy g) :
    Labels q.hierarchy (g ++ f) := by
  obtain ⟨es, hes, rfl⟩ := leads
  induction hes generalizing g with
  | nil => exact (Findings.append_none g).symm ▸ l
  | cons fits _ ih => exact Findings.append_assoc _ _ _ ▸ ih (l.apply fits)

theorem Leads.lists (leads : p.Leads f q) (l : Lists p.hierarchy g) :
    Lists q.hierarchy (g ++ f) := by
  obtain ⟨es, hes, rfl⟩ := leads
  induction hes generalizing g with
  | nil => exact (Findings.append_none g).symm ▸ l
  | cons fits _ ih => exact Findings.append_assoc _ _ _ ▸ ih (l.apply fits)

/-- A name once met keeps its module for good. -/
theorem Leads.find? (leads : p.Leads f q) {name : ν} {id : ModuleId}
    (found : p.hierarchy.find? name = some id) : q.hierarchy.find? name = some id := by
  obtain ⟨es, hes, _⟩ := leads
  clear * - hes found
  induction hes with
  | nil => exact found
  | cons _ _ ih => exact ih (Hierarchy.find?_apply found _)

theorem Leads.moduleCount_le (leads : p.Leads f q) :
    p.hierarchy.moduleCount ≤ q.hierarchy.moduleCount := by
  obtain ⟨es, hes, _⟩ := leads
  clear * - hes
  induction hes with
  | nil => exact Nat.le_refl _
  | @cons p q e es fits _ ih =>
    exact Nat.le_trans (Nat.le.intro (Hierarchy.moduleCount_apply p.hierarchy e).symm) ih

theorem labels_start : Labels (Progress.start : Progress ν).hierarchy .none where
  inlined := by simp [Findings.none, start, Hierarchy.empty, Hierarchy.labelAt, Store.empty]
  defined := by simp [Findings.none, start, Hierarchy.empty, Hierarchy.labelAt, Store.empty]
  catalog := by
    simp [start, Hierarchy.empty, Hierarchy.labelAt, Store.empty, Hierarchy.find?, Catalog.find?,
      Catalog.empty]
  slots := by simp [start, Hierarchy.empty, Catalog.empty, LookupMap.empty]

theorem lists_start {ν : Type} : Lists (Progress.start : Progress ν).hierarchy .none where
  vars := rfl
  insts := rfl
  lists found := by simp [start, Hierarchy.empty, Hierarchy.listsAt, Store.empty] at found
  varOwners := by simp [Findings.none]
  instOwners := by simp [Findings.none]

end Progress

end DebugHierarchy
