import DebugHierarchy.Proofs.Metadata
import DebugHierarchy.Proofs.Registry

/-!
What a reader sees of a module without its handles.

Handles tell in which order a design was read. A view leaves them out: modules are told by
name, values by where they stand in their module, and an inline module is seen in place of
the handle that leads to it.

* `Hierarchy.viewOf`: the view of a module, down to a depth;
* `Design.shows`: what a definition shows, read off the design;
* `Collected.viewOf_owner`, `Registered.viewOf_referenced`: a module with a definition is seen as
  the definition shows it, and of any other nothing is seen but its name.
-/

namespace DebugHierarchy

variable {ν : Type}

/-- Where a value stands in its module. -/
inductive ValuePlace where
  /-- It is the input with this position. -/
  | input (position : Nat)
  /-- It is the value of this position among those that the body creates. -/
  | created (position : Nat)
  /-- It is a value of another module. -/
  | elsewhere (id : ValueId)
  deriving DecidableEq, Repr

namespace Design

def createdIn (d : Design ν) (block : BlockId) : List ValueId :=
  (d.bodyOf block).flatMap (·.2.results)

/-- Where a value stands in the module whose body is `block`. -/
def placeIn (d : Design ν) (block : BlockId) (v : ValueId) : ValuePlace :=
  match (d.argsOf block).idxOf? v, (d.createdIn block).idxOf? v with
  | some i, _ => .input i
  | none, some i => .created i
  | none, none => .elsewhere v

end Design

structure VariableFace (ν : Type) where
  name : ν
  loc : SourceLoc ν
  sourceType : Option (SourceType ν)
  enumId : Option EnumId
  value : Option ValuePlace
  deriving DecidableEq, Repr

def VariableNode.face (place : ValueId → ValuePlace) (v : VariableNode ν) : VariableFace ν :=
  ⟨v.name, v.loc, v.sourceType, v.enumId, v.value.map place⟩

structure ModuleFace (ν : Type) where
  name : ν
  isExtern : Bool
  /-- The module comes from an operation of the design. -/
  isDefined : Bool
  notes : Notes ν
  deriving DecidableEq

def ModuleNode.face (m : ModuleNode ν) : ModuleFace ν := ⟨m.name, m.isExtern, m.op?.isSome, m.notes⟩

/-- What is seen of a module, down to some depth. -/
inductive View (ν : Type) where
  /-- Too deep to be seen. -/
  | cut
  /-- A module that has a name of its own, as an instance shows it. -/
  | named (name : ν)
  /-- A module with its variables and its instances, these with the modules they lead to. -/
  | shown (face : Option (ModuleFace ν)) (vars : List (VariableFace ν)) (insts : List (ν × View ν))

namespace Hierarchy

variable (d : Design ν) (h : Hierarchy ν)

/-- The body of the definition that a module, or the module around it, comes from. -/
def bodyBlock? (id : ModuleId) : Option BlockId := do
  match (← d.ops[(← h.opOf (h.home id)).index]?).payload with
  | .module _ _ block => some block
  | _ => none

/-- Where a value stands in a module or in the module around it. -/
def placeOf (id : ModuleId) (v : ValueId) : ValuePlace :=
  match h.bodyBlock? d id with
  | some block => d.placeIn block v
  | none => .elsewhere v

/-- What is seen of an instance; `inner` is the view of an inline module. -/
def instanceFace (inner : ModuleId → View ν) (i : InstanceNode ν) : ν × View ν :=
  (i.name,
    match h.labelAt i.target.index with
    | some (_, .scope ..) => inner i.target
    | some (name, _) => .named name
    | none => .cut)

/-- The view of a module down to some depth: an inline module is one level deeper than
the instance that leads to it. -/
def viewOf : (depth : Nat) → ModuleId → View ν
  | 0, _ => .cut
  | depth + 1, id =>
    .shown (h.store.modules[id.index]?.map (·.face)) ((h.varsOf id).map (·.face (h.placeOf d id)))
      ((h.instsOf id).map (h.instanceFace (viewOf depth)))

end Hierarchy

namespace View

/-- The view of a module of which only the name is known. -/
def ofName (name : ν) : (depth : Nat) → View ν
  | 0 => .cut
  | _ + 1 => .shown (some ⟨name, false, false, .none⟩) [] []

def ofExtern (name : ν) (ports : List (Port ν)) : (depth : Nat) → View ν
  | 0 => .cut
  | _ + 1 => .shown (some ⟨name, true, true, .none⟩)
    (ports.map fun port => ⟨port.name, port.loc, none, none, none⟩) []

end View

namespace Design

variable (d : Design ν) (ports : List (Port ν)) (block : BlockId)

/-- What is seen of the annotations of a body at a level: at the outermost
one or in a scope of the body. -/
def annotatedAt (level : Option OpId) (e : Entry ν) : Option (VariableFace ν) :=
  e.2.payload.annotation?.bind fun note =>
    if d.scopeIn (d.bodyOf block) note.scope = level then
      some ⟨note.name, e.2.loc, SourceType.ofParts note.typeName note.params,
        d.enumIn (d.bodyOf block) note.enumDef, some (d.placeIn block note.value)⟩
    else none

def portFace (port : Port ν) : VariableFace ν :=
  ⟨port.name, port.loc, none, none, (d.portValue? block port).map (d.placeIn block)⟩

def wireFace (e : Entry ν) : Option (VariableFace ν) :=
  match e.2.payload with
  | .wire name _ => some ⟨name, e.2.loc, none, none, e.2.result?.map (d.placeIn block)⟩
  | _ => none

def varsAt (level : Option OpId) : List (VariableFace ν) :=
  if hasVariable (d.bodyOf block) then (d.bodyOf block).filterMap (d.annotatedAt block level)
  else if level = none then ports.map (d.portFace block) ++
    (d.bodyOf block).filterMap (d.wireFace block)
  else []

/-- What is seen of the scopes of a body at a level; `inner` is the view of a scope. -/
def openedAt (inner : OpId → View ν) (level : Option OpId) (e : Entry ν) : Option (ν × View ν) :=
  e.2.payload.scope?.bind fun note =>
    if d.scopeIn (d.bodyOf block) note.scope = level then some (note.name, inner e.1) else none

def instFace (e : Entry ν) : Option (ν × View ν) :=
  match e.2.payload with
  | .inst name moduleName _ => some (name, .named moduleName)
  | _ => none

def instsAt (inner : OpId → View ν) (level : Option OpId) : List (ν × View ν) :=
  if hasScope (d.bodyOf block) then (d.bodyOf block).filterMap (d.openedAt block inner level)
  else if level = none then (d.bodyOf block).filterMap instFace
  else []

/-- What is seen of a module, or of the inline module of a scope of its body, by itself. -/
def faceAt (name : ν) : (level : Option OpId) → Option (ModuleFace ν)
  | none => some ⟨name, false, true, notesOf (d.bodyOf block)⟩
  | some scope => ((scopesOf (d.bodyOf block)).lookup scope).map fun note =>
    ⟨note.moduleName, false, true, .none⟩

/-- What a module definition shows at a level, down to some depth. -/
def bodyView (name : ν) : (depth : Nat) → (level : Option OpId) → View ν
  | 0, _ => .cut
  | depth + 1, level =>
    .shown (d.faceAt block name level) (d.varsAt ports block level)
      (d.instsAt block (fun scope => bodyView name depth (some scope)) level)

def shows (e : Entry ν) (depth : Nat) : View ν :=
  match e.2.payload with
  | .module name ports block => d.bodyView ports block name depth none
  | .externModule name ports => .ofExtern name ports depth
  | _ => .cut

end Design

/-! ### Levels of a module -/

/-- The module that stands for a level of a module: the module itself, or
the inline module of a scope. -/
def Hierarchy.moduleAt (h : Hierarchy ν) (owner : ModuleId) (level : Option OpId) : ModuleId :=
  (level.bind h.inline?).getD owner

/-- The outermost level of a body or that of one of its scopes. -/
def LevelOf (body : List (Entry ν)) (level : Option OpId) : Prop :=
  ∀ scope ∈ level, ∃ note, (scope, note) ∈ scopesOf body

theorem levelOf_none (body : List (Entry ν)) : LevelOf body none := nofun

theorem levelOf_scopeIn (d : Design ν) (body : List (Entry ν)) (ref : Option ValueId) :
    LevelOf body (d.scopeIn body ref) := fun _ found => (Design.scopeIn_eq_some_iff.1 found).2

theorem filterMap_filter_map {α β γ : Type} (f : α → Option β) (test : β → Bool) (g : β → γ)
    (l : List α) :
    ((l.filterMap f).filter test).map g = l.filterMap fun a => ((f a).filter test).map g := by
  rw [List.filter_filterMap, List.map_filterMap]

namespace Collected

variable [DecidableEq ν] {d : Design ν} {F : Forest ν} {accounts : List (Account ν)}
  {q : Progress ν} {a : Account ν} {level level' : Option OpId}

section

variable (c : Collected d accounts d.definitions q) (n : Nesting d F) (ha : a ∈ accounts)

include c n ha

/-- A level stands for a module of the family that tells the level. -/
theorem label_of_level (here : LevelOf (d.bodyIn a.entry) level) : ∃ name origin,
    q.hierarchy.labelAt (q.hierarchy.moduleAt a.owner level).index = some (name, origin) ∧
      match level with
      | none => ∃ kind, origin = .defined kind a.entry.1
      | some scope => origin = .scope scope a.owner ∧
        ∃ note, (scope, note) ∈ scopesOf (d.bodyIn a.entry) ∧ note.moduleName = name := by
  cases level with
  | none =>
    obtain ⟨name, kind, label⟩ := c.label_of_owner ha
    exact ⟨name, _, label, kind, rfl⟩
  | some scope =>
    obtain ⟨note, member⟩ := here scope rfl
    obtain ⟨inline, known, label⟩ := c.inline_of_scope n ha member
    refine ⟨note.moduleName, _, ?_, rfl, note, member, rfl⟩
    rw [Hierarchy.moduleAt, Option.bind_some, known, Option.getD_some, label]

theorem home_moduleAt (here : LevelOf (d.bodyIn a.entry) level) :
    q.hierarchy.home (q.hierarchy.moduleAt a.owner level) = a.owner := by
  obtain ⟨name, origin, label, told⟩ := c.label_of_level n ha here
  cases level with
  | none => exact c.home_owner ha
  | some scope => rw [Hierarchy.home, label, told.1]

theorem moduleAt_lt (here : LevelOf (d.bodyIn a.entry) level) :
    (q.hierarchy.moduleAt a.owner level).index < q.hierarchy.moduleCount := by
  obtain ⟨_, _, label, _⟩ := c.label_of_level n ha here
  exact Hierarchy.labelAt_lt label

/-- Levels that stand for one module are one. -/
theorem moduleAt_inj (here : LevelOf (d.bodyIn a.entry) level)
    (there : LevelOf (d.bodyIn a.entry) level') :
    q.hierarchy.moduleAt a.owner level = q.hierarchy.moduleAt a.owner level' ↔ level = level' := by
  refine ⟨fun same => ?_, congrArg _⟩
  obtain ⟨_, _, label, told⟩ := c.label_of_level n ha here
  obtain ⟨_, _, label', told'⟩ := c.label_of_level n ha there
  rw [same, label'] at label
  cases label
  cases level with
  | none =>
    obtain ⟨kind, rfl⟩ := told
    cases level' with
    | none => rfl
    | some scope => cases told'.1
  | some scope =>
    obtain ⟨rfl, _⟩ := told
    cases level' with
    | none => cases told'.choose_spec
    | some scope' => cases told'.1; rfl

theorem target_eq_moduleAt (here : LevelOf (d.bodyIn a.entry) level) (ref : Option ValueId) :
    targetIn d (d.bodyIn a.entry) q.hierarchy.inline? a.owner ref =
      q.hierarchy.moduleAt a.owner level ↔ d.scopeIn (d.bodyIn a.entry) ref = level :=
  c.moduleAt_inj n ha (levelOf_scopeIn d _ ref) here

/-- What belongs to the module itself is seen at the outermost level only. -/
theorem owner_eq_moduleAt (here : LevelOf (d.bodyIn a.entry) level) :
    a.owner = q.hierarchy.moduleAt a.owner level ↔ level = none :=
  (c.moduleAt_inj n ha (levelOf_none _) here).trans eq_comm

theorem placeOf_level (here : LevelOf (d.bodyIn a.entry) level) {name : ν} {ports : List (Port ν)}
    {block : BlockId} (payload : a.entry.2.payload = .module name ports block) :
    q.hierarchy.placeOf d (q.hierarchy.moduleAt a.owner level) = d.placeIn block := by
  have found := Design.ops_of_mem_entries (c.mem_entries n ha)
  funext v
  rw [Hierarchy.placeOf, Hierarchy.bodyBlock?, c.home_moduleAt n ha here, c.opOf_owner ha]
  simp [found, payload]

variable {name : ν} {ports : List (Port ν)} {block : BlockId}
  (payload : a.entry.2.payload = .module name ports block)

include payload

/-- The variables of a level are those that the body shows there. -/
theorem vars_of_level (here : LevelOf (d.bodyOf block) level) :
    (q.hierarchy.varsOf (q.hierarchy.moduleAt a.owner level)).map (·.face (d.placeIn block)) =
      d.varsAt ports block level := by
  have body := d.bodyIn_of_module payload
  rw [← body] at here
  have family : q.hierarchy.familyVars a.owner = _ := c.vars_of_family n ha
  rw [c.varsOf_eq (c.home_moduleAt n ha here) (c.moduleAt_lt n ha here), family,
    c.vars_of_module n ha payload, bodyVars, Design.varsAt]
  split
  · rw [filterMap_filter_map]
    refine List.filterMap_congr fun e _ => ?_
    unfold annotated Design.annotatedAt
    cases e.2.payload.annotation? with
    | none => rfl
    | some note =>
      have target := c.target_eq_moduleAt n ha here note.scope
      rw [body] at target
      simp only [Option.map_some, Option.bind_some, Option.filter, target, decide_eq_true_eq]
      split <;> rfl
  · rw [List.filter_append, List.map_append]
    have own := c.owner_eq_moduleAt n ha here
    by_cases outermost : level = none
    · subst outermost
      rw [if_pos rfl]
      congr 1
      · rw [List.filter_eq_self.2, List.map_map]
        · refine List.map_congr_left fun port _ => ?_
          simp [VariableNode.face, VariableNode.ofPort, Design.portFace]
        · intro v hv
          obtain ⟨port, _, rfl⟩ := List.mem_map.1 hv
          exact decide_eq_true rfl
      · rw [filterMap_filter_map]
        refine List.filterMap_congr fun e _ => ?_
        cases isWire : e.2.payload <;> simp [wired, Design.wireFace, isWire, Option.filter]
        exact ⟨own.2 rfl, rfl⟩
    · rw [if_neg outermost]
      have other : ∀ v : VariableNode ν, v.owner = a.owner →
          ¬(decide (v.owner = q.hierarchy.moduleAt a.owner level) = true) := by
        intro v same at'
        rw [same, decide_eq_true_eq] at at'
        exact outermost (own.1 at')
      rw [List.filter_eq_nil_iff.2, List.filter_eq_nil_iff.2]
      · rfl
      · intro v hv
        obtain ⟨e, _, told⟩ := List.mem_filterMap.1 hv
        exact other v (owner_of_wired told)
      · intro v hv
        obtain ⟨port, _, rfl⟩ := List.mem_map.1 hv
        exact other _ rfl

/-- The instances of a level are those that the body shows there. -/
theorem insts_of_level (here : LevelOf (d.bodyOf block) level) {inner : ModuleId → View ν}
    {inner' : OpId → View ν} (same : ∀ scope, LevelOf (d.bodyOf block) (some scope) →
      inner (q.hierarchy.moduleAt a.owner (some scope)) = inner' scope) :
    (q.hierarchy.instsOf (q.hierarchy.moduleAt a.owner level)).map
      (q.hierarchy.instanceFace inner) = d.instsAt block inner' level := by
  have body := d.bodyIn_of_module payload
  rw [← body] at here
  rw [c.insts_of_family n ha (c.home_moduleAt n ha here) (c.moduleAt_lt n ha here),
    c.insts_of_module n ha payload, bodyInsts, Design.instsAt, List.map_map]
  split
  · rw [filterMap_filter_map]
    refine List.filterMap_congr fun e he => ?_
    unfold opened Design.openedAt
    cases isScope : e.2.payload.scope? with
    | none => rfl
    | some note =>
      have member : (e.1, note) ∈ scopesOf (d.bodyIn a.entry) := by
        rw [body]
        exact List.mem_filterMap.2 ⟨e, he, by rw [isScope]; rfl⟩
      obtain ⟨inline, known, label⟩ := c.inline_of_scope n ha member
      have target := c.target_eq_moduleAt n ha here note.scope
      have seen := same e.1 (by rintro _ ⟨⟩; exact ⟨note, body ▸ member⟩)
      rw [Hierarchy.moduleAt, Option.bind_some, known, Option.getD_some] at seen
      rw [body] at target
      simp only [Option.bind_some, known, Option.map_some, Option.filter, target, decide_eq_true_eq]
      split
      · simp [Hierarchy.instanceFace, label, seen]
      · rfl
  · next silent =>
    have own := c.owner_eq_moduleAt n ha here
    by_cases outermost : level = none
    · subst outermost
      rw [if_pos rfl, filterMap_filter_map]
      refine List.filterMap_congr fun e he => ?_
      cases isInst : e.2.payload with
      | inst name moduleName inputs =>
        obtain ⟨target, found⟩ := c.met a ha payload (Bool.of_not_eq_true silent) e he isInst
        obtain ⟨origin, label, named⟩ := c.labels.catalog.1 found
        have mine := decide_eq_true (own.2 rfl)
        simp only [instantiated, Design.instFace, isInst, found, Option.map_some,
          Option.filter, mine, if_true, Function.comp_apply, Hierarchy.instanceFace, label]
      | _ => simp [instantiated, Design.instFace, isInst, Option.filter]
    · rw [if_neg outermost, List.filter_eq_nil_iff.2]
      · rfl
      · intro p hp
        obtain ⟨e, _, told⟩ := List.mem_filterMap.1 hp
        obtain ⟨_, _, _, _, _, _, rfl⟩ := instantiated_eq_some_iff.1 told
        intro at'
        exact outermost (own.1 (of_decide_eq_true at'))

/-- A level is seen by itself as the body shows it. -/
theorem face_of_level (noted : Noted d accounts q.hierarchy) (closed : Closed d q.hierarchy)
    (here : LevelOf (d.bodyOf block) level) :
    q.hierarchy.store.modules[(q.hierarchy.moduleAt a.owner level).index]?.map (·.face) =
      d.faceAt block name level := by
  have body := d.bodyIn_of_module payload
  rw [← body] at here
  obtain ⟨label, origin, labelled, told⟩ := c.label_of_level n ha here
  obtain ⟨m, there, rfl, rfl⟩ := Hierarchy.module_of_labelAt labelled
  have found := Hierarchy.module_eq_ok_iff.1 there
  have notes : q.hierarchy.notesAt (q.hierarchy.moduleAt a.owner level).index = m.notes := by
    rw [Hierarchy.notesAt, found]
    rfl
  rw [found, Option.map_some]
  cases level with
  | none =>
    obtain ⟨kind, origin⟩ := told
    obtain ⟨o, known, symbol, kind_eq⟩ := closed.defined (origin ▸ labelled)
    have entry := op_of_mem_entries (c.mem_entries n ha)
    rw [known] at entry
    cases entry
    rw [payload] at symbol kind_eq
    cases symbol
    cases kind_eq
    have own := noted.own a ha
    rw [Design.notesIn, payload] at own
    rw [Design.faceAt, ModuleNode.face, ← notes, ModuleNode.isExtern, ModuleNode.op?, origin]
    exact congrArg (fun notes => some (ModuleFace.mk m.name false true notes)) own
  | some scope =>
    obtain ⟨origin, note, member, named⟩ := told
    have looked : (scopesOf (d.bodyOf block)).lookup scope = some note := by
      rw [← body]
      exact (lookup_eq_some_iff (scopesOf_ids_nodup (c.body_nodup n ha))).2 member
    have untold := noted.others _ fun b hb same => by
      obtain ⟨_, kind, label'⟩ := c.label_of_owner hb
      rw [same, labelled, origin] at label'
      cases label'
    rw [Design.faceAt, looked, ModuleNode.face, ← notes, untold, ModuleNode.isExtern,
      ModuleNode.op?, origin, Option.map_some, named]
    rfl

/-- A level is seen as the body shows it. -/
theorem viewOf_level (noted : Noted d accounts q.hierarchy) (closed : Closed d q.hierarchy)
    (depth : Nat) (here : LevelOf (d.bodyOf block) level) :
    q.hierarchy.viewOf d depth (q.hierarchy.moduleAt a.owner level) =
      d.bodyView ports block name depth level := by
  induction depth generalizing level with
  | zero => rfl
  | succ depth ih =>
    have place := c.placeOf_level n ha (d.bodyIn_of_module payload ▸ here) payload
    have insts := c.insts_of_level n ha payload here fun scope inside => ih inside
    rw [Hierarchy.viewOf, Design.bodyView, place, c.face_of_level n ha payload noted closed here,
      c.vars_of_level n ha payload here, insts]

omit payload

/-- An extern module is seen by its ports. -/
theorem viewOf_extern (noted : Noted d accounts q.hierarchy) (closed : Closed d q.hierarchy)
    (depth : Nat) (payload : a.entry.2.payload = .externModule name ports) :
    q.hierarchy.viewOf d depth a.owner = .ofExtern name ports depth := by
  cases depth with
  | zero => rfl
  | succ depth =>
    obtain ⟨label, kind, labelled⟩ := c.label_of_owner ha
    have there := Hierarchy.labelAt_lt labelled
    have own := noted.own a ha
    have vars : q.hierarchy.varsOf a.owner = ports.map fun port => .ofPort port none a.owner := by
      have family : q.hierarchy.familyVars a.owner = _ := c.vars_of_family n ha
      rw [c.varsOf_eq (c.home_owner ha) there, family]
      simp only [Account.findings, payload]
      refine List.filter_eq_self.2 fun v hv => decide_eq_true ?_
      obtain ⟨port, _, rfl⟩ := List.mem_map.1 hv
      rfl
    have insts : q.hierarchy.instsOf a.owner = [] := by
      rw [c.insts_of_family n ha (c.home_owner ha) there]
      simp only [Account.findings, payload]
      rfl
    obtain ⟨o, known, symbol, kind_eq⟩ := closed.defined labelled
    obtain ⟨m, found, rfl, origin⟩ := Hierarchy.module_of_labelAt labelled
    have entry := op_of_mem_entries (c.mem_entries n ha)
    rw [known] at entry
    cases entry
    rw [payload] at symbol kind_eq
    cases symbol
    cases kind_eq
    rw [Hierarchy.notesAt, Hierarchy.module_eq_ok_iff.1 found, Design.notesIn, payload] at own
    have face : m.face = ⟨m.name, true, true, .none⟩ := by
      rw [ModuleNode.face, ModuleNode.isExtern, ModuleNode.op?, origin]
      exact congrArg (ModuleFace.mk m.name true true) own
    rw [Hierarchy.viewOf, Hierarchy.module_eq_ok_iff.1 found, vars, insts, View.ofExtern,
      Option.map_some, face, List.map_map]
    rfl

/-- **Definitions seen.** A module with a definition is seen as the definition shows it. -/
theorem viewOf_owner (noted : Noted d accounts q.hierarchy) (closed : Closed d q.hierarchy)
    (depth : Nat) : q.hierarchy.viewOf d depth a.owner = d.shows a.entry depth := by
  obtain ⟨kind, kind_eq⟩ := c.kind_of_account ha
  cases payload : a.entry.2.payload with
  | module name ports block =>
    rw [Design.shows, payload]
    exact c.viewOf_level n ha payload noted closed depth (levelOf_none _)
  | externModule name ports =>
    rw [Design.shows, payload]
    exact c.viewOf_extern n ha noted closed depth payload
  | _ => simp [payload, Payload.moduleKind?] at kind_eq

end

end Collected

/-- Of a module without a definition nothing is seen but its name. -/
theorem Registered.viewOf_referenced [DecidableEq ν] {d : Design ν} {h : Hierarchy ν}
    (registered : Registered d h) {id : ModuleId} {m : ModuleNode ν} (there : h.module id = .ok m)
    (named : m.isInline = false) (undefined : m.op? = none) (depth : Nat) :
    h.viewOf d depth id = .ofName m.name depth := by
  cases depth with
  | zero => rfl
  | succ depth =>
    have bare := registered.bare id m there named undefined
    have found := Hierarchy.module_eq_ok_iff.1 there
    rw [bare] at found
    have vars : h.varsOf id = [] := by
      rw [Hierarchy.varsOf, Hierarchy.variableIds, Hierarchy.listsAt, found]
      rfl
    have insts : h.instsOf id = [] := by
      rw [Hierarchy.instsOf, Hierarchy.instanceIds, Hierarchy.listsAt, found]
      rfl
    rw [Hierarchy.viewOf, found, vars, insts]
    rfl

end DebugHierarchy
