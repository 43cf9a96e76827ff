import DebugHierarchy.Extraction.Basic
import Mathlib.Data.List.Forall2
import Mathlib.Logic.Function.Basic

/-!
Extractions under other names and other handles.

An extraction never looks into a name and never counts operations: it compares them only. So a
design that differs from another one in its names, in the handles of its operations and in
operations that tell nothing has the same hierarchy, up to the same differences.

* `Relabeling`: other names, and other handles for operations;
* `Design.Alike`: two designs whose definitions and bodies agree up to a relabeling;
* `Design.Alike.extract_eq`: their extractions agree up to it, too, journals and failures included.
-/

namespace DebugHierarchy

variable {ν μ α β γ δ : Type}

structure Relabeling (ν μ : Type) where
  name : ν → μ
  op : OpId → OpId

/-- No two names become one, and no two operations. -/
structure Relabeling.Faithful (r : Relabeling ν μ) : Prop where
  name : Function.Injective r.name
  op : Function.Injective r.op

def Origin.relabel (op : OpId → OpId) : Origin → Origin
  | .referenced => .referenced
  | .defined kind id => .defined kind (op id)
  | .scope id parent => .scope (op id) parent

def ModuleNode.relabel (r : Relabeling ν μ) (m : ModuleNode ν) : ModuleNode μ :=
  { m.map r.name with origin := m.origin.relabel r.op }

def InstanceNode.relabel (r : Relabeling ν μ) (i : InstanceNode ν) : InstanceNode μ :=
  ⟨r.name i.name, i.target, r.op i.op⟩

def Store.relabel (r : Relabeling ν μ) (s : Store ν) : Store μ :=
  ⟨s.modules.map (·.relabel r), s.insts.map (·.relabel r), s.vars.map (·.map r.name)⟩

def Slot.relabel (op : OpId → OpId) (slot : Slot) : Slot :=
  ⟨slot.id, slot.definition.map fun first => (first.1, op first.2)⟩

def Catalog.relabel (r : Relabeling ν μ) (c : Catalog ν) : Catalog μ :=
  ⟨(c.slots.map (·.relabel r.op)).mapKeys r.name, c.order, c.defined⟩

def Hierarchy.relabel (r : Relabeling ν μ) (h : Hierarchy ν) : Hierarchy μ :=
  ⟨h.store.relabel r, h.catalog.relabel r⟩

def Event.relabel (r : Relabeling ν μ) : Event ν → Event μ
  | .collect kind name op => .collect kind (r.name name) (r.op op)
  | .register id name => .register id (r.name name)
  | .define id kind op => .define id kind (r.op op)
  | .inlineModule id name scope parent => .inlineModule id (r.name name) (r.op scope) parent
  | .replaceInfo first second => .replaceInfo (r.op first) (r.op second)
  | .setInfo id sourceType => .setInfo id (sourceType.map (·.map r.name))
  | .setEnum id enum definition => .setEnum id enum (definition.map r.name)
  | .keepEnum op enum => .keepEnum (r.op op) enum
  | .surveyed id presence => .surveyed id presence
  | .addVariable origin id node => .addVariable origin id (node.map r.name)
  | .addInstance origin id owner node => .addInstance origin id owner (node.relabel r)
  | .looseScope op scope => .looseScope (r.op op) scope
  | .built stats => .built stats

def BuildError.relabel (r : Relabeling ν μ) : BuildError ν → BuildError μ
  | .unresolvedScope op scope => .unresolvedScope (r.op op) scope
  | .conflictingKinds name first second =>
    .conflictingKinds (r.name name) (r.op first) (r.op second)
  | .duplicateModule name first second => .duplicateModule (r.name name) (r.op first) (r.op second)
  | .invalidEnumReference op value => .invalidEnumReference (r.op op) value
  | .missingPortValue module port position => .missingPortValue (r.op module) (r.name port) position
  | .duplicateModuleInfo module first second =>
    .duplicateModuleInfo (r.op module) (r.op first) (r.op second)

def Dangling.relabel (op : OpId → OpId) : Dangling → Dangling
  | ⟨.op, i⟩ => ⟨.op, (op ⟨i⟩).index⟩
  | what => what

def Failure.relabel (r : Relabeling ν μ) : Failure ν → Failure μ
  | .dangling what => .dangling (what.relabel r.op)
  | .invalid error => .invalid (error.relabel r)

def Progress.relabel (r : Relabeling ν μ) (p : Progress ν) : Progress μ :=
  ⟨p.hierarchy.relabel r, p.journal.map (·.relabel r)⟩

def Survey.relabel (op : OpId → OpId) (s : Survey) : Survey where
  presence := s.presence
  scopes := s.scopes.map fun x => (op x.1, x.2)
  info := s.info.map op
  enums := s.enums.map fun x => (op x.1, x.2)

def Extraction.relabel (r : Relabeling ν μ) (x : Extraction ν) : Extraction μ where
  outcome := match x.outcome with
    | .ok h => .ok (h.relabel r)
    | .error failure => .error (failure.relabel r)
  journal := x.journal.map (·.relabel r)

theorem insertEntry_map {κ : Type} [Ranked κ] (f : α → β) (k : κ) (v : α) (entries : List (κ × α)) :
    (insertEntry k v entries).map (fun e => (e.1, f e.2)) =
      insertEntry k (f v) (entries.map fun e => (e.1, f e.2)) := by
  induction entries with
  | nil => rfl
  | cons e rest ih =>
    obtain ⟨k', v'⟩ := e
    simp only [insertEntry, List.map_cons]
    split
    · rfl
    · split
      · rfl
      · rw [List.map_cons, ih]

theorem SortedMap.map_insert {κ : Type} [Ranked κ] (f : α → β) (m : SortedMap κ α) (k : κ) (v : α) :
    (m.insert k v).map f = (m.map f).insert k (f v) :=
  SortedMap.ext (insertEntry_map f k v m.toList)

theorem EnumDefinition.ofNote_map (f : ν → μ) (note : EnumNote ν) :
    (EnumDefinition.ofNote note).map f = .ofNote (note.map f) := by
  have fold (entries : List (Int × ν)) (m : SortedMap Int ν) :
      (entries.foldl (fun m e => m.insert e.1 e.2) m).map f =
        (entries.map fun e => (e.1, f e.2)).foldl (fun m e => m.insert e.1 e.2) (m.map f) := by
    induction entries generalizing m with
    | nil => rfl
    | cons e rest ih =>
      rw [List.foldl_cons, List.map_cons, List.foldl_cons, ih, SortedMap.map_insert]
  simp only [ofNote, EnumDefinition.map, SortedMap.ofList, EnumNote.map, fold, List.map_map]
  rfl

theorem SourceType.ofParts_map (f : ν → μ) (typeName : Option ν) (params : Option (ParamValue ν)) :
    (SourceType.ofParts typeName params).map (·.map f) =
      SourceType.ofParts (typeName.map f) (params.map (·.map f)) := by
  unfold ofParts
  cases typeName <;> cases params <;> rfl

namespace Store

variable (r : Relabeling ν μ) (s : Store ν)

theorem relabel_modifyModule (id : ModuleId) {f : ModuleNode ν → ModuleNode ν}
    {g : ModuleNode μ → ModuleNode μ} (same : ∀ m, (f m).relabel r = g (m.relabel r)) :
    (s.modifyModule id f).relabel r = (s.relabel r).modifyModule id g := by
  refine Store.ext (Array.ext_getElem? fun i => ?_) rfl rfl
  simp only [Store.relabel, modifyModule, Array.getElem?_map, Array.getElem?_modify]
  split
  · cases s.modules[i]? <;> simp [same]
  · rfl

theorem relabel_addModule (m : ModuleNode ν) :
    (s.addModule m).relabel r = (s.relabel r).addModule (m.relabel r) := by
  simp [Store.relabel, addModule]

theorem relabel_addVariable (v : VariableNode ν) :
    (s.addVariable v).relabel r = (s.relabel r).addVariable (v.map r.name) := by
  have owned := relabel_modifyModule r { s with vars := s.vars.push v } v.owner
    (f := fun m => { m with vars := m.vars.push ⟨s.vars.size⟩ })
    (g := fun m => { m with vars := m.vars.push ⟨s.vars.size⟩ }) fun m => rfl
  simpa [addVariable, Store.relabel, VariableNode.map] using owned

theorem relabel_addInstance (owner : ModuleId) (i : InstanceNode ν) :
    (s.addInstance owner i).relabel r = (s.relabel r).addInstance owner (i.relabel r) := by
  have owned := relabel_modifyModule r { s with insts := s.insts.push i } owner
    (f := fun m => { m with insts := m.insts.push ⟨s.insts.size⟩ })
    (g := fun m => { m with insts := m.insts.push ⟨s.insts.size⟩ }) fun m => rfl
  simpa [addInstance, Store.relabel] using owned

end Store

namespace Catalog

variable (r : Relabeling ν μ) (c : Catalog ν)

theorem relabel_register (id : ModuleId) (name : ν) :
    (c.register id name).relabel r = (c.relabel r).register id (r.name name) := by
  simp [register, relabel, LookupMap.push, LookupMap.map, LookupMap.mapKeys, Slot.relabel]

theorem relabel_define (id : ModuleId) (kind : ModuleKind) (op : OpId) :
    (c.define id kind op).relabel r = (c.relabel r).define id kind (r.op op) := by
  have slot (s : Slot) : (s.define id kind op).relabel r.op =
      (s.relabel r.op).define id kind (r.op op) := by
    unfold Slot.define Slot.relabel
    split <;> rfl
  simp [define, relabel, LookupMap.map, LookupMap.mapKeys, slot]

/-- A name is found where it was found under its old label, with what defines it. -/
theorem relabel_slot? [DecidableEq ν] [DecidableEq μ] (faithful : r.Faithful) (n : ν) :
    (c.relabel r).slots.find? (r.name n) = (c.slots.find? n).map (·.relabel r.op) := by
  rw [relabel, LookupMap.find?_mapKeys faithful.name, LookupMap.find?_map]

end Catalog

namespace Hierarchy

/-- An event has the same effect under other labels. -/
theorem relabel_apply (r : Relabeling ν μ) (h : Hierarchy ν) (e : Event ν) :
    (h.apply e).relabel r = (h.relabel r).apply (e.relabel r) := by
  cases e with
  | register id name =>
    exact Hierarchy.ext (Store.relabel_addModule r h.store _)
      (Catalog.relabel_register r h.catalog id name)
  | define id kind op =>
    exact Hierarchy.ext (Store.relabel_modifyModule r h.store id fun m => rfl)
      (Catalog.relabel_define r h.catalog id kind op)
  | inlineModule id name scope parent =>
    exact Hierarchy.ext (Store.relabel_addModule r h.store _) rfl
  | setInfo id sourceType =>
    exact Hierarchy.ext (Store.relabel_modifyModule r h.store id fun m => rfl) rfl
  | setEnum id enum definition =>
    refine Hierarchy.ext (Store.relabel_modifyModule r h.store id fun m => ?_) rfl
    exact ModuleNode.ext rfl rfl rfl (SortedMap.map_insert _ _ _ _) rfl rfl rfl
  | surveyed id presence =>
    exact Hierarchy.ext (Store.relabel_modifyModule r h.store id fun m => rfl) rfl
  | addVariable origin id node => exact Hierarchy.ext (Store.relabel_addVariable r h.store node) rfl
  | addInstance origin id owner node =>
    exact Hierarchy.ext (Store.relabel_addInstance r h.store owner node) rfl
  | collect | replaceInfo | keepEnum | looseScope | built => rfl

variable (r : Relabeling ν μ) (h : Hierarchy ν)

@[simp] theorem relabel_moduleAt (i : Nat) :
    (h.relabel r).store.modules[i]? = (h.store.modules[i]?).map (·.relabel r) := by
  simp [relabel, Store.relabel]

@[simp] theorem relabel_nextModule : (h.relabel r).store.nextModule = h.store.nextModule := by
  simp [relabel, Store.relabel, Store.nextModule]

@[simp] theorem relabel_nextVariable : (h.relabel r).store.nextVariable = h.store.nextVariable := by
  simp [relabel, Store.relabel, Store.nextVariable]

@[simp] theorem relabel_nextInstance : (h.relabel r).store.nextInstance = h.store.nextInstance := by
  simp [relabel, Store.relabel, Store.nextInstance]

@[simp] theorem relabel_stats : (h.relabel r).stats = h.stats := by
  simp [relabel, Store.relabel, stats, Catalog.relabel]

/-- A name is found where it was found under its old label. -/
theorem relabel_find? [DecidableEq ν] [DecidableEq μ] (faithful : r.Faithful) (n : ν) :
    (h.relabel r).find? (r.name n) = h.find? n := by
  rw [find?, Catalog.find?, relabel, Catalog.relabel_slot? r _ faithful, Option.map_map]
  rfl

end Hierarchy

theorem Progress.relabel_record (r : Relabeling ν μ) (p : Progress ν) (e : Event ν) :
    (p.record e).relabel r = (p.relabel r).record (e.relabel r) := by
  simp only [record, relabel, Hierarchy.relabel_apply, Array.map_push]

/-! ### Designs that agree up to labels -/

namespace Payload

def isOther : Payload ν → Bool
  | .other .. => true
  | _ => false

end Payload

/-- What belongs to a body without the operations that have no meaning of their own. -/
def essence (body : List (Entry ν)) : List (Entry ν) := body.filter fun e => !e.2.payload.isOther

structure Entry.Alike (r : Relabeling ν μ) (e : Entry ν) (e' : Entry μ) : Prop where
  id : e'.1 = r.op e.1
  payload : e'.2.payload = e.2.payload.map r.name
  loc : e'.2.loc = e.2.loc.map r.name
  results : e'.2.results = e.2.results

/-- Two bodies agree in what they tell and in the values they have for ports. -/
structure BodiesAlike (r : Relabeling ν μ) (d : Design ν) (d' : Design μ) (block block' : BlockId) :
    Prop where
  ports : ∀ port, d'.portValue? block' (port.map r.name) = d.portValue? block port
  told : List.Forall₂ (Entry.Alike r) (essence (d.bodyOf block)) (essence (d'.bodyOf block'))

inductive DefinitionsAlike (r : Relabeling ν μ) (d : Design ν) (d' : Design μ) :
    Entry ν → Entry μ → Prop
  | module {e : Entry ν} {e' : Entry μ} {name : ν} {ports : List (Port ν)}
      {block block' : BlockId} :
    e'.1 = r.op e.1 → e.2.payload = .module name ports block →
      e'.2.payload = .module (r.name name) (ports.map (·.map r.name)) block' →
      BodiesAlike r d d' block block' → DefinitionsAlike r d d' e e'
  | external {e : Entry ν} {e' : Entry μ} {name : ν} {ports : List (Port ν)} :
    e'.1 = r.op e.1 → e.2.payload = .externModule name ports →
      e'.2.payload = .externModule (r.name name) (ports.map (·.map r.name)) →
      DefinitionsAlike r d d' e e'

/-- Two designs agree in all that an extraction looks at. -/
structure Design.Alike (r : Relabeling ν μ) (d : Design ν) (d' : Design μ) : Prop where
  definitions : List.Forall₂ (DefinitionsAlike r d d') d.definitions d'.definitions
  producers : ∀ v, d'.definingOp v = (d.definingOp v).map (·.map r.op)

/-- From any state, the second step does under other labels what the first one does. -/
def Mirrors (r : Relabeling ν μ) (g : α → β) (x : Building ν α) (y : Building μ β) : Prop :=
  ∀ p, y.run (p.relabel r) = match x.run p with
    | .ok a q => .ok (g a) (q.relabel r)
    | .error failure q => .error (failure.relabel r) (q.relabel r)

namespace Mirrors

variable {r : Relabeling ν μ} {g : α → β} {k : γ → δ} {x : Building ν α} {y : Building μ β}
  {f : α → Building ν γ} {f' : β → Building μ δ}

theorem pure (a : α) : Mirrors r g (Pure.pure a) (Pure.pure (g a)) := fun _ => rfl

theorem throw (failure : Failure ν) :
    Mirrors r g (throw failure : Building ν α) (throw (failure.relabel r)) := fun _ => rfl

theorem record (e : Event ν) : Mirrors r id (Building.record e) (Building.record (e.relabel r)) :=
  fun p => congrArg (EStateM.Result.ok ()) (Progress.relabel_record r p e).symm

theorem bind (first : Mirrors r g x y) (next : ∀ a, Mirrors r k (f a) (f' (g a))) :
    Mirrors r k (x >>= f) (y >>= f') := by
  intro p
  have here := first p
  rw [EStateM.run_bind, EStateM.run_bind, here]
  cases x.run p with
  | ok a q => exact next a q
  | error failure q => rfl

/-- A step that looks at the state first. -/
theorem get {f : Progress ν → Building ν γ} {f' : Progress μ → Building μ δ}
    (next : ∀ p, Mirrors r k (f p) (f' (p.relabel r))) :
    Mirrors r k (MonadState.get >>= f) (MonadState.get >>= f') := fun p => next p p

theorem recorded {e : Event ν} {f : Unit → Building ν γ} {f' : Unit → Building μ δ}
    (next : Mirrors r k (f ()) (f' ())) :
    Mirrors r k (Building.record e >>= f) (Building.record (e.relabel r) >>= f') :=
  (record e).bind fun _ => next

theorem reject (error : BuildError ν) :
    Mirrors r g (Building.reject error : Building ν α) (Building.reject (error.relabel r)) :=
  throw (.invalid error)

theorem require {h : Handle .op} (found : Option α) :
    Mirrors r g (Building.require (h.expect found))
      (Building.require ((r.op h).expect (found.map g))) := by
  cases found with
  | some a => exact pure a
  | none => exact throw (.dangling ⟨.op, h.index⟩)

/-- The operation that produces a value is found under its new handle. -/
theorem producer {d : Design ν} {d' : Design μ}
    (producers : ∀ v, d'.definingOp v = (d.definingOp v).map (·.map r.op)) (v : ValueId) :
    Mirrors r (Option.map r.op) (Building.require (d.definingOp v))
      (Building.require (d'.definingOp v)) := by
  rw [producers]
  unfold Design.definingOp Design.value Handle.expect
  cases d.values[v.index]? with
  | none => exact throw (.dangling ⟨.value, v.index⟩)
  | some source =>
    cases source with
    | blockArg block i => exact pure none
    | opResult op i => exact pure (some op)

/-- Loops over lists that agree member by member. -/
theorem foldlM {A B : Type} {R : A → B → Prop} {l : List A} {l' : List B}
    (alike : List.Forall₂ R l l') {f : α → A → Building ν α} {f' : β → B → Building μ β}
    (step : ∀ a {u v}, R u v → Mirrors r g (f a u) (f' (g a) v)) (a : α) :
    Mirrors r g (l.foldlM f a) (l'.foldlM f' (g a)) := by
  induction alike generalizing a with
  | nil => exact pure a
  | cons here _ ih =>
    rw [List.foldlM_cons, List.foldlM_cons]
    exact (step a here).bind fun a => ih a

theorem forM {A B : Type} {R : A → B → Prop} {l : List A} {l' : List B}
    (alike : List.Forall₂ R l l') {f : A → Building ν PUnit} {f' : B → Building μ PUnit}
    (step : ∀ {u v}, R u v → Mirrors r id (f u) (f' v)) :
    Mirrors r id (ForM.forM l f) (ForM.forM l' f') := by
  induction alike with
  | nil => exact pure _
  | cons here _ ih =>
    rw [List.forM_cons, List.forM_cons]
    exact (step here).bind fun _ => ih

end Mirrors

namespace Survey

variable {r : Relabeling ν μ} (faithful : r.Faithful) (s : Survey)

include faithful

theorem lookup_relabel (l : List (OpId × α)) (op : OpId) :
    (l.map fun x => (r.op x.1, x.2)).lookup (r.op op) = l.lookup op := by
  induction l with
  | nil => rfl
  | cons x rest ih =>
    obtain ⟨o, a⟩ := x
    rw [List.map_cons, List.lookup_cons, List.lookup_cons, ih]
    by_cases same : op = o
    · subst same
      simp
    · have other : r.op op ≠ r.op o := fun h => same (faithful.op h)
      rw [beq_eq_false_iff_ne.2 same, beq_eq_false_iff_ne.2 other]

theorem scope?_relabel (op : OpId) : (s.relabel r.op).scope? (r.op op) = s.scope? op :=
  lookup_relabel faithful s.scopes op

theorem enum?_relabel (op : OpId) : (s.relabel r.op).enum? (r.op op) = s.enum? op :=
  lookup_relabel faithful s.enums op

end Survey

namespace Building

variable {r : Relabeling ν μ} {d : Design ν} {d' : Design μ}

theorem addVariable_mirrors (origin : VariableOrigin) (node : VariableNode ν) :
    Mirrors r id (addVariable origin node) (addVariable origin (node.map r.name)) := by
  unfold addVariable
  refine .get fun p => ?_
  rw [show (p.relabel r).hierarchy.store.nextVariable = _ from
    Hierarchy.relabel_nextVariable r p.hierarchy]
  exact .record (.addVariable origin _ node)

theorem addInstance_mirrors (origin : InstanceOrigin) (owner : ModuleId) (node : InstanceNode ν) :
    Mirrors r id (addInstance origin owner node) (addInstance origin owner (node.relabel r)) := by
  unfold addInstance
  refine .get fun p => ?_
  rw [show (p.relabel r).hierarchy.store.nextInstance = _ from
    Hierarchy.relabel_nextInstance r p.hierarchy]
  exact .record (.addInstance origin _ owner node)

theorem addInline_mirrors (name : ν) (scope : OpId) (parent : ModuleId) :
    Mirrors r id (addInline name scope parent) (addInline (r.name name) (r.op scope) parent) := by
  unfold addInline
  refine .get fun p => ?_
  rw [show (p.relabel r).hierarchy.store.nextModule = _ from
    Hierarchy.relabel_nextModule r p.hierarchy]
  exact .recorded (e := .inlineModule _ name scope parent) (.pure _)

variable {e : Entry ν} {e' : Entry μ}

theorem surveyOp_mirrors (alike : e.Alike r e') (policy : InfoPolicy) (owner : ModuleId)
    (definition : OpId) (s : Survey) :
    Mirrors r (Survey.relabel r.op) (surveyOp policy owner definition s e)
      (surveyOp policy owner (r.op definition) (s.relabel r.op) e') := by
  obtain ⟨id, op⟩ := e
  obtain ⟨id', op'⟩ := e'
  obtain ⟨rfl, payload', _, _⟩ := alike
  dsimp only at payload'
  cases payload : op.payload with
  | dbgVariable note =>
    rw [payload] at payload'
    simp only [surveyOp, payload, payload', Payload.map]
    exact .pure _
  | dbgScope note =>
    rw [payload] at payload'
    simp only [surveyOp, payload, payload', Payload.map]
    exact (addInline_mirrors _ _ _).bind fun inline => .pure _
  | moduleInfo typeName params =>
    rw [payload] at payload'
    simp only [surveyOp, payload, payload', Payload.map]
    have last : Mirrors r (Survey.relabel r.op)
        (do
          record (.setInfo owner (SourceType.ofParts (some typeName) params))
          return { s with info := some id })
        (do
          record (.setInfo owner (SourceType.ofParts (some (r.name typeName))
            (params.map (·.map r.name))))
          return { s.relabel r.op with info := some (r.op id) }) := by
      have told := SourceType.ofParts_map r.name (some typeName) params
      rw [Option.map_some] at told
      rw [← told]
      exact .recorded (e := .setInfo owner _) (.pure _)
    cases before : s.info with
    | none =>
      simp only [Survey.relabel, before, Option.map_none]
      simp only [Survey.relabel, before, Option.map_none] at last
      exact last
    | some first =>
      simp only [Survey.relabel, before, Option.map_some]
      simp only [Survey.relabel, before, Option.map_some] at last
      split
      · exact .throw (.invalid (.duplicateModuleInfo definition first id))
      · exact .recorded (e := .replaceInfo first id) last
  | enumDef note =>
    rw [payload] at payload'
    simp only [surveyOp, payload, payload', Payload.map]
    have number : (note.map r.name).id = note.id := rfl
    have known : (s.relabel r.op).enums.any (·.2 = note.id) = s.enums.any (·.2 = note.id) := by
      simp [Survey.relabel, List.any_map, Function.comp_def]
    have next := Mirrors.pure (r := r) (g := Survey.relabel r.op)
      { s with enums := (id, note.id) :: s.enums }
    rw [number, known, ← EnumDefinition.ofNote_map]
    split
    · exact .recorded (e := .keepEnum id note.id) next
    · exact .recorded (e := .setEnum owner note.id (.ofNote note)) next
  | _ =>
    rw [payload] at payload'
    simp only [surveyOp, payload, payload', Payload.map]
    exact .pure _

/-- A survey passes over operations without a meaning. -/
theorem survey_essence (policy : InfoPolicy) (owner : ModuleId) (definition : OpId)
    (body : List (Entry ν)) (s : Survey) :
    body.foldlM (surveyOp policy owner definition) s =
      (essence body).foldlM (surveyOp policy owner definition) s := by
  induction body generalizing s with
  | nil => rfl
  | cons e rest ih =>
    rw [essence, List.filter_cons, List.foldlM_cons]
    cases other : e.2.payload.isOther with
    | false =>
      rw [if_pos (by simp), List.foldlM_cons]
      exact bind_congr fun s => ih s
    | true =>
      obtain ⟨id, op⟩ := e
      cases payload : op.payload <;> simp [payload, Payload.isOther] at other
      simp only [surveyOp, payload, pure_bind]
      rw [if_neg (by simp)]
      exact ih s

theorem survey_mirrors {body : List (Entry ν)} {body' : List (Entry μ)}
    (alike : List.Forall₂ (Entry.Alike r) (essence body) (essence body')) (policy : InfoPolicy)
    (owner : ModuleId) (definition : OpId) :
    Mirrors r (Survey.relabel r.op) (survey policy owner definition body)
      (survey policy owner (r.op definition) body') := by
  unfold survey
  rw [survey_essence policy owner definition body,
    survey_essence policy owner (r.op definition) body']
  refine (Mirrors.foldlM alike
    (fun s _ _ here => surveyOp_mirrors here policy owner definition s) {}).bind fun s => ?_
  exact .recorded (e := .surveyed owner s.presence) (.pure s)

theorem addPorts_mirrors {block block' : BlockId} (owner : ModuleId) (definition : OpId)
    (same : ∀ port, d'.portValue? block' (port.map r.name) = d.portValue? block port)
    (ports : List (Port ν)) :
    Mirrors r id (addPorts d owner definition block ports)
      (addPorts d' owner (r.op definition) block' (ports.map (·.map r.name))) := by
  have agree : List.Forall₂ (fun port port' => port' = Port.map r.name port) ports
      (ports.map (·.map r.name)) := by
    rw [List.forall₂_map_right_iff]
    exact List.forall₂_same.2 fun _ _ => rfl
  refine .forM agree ?_
  rintro port _ rfl
  rw [same]
  cases d.portValue? block port with
  | none => exact .reject (.missingPortValue definition port.name port.position)
  | some value => exact addVariable_mirrors .port (.ofPort port (some value) owner)

theorem scopeTarget_mirrors (faithful : r.Faithful)
    (producers : ∀ v, d'.definingOp v = (d.definingOp v).map (·.map r.op)) (policy : ScopePolicy)
    (s : Survey) (owner : ModuleId) (user : OpId) (ref : Option ValueId) :
    Mirrors r id (scopeTarget d policy s owner user ref)
      (scopeTarget d' policy (s.relabel r.op) owner (r.op user) ref) := by
  cases ref with
  | none => exact .pure owner
  | some scope =>
    simp only [scopeTarget]
    refine (Mirrors.producer producers scope).bind fun producer => ?_
    have same : (producer.map r.op).bind (s.relabel r.op).scope? = producer.bind s.scope? := by
      cases producer with
      | none => rfl
      | some op => exact Survey.scope?_relabel faithful s op
    rw [same]
    cases producer.bind s.scope? with
    | some inline => exact .pure inline
    | none =>
      cases policy with
      | error => exact .reject (.unresolvedScope user scope)
      | enclosing => exact .recorded (e := .looseScope user scope) (.pure owner)

theorem enumTarget_mirrors (faithful : r.Faithful)
    (producers : ∀ v, d'.definingOp v = (d.definingOp v).map (·.map r.op)) (s : Survey)
    (user : OpId) (ref : Option ValueId) :
    Mirrors r id (enumTarget d s user ref) (enumTarget d' (s.relabel r.op) (r.op user) ref) := by
  cases ref with
  | none => exact .pure none
  | some value =>
    simp only [enumTarget]
    refine (Mirrors.producer producers value).bind fun producer => ?_
    have same : (producer.map r.op).bind (s.relabel r.op).enum? = producer.bind s.enum? := by
      cases producer with
      | none => rfl
      | some op => exact Survey.enum?_relabel faithful s op
    rw [same]
    cases producer.bind s.enum? with
    | some id => exact .pure (some id)
    | none => exact .reject (.invalidEnumReference user value)

variable [DecidableEq ν] [DecidableEq μ]

theorem moduleOf_mirrors (faithful : r.Faithful) (name : ν) :
    Mirrors r id (moduleOf name) (moduleOf (r.name name)) := by
  unfold moduleOf
  refine .get fun p => ?_
  have same : (p.relabel r).hierarchy.find? (r.name name) = p.hierarchy.find? name :=
    Hierarchy.relabel_find? r p.hierarchy faithful name
  rw [same]
  cases p.hierarchy.find? name with
  | some id => exact .pure _
  | none =>
    refine .get fun q => ?_
    have next : (q.relabel r).hierarchy.store.nextModule = q.hierarchy.store.nextModule :=
      Hierarchy.relabel_nextModule r q.hierarchy
    rw [next]
    exact .recorded (e := .register _ name) (.pure _)

theorem definitionOf_mirrors (faithful : r.Faithful) (name : ν) :
    Mirrors r (Option.map fun first : ModuleKind × OpId => (first.1, r.op first.2))
      (definitionOf name) (definitionOf (r.name name)) := by
  unfold definitionOf
  refine .get fun p => ?_
  have same : (p.relabel r).hierarchy.catalog.definition? (r.name name) =
      (p.hierarchy.catalog.definition? name).map fun first => (first.1, r.op first.2) := by
    rw [Catalog.definition?, Progress.relabel, Hierarchy.relabel,
      Catalog.relabel_slot? r _ faithful, Catalog.definition?]
    cases p.hierarchy.catalog.slots.find? name <;> rfl
  rw [same]
  exact .pure _

theorem define_mirrors (faithful : r.Faithful) (name : ν) (kind : ModuleKind) (op : OpId) :
    Mirrors r id (define name kind op) (define (r.name name) kind (r.op op)) := by
  unfold define
  refine (moduleOf_mirrors faithful name).bind fun id =>
    (definitionOf_mirrors faithful name).bind fun first => ?_
  cases first with
  | none => exact .recorded (e := .define id kind op) (.pure _)
  | some first =>
    obtain ⟨firstKind, firstOp⟩ := first
    by_cases same : firstKind = kind
    · simp only [Option.map_some, same, if_true]
      exact .reject (.duplicateModule name firstOp op)
    · simp only [Option.map_some, same, if_false]
      exact .reject (.conflictingKinds name firstOp op)

theorem fillOp_mirrors (faithful : r.Faithful)
    (producers : ∀ v, d'.definingOp v = (d.definingOp v).map (·.map r.op)) (alike : e.Alike r e')
    (policy : ScopePolicy) (s : Survey) (owner : ModuleId) :
    Mirrors r id (fillOp d policy s owner e) (fillOp d' policy (s.relabel r.op) owner e') := by
  obtain ⟨user, op⟩ := e
  obtain ⟨user', op'⟩ := e'
  obtain ⟨rfl, payload', loc, results⟩ := alike
  dsimp only at payload' loc results
  cases payload : op.payload with
  | dbgVariable note =>
    rw [payload] at payload'
    simp only [fillOp, payload, payload', Payload.map, loc]
    refine (scopeTarget_mirrors faithful producers policy s owner user note.scope).bind
      fun target => ?_
    refine (enumTarget_mirrors faithful producers s user note.enumDef).bind fun enumId => ?_
    have told := SourceType.ofParts_map r.name note.typeName note.params
    simp only [VariableNote.map]
    rw [← told]
    exact addVariable_mirrors .annotated _
  | dbgScope note =>
    rw [payload] at payload'
    simp only [fillOp, payload, payload', Payload.map]
    refine (scopeTarget_mirrors faithful producers policy s owner user note.scope).bind
      fun target => ?_
    rw [Survey.scope?_relabel faithful]
    have found := Mirrors.require (r := r) (g := id) (h := user) (s.scope? user)
    rw [Option.map_id_fun, id_eq] at found
    exact found.bind fun inline => addInstance_mirrors .scope target ⟨note.name, inline, user⟩
  | inst name moduleName inputs =>
    rw [payload] at payload'
    simp only [fillOp, payload, payload', Payload.map]
    by_cases insts : s.presence.insts = true
    · rw [if_pos insts, if_pos (show (s.relabel r.op).presence.insts = true from insts)]
      exact .pure _
    · rw [if_neg insts, if_neg (show ¬ (s.relabel r.op).presence.insts = true from insts)]
      exact (moduleOf_mirrors faithful moduleName).bind fun target =>
        addInstance_mirrors .structural owner ⟨name, target, user⟩
  | wire name input =>
    rw [payload] at payload'
    simp only [fillOp, payload, payload', Payload.map, loc]
    by_cases vars : s.presence.vars = true
    · rw [if_pos vars, if_pos (show (s.relabel r.op).presence.vars = true from vars)]
      exact .pure _
    · rw [if_neg vars, if_neg (show ¬ (s.relabel r.op).presence.vars = true from vars)]
      rw [show op'.result? = op.result? by rw [Operation.result?, results]; rfl]
      exact addVariable_mirrors .wire ⟨name, op.loc, op.result?, none, none, owner⟩
  | _ =>
    rw [payload] at payload'
    simp only [fillOp, payload, payload', Payload.map]
    exact .pure _

/-- Filling in a body passes over operations without a meaning. -/
theorem fill_essence (policy : ScopePolicy) (s : Survey) (owner : ModuleId)
    (body : List (Entry ν)) :
    forM body (fillOp d policy s owner) = forM (essence body) (fillOp d policy s owner) := by
  induction body with
  | nil => rfl
  | cons e rest ih =>
    rw [essence, List.filter_cons, List.forM_cons]
    cases other : e.2.payload.isOther with
    | false =>
      rw [if_pos (by simp), List.forM_cons]
      exact bind_congr fun _ => ih
    | true =>
      obtain ⟨id, op⟩ := e
      cases payload : op.payload <;> simp [payload, Payload.isOther] at other
      simp only [fillOp, payload, pure_bind]
      rw [if_neg (by simp)]
      exact ih

theorem collect_mirrors (faithful : r.Faithful) (alike : d.Alike r d')
    (definition : DefinitionsAlike r d d' e e') (options : Options) :
    Mirrors r id (collect d options e) (collect d' options e') := by
  obtain ⟨op, operation⟩ := e
  obtain ⟨op', operation'⟩ := e'
  cases definition with
  | @module name ports block block' same payload payload' bodies =>
    cases same
    dsimp only at payload payload'
    simp only [collect, payload, payload']
    refine .recorded (e := .collect .module _ op)
      ((define_mirrors faithful _ .module op).bind fun owner => ?_)
    refine (survey_mirrors bodies.told options.info owner op).bind fun s => ?_
    have fill : Mirrors r id (forM (d.bodyOf block) (fillOp d options.scopes s owner))
        (forM (d'.bodyOf block') (fillOp d' options.scopes (s.relabel r.op) owner)) := by
      rw [fill_essence _ _ _ (d.bodyOf block), fill_essence _ _ _ (d'.bodyOf block')]
      exact .forM bodies.told fun here =>
        fillOp_mirrors faithful alike.producers here options.scopes s owner
    by_cases vars : s.presence.vars = true
    · rw [if_pos vars, if_pos (show (s.relabel r.op).presence.vars = true from vars)]
      exact fill
    · rw [if_neg vars, if_neg (show ¬ (s.relabel r.op).presence.vars = true from vars)]
      exact (addPorts_mirrors owner op bodies.ports _).bind fun _ => fill
  | external same payload payload' =>
    cases same
    dsimp only at payload payload'
    simp only [collect, payload, payload']
    refine .recorded (e := .collect .external _ op)
      ((define_mirrors faithful _ .external op).bind fun owner => ?_)
    refine .forM (List.forall₂_map_right_iff.2 (List.forall₂_same.2 fun _ _ => rfl)) ?_
    rintro port _ rfl
    exact addVariable_mirrors .externPort (.ofPort port none owner)

/-- An extraction does the same under other labels. -/
theorem all_mirrors (faithful : r.Faithful) (alike : d.Alike r d') (options : Options) :
    Mirrors r id (all d options) (all d' options) := by
  unfold all
  refine (Mirrors.forM alike.definitions fun here =>
    collect_mirrors faithful alike here options).bind fun _ => .get fun p => ?_
  rw [show (p.relabel r).hierarchy.stats = _ from Hierarchy.relabel_stats r p.hierarchy]
  exact .record (.built p.hierarchy.stats)

end Building

/-- **Relabeling.** Designs that agree up to a relabeling have extractions that agree up to it. -/
theorem Design.Alike.extract_eq [DecidableEq ν] [DecidableEq μ] {r : Relabeling ν μ} {d : Design ν}
    {d' : Design μ} (alike : d.Alike r d') (faithful : r.Faithful) (options : Options) :
    d'.extract options = (d.extract options).relabel r := by
  have mirrored := Building.all_mirrors faithful alike options .start
  have start : Progress.start.relabel r = Progress.start := by
    simp [Progress.relabel, Progress.start, Hierarchy.relabel, Hierarchy.empty,
      Store.relabel, Store.empty, Catalog.relabel, Catalog.empty, LookupMap.map,
      LookupMap.mapKeys, LookupMap.empty]
  rw [start] at mirrored
  unfold Design.extract
  rw [mirrored]
  cases (Building.all d options).run .start with
  | ok a q => simp [Extraction.relabel, Progress.relabel]
  | error failure q => simp [Extraction.relabel, Progress.relabel]

end DebugHierarchy
