import DebugHierarchy.Design.Forest
import DebugHierarchy.Extraction.BuildError
import DebugHierarchy.Extraction.Journal
import DebugHierarchy.Extraction.Options

/-!
From a design to its hierarchy.

Modules are taken one by one, in the order of their definitions. The body of a module is read
twice. A survey notes which annotations there are, gives each scope an inline module, and
collects the module's type and enums. Then the body is filled in: annotations become variables
and instances, and a part for which the survey found no annotation is read off ports, wires
and instance operations instead. The survey comes first because an annotation may refer to a
scope or an enum that follows it.
-/

namespace DebugHierarchy

variable {ν : Type}

/-- How far an extraction has come. -/
structure Progress (ν : Type) where
  hierarchy : Hierarchy ν
  journal : Array (Event ν)

namespace Progress

def start : Progress ν := ⟨.empty, #[]⟩

/-- Enters an event in the journal and lets it take effect. -/
def record (p : Progress ν) (e : Event ν) : Progress ν := ⟨p.hierarchy.apply e, p.journal.push e⟩

end Progress

/-- Why an extraction ended early. -/
inductive Failure (ν : Type) where
  /-- An annotation refers to a value that the design does not have. -/
  | dangling (what : Dangling)
  /-- The design contradicts itself. -/
  | invalid (error : BuildError ν)
  deriving DecidableEq, Repr

/-- A step of an extraction; what was recorded before a failure stays. -/
abbrev Building (ν : Type) := EStateM (Failure ν) (Progress ν)

/-- What the survey of a module's body has found. -/
structure Survey where
  presence : Presence := .none
  /-- The scopes of the body with their inline modules, the latest first. -/
  scopes : List (OpId × ModuleId) := []
  /-- The latest annotation of the module's type. -/
  info : Option OpId := none
  /-- The enum definitions of the body with their numbers, the latest first. -/
  enums : List (OpId × EnumId) := []
  deriving DecidableEq, Repr

namespace Survey

/-- The inline module of a scope of the body. -/
def scope? (s : Survey) (op : OpId) : Option ModuleId := s.scopes.lookup op

/-- The number of an enum definition of the body. -/
def enum? (s : Survey) (op : OpId) : Option EnumId := s.enums.lookup op

end Survey

namespace Building

/-- Enters an event in the journal. -/
def record (e : Event ν) : Building ν Unit := modify (·.record e)

/-- Ends the extraction if a handle names nothing. -/
def require {α : Type} : Except Dangling α → Building ν α
  | .ok a => pure a
  | .error what => throw (.dangling what)

def reject {α : Type} (error : BuildError ν) : Building ν α := throw (.invalid error)

/-- The module of a name, which is made when the name is met for the first time. -/
def moduleOf [DecidableEq ν] (name : ν) : Building ν ModuleId := do
  match (← get).hierarchy.find? name with
  | some id => return id
  | none =>
    let id := (← get).hierarchy.store.nextModule
    record (.register id name)
    return id

def definitionOf [DecidableEq ν] (name : ν) : Building ν (Option (ModuleKind × OpId)) :=
  return (← get).hierarchy.catalog.definition? name

/-- Makes `op` the definition of the module of a name, which may have one definition only. -/
def define [DecidableEq ν] (name : ν) (kind : ModuleKind) (op : OpId) : Building ν ModuleId := do
  let id ← moduleOf name
  match ← definitionOf name with
  | none =>
    record (.define id kind op)
    return id
  | some (first, firstOp) =>
    if first = kind then reject (.duplicateModule name firstOp op)
    else reject (.conflictingKinds name firstOp op)

def addVariable (origin : VariableOrigin) (node : VariableNode ν) : Building ν Unit := do
  let id := (← get).hierarchy.store.nextVariable
  record (.addVariable origin id node)

def addInstance (origin : InstanceOrigin) (owner : ModuleId) (node : InstanceNode ν) :
    Building ν Unit := do
  let id := (← get).hierarchy.store.nextInstance
  record (.addInstance origin id owner node)

/-- Adds an inline module for a scope in the body of a module. -/
def addInline (name : ν) (scope : OpId) (parent : ModuleId) : Building ν ModuleId := do
  let id := (← get).hierarchy.store.nextModule
  record (.inlineModule id name scope parent)
  return id

/-- Surveys one operation of the body of the module `owner`, which is defined by `definition`. -/
def surveyOp (policy : InfoPolicy) (owner : ModuleId) (definition : OpId) (s : Survey)
    (entry : Entry ν) : Building ν Survey := do
  let (id, op) := entry
  match op.payload with
  | .dbgVariable _ => return { s with presence := { s.presence with vars := true } }
  | .dbgScope note =>
    let inline ← addInline note.moduleName id owner
    return { s with
      presence := { s.presence with insts := true }
      scopes := (id, inline) :: s.scopes }
  | .moduleInfo typeName params =>
    match s.info with
    | some first =>
      if policy = .strict then reject (.duplicateModuleInfo definition first id)
      record (.replaceInfo first id)
    | none => pure ()
    record (.setInfo owner (SourceType.ofParts (some typeName) params))
    return { s with info := some id }
  | .enumDef note =>
    if s.enums.any (·.2 = note.id) then record (.keepEnum id note.id)
    else record (.setEnum owner note.id (.ofNote note))
    return { s with enums := (id, note.id) :: s.enums }
  | _ => return s

def survey (policy : InfoPolicy) (owner : ModuleId) (definition : OpId) (body : List (Entry ν)) :
    Building ν Survey := do
  let s ← body.foldlM (surveyOp policy owner definition) {}
  record (.surveyed owner s.presence)
  return s

def addPorts (d : Design ν) (owner : ModuleId) (definition : OpId) (body : BlockId)
    (ports : List (Port ν)) : Building ν Unit :=
  forM ports fun port =>
    match d.portValue? body port with
    | some value => addVariable .port (.ofPort port (some value) owner)
    | none => reject (.missingPortValue definition port.name port.position)

/-- The module that a reference to a scope stands for, in the body of the module `owner`. -/
def scopeTarget (d : Design ν) (policy : ScopePolicy) (s : Survey) (owner : ModuleId)
    (user : OpId) : Option ValueId → Building ν ModuleId
  | none => return owner
  | some scope => do
    match (← require (d.definingOp scope)).bind s.scope? with
    | some inline => return inline
    | none =>
      match policy with
      | .error => reject (.unresolvedScope user scope)
      | .enclosing =>
        record (.looseScope user scope)
        return owner

def enumTarget (d : Design ν) (s : Survey) (user : OpId) :
    Option ValueId → Building ν (Option EnumId)
  | none => return none
  | some value => do
    match (← require (d.definingOp value)).bind s.enum? with
    | some id => return some id
    | none => reject (.invalidEnumReference user value)

/-- Fills in one operation of the body of the module `owner`. -/
def fillOp [DecidableEq ν] (d : Design ν) (policy : ScopePolicy) (s : Survey) (owner : ModuleId)
    (entry : Entry ν) : Building ν Unit := do
  let (id, op) := entry
  match op.payload with
  | .dbgVariable note =>
    let target ← scopeTarget d policy s owner id note.scope
    let enumId ← enumTarget d s id note.enumDef
    addVariable .annotated
      ⟨note.name, op.loc, some note.value, SourceType.ofParts note.typeName note.params,
        enumId, target⟩
  | .dbgScope note =>
    let target ← scopeTarget d policy s owner id note.scope
    let inline ← require (id.expect (s.scope? id))
    addInstance .scope target ⟨note.name, inline, id⟩
  | .inst name moduleName _ =>
    unless s.presence.insts do
      let target ← moduleOf moduleName
      addInstance .structural owner ⟨name, target, id⟩
  | .wire name _ =>
    unless s.presence.vars do
      addVariable .wire ⟨name, op.loc, op.result?, none, none, owner⟩
  | _ => return

/-! ### The whole design -/

/-- Takes in an operation that defines a module. -/
def collect [DecidableEq ν] (d : Design ν) (options : Options) (entry : Entry ν) :
    Building ν Unit := do
  let (id, op) := entry
  match op.payload with
  | .module name ports body =>
    record (.collect .module name id)
    let owner ← define name .module id
    let entries := d.bodyOf body
    let s ← survey options.info owner id entries
    unless s.presence.vars do addPorts d owner id body ports
    forM entries (fillOp d options.scopes s owner)
  | .externModule name ports =>
    record (.collect .external name id)
    let owner ← define name .external id
    forM ports fun port => addVariable .externPort (.ofPort port none owner)
  | _ => return

/-- Takes in every definition of a design. -/
def all [DecidableEq ν] (d : Design ν) (options : Options) : Building ν Unit := do
  forM d.definitions (collect d options)
  record (.built (← get).hierarchy.stats)

end Building

/-- What comes of an extraction. -/
structure Extraction (ν : Type) where
  outcome : Except (Failure ν) (Hierarchy ν)
  journal : List (Event ν)

/-- Extracts the hierarchy of a design. -/
def Design.extract [DecidableEq ν] (d : Design ν) (options : Options) : Extraction ν :=
  match (Building.all d options).run .start with
  | .ok _ p => ⟨.ok p.hierarchy, p.journal.toList⟩
  | .error failure p => ⟨.error failure, p.journal.toList⟩

end DebugHierarchy
