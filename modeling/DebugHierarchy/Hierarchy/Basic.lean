import DebugHierarchy.Hierarchy.Node
import DebugHierarchy.LookupMap

/-!
Hierarchies of modules, instances and variables.

The nodes stand in a store, each kind in the order of its creation. A catalog finds modules by name.
It holds a module for every name that was defined or instantiated, in the order in which the names
were met; inline modules stand in the store only.
-/

namespace DebugHierarchy

/-- The nodes of a hierarchy, by handle. -/
@[ext]
structure Store (ν : Type) where
  modules : Array (ModuleNode ν)
  insts : Array (InstanceNode ν)
  vars : Array (VariableNode ν)
  deriving DecidableEq

/-- What a catalog has of a name: its module, and the kind and the operation that define it. -/
structure Slot where
  id : ModuleId
  definition : Option (ModuleKind × OpId)
  deriving DecidableEq

/-- The slot with its definition entered if it is that of the module `id`. -/
def Slot.define (slot : Slot) (id : ModuleId) (kind : ModuleKind) (op : OpId) : Slot :=
  if slot.id = id then { slot with definition := some (kind, op) } else slot

@[simp] theorem Slot.define_id (slot : Slot) (id : ModuleId) (kind : ModuleKind) (op : OpId) :
    (slot.define id kind op).id = slot.id := by
  unfold define
  split <;> rfl

/-- The modules that have a name of their own. -/
@[ext]
structure Catalog (ν : Type) where
  slots : LookupMap ν Slot
  /-- The modules, in the order in which their names were met. -/
  order : Array ModuleId
  /-- The modules that were defined, in the order of their definitions. -/
  defined : Array ModuleId
  deriving DecidableEq

/-- A hierarchy whose names are of type `ν`. -/
@[ext]
structure Hierarchy (ν : Type) where
  store : Store ν
  catalog : Catalog ν
  deriving DecidableEq

/-- The numbers of nodes in a hierarchy. -/
structure Stats where
  /-- Modules that have a name of their own. -/
  registryModules : Nat
  /-- Modules that stand for scopes. -/
  inlineModules : Nat
  insts : Nat
  vars : Nat
  deriving DecidableEq, Repr

variable {ν μ : Type}

namespace Store

def empty : Store ν := ⟨#[], #[], #[]⟩

def modifyModule (s : Store ν) (id : ModuleId) (f : ModuleNode ν → ModuleNode ν) : Store ν :=
  { s with modules := s.modules.modify id.index f }

def addModule (s : Store ν) (m : ModuleNode ν) : Store ν := { s with modules := s.modules.push m }

/-- Adds a variable, also to the list of its owner. -/
def addVariable (s : Store ν) (v : VariableNode ν) : Store ν :=
  let id : VariableId := ⟨s.vars.size⟩
  { s with vars := s.vars.push v }.modifyModule v.owner fun m =>
    { m with vars := m.vars.push id }

/-- Adds an instance, also to the list of its owner. -/
def addInstance (s : Store ν) (owner : ModuleId) (i : InstanceNode ν) : Store ν :=
  let id : InstanceId := ⟨s.insts.size⟩
  { s with insts := s.insts.push i }.modifyModule owner fun m =>
    { m with insts := m.insts.push id }

def nextModule (s : Store ν) : ModuleId := ⟨s.modules.size⟩

def nextInstance (s : Store ν) : InstanceId := ⟨s.insts.size⟩

def nextVariable (s : Store ν) : VariableId := ⟨s.vars.size⟩

def map (f : ν → μ) (s : Store ν) : Store μ :=
  ⟨s.modules.map (·.map f), s.insts.map (·.map f), s.vars.map (·.map f)⟩

end Store

namespace Catalog

def empty : Catalog ν := ⟨.empty, #[], #[]⟩

def find? [DecidableEq ν] (c : Catalog ν) (name : ν) : Option ModuleId :=
  (c.slots.find? name).map (·.id)

/-- The kind and the operation that define a name. -/
def definition? [DecidableEq ν] (c : Catalog ν) (name : ν) : Option (ModuleKind × OpId) :=
  (c.slots.find? name).bind (·.definition)

/-- Adds a module for a name that has none. -/
def register (c : Catalog ν) (id : ModuleId) (name : ν) : Catalog ν :=
  { c with slots := c.slots.push name ⟨id, none⟩, order := c.order.push id }

def define (c : Catalog ν) (id : ModuleId) (kind : ModuleKind) (op : OpId) : Catalog ν :=
  { c with
    slots := c.slots.map (·.define id kind op)
    defined := c.defined.push id }

def map (f : ν → μ) (c : Catalog ν) : Catalog μ := { c with slots := c.slots.mapKeys f }

end Catalog

namespace Hierarchy

def empty : Hierarchy ν := ⟨.empty, .empty⟩

instance : Inhabited (Hierarchy ν) := ⟨empty⟩

def map (f : ν → μ) (h : Hierarchy ν) : Hierarchy μ := ⟨h.store.map f, h.catalog.map f⟩

def module (h : Hierarchy ν) (id : ModuleId) : Except Dangling (ModuleNode ν) :=
  id.expect h.store.modules[id.index]?

def inst (h : Hierarchy ν) (id : InstanceId) : Except Dangling (InstanceNode ν) :=
  id.expect h.store.insts[id.index]?

def dbgVariable (h : Hierarchy ν) (id : VariableId) : Except Dangling (VariableNode ν) :=
  id.expect h.store.vars[id.index]?

/-- Every module that has a name of its own, in the order in which the names were met. -/
def modules (h : Hierarchy ν) : List ModuleId := h.catalog.order.toList

/-- The modules that were defined, in the order of their definitions. -/
def topLevel (h : Hierarchy ν) : List ModuleId := h.catalog.defined.toList

/-- Some instance leads to the module, and the module is not inline. -/
def isInstantiated (h : Hierarchy ν) (id : ModuleId) : Bool :=
  h.store.insts.any (·.target = id) &&
    (h.store.modules[id.index]?).any fun m => !m.isInline

/-- The defined modules to which no instance leads: where the hierarchy starts. -/
def roots (h : Hierarchy ν) : List ModuleId := h.topLevel.filter fun id => !h.isInstantiated id

def find? [DecidableEq ν] (h : Hierarchy ν) (name : ν) : Option ModuleId := h.catalog.find? name

/-- The module of a string, which is looked up in a table of names but not added to it. -/
def findText? (h : Hierarchy Name) (names : NameTable) (s : String) : Option ModuleId :=
  (names.find? s).bind h.find?

def enum? (h : Hierarchy ν) (id : ModuleId) (enum : EnumId) :
    Except Dangling (Option (EnumDefinition ν)) := do
  return (← h.module id).enum? enum

/-- A module, the module around it if it is inline, and so on, for at most `steps` modules. -/
def chainFrom (h : Hierarchy ν) : (steps : Nat) → ModuleId → List (ModuleNode ν)
  | 0, _ => []
  | steps + 1, id =>
    match h.store.modules[id.index]? with
    | none => []
    | some m =>
      m :: match m.parent? with
        | some parent => h.chainFrom steps parent
        | none => []

/-- A module and the modules around it, from the inside out. No chain is
longer than there are modules. -/
def chain (h : Hierarchy ν) (id : ModuleId) : List (ModuleNode ν) :=
  h.chainFrom h.store.modules.size id

/-- The enum definition a variable refers to: that of the innermost module around it that has one
with the variable's number. -/
def resolveEnum (h : Hierarchy ν) (id : VariableId) :
    Except Dangling (Option (EnumDefinition ν)) := do
  let v ← h.dbgVariable id
  return v.enumId.bind fun enum => (h.chain v.owner).findSome? (·.enum? enum)

def stats (h : Hierarchy ν) : Stats where
  registryModules := h.catalog.order.size
  inlineModules := h.store.modules.size - h.catalog.order.size
  insts := h.store.insts.size
  vars := h.store.vars.size

end Hierarchy

def Stats.text (s : Stats) : String :=
  s!"DebugInfoStats \x7b registry_modules: {s.registryModules}, " ++
    s!"inline_modules: {s.inlineModules}, instances: {s.insts}, variables: {s.vars} \x7d"

/-- A hierarchy in words: its counts. -/
def Hierarchy.summary (h : Hierarchy ν) : String :=
  s!"DebugInfo \x7b stats: {h.stats.text}, .. \x7d"

end DebugHierarchy
