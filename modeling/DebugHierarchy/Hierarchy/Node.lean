import DebugHierarchy.Design.Operation
import DebugHierarchy.Hierarchy.Presence
import DebugHierarchy.SortedMap

/-!
The nodes of a hierarchy.

A module owns variables and instances, and lists them in the order in which they were found. An
instance leads from its owner to the module it instantiates. References between nodes are handles,
so a node may be referred to before it is complete.
-/

namespace DebugHierarchy

variable {ν μ : Type}

/-- What kind of operation defines a module. -/
inductive ModuleKind where
  | module
  | external
  deriving DecidableEq, Repr

def Payload.moduleKind? : Payload ν → Option ModuleKind
  | .module .. => some .module
  | .externModule .. => some .external
  | _ => none

/-- A type of the source language: its name and parameters, kept as found. -/
structure SourceType (ν : Type) where
  typeName : Option ν
  params : Option (ParamValue ν)
  deriving DecidableEq, Repr

/-- The type with these parts; nothing if there are none. -/
def SourceType.ofParts (typeName : Option ν) (params : Option (ParamValue ν)) :
    Option (SourceType ν) :=
  if typeName.isNone && params.isNone then none else some ⟨typeName, params⟩

instance : Ranked EnumId := ⟨fun id => id.number, by
  rintro ⟨a⟩ ⟨b⟩ same
  exact congrArg EnumId.mk (Int.ofNat.inj same)⟩

/-- How the values of an enum of the source language are named. -/
structure EnumDefinition (ν : Type) where
  name : ν
  variants : SortedMap Int ν
  deriving DecidableEq

namespace EnumDefinition

/-- The definition a note gives. Of two variants with one value the later one is kept. -/
def ofNote (note : EnumNote ν) : EnumDefinition ν :=
  ⟨note.name, .ofList (note.variants.map fun v => (v.2, v.1))⟩

def variant? (e : EnumDefinition ν) (value : Int) : Option ν := e.variants.find? value

end EnumDefinition

/-- Where a module comes from. -/
inductive Origin where
  /-- From nothing but references to its name. -/
  | referenced
  /-- From the operation that defines it. -/
  | defined (kind : ModuleKind) (op : OpId)
  /-- From a scope inside the body of another module. Such a module is inline: it stands for a level
  of the source hierarchy, and no name finds it. -/
  | scope (op : OpId) (parent : ModuleId)
  deriving DecidableEq, Repr

@[simp] def Origin.definition? : Origin → Option (ModuleKind × OpId)
  | .defined kind op => some (kind, op)
  | _ => none

/-- A module of a hierarchy. -/
@[ext]
structure ModuleNode (ν : Type) where
  name : ν
  origin : Origin
  sourceType : Option (SourceType ν)
  enums : SortedMap EnumId (EnumDefinition ν)
  vars : Array VariableId
  insts : Array InstanceId
  /-- The parts that annotations tell. -/
  explicit : Presence
  deriving DecidableEq

namespace ModuleNode

/-- A module with nothing in it. -/
def bare (name : ν) (origin : Origin) : ModuleNode ν :=
  ⟨name, origin, none, .empty, #[], #[], .none⟩

def definition? (m : ModuleNode ν) : Option (ModuleKind × OpId) := m.origin.definition?

def op? (m : ModuleNode ν) : Option OpId :=
  match m.origin with
  | .referenced => none
  | .defined _ op | .scope op _ => some op

def isExtern (m : ModuleNode ν) : Bool :=
  match m.origin with
  | .defined .external _ => true
  | _ => false

def isInline (m : ModuleNode ν) : Bool :=
  match m.origin with
  | .scope .. => true
  | _ => false

/-- The module whose body holds the scope of an inline module. -/
def parent? (m : ModuleNode ν) : Option ModuleId :=
  match m.origin with
  | .scope _ parent => some parent
  | _ => none

/-- The module has no type, no enums, no variables and no instances. -/
def isEmpty (m : ModuleNode ν) : Bool :=
  m.sourceType.isNone && m.enums.toList.isEmpty && m.vars.isEmpty && m.insts.isEmpty

def enum? (m : ModuleNode ν) (id : EnumId) : Option (EnumDefinition ν) := m.enums.find? id

end ModuleNode

/-- An instantiation of a module within the module that owns the node. -/
structure InstanceNode (ν : Type) where
  name : ν
  target : ModuleId
  /-- The instance or scope the node comes from. -/
  op : OpId
  deriving DecidableEq, Repr

/-- A value that a debugger shows. -/
structure VariableNode (ν : Type) where
  name : ν
  loc : SourceLoc ν
  /-- The value of the design; ports of extern modules have none. -/
  value : Option ValueId
  sourceType : Option (SourceType ν)
  /-- The number of an enum definition of the owner, or of the module around an inline owner. -/
  enumId : Option EnumId
  /-- The module that lists the variable. -/
  owner : ModuleId
  deriving DecidableEq, Repr

def VariableNode.ofPort (port : Port ν) (value : Option ValueId) (owner : ModuleId) :
    VariableNode ν :=
  ⟨port.name, port.loc, value, none, none, owner⟩

/-! Changing every name of a node by `f`. -/

def SourceType.map (f : ν → μ) (t : SourceType ν) : SourceType μ :=
  ⟨t.typeName.map f, t.params.map (·.map f)⟩

def EnumDefinition.map (f : ν → μ) (e : EnumDefinition ν) : EnumDefinition μ :=
  ⟨f e.name, e.variants.map f⟩

def ModuleNode.map (f : ν → μ) (m : ModuleNode ν) : ModuleNode μ where
  name := f m.name
  origin := m.origin
  sourceType := m.sourceType.map (·.map f)
  enums := m.enums.map (·.map f)
  vars := m.vars
  insts := m.insts
  explicit := m.explicit

def InstanceNode.map (f : ν → μ) (i : InstanceNode ν) : InstanceNode μ := ⟨f i.name, i.target, i.op⟩

def VariableNode.map (f : ν → μ) (v : VariableNode ν) : VariableNode μ where
  name := f v.name
  loc := v.loc.map f
  value := v.value
  sourceType := v.sourceType.map (·.map f)
  enumId := v.enumId
  owner := v.owner

end DebugHierarchy
