import DebugHierarchy.Design.ParamValue
import DebugHierarchy.Design.SourceLoc

/-!
Operations of a hardware design.

Hardware structure (modules, instances, wires, outputs) and the debug annotations on it (variables,
scopes, module types, enums) have a payload of their own. Every other operation is `other`: it may
produce a value and own blocks, and that is all that is known of it.
-/

namespace DebugHierarchy

/-- Which way a port carries values. -/
inductive Direction where
  | input
  | output
  | inout
  deriving DecidableEq, Repr

/-- Output ports take their values from the operands that end a module body; all
others are arguments of the body. -/
def Direction.isOutput (d : Direction) : Bool := d = .output

/-- A port of a module. -/
structure Port (ν : Type) where
  name : ν
  direction : Direction
  /-- The position among the ports that take their values from the same place. -/
  position : Nat
  loc : SourceLoc ν
  deriving DecidableEq, Repr

/-- A name for a value, with what the source language says about it. -/
structure VariableNote (ν ρ : Type) where
  name : ν
  value : ρ
  /-- The scope the variable is declared in. -/
  scope : Option ρ
  typeName : Option ν
  params : Option (ParamValue ν)
  /-- The enum definition that tells how the value is encoded. -/
  enumDef : Option ρ
  deriving DecidableEq, Repr

/-- A level of the source hierarchy that lies inside one module. -/
structure ScopeNote (ν ρ : Type) where
  name : ν
  moduleName : ν
  /-- The scope around this one. -/
  scope : Option ρ
  deriving DecidableEq, Repr

/-- The encoding of an enum of the source language, variants in the order of their declaration. -/
structure EnumNote (ν : Type) where
  name : ν
  id : EnumId
  variants : List (ν × Int)
  deriving DecidableEq, Repr

/-- What an operation is. -/
inductive Payload (ν : Type) where
  | module (name : ν) (ports : List (Port ν)) (body : BlockId)
  | externModule (name : ν) (ports : List (Port ν))
  | inst (name : ν) (moduleName : ν) (inputs : List ValueId)
  | wire (name : ν) (input : Option ValueId)
  | output (operands : List ValueId)
  | dbgVariable (note : VariableNote ν ValueId)
  | dbgScope (note : ScopeNote ν ValueId)
  | moduleInfo (typeName : ν) (params : Option (ParamValue ν))
  | enumDef (note : EnumNote ν)
  | other (name : ν) (operands : List ValueId) (regions : List BlockId)
  deriving DecidableEq, Repr

/-- An operation at its place in a design. -/
structure Operation (ν : Type) where
  payload : Payload ν
  loc : SourceLoc ν
  results : List ValueId
  /-- The block that lists the operation. -/
  parent : BlockId
  deriving DecidableEq, Repr

variable {ν μ : Type}

namespace Payload

/-- The blocks an operation owns, in order. -/
def regions : Payload ν → List BlockId
  | .module _ _ body => [body]
  | .other _ _ regions => regions
  | _ => []

def symbol? : Payload ν → Option ν
  | .module name _ _ | .externModule name _ => some name
  | _ => none

/-- Modules and extern modules: operations that define a module by name. -/
def isModuleLike (p : Payload ν) : Bool := p.symbol?.isSome

def ports : Payload ν → List (Port ν)
  | .module _ ports _ | .externModule _ ports => ports
  | _ => []

def output? : Payload ν → Option (List ValueId)
  | .output operands => some operands
  | _ => none

/-- The written name of the kind of operation. -/
def mnemonic : Payload ν → String
  | .module .. => "hw.module"
  | .externModule .. => "hw.module.extern"
  | .inst .. => "hw.instance"
  | .wire .. => "hw.wire"
  | .output .. => "hw.output"
  | .dbgVariable .. => "dbg.variable"
  | .dbgScope .. => "dbg.scope"
  | .moduleInfo .. => "dbg.moduleinfo"
  | .enumDef .. => "dbg.enumdef"
  | .other .. => "opaque"

end Payload

def Operation.result? (op : Operation ν) : Option ValueId := op.results.head?

/-! Changing every name of an operation by `f`. -/

def Port.map (f : ν → μ) (p : Port ν) : Port μ :=
  { name := f p.name, direction := p.direction, position := p.position, loc := p.loc.map f }

def VariableNote.map {ρ : Type} (f : ν → μ) (v : VariableNote ν ρ) : VariableNote μ ρ where
  name := f v.name
  value := v.value
  scope := v.scope
  typeName := v.typeName.map f
  params := v.params.map (·.map f)
  enumDef := v.enumDef

def ScopeNote.map {ρ : Type} (f : ν → μ) (s : ScopeNote ν ρ) : ScopeNote μ ρ :=
  { name := f s.name, moduleName := f s.moduleName, scope := s.scope }

def EnumNote.map (f : ν → μ) (e : EnumNote ν) : EnumNote μ :=
  { name := f e.name, id := e.id, variants := e.variants.map fun v => (f v.1, v.2) }

def Payload.map (f : ν → μ) : Payload ν → Payload μ
  | .module name ports body => .module (f name) (ports.map (·.map f)) body
  | .externModule name ports => .externModule (f name) (ports.map (·.map f))
  | .inst name moduleName inputs => .inst (f name) (f moduleName) inputs
  | .wire name input => .wire (f name) input
  | .output operands => .output operands
  | .dbgVariable note => .dbgVariable (note.map f)
  | .dbgScope note => .dbgScope (note.map f)
  | .moduleInfo typeName params => .moduleInfo (f typeName) (params.map (·.map f))
  | .enumDef note => .enumDef (note.map f)
  | .other name operands regions => .other (f name) operands regions

def Operation.map (f : ν → μ) (op : Operation ν) : Operation μ :=
  { payload := op.payload.map f, loc := op.loc.map f, results := op.results, parent := op.parent }

end DebugHierarchy
