import DebugHierarchy.Design.Operation

/-!
Scripts: descriptions of designs, statement by statement.

A script is a list of statements, some of which enclose further ones. A module opens a body, and a
region opens a nested body that shares the module's inputs; a container groups module definitions.
Statements refer to values by the input they are, by a label, or by a bare number.
-/

namespace DebugHierarchy

/-- A reference to a value. -/
inductive Ref where
  /-- An input of the module around the statement. -/
  | input (index : Nat)
  /-- The result of the statement that bears a label. -/
  | label (label : String)
  /-- A value by its number, whether or not there is one. -/
  | value (id : ValueId)
  deriving DecidableEq, Repr

/-- A port as it is declared. -/
structure PortDecl where
  direction : Direction
  name : String
  loc : Option (SourceLoc String)
  deriving DecidableEq, Repr

namespace PortDecl

/-- Numbers declared ports: outputs count up from `outputs`, all others from `others`. -/
def numberFrom (others outputs : Nat) : List PortDecl → List (Port String)
  | [] => []
  | p :: rest =>
    let port (position : Nat) : Port String :=
      { name := p.name, direction := p.direction, position, loc := p.loc.getD .unknown }
    if p.direction.isOutput then port outputs :: numberFrom others (outputs + 1) rest
    else port others :: numberFrom (others + 1) outputs rest

/-- The ports of a module, each numbered among those that take their values from the same place. -/
def number (ports : List PortDecl) : List (Port String) := numberFrom 0 0 ports

/-- How many arguments the body of a module with these ports has. -/
def argCount (ports : List PortDecl) : Nat := ports.countP fun p => !p.direction.isOutput

/-- The strings of a module's head in the order in which they are read: the files of port locations,
the module's name, the names of the ports. -/
def mentions (name : String) (ports : List PortDecl) : List String :=
  ports.filterMap (·.loc.map (·.file)) ++ name :: ports.map (·.name)

end PortDecl

/-- A statement that makes one operation, and no block. -/
inductive Leaf where
  | inst (name moduleName : String) (inputs : List Ref)
  | wire (name : String) (input : Option Ref)
  | output (operands : List Ref)
  | dbgVariable (note : VariableNote String Ref)
  | dbgScope (note : ScopeNote String Ref)
  | moduleInfo (typeName : String) (params : Option (ParamValue String))
  | enumDef (note : EnumNote String)
  | other (name : String) (operands : List Ref)
  deriving DecidableEq, Repr

namespace Leaf

def results : Leaf → Nat
  | .wire .. | .other .. | .dbgScope .. | .enumDef .. => 1
  | .inst .. | .output .. | .dbgVariable .. | .moduleInfo .. => 0

/-- The strings of a statement, in the order in which they are read. -/
def mentions : Leaf → List String
  | .inst name moduleName _ => [name, moduleName]
  | .wire name _ => [name]
  | .output _ => []
  | .dbgVariable note =>
    note.name :: note.typeName.toList ++ (note.params.map (·.names)).getD []
  | .dbgScope note => [note.name, note.moduleName]
  | .moduleInfo typeName params => (params.map (·.names)).getD [] ++ [typeName]
  | .enumDef note => note.name :: note.variants.map (·.1)
  | .other name _ => [name]

/-- The operation a statement makes, its references read by `read`. -/
def payload {m : Type → Type} [Monad m] (read : Ref → m ValueId) : Leaf → m (Payload String)
  | .inst name moduleName inputs => return .inst name moduleName (← inputs.mapM read)
  | .wire name input => return .wire name (← input.mapM read)
  | .output operands => return .output (← operands.mapM read)
  | .dbgVariable note => do
    let value ← read note.value
    let scope ← note.scope.mapM read
    let enumDef ← note.enumDef.mapM read
    return .dbgVariable { note with value, scope, enumDef }
  | .dbgScope note => do
    let scope ← note.scope.mapM read
    return .dbgScope { note with scope }
  | .moduleInfo typeName params => return .moduleInfo typeName params
  | .enumDef note => return .enumDef note
  | .other name operands => return .other name (← operands.mapM read) []

end Leaf

/-- The statements of a module body or of a region. -/
inductive Body where
  | done
  /-- Sets the location of the following operations at this level; without a place, to unknown. -/
  | loc (place : Option (SourceLoc String)) (rest : Body)
  /-- Makes a string known, and nothing else. -/
  | mention (s : String) (rest : Body)
  | leaf (label : Option String) (statement : Leaf) (rest : Body)
  | region (name : String) (inner rest : Body)
  deriving DecidableEq, Repr

namespace Body

def append : Body → Body → Body
  | .done, next => next
  | .loc place rest, next => .loc place (rest.append next)
  | .mention s rest, next => .mention s (rest.append next)
  | .leaf label statement rest, next => .leaf label statement (rest.append next)
  | .region name inner rest, next => .region name inner (rest.append next)

instance : Append Body := ⟨append⟩

/-- `inner` within `depth` regions, one in the other, followed by `rest`. -/
def nest (name : String) (inner : Body) : Nat → Body → Body
  | 0, rest => inner ++ rest
  | depth + 1, rest => .region name (nest name inner depth .done) rest

end Body

/-- The statements of a design. -/
inductive Script where
  | done
  /-- Sets the location of the following operations; without a place, to unknown. -/
  | loc (place : Option (SourceLoc String)) (rest : Script)
  /-- Makes a string known, and nothing else. -/
  | mention (s : String) (rest : Script)
  | module (name : String) (ports : List PortDecl) (body : Body) (rest : Script)
  | externModule (name : String) (ports : List PortDecl) (rest : Script)
  | container (name : String) (inner rest : Script)
  deriving DecidableEq, Repr

namespace Script

def append : Script → Script → Script
  | .done, next => next
  | .loc place rest, next => .loc place (rest.append next)
  | .mention s rest, next => .mention s (rest.append next)
  | .module name ports body rest, next => .module name ports body (rest.append next)
  | .externModule name ports rest, next => .externModule name ports (rest.append next)
  | .container name inner rest, next => .container name inner (rest.append next)

instance : Append Script := ⟨append⟩

/-- `inner` within `depth` containers, one in the other, followed by `rest`. -/
def nest (name : String) (inner : Script) : Nat → Script → Script
  | 0, rest => inner ++ rest
  | depth + 1, rest => .container name (nest name inner depth .done) rest

end Script

end DebugHierarchy
