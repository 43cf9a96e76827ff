import DebugHierarchy.Design.Basic
import DebugHierarchy.Report.Diagnostic

/-!
Why a design has no hierarchy.

Annotations that are missing are no error: what they would tell is read off the structure. An error
is a design that contradicts itself, and it is named by the operations, values and names it
involves. Its diagnosis finds the places of these in the design.
-/

namespace DebugHierarchy

/-- A contradiction in a design. -/
inductive BuildError (ν : Type) where
  /-- `op` refers to the scope `scope`, which is no scope of its module. -/
  | unresolvedScope (op : OpId) (scope : ValueId)
  /-- One name is defined as a module and as an extern module. -/
  | conflictingKinds (name : ν) (first second : OpId)
  /-- One name is defined twice in the same way. -/
  | duplicateModule (name : ν) (first second : OpId)
  /-- `op` refers to the enum `value`, which is no enum definition of its module. -/
  | invalidEnumReference (op : OpId) (value : ValueId)
  /-- The body of `module` has no value for a port. -/
  | missingPortValue (module : OpId) (port : ν) (position : Nat)
  /-- A module's type is annotated twice. -/
  | duplicateModuleInfo (module : OpId) (first second : OpId)
  deriving DecidableEq, Repr

namespace BuildError

variable {ν μ : Type}

def code : BuildError ν → Code
  | .unresolvedScope .. => .unresolvedScope
  | .conflictingKinds .. => .conflictingKinds
  | .duplicateModule .. => .duplicateModule
  | .invalidEnumReference .. => .invalidEnumReference
  | .missingPortValue .. => .missingPortValue
  | .duplicateModuleInfo .. => .duplicateModuleInfo

/-- The error in one line, everything by handle. -/
def message : BuildError Name → String
  | .unresolvedScope op scope =>
    s!"{op} refers to scope {scope}, which is not a scope of its module"
  | .conflictingKinds name first second =>
    s!"{name} is defined by both {first} and {second} with different kinds"
  | .duplicateModule name first second => s!"{name} is defined twice, by {first} and {second}"
  | .invalidEnumReference op value =>
    s!"{op} links enum value {value}, which is not an enum definition of its module"
  | .missingPortValue module port position =>
    s!"port {port} of {module} has no value at index {position}"
  | .duplicateModuleInfo module first second =>
    s!"{module} has module info at both {first} and {second}"

def map (f : ν → μ) : BuildError ν → BuildError μ
  | .unresolvedScope op scope => .unresolvedScope op scope
  | .conflictingKinds name first second => .conflictingKinds (f name) first second
  | .duplicateModule name first second => .duplicateModule (f name) first second
  | .invalidEnumReference op value => .invalidEnumReference op value
  | .missingPortValue module port position => .missingPortValue module (f port) position
  | .duplicateModuleInfo module first second => .duplicateModuleInfo module first second

end BuildError

namespace Design

variable {ν : Type}

/-- The operation that owns the block an operation stands in. -/
def ownerOf (d : Design ν) (id : OpId) : Except Dangling (Option OpId) := do
  return (← d.block (← d.op id).parent).parent

/-- The first module met on the way up from an operation, for at most `steps` levels. -/
def enclosingFrom (d : Design ν) : (steps : Nat) → OpId →
    Except Dangling (Option (OpId × Operation ν))
  | 0, _ => return none
  | steps + 1, id => do
    let some owner ← d.ownerOf id | return none
    let op ← d.op owner
    match op.payload with
    | .module .. => return some (owner, op)
    | _ => d.enclosingFrom steps owner

/-- The module whose body holds an operation, at whatever depth. An owner comes before what it owns,
so the way up is no longer than there are operations. -/
def enclosingModule (d : Design ν) (id : OpId) : Except Dangling (Option (OpId × Operation ν)) :=
  d.enclosingFrom d.ops.size id

end Design

namespace BuildError

variable {ν : Type}

/-- The name of a module-like operation as a reader sees it. -/
def moduleName (text : ν → Except Dangling String) (op : Operation ν) : Except Dangling String :=
  match op.payload.symbol? with
  | some name => text name
  | none => return "<anonymous>"

section Diagnosis

variable [Inhabited ν] [DecidableEq ν]

/-- Where a module-like operation declares a port: the first port of that
name with a known location. -/
def portLoc? (op : Operation ν) (port : ν) : Option (SourceLoc ν) :=
  (op.payload.ports.find? fun p => p.name = port && !p.loc.isUnknown).map (·.loc)

/-- The diagnostic of an error in the design `d`, with names as `text` gives them. It fails only
where the error refers to something the design does not have or a name has no text. -/
def diagnose (text : ν → Except Dangling String) (d : Design ν) (e : BuildError ν) :
    Except Dangling Diagnostic := do
  let start := Diagnostic.error e.code
  match e with
  | .unresolvedScope op scope =>
    let user ← d.op op
    let start := (start.withMessage
      s!"`{user.payload.mnemonic}` refers to a scope outside its module").withLabel
        (← user.loc.resolve text) "scope used here"
    let origin ← match ← d.definingOp scope with
      | some producer => do
        let producer ← d.op producer
        pure (start.withRelated (← producer.loc.resolve text)
          s!"scope value produced by `{producer.payload.mnemonic}`")
      | none => pure (start.withNote "the scope value is a block argument")
    let located ← match ← d.enclosingModule op with
      | some (_, around) => do
        let name ← moduleName text around
        pure (origin.withRelated (← around.loc.resolve text) s!"in module `{name}`")
      | none => pure origin
    return located.withNote "scopes must be defined by a `dbg.scope` in the same module"
  | .conflictingKinds name first second =>
    let later ← d.op second
    let earlier ← d.op first
    let name ← text name
    let kinds := s!"both `{earlier.payload.mnemonic}` and `{later.payload.mnemonic}`"
    return ((start.withMessage s!"`{name}` is declared as {kinds}").withLabel
      (← later.loc.resolve text) "conflicting declaration").withRelated
        (← earlier.loc.resolve text) "first declared here"
  | .duplicateModule name first second =>
    let later ← d.op second
    let earlier ← d.op first
    let name ← text name
    return ((start.withMessage s!"module `{name}` is defined more than once").withLabel
      (← later.loc.resolve text) "redefined here").withRelated
        (← earlier.loc.resolve text) "first defined here"
  | .invalidEnumReference op value =>
    let user ← d.op op
    let start := (start.withMessage
      "`dbg.variable` links an enum value that is not a `dbg.enumdef` of its module").withLabel
        (← user.loc.resolve text) "enum linked here"
    match ← d.definingOp value with
    | some producer =>
      let producer ← d.op producer
      return start.withRelated (← producer.loc.resolve text)
        s!"value produced by `{producer.payload.mnemonic}`"
    | none => return start
  | .missingPortValue module port position =>
    let owner ← d.op module
    let site := (portLoc? owner port).getD owner.loc
    let port ← text port
    let owner ← moduleName text owner
    return ((start.withMessage
      s!"port `{port}` of module `{owner}` has no value at index {position}").withLabel
      (← site.resolve text) "port declared here").withNote
        "inputs bind to body arguments, outputs to `hw.output` operands"
  | .duplicateModuleInfo module first second =>
    let owner ← d.op module
    let later ← d.op second
    let earlier ← d.op first
    let owner ← moduleName text owner
    return ((start.withMessage s!"module `{owner}` has more than one `dbg.moduleinfo`").withLabel
      (← later.loc.resolve text) "repeated here").withRelated
        (← earlier.loc.resolve text) "first given here"

end Diagnosis

end BuildError

end DebugHierarchy
