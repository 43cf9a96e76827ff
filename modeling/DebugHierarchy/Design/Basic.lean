import DebugHierarchy.Design.Operation

/-!
Hardware designs in flat tables.

A design lists its operations, blocks and values; they refer to each other by handle. It grows by
two steps only: an operation at the end of a block, and an operation together with a new block that
it owns. A handle is always the next free position, so handles count up in the order of creation.
-/

namespace DebugHierarchy

/-- A list of operations with arguments. -/
structure Block where
  args : List ValueId
  ops : Array OpId
  /-- The operation that owns the block; the top block has none. -/
  parent : Option OpId
  deriving DecidableEq, Repr

/-- Where a value comes from. -/
inductive ValueDef where
  | blockArg (block : BlockId) (index : Nat)
  | opResult (op : OpId) (index : Nat)
  deriving DecidableEq, Repr

/-- A hardware design whose names are of type `ν`. -/
@[ext]
structure Design (ν : Type) where
  ops : Array (Operation ν)
  blocks : Array Block
  values : Array ValueDef
  deriving DecidableEq, Repr

namespace Design

variable {ν μ : Type}

/-- The design that consists of an empty top block. -/
def empty : Design ν := ⟨#[], #[⟨[], #[], none⟩], #[]⟩

instance : Inhabited (Design ν) := ⟨empty⟩

/-- The block around everything else. -/
def top : BlockId := ⟨0⟩

def op (d : Design ν) (id : OpId) : Except Dangling (Operation ν) := id.expect d.ops[id.index]?

def block (d : Design ν) (id : BlockId) : Except Dangling Block := id.expect d.blocks[id.index]?

def value (d : Design ν) (id : ValueId) : Except Dangling ValueDef := id.expect d.values[id.index]?

/-- The operation that produces a value; a block argument has none. -/
def definingOp (d : Design ν) (id : ValueId) : Except Dangling (Option OpId) := do
  match ← d.value id with
  | .opResult op _ => return some op
  | .blockArg .. => return none

def opsOf (d : Design ν) (id : BlockId) : List OpId :=
  match d.blocks[id.index]? with
  | some block => block.ops.toList
  | none => []

def argsOf (d : Design ν) (id : BlockId) : List ValueId :=
  match d.blocks[id.index]? with
  | some block => block.args
  | none => []

/-- The operation that ends a block: its last one, if that is an output. -/
def terminator? (d : Design ν) (id : BlockId) : Option OpId := do
  let last ← (← d.blocks[id.index]?).ops.back?
  let op ← d.ops[last.index]?
  if op.payload.output?.isSome then some last else none

/-- The operands of the output that ends a block; none where no output ends it. -/
def outputsOf (d : Design ν) (id : BlockId) : List ValueId :=
  (do (← d.ops[(← d.terminator? id).index]?).payload.output?).getD []

/-- The value a port of a module has in the module's body: an argument of the body, or for an output
an operand of the output that ends the body. -/
def portValue? (d : Design ν) (body : BlockId) (port : Port ν) : Option ValueId :=
  if port.direction.isOutput then (d.outputsOf body)[port.position]?
  else (d.argsOf body)[port.position]?

/-- The counts of a design in words. -/
def summary (d : Design ν) : String :=
  s!"Design \x7b ops: {d.ops.size}, blocks: {d.blocks.size}, values: {d.values.size}, .. \x7d"

def addValues (d : Design ν) (defs : List ValueDef) : List ValueId × Design ν :=
  ((List.range defs.length).map fun i => ⟨d.values.size + i⟩,
    { d with values := d.values ++ defs.toArray })

/-- Appends an operation with `results` results to a block. -/
def addOp (d : Design ν) (parent : BlockId) (loc : SourceLoc ν) (payload : Payload ν)
    (results : Nat) :
    Operation ν × Design ν :=
  let id : OpId := ⟨d.ops.size⟩
  let (values, d) := d.addValues ((List.range results).map fun i => .opResult id i)
  let op := { payload, loc, results := values, parent }
  (op, { d with
    ops := d.ops.push op
    blocks := d.blocks.modify parent.index fun b => { b with ops := b.ops.push id } })

/-- Appends an operation to a block, together with a new block that it owns and that has `args`
arguments. -/
def addOwner (d : Design ν) (parent : BlockId) (loc : SourceLoc ν) (payload : BlockId → Payload ν)
    (args : Nat) : BlockId × Design ν :=
  let id : OpId := ⟨d.ops.size⟩
  let region : BlockId := ⟨d.blocks.size⟩
  let (_, d) := d.addOp parent loc (payload region) 0
  let (values, d) := d.addValues ((List.range args).map fun i => .blockArg region i)
  (region, { d with blocks := d.blocks.push ⟨values, #[], some id⟩ })

def map (f : ν → μ) (d : Design ν) : Design μ :=
  { ops := d.ops.map (·.map f), blocks := d.blocks, values := d.values }

end Design

end DebugHierarchy
