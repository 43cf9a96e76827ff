import DebugHierarchy.Design.Basic

/-!
The nesting of a design: operations under operations.

A forest lists operations with what lies in the blocks they own. Reading it in pre-order gives three
lists: every operation, the operations that define modules (`definitions`), and the operations that
belong to one module's body (`body`). A module-like operation is never part of another one's body.
-/

namespace DebugHierarchy

variable {ν μ : Type}

/-- An operation with its handle. -/
abbrev Entry (ν : Type) := OpId × Operation ν

/-- A list of operations, each with the operations nested in it. -/
inductive Forest (ν : Type) where
  | nil
  | cons (id : OpId) (op : Operation ν) (inner rest : Forest ν)
  deriving DecidableEq, Repr

namespace Forest

/-- Every operation, each before those nested in it. -/
def preorder : Forest ν → List (Entry ν)
  | nil => []
  | cons id op inner rest => (id, op) :: inner.preorder ++ rest.preorder

/-- The module-like operations that lie in no other one. -/
def definitions : Forest ν → List (Entry ν)
  | nil => []
  | cons id op inner rest =>
    if op.payload.isModuleLike then (id, op) :: rest.definitions
    else inner.definitions ++ rest.definitions

/-- Every operation that lies in no module-like one, each before those nested in it; the module-like
operations themselves are left out. -/
def body : Forest ν → List (Entry ν)
  | nil => []
  | cons id op inner rest =>
    if op.payload.isModuleLike then rest.body
    else (id, op) :: inner.body ++ rest.body

def map (f : ν → μ) : Forest ν → Forest μ
  | nil => nil
  | cons id op inner rest => cons id (op.map f) (inner.map f) (rest.map f)

end Forest

namespace Design

/-- The forest of the listed operations, cut off below the given depth. -/
def forestOf (d : Design ν) : Nat → List OpId → Forest ν
  | 0, _ => .nil
  | depth + 1, ids =>
    ids.foldr
      (fun id rest =>
        match d.ops[id.index]? with
        | some op => .cons id op (forestOf d depth (op.payload.regions.flatMap d.opsOf)) rest
        | none => rest)
      .nil

/-- What lies in a block. Blocks nest at most as deep as there are blocks, so nothing is cut off. -/
def under (d : Design ν) (block : BlockId) : Forest ν := d.forestOf d.blocks.size (d.opsOf block)

/-- The operations that define modules, in the order in which they are met. -/
def definitions (d : Design ν) : List (Entry ν) := (d.under top).definitions

/-- The operations that belong to the module whose body is `block`, in the order in which they are
met. -/
def bodyOf (d : Design ν) (block : BlockId) : List (Entry ν) := (d.under block).body

end Design

end DebugHierarchy
