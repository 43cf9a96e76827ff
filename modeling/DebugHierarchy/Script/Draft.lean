import DebugHierarchy.Design.Basic
import DebugHierarchy.Script.Basic

/-!
From a script to its design.

Statements are carried out in order. Each adds to a draft: a design whose names are still strings,
the strings mentioned so far, and the values that labels stand for. Only when the statements are
done are the strings numbered, in the order in which they were mentioned; so the shape of a design
does not depend on the table its names come from.

Two kinds of nesting differ in what they do to the current location. A body starts with the location
of the statement that opens it and keeps its changes to itself; a container lets its changes out.
-/

namespace DebugHierarchy

/-- A reference to a value that is not there. -/
inductive Fault where
  | noInput (index : Nat)
  | noLabel (label : String)
  deriving DecidableEq, Repr

/-- What the statements carried out so far have made. -/
structure Draft where
  design : Design String
  mentions : Array String
  labels : List (String × ValueId)
  deriving DecidableEq, Repr

def Draft.empty : Draft := ⟨.empty, #[], []⟩

/-- A step that adds to a draft and may meet a fault; what was added before the fault stays. -/
abbrev Drafting := EStateM Fault Draft

namespace Drafting

def note (ss : List String) : Drafting Unit :=
  modify fun d => { d with mentions := d.mentions ++ ss }

/-- The value a reference stands for, `inputs` being those of the module around it. -/
def read (inputs : List ValueId) : Ref → Drafting ValueId
  | .input index =>
    match inputs[index]? with
    | some value => pure value
    | none => throw (.noInput index)
  | .label label => do
    match (← get).labels.lookup label with
    | some value => pure value
    | none => throw (.noLabel label)
  | .value id => pure id

def addOp (block : BlockId) (loc : SourceLoc String) (payload : Payload String) (results : Nat)
    (label : Option String) : Drafting Unit :=
  modify fun d =>
    let (op, design) := d.design.addOp block loc payload results
    match label, op.results with
    | some label, value :: _ => { d with design, labels := (label, value) :: d.labels }
    | _, _ => { d with design }

/-- Adds an operation with a block of its own, and gives the block. -/
def addOwner (block : BlockId) (loc : SourceLoc String) (payload : BlockId → Payload String)
    (args : Nat) : Drafting BlockId :=
  modifyGet fun d =>
    let (region, design) := d.design.addOwner block loc payload args
    (region, { d with design })

end Drafting

open Drafting

/-- Where a statement of a body stands. -/
structure Level where
  /-- The block that new operations go to. -/
  block : BlockId
  /-- The arguments of the body of the module around the statement. -/
  inputs : List ValueId
  loc : SourceLoc String
  deriving DecidableEq, Repr

/-- The files a location statement mentions. -/
def placeMentions (place : Option (SourceLoc String)) : List String := (place.map (·.file)).toList

/-- Carries out a statement that makes one operation. Its references are read before its strings are
mentioned. -/
def Leaf.draft (level : Level) (label : Option String) (statement : Leaf) : Drafting Unit := do
  let payload ← statement.payload (read level.inputs)
  note statement.mentions
  addOp level.block level.loc payload statement.results label

/-- Carries out the statements of a body. -/
def Body.draft (level : Level) : Body → Drafting Unit
  | .done => pure ()
  | .loc place rest => do
    note (placeMentions place)
    rest.draft { level with loc := place.getD .unknown }
  | .mention s rest => do
    note [s]
    rest.draft level
  | .leaf label statement rest => do
    statement.draft level label
    rest.draft level
  | .region name inner rest => do
    note [name]
    let block ← addOwner level.block level.loc (fun block => .other name [] [block]) 0
    inner.draft { level with block }
    rest.draft level

/-- Carries out the statements of a script in a block, starting with location `loc`; gives the
location in force after them. -/
def Script.draft (block : BlockId) (loc : SourceLoc String) : Script → Drafting (SourceLoc String)
  | .done => pure loc
  | .loc place rest => do
    note (placeMentions place)
    rest.draft block (place.getD .unknown)
  | .mention s rest => do
    note [s]
    rest.draft block loc
  | .module name ports body rest => do
    note (PortDecl.mentions name ports)
    let region ← addOwner block loc (.module name (PortDecl.number ports)) (PortDecl.argCount ports)
    let inputs := (← get).design.argsOf region
    body.draft ⟨region, inputs, loc⟩
    rest.draft block loc
  | .externModule name ports rest => do
    note (PortDecl.mentions name ports)
    addOp block loc (.externModule name (PortDecl.number ports)) 0 none
    rest.draft block loc
  | .container name inner rest => do
    note [name]
    let region ← addOwner block loc (fun region => .other name [] [region]) 0
    let loc ← inner.draft region loc
    rest.draft block loc

/-- What comes of a script: the draft of its design, or the first fault
with what was drafted before. -/
def Script.run (script : Script) : EStateM.Result Fault Draft (SourceLoc String) :=
  (script.draft Design.top .unknown).run .empty

/-- Builds the design of a script with names from a table. The table learns the strings
mentioned before a fault, too. -/
def Script.build (script : Script) (names : NameTable) : Except Fault (Design Name) × NameTable :=
  match script.run with
  | .ok _ draft =>
    let names := names.addAll draft.mentions.toList
    (.ok (draft.design.map names.number), names)
  | .error fault draft => (.error fault, names.addAll draft.mentions.toList)

end DebugHierarchy
