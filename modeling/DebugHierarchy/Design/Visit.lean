import DebugHierarchy.Design.Forest

/-!
Walks over a design.

A walk shows a visitor one operation after the other, in pre-order. After each the visitor says
whether the walk goes on below the operation, beside it, or not at all. What else a visitor does is
up to the monad it lives in; one that fails ends the walk with its failure.
-/

namespace DebugHierarchy

/-- How a walk goes on after an operation. -/
inductive Control where
  /-- Into what is nested in the operation. -/
  | descend
  /-- Past what is nested in the operation. -/
  | skip
  /-- Not at all. -/
  | stop
  deriving DecidableEq, Repr

/-- How a walk ended. -/
inductive Outcome where
  | completed
  | stopped
  deriving DecidableEq, Repr

variable {ν : Type} {m : Type → Type} [Monad m]

/-- Shows the operations of a forest to a visitor. -/
def Forest.walk (visit : OpId → Operation ν → m Control) : Forest ν → m Outcome
  | .nil => pure .completed
  | .cons id op inner rest => do
    match ← visit id op with
    | .descend =>
      match ← inner.walk visit with
      | .completed => rest.walk visit
      | .stopped => pure .stopped
    | .skip => rest.walk visit
    | .stop => pure .stopped

/-- Shows what lies in a block to a visitor. -/
def Design.walk (d : Design ν) (start : BlockId) (visit : OpId → Operation ν → m Control) :
    Except Dangling (m Outcome) := do
  let _ ← d.block start
  return (d.under start).walk visit

/-- A visitor's answer: how to go on, or a failure. -/
inductive Answer where
  | control (c : Control)
  | fail
  deriving DecidableEq, Repr

/-- Answers laid down in advance: for single operations first, then for kinds of operations. -/
structure Itinerary where
  atOp : List (OpId × Answer)
  atMnemonic : List (String × Answer)
  deriving DecidableEq, Repr

namespace Itinerary

/-- The answer at an operation; where none is laid down the walk descends. -/
def answer (plan : Itinerary) (id : OpId) (op : Operation ν) : Answer :=
  ((plan.atOp.lookup id).or (plan.atMnemonic.lookup op.payload.mnemonic)).getD (.control .descend)

/-- What a walk along an itinerary showed, and how it ended. A failure names the operation that was
answered with it. -/
structure Record (ν : Type) where
  visited : List (Entry ν)
  ending : Except OpId Outcome

/-- The visitor that notes each operation and answers as laid down. -/
def visit (plan : Itinerary) (id : OpId) (op : Operation ν) :
    EStateM OpId (Array (Entry ν)) Control := do
  modify (·.push (id, op))
  match plan.answer id op with
  | .control c => return c
  | .fail => throw id

/-- Walks along an itinerary, failures included. -/
def tryRun (plan : Itinerary) (d : Design ν) (start : BlockId) : Except Dangling (Record ν) := do
  match (← d.walk start plan.visit).run #[] with
  | .ok outcome visited => return ⟨visited.toList, .ok outcome⟩
  | .error id visited => return ⟨visited.toList, .error id⟩

/-- The same itinerary without failures: where it has one, the walk descends. -/
def lenient (plan : Itinerary) : Itinerary :=
  let mend (a : Answer) : Answer := match a with
    | .control c => .control c
    | .fail => .control .descend
  ⟨plan.atOp.map fun e => (e.1, mend e.2), plan.atMnemonic.map fun e => (e.1, mend e.2)⟩

/-- Walks along an itinerary that cannot fail. -/
def run (plan : Itinerary) (d : Design ν) (start : BlockId) : Except Dangling (Record ν) :=
  plan.lenient.tryRun d start

end Itinerary

end DebugHierarchy
