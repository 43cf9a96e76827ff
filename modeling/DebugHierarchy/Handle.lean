/-!
Handles: positions in the flat tables that hold names, designs and hierarchies.

A handle is a number tagged with the table it indexes, so that handles of different tables never
mix. Nothing else is behind it: a handle may lie past the end of its table, and every reader of a
table says so with a `Dangling` error instead of answering.
-/

namespace DebugHierarchy

/-- The tables that handles point into. -/
inductive Space where
  | name
  | op
  | block
  | value
  | module
  | inst
  | dbgVariable
  | table
  deriving DecidableEq, Repr

/-- A position in the table of one space. -/
@[ext]
structure Handle (space : Space) where
  index : Nat
  deriving DecidableEq, Repr

namespace Handle

instance {s : Space} : Inhabited (Handle s) := ⟨⟨0⟩⟩

instance {s : Space} : LT (Handle s) := ⟨fun a b => a.index < b.index⟩

instance {s : Space} : DecidableLT (Handle s) :=
  fun a b => inferInstanceAs (Decidable (a.index < b.index))

def text : {s : Space} → Handle s → String
  | .name, h => s!"Name({h.index})"
  | .op, h => s!"op{h.index}"
  | .block, h => s!"^bb{h.index}"
  | .value, h => s!"%{h.index}"
  | .module, h => s!"module#{h.index}"
  | .inst, h => s!"instance#{h.index}"
  | .dbgVariable, h => s!"variable#{h.index}"
  | .table, h => s!"table#{h.index}"

instance {s : Space} : ToString (Handle s) := ⟨text⟩

end Handle

/-- A string by its position in a table of names. -/
abbrev Name := Handle .name

/-- An operation of a design. -/
abbrev OpId := Handle .op

/-- A block of a design: an ordered list of operations with arguments of its own. -/
abbrev BlockId := Handle .block

/-- A value of a design: a block argument or the result of an operation. -/
abbrev ValueId := Handle .value

abbrev ModuleId := Handle .module

abbrev InstanceId := Handle .inst

abbrev VariableId := Handle .dbgVariable

/-- A table of names among several. -/
abbrev TableId := Handle .table

/-- The number an enum definition was given where the design came from. It is no handle: variables
refer to an enum by this number, and two definitions may share one. -/
structure EnumId where
  number : Nat
  deriving DecidableEq, Repr

namespace EnumId

def text (id : EnumId) : String := s!"EnumId({id.number})"

instance : ToString EnumId := ⟨text⟩

end EnumId

/-- A handle that names nothing: its number lies past the end of its table. -/
structure Dangling where
  space : Space
  index : Nat
  deriving DecidableEq, Repr

/-- The entry that a table was found to hold at a handle; without one, the handle dangles. -/
def Handle.expect {s : Space} {α : Type} (h : Handle s) (found : Option α) : Except Dangling α :=
  match found with
  | some entry => .ok entry
  | none => .error ⟨s, h.index⟩

end DebugHierarchy
