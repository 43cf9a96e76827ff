import DebugHierarchy.Hierarchy.Basic

/-!
The journal of an extraction: what was found, in the order in which it was found.

An event is the only way in which a hierarchy changes. So the hierarchy at any moment is
the replay of the journal up to that moment, and what holds after every event holds of
every state an extraction reaches.
-/

namespace DebugHierarchy

variable {ν : Type}

/-- What a variable was found as. -/
inductive VariableOrigin where
  /-- A port of an extern module. -/
  | externPort
  /-- A port of a module whose body annotates no variable. -/
  | port
  /-- A wire in the body of such a module. -/
  | wire
  /-- An annotation. -/
  | annotated
  deriving DecidableEq, Repr

/-- What an instance was found as. -/
inductive InstanceOrigin where
  /-- A scope. -/
  | scope
  /-- An instance operation in a body without scopes. -/
  | structural
  deriving DecidableEq, Repr

/-- One finding of an extraction. -/
inductive Event (ν : Type) where
  /-- An operation that defines a module comes up. -/
  | collect (kind : ModuleKind) (name : ν) (op : OpId)
  /-- A name is met for the first time, and gets a module. -/
  | register (id : ModuleId) (name : ν)
  /-- A module gets its definition. -/
  | define (id : ModuleId) (kind : ModuleKind) (op : OpId)
  /-- A scope gets an inline module. -/
  | inlineModule (id : ModuleId) (name : ν) (scope : OpId) (parent : ModuleId)
  /-- A second annotation of the type of a module comes up. -/
  | replaceInfo (first second : OpId)
  /-- A module gets the type that an annotation tells. -/
  | setInfo (id : ModuleId) (sourceType : Option (SourceType ν))
  /-- A module gets an enum definition. -/
  | setEnum (id : ModuleId) (enum : EnumId) (definition : EnumDefinition ν)
  /-- An enum definition comes up whose number is taken. -/
  | keepEnum (op : OpId) (enum : EnumId)
  /-- All annotations of a module's body have been seen once. -/
  | surveyed (id : ModuleId) (presence : Presence)
  | addVariable (origin : VariableOrigin) (id : VariableId) (node : VariableNode ν)
  | addInstance (origin : InstanceOrigin) (id : InstanceId) (owner : ModuleId)
      (node : InstanceNode ν)
  /-- A reference to a scope of another module is taken as one to the module itself. -/
  | looseScope (op : OpId) (scope : ValueId)
  /-- The extraction is complete. -/
  | built (stats : Stats)
  deriving DecidableEq

namespace Hierarchy

/-- The hierarchy after one more event. -/
def apply (h : Hierarchy ν) : Event ν → Hierarchy ν
  | .register id name =>
    { store := h.store.addModule (.bare name .referenced)
      catalog := h.catalog.register id name }
  | .define id kind op =>
    { store := h.store.modifyModule id fun m => { m with origin := .defined kind op }
      catalog := h.catalog.define id kind op }
  | .inlineModule _ name scope parent =>
    { h with store := h.store.addModule (.bare name (.scope scope parent)) }
  | .setInfo id sourceType =>
    { h with store := h.store.modifyModule id fun m => { m with sourceType } }
  | .setEnum id enum definition =>
    { h with store := h.store.modifyModule id fun m =>
      { m with enums := m.enums.insert enum definition } }
  | .surveyed id presence =>
    { h with store := h.store.modifyModule id fun m => { m with explicit := presence } }
  | .addVariable _ _ node => { h with store := h.store.addVariable node }
  | .addInstance _ _ owner node => { h with store := h.store.addInstance owner node }
  | .collect .. | .replaceInfo .. | .keepEnum .. | .looseScope .. | .built .. => h

/-- The hierarchy after a journal. -/
def replay (journal : List (Event ν)) : Hierarchy ν := journal.foldl apply empty

end Hierarchy

end DebugHierarchy
