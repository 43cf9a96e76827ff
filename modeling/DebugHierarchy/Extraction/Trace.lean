import DebugHierarchy.Extraction.Basic

/-!
What an extraction reports of its progress.

Most events of the journal have a record of their own in the report; some changes go
unreported. A record names nodes, operations and values by handle, and only the module
that comes up by its string.
-/

namespace DebugHierarchy

inductive TraceLevel where
  | trace
  | debug
  | warn
  deriving DecidableEq, Repr

inductive TraceValue where
  | text (s : String)
  | flag (b : Bool)
  | count (n : Nat)
  deriving DecidableEq, Repr

/-- One line of a report. -/
structure TraceRecord where
  level : TraceLevel
  /-- The record opens the stretch of work that its message names; other records report an event. -/
  opens : Bool
  message : String
  fields : List (String × TraceValue)
  deriving DecidableEq, Repr

namespace TraceRecord

def event (level : TraceLevel) (message : String) (fields : List (String × TraceValue)) :
    TraceRecord := ⟨level, false, message, fields⟩

/-- The record that opens the report on a design with `ops` operations. -/
def opening (ops : Nat) : TraceRecord := ⟨.debug, true, "debug_info", [("ops", .count ops)]⟩

end TraceRecord

def TraceValue.handle {s : Space} (h : Handle s) : TraceValue := .text h.text

/-- What is reported of a variable when it is added. -/
def VariableOrigin.record? (id : VariableId) (node : VariableNode Name) :
    VariableOrigin → Option TraceRecord
  | .externPort => none
  | .port =>
    some <| .event .trace "port variable" <|
      ("variable", .handle id) :: (node.value.map fun v => ("value", TraceValue.handle v)).toList
  | .wire => some <| .event .trace "wire variable" [("variable", .handle id)]
  | .annotated =>
    some <| .event .trace "annotated variable" [("variable", .handle id),
      ("owner", .handle node.owner)]

/-- What is reported of an instance when it is added. -/
def InstanceOrigin.record (id : InstanceId) (owner : ModuleId) (node : InstanceNode Name) :
    InstanceOrigin → TraceRecord
  | .scope => .event .trace "scope instance" [("instance", .handle id), ("owner", .handle owner)]
  | .structural =>
    .event .trace "structural instance" [("instance", .handle id), ("target", .handle node.target)]

/-- What is reported of an event. -/
def Event.record? (names : NameTable) : Event Name → Option TraceRecord
  | .collect kind name op =>
    let message := match kind with
      | .module => "collecting module"
      | .external => "collecting extern module"
    some <| .event .debug message [("module", .text (names.textD name)), ("op", .handle op)]
  | .register id name =>
    some <| .event .trace "registered module" [("name", .handle name), ("id", .handle id)]
  | .inlineModule id _ scope _ =>
    some <| .event .trace "created inline module" [("scope", .handle scope), ("inline", .handle id)]
  | .replaceInfo first second =>
    some <| .event .debug "later module info replaces earlier"
      [("first", .handle first), ("second", .handle second)]
  | .keepEnum op enum =>
    some <| .event .debug "keeping earlier enum definition"
      [("op", .handle op), ("enum_id", .text enum.text)]
  | .surveyed id presence =>
    some <| .event .debug "classified module body"
      [("module", .handle id), ("presence", .text presence.text),
        ("port_fallback", .flag !presence.vars),
        ("instance_fallback", .flag !presence.insts)]
  | .addVariable origin id node => origin.record? id node
  | .addInstance origin id owner node => some (origin.record id owner node)
  | .looseScope op scope =>
    some <| .event .warn
      "scope is not a dbg.scope of this module; attaching to the module itself"
      [("op", .handle op), ("scope", .handle scope)]
  | .built stats =>
    some <| .event .debug "built debug info"
      [("registry_modules", .count stats.registryModules),
        ("inline_modules", .count stats.inlineModules),
        ("instances", .count stats.insts), ("variables", .count stats.vars)]
  | .define .. | .setInfo .. | .setEnum .. => none

/-- The report on an extraction from a design with `ops` operations. -/
def Extraction.report (names : NameTable) (ops : Nat) (x : Extraction Name) : List TraceRecord :=
  .opening ops :: x.journal.filterMap (·.record? names)

end DebugHierarchy
