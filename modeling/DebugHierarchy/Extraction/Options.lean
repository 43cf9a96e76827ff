/-!
Choices about annotations that do not fit together.
-/

namespace DebugHierarchy

/-- What becomes of a reference to a scope that is no scope of the module around it. -/
inductive ScopePolicy where
  /-- The extraction fails. -/
  | error
  /-- The reference counts as one to the module itself, with a warning. -/
  | enclosing
  deriving DecidableEq, Repr

/-- What becomes of a second annotation of a module's type. -/
inductive InfoPolicy where
  /-- It replaces the one before. -/
  | lastWins
  /-- The extraction fails. -/
  | strict
  deriving DecidableEq, Repr

/-- The choices of one extraction. -/
structure Options where
  scopes : ScopePolicy := .error
  info : InfoPolicy := .lastWins
  deriving DecidableEq, Repr

/-- The choices made where none are given. -/
def Options.standard : Options := {}

end DebugHierarchy
