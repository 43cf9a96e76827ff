/-!
Codes of the ways in which an extraction can fail.

The digit after the `E` is the category: 1 for the structure of modules, 2 for debug annotations.
-/

namespace DebugHierarchy

/-- A way in which an extraction can fail. -/
inductive Code where
  | conflictingKinds
  | duplicateModule
  | missingPortValue
  | unresolvedScope
  | invalidEnumReference
  | duplicateModuleInfo
  deriving DecidableEq, Repr

namespace Code

/-- Every code, in ascending order of the written forms. -/
def all : List Code :=
  [.conflictingKinds, .duplicateModule, .missingPortValue, .unresolvedScope, .invalidEnumReference,
    .duplicateModuleInfo]

def text : Code → String
  | .conflictingKinds => "E1001"
  | .duplicateModule => "E1002"
  | .missingPortValue => "E1003"
  | .unresolvedScope => "E2001"
  | .invalidEnumReference => "E2002"
  | .duplicateModuleInfo => "E2003"

def description : Code → String
  | .conflictingKinds => "module declared with conflicting kinds"
  | .duplicateModule => "module defined more than once"
  | .missingPortValue => "port has no corresponding value in the module body"
  | .unresolvedScope => "unresolved debug scope reference"
  | .invalidEnumReference => "enum reference is not an enum definition of the same module"
  | .duplicateModuleInfo => "duplicate module info annotation"

/-- The code with a written form. -/
def parse? (s : String) : Option Code := all.find? (·.text = s)

/-- The fault lies in the debug annotations, not in the hardware structure. -/
def isAboutAnnotations : Code → Bool
  | .conflictingKinds | .duplicateModule | .missingPortValue => false
  | .unresolvedScope | .invalidEnumReference | .duplicateModuleInfo => true

end Code

end DebugHierarchy
