import DebugHierarchy.Design.SourceLoc
import DebugHierarchy.Report.Code

/-!
Diagnostics: what went wrong, and where in the source text.

A diagnostic is built from the inside out: a code, then a message, then labels at places of the
source, then notes. Its rendering is one line for the message and one for each label and note.
-/

namespace DebugHierarchy

inductive Severity where
  | error
  | warning
  | note
  deriving DecidableEq, Repr

def Severity.text : Severity → String
  | .error => "error"
  | .warning => "warning"
  | .note => "note"

/-- A message at a place of the source. -/
structure Label where
  loc : SourceLoc String
  message : String
  /-- The label marks the problem itself; other labels mark what is related to it. -/
  primary : Bool
  deriving DecidableEq, Repr

def Label.render (l : Label) : String :=
  let mark := if l.primary then "-->" else ":::"
  s!"  {mark} {l.loc.text}: {l.message}"

/-- What went wrong, and where. -/
structure Diagnostic where
  code : Code
  severity : Severity
  message : String
  labels : List Label
  notes : List String
  deriving DecidableEq, Repr

namespace Diagnostic

def error (code : Code) : Diagnostic := ⟨code, .error, "", [], []⟩

def withMessage (d : Diagnostic) (message : String) : Diagnostic := { d with message }

/-- Marks the problem itself. -/
def withLabel (d : Diagnostic) (loc : SourceLoc String) (message : String) : Diagnostic :=
  { d with labels := d.labels ++ [⟨loc, message, true⟩] }

/-- Marks what is related to the problem. -/
def withRelated (d : Diagnostic) (loc : SourceLoc String) (message : String) : Diagnostic :=
  { d with labels := d.labels ++ [⟨loc, message, false⟩] }

def withNote (d : Diagnostic) (note : String) : Diagnostic := { d with notes := d.notes ++ [note] }

/-- The first label that marks the problem itself. -/
def primaryLabel? (d : Diagnostic) : Option Label := d.labels.find? (·.primary)

def isError (d : Diagnostic) : Bool := d.severity = .error

/-- The diagnostic in one line. -/
def text (d : Diagnostic) : String := s!"{d.severity.text}[{d.code.text}]: {d.message}"

/-- The diagnostic line by line, each line ended. -/
def render (d : Diagnostic) : String :=
  let lines := d.text :: d.labels.map Label.render ++ d.notes.map fun note => s!"  = note: {note}"
  String.join (lines.map (· ++ "\n"))

end Diagnostic

end DebugHierarchy
