import DebugHierarchy.NameTable

/-!
Places in source files.

A debugger points back at the file, line and column of the source text, which is what operations and
ports carry. Lines and columns count from one; a zero says that the number is not known.
-/

namespace DebugHierarchy

/-- A place in a source file, the file's name being of type `ν`. -/
structure SourceLoc (ν : Type) where
  file : ν
  line : Nat
  column : Nat
  deriving DecidableEq, Repr

namespace SourceLoc

variable {ν μ : Type}

/-- The place of what has no source text: no file, line 0, column 0. The name of no file is the
empty string, which every table of names holds at 0. -/
def unknown [Inhabited ν] : SourceLoc ν := ⟨default, 0, 0⟩

/-- No place is known at all. -/
def isUnknown [Inhabited ν] [DecidableEq ν] (l : SourceLoc ν) : Bool := l = unknown

def map (f : ν → μ) (l : SourceLoc ν) : SourceLoc μ := ⟨f l.file, l.line, l.column⟩

def resolve (text : ν → Except Dangling String) (l : SourceLoc ν) :
    Except Dangling (SourceLoc String) := do
  return ⟨← text l.file, l.line, l.column⟩

/-- The place with its file's name read from a table. -/
def read (l : SourceLoc Name) (names : NameTable) : Except Dangling (SourceLoc String) :=
  l.resolve names.text

/-- The place as a reader sees it. Without a file and a line there is nothing to show. -/
def text (l : SourceLoc String) : String :=
  if l.file = "" ∧ l.line = 0 then "<unknown>" else s!"{l.file}:{l.line}:{l.column}"

/-- The place with its file as a number. -/
def numbered (l : SourceLoc Name) : String :=
  if l.isUnknown then "loc(unknown)" else s!"loc({l.file}:{l.line}:{l.column})"

end SourceLoc

end DebugHierarchy
