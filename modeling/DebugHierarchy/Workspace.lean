import DebugHierarchy.Extraction.Basic
import DebugHierarchy.NameTable.Pool
import DebugHierarchy.Script.Draft

/-!
A workspace: a design under construction and the hierarchies extracted so far.

Designs may share a table of names. The table goes on growing while hierarchies refer to it, which
changes nothing for them, since a table only grows at its end.
-/

namespace DebugHierarchy

/-- A hierarchy and the table its names stand in. -/
structure Extracted where
  hierarchy : Hierarchy Name
  table : TableId
  deriving DecidableEq

/-- The current design and the hierarchies extracted so far. -/
structure Workspace where
  pool : NamePool
  design : Design Name
  /-- The table the names of the design stand in. -/
  table : TableId
  extracted : List Extracted

namespace Workspace

def empty : Workspace :=
  let (table, pool) := NamePool.empty.addTable
  ⟨pool, .empty, table, []⟩

def namesOf (w : Workspace) (table : TableId) : NameTable :=
  match w.pool.get table with
  | .ok names => names
  | .error _ => .fresh

def names (w : Workspace) : NameTable := w.namesOf w.table

/-- Learns a string in the table of the current design, and gives its number. -/
def intern (w : Workspace) (s : String) : Name × Workspace :=
  let (name, names) := w.names.intern s
  (name, { w with pool := w.pool.set w.table names })

/-- Replaces the current design by that of a script, with names in the same table or in
a new one. After a fault the design stays; strings that a shared table has learned
before the fault stay, too. -/
def draw (w : Workspace) (shared : Bool) (script : Script) : Except Fault Unit × Workspace :=
  let (table, pool) := if shared then (w.table, w.pool) else w.pool.addTable
  let known := if shared then w.names else .fresh
  match script.build known with
  | (.ok design, names) => (.ok (), { w with pool := pool.set table names, design, table })
  | (.error fault, names) =>
    (.error fault, if shared then { w with pool := pool.set table names } else w)

/-- Extracts the hierarchy of the current design, and keeps it if there is one. -/
def extract (w : Workspace) (options : Options) : Extraction Name × Workspace :=
  let result := w.design.extract options
  match result.outcome with
  | .ok hierarchy => (result, { w with extracted := w.extracted ++ [⟨hierarchy, w.table⟩] })
  | .error _ => (result, w)

/-- An extracted hierarchy: the one with a number, or the latest. -/
def extracted? (w : Workspace) : Option Nat → Option Extracted
  | some number => w.extracted[number]?
  | none => w.extracted.getLast?

def diagnose (w : Workspace) (e : BuildError Name) : Except Dangling Diagnostic :=
  e.diagnose w.names.text w.design

end Workspace

end DebugHierarchy
