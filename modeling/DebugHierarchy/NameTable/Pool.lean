import DebugHierarchy.NameTable

/-!
Several tables of names, and holders that share them.

A pool keeps tables apart: learning a string in one changes no other (`get_set_of_ne`). Holders are
references into a pool; two holders of one table see the same strings.
-/

namespace DebugHierarchy

/-- Tables of names, by number. -/
structure NamePool where
  tables : List NameTable
  deriving DecidableEq

namespace NamePool

def empty : NamePool := ⟨[]⟩

def get (p : NamePool) (id : TableId) : Except Dangling NameTable :=
  Handle.expect id p.tables[id.index]?

def addTable (p : NamePool) : TableId × NamePool := (⟨p.tables.length⟩, ⟨p.tables ++ [.fresh]⟩)

/-- Puts `t` in the place of table `id`. -/
def set (p : NamePool) (id : TableId) (t : NameTable) : NamePool := ⟨p.tables.set id.index t⟩

theorem get_set_of_ne {p : NamePool} {a b : TableId} {t : NameTable} (apart : a ≠ b) :
    (p.set a t).get b = p.get b := by
  have : a.index ≠ b.index := fun same => apart (Handle.ext same)
  simp [get, set, List.getElem?_set_ne this]

end NamePool

/-- A pool, and for each holder the table it refers to. -/
structure NameHolders where
  pool : NamePool
  held : List TableId
  deriving DecidableEq

namespace NameHolders

def single : NameHolders :=
  let (table, pool) := NamePool.empty.addTable
  ⟨pool, [table]⟩

/-- What a holder can be asked. -/
inductive Call where
  | intern (s : String)
  | tryIntern (s : String)
  | find (s : String)
  | text (n : Name)
  | size
  | isEmpty
  | sameTable (other : Nat)
  /-- A further holder of the same table. -/
  | share
  /-- A further holder, of a table of its own. -/
  | fresh
  deriving DecidableEq, Repr

/-- What a call is answered. -/
inductive Reply where
  | name (n : Name)
  | learned (outcome : Except Overflow Name)
  | found (n? : Option Name)
  | text (s : String)
  | count (n : Nat)
  | flag (b : Bool)
  | holder (number : Nat)

def tableOf (h : NameHolders) (holder : Nat) : Except Dangling TableId :=
  Handle.expect (⟨holder⟩ : TableId) h.held[holder]?

def hold (h : NameHolders) (table : TableId) : Reply × NameHolders :=
  (.holder h.held.length, { h with held := h.held ++ [table] })

/-- Answers a call on the holder with number `holder`. -/
def call (h : NameHolders) (holder : Nat) (c : Call) : Except Dangling (Reply × NameHolders) := do
  let id ← h.tableOf holder
  let table ← h.pool.get id
  match c with
  | .intern s =>
    let (name, table) := table.intern s
    return (.name name, { h with pool := h.pool.set id table })
  | .tryIntern s =>
    match table.tryIntern s with
    | .ok (name, table) => return (.learned (.ok name), { h with pool := h.pool.set id table })
    | .error full => return (.learned (.error full), h)
  | .find s => return (.found (table.find? s), h)
  | .text n => return (.text (← table.text n), h)
  | .size => return (.count table.size, h)
  | .isEmpty => return (.flag table.isEmpty, h)
  | .sameTable other => return (.flag (id = (← h.tableOf other)), h)
  | .share => return h.hold id
  | .fresh =>
    let (id, pool) := h.pool.addTable
    return { h with pool }.hold id

/-- Answers calls in order. A call that names nothing is answered with what
dangles and changes nothing. -/
def run (h : NameHolders) : List (Nat × Call) → List (Except Dangling Reply) × NameHolders
  | [] => ([], h)
  | (holder, c) :: rest =>
    match h.call holder c with
    | .ok (reply, next) =>
      let (replies, last) := next.run rest
      (.ok reply :: replies, last)
    | .error missing =>
      let (replies, last) := h.run rest
      (.error missing :: replies, last)

end NameHolders

end DebugHierarchy
