/-!
Which parts of a module are told by debug annotations.

A module's variables come from annotations as soon as there is one for a variable, and its instances
as soon as there is one for a scope; a part without annotations is read off the hardware structure.
-/

namespace DebugHierarchy

/-- For each part of a module, whether annotations tell it. -/
@[ext]
structure Presence where
  vars : Bool
  insts : Bool
  deriving DecidableEq, Repr

namespace Presence

def none : Presence := ⟨false, false⟩

instance : Inhabited Presence := ⟨none⟩

/-- The parts as bits of a number: variables are bit 0, instances bit 1. -/
def bits (p : Presence) : Nat := p.vars.toNat + 2 * p.insts.toNat

/-- The parts whose bits are set; other bits are dropped. -/
def ofBitsTruncate (n : Nat) : Presence := ⟨n.testBit 0, n.testBit 1⟩

/-- The parts whose bits are set, if no other bit is. -/
def ofBits? (n : Nat) : Option Presence := if n < 4 then some (ofBitsTruncate n) else Option.none

def union (p q : Presence) : Presence := ⟨p.vars || q.vars, p.insts || q.insts⟩

def inter (p q : Presence) : Presence := ⟨p.vars && q.vars, p.insts && q.insts⟩

def diff (p q : Presence) : Presence := ⟨p.vars && !q.vars, p.insts && !q.insts⟩

/-- Every part of `q` is one of `p`. -/
def contains (p q : Presence) : Bool := p.inter q = q

def isEmpty (p : Presence) : Bool := p = none

/-- The written form: the names of the parts. -/
def text : Presence → String
  | ⟨false, false⟩ => "DiPresence(0x0)"
  | ⟨true, false⟩ => "DiPresence(VARIABLES)"
  | ⟨false, true⟩ => "DiPresence(INSTANCES)"
  | ⟨true, true⟩ => "DiPresence(VARIABLES | INSTANCES)"

end Presence

end DebugHierarchy
