import DebugHierarchy.Handle

/-!
Parameters of source-language types: widths, element types, generator arguments.

They are trees that nothing here interprets: a parameter is carried from the design into the
hierarchy as it was written, entry order and repeated keys included.
-/

namespace DebugHierarchy

/-- A parameter whose names are of type `ν`. -/
inductive ParamValue (ν : Type) where
  | int (n : Int)
  | bool (b : Bool)
  | str (s : ν)
  | array (items : List (ParamValue ν))
  | dict (entries : List (ν × ParamValue ν))
  deriving Repr

namespace ParamValue

variable {ν μ : Type}

mutual

/-- Equality of parameters is decided part by part. -/
def decEq [DecidableEq ν] : (a b : ParamValue ν) → Decidable (a = b)
  | .int a, .int b => decidable_of_iff (a = b) (by simp)
  | .bool a, .bool b => decidable_of_iff (a = b) (by simp)
  | .str a, .str b => decidable_of_iff (a = b) (by simp)
  | .array a, .array b =>
    haveI := decEqItems a b
    decidable_of_iff (a = b) (by simp)
  | .dict a, .dict b =>
    haveI := decEqEntries a b
    decidable_of_iff (a = b) (by simp)
  | .int _, .bool _ | .int _, .str _ | .int _, .array _ | .int _, .dict _ => isFalse nofun
  | .bool _, .int _ | .bool _, .str _ | .bool _, .array _ | .bool _, .dict _ => isFalse nofun
  | .str _, .int _ | .str _, .bool _ | .str _, .array _ | .str _, .dict _ => isFalse nofun
  | .array _, .int _ | .array _, .bool _ | .array _, .str _ | .array _, .dict _ => isFalse nofun
  | .dict _, .int _ | .dict _, .bool _ | .dict _, .str _ | .dict _, .array _ => isFalse nofun

def decEqItems [DecidableEq ν] : (a b : List (ParamValue ν)) → Decidable (a = b)
  | [], [] => isTrue rfl
  | [], _ :: _ => isFalse nofun
  | _ :: _, [] => isFalse nofun
  | x :: xs, y :: ys =>
    haveI := decEq x y
    haveI := decEqItems xs ys
    decidable_of_iff (x = y ∧ xs = ys) (by simp)

def decEqEntries [DecidableEq ν] : (a b : List (ν × ParamValue ν)) → Decidable (a = b)
  | [], [] => isTrue rfl
  | [], _ :: _ => isFalse nofun
  | _ :: _, [] => isFalse nofun
  | (k, x) :: xs, (l, y) :: ys =>
    haveI := decEq x y
    haveI := decEqEntries xs ys
    decidable_of_iff (k = l ∧ x = y ∧ xs = ys) (by simp [and_assoc])

end

instance [DecidableEq ν] : DecidableEq (ParamValue ν) := decEq

mutual

def map (f : ν → μ) : ParamValue ν → ParamValue μ
  | .int n => .int n
  | .bool b => .bool b
  | .str s => .str (f s)
  | .array items => .array (mapItems f items)
  | .dict entries => .dict (mapEntries f entries)

def mapItems (f : ν → μ) : List (ParamValue ν) → List (ParamValue μ)
  | [] => []
  | x :: rest => map f x :: mapItems f rest

def mapEntries (f : ν → μ) : List (ν × ParamValue ν) → List (μ × ParamValue μ)
  | [] => []
  | (k, x) :: rest => (f k, map f x) :: mapEntries f rest

end

mutual

/-- The names of a parameter from left to right, a key before its value. -/
def names : ParamValue ν → List ν
  | .int _ | .bool _ => []
  | .str s => [s]
  | .array items => namesOfItems items
  | .dict entries => namesOfEntries entries

def namesOfItems : List (ParamValue ν) → List ν
  | [] => []
  | x :: rest => names x ++ namesOfItems rest

def namesOfEntries : List (ν × ParamValue ν) → List ν
  | [] => []
  | (k, x) :: rest => k :: names x ++ namesOfEntries rest

end

/-- The value a dictionary has at a key, the first where the key is repeated. -/
def get? [DecidableEq ν] : ParamValue ν → ν → Option (ParamValue ν)
  | .dict entries, key => (entries.find? (·.1 = key)).map (·.2)
  | _, _ => none

/-- What is found by following keys from dictionary to dictionary. -/
def find? [DecidableEq ν] (v : ParamValue ν) (path : List ν) : Option (ParamValue ν) :=
  path.foldlM get? v

end ParamValue

end DebugHierarchy
