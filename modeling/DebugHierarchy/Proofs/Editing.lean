import DebugHierarchy.Design.Forest
import DebugHierarchy.Proofs.Nesting

/-!
Designs edited operation by operation.

An edit replaces operations where they stand. Blocks and values stay as they are, and so do all
handles. An edit that touches annotations only leaves the nesting alone: the edited design has the
same modules, and their bodies hold the edited operations in the same order.

* `Design.edit`: the edited design;
* `Edit.Quiet`: the edit leaves the nesting alone;
* `Edit.Quiet.definitions`, `Edit.Quiet.bodyOf`, `Edit.Quiet.portValue?`: what
  an extraction reads off it.
-/

namespace DebugHierarchy

variable {ν : Type}

/-- What becomes of each operation. -/
abbrev Edit (ν : Type) := OpId → Operation ν → Operation ν

def Design.edit (d : Design ν) (g : Edit ν) : Design ν :=
  { d with ops := d.ops.mapIdx fun i op => g ⟨i⟩ op }

def Forest.edit (g : Edit ν) : Forest ν → Forest ν
  | nil => nil
  | cons id op inner rest => cons id (g id op) (inner.edit g) (rest.edit g)

def Edit.entry (g : Edit ν) (e : Entry ν) : Entry ν := (e.1, g e.1 e.2)

/-- The edit leaves modules as they are, and of other operations the blocks
that they own and the outputs. -/
structure Edit.Quiet (g : Edit ν) : Prop where
  regions : ∀ id op, (g id op).payload.regions = op.payload.regions
  output : ∀ id op, (g id op).payload.output? = op.payload.output?
  moduleLike : ∀ id op, (g id op).payload.isModuleLike = op.payload.isModuleLike
  module : ∀ id op, op.payload.isModuleLike = true → g id op = op

namespace Design

variable (d : Design ν) (g : Edit ν)

theorem edit_ops (i : Nat) : (d.edit g).ops[i]? = d.ops[i]?.map (g ⟨i⟩) := by
  simp [edit]

@[simp] theorem edit_opsOf : (d.edit g).opsOf = d.opsOf := rfl

@[simp] theorem edit_argsOf : (d.edit g).argsOf = d.argsOf := rfl

@[simp] theorem edit_definingOp : (d.edit g).definingOp = d.definingOp := rfl

end Design

namespace Edit.Quiet

variable {g : Edit ν} (quiet : g.Quiet) (d : Design ν)

include quiet

theorem forestOf (depth : Nat) (ids : List OpId) :
    (d.edit g).forestOf depth ids = (d.forestOf depth ids).edit g := by
  induction depth generalizing ids with
  | zero => rfl
  | succ depth ih =>
    simp only [Design.forestOf] at ih ⊢
    induction ids with
    | nil => rfl
    | cons id rest ihRest =>
      rw [List.foldr_cons, List.foldr_cons, ihRest, Design.edit_ops]
      cases d.ops[id.index]? with
      | none => rfl
      | some op => simp only [Option.map_some, quiet.regions, Design.edit_opsOf, ih, Forest.edit]

theorem under (block : BlockId) : (d.edit g).under block = (d.under block).edit g :=
  quiet.forestOf d d.blocks.size (d.opsOf block)

omit d

theorem forest_definitions (F : Forest ν) : (F.edit g).definitions = F.definitions := by
  induction F with
  | nil => rfl
  | cons id op inner rest ihInner ihRest =>
    simp only [Forest.edit, Forest.definitions, quiet.moduleLike, ihInner, ihRest]
    by_cases like : op.payload.isModuleLike
    · rw [if_pos like, if_pos like, quiet.module id op like]
    · rw [if_neg like, if_neg like]

theorem forest_body (F : Forest ν) : (F.edit g).body = F.body.map g.entry := by
  induction F with
  | nil => rfl
  | cons id op inner rest ihInner ihRest =>
    simp only [Forest.edit, Forest.body, quiet.moduleLike, ihInner, ihRest]
    split
    · rfl
    · rw [List.map_append, List.map_cons]
      rfl

/-- An edited design has the same modules, -/
theorem definitions (d : Design ν) : (d.edit g).definitions = d.definitions := by
  rw [Design.definitions, quiet.under, quiet.forest_definitions]
  rfl

/-- with the edited operations in their bodies. -/
theorem bodyOf (d : Design ν) (block : BlockId) :
    (d.edit g).bodyOf block = (d.bodyOf block).map g.entry := by
  rw [Design.bodyOf, quiet.under, quiet.forest_body]
  rfl

/-- The ports of a module have the same values. -/
theorem portValue? (d : Design ν) (block : BlockId) (port : Port ν) :
    (d.edit g).portValue? block port = d.portValue? block port := by
  have blocks : (d.edit g).blocks = d.blocks := rfl
  have last : (d.edit g).terminator? block = d.terminator? block := by
    simp only [Design.terminator?, blocks, Design.edit_ops, Option.bind_eq_bind, Option.bind_map,
      Function.comp_def, quiet.output]
  have outputs : (d.edit g).outputsOf block = d.outputsOf block := by
    simp only [Design.outputsOf, last, Design.edit_ops, Option.bind_eq_bind, Option.bind_map,
      Function.comp_def, quiet.output]
  rw [Design.portValue?, outputs, Design.edit_argsOf]
  rfl

end Edit.Quiet

end DebugHierarchy
