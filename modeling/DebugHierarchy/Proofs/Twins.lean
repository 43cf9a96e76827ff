import DebugHierarchy.Proofs.Renumbering
import Mathlib.Data.Set.Lattice

/-!
The same statements carried out in two places.

Handles count up in the order of creation, so what a statement makes depends on what was made before
it. Two runs of the same statements that start from drafts of different sizes make the same
operations, blocks and values under other handles.

* `Drafting.Together`: two steps that end alike, or with the same fault;
* `Draft.Twins`: two drafts whose next handles and whose labels correspond;
* `Body.draft_together`, `Script.draft_together`: from twins, the same statements lead to twins and
  add like forests, or meet the same fault.
-/

namespace DebugHierarchy

namespace Drafting

variable {α β γ δ : Type} {s s' : Draft}

/-- Both steps end well and in a way that the condition allows, or both end with the same fault. -/
def Together (x : Drafting α) (y : Drafting β) (s s' : Draft)
    (post : α → β → Draft → Draft → Prop) :
    Prop :=
  match x.run s, y.run s' with
  | .ok a t, .ok b t' => post a b t t'
  | .error fault _, .error fault' _ => fault' = fault
  | _, _ => False

namespace Together

variable {x : Drafting α} {y : Drafting β} {post post' : α → β → Draft → Draft → Prop}

theorem pure {a : α} {b : β} (here : post a b s s') :
    Together (Pure.pure a) (Pure.pure b) s s' post := here

theorem bind {k : α → Drafting γ} {k' : β → Drafting δ} {last : γ → δ → Draft → Draft → Prop}
    (first : Together x y s s' post)
    (next : ∀ {a b t t'}, x.run s = .ok a t → post a b t t' → Together (k a) (k' b) t t' last) :
    Together (x >>= k) (y >>= k') s s' last := by
  unfold Together at first ⊢
  rw [EStateM.run_bind, EStateM.run_bind]
  cases hx : x.run s with
  | ok a t =>
    cases hy : y.run s' with
    | ok b t' => rw [hx, hy] at first; exact next hx first
    | error fault t' => rw [hx, hy] at first; exact first.elim
  | error fault t =>
    cases hy : y.run s' with
    | ok b t' => rw [hx, hy] at first; exact first.elim
    | error fault' t' => rw [hx, hy] at first; exact first

theorem imp (run : Together x y s s' post) (weaker : ∀ {a b t t'}, post a b t t' → post' a b t t') :
    Together x y s s' post' := by
  unfold Together at run ⊢
  split at run
  · exact weaker run
  · exact run
  · exact run

/-- One step, and then two that may differ. -/
theorem same {z : Drafting γ} {k : γ → Drafting α} {k' : γ → Drafting β}
    (next : ∀ c t, z.run s = .ok c t → Together (k c) (k' c) t t post) :
    Together (z >>= k) (z >>= k') s s post := by
  unfold Together
  rw [EStateM.run_bind, EStateM.run_bind]
  cases hz : z.run s with
  | ok c t => exact next c t hz
  | error fault t => rfl

theorem of_ok {a : α} {b : β} {t t' : Draft} (left : x.run s = .ok a t)
    (right : y.run s' = .ok b t') (here : post a b t t') : Together x y s s' post := by
  rw [Together, left, right]
  exact here

theorem iff_ok : Together x y s s' post ↔
    (∃ a b t t', x.run s = .ok a t ∧ y.run s' = .ok b t' ∧ post a b t t') ∨
      ∃ fault t t', x.run s = .error fault t ∧ y.run s' = .error fault t' := by
  unfold Together
  cases hx : x.run s <;> cases hy : y.run s' <;> simp [eq_comm]

end Together

/-- Both steps only look at their drafts, and what the second one finds is `f`
of what the first one does. -/
def Sees (s s' : Draft) (f : α → β) (x : Drafting α) (y : Drafting β) : Prop :=
  Together x y s s' fun a b t t' => b = f a ∧ t = s ∧ t' = s'

namespace Sees

variable {f : α → β} {g : γ → δ}

theorem pure {a : α} {b : β} (here : b = f a) : Sees s s' f (Pure.pure a) (Pure.pure b) :=
  ⟨here, rfl, rfl⟩

theorem bind {x : Drafting α} {y : Drafting β} {k : α → Drafting γ} {k' : β → Drafting δ}
    (first : Sees s s' f x y) (next : ∀ a, Sees s s' g (k a) (k' (f a))) :
    Sees s s' g (x >>= k) (y >>= k') := by
  refine Together.bind first fun {a b t t'} _ seen => ?_
  obtain ⟨rfl, rfl, rfl⟩ := seen
  exact next a

theorem list {x : α → Drafting γ} {y : α → Drafting δ} (l : List α)
    (each : ∀ a ∈ l, Sees s s' g (x a) (y a)) : Sees s s' (List.map g) (l.mapM x) (l.mapM y) := by
  induction l with
  | nil => exact pure rfl
  | cons a rest ih =>
    rw [List.mapM_cons, List.mapM_cons]
    exact (each a List.mem_cons_self).bind fun _ =>
      (ih fun b hb => each b (List.mem_cons_of_mem _ hb)).bind fun _ => pure rfl

theorem option {x : α → Drafting γ} {y : α → Drafting δ} (o : Option α)
    (each : ∀ a ∈ o, Sees s s' g (x a) (y a)) : Sees s s' (Option.map g) (o.mapM x) (o.mapM y) := by
  cases o with
  | none => exact pure rfl
  | some a => exact (each a rfl).bind fun _ => pure rfl

end Sees

end Drafting

open Drafting

def Leaf.refs : Leaf → List Ref
  | .inst _ _ inputs => inputs
  | .wire _ input => input.toList
  | .output operands => operands
  | .dbgVariable note => note.value :: (note.scope.toList ++ note.enumDef.toList)
  | .dbgScope note => note.scope.toList
  | .other _ operands => operands
  | .moduleInfo .. | .enumDef _ => []

def Leaf.binds (label : Option String) (statement : Leaf) : Set String :=
  { l | label = some l ∧ statement.results ≠ 0 }

def Body.binds : Body → Set String
  | .done => ∅
  | .loc _ rest | .mention _ rest => rest.binds
  | .leaf label statement rest => statement.binds label ∪ rest.binds
  | .region _ inner rest => inner.binds ∪ rest.binds

/-- What a reference stands for corresponds wherever the labels of a set do. -/
def Ref.Sure (R : Renumbering) (bound : Set String) : Ref → Prop
  | .input _ => True
  | .label l => l ∈ bound
  | .value v => R.value v = v

/-- Every reference of a body is sure where it stands. -/
def Body.Sure (R : Renumbering) (bound : Set String) : Body → Prop
  | .done => True
  | .loc _ rest | .mention _ rest => rest.Sure R bound
  | .leaf label statement rest =>
    (∀ ref ∈ statement.refs, ref.Sure R bound) ∧ rest.Sure R (bound ∪ statement.binds label)
  | .region _ inner rest => inner.Sure R bound ∧ rest.Sure R (bound ∪ inner.binds)

def Body.makesOp : Body → Bool
  | .done => false
  | .loc _ rest | .mention _ rest => rest.makesOp
  | .leaf .. | .region .. => true

/-- The last operation that the statements make at their own level is an output. -/
def Body.endsInOutput : Body → Bool
  | .done => false
  | .loc _ rest | .mention _ rest | .region _ _ rest => rest.endsInOutput
  | .leaf _ statement rest => rest.endsInOutput || (statement.isOutput && !rest.makesOp)

/-- The forest ends as the statements of a body do. -/
structure Body.Ends (body : Body) (F : Forest String) : Prop where
  some : F.last?.isSome = body.makesOp
  outputs : body.endsInOutput = false → F.outputs = []

/-- Where all labels and all values correspond, every reference is sure. -/
theorem Body.sure_univ {R : Renumbering} (values : ∀ v, R.value v = v) (body : Body) :
    body.Sure R Set.univ := by
  induction body with
  | done => trivial
  | loc _ _ ih | mention _ _ ih => exact ih
  | leaf label statement rest ih =>
    refine ⟨fun ref _ => ?_, by rwa [Set.univ_union]⟩
    cases ref with
    | input | label => trivial
    | value v => exact values v
  | region name inner rest ihInner ihRest => exact ⟨ihInner, by rwa [Set.univ_union]⟩

/-- Two drafts whose designs correspond, and the values of some labels with them. -/
structure Draft.Twins (R : Renumbering) (bound : Set String) (s s' : Draft) : Prop where
  designs : s.design.Twins R s'.design
  labels : ∀ l ∈ bound, s'.labels.lookup l = (s.labels.lookup l).map R.value

section Statements

variable {R : Renumbering} {bound : Set String} {s s' : Draft}

theorem Drafting.read_sees (twins : s.Twins R bound s') (inputs : List ValueId) {ref : Ref}
    (sure : ref.Sure R bound) :
    Sees s s' R.value (read inputs ref) (read (inputs.map R.value) ref) := by
  cases ref with
  | input index =>
    simp only [read, List.getElem?_map]
    cases inputs[index]? with
    | none => exact rfl
    | some v => exact .pure rfl
  | label l =>
    have found := twins.labels l sure
    simp only [Sees, Together, read, EStateM.run_bind, EStateM.run_get, found]
    cases s.labels.lookup l with
    | none => exact rfl
    | some v => exact ⟨rfl, rfl, rfl⟩
  | value v => exact .pure sure.symm

/-- Statements that refer to corresponding values make corresponding operations. -/
theorem Leaf.payload_sees (twins : s.Twins R bound s') (inputs : List ValueId) {statement : Leaf}
    (sure : ∀ ref ∈ statement.refs, ref.Sure R bound) : Sees s s' (Payload.renumber R)
      (statement.payload (read inputs)) (statement.payload (read (inputs.map R.value))) := by
  have each (ref : Ref) (h : ref ∈ statement.refs) := read_sees twins inputs (sure ref h)
  cases statement with
  | inst name moduleName refs => exact (Sees.list refs each).bind fun _ => .pure rfl
  | wire name ref =>
    exact (Sees.option ref fun a ha => each a (by simpa [refs] using ha)).bind fun _ => .pure rfl
  | output refs => exact (Sees.list refs each).bind fun _ => .pure rfl
  | dbgVariable note =>
    exact (each note.value (by simp [refs])).bind fun _ =>
      (Sees.option note.scope fun a ha => each a (by simp_all [refs])).bind fun _ =>
        (Sees.option note.enumDef fun a ha => each a (by simp_all [refs])).bind fun _ => .pure rfl
  | dbgScope note =>
    exact (Sees.option note.scope fun a ha => each a (by simpa [refs] using ha)).bind
      fun _ => .pure rfl
  | moduleInfo typeName params => exact .pure rfl
  | enumDef note => exact .pure rfl
  | other name refs => exact (Sees.list refs each).bind fun _ => .pure rfl

/-! ### Statements -/

theorem Drafting.note_together (twins : s.Twins R bound s') (ss : List String) :
    Together (note ss) (note ss) s s' fun _ _ t t' =>
      t.Twins R bound t' ∧ t.design = s.design ∧ t'.design = s'.design :=
  ⟨⟨twins.designs, twins.labels⟩, rfl, rfl⟩

theorem Drafting.addOp_labels {block : BlockId} {loc : SourceLoc String} {payload : Payload String}
    {results : Nat} {label : Option String} {t : Draft}
    (run : (addOp block loc payload results label).run s = .ok () t) :
    t.labels = if results = 0 then s.labels
      else (label.map fun l => (l, (⟨s.design.values.size⟩ : ValueId))).toList ++ s.labels := by
  cases run
  dsimp only
  rw [Design.addOp_results]
  cases results with
  | zero => cases label <;> rfl
  | succ n =>
    rw [List.range_succ_eq_map]
    cases label <;> rfl

theorem Drafting.addOp_together (twins : s.Twins R bound s') (b b' : BlockId)
    (loc : SourceLoc String) (payload payload' : Payload String) (results : Nat)
    (label : Option String) :
    Together (addOp b loc payload results label) (addOp b' loc payload' results label) s s'
      fun _ _ t t' => t.Twins R (bound ∪ { l | label = some l ∧ results ≠ 0 }) t' ∧
        t.design = (s.design.addOp b loc payload results).2 ∧
        t'.design = (s'.design.addOp b' loc payload' results).2 := by
  obtain ⟨t, run⟩ : ∃ t, (addOp b loc payload results label).run s = .ok () t := ⟨_, rfl⟩
  obtain ⟨t', run'⟩ : ∃ t', (addOp b' loc payload' results label).run s' = .ok () t' := ⟨_, rfl⟩
  refine .of_ok run run' ⟨⟨?_, fun l hl => ?_⟩, addOp_design run, addOp_design run'⟩
  · rw [addOp_design run, addOp_design run']
    exact twins.designs.addOp b b' loc payload payload' results
  · have first := twins.designs.values 0
    have before := twins.labels l
    rw [addOp_labels run, addOp_labels run']
    by_cases none : results = 0
    · rw [if_pos none, if_pos none]
      exact before (hl.resolve_right fun made => made.2 none)
    · rw [if_neg none, if_neg none]
      cases label with
      | none => exact before (hl.resolve_right fun made => nomatch made.1)
      | some l' =>
        simp only [Option.map_some, Option.toList_some, List.singleton_append, List.lookup_cons]
        by_cases same : l = l'
        · simpa [same] using first.symm
        · rw [beq_eq_false_iff_ne.2 same]
          exact before (hl.resolve_right fun made => same (Option.some.inj made.1).symm)

theorem Drafting.addOwner_together (twins : s.Twins R bound s') (b b' : BlockId)
    (loc : SourceLoc String) (payload payload' : BlockId → Payload String) (args : Nat) :
    Together (addOwner b loc payload args) (addOwner b' loc payload' args) s s' fun r r' t t' =>
      t.Twins R bound t' ∧ r = ⟨s.design.blocks.size⟩ ∧ r' = ⟨s'.design.blocks.size⟩ ∧
        t.design = (s.design.addOwner b loc payload args).2 ∧
        t'.design = (s'.design.addOwner b' loc payload' args).2 :=
  ⟨⟨twins.designs.addOwner b b' loc payload payload' args, twins.labels⟩, rfl, rfl, rfl, rfl⟩

theorem Leaf.Makes.renumber {statement : Leaf} {payload : Payload String}
    (makes : statement.Makes payload) (R : Renumbering) : statement.Makes (payload.renumber R) where
  leaf := by rw [Payload.regions_renumber, makes.leaf, List.map_nil]
  plain := by rw [Payload.isModuleLike_renumber, makes.plain]
  output := by rw [Payload.output?_renumber, Option.isSome_map, makes.output]
  single note scope := by
    cases payload with
    | dbgScope note => exact makes.single note rfl
    | _ => cases scope

theorem Leaf.draft_together (twins : s.Twins R bound s') {level level' : Level}
    (inputs : level'.inputs = level.inputs.map R.value) (loc : level'.loc = level.loc)
    (inside : level.block.index < s.design.blocks.size)
    (inside' : level'.block.index < s'.design.blocks.size)
    (label : Option String) {statement : Leaf} (sure : ∀ ref ∈ statement.refs, ref.Sure R bound) :
    Together (statement.draft level label) (statement.draft level' label) s s' fun _ _ t t' =>
      t.Twins R (bound ∪ statement.binds label) t' ∧ ∃ id op op', statement.Makes op.payload ∧
        op.Renumbered R op' ∧ Design.GrowAlike R level.block level'.block s.design
          s'.design t.design t'.design (.cons id op .nil .nil) (.cons (R.op id) op' .nil .nil) := by
  unfold Leaf.draft
  rw [inputs, loc]
  refine Together.bind (payload_sees twins level.inputs sure) fun {payload _ _ _} run seen => ?_
  obtain ⟨rfl, rfl, rfl⟩ := seen
  obtain ⟨-, makes⟩ := payload_spec run
  refine (note_together twins statement.mentions).bind fun {_ _ u u'} _ noted => ?_
  obtain ⟨twins, same, same'⟩ := noted
  rw [← same] at inside
  rw [← same'] at inside'
  refine (addOp_together twins level.block level'.block level.loc payload (payload.renumber R)
    statement.results label).imp
    fun added => ?_
  obtain ⟨grown, added, added'⟩ := added
  have op : R.op ⟨u.design.ops.size⟩ = ⟨u'.design.ops.size⟩ := twins.designs.ops 0
  have here : Operation.Renumbered R
      (u.design.addOp level.block level.loc payload statement.results).1
      (u'.design.addOp level'.block level.loc (payload.renumber R) statement.results).1 :=
    ⟨rfl, rfl, by simp [twins.designs.values, Function.comp_def]⟩
  have makes' := makes.renumber R
  refine ⟨grown, ⟨u.design.ops.size⟩, _, _, makes, here, ?_, ?_, ?_⟩
  · rw [← same, added]
    exact Design.adds_addOp _ inside makes.leaf makes.single
  · rw [← same', added', op]
    exact Design.adds_addOp _ inside' makes'.leaf makes'.single
  · exact .node here (by simp [makes.plain]) .nil .nil

/-- **Bodies twice.** From corresponding drafts, the statements of a body add operations that
agree, or meet the same fault. -/
theorem Body.draft_together {body : Body} (level level' : Level) (twins : s.Twins R bound s')
    (inputs : level'.inputs = level.inputs.map R.value) (loc : level'.loc = level.loc)
    (inside : level.block.index < s.design.blocks.size)
    (inside' : level'.block.index < s'.design.blocks.size)
    (sure : body.Sure R bound) :
    Together (body.draft level) (body.draft level') s s' fun _ _ t t' =>
      t.Twins R (bound ∪ body.binds) t' ∧
        ∃ F F', Design.GrowAlike R level.block level'.block s.design
        s'.design t.design t'.design F F' ∧ F.EndAlike R F' ∧ body.Ends F := by
  induction body generalizing level level' s s' bound with
  | done =>
    refine .pure ⟨by rwa [binds, Set.union_empty], .nil, .nil, ⟨.refl _ _, .refl _ _, .nil⟩, ?_, ?_⟩
    · exact ⟨rfl, rfl⟩
    · exact ⟨rfl, fun _ => rfl⟩
  | loc place rest ih =>
    refine (note_together twins (placeMentions place)).bind fun _ noted => ?_
    obtain ⟨twins, same, same'⟩ := noted
    rw [← same] at inside ⊢
    rw [← same'] at inside' ⊢
    refine (ih { level with loc := place.getD .unknown } { level' with loc := place.getD .unknown }
      twins inputs rfl inside inside' sure).imp fun drafted => ?_
    obtain ⟨twins, F, F', grows, ends, tail⟩ := drafted
    exact ⟨twins, F, F', grows, ends, tail.some, tail.outputs⟩
  | mention text rest ih =>
    refine (note_together twins [text]).bind fun _ noted => ?_
    obtain ⟨twins, same, same'⟩ := noted
    rw [← same] at inside ⊢
    rw [← same'] at inside' ⊢
    refine (ih level level' twins inputs loc inside inside' sure).imp fun drafted => ?_
    obtain ⟨twins, F, F', grows, ends, tail⟩ := drafted
    exact ⟨twins, F, F', grows, ends, tail.some, tail.outputs⟩
  | leaf label statement rest ih =>
    refine (Leaf.draft_together twins inputs loc inside inside' label sure.1).bind
      fun _ drafted => ?_
    obtain ⟨twins, id, op, op', makes, here, grows⟩ := drafted
    have count := grows.left.blockCount
    have count' := grows.right.blockCount
    refine (ih level level' twins inputs loc (by omega) (by omega) sure.2).imp fun drafted => ?_
    obtain ⟨twins, G, G', more, ends, tail⟩ := drafted
    have last : Forest.EndAlike R (.cons id op .nil .nil) (.cons (R.op id) op' .nil .nil) :=
      ⟨rfl, by
        cases out : op.payload.output? <;> simp [Forest.outputs, Forest.last?, here.payload, out]⟩
    rw [binds, ← Set.union_assoc]
    refine ⟨twins, _, _, grows.trans inside inside' more, last.append ends, ?_, ?_⟩
    · simp [Forest.last?, makesOp]
    · intro none
      simp only [endsInOutput, Bool.or_eq_false_iff, Bool.and_eq_false_iff,
        ← makes.output, ← tail.some]
        at none
      rw [Forest.outputs_append, tail.outputs none.1]
      split
      · rfl
      · next last =>
        have silent : op.payload.output? = .none := by simpa [last] using none.2
        simp [Forest.outputs, Forest.last?, silent]
  | region name inner rest ihInner ihRest =>
    refine (note_together twins [name]).bind fun {_ _ t t'} _ noted => ?_
    obtain ⟨twins, same, same'⟩ := noted
    rw [← same] at inside ⊢
    rw [← same'] at inside' ⊢
    rw [loc]
    refine (addOwner_together twins level.block level'.block level.loc _ _ 0).bind fun _ owned => ?_
    obtain ⟨held, rfl, rfl, grown, grown'⟩ := owned
    refine (ihInner ⟨⟨t.design.blocks.size⟩, level.inputs, level.loc⟩
      ⟨⟨t'.design.blocks.size⟩, level'.inputs, level.loc⟩ held inputs rfl (by simp [grown])
      (by simp [grown']) sure.1).bind fun _ drafted => ?_
    obtain ⟨filled, G, G', below, ends, tail⟩ := drafted
    rw [grown, grown'] at below
    have owns := Design.GrowAlike.within (twins.designs.ops 0)
      (twins.designs.blocks 0) inside inside'
      (fun _ => rfl) (fun _ => rfl) (fun like => Bool.noConfusion like) below
    have count := owns.left.blockCount
    have count' := owns.right.blockCount
    refine (ihRest level level' filled inputs loc (by omega) (by omega) sure.2).imp
      fun drafted => ?_
    obtain ⟨twins, F, F', more, ends, tail⟩ := drafted
    refine ⟨by rwa [binds, ← Set.union_assoc], _, _, owns.trans inside inside' more,
      Forest.EndAlike.append ⟨rfl, rfl⟩ ends, ?_, ?_⟩
    · simp [Forest.last?, makesOp]
    · intro none
      rw [Forest.outputs_append, tail.outputs none]
      split <;> rfl

def Drafting.addModule (block : BlockId) (loc : SourceLoc String) (name : String)
    (ports : List PortDecl) (body : Body) : Drafting Unit := do
  note (PortDecl.mentions name ports)
  let region ← addOwner block loc (.module name (PortDecl.number ports)) (PortDecl.argCount ports)
  let inputs := (← get).design.argsOf region
  body.draft ⟨region, inputs, loc⟩

theorem Script.draft_module (name : String) (ports : List PortDecl) (body : Body) (rest : Script)
    (block : BlockId) (loc : SourceLoc String) :
    (Script.module name ports body rest).draft block loc =
      (do addModule block loc name ports body; rest.draft block loc) := by
  simp only [Script.draft, addModule, bind_assoc]

def Drafting.addExtern (block : BlockId) (loc : SourceLoc String) (name : String)
    (ports : List PortDecl) :
    Drafting Unit := do
  note (PortDecl.mentions name ports)
  addOp block loc (.externModule name (PortDecl.number ports)) 0 none

theorem Script.draft_externModule (name : String) (ports : List PortDecl) (rest : Script)
    (block : BlockId) (loc : SourceLoc String) :
    (Script.externModule name ports rest).draft block loc =
      (do addExtern block loc name ports; rest.draft block loc) := by
  simp only [Script.draft, addExtern, bind_assoc]

variable {b b' : BlockId}

theorem Drafting.addModule_together (twins : s.Twins R bound s')
    (inside : b.index < s.design.blocks.size) (inside' : b'.index < s'.design.blocks.size)
    (loc : SourceLoc String) (name : String) (ports : List PortDecl) {body : Body}
    (sure : body.Sure R bound) :
    Together (addModule b loc name ports body) (addModule b' loc name ports body) s s'
      fun _ _ t t' =>
      t.Twins R (bound ∪ body.binds) t' ∧ ∃ F F',
        Design.GrowAlike R b b' s.design s'.design t.design t'.design F F' := by
  refine (note_together twins (PortDecl.mentions name ports)).bind fun {_ _ t t'} _ noted => ?_
  obtain ⟨twins, same, same'⟩ := noted
  rw [← same] at inside ⊢
  rw [← same'] at inside' ⊢
  refine (addOwner_together twins b b' loc _ _ (PortDecl.argCount ports)).bind
    fun {_ _ u u'} _ owned => ?_
  obtain ⟨held, rfl, rfl, grown, grown'⟩ := owned
  have inputs : u'.design.argsOf ⟨t'.design.blocks.size⟩ =
      (u.design.argsOf ⟨t.design.blocks.size⟩).map R.value := by
    have block : R.block ⟨t.design.blocks.size⟩ = ⟨t'.design.blocks.size⟩ := twins.designs.blocks 0
    rw [Design.argsOf_eq, Design.argsOf_eq, ← block, held.designs.args]
    cases u.design.argsAt? ⟨t.design.blocks.size⟩ <;> rfl
  have drafted := Body.draft_together ⟨⟨t.design.blocks.size⟩,
      u.design.argsOf ⟨t.design.blocks.size⟩, loc⟩
    ⟨⟨t'.design.blocks.size⟩, u'.design.argsOf ⟨t'.design.blocks.size⟩, loc⟩ held inputs rfl
    (by simp [grown]) (by simp [grown']) sure
  refine Together.imp drafted fun ⟨filled, G, G', below, ends, _⟩ => ?_
  rw [grown, grown'] at below
  exact ⟨filled, _, _, .within (twins.designs.ops 0)
    (twins.designs.blocks 0) inside inside' (fun _ => rfl) (fun _ => rfl)
    (fun _ => ends.outputs) below⟩

theorem Drafting.addExtern_together (twins : s.Twins R bound s')
    (inside : b.index < s.design.blocks.size) (inside' : b'.index < s'.design.blocks.size)
    (loc : SourceLoc String) (name : String) (ports : List PortDecl) :
    Together (addExtern b loc name ports) (addExtern b' loc name ports) s s' fun _ _ t t' =>
      t.Twins R bound t' ∧ ∃ F F',
      Design.GrowAlike R b b' s.design s'.design t.design t'.design F F' := by
  refine (note_together twins (PortDecl.mentions name ports)).bind fun {_ _ t t'} _ noted => ?_
  obtain ⟨twins, same, same'⟩ := noted
  rw [← same] at inside ⊢
  rw [← same'] at inside' ⊢
  refine (addOp_together twins b b' loc _ _ 0 none).imp fun ⟨filled, added, added'⟩ => ?_
  have op : R.op ⟨t.design.ops.size⟩ = ⟨t'.design.ops.size⟩ := twins.designs.ops 0
  rw [added, added']
  refine ⟨⟨filled.designs, fun l hl => filled.labels l (.inl hl)⟩, _, _,
    Design.adds_addOp loc inside rfl nofun, Design.adds_addOp loc inside' rfl nofun, ?_⟩
  rw [← op]
  exact .node ⟨rfl, rfl, rfl⟩ (fun _ => rfl) .nil .nil

/-- **Scripts twice.** From corresponding drafts, the statements of a script add operations that
agree, or meet the same fault. -/
theorem Script.draft_together {script : Script} (values : ∀ v, R.value v = v)
    (twins : s.Twins R Set.univ s') (inside : b.index < s.design.blocks.size)
    (inside' : b'.index < s'.design.blocks.size) (loc : SourceLoc String) :
    Together (script.draft b loc) (script.draft b' loc) s s' fun last last' t t' =>
      last' = last ∧ t.Twins R Set.univ t' ∧
        ∃ F F', Design.GrowAlike R b b' s.design s'.design t.design t'.design F F' := by
  induction script generalizing b b' loc s s' with
  | done => exact .pure ⟨rfl, twins, .nil, .nil, .refl _ _, .refl _ _, .nil⟩
  | loc place rest ih =>
    refine (note_together twins (placeMentions place)).bind fun _ noted => ?_
    obtain ⟨twins, same, same'⟩ := noted
    rw [← same] at inside ⊢
    rw [← same'] at inside' ⊢
    exact ih twins inside inside' _
  | mention text rest ih =>
    refine (note_together twins [text]).bind fun _ noted => ?_
    obtain ⟨twins, same, same'⟩ := noted
    rw [← same] at inside ⊢
    rw [← same'] at inside' ⊢
    exact ih twins inside inside' _
  | module name ports body rest ih =>
    rw [draft_module, draft_module]
    have sure := body.sure_univ values
    refine (addModule_together twins inside inside' loc name ports sure).bind fun _ added => ?_
    obtain ⟨twins, F, F', grows⟩ := added
    rw [Set.univ_union] at twins
    have count := grows.left.blockCount
    have count' := grows.right.blockCount
    refine (ih twins (by omega) (by omega) loc).imp fun ⟨same, twins, G, G', more⟩ => ?_
    exact ⟨same, twins, _, _, grows.trans inside inside' more⟩
  | externModule name ports rest ih =>
    rw [draft_externModule, draft_externModule]
    refine (addExtern_together twins inside inside' loc name ports).bind fun _ added => ?_
    obtain ⟨twins, F, F', grows⟩ := added
    have count := grows.left.blockCount
    have count' := grows.right.blockCount
    refine (ih twins (by omega) (by omega) loc).imp fun ⟨same, twins, G, G', more⟩ => ?_
    exact ⟨same, twins, _, _, grows.trans inside inside' more⟩
  | container name inner rest ihInner ihRest =>
    refine (note_together twins [name]).bind fun _ noted => ?_
    obtain ⟨twins, same, same'⟩ := noted
    rw [← same] at inside ⊢
    rw [← same'] at inside' ⊢
    refine (addOwner_together twins b b' loc _ _ 0).bind fun _ owned => ?_
    obtain ⟨held, rfl, rfl, grown, grown'⟩ := owned
    refine (ihInner held (by simp [grown]) (by simp [grown']) loc).bind
      fun {last _ _ _} _ drafted => ?_
    obtain ⟨rfl, filled, G, G', below⟩ := drafted
    rw [grown, grown'] at below
    have owns := Design.GrowAlike.within (twins.designs.ops 0)
      (twins.designs.blocks 0) inside inside'
      (fun _ => rfl) (fun _ => rfl) (fun like => Bool.noConfusion like) below
    have count := owns.left.blockCount
    have count' := owns.right.blockCount
    refine (ihRest filled (by omega) (by omega) _).imp fun ⟨same, twins, F, F', more⟩ => ?_
    exact ⟨same, twins, _, _, owns.trans inside inside' more⟩

end Statements

end DebugHierarchy
