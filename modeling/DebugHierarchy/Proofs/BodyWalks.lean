import DebugHierarchy.Extraction.Basic
import DebugHierarchy.Proofs.Touring

/-!
Bodies as walks.

An extraction takes the operations of a body from a list, and so it does with the definitions of a
design. Both lists are what a walk shows to a visitor that passes over what is nested in a
module-like operation: one step for each member of the list is a walk along the handles of the
design, with the same steps.

* `Forest.walk_body`, `Forest.walk_definitions`: a walk of such a visitor is a loop over the list;
* `bodies_walked`: the surveys and fillings of a design are walks over the bodies of its
  definitions, and the list of a body has just what lies in its block.
-/

namespace DebugHierarchy

variable {ν σ : Type} {m : Type → Type} [Monad m]

/-- The visitor that takes a step at an operation of a body, and passes
over module-like operations. -/
def bodyVisitor (step : Entry ν → m PUnit) (id : OpId) (op : Operation ν) : m Control := do
  if op.payload.isModuleLike then
    return .skip
  step (id, op)
  return .descend

/-- The visitor that takes a step at a module-like operation, and looks
for such operations elsewhere. -/
def rootVisitor (step : Entry ν → m PUnit) (id : OpId) (op : Operation ν) : m Control := do
  if op.payload.isModuleLike then
    step (id, op)
    return .skip
  return .descend

def carrying (f : σ → Entry ν → m σ) (e : Entry ν) : StateT σ m PUnit := do
  set (← f (← get) e)

section Loops

variable [LawfulMonad m]

/-- What a visitor does in a body is one step for each of the operations that belong to the body. -/
theorem Forest.walk_body (step : Entry ν → m PUnit) (F : Forest ν) :
    F.walk (bodyVisitor step) = do
      forM F.body step
      return .completed := by
  induction F with
  | nil => simp [walk, body]
  | cons id op inner rest ihInner ihRest =>
    rw [walk, ihInner, ihRest, bodyVisitor, body]
    cases op.payload.isModuleLike <;> simp

/-- What a visitor does at definitions is one step for each of them. -/
theorem Forest.walk_definitions (step : Entry ν → m PUnit) (F : Forest ν) :
    F.walk (rootVisitor step) = do
      forM F.definitions step
      return .completed := by
  induction F with
  | nil => simp [walk, definitions]
  | cons id op inner rest ihInner ihRest =>
    rw [walk, ihInner, ihRest, rootVisitor, definitions]
    cases op.payload.isModuleLike <;> simp

theorem forM_carrying (f : σ → Entry ν → m σ) (l : List (Entry ν)) (s : σ) :
    (forM l (carrying f)).run s = (fun last => (⟨⟩, last)) <$> l.foldlM f s := by
  induction l generalizing s with
  | nil => simp
  | cons e rest ih => simp [carrying, ih]

end Loops

section Bodies

variable {d : Design ν} {F : Forest ν} {b : BlockId}

/-- The list of a body has just the operations that lie in its block, and a loop over
it is a walk over the block. -/
structure Design.BodyWalked (d : Design ν) (b : BlockId) : Prop where
  ops : ∀ e ∈ d.bodyOf b, d.op e.1 = .ok e.2
  lies_iff : ∀ id, id ∈ (d.bodyOf b).map (·.1) ↔ d.LiesIn b id
  ordered : ((d.bodyOf b).map (·.1)).Pairwise (· < ·)
  walk : ∀ {m : Type → Type} [Monad m] [LawfulMonad m] (step : Entry ν → m PUnit),
    d.BlockWalk (bodyVisitor step) b do
      forM (d.bodyOf b) step
      return .completed

theorem Nesting.body_walked (n : Nesting d F) (linked : d.WellLinked) {e : Entry ν}
    (he : e ∈ d.definitions) {name : ν} {ports : List (Port ν)}
    (payload : e.2.payload = .module name ports b) : d.BodyWalked b := by
  -- No module lies in a body, so the list of the body leaves nothing of the block out.
  have plain : (d.under b).Plain := by
    rw [Design.definitions, n.under_top, ← F.parts_map_fst] at he
    obtain ⟨p, hp, rfl⟩ := List.mem_map.1 he
    obtain ⟨under, plain⟩ := n.under_of_mem_parts hp payload
    rwa [under]
  have found := Design.ops_of_mem_entries (n.mem_definitions_iff.1 he).1
  have owned : b ∈ e.2.payload.regions := by rw [payload]; exact List.mem_singleton_self b
  obtain ⟨block, inside, _⟩ := linked.owner found owned
  have there : b.index < d.blocks.size := (Array.getElem?_eq_some_iff.1 inside).1
  obtain ⟨stands, heads, ordered⟩ := n.under_block linked there
  have body : d.bodyOf b = (d.under b).preorder := Forest.body_of_plain plain
  refine ⟨fun e he => ?_, fun id => ?_, ?_, fun step => ?_⟩
  · exact Design.op_eq_ok_iff.2 (Forest.op_of_mem_preorder stands e (body ▸ he))
  · rw [body, Design.LiesIn, ← heads]
    exact Forest.mem_ids_iff stands
  · rw [body]
    exact ordered
  · rw [Design.bodyOf, ← Forest.walk_body]
    exact (n.block_walk linked there _).2

/-- An extraction goes through its design by walks along handles. -/
structure Design.WalkedThrough [DecidableEq ν] (d : Design ν) (options : Options) : Prop where
  /-- Definitions are taken in by a walk over the whole design. -/
  root : d.BlockWalk (rootVisitor (Building.collect d options)) Design.top do
    forM d.definitions (Building.collect d options)
    return .completed
  bodies : ∀ e ∈ d.definitions, ∀ name ports block, e.2.payload = .module name ports block →
    d.BodyWalked block
  /-- The survey of a body is a walk over its block, -/
  surveys : ∀ e ∈ d.definitions, ∀ name ports block, e.2.payload = .module name ports block →
    ∀ owner, ∃ x : StateT Survey (Building ν) Outcome,
      d.BlockWalk (bodyVisitor (carrying (Building.surveyOp options.info owner e.1))) block x ∧
        x.run {} = (fun s => (.completed, s)) <$>
          (d.bodyOf block).foldlM (Building.surveyOp options.info owner e.1) {}
  /-- and so is the filling. -/
  fillings : ∀ e ∈ d.definitions, ∀ name ports block, e.2.payload = .module name ports block →
    ∀ owner s, d.BlockWalk (bodyVisitor (Building.fillOp d options.scopes s owner)) block do
      forM (d.bodyOf block) (Building.fillOp d options.scopes s owner)
      return .completed

/-- **Walks through bodies.** The lists that an extraction loops over are read off
walks along the handles of the design: one over all of it for the definitions, and
two over the body of each of them. -/
theorem bodies_walked {d : Design Name} (scripted : d.Scripted) (options : Options) :
    d.WalkedThrough options := by
  obtain ⟨F, n⟩ := scripted.nesting
  have linked := scripted.wellLinked
  have body {e : Entry Name} (he : e ∈ d.definitions) {name : Name} {ports : List (Port Name)}
      {block : BlockId} (payload : e.2.payload = .module name ports block) :=
        n.body_walked linked he payload
  refine ⟨?_, fun e he name ports block => body he, fun e he name ports block payload owner => ?_,
    fun e he name ports block payload owner s => (body he payload).walk _⟩
  · rw [Design.definitions, ← Forest.walk_definitions]
    exact (n.block_walk linked (Nat.zero_lt_of_lt n.room) _).2
  · refine ⟨_, (body he payload).walk _, ?_⟩
    rw [StateT.run_bind, forM_carrying]
    simp

end Bodies

end DebugHierarchy
