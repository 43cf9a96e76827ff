import DebugHierarchy.Proofs.Nesting
import DebugHierarchy.Script.Draft

/-!
What scripts make.

A statement changes a design at one block only, and there it adds at the end. `Design.Adds` says
this of any stretch of statements: what the stretch adds to the block is a forest of new
operations, numbered in the order in which a reader of the forest meets them. The relation
composes along a script (`Body.draft_adds`, `Script.draft_adds`), so every design that a script
makes is nested (`Scripted.nesting`) and its values lead back to the operations that have them as
results (`Scripted.linked`).
-/

namespace DebugHierarchy

variable {ν μ : Type}

namespace Design

/-- Values lead back to the operations that produce them, and a scope produces one value. -/
structure Linked (d : Design ν) : Prop where
  results : ∀ {v : ValueId} {op : OpId} {i : Nat}, d.values[v.index]? = some (.opResult op i) →
    ∃ o, d.ops[op.index]? = some o ∧ o.results[i]? = some v
  scopes : ∀ {i : Nat} {o : Operation ν} {note : ScopeNote ν ValueId},
    d.ops[i]? = some o → o.payload = .dbgScope note → o.results.length = 1

def argsAt? (d : Design ν) (b : BlockId) : Option (List ValueId) := d.blocks[b.index]?.map (·.args)

theorem argsOf_eq (d : Design ν) (b : BlockId) : d.argsOf b = (d.argsAt? b).getD [] := by
  unfold argsOf argsAt?
  cases d.blocks[b.index]? <;> rfl

/-- `e` is `d` with the forest `F` added at the end of the block `b`. -/
structure Adds (d : Design ν) (b : BlockId) (F : Forest ν) (e : Design ν) : Prop where
  opsKept : ∀ i < d.ops.size, e.ops[i]? = d.ops[i]?
  blocksKept : ∀ i < d.blocks.size, i ≠ b.index → e.blocks[i]? = d.blocks[i]?
  atBlock : e.opsOf b = d.opsOf b ++ F.heads
  order : F.preorder.map (·.1.index) = List.range' d.ops.size F.preorder.length
  opCount : e.ops.size = d.ops.size + F.preorder.length
  blockCount : e.blocks.size = d.blocks.size + F.regions
  stands : F.StandsIn e
  fresh : ∀ x ∈ F.preorder, ∀ r ∈ x.2.payload.regions,
    d.blocks.size ≤ r.index ∧ r.index < e.blocks.size
  argsKept : ∀ c : BlockId, c.index < d.blocks.size → e.argsAt? c = d.argsAt? c
  valuesKept : ∀ i < d.values.size, e.values[i]? = d.values[i]?
  linked : d.Linked → e.Linked

theorem opsOf_congr {d e : Design ν} {b : BlockId}
    (same : e.blocks[b.index]? = d.blocks[b.index]?) : e.opsOf b = d.opsOf b := by
  simp only [opsOf, same]

section Steps

variable (d : Design ν) (b : BlockId) (loc : SourceLoc ν)

@[simp] theorem addOp_ops (payload : Payload ν) (results : Nat) :
    (d.addOp b loc payload results).2.ops = d.ops.push (d.addOp b loc payload results).1 := rfl

@[simp] theorem addOp_payload (payload : Payload ν) (results : Nat) :
    (d.addOp b loc payload results).1.payload = payload := rfl

@[simp] theorem addOp_results (payload : Payload ν) (results : Nat) :
    (d.addOp b loc payload results).1.results =
      (List.range results).map fun i => ⟨d.values.size + i⟩ := by
  simp [addOp, addValues]

@[simp] theorem addOp_blocks (payload : Payload ν) (results : Nat) :
    (d.addOp b loc payload results).2.blocks =
      d.blocks.modify b.index fun block => { block with ops := block.ops.push ⟨d.ops.size⟩ } := rfl

@[simp] theorem addOp_values (payload : Payload ν) (results : Nat) :
    (d.addOp b loc payload results).2.values =
      d.values ++ ((List.range results).map (ValueDef.opResult ⟨d.ops.size⟩)).toArray := rfl

@[simp] theorem argsAt?_addOp (payload : Payload ν) (results : Nat) (c : BlockId) :
    (d.addOp b loc payload results).2.argsAt? c = d.argsAt? c := by
  unfold argsAt?
  rw [addOp_blocks, Array.getElem?_modify]
  split <;> cases d.blocks[c.index]? <;> rfl

variable {d b}

theorem opsOf_addOp (inside : b.index < d.blocks.size) (payload : Payload ν) (results : Nat) :
    (d.addOp b loc payload results).2.opsOf b = d.opsOf b ++ [⟨d.ops.size⟩] := by
  simp [opsOf, Array.getElem?_modify, Array.getElem?_eq_getElem inside]

theorem linked_addOp {payload : Payload ν} {results : Nat}
    (single : ∀ note, payload = .dbgScope note → results = 1) (h : d.Linked) :
    (d.addOp b loc payload results).2.Linked where
  results := by
    intro v op i hv
    rw [addOp_values] at hv
    by_cases old : v.index < d.values.size
    · rw [Array.getElem?_append_left old] at hv
      obtain ⟨o, ho, hi⟩ := h.results hv
      have bound := (Array.getElem?_eq_some_iff.1 ho).1
      exact ⟨o, by rw [addOp_ops, Array.getElem?_push_lt bound, ← ho]; simp, hi⟩
    · rw [Array.getElem?_append_right (by omega)] at hv
      simp only [List.getElem?_toArray, List.getElem?_map, Option.map_eq_some_iff,
        List.getElem?_eq_some_iff, List.getElem_range, List.length_range,
        ValueDef.opResult.injEq] at hv
      obtain ⟨_, ⟨bound, rfl⟩, rfl, rfl⟩ := hv
      refine ⟨_, by rw [addOp_ops]; exact Array.getElem?_push_size, ?_⟩
      rw [addOp_results, List.getElem?_map, List.getElem?_range bound]
      exact congrArg some (Handle.ext (by simp; omega))
  scopes := by
    intro i o note ho scope
    rw [addOp_ops, Array.getElem?_push] at ho
    split at ho
    · cases ho
      rw [addOp_results, List.length_map, List.length_range]
      exact single note scope
    · exact h.scopes ho scope

/-- A single operation without blocks is added. -/
theorem adds_addOp (inside : b.index < d.blocks.size) {payload : Payload ν} {results : Nat}
    (leaf : payload.regions = []) (single : ∀ note, payload = .dbgScope note → results = 1) :
    d.Adds b (.cons ⟨d.ops.size⟩ (d.addOp b loc payload results).1 .nil .nil)
      (d.addOp b loc payload results).2 where
  opsKept i hi := by rw [addOp_ops, Array.getElem?_push_lt hi]; simp [hi]
  blocksKept i _ hb := by rw [addOp_blocks, Array.getElem?_modify, if_neg (Ne.symm hb)]
  atBlock := opsOf_addOp loc inside payload results
  order := rfl
  opCount := by simp [Forest.preorder]
  blockCount := by simp [Forest.regions, leaf]
  stands := ⟨by rw [addOp_ops]; exact Array.getElem?_push_size, by simp [leaf, Forest.heads],
    trivial, trivial⟩
  fresh := by simp [Forest.preorder, leaf]
  argsKept c _ := argsAt?_addOp d b loc payload results c
  valuesKept i hi := by rw [addOp_values, Array.getElem?_append_left hi]
  linked := linked_addOp loc single

variable (d b) (payload : BlockId → Payload ν) (args : Nat)

@[simp] theorem addOwner_ops : (d.addOwner b loc payload args).2.ops =
    d.ops.push (d.addOp b loc (payload ⟨d.blocks.size⟩) 0).1 := rfl

@[simp] theorem addOwner_values : (d.addOwner b loc payload args).2.values =
    d.values ++ ((List.range args).map (ValueDef.blockArg ⟨d.blocks.size⟩)).toArray := by
  simp [addOwner, addValues]

@[simp] theorem addOwner_blocks_size :
    (d.addOwner b loc payload args).2.blocks.size = d.blocks.size + 1 := by
  simp [addOwner, addValues]

theorem argsAt?_addOwner (c : BlockId) : (d.addOwner b loc payload args).2.argsAt? c =
    if c.index = d.blocks.size then some ((List.range args).map fun i => ⟨d.values.size + i⟩)
    else d.argsAt? c := by
  have added := argsAt?_addOp d b loc (payload ⟨d.blocks.size⟩) 0 c
  have size : (d.addOp b loc (payload ⟨d.blocks.size⟩) 0).2.blocks.size = d.blocks.size := by simp
  have values : (d.addOp b loc (payload ⟨d.blocks.size⟩) 0).2.values.size = d.values.size := by simp
  simp only [argsAt?, addOwner, addValues, List.length_map, List.length_range,
    Array.getElem?_push] at added ⊢
  rw [size, values]
  split
  · rfl
  · exact added

variable {d b}

theorem addOwner_block_of_ne {i : Nat} (old : i < d.blocks.size) (other : i ≠ b.index) :
    (d.addOwner b loc payload args).2.blocks[i]? = d.blocks[i]? := by
  simp only [addOwner, addValues, addOp_blocks]
  rw [Array.getElem?_push_lt (by simpa using old), ← Array.getElem?_eq_getElem,
    Array.getElem?_modify, if_neg (Ne.symm other)]

theorem opsOf_addOwner (inside : b.index < d.blocks.size) :
    (d.addOwner b loc payload args).2.opsOf b = d.opsOf b ++ [⟨d.ops.size⟩] := by
  rw [← opsOf_addOp loc inside (payload ⟨d.blocks.size⟩) 0]
  apply opsOf_congr
  simp only [addOwner, addValues, addOp_blocks]
  rw [Array.getElem?_push_lt (by simpa using inside), ← Array.getElem?_eq_getElem]

theorem opsOf_addOwner_region :
    (d.addOwner b loc payload args).2.opsOf ⟨d.blocks.size⟩ = [] := by
  simp only [opsOf, addOwner, addValues, addOp_blocks]
  rw [Array.getElem?_push, if_pos (by simp)]

theorem linked_addOwner (noScope : ∀ note, payload ⟨d.blocks.size⟩ ≠ .dbgScope note)
    (h : d.Linked) : (d.addOwner b loc payload args).2.Linked := by
  have added : (d.addOp b loc (payload ⟨d.blocks.size⟩) 0).2.Linked :=
    linked_addOp loc (fun note scope => absurd scope (noScope note)) h
  refine ⟨?_, added.scopes⟩
  intro v op i hv
  rw [addOwner_values] at hv
  by_cases old : v.index < d.values.size
  · rw [Array.getElem?_append_left old] at hv
    exact added.results (by simpa using hv)
  · rw [Array.getElem?_append_right (by omega)] at hv
    simp at hv

end Steps

theorem Adds.refl (d : Design ν) (b : BlockId) : d.Adds b .nil d where
  opsKept _ _ := rfl
  blocksKept _ _ _ := rfl
  atBlock := by simp [Forest.heads]
  order := rfl
  opCount := rfl
  blockCount := rfl
  stands := trivial
  fresh := by simp [Forest.preorder]
  argsKept _ _ := rfl
  valuesKept _ _ := rfl
  linked := id

/-- What stands in a design goes on standing in every design that
keeps its operations and blocks. -/
theorem standsIn_congr {d e : Design ν} {F : Forest ν}
    (ops : ∀ x ∈ F.preorder, e.ops[x.1.index]? = d.ops[x.1.index]?)
    (blocks : ∀ x ∈ F.preorder, ∀ r ∈ x.2.payload.regions, e.opsOf r = d.opsOf r)
    (stands : F.StandsIn d) : F.StandsIn e := by
  induction F with
  | nil => trivial
  | cons id op inner rest ihInner ihRest =>
    obtain ⟨here, heads, hInner, hRest⟩ := stands
    simp only [Forest.preorder, List.cons_append, List.mem_cons, List.mem_append] at ops blocks
    refine ⟨(ops _ (.inl rfl)).trans here, ?_,
      ihInner (fun x hx => ops x (.inr (.inl hx))) (fun x hx => blocks x (.inr (.inl hx))) hInner,
      ihRest (fun x hx => ops x (.inr (.inr hx))) (fun x hx => blocks x (.inr (.inr hx))) hRest⟩
    rw [heads]
    exact List.flatMap_congr fun r hr => (blocks _ (.inl rfl) r hr).symm

theorem Adds.index_lt {d e : Design ν} {b : BlockId} {F : Forest ν} (h : d.Adds b F e) :
    ∀ x ∈ F.preorder, d.ops.size ≤ x.1.index ∧ x.1.index < e.ops.size := by
  intro x hx
  have : x.1.index ∈ F.preorder.map (·.1.index) := List.mem_map_of_mem hx
  rw [h.order, List.mem_range'_1, ← h.opCount] at this
  exact this

theorem Adds.valueCount_le {d e : Design ν} {b : BlockId} {F : Forest ν} (h : d.Adds b F e) :
    d.values.size ≤ e.values.size := by
  by_contra fewer
  have kept := h.valuesKept e.values.size (by omega)
  rw [Array.getElem?_eq_none (Nat.le_refl _), Array.getElem?_eq_getElem (by omega)] at kept
  cases kept

/-- What is added first stays as it is while more is added to the same block. -/
theorem Adds.trans {d e f : Design ν} {b : BlockId} {F G : Forest ν}
    (inside : b.index < d.blocks.size) (first : d.Adds b F e) (next : e.Adds b G f) :
    d.Adds b (F ++ G) f where
  opsKept i hi := by
    have := first.opCount
    rw [next.opsKept i (by omega), first.opsKept i hi]
  blocksKept i hi hb := by
    have := first.blockCount
    rw [next.blocksKept i (by omega) hb, first.blocksKept i hi hb]
  atBlock := by rw [next.atBlock, first.atBlock, Forest.heads_append, List.append_assoc]
  order := by
    rw [Forest.preorder_append, List.map_append, first.order, next.order, first.opCount,
      List.length_append, List.range'_append_1]
  opCount := by
    rw [next.opCount, first.opCount, Forest.preorder_append, List.length_append, Nat.add_assoc]
  blockCount := by
    rw [next.blockCount, first.blockCount, Forest.regions_append, Nat.add_assoc]
  stands := by
    refine Forest.standsIn_append (standsIn_congr ?_ ?_ first.stands) next.stands
    · intro x hx
      exact next.opsKept _ (first.index_lt x hx).2
    · intro x hx r hr
      obtain ⟨lo, hi⟩ := first.fresh x hx r hr
      exact opsOf_congr (next.blocksKept _ hi (by omega))
  fresh := by
    intro x hx r hr
    have := first.blockCount
    have := next.blockCount
    rcases List.mem_append.1 (Forest.preorder_append F G ▸ hx) with hx | hx
    · have := first.fresh x hx r hr
      omega
    · have := next.fresh x hx r hr
      omega
  argsKept c hc := by
    have := first.blockCount
    rw [next.argsKept c (by omega), first.argsKept c hc]
  valuesKept i hi := by
    rw [next.valuesKept i (Nat.lt_of_lt_of_le hi first.valueCount_le), first.valuesKept i hi]
  linked h := next.linked (first.linked h)

/-- What is added to the block of a new operation is added below that operation. -/
theorem Adds.within {d e : Design ν} {b : BlockId} {loc : SourceLoc ν}
    {payload : BlockId → Payload ν} {args : Nat} {G : Forest ν} (inside : b.index < d.blocks.size)
    (owns : ∀ r, (payload r).regions = [r])
    (below : (d.addOwner b loc payload args).2.Adds ⟨d.blocks.size⟩ G e) :
    d.Adds b (.cons ⟨d.ops.size⟩ (d.addOp b loc (payload ⟨d.blocks.size⟩) 0).1 G .nil) e where
  opsKept i hi := by
    rw [below.opsKept i (by simp; omega), addOwner_ops, Array.getElem?_push_lt hi]
    simp [hi]
  blocksKept i hi hb := by
    rw [below.blocksKept i (by simp; omega) (by simp; omega),
      addOwner_block_of_ne loc payload args hi hb]
  atBlock := by
    rw [opsOf_congr (below.blocksKept _ (by simp; omega) (by simp; omega)),
      opsOf_addOwner loc payload args inside]
    rfl
  order := by
    have := below.order
    simp only [addOwner_ops, Array.size_push] at this
    simp only [Forest.preorder, List.append_nil, List.map_cons, this, List.length_cons,
      List.range'_succ]
  opCount := by
    have := below.opCount
    simp only [addOwner_ops, Array.size_push] at this
    simp only [Forest.preorder, List.append_nil, List.length_cons]
    omega
  blockCount := by
    have := below.blockCount
    simp only [addOwner_blocks_size] at this
    simp only [Forest.regions, addOp_payload, owns, List.length_singleton]
    omega
  stands := by
    refine ⟨?_, ?_, below.stands, trivial⟩
    · rw [below.opsKept _ (by simp), addOwner_ops]
      exact Array.getElem?_push_size
    · rw [addOp_payload, owns, List.flatMap_singleton, below.atBlock,
        opsOf_addOwner_region, List.nil_append]
  fresh := by
    intro x hx r hr
    have count := below.blockCount
    rw [addOwner_blocks_size] at count
    simp only [Forest.preorder, List.append_nil, List.mem_cons] at hx
    rcases hx with rfl | hx
    · rw [addOp_payload, owns, List.mem_singleton] at hr
      subst hr
      exact ⟨Nat.le_refl _, by show d.blocks.size < _; omega⟩
    · have := below.fresh x hx r hr
      rw [addOwner_blocks_size] at this
      omega
  argsKept c hc := by
    rw [below.argsKept c (by simp; omega), argsAt?_addOwner, if_neg (by omega)]
  valuesKept i hi := by
    rw [below.valuesKept i (by simp; omega), addOwner_values, Array.getElem?_append_left hi]
  linked h := by
    refine below.linked (linked_addOwner loc payload args ?_ h)
    intro note scope
    have := owns ⟨d.blocks.size⟩
    simp [scope, Payload.regions] at this

end Design

/-! ### Statements -/

def Drafting.Reads {α : Type} (x : Drafting α) : Prop :=
  ∀ {s t : Draft} {a : α}, x.run s = .ok a t → t = s

theorem run_bind_eq_ok {ε σ α β : Type} {x : EStateM ε σ α} {f : α → EStateM ε σ β} {s t : σ}
    {b : β} : (x >>= f).run s = .ok b t ↔ ∃ a u, x.run s = .ok a u ∧ (f a).run u = .ok b t := by
  rw [EStateM.run_bind]
  cases x.run s <;> simp

namespace Drafting

theorem reads_pure {α : Type} (a : α) : Reads (pure a) := fun h => by cases h; rfl

theorem reads_bind {α β : Type} {x : Drafting α} {f : α → Drafting β} (hx : Reads x)
    (hf : ∀ a, Reads (f a)) : Reads (x >>= f) := by
  intro s t b h
  obtain ⟨a, u, first, next⟩ := run_bind_eq_ok.1 h
  rw [hf a next, hx first]

theorem reads_read (inputs : List ValueId) (ref : Ref) : Reads (read inputs ref) := by
  intro s t v h
  cases ref with
  | input index =>
    simp only [read] at h
    split at h <;> cases h
    rfl
  | label label =>
    simp only [read, EStateM.run_bind, EStateM.run_get] at h
    split at h <;> cases h
    rfl
  | value id => cases h; rfl

theorem reads_list {α β : Type} {f : α → Drafting β} (hf : ∀ a, Reads (f a)) (l : List α) :
    Reads (l.mapM f) := by
  induction l with
  | nil => rw [List.mapM_nil]; exact reads_pure []
  | cons a rest ih =>
    rw [List.mapM_cons]
    exact reads_bind (hf a) fun _ => reads_bind ih fun _ => reads_pure _

theorem reads_option {α β : Type} {f : α → Drafting β} (hf : ∀ a, Reads (f a)) (o : Option α) :
    Reads (o.mapM f) := by
  cases o with
  | none => exact reads_pure none
  | some a => exact reads_bind (hf a) fun _ => reads_pure _

end Drafting

open Drafting

def Leaf.isOutput : Leaf → Bool
  | .output _ => true
  | _ => false

/-- What a statement that makes one operation may make. -/
structure Leaf.Makes (statement : Leaf) (payload : Payload String) : Prop where
  leaf : payload.regions = []
  plain : payload.isModuleLike = false
  output : payload.output?.isSome = statement.isOutput
  single : ∀ note, payload = .dbgScope note → statement.results = 1

theorem Leaf.payload_spec {inputs : List ValueId} {statement : Leaf} {s t : Draft}
    {payload : Payload String} (run : (statement.payload (read inputs)).run s = .ok payload t) :
    t = s ∧ statement.Makes payload := by
  have one := reads_read inputs
  have many := reads_list one
  have optional := reads_option one
  cases statement with
  | inst name moduleName refs | wire name refs | output refs | other name refs =>
    obtain ⟨values, u, hread, last⟩ := run_bind_eq_ok.1 run
    cases last
    first
      | exact ⟨many _ hread, rfl, rfl, rfl, nofun⟩
      | exact ⟨optional _ hread, rfl, rfl, rfl, nofun⟩
  | dbgVariable note =>
    obtain ⟨value, u, hvalue, run⟩ := run_bind_eq_ok.1 run
    obtain ⟨scope, v, hscope, run⟩ := run_bind_eq_ok.1 run
    obtain ⟨enum, w, henum, last⟩ := run_bind_eq_ok.1 run
    cases last
    exact ⟨by rw [optional _ henum, optional _ hscope, one _ hvalue], rfl, rfl, rfl, nofun⟩
  | dbgScope note =>
    obtain ⟨scope, u, hscope, last⟩ := run_bind_eq_ok.1 run
    cases last
    exact ⟨optional _ hscope, rfl, rfl, rfl, fun _ _ => rfl⟩
  | moduleInfo typeName params => cases run; exact ⟨rfl, rfl, rfl, rfl, nofun⟩
  | enumDef note => cases run; exact ⟨rfl, rfl, rfl, rfl, nofun⟩

theorem Drafting.addOp_design {block : BlockId} {loc : SourceLoc String} {payload : Payload String}
    {results : Nat} {label : Option String} {s t : Draft}
    (run : (addOp block loc payload results label).run s = .ok () t) :
    t.design = (s.design.addOp block loc payload results).2 := by
  cases run
  dsimp only
  split <;> rfl

theorem Drafting.addOwner_design {block : BlockId} {loc : SourceLoc String}
    {payload : BlockId → Payload String} {args : Nat} {region : BlockId} {s t : Draft}
    (run : (addOwner block loc payload args).run s = .ok region t) :
    region = ⟨s.design.blocks.size⟩ ∧ t.design = (s.design.addOwner block loc payload args).2 := by
  cases run
  exact ⟨rfl, rfl⟩

theorem Drafting.note_design {ss : List String} {s t : Draft} (run : (note ss).run s = .ok () t) :
    t.design = s.design := by
  cases run
  rfl

theorem Leaf.draft_adds {level : Level} {label : Option String} {statement : Leaf} {s t : Draft}
    (inside : level.block.index < s.design.blocks.size)
    (run : (statement.draft level label).run s = .ok () t) :
    ∃ F : Forest String, F.Plain ∧ s.design.Adds level.block F t.design := by
  obtain ⟨payload, u, hread, run⟩ := run_bind_eq_ok.1 run
  obtain ⟨_, v, hnote, hadd⟩ := run_bind_eq_ok.1 run
  obtain ⟨rfl, makes⟩ := Leaf.payload_spec hread
  rw [addOp_design hadd, note_design hnote]
  refine ⟨_, ?_, Design.adds_addOp _ inside makes.leaf makes.single⟩
  exact ⟨makes.plain, trivial, trivial⟩

/-- A body adds operations that define no module. -/
theorem Body.draft_adds {body : Body} {level : Level} {s t : Draft}
    (inside : level.block.index < s.design.blocks.size)
    (run : (body.draft level).run s = .ok () t) :
    ∃ F : Forest String, F.Plain ∧ s.design.Adds level.block F t.design := by
  induction body generalizing level s t with
  | done => cases run; exact ⟨.nil, trivial, .refl _ _⟩
  | loc place rest ih =>
    obtain ⟨_, u, hnote, hrest⟩ := run_bind_eq_ok.1 run
    have same := note_design hnote
    obtain ⟨F, plain, adds⟩ := ih (by rw [same]; exact inside) hrest
    exact ⟨F, plain, same ▸ adds⟩
  | mention text rest ih =>
    obtain ⟨_, u, hnote, hrest⟩ := run_bind_eq_ok.1 run
    have same := note_design hnote
    obtain ⟨F, plain, adds⟩ := ih (by rw [same]; exact inside) hrest
    exact ⟨F, plain, same ▸ adds⟩
  | leaf label statement rest ih =>
    obtain ⟨_, u, hleaf, hrest⟩ := run_bind_eq_ok.1 run
    obtain ⟨F, plainF, addsF⟩ := Leaf.draft_adds inside hleaf
    have count := addsF.blockCount
    obtain ⟨G, plainG, addsG⟩ := ih (by omega) hrest
    exact ⟨F ++ G, Forest.plain_append plainF plainG, addsF.trans inside addsG⟩
  | region name inner rest ihInner ihRest =>
    obtain ⟨_, u, hnote, run⟩ := run_bind_eq_ok.1 run
    obtain ⟨block, v, howner, run⟩ := run_bind_eq_ok.1 run
    obtain ⟨_, w, hinner, hrest⟩ := run_bind_eq_ok.1 run
    have same := note_design hnote
    rw [← same] at inside ⊢
    obtain ⟨rfl, grown⟩ := addOwner_design howner
    have room : u.design.blocks.size < v.design.blocks.size := by rw [grown]; simp
    obtain ⟨G, plainG, addsG⟩ := ihInner room hinner
    have adds := Design.Adds.within inside (fun _ => rfl) (grown ▸ addsG)
    have count := adds.blockCount
    obtain ⟨R, plainR, addsR⟩ := ihRest (by omega) hrest
    refine ⟨_, Forest.plain_append ?_ plainR, adds.trans inside addsR⟩
    exact ⟨rfl, plainG, trivial⟩

/-- A script adds modules beside each other. -/
theorem Script.draft_adds {script : Script} {block : BlockId} {loc last : SourceLoc String}
    {s t : Draft} (inside : block.index < s.design.blocks.size)
    (run : (script.draft block loc).run s = .ok last t) :
    ∃ F : Forest String, F.Flat ∧ s.design.Adds block F t.design := by
  induction script generalizing block loc last s t with
  | done => cases run; exact ⟨.nil, trivial, .refl _ _⟩
  | loc place rest ih =>
    obtain ⟨_, u, hnote, hrest⟩ := run_bind_eq_ok.1 run
    have same := note_design hnote
    obtain ⟨F, flat, adds⟩ := ih (by rw [same]; exact inside) hrest
    exact ⟨F, flat, same ▸ adds⟩
  | mention text rest ih =>
    obtain ⟨_, u, hnote, hrest⟩ := run_bind_eq_ok.1 run
    have same := note_design hnote
    obtain ⟨F, flat, adds⟩ := ih (by rw [same]; exact inside) hrest
    exact ⟨F, flat, same ▸ adds⟩
  | module name ports body rest ih =>
    obtain ⟨_, u, hnote, run⟩ := run_bind_eq_ok.1 run
    obtain ⟨region, v, howner, run⟩ := run_bind_eq_ok.1 run
    obtain ⟨drafted, w, hget, run⟩ := run_bind_eq_ok.1 run
    obtain ⟨_, x, hbody, hrest⟩ := run_bind_eq_ok.1 run
    have same := note_design hnote
    rw [← same] at inside ⊢
    cases hget
    obtain ⟨rfl, grown⟩ := addOwner_design howner
    have room : u.design.blocks.size < v.design.blocks.size := by rw [grown]; simp
    obtain ⟨G, plainG, addsG⟩ := Body.draft_adds room hbody
    have adds := Design.Adds.within inside (fun _ => rfl) (grown ▸ addsG)
    have count := adds.blockCount
    obtain ⟨R, flatR, addsR⟩ := ih (by omega) hrest
    refine ⟨_, Forest.flat_append ?_ flatR, adds.trans inside addsR⟩
    exact ⟨plainG, trivial⟩
  | externModule name ports rest ih =>
    obtain ⟨_, u, hnote, run⟩ := run_bind_eq_ok.1 run
    obtain ⟨_, v, hadd, hrest⟩ := run_bind_eq_ok.1 run
    have same := note_design hnote
    rw [← same] at inside ⊢
    have adds : u.design.Adds block _
        (u.design.addOp block loc (.externModule name (PortDecl.number ports)) 0).2 :=
      Design.adds_addOp loc inside rfl nofun
    rw [← addOp_design hadd] at adds
    have count := adds.blockCount
    obtain ⟨R, flatR, addsR⟩ := ih (by omega) hrest
    refine ⟨_, Forest.flat_append ?_ flatR, adds.trans inside addsR⟩
    exact ⟨trivial, trivial⟩
  | container name inner rest ihInner ihRest =>
    obtain ⟨_, u, hnote, run⟩ := run_bind_eq_ok.1 run
    obtain ⟨region, v, howner, run⟩ := run_bind_eq_ok.1 run
    obtain ⟨after, w, hinner, hrest⟩ := run_bind_eq_ok.1 run
    have same := note_design hnote
    rw [← same] at inside ⊢
    obtain ⟨rfl, grown⟩ := addOwner_design howner
    have room : u.design.blocks.size < v.design.blocks.size := by rw [grown]; simp
    obtain ⟨G, flatG, addsG⟩ := ihInner room hinner
    have adds := Design.Adds.within inside (fun _ => rfl) (grown ▸ addsG)
    have count := adds.blockCount
    obtain ⟨R, flatR, addsR⟩ := ihRest (by omega) hrest
    refine ⟨_, Forest.flat_append ?_ flatR, adds.trans inside addsR⟩
    exact ⟨flatG, trivial⟩

theorem Design.linked_empty : (Design.empty : Design ν).Linked where
  results hv := by simp [Design.empty] at hv
  scopes ho := by simp [Design.empty] at ho

namespace Design.Adds

variable {d : Design ν} {F : Forest ν} (adds : Design.empty.Adds Design.top F d)

include adds

theorem heads_top : F.heads = d.opsOf Design.top := by
  rw [adds.atBlock]
  rfl

theorem room : F.regions < d.blocks.size := by
  have := adds.blockCount
  simp only [Design.empty, List.size_toArray, List.length_cons, List.length_nil] at this
  omega

/-- What is added to the empty design is all there is. -/
theorem under_top : d.under Design.top = F := Forest.under_eq adds.stands adds.heads_top adds.room

theorem nesting (flat : F.Flat) : Nesting d F where
  stands := adds.stands
  heads := adds.heads_top
  flat := flat
  order := by
    have ops := adds.opCount
    have order := adds.order
    simp only [Design.empty, List.size_toArray, List.length_nil, Nat.zero_add] at ops order
    rw [order, ops, List.range_eq_range']
  room := adds.room

end Design.Adds

/-- A script adds modules to the empty design. -/
theorem Script.run_adds {script : Script} {last : SourceLoc String} {t : Draft}
    (run : script.run = .ok last t) : ∃ F : Forest String, F.Flat ∧
      Design.empty.Adds Design.top F t.design :=
  Script.draft_adds (s := .empty) Nat.zero_lt_one run

theorem Script.run_nesting {script : Script} {last : SourceLoc String} {t : Draft}
    (run : script.run = .ok last t) : (∃ F, Nesting t.design F) ∧ t.design.Linked := by
  obtain ⟨F, flat, adds⟩ := Script.run_adds run
  exact ⟨⟨F, adds.nesting flat⟩, adds.linked Design.linked_empty⟩

@[simp] theorem Payload.regions_map (f : ν → μ) (p : Payload ν) :
    (p.map f).regions = p.regions := by
  cases p <;> rfl

@[simp] theorem Payload.isModuleLike_map (f : ν → μ) (p : Payload ν) :
    (p.map f).isModuleLike = p.isModuleLike := by
  cases p <;> rfl

namespace Forest

variable (f : ν → μ) {F : Forest ν}

@[simp] theorem heads_map : (F.map f).heads = F.heads := by
  induction F with
  | nil => rfl
  | cons id op inner rest _ ih => simp [map, heads, ih]

@[simp] theorem regions_map : (F.map f).regions = F.regions := by
  induction F with
  | nil => rfl
  | cons id op inner rest ihInner ihRest => simp [map, regions, Operation.map, ihInner, ihRest]

@[simp] theorem preorder_map : (F.map f).preorder = F.preorder.map fun e => (e.1, e.2.map f) := by
  induction F with
  | nil => rfl
  | cons id op inner rest ihInner ihRest => simp [map, preorder, ihInner, ihRest]

theorem plain_map (plain : F.Plain) : (F.map f).Plain := by
  induction F with
  | nil => trivial
  | cons id op inner rest ihInner ihRest =>
    exact ⟨(op.payload.isModuleLike_map f).trans plain.1, ihInner plain.2.1, ihRest plain.2.2⟩

theorem flat_map (flat : F.Flat) : (F.map f).Flat := by
  induction F with
  | nil => trivial
  | cons id op inner rest ihInner ihRest =>
    refine ⟨?_, ihRest flat.2⟩
    have here := flat.1
    rw [show (op.map f).payload.isModuleLike = op.payload.isModuleLike from
      op.payload.isModuleLike_map f]
    split
    · next like => rw [if_pos like] at here; exact plain_map f here
    · next like => rw [if_neg like] at here; exact ihInner here

theorem standsIn_map {d : Design ν} (stands : F.StandsIn d) : (F.map f).StandsIn (d.map f) := by
  induction F with
  | nil => trivial
  | cons id op inner rest ihInner ihRest =>
    refine ⟨?_, ?_, ihInner stands.2.2.1, ihRest stands.2.2.2⟩
    · rw [Design.map, Array.getElem?_map, stands.1]; rfl
    · rw [heads_map, stands.2.1]
      exact congrArg _ (op.payload.regions_map f).symm

end Forest

theorem Nesting.map {d : Design ν} {F : Forest ν} (n : Nesting d F) (f : ν → μ) :
    Nesting (d.map f) (F.map f) where
  stands := Forest.standsIn_map f n.stands
  heads := by rw [Forest.heads_map, n.heads]; rfl
  flat := Forest.flat_map f n.flat
  order := by simpa [Design.map, Function.comp_def] using n.order
  room := by simpa [Design.map] using n.room

theorem Design.Linked.map {d : Design ν} (h : d.Linked) (f : ν → μ) : (d.map f).Linked where
  results hv := by
    obtain ⟨o, ho, hi⟩ := h.results hv
    exact ⟨o.map f, by rw [Design.map, Array.getElem?_map, ho]; rfl, hi⟩
  scopes := by
    intro i o note ho scope
    rw [Design.map, Array.getElem?_map, Option.map_eq_some_iff] at ho
    obtain ⟨o', ho', rfl⟩ := ho
    cases payload : o'.payload with
    | dbgScope note' => exact h.scopes ho' payload
    | _ => simp [Operation.map, payload, Payload.map] at scope

/-- The design is what some script makes, with names in some table. -/
def Design.Scripted (d : Design Name) : Prop :=
  ∃ (script : Script) (known learned : NameTable), script.build known = (.ok d, learned)

/-- The design of a script, with names in a fresh table; empty after a fault. -/
def Script.design (script : Script) : Design Name :=
  match script.build .fresh with
  | (.ok d, _) => d
  | (.error _, _) => .empty

theorem Script.design_scripted (script : Script) : script.design.Scripted := by
  unfold design
  split
  · next learned built => exact ⟨script, .fresh, learned, built⟩
  · have empty : Script.done.build .fresh =
        (.ok (Design.empty.map NameTable.fresh.number), .fresh) := rfl
    exact ⟨.done, .fresh, .fresh, by rw [empty]; simp [Design.map, Design.empty]⟩

theorem Design.Scripted.draft {d : Design Name} (h : d.Scripted) :
    ∃ (script : Script) (last : SourceLoc String) (t : Draft) (f : String → Name),
      script.run = .ok last t ∧ d = t.design.map f := by
  obtain ⟨script, known, learned, built⟩ := h
  unfold Script.build at built
  split at built
  · next last t run =>
    cases built
    exact ⟨script, last, t, _, run, rfl⟩
  · cases built

/-- **Scripts nest.** In the design of a script no module lies in another one, and the handles count
the operations in the order in which they are met. -/
theorem Design.Scripted.nesting {d : Design Name} (h : d.Scripted) : ∃ F, Nesting d F := by
  obtain ⟨script, last, t, f, run, rfl⟩ := h.draft
  obtain ⟨F, n⟩ := (Script.run_nesting run).1
  exact ⟨F.map f, n.map f⟩

/-- **Scripts link.** In the design of a script every result leads back to its operation. -/
theorem Design.Scripted.linked {d : Design Name} (h : d.Scripted) : d.Linked := by
  obtain ⟨script, last, t, f, run, rfl⟩ := h.draft
  exact (Script.run_nesting run).2.map f

end DebugHierarchy
