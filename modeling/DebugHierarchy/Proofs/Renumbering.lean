import DebugHierarchy.Proofs.Naming

/-!
Designs under other handles.

* `Renumbering`: other handles for everything in a design;
* `Forest.Like`: two forests that agree up to a renumbering and up to
  operations that only hold others;
* `Design.Twins`: two designs whose next handles correspond, and whose values and blocks do, too;
* `Design.GrowAlike`: like forests added to two designs;
* `Nesting.alike`: designs that agree up to a renumbering that keeps values are alike.
-/

namespace DebugHierarchy

variable {ν : Type}

structure Renumbering where
  op : OpId → OpId
  block : BlockId → BlockId
  value : ValueId → ValueId

namespace Payload

variable (R : Renumbering) (p : Payload ν)

def renumber : Payload ν → Payload ν
  | .module name ports body => .module name ports (R.block body)
  | .inst name moduleName inputs => .inst name moduleName (inputs.map R.value)
  | .wire name input => .wire name (input.map R.value)
  | .output operands => .output (operands.map R.value)
  | .dbgVariable note => .dbgVariable { note with
      value := R.value note.value
      scope := note.scope.map R.value
      enumDef := note.enumDef.map R.value }
  | .dbgScope note => .dbgScope { note with scope := note.scope.map R.value }
  | .other name operands regions => .other name (operands.map R.value) (regions.map R.block)
  | .externModule name ports => .externModule name ports
  | .moduleInfo typeName params => .moduleInfo typeName params
  | .enumDef note => .enumDef note

@[simp] theorem regions_renumber : (p.renumber R).regions = p.regions.map R.block := by
  cases p <;> rfl

@[simp] theorem isModuleLike_renumber : (p.renumber R).isModuleLike = p.isModuleLike := by
  cases p <;> rfl

@[simp] theorem isOther_renumber : (p.renumber R).isOther = p.isOther := by
  cases p <;> rfl

@[simp] theorem output?_renumber : (p.renumber R).output? = p.output?.map (·.map R.value) := by
  cases p <;> rfl

variable {R p}

/-- Where the values stay what they are, an operation that owns no blocks does. -/
theorem renumber_fixed (values : ∀ v, R.value v = v) (blocks : ∀ r ∈ p.regions, R.block r = r) :
    p.renumber R = p := by
  have same : R.value = id := funext values
  have all : p.regions.map R.block = p.regions := by
    conv_rhs => rw [← List.map_id p.regions]
    exact List.map_congr_left blocks
  cases p <;> simp_all [renumber, regions]

end Payload

/-- The operation that produces a value; a block argument has none. -/
def ValueDef.op? : ValueDef → Option OpId
  | .opResult op _ => some op
  | .blockArg .. => none

/-- The second operation is the first one under other handles, wherever it stands. -/
structure Operation.Renumbered (R : Renumbering) (o o' : Operation ν) : Prop where
  payload : o'.payload = o.payload.renumber R
  loc : o'.loc = o.loc
  results : o'.results = o.results.map R.value

structure Operation.Bare (o : Operation ν) : Prop where
  payload : ∃ name region, o.payload = .other name [] [region]
  results : o.results = []

namespace Forest

def last? : Forest ν → Option (Operation ν)
  | nil => none
  | cons _ op _ rest => rest.last?.or (some op)

/-- The operands of the output at the end; none where there is no output at the end. -/
def outputs (F : Forest ν) : List ValueId := (F.last?.bind (·.payload.output?)).getD []

@[simp] theorem last?_append (F G : Forest ν) : (F ++ G).last? = G.last?.or F.last? := by
  induction F with
  | nil => simp [last?]
  | cons id op inner rest _ ih => rw [cons_append, last?, ih, last?, Option.or_assoc]

theorem append_assoc (F G H : Forest ν) : F ++ G ++ H = F ++ (G ++ H) := by
  induction F with
  | nil => rfl
  | cons id op inner rest _ ih => rw [cons_append, cons_append, cons_append, ih]

@[simp] theorem append_nil (F : Forest ν) : F ++ nil = F := by
  induction F with
  | nil => rfl
  | cons id op inner rest _ ih => rw [cons_append, ih]

@[simp] theorem parts_append (F G : Forest ν) : (F ++ G).parts = F.parts ++ G.parts := by
  induction F with
  | nil => rfl
  | cons id op inner rest _ ih =>
    simp only [cons_append, parts, ih]
    split <;> simp

theorem outputs_append (F G : Forest ν) :
    (F ++ G).outputs = if G.last?.isSome then G.outputs else F.outputs := by
  unfold outputs
  rw [last?_append]
  cases G.last? <;> simp

theorem last?_eq {d : Design ν} {F : Forest ν} (stands : F.StandsIn d) :
    F.heads.getLast?.bind (fun id => d.ops[id.index]?) = F.last? := by
  induction F with
  | nil => rfl
  | cons id op inner rest _ ih =>
    have beside := ih stands.2.2.2
    cases rest with
    | nil => exact stands.1
    | cons =>
      rw [last?, ← beside, heads, heads, List.getLast?_cons_cons, ← heads, beside, last?]
      cases Forest.last? _ <;> rfl

/-- What a block ends with, read off the forest in it. -/
theorem outputsOf_eq {d : Design ν} {F : Forest ν} {block : BlockId} (stands : F.StandsIn d)
    (heads : F.heads = d.opsOf block) : d.outputsOf block = F.outputs := by
  have last : (do d.ops[(← (← d.blocks[block.index]?).ops.back?).index]?) = F.last? := by
    rw [← last?_eq stands, heads, Design.opsOf]
    cases d.blocks[block.index]? with
    | none => rfl
    | some b => simp
  rw [outputs, ← last]
  simp only [Design.outputsOf, Design.terminator?, Option.bind_eq_bind]
  cases d.blocks[block.index]? with
  | none => rfl
  | some b =>
    simp only [Option.bind_some]
    cases b.ops.back? with
    | none => rfl
    | some id =>
      simp only [Option.bind_some]
      cases found : d.ops[id.index]? with
      | none => rfl
      | some op => cases output : op.payload.output? <;> simp [found, output]

/-- The second forest is the first one under other handles, with some stretches of it put below
operations that only hold them. The outputs at the end of a module are not moved. -/
inductive Like (R : Renumbering) : Forest ν → Forest ν → Prop
  | nil : Like R .nil .nil
  | node {id : OpId} {op op' : Operation ν} {inner inner' rest rest' : Forest ν} :
    op.Renumbered R op' → (op.payload.isModuleLike = true →
      inner'.outputs = inner.outputs.map R.value) → Like R inner inner' → Like R rest rest' →
        Like R (.cons id op inner rest) (.cons (R.op id) op' inner' rest')
  | wrapped {id : OpId} {op : Operation ν} {run run' rest rest' : Forest ν} :
    op.Bare → Like R run run' → Like R rest rest' → Like R (run ++ rest) (.cons id op run' rest')

structure EndAlike (R : Renumbering) (F F' : Forest ν) : Prop where
  some : F'.last?.isSome = F.last?.isSome
  outputs : F'.outputs = F.outputs.map R.value

variable {R : Renumbering} {F F' G G' : Forest ν}

theorem EndAlike.append (first : EndAlike R F F') (next : EndAlike R G G') :
    EndAlike R (F ++ G) (F' ++ G') where
  some := by simp [first.some, next.some]
  outputs := by
    rw [outputs_append, outputs_append, next.some, first.outputs, next.outputs]
    split <;> rfl

namespace Like

theorem append (first : Like R F F') (next : Like R G G') : Like R (F ++ G) (F' ++ G') := by
  induction first with
  | nil => exact next
  | node here outputs inner _ _ ih => exact .node here outputs inner ih
  | wrapped bare run _ _ ih =>
    rw [append_assoc]
    exact .wrapped bare run ih

/-- What keeps its handles is like itself. -/
theorem of_fixed (values : ∀ v, R.value v = v) (ops : ∀ x ∈ F.preorder, R.op x.1 = x.1)
    (blocks : ∀ x ∈ F.preorder, ∀ r ∈ x.2.payload.regions, R.block r = r) : Like R F F := by
  have same : R.value = id := funext values
  induction F with
  | nil => exact .nil
  | cons id op inner rest ihInner ihRest =>
    simp only [preorder, List.cons_append, List.mem_cons, List.mem_append] at ops blocks
    have here : op.Renumbered R op :=
      ⟨(Payload.renumber_fixed values (blocks _ (.inl rfl))).symm, rfl, by rw [same, List.map_id]⟩
    have below := ihInner (fun x hx => ops x (.inr (.inl hx))) fun x hx => blocks x (.inr (.inl hx))
    have beside := ihRest (fun x hx => ops x (.inr (.inr hx))) fun x hx => blocks x (.inr (.inr hx))
    have node : Like R _ (cons (R.op id) op inner rest) :=
      .node here (fun _ => by rw [same, List.map_id]) below beside
    rwa [ops _ (.inl rfl)] at node

/-- The modules agree one by one, each with what lies in it. -/
theorem parts_alike (like : Like R F F') :
    List.Forall₂ (fun p p' => p'.1.1 = R.op p.1.1 ∧ p.1.2.Renumbered R p'.1.2 ∧
      p'.2.outputs = p.2.outputs.map R.value ∧ Like R p.2 p'.2) F.parts F'.parts := by
  induction like with
  | nil => exact .nil
  | @node id op op' inner inner' rest rest' here outputs inside _ ihInner ihRest =>
    have kind : op'.payload.isModuleLike = op.payload.isModuleLike := by
      rw [here.payload, Payload.isModuleLike_renumber]
    simp only [parts, kind]
    split
    · next like => exact .cons ⟨rfl, here, outputs like, inside⟩ ihRest
    · exact List.rel_append ihInner ihRest
  | @wrapped id op run run' rest rest' bare _ _ ihRun ihRest =>
    obtain ⟨name, region, payload⟩ := bare.payload
    rw [parts_append, parts, payload, if_neg (by simp [Payload.isModuleLike, Payload.symbol?])]
    exact List.rel_append ihRun ihRest

/-- The operations that tell something agree one by one. -/
theorem essence_alike (like : Like R F F') :
    List.Forall₂ (fun e e' => e'.1 = R.op e.1 ∧ e.2.Renumbered R e'.2) (essence F.preorder)
      (essence F'.preorder) := by
  induction like with
  | nil => exact .nil
  | @node id op op' inner inner' rest rest' here _ _ _ ihInner ihRest =>
    have kind : op'.payload.isOther = op.payload.isOther := by
      rw [here.payload, Payload.isOther_renumber]
    have below := List.rel_append ihInner ihRest
    simp only [essence, ← List.filter_append] at below
    simp only [essence, preorder, List.cons_append, List.filter_cons, kind]
    split
    · exact .cons ⟨rfl, here⟩ below
    · exact below
  | @wrapped id op run run' rest rest' bare _ _ ihRun ihRest =>
    obtain ⟨name, region, payload⟩ := bare.payload
    have below := List.rel_append ihRun ihRest
    simp only [essence, ← List.filter_append] at below
    simp only [essence, preorder_append, preorder, List.cons_append, List.filter_cons, payload]
    exact below

/-- Every operation of the first forest stands in the second one, under its other handle. -/
theorem kept (like : Like R F F') {e : Entry ν} (he : e ∈ F.preorder) :
    ∃ o', (R.op e.1, o') ∈ F'.preorder ∧ e.2.Renumbered R o' := by
  induction like with
  | nil => cases he
  | @node id op op' inner inner' rest rest' here _ _ _ ihInner ihRest =>
    simp only [preorder, List.cons_append, List.mem_cons, List.mem_append] at he ⊢
    rcases he with rfl | he | he
    · exact ⟨op', .inl rfl, here⟩
    · obtain ⟨o', there, same⟩ := ihInner he
      exact ⟨o', .inr (.inl there), same⟩
    · obtain ⟨o', there, same⟩ := ihRest he
      exact ⟨o', .inr (.inr there), same⟩
  | wrapped bare _ _ ihRun ihRest =>
    simp only [preorder_append, preorder, List.cons_append, List.mem_cons, List.mem_append] at he ⊢
    rcases he with he | he
    · obtain ⟨o', there, same⟩ := ihRun he
      exact ⟨o', .inr (.inl there), same⟩
    · obtain ⟨o', there, same⟩ := ihRest he
      exact ⟨o', .inr (.inr there), same⟩

/-- Whatever else the second forest holds only holds others. -/
theorem inserted (like : Like R F F') {e' : Entry ν} (he : e' ∈ F'.preorder) :
    (∃ e ∈ F.preorder, e'.1 = R.op e.1) ∨ e'.2.Bare := by
  induction like with
  | nil => cases he
  | @node id op op' inner inner' rest rest' here _ _ _ ihInner ihRest =>
    simp only [preorder, List.cons_append, List.mem_cons, List.mem_append] at he ⊢
    rcases he with rfl | he | he
    · exact .inl ⟨_, .inl rfl, rfl⟩
    · rcases ihInner he with ⟨e, inside, same⟩ | bare
      · exact .inl ⟨e, .inr (.inl inside), same⟩
      · exact .inr bare
    · rcases ihRest he with ⟨e, inside, same⟩ | bare
      · exact .inl ⟨e, .inr (.inr inside), same⟩
      · exact .inr bare
  | wrapped bare _ _ ihRun ihRest =>
    simp only [preorder_append, preorder, List.cons_append, List.mem_cons, List.mem_append] at he ⊢
    rcases he with rfl | he | he
    · exact .inr bare
    · rcases ihRun he with ⟨e, inside, same⟩ | bare
      · exact .inl ⟨e, .inl inside, same⟩
      · exact .inr bare
    · rcases ihRest he with ⟨e, inside, same⟩ | bare
      · exact .inl ⟨e, .inr inside, same⟩
      · exact .inr bare

end Like

end Forest

/-! ### Designs side by side -/

namespace Design

/-- The next handles of the second design correspond to those of the first, and what values
and blocks there are do, too. -/
structure Twins (R : Renumbering) (d d' : Design ν) : Prop where
  ops : ∀ i, R.op ⟨d.ops.size + i⟩ = ⟨d'.ops.size + i⟩
  blocks : ∀ i, R.block ⟨d.blocks.size + i⟩ = ⟨d'.blocks.size + i⟩
  values : ∀ i, R.value ⟨d.values.size + i⟩ = ⟨d'.values.size + i⟩
  args : ∀ b, d'.argsAt? (R.block b) = (d.argsAt? b).map (·.map R.value)
  producers : ∀ v, d'.values[(R.value v).index]?.map (·.op?) =
    d.values[v.index]?.map (·.op?.map R.op)

variable {R : Renumbering} {d d' : Design ν}

namespace Twins

/-- A value is new in the second design as it is in the first one. -/
theorem new_or_old (twins : Twins R d d') (v : ValueId) :
    (v.index < d.values.size ∧ (R.value v).index < d'.values.size) ∨
      ∃ i, v = ⟨d.values.size + i⟩ ∧ R.value v = ⟨d'.values.size + i⟩ := by
  by_cases old : v.index < d.values.size
  · refine .inl ⟨old, ?_⟩
    have there := twins.producers v
    rw [Array.getElem?_eq_getElem old] at there
    by_contra past
    rw [Array.getElem?_eq_none (by omega)] at there
    cases there
  · obtain ⟨i, past⟩ := Nat.exists_eq_add_of_le (Nat.le_of_not_lt old)
    have same : v = ⟨d.values.size + i⟩ := Handle.ext past
    exact .inr ⟨i, same, by rw [same, twins.values]⟩

/-- Values that are made alike keep the designs alike. -/
theorem producers_append (twins : Twins R d d') {defs defs' : List ValueDef}
    (alike : defs'.map (·.op?) = defs.map (·.op?.map R.op)) (v : ValueId) :
    (d'.values ++ defs'.toArray)[(R.value v).index]?.map (·.op?) =
      (d.values ++ defs.toArray)[v.index]?.map (·.op?.map R.op) := by
  rcases twins.new_or_old v with ⟨old, old'⟩ | ⟨i, rfl, new⟩
  · rw [Array.getElem?_append_left old, Array.getElem?_append_left old', twins.producers]
  · rw [new, Array.getElem?_append_right (by simp), Array.getElem?_append_right (by simp)]
    simp only [Nat.add_sub_cancel_left, List.getElem?_toArray]
    rw [← List.getElem?_map, ← List.getElem?_map, alike]

theorem addOp (twins : Twins R d d') (b b' : BlockId) (loc : SourceLoc ν)
    (payload payload' : Payload ν) (results : Nat) :
    Twins R (d.addOp b loc payload results).2 (d'.addOp b' loc payload' results).2 where
  ops i := by
    have := twins.ops (i + 1)
    simpa [Nat.add_comm, Nat.add_left_comm] using this
  blocks i := by simpa using twins.blocks i
  values i := by
    have := twins.values (results + i)
    simpa [Nat.add_assoc] using this
  args c := by rw [argsAt?_addOp, argsAt?_addOp, twins.args]
  producers v := by
    rw [addOp_values, addOp_values]
    refine twins.producers_append ?_ v
    have next := twins.ops 0
    simp only [Nat.add_zero] at next
    simp [Function.comp_def, ValueDef.op?, next]

theorem addOwner (twins : Twins R d d') (b b' : BlockId) (loc : SourceLoc ν)
    (payload payload' : BlockId → Payload ν) (args : Nat) :
    Twins R (d.addOwner b loc payload args).2 (d'.addOwner b' loc payload' args).2 where
  ops i := by
    have := twins.ops (i + 1)
    simpa [Nat.add_comm, Nat.add_left_comm] using this
  blocks i := by
    have := twins.blocks (i + 1)
    simpa [Nat.add_comm, Nat.add_left_comm] using this
  values i := by
    have := twins.values (args + i)
    simpa [Nat.add_assoc] using this
  args c := by
    rw [argsAt?_addOwner, argsAt?_addOwner]
    by_cases past : d.blocks.size ≤ c.index
    · obtain ⟨i, past⟩ := Nat.exists_eq_add_of_le past
      have same : c = ⟨d.blocks.size + i⟩ := Handle.ext past
      rw [twins.args, same, twins.blocks]
      cases i with
      | zero => simp [Function.comp_def, twins.values]
      | succ i => simp
    · have old' : (R.block c).index < d'.blocks.size := by
        have there := twins.args c
        unfold argsAt? at there
        rw [Array.getElem?_eq_getElem (Nat.lt_of_not_le past)] at there
        by_contra past'
        rw [Array.getElem?_eq_none (by omega)] at there
        cases there
      rw [if_neg (by omega), if_neg (by omega), twins.args]
  producers v := by
    rw [addOwner_values, addOwner_values]
    refine twins.producers_append ?_ v
    simp [Function.comp_def, ValueDef.op?]

end Twins

/-- `e` is `d` with a forest added at the end of a block, and `e'` is `d'` with a like forest. -/
structure GrowAlike (R : Renumbering) (b b' : BlockId) (d d' e e' : Design ν) (F F' : Forest ν) :
    Prop where
  left : d.Adds b F e
  right : d'.Adds b' F' e'
  like : F.Like R F'

theorem GrowAlike.trans {e e' f f' : Design ν} {b b' : BlockId} {F F' G G' : Forest ν}
    (inside : b.index < d.blocks.size) (inside' : b'.index < d'.blocks.size)
    (first : GrowAlike R b b' d d' e e' F F') (next : GrowAlike R b b' e e' f f' G G') :
    GrowAlike R b b' d d' f f' (F ++ G) (F' ++ G') where
  left := first.left.trans inside next.left
  right := first.right.trans inside' next.right
  like := first.like.append next.like

/-- What is added alike below two operations that agree is added alike with them. -/
theorem GrowAlike.within {e e' : Design ν} {b b' : BlockId} {G G' : Forest ν} {loc : SourceLoc ν}
    {payload : BlockId → Payload ν} {args : Nat} (op : R.op ⟨d.ops.size⟩ = ⟨d'.ops.size⟩)
    (block : R.block ⟨d.blocks.size⟩ = ⟨d'.blocks.size⟩) (inside : b.index < d.blocks.size)
    (inside' : b'.index < d'.blocks.size)
    (owns : ∀ r, (payload r).regions = [r])
    (renumbers : ∀ r, (payload r).renumber R = payload (R.block r))
    (outputs : (payload ⟨d.blocks.size⟩).isModuleLike = true → G'.outputs = G.outputs.map R.value)
    (below : GrowAlike R ⟨d.blocks.size⟩ ⟨d'.blocks.size⟩ (d.addOwner b loc payload args).2
      (d'.addOwner b' loc payload args).2 e e' G G') :
    GrowAlike R b b' d d' e e'
      (.cons ⟨d.ops.size⟩ (d.addOp b loc (payload ⟨d.blocks.size⟩) 0).1 G .nil)
      (.cons ⟨d'.ops.size⟩ (d'.addOp b' loc (payload ⟨d'.blocks.size⟩) 0).1 G' .nil) where
  left := .within inside owns below.left
  right := .within inside' owns below.right
  like := by
    rw [← op]
    exact .node ⟨by rw [addOp_payload, addOp_payload, renumbers, block], rfl,
      rfl⟩ outputs below.like .nil

end Design

theorem Payload.map_id (p : Payload ν) : p.map id = p := by
  have params (o : Option (ParamValue ν)) : o.map (·.map id) = o := by
    cases o with
    | none => rfl
    | some v => exact congrArg some (v.map_fixed fun _ _ => rfl)
  have port : Port.map id = (id : Port ν → Port ν) := rfl
  cases p <;> simp [map, VariableNote.map, ScopeNote.map, EnumNote.map, params, port]

theorem Design.definingOp_eq (d : Design ν) (v : ValueId) :
    d.definingOp v = v.expect (d.values[v.index]?.map (·.op?)) := by
  unfold definingOp value Handle.expect
  cases d.values[v.index]? with
  | none => rfl
  | some x => cases x <;> rfl

theorem Design.map_id (d : Design ν) : d.map id = d := by
  have op : Operation.map id = (id : Operation ν → Operation ν) := by
    funext op
    rw [Operation.map, Payload.map_id]
    rfl
  simp [map, op]

section Alike

variable {R : Renumbering} (values : ∀ v, R.value v = v)

include values

/-- An operation of a body whose values are kept tells the same. -/
theorem Operation.Renumbered.alike {e e' : Entry ν} (handle : e'.1 = R.op e.1)
    (here : e.2.Renumbered R e'.2) (leaf : e.2.payload.regions = []) : e.Alike ⟨id, R.op⟩ e' where
  id := handle
  payload := by rw [here.payload, Payload.renumber_fixed values (by simp [leaf]), Payload.map_id]
  loc := here.loc
  results := by rw [here.results, funext values, List.map_id']

/-- Bodies that agree up to a renumbering that keeps values tell the same. -/
theorem Forest.Like.told {F F' : Forest ν} (like : F.Like R F') (plain : F.Plain) :
    List.Forall₂ (Entry.Alike ⟨id, R.op⟩) (essence F.preorder) (essence F'.preorder) := by
  refine ((List.forall₂_and_left _ _).2 ⟨fun e he => ?_, like.essence_alike⟩).imp
    fun e e' ⟨leaf, handle, here⟩ => here.alike values handle leaf
  obtain ⟨inside, other⟩ := List.mem_filter.1 he
  have none : e.2.payload.isModuleLike = false := by
    have none := List.filter_eq_nil_iff.1 (filter_preorder_of_plain plain) e inside
    exact Bool.of_not_eq_true none
  cases payload : e.2.payload <;>
    simp_all [Payload.isModuleLike, Payload.symbol?, Payload.isOther, Payload.regions]

/-- **Other handles.** Designs that agree up to a renumbering that keeps values are alike. -/
theorem Nesting.alike {d d' : Design ν} {F F' : Forest ν} (n : Nesting d F) (n' : Nesting d' F')
    (like : F.Like R F') (twins : d.Twins R d') : d.Alike ⟨id, R.op⟩ d' where
  definitions := by
    have unnamed (ports : List (Port ν)) : ports.map (·.map id) = ports := List.map_id ports
    rw [Design.definitions, Design.definitions, n.under_top, n'.under_top, ← F.parts_map_fst,
      ← F'.parts_map_fst, List.forall₂_map_left_iff, List.forall₂_map_right_iff,
      List.forall₂_iff_zip]
    obtain ⟨size, each⟩ := List.forall₂_iff_zip.1 like.parts_alike
    refine ⟨size, fun {p p'} both => ?_⟩
    obtain ⟨hp, hp'⟩ := List.of_mem_zip both
    obtain ⟨handle, here, outputs, below⟩ := each both
    obtain ⟨stands, plain, -, heads⟩ := Forest.part_of_mem n.stands n.flat p hp
    obtain ⟨stands', -, -, heads'⟩ := Forest.part_of_mem n'.stands n'.flat p' hp'
    have body := n.bodyIn_of_mem_parts hp
    have body' := n'.bodyIn_of_mem_parts hp'
    have same := here.payload
    have kind := Forest.isModuleLike_of_mem_definitions F p.1
      (F.parts_map_fst ▸ List.mem_map_of_mem hp)
    cases payload : p.1.2.payload with
    | module name ports block =>
      rw [payload] at same heads
      rw [same] at heads'
      simp only [Payload.renumber, Payload.regions, List.flatMap_singleton] at heads heads'
      rw [d.bodyIn_of_module payload] at body
      rw [d'.bodyIn_of_module same] at body'
      refine .module handle payload (by rw [same, unnamed]; rfl) ⟨fun port => ?_, ?_⟩
      · have args : d'.argsOf (R.block block) = d.argsOf block := by
          rw [Design.argsOf_eq, Design.argsOf_eq, twins.args, funext values]
          cases d.argsAt? block <;> simp
        have ends : d'.outputsOf (R.block block) = d.outputsOf block := by
          rw [Forest.outputsOf_eq stands heads, Forest.outputsOf_eq stands' heads',
            outputs, funext values, List.map_id']
        rw [show port.map id = port from rfl, Design.portValue?, Design.portValue?, args, ends]
      · rw [body, body']
        exact below.told values plain
    | externModule name ports =>
      rw [payload] at same
      exact .external handle payload (by rw [same, unnamed]; rfl)
    | _ => simp [payload, Payload.isModuleLike, Payload.symbol?] at kind
  producers v := by
    have same := twins.producers v
    rw [values] at same
    rw [Design.definingOp_eq, Design.definingOp_eq, same]
    cases d.values[v.index]? <;> rfl

end Alike

end DebugHierarchy
