import DebugHierarchy.Proofs.Twins

/-!
Declarations side by side.

A declaration is a module or an extern module at a place of its own. Where the statements of its
body refer to nothing but inputs and labels of that body, what the declaration makes does not
depend on what stands beside it: carried out after others, it makes the same operations, blocks
and values under later handles.

* `Body.draft_closed`: the statements of a closed body meet no fault, and refer to inputs
  and to what the body creates;
* `Renumbering.after`: the handles of what comes after other things;
* `Script.draft_declarations`: every declaration of a script is a copy of what it makes alone.
-/

namespace DebugHierarchy

open Drafting

/-- The reference is to one of some inputs, or to a label of a set. -/
def Ref.Closed (inputs : Nat) (bound : Set String) : Ref → Prop
  | .input index => index < inputs
  | .label l => l ∈ bound
  | .value _ => False

/-- Every reference of a body is to an input, or to a label that stands for a value
where the reference stands. -/
def Body.Closed (inputs : Nat) (bound : Set String) : Body → Prop
  | .done => True
  | .loc _ rest | .mention _ rest => rest.Closed inputs bound
  | .leaf label statement rest =>
    (∀ ref ∈ statement.refs, ref.Closed inputs bound) ∧
      rest.Closed inputs (bound ∪ statement.binds label)
  | .region _ inner rest => inner.Closed inputs bound ∧ rest.Closed inputs (bound ∪ inner.binds)

theorem Body.Closed.sure {inputs : Nat} {bound : Set String} {body : Body}
    (closed : body.Closed inputs bound) (R : Renumbering) : body.Sure R bound := by
  induction body generalizing bound with
  | done => trivial
  | loc _ _ ih | mention _ _ ih => exact ih closed
  | leaf label statement rest ih =>
    refine ⟨fun ref here => ?_, ih closed.2⟩
    have inside := closed.1 ref here
    cases ref with
    | input => trivial
    | label => exact inside
    | value => exact inside.elim
  | region name inner rest ihInner ihRest => exact ⟨ihInner closed.1, ihRest closed.2⟩

def Payload.operands {ν : Type} : Payload ν → List ValueId
  | .inst _ _ inputs => inputs
  | .wire _ input => input.toList
  | .output operands => operands
  | .dbgVariable note => note.value :: (note.scope.toList ++ note.enumDef.toList)
  | .dbgScope note => note.scope.toList
  | .other _ operands _ => operands
  | .module .. | .externModule .. | .moduleInfo .. | .enumDef _ => []

namespace Forest

variable {ν : Type}

def results (F : Forest ν) : List ValueId := F.preorder.flatMap (·.2.results)

def Within (known : List ValueId) (F : Forest ν) : Prop :=
  ∀ x ∈ F.preorder, ∀ v ∈ x.2.payload.operands, v ∈ known ++ F.results

@[simp] theorem results_append (F G : Forest ν) : (F ++ G).results = F.results ++ G.results := by
  simp [results]

theorem within_append {known : List ValueId} {F G : Forest ν} (first : F.Within known)
    (next : G.Within (known ++ F.results)) : (F ++ G).Within known := by
  intro x hx v hv
  rw [results_append, ← List.append_assoc]
  rw [preorder_append, List.mem_append] at hx
  rcases hx with hx | hx
  · exact List.mem_append_left _ (first x hx v hv)
  · exact next x hx v hv

end Forest

/-- The step looks at the draft only, and finds what the condition allows. -/
def Drafting.Finds {α : Type} (x : Drafting α) (s : Draft) (post : α → Prop) : Prop :=
  ∃ a, x.run s = .ok a s ∧ post a

namespace Drafting.Finds

variable {α β : Type} {s : Draft} {post : α → Prop} {post' : β → Prop}

theorem pure {a : α} (holds : post a) : Finds (Pure.pure a) s post := ⟨a, rfl, holds⟩

theorem bind {x : Drafting α} {f : α → Drafting β} (first : Finds x s post)
    (next : ∀ a, post a → Finds (f a) s post') : Finds (x >>= f) s post' := by
  obtain ⟨a, run, holds⟩ := first
  obtain ⟨b, run', holds'⟩ := next a holds
  exact ⟨b, run_bind_eq_ok.2 ⟨a, s, run, run'⟩, holds'⟩

theorem list {x : α → Drafting β} (l : List α) (each : ∀ a ∈ l, Finds (x a) s post') :
    Finds (l.mapM x) s fun found => ∀ b ∈ found, post' b := by
  induction l with
  | nil => exact pure nofun
  | cons a rest ih =>
    rw [List.mapM_cons]
    refine (each a List.mem_cons_self).bind fun b here => ?_
    refine (ih fun c hc => each c (List.mem_cons_of_mem _ hc)).bind fun bs beside => .pure ?_
    exact List.forall_mem_cons.2 ⟨here, beside⟩

theorem option {x : α → Drafting β} (o : Option α) (each : ∀ a ∈ o, Finds (x a) s post') :
    Finds (o.mapM x) s fun found => ∀ b ∈ found.toList, post' b := by
  cases o with
  | none => exact pure (by simp)
  | some a =>
    refine (each a rfl).bind fun b here => .pure ?_
    simpa using here

end Drafting.Finds

section Closed

variable {s : Draft} {bound : Set String} {known : List ValueId}

def Draft.Resolves (s : Draft) (bound : Set String) (known : List ValueId) : Prop :=
  ∀ l ∈ bound, ∃ v ∈ known, s.labels.lookup l = some v

theorem Drafting.read_finds (resolves : s.Resolves bound known) {inputs : List ValueId}
    (there : ∀ v ∈ inputs, v ∈ known) {ref : Ref} (closed : ref.Closed inputs.length bound) :
    Finds (read inputs ref) s (· ∈ known) := by
  cases ref with
  | input index =>
    have found : inputs[index]? = some inputs[index] := List.getElem?_eq_getElem closed
    refine ⟨inputs[index], ?_, there _ (List.getElem_mem closed)⟩
    simp only [read, found]
    rfl
  | label l =>
    obtain ⟨v, inside, found⟩ := resolves l closed
    refine ⟨v, ?_, inside⟩
    simp only [read, EStateM.run_bind, EStateM.run_get, found]
    rfl
  | value v => exact closed.elim

/-- A statement whose references are found makes an operation that refers to what they stand for. -/
theorem Leaf.payload_finds {inputs : List ValueId} {statement : Leaf}
    (each : ∀ ref ∈ statement.refs, Finds (read inputs ref) s (· ∈ known)) :
    Finds (statement.payload (read inputs)) s fun payload => ∀ v ∈ payload.operands, v ∈ known := by
  cases statement with
  | inst name moduleName refs => exact (Finds.list refs each).bind fun _ all => .pure all
  | wire name ref =>
    exact (Finds.option ref fun a ha => each a (by simpa [refs] using ha)).bind
      fun _ all => .pure all
  | output refs => exact (Finds.list refs each).bind fun _ all => .pure all
  | dbgVariable note =>
    refine (each note.value (by simp [refs])).bind fun value here => ?_
    refine (Finds.option note.scope fun a ha => each a (by simp_all [refs])).bind
      fun scope scopes => ?_
    refine (Finds.option note.enumDef fun a ha => each a (by simp_all [refs])).bind
      fun enum enums => .pure ?_
    intro v hv
    simp only [Payload.operands, List.mem_cons, List.mem_append] at hv
    rcases hv with rfl | hv | hv
    · exact here
    · exact scopes v hv
    · exact enums v hv
  | dbgScope note =>
    exact (Finds.option note.scope fun a ha => each a (by simpa [refs] using ha)).bind
      fun _ all => .pure all
  | moduleInfo typeName params => exact .pure fun _ hv => absurd hv List.not_mem_nil
  | enumDef note => exact .pure fun _ hv => absurd hv List.not_mem_nil
  | other name refs => exact (Finds.list refs each).bind fun _ all => .pure all

/-- Statements that refer to known values and to what they make themselves lead from `s` to `t`. -/
structure Draft.Closes (s t : Draft) (b : BlockId) (known : List ValueId) (bound : Set String)
    (F : Forest String) : Prop where
  adds : s.design.Adds b F t.design
  plain : F.Plain
  within : F.Within known
  resolves : t.Resolves bound (known ++ F.results)
  made : ∀ v ∈ F.results, v.index < t.design.values.size

namespace Draft.Closes

variable {t u : Draft} {b : BlockId} {bound' : Set String} {F G : Forest String}

theorem refl (resolves : s.Resolves bound known) (b : BlockId) : s.Closes s b known bound .nil :=
  ⟨.refl _ _, trivial, nofun, by simpa [Forest.results, Forest.preorder] using resolves, nofun⟩

theorem trans (inside : b.index < s.design.blocks.size) (first : s.Closes t b known bound F)
    (next : t.Closes u b (known ++ F.results) bound' G) : s.Closes u b known bound' (F ++ G) where
  adds := first.adds.trans inside next.adds
  plain := Forest.plain_append first.plain next.plain
  within := Forest.within_append first.within next.within
  resolves := by rw [Forest.results_append, ← List.append_assoc]; exact next.resolves
  made v hv := by
    rw [Forest.results_append, List.mem_append] at hv
    rcases hv with hv | hv
    · exact Nat.lt_of_lt_of_le (first.made v hv) next.adds.valueCount_le
    · exact next.made v hv

end Draft.Closes

theorem Drafting.note_run (ss : List String) (s : Draft) :
    ∃ t, (note ss).run s = .ok () t ∧ t.design = s.design ∧ t.labels = s.labels :=
      ⟨_, rfl, rfl, rfl⟩

theorem Leaf.draft_closed (level : Level) (label : Option String) {statement : Leaf}
    (resolves : s.Resolves bound known) (there : ∀ v ∈ level.inputs, v ∈ known)
    (inside : level.block.index < s.design.blocks.size)
    (closed : ∀ ref ∈ statement.refs, ref.Closed level.inputs.length bound) :
    ∃ t F, (statement.draft level label).run s = .ok () t ∧
      s.Closes t level.block known (bound ∪ statement.binds label) F := by
  have found (ref : Ref) (here : ref ∈ statement.refs) :=
    read_finds resolves there (closed ref here)
  obtain ⟨payload, read, refers⟩ := Leaf.payload_finds found
  obtain ⟨-, makes⟩ := payload_spec read
  obtain ⟨u, noted, same, labels⟩ := note_run statement.mentions s
  obtain ⟨t, added⟩ : ∃ t,
      (addOp level.block level.loc payload statement.results label).run u = .ok () t := ⟨_, rfl⟩
  have design := addOp_design added
  have named := addOp_labels added
  rw [same] at design named
  have adds := Design.adds_addOp level.loc inside makes.leaf makes.single
  rw [← design] at adds
  have results : (Forest.cons ⟨s.design.ops.size⟩
      (s.design.addOp level.block level.loc payload statement.results).1 .nil .nil).results =
      (List.range statement.results).map fun i => ⟨s.design.values.size + i⟩ := by
    simp [Forest.results, Forest.preorder]
  refine ⟨t, _, ?_, adds, ⟨makes.plain, trivial, trivial⟩, ?_, ?_, ?_⟩
  · exact run_bind_eq_ok.2 ⟨payload, s, read, run_bind_eq_ok.2 ⟨(), u, noted, added⟩⟩
  · intro x hx v hv
    simp only [Forest.preorder, List.append_nil, List.mem_singleton] at hx
    subst hx
    exact List.mem_append_left _ (refers v hv)
  · intro l hl
    rw [named, results, labels]
    have before (old : l ∈ bound) (more : List ValueId) :
        ∃ v ∈ known ++ more, s.labels.lookup l = some v := by
      obtain ⟨v, inside, found⟩ := resolves l old
      exact ⟨v, List.mem_append_left _ inside, found⟩
    by_cases none : statement.results = 0
    · rw [if_pos none]
      exact before (hl.resolve_right fun made => made.2 none) _
    · rw [if_neg none]
      cases label with
      | none => exact before (hl.resolve_right fun made => Option.some_ne_none l made.1.symm) _
      | some l' =>
        simp only [Option.map_some, Option.toList_some, List.singleton_append, List.lookup_cons]
        by_cases here : l = l'
        · refine ⟨⟨s.design.values.size⟩, List.mem_append_right _ ?_, by simp [here]⟩
          exact List.mem_map.2 ⟨0, List.mem_range.2 (Nat.pos_of_ne_zero none), rfl⟩
        · rw [beq_eq_false_iff_ne.2 here]
          exact before (hl.resolve_right fun made => here (Option.some.inj made.1).symm) _
  · intro v hv
    rw [results] at hv
    obtain ⟨i, hi, rfl⟩ := List.mem_map.1 hv
    rw [design, Design.addOp_values]
    simpa using hi

/-- **Closed bodies.** The statements of a closed body meet no fault, and they refer to known values
and to values that they make. -/
theorem Body.draft_closed {body : Body} (level : Level) (resolves : s.Resolves bound known)
    (there : ∀ v ∈ level.inputs, v ∈ known) (inside : level.block.index < s.design.blocks.size)
    (closed : body.Closed level.inputs.length bound) : ∃ t F, (body.draft level).run s = .ok () t ∧
      s.Closes t level.block known (bound ∪ body.binds) F := by
  induction body generalizing level s bound known with
  | done =>
    refine ⟨s, .nil, rfl, ?_⟩
    rw [binds, Set.union_empty]
    exact .refl resolves _
  | loc place rest ih =>
    obtain ⟨u, noted, same, labels⟩ := note_run (placeMentions place) s
    have resolves : u.Resolves bound known := by unfold Draft.Resolves; rwa [labels]
    obtain ⟨t, F, run, closes⟩ := ih { level with loc := place.getD .unknown } resolves there
      (same ▸ inside) closed
    exact ⟨t, F, run_bind_eq_ok.2 ⟨(), u, noted, run⟩, same ▸ closes.adds,
      closes.plain, closes.within, closes.resolves, closes.made⟩
  | mention text rest ih =>
    obtain ⟨u, noted, same, labels⟩ := note_run [text] s
    have resolves : u.Resolves bound known := by unfold Draft.Resolves; rwa [labels]
    obtain ⟨t, F, run, closes⟩ := ih level resolves there (same ▸ inside) closed
    exact ⟨t, F, run_bind_eq_ok.2 ⟨(), u, noted, run⟩, same ▸ closes.adds,
      closes.plain, closes.within, closes.resolves, closes.made⟩
  | leaf label statement rest ih =>
    obtain ⟨u, F, run, first⟩ := Leaf.draft_closed level label resolves there inside closed.1
    have count := first.adds.blockCount
    obtain ⟨t, G, run', next⟩ :=
      ih level first.resolves (fun v hv => List.mem_append_left _ (there v hv)) (by omega) closed.2
    rw [binds, ← Set.union_assoc]
    exact ⟨t, _, run_bind_eq_ok.2 ⟨(), u, run, run'⟩, first.trans inside next⟩
  | region name inner rest ihInner ihRest =>
    obtain ⟨u, noted, same, labels⟩ := note_run [name] s
    rw [← same] at inside
    obtain ⟨region, v, owned⟩ : ∃ region v, (addOwner level.block level.loc
        (fun block => .other name [] [block]) 0).run u = .ok region v := ⟨_, _, rfl⟩
    have kept : v.labels = s.labels := by cases owned; exact labels
    obtain ⟨rfl, grown⟩ := addOwner_design owned
    have room : u.design.blocks.size < v.design.blocks.size := by rw [grown]; simp
    have resolves : v.Resolves bound known := by unfold Draft.Resolves; rwa [kept]
    obtain ⟨w, G, run, below⟩ := ihInner { level with block := ⟨u.design.blocks.size⟩ } resolves
      there room closed.1
    have adds := Design.Adds.within inside (fun _ => rfl) (grown ▸ below.adds)
    have results : (Forest.cons ⟨u.design.ops.size⟩ (u.design.addOp level.block level.loc
        (.other name [] [⟨u.design.blocks.size⟩]) 0).1 G .nil).results = G.results := by
      simp [Forest.results, Forest.preorder]
    have first : s.Closes w level.block known (bound ∪ inner.binds) (.cons ⟨u.design.ops.size⟩
        (u.design.addOp level.block level.loc (.other name [] [⟨u.design.blocks.size⟩]) 0).1 G
          .nil) := by
      refine ⟨same ▸ adds, ⟨rfl, below.plain, trivial⟩, ?_, results.symm ▸ below.resolves,
        results.symm ▸ below.made⟩
      intro x hx v hv
      rw [results]
      simp only [Forest.preorder, List.append_nil, List.mem_cons] at hx
      rcases hx with rfl | hx
      · cases hv
      · exact below.within x hx v hv
    have count := first.adds.blockCount
    rw [same] at inside
    obtain ⟨t, R, run', next⟩ :=
      ihRest level first.resolves (fun v hv => List.mem_append_left _ (there v hv))
      (by omega) closed.2
    rw [binds, ← Set.union_assoc]
    refine ⟨t, _, run_bind_eq_ok.2 ⟨(), u, noted, run_bind_eq_ok.2 ⟨_, v, owned, ?_⟩⟩,
      first.trans inside next⟩
    exact run_bind_eq_ok.2 ⟨(), w, run, run'⟩

end Closed

/-- The handles of what comes after so many operations, blocks and values;
the top block stays the first. -/
def Renumbering.after (ops blocks values : Nat) : Renumbering where
  op id := ⟨id.index + ops⟩
  block
    | ⟨0⟩ => ⟨0⟩
    | ⟨i + 1⟩ => ⟨i + blocks⟩
  value id := ⟨id.index + values⟩

namespace Design

variable {ν : Type}

/-- The handles of what is added to a design, told by those it would have in the empty one. -/
def afterwards (d : Design ν) : Renumbering := .after d.ops.size d.blocks.size d.values.size

theorem twins_afterwards {d : Design ν} (args : d.argsAt? top = some []) :
    empty.Twins d.afterwards d where
  ops i := Handle.ext (by simp [empty, afterwards, Renumbering.after, Nat.add_comm])
  blocks i := by
    have next : (⟨(empty : Design ν).blocks.size + i⟩ : BlockId) = ⟨i + 1⟩ :=
      Handle.ext (by simp [empty, Nat.add_comm])
    rw [next]
    exact Handle.ext (Nat.add_comm _ _)
  values i := Handle.ext (by simp [empty, afterwards, Renumbering.after, Nat.add_comm])
  args b := by
    obtain ⟨i⟩ := b
    cases i with
    | zero => exact args
    | succ i => simp [afterwards, Renumbering.after, argsAt?, empty]
  producers v := by simp [afterwards, Renumbering.after, empty]

/-- A definition of the second design is one of the first under other handles,
and so is all that lies in it. -/
structure Copies (R : Renumbering) (d d' : Design ν) (p p' : Entry ν × Forest ν) : Prop where
  ops : Function.Injective R.op
  values : Function.Injective R.value
  id : p'.1.1 = R.op p.1.1
  here : p.1.2.Renumbered R p'.1.2
  like : p.2.Like R p'.2
  outputs : p'.2.outputs = p.2.outputs.map R.value
  args : ∀ b ∈ p.1.2.payload.regions, ∃ args, d.argsAt? b = some args ∧
    d'.argsAt? (R.block b) = some (args.map R.value)
  producers : ∀ v : ValueId, v.index < d.values.size →
    d'.values[(R.value v).index]?.map (·.op?) = d.values[v.index]?.map (·.op?.map R.op)

/-- What is added later changes nothing in a copy. -/
theorem Copies.adds {R : Renumbering} {d d' e : Design ν} {p p' : Entry ν × Forest ν} {b : BlockId}
    {F : Forest ν} (copies : Copies R d d' p p') (adds : d'.Adds b F e) : Copies R d e p p' where
  ops := copies.ops
  values := copies.values
  id := copies.id
  here := copies.here
  like := copies.like
  outputs := copies.outputs
  args c hc := by
    obtain ⟨args, found, found'⟩ := copies.args c hc
    refine ⟨args, found, ?_⟩
    obtain ⟨block, there, _⟩ := Option.map_eq_some_iff.1 found'
    rw [adds.argsKept _ (Array.getElem?_eq_some_iff.1 there).1, found']
  producers v there := by
    have same := copies.producers v there
    rw [Array.getElem?_eq_getElem there] at same
    obtain ⟨_, found, _⟩ := Option.map_eq_some_iff.1 same
    rw [adds.valuesKept _ (Array.getElem?_eq_some_iff.1 found).1]
    exact copies.producers v there

end Design

/-! ### Declarations -/

/-- A module or an extern module at a place of its own; without a place, at none that is known. -/
structure Declaration where
  place : Option (SourceLoc String)
  name : String
  ports : List PortDecl
  /-- What lies in the module; an extern module has no body. -/
  body : Option Body
  deriving DecidableEq, Repr

namespace Declaration

def script (D : Declaration) (rest : Script) : Script :=
  .loc D.place <|
    match D.body with
    | some body => .module D.name D.ports body rest
    | none => .externModule D.name D.ports rest

def Closed (D : Declaration) : Prop := ∀ body ∈ D.body, body.Closed (PortDecl.argCount D.ports) ∅

def draft (D : Declaration) : Drafting Unit := do
  note (placeMentions D.place)
  match D.body with
  | some body => addModule Design.top (D.place.getD .unknown) D.name D.ports body
  | none => addExtern Design.top (D.place.getD .unknown) D.name D.ports

end Declaration

def Script.ofDeclarations (items : List Declaration) : Script :=
  items.foldr Declaration.script .done

theorem Script.draft_ofDeclarations (D : Declaration) (items : List Declaration)
    (loc : SourceLoc String) : (ofDeclarations (D :: items)).draft Design.top loc =
      (do D.draft; (ofDeclarations items).draft Design.top (D.place.getD .unknown)) := by
  rw [ofDeclarations, List.foldr_cons, ← ofDeclarations, Declaration.script, Script.draft,
    Declaration.draft, bind_assoc]
  refine bind_congr fun _ => ?_
  cases D.body with
  | some body => exact draft_module D.name D.ports body _ _ _
  | none => exact draft_externModule D.name D.ports _ _ _

/-- A declaration makes this definition when it is carried out alone. -/
structure Declaration.Makes (D : Declaration) (t : Draft) (p : Entry String × Forest String) :
    Prop where
  run : D.draft.run .empty = .ok () t
  parts : (t.design.under Design.top).parts = [p]
  nesting : Nesting t.design (t.design.under Design.top)
  name : p.1.2.payload.symbol? = some D.name
  /-- The body refers to its inputs and to what it creates. -/
  body : ∀ b ∈ p.1.2.payload.regions, ∃ args, t.design.argsAt? b = some args ∧ p.2.Within args ∧
    ∀ v ∈ args ++ p.2.results, v.index < t.design.values.size

namespace Declaration

variable {D : Declaration}

/-- A closed declaration makes a definition. -/
theorem makes_of_closed (closed : D.Closed) : ∃ t p, D.Makes t p := by
  obtain ⟨u, noted, same, _⟩ := note_run (placeMentions D.place) .empty
  obtain ⟨v, noted', same', _⟩ := note_run (PortDecl.mentions D.name D.ports) u
  have empty : v.design = Design.empty := same'.trans same
  have inside : Design.top.index < v.design.blocks.size := by rw [empty]; exact Nat.zero_lt_one
  cases content : D.body with
  | none =>
    obtain ⟨t, added⟩ : ∃ t, (addOp Design.top (D.place.getD .unknown)
        (.externModule D.name (PortDecl.number D.ports)) 0 none).run v = .ok () t := ⟨_, rfl⟩
    have single (note : ScopeNote String ValueId) :
        Payload.externModule D.name (PortDecl.number D.ports) = .dbgScope note → 0 = 1 := by
      intro same
      cases same
    have adds := Design.adds_addOp (D.place.getD .unknown) inside (by rfl) single
    rw [← addOp_design added, empty] at adds
    refine ⟨t, _, ?_, by rw [adds.under_top]; rfl, ?_, rfl, fun _ hb => (List.not_mem_nil hb).elim⟩
    · rw [draft, content]
      exact run_bind_eq_ok.2 ⟨(), u, noted, run_bind_eq_ok.2 ⟨(), v, noted', added⟩⟩
    · rw [adds.under_top]
      exact adds.nesting ⟨trivial, trivial⟩
  | some content' =>
    obtain ⟨region, w, owned⟩ : ∃ region w, (addOwner Design.top (D.place.getD .unknown)
        (.module D.name (PortDecl.number D.ports)) (PortDecl.argCount D.ports)).run v =
          .ok region w :=
      ⟨_, _, rfl⟩
    obtain ⟨here, grown⟩ := addOwner_design owned
    rw [empty] at here grown
    obtain rfl : region = ⟨1⟩ := here
    have args : w.design.argsAt? ⟨1⟩ =
        some ((List.range (PortDecl.argCount D.ports)).map fun i => ⟨i⟩) := by
      rw [grown, Design.argsAt?_addOwner]
      simp [Design.empty]
    have inputs := w.design.argsOf_eq ⟨1⟩
    rw [args, Option.getD_some] at inputs
    have room : 1 < w.design.blocks.size := by
      rw [grown, Design.addOwner_blocks_size]; exact Nat.lt_add_one 1
    have unlabelled : w.Resolves ∅ (w.design.argsOf ⟨1⟩) :=
      fun l hl => absurd hl (Set.notMem_empty l)
    have inner : content'.Closed (w.design.argsOf ⟨1⟩).length ∅ := by
      rw [inputs, List.length_map, List.length_range]
      exact closed content' content
    obtain ⟨t, G, run, closes⟩ :=
      Body.draft_closed ⟨⟨1⟩, w.design.argsOf ⟨1⟩, D.place.getD .unknown⟩ unlabelled
      (fun _ => id) room inner
    have adds : Design.empty.Adds Design.top _ t.design :=
      .within (empty ▸ inside) (fun _ => rfl) (grown ▸ closes.adds)
    refine ⟨t, _, ?_, by rw [adds.under_top]; rfl, ?_, rfl, ?_⟩
    · rw [draft, content]
      refine run_bind_eq_ok.2 ⟨(), u, noted, run_bind_eq_ok.2 ⟨(), v, noted', ?_⟩⟩
      exact run_bind_eq_ok.2 ⟨_, w, owned, run_bind_eq_ok.2 ⟨w, w, rfl, run⟩⟩
    · rw [adds.under_top]
      exact adds.nesting ⟨closes.plain, trivial⟩
    · intro b hb
      obtain rfl : b = ⟨1⟩ := List.mem_singleton.1 hb
      refine ⟨_, (closes.adds.argsKept ⟨1⟩ room).trans args, inputs ▸ closes.within, ?_⟩
      intro x hx
      rcases List.mem_append.1 hx with hx | hx
      · obtain ⟨i, hi, rfl⟩ := List.mem_map.1 hx
        have kept := closes.adds.valueCount_le
        rw [grown, Design.addOwner_values] at kept
        simp only [Design.empty, Array.size_append, List.size_toArray, List.length_map,
          List.length_range, List.length_nil, List.mem_range] at kept hi
        show i < _
        omega
      · exact closes.made x hx

theorem draft_together {R : Renumbering} {s s' : Draft} (closed : D.Closed) (twins : s.Twins R ∅ s')
    (inside : Design.top.index < s.design.blocks.size)
    (inside' : Design.top.index < s'.design.blocks.size) :
    Together D.draft D.draft s s' fun _ _ t t' => t.design.Twins R t'.design ∧ ∃ F F',
      Design.GrowAlike R Design.top Design.top s.design s'.design t.design t'.design F F' := by
  refine (note_together twins (placeMentions D.place)).bind fun _ noted => ?_
  obtain ⟨twins, same, same'⟩ := noted
  rw [← same] at inside ⊢
  rw [← same'] at inside' ⊢
  cases content : D.body with
  | some body =>
    refine (addModule_together twins inside inside' _ D.name D.ports
      ((closed body content).sure R)).imp
      fun added => ?_
    exact ⟨added.1.designs, added.2⟩
  | none =>
    exact (addExtern_together twins inside inside' _ D.name D.ports).imp fun added =>
      ⟨added.1.designs, added.2⟩

/-- Carried out after other things, a declaration makes a copy of what it makes alone. -/
theorem Makes.copies {t₀ s : Draft} {p₀ : Entry String × Forest String} (makes : D.Makes t₀ p₀)
    (closed : D.Closed) (inside : Design.top.index < s.design.blocks.size)
    (args : s.design.argsAt? Design.top = some []) : ∃ t F p, D.draft.run s = .ok () t ∧
      s.design.Adds Design.top F t.design ∧ F.parts = [p] ∧
        Design.Copies s.design.afterwards t₀.design t.design p₀ p := by
  have twins : Draft.empty.Twins s.design.afterwards ∅ s := ⟨Design.twins_afterwards args, nofun⟩
  have together := draft_together closed twins Nat.zero_lt_one inside
  obtain ⟨_, _, t₀', t, run, run', twins, F₀, F, grows⟩ | ⟨fault, u, _, fails, _⟩ :=
    Together.iff_ok.1 together
  · cases makes.run.symm.trans run
    have alike := grows.like.parts_alike
    have whole : F₀.parts = [p₀] := by rw [← grows.left.under_top]; exact makes.parts
    rw [whole] at alike
    obtain ⟨p, rest, ⟨handle, here, outputs, like⟩, none, parts⟩ :=
      List.forall₂_cons_left_iff.1 alike
    obtain rfl := List.forall₂_nil_left_iff.1 none
    refine ⟨t, F, p, run', grows.right, parts, ?_, ?_, handle, here, like, outputs, ?_,
      fun v _ => twins.producers v⟩
    · intro a b same
      exact Handle.ext (Nat.add_right_cancel (congrArg Handle.index same))
    · intro a b same
      exact Handle.ext (Nat.add_right_cancel (congrArg Handle.index same))
    · intro b hb
      obtain ⟨args, found, _⟩ := makes.body b hb
      exact ⟨args, found, by rw [twins.args, found]; rfl⟩
  · cases makes.run.symm.trans fails

/-- The definition is one that a declaration makes, under other handles. -/
def StandsIn (D : Declaration) (d : Design String) (p : Entry String × Forest String) : Prop :=
  ∃ R t₀ p₀, D.Makes t₀ p₀ ∧ Design.Copies R t₀.design d p₀ p

end Declaration

/-- **Declarations in a list.** Closed declarations meet no fault, and each makes a
copy of what it makes alone. -/
theorem Script.draft_declarations {items : List Declaration} (closed : ∀ D ∈ items, D.Closed)
    {s : Draft} (inside : Design.top.index < s.design.blocks.size)
    (args : s.design.argsAt? Design.top = some []) (loc : SourceLoc String) :
    ∃ last t F, ((ofDeclarations items).draft Design.top loc).run s = .ok last t ∧
      s.design.Adds Design.top F t.design ∧
        List.Forall₂ (fun D p => D.StandsIn t.design p) items F.parts := by
  induction items generalizing s loc with
  | nil => exact ⟨loc, s, .nil, rfl, .refl _ _, .nil⟩
  | cons D items ih =>
    obtain ⟨closed, others⟩ := List.forall_mem_cons.1 closed
    obtain ⟨t₀, p₀, makes⟩ := Declaration.makes_of_closed closed
    obtain ⟨t, F, p, run, adds, parts, copies⟩ := makes.copies closed inside args
    have count := adds.blockCount
    obtain ⟨last, u, G, run', adds', stand⟩ := ih others (s := t) (by omega)
      ((adds.argsKept _ inside).trans args) (D.place.getD .unknown)
    refine ⟨last, u, F ++ G, ?_, adds.trans inside adds', ?_⟩
    · rw [draft_ofDeclarations]
      exact run_bind_eq_ok.2 ⟨(), t, run, run'⟩
    · rw [Forest.parts_append, parts]
      exact .cons ⟨_, t₀, p₀, makes, copies.adds adds'⟩ stand

end DebugHierarchy
