import DebugHierarchy.Proofs.Growing

/-!
Points on the way through a script.

A station is a point on the way: where the statements that follow go to, these statements, and the
draft so far. A step leads past a statement, or into one that encloses others. What a step keeps
holds at every station that is reached, at whatever depth it lies.

* `Body.Step`, `Script.Step`: the steps through the statements of a body and
  through those of a script;
* `Body.Reaches.level`: everywhere in a body, the inputs are the arguments
  that the body was opened with;
* `Script.Reaches.ends`: what is drafted at a station goes on growing into the finished design.
-/

namespace DebugHierarchy

open Drafting

namespace Design

variable {ν : Type} {d e : Design ν}

theorem Grown.op_kept {b : BlockId} {o : Operation ν} {fresh : List Block} (g : d.Grown b o fresh e)
    {i : Nat} (old : i < d.ops.size) : e.ops[i]? = d.ops[i]? := by
  rw [g.ops, Array.getElem?_push_lt old, Array.getElem?_eq_getElem old]

theorem Grown.args_kept {b : BlockId} {o : Operation ν} {fresh : List Block}
    (g : d.Grown b o fresh e) {c : BlockId} (old : c.index < d.blocks.size) :
    e.argsAt? c = d.argsAt? c := by
  have size : c.index < (d.blocks.modify b.index fun block =>
      { block with ops := block.ops.push ⟨d.ops.size⟩ }).size := by simpa using old
  rw [argsAt?, argsAt?, g.blocks, Array.getElem?_append_left size, Array.getElem?_modify]
  split <;> cases d.blocks[c.index]? <;> rfl

/-- A design that grows keeps its blocks. -/
theorem Grows.inside {b : BlockId} (inside : b.index < d.blocks.size) (grows : d.Grows e) :
    b.index < e.blocks.size :=
  Nat.lt_of_lt_of_le inside (Grows.blocks_le grows)

/-- A design that grows keeps its operations. -/
theorem Grows.op_kept (grows : d.Grows e) {i : Nat} (old : i < d.ops.size) :
    e.ops[i]? = d.ops[i]? := by
  suffices i < e.ops.size ∧ e.ops[i]? = d.ops[i]? from this.2
  induction grows with
  | refl => exact ⟨old, rfl⟩
  | tail _ step ih =>
    obtain ⟨_, _, _, g⟩ := step
    refine ⟨?_, (g.op_kept ih.1).trans ih.2⟩
    rw [g.ops, Array.size_push]
    exact Nat.lt_succ_of_lt ih.1

/-- A design that grows keeps the arguments of its blocks. -/
theorem Grows.argsOf_kept (grows : d.Grows e) {c : BlockId} (old : c.index < d.blocks.size) :
    e.argsOf c = d.argsOf c := by
  have kept : e.argsAt? c = d.argsAt? c := by
    induction grows with
    | refl => rfl
    | tail before step ih =>
      obtain ⟨_, _, _, g⟩ := step
      exact (g.args_kept (Grows.inside old before)).trans ih
  rw [argsOf_eq, argsOf_eq, kept]

end Design

namespace Drafting

def openModule (block : BlockId) (loc : SourceLoc String) (name : String) (ports : List PortDecl) :
    Drafting Level := do
  note (PortDecl.mentions name ports)
  let region ← addOwner block loc (.module name (PortDecl.number ports)) (PortDecl.argCount ports)
  return ⟨region, (← get).design.argsOf region, loc⟩

def openRegion (level : Level) (name : String) : Drafting Level := do
  note [name]
  let block ← addOwner level.block level.loc (fun block => .other name [] [block]) 0
  return { level with block }

def openContainer (block : BlockId) (loc : SourceLoc String) (name : String) :
    Drafting BlockId := do
  note [name]
  addOwner block loc (fun region => .other name [] [region]) 0

variable {s t : Draft} {block : BlockId} {loc : SourceLoc String} {name : String}

theorem note_grows {ss : List String} (run : (note ss).run s = .ok () t) :
    s.design.Grows t.design := by
  rw [note_design run]

/-- A module is the next operation, its body the next block. -/
theorem openModule_run (inside : block.index < s.design.blocks.size) (loc : SourceLoc String)
    (name : String) (ports : List PortDecl) :
    ∃ level t, (openModule block loc name ports).run s = .ok level t ∧ s.design.Grows t.design ∧
      level.block = ⟨s.design.blocks.size⟩ ∧ level.block.index < t.design.blocks.size ∧
      level.inputs = t.design.argsOf level.block ∧ level.inputs.length = PortDecl.argCount ports ∧
      ∃ op, t.design.ops[s.design.ops.size]? = some op ∧ s.design.ops.size < t.design.ops.size ∧
        op.payload = .module name (PortDecl.number ports) level.block := by
  let payload : BlockId → Payload String := .module name (PortDecl.number ports)
  let grown := (s.design.addOwner block loc payload (PortDecl.argCount ports)).2
  let t : Draft :=
    { s with design := grown, mentions := s.mentions ++ PortDecl.mentions name ports }
  have args : grown.argsOf ⟨s.design.blocks.size⟩ =
      (List.range (PortDecl.argCount ports)).map fun i => ⟨s.design.values.size + i⟩ := by
    rw [Design.argsOf_eq, Design.argsAt?_addOwner, if_pos rfl]
    rfl
  have op : grown.ops[s.design.ops.size]? =
      some (s.design.addOp block loc (payload ⟨s.design.blocks.size⟩) 0).1 :=
        Array.getElem?_push_size
  refine ⟨⟨⟨s.design.blocks.size⟩, grown.argsOf ⟨s.design.blocks.size⟩, loc⟩, t, rfl, ?_,
    rfl, ?_, rfl, ?_,
    _, op, ?_, rfl⟩
  · exact .single ⟨_, _, _, Design.grown_addOwner inside loc (fun _ => rfl) _⟩
  · simp [t, grown]
  · simp [args]
  · simp [t, grown]

theorem openRegion_run {level within : Level} (inside : level.block.index < s.design.blocks.size)
    (run : (openRegion level name).run s = .ok within t) : s.design.Grows t.design ∧
      within.block.index < t.design.blocks.size ∧ within.inputs = level.inputs := by
  obtain ⟨_, u, hnote, run⟩ := run_bind_eq_ok.1 run
  obtain ⟨region, v, howner, last⟩ := run_bind_eq_ok.1 run
  cases last
  rw [← note_design hnote] at inside ⊢
  obtain ⟨grows, room⟩ := addOwner_grows inside (fun _ => rfl) howner
  exact ⟨grows, room, rfl⟩

theorem openContainer_run {within : BlockId} (inside : block.index < s.design.blocks.size)
    (run : (openContainer block loc name).run s = .ok within t) : s.design.Grows t.design ∧
      within.index < t.design.blocks.size := by
  obtain ⟨_, u, hnote, howner⟩ := run_bind_eq_ok.1 run
  rw [← note_design hnote] at inside ⊢
  exact addOwner_grows inside (fun _ => rfl) howner

end Drafting

theorem Script.draft_module_eq (block : BlockId) (loc : SourceLoc String) (name : String)
    (ports : List PortDecl) (body : Body) (rest : Script) :
    (Script.module name ports body rest).draft block loc =
      openModule block loc name ports >>= fun level => body.draft level >>= fun _ =>
        rest.draft block loc := rfl

theorem Script.draft_container_eq (block : BlockId) (loc : SourceLoc String) (name : String)
    (inner rest : Script) : (Script.container name inner rest).draft block loc =
      openContainer block loc name >>= fun within =>
        inner.draft within loc >>= fun last => rest.draft block last := rfl

/-! ### Through a body -/

namespace Body

/-- A point on the way through a body. -/
structure Station where
  level : Level
  rest : Body
  draft : Draft

inductive Step : Station → Station → Prop
  | loc {level : Level} {place : Option (SourceLoc String)} {rest : Body} {s t : Draft} :
    (note (placeMentions place)).run s = .ok () t →
      Step ⟨level, .loc place rest, s⟩ ⟨{ level with loc := place.getD .unknown }, rest, t⟩
  | mention {level : Level} {text : String} {rest : Body} {s t : Draft} :
    (note [text]).run s = .ok () t → Step ⟨level, .mention text rest, s⟩ ⟨level, rest, t⟩
  | leaf {level : Level} {label : Option String} {statement : Leaf} {rest : Body} {s t : Draft} :
    (statement.draft level label).run s = .ok () t →
      Step ⟨level, .leaf label statement rest, s⟩ ⟨level, rest, t⟩
  /-- Into a region. -/
  | enter {level within : Level} {name : String} {inner rest : Body} {s t : Draft} :
    (openRegion level name).run s = .ok within t →
      Step ⟨level, .region name inner rest, s⟩ ⟨within, inner, t⟩
  /-- Past a region. -/
  | pass {level within : Level} {name : String} {inner rest : Body} {s t u : Draft} :
    (openRegion level name).run s = .ok within t → (inner.draft within).run t = .ok () u →
      Step ⟨level, .region name inner rest, s⟩ ⟨level, rest, u⟩

abbrev Reaches : Station → Station → Prop := Relation.ReflTransGen Step

def Station.Inside (x : Station) : Prop := x.level.block.index < x.draft.design.blocks.size

theorem Step.level {x y : Station} (step : Step x y) (inside : x.Inside) :
    y.Inside ∧ y.level.inputs = x.level.inputs ∧ x.draft.design.Grows y.draft.design := by
  cases step with
  | loc hnote => exact ⟨Design.Grows.inside inside (note_grows hnote), rfl, note_grows hnote⟩
  | mention hnote => exact ⟨Design.Grows.inside inside (note_grows hnote), rfl, note_grows hnote⟩
  | leaf hleaf =>
    have grows := Leaf.draft_grows inside hleaf
    exact ⟨Design.Grows.inside inside grows, rfl, grows⟩
  | enter hopen =>
    obtain ⟨grows, room, same⟩ := openRegion_run inside hopen
    exact ⟨room, same, grows⟩
  | pass hopen hinner =>
    obtain ⟨opened, room, _⟩ := openRegion_run inside hopen
    have grows := opened.trans (Body.draft_grows room hinner)
    exact ⟨Design.Grows.inside inside grows, rfl, grows⟩

/-- **Levels.** Everywhere in a body, the inputs are those that the body was opened with. -/
theorem Reaches.level {x y : Station} (reached : Reaches x y) (inside : x.Inside) :
    y.Inside ∧ y.level.inputs = x.level.inputs ∧ x.draft.design.Grows y.draft.design := by
  induction reached with
  | refl => exact ⟨inside, rfl, .refl⟩
  | tail _ step ih =>
    obtain ⟨there, same, grows⟩ := ih
    obtain ⟨next, same', grows'⟩ := step.level there
    exact ⟨next, same'.trans same, grows.trans grows'⟩

end Body

namespace Script

/-- A point on the way through a script. -/
structure Station where
  block : BlockId
  loc : SourceLoc String
  rest : Script
  draft : Draft

inductive Step : Station → Station → Prop
  | loc {block : BlockId} {loc : SourceLoc String} {place : Option (SourceLoc String)}
      {rest : Script}
    {s t : Draft} : (note (placeMentions place)).run s = .ok () t →
      Step ⟨block, loc, .loc place rest, s⟩ ⟨block, place.getD .unknown, rest, t⟩
  | mention {block : BlockId} {loc : SourceLoc String} {text : String} {rest : Script}
      {s t : Draft} :
    (note [text]).run s = .ok () t → Step ⟨block, loc, .mention text rest, s⟩ ⟨block, loc, rest, t⟩
  /-- Past a module. -/
  | module {block : BlockId} {loc : SourceLoc String} {name : String} {ports : List PortDecl}
      {body : Body}
    {rest : Script} {level : Level} {s t u : Draft} :
    (openModule block loc name ports).run s = .ok level t →
      (body.draft level).run t = .ok () u →
      Step ⟨block, loc, .module name ports body rest, s⟩ ⟨block, loc, rest, u⟩
  | externModule {block : BlockId} {loc : SourceLoc String} {name : String} {ports : List PortDecl}
    {rest : Script} {s t : Draft} :
    ((Script.externModule name ports .done).draft block loc).run s = .ok loc t →
      Step ⟨block, loc, .externModule name ports rest, s⟩ ⟨block, loc, rest, t⟩
  /-- Into a container. -/
  | enter {block within : BlockId} {loc : SourceLoc String} {name : String} {inner rest : Script}
      {s t : Draft} :
    (openContainer block loc name).run s = .ok within t →
      Step ⟨block, loc, .container name inner rest, s⟩ ⟨within, loc, inner, t⟩
  /-- Past a container. -/
  | pass {block within : BlockId} {loc last : SourceLoc String} {name : String}
      {inner rest : Script}
    {s t u : Draft} : (openContainer block loc name).run s = .ok within t →
      (inner.draft within loc).run t = .ok last u →
      Step ⟨block, loc, .container name inner rest, s⟩ ⟨block, last, rest, u⟩

abbrev Reaches : Station → Station → Prop := Relation.ReflTransGen Step

def start (script : Script) : Station := ⟨Design.top, .unknown, script, .empty⟩

namespace Station

def Inside (x : Station) : Prop := x.block.index < x.draft.design.blocks.size

/-- The statements that follow are carried out, and leave the draft. -/
def Ends (x : Station) (t : Draft) : Prop :=
  ∃ last, (x.rest.draft x.block x.loc).run x.draft = .ok last t

end Station

theorem Step.inside {x y : Station} (step : Step x y) (inside : x.Inside) : y.Inside := by
  cases step with
  | loc hnote => exact Design.Grows.inside inside (note_grows hnote)
  | mention hnote => exact Design.Grows.inside inside (note_grows hnote)
  | @module block loc name ports body rest level s t u hopen hbody =>
    obtain ⟨_, _, opened, grows, _, room, _⟩ := openModule_run inside loc name ports
    cases hopen.symm.trans opened
    exact Design.Grows.inside inside (grows.trans (Body.draft_grows room hbody))
  | externModule run => exact Design.Grows.inside inside (Script.draft_grows inside run)
  | enter hopen => exact (openContainer_run inside hopen).2
  | pass hopen hinner =>
    obtain ⟨grows, room⟩ := openContainer_run inside hopen
    exact Design.Grows.inside inside (grows.trans (Script.draft_grows room hinner))

/-- Where the statements that follow a station are carried out, those
after the next one are, too. -/
theorem Step.ends {x y : Station} (step : Step x y) (inside : x.Inside) {t : Draft}
    (ends : x.Ends t) : ∃ u, y.Ends u ∧ u.design.Grows t.design := by
  obtain ⟨last, run⟩ := ends
  cases step with
  | loc hnote =>
    obtain ⟨_, _, hnote', hrest⟩ := run_bind_eq_ok.1 run
    cases hnote.symm.trans hnote'
    exact ⟨t, ⟨last, hrest⟩, .refl⟩
  | mention hnote =>
    obtain ⟨_, _, hnote', hrest⟩ := run_bind_eq_ok.1 run
    cases hnote.symm.trans hnote'
    exact ⟨t, ⟨last, hrest⟩, .refl⟩
  | module hopen hbody =>
    rw [Script.draft_module_eq] at run
    obtain ⟨_, _, hopen', run⟩ := run_bind_eq_ok.1 run
    cases hopen.symm.trans hopen'
    obtain ⟨_, _, hbody', hrest⟩ := run_bind_eq_ok.1 run
    cases hbody.symm.trans hbody'
    exact ⟨t, ⟨last, hrest⟩, .refl⟩
  | externModule hadd =>
    obtain ⟨_, _, hnote, run⟩ := run_bind_eq_ok.1 run
    obtain ⟨_, _, hadd', hrest⟩ := run_bind_eq_ok.1 run
    cases hnote
    cases hadd'
    cases hadd
    exact ⟨t, ⟨last, hrest⟩, .refl⟩
  | enter hopen =>
    rw [Script.draft_container_eq] at run
    obtain ⟨_, _, hopen', run⟩ := run_bind_eq_ok.1 run
    cases hopen.symm.trans hopen'
    obtain ⟨after, u, hinner, hrest⟩ := run_bind_eq_ok.1 run
    obtain ⟨grows, room⟩ := openContainer_run inside hopen
    have opened := grows.trans (Script.draft_grows room hinner)
    have back := Design.Grows.inside inside opened
    exact ⟨u, ⟨after, hinner⟩, Script.draft_grows back hrest⟩
  | pass hopen hinner =>
    rw [Script.draft_container_eq] at run
    obtain ⟨_, _, hopen', run⟩ := run_bind_eq_ok.1 run
    cases hopen.symm.trans hopen'
    obtain ⟨_, _, hinner', hrest⟩ := run_bind_eq_ok.1 run
    cases hinner.symm.trans hinner'
    exact ⟨t, ⟨last, hrest⟩, .refl⟩

/-- **Stations.** From every station that is reached, the script is carried out to its end if it is
at all, and what is drafted there grows into the finished design. -/
theorem Reaches.ends {x y : Station} (reached : Reaches x y) (inside : x.Inside) :
    y.Inside ∧ ∀ t, x.Ends t → ∃ u, y.Ends u ∧ u.design.Grows t.design := by
  induction reached with
  | refl => exact ⟨inside, fun t ends => ⟨t, ends, .refl⟩⟩
  | tail _ step ih =>
    obtain ⟨there, further⟩ := ih
    refine ⟨step.inside there, fun t ends => ?_⟩
    obtain ⟨u, ends, grows⟩ := further t ends
    obtain ⟨v, ends, grows'⟩ := step.ends there ends
    exact ⟨v, ends, grows'.trans grows⟩

end Script

end DebugHierarchy
