import DebugHierarchy.Proofs.Wrapping
import DebugHierarchy.Proofs.Sharing
import DebugHierarchy.Proofs.Numbering
import DebugHierarchy.Proofs.PlaceTexts

/-!
Where the operations of a script lie.

A location that is set holds for the operations that follow on its level. A module body and a
region open a level of their own, which starts with the location around it and keeps its changes
to itself; a container opens none.

* `Deed`: what statements do, one thing after the other, with the levels they open and close;
* `Deed.inForce`: the location in force after some deeds, found by looking back;
* `Script.run_placed`: every operation lies where the deeds before it say;
* `Script.Resets`: two scripts that differ in the locations they set;
* `places_follow_levels`: what sets the locations of operations, and what setting one leaves alone.
-/

namespace DebugHierarchy

open Drafting

variable {ν μ : Type}

/-- What statements do one after the other. -/
inductive Deed where
  /-- Sets the location of the level. -/
  | place (loc : SourceLoc String)
  /-- Makes an operation of a kind. -/
  | make (mnemonic : String)
  /-- Opens a level within the present one. -/
  | enter
  /-- Closes the present level. -/
  | leave
  deriving DecidableEq, Repr

def Leaf.mnemonic : Leaf → String
  | .inst .. => "hw.instance"
  | .wire .. => "hw.wire"
  | .output .. => "hw.output"
  | .dbgVariable .. => "dbg.variable"
  | .dbgScope .. => "dbg.scope"
  | .moduleInfo .. => "dbg.moduleinfo"
  | .enumDef .. => "dbg.enumdef"
  | .other .. => "opaque"

/-- What the statements of a body do. A region opens a level. -/
def Body.deeds : Body → List Deed
  | .done => []
  | .loc place rest => .place (place.getD .unknown) :: rest.deeds
  | .mention _ rest => rest.deeds
  | .leaf _ statement rest => .make statement.mnemonic :: rest.deeds
  | .region _ inner rest => .make "opaque" :: .enter :: (inner.deeds ++ .leave :: rest.deeds)

/-- What the statements of a script do. The body of a module opens a level, a container does not. -/
def Script.deeds : Script → List Deed
  | .done => []
  | .loc place rest => .place (place.getD .unknown) :: rest.deeds
  | .mention _ rest => rest.deeds
  | .module _ _ body rest => .make "hw.module" :: .enter :: (body.deeds ++ .leave :: rest.deeds)
  | .externModule _ _ rest => .make "hw.module.extern" :: rest.deeds
  | .container _ inner rest => .make "opaque" :: (inner.deeds ++ rest.deeds)

namespace Deed

/-- The location in force after some deeds, the latest one first: the one that was set latest on the
same level, or else the one in force around the level when it was opened. The deeds on `depth`
levels do not count, which were closed again. -/
def inForce : Nat → List Deed → SourceLoc String
  | _, [] => .unknown
  | 0, .place loc :: _ => loc
  | depth + 1, .place _ :: before => inForce (depth + 1) before
  | depth, .make _ :: before => inForce depth before
  | 0, .enter :: before => inForce 0 before
  | depth + 1, .enter :: before => inForce depth before
  | depth, .leave :: before => inForce (depth + 1) before

def makes (deeds : List Deed) : Nat :=
  deeds.countP fun deed => deed matches .make _

/-- The kinds and locations of the operations that deeds make, after those of
`before`, the latest one first. -/
def made (before : List Deed) : List Deed → List (String × SourceLoc String)
  | [] => []
  | .make mnemonic :: rest => (mnemonic, inForce 0 before) :: made (.make mnemonic :: before) rest
  | .place loc :: rest => made (.place loc :: before) rest
  | .enter :: rest => made (.enter :: before) rest
  | .leave :: rest => made (.leave :: before) rest

variable {before deeds : List Deed} {depth : Nat}

@[simp] theorem inForce_place (loc : SourceLoc String) : inForce 0 (.place loc :: before) = loc :=
  rfl

@[simp] theorem inForce_place_succ (loc : SourceLoc String) :
    inForce (depth + 1) (.place loc :: before) = inForce (depth + 1) before := rfl

@[simp] theorem inForce_make (mnemonic : String) :
    inForce depth (.make mnemonic :: before) = inForce depth before := by
  cases depth <;> rfl

@[simp] theorem inForce_enter : inForce 0 (.enter :: before) = inForce 0 before := rfl

@[simp] theorem inForce_enter_succ :
    inForce (depth + 1) (.enter :: before) = inForce depth before := rfl

@[simp] theorem inForce_leave : inForce depth (.leave :: before) = inForce (depth + 1) before := by
  cases depth <;> rfl

theorem made_append (first next : List Deed) :
    made before (first ++ next) = made before first ++ made (first.reverse ++ before) next := by
  induction first generalizing before with
  | nil => rfl
  | cons deed rest ih => cases deed <;> simp [made, ih]

theorem length_made (deeds : List Deed) : (made before deeds).length = makes deeds := by
  induction deeds generalizing before with
  | nil => rfl
  | cons deed rest ih => cases deed <;> simp [made, makes] at ih ⊢ <;> simp [ih]

/-- Only what is in force matters to the operations that follow. -/
theorem made_congr {other : List Deed} (same : ∀ depth, inForce depth other = inForce depth before)
    (deeds : List Deed) : made other deeds = made before deeds := by
  induction deeds generalizing before other with
  | nil => rfl
  | cons deed rest ih =>
    have next : ∀ depth, inForce depth (deed :: other) = inForce depth (deed :: before) := by
      intro depth
      cases deed <;> cases depth <;> simp [same]
    cases deed <;> simp [made, same 0, ih next]

theorem getElem?_made (first next : List Deed) (mnemonic : String) :
    (made [] (first ++ .make mnemonic :: next))[makes first]? =
      some (mnemonic, inForce 0 first.reverse) := by
  rw [made_append, List.getElem?_append_right (by rw [length_made]), length_made,
    Nat.sub_self, made, List.append_nil]
  rfl

end Deed

open Deed (inForce inForce_enter inForce_enter_succ inForce_leave inForce_make made
    made_append made_congr
  makes length_made getElem?_made)

/-- What is done in a body or region counts for nothing once its level is closed. -/
theorem Body.inForce_deeds (body : Body) (depth : Nat) (before : List Deed) :
    inForce (depth + 1) (body.deeds.reverse ++ before) = inForce (depth + 1) before := by
  induction body generalizing depth before with
  | done => rfl
  | loc place rest ih => simp [deeds, ih]
  | mention s rest ih => exact ih depth before
  | leaf label statement rest ih => simp [deeds, ih]
  | region name inner rest ihInner ihRest => simp [deeds, ihInner, ihRest]

/-- Where a level is closed, what was in force when it was opened is in force again. -/
theorem Body.inForce_level (body : Body) (depth : Nat) (before : List Deed) :
    inForce depth (.leave :: (body.deeds.reverse ++ .enter :: before)) = inForce depth before := by
  rw [inForce_leave, inForce_deeds, inForce_enter_succ]

namespace Design

def placed (d : Design ν) : List (String × SourceLoc ν) :=
  d.ops.toList.map fun op => (op.payload.mnemonic, op.loc)

theorem placed_addOp (d : Design ν) (b : BlockId) (loc : SourceLoc ν) (payload : Payload ν)
    (results : Nat) :
    (d.addOp b loc payload results).2.placed = d.placed ++ [(payload.mnemonic, loc)] := by
  simp [placed, addOp, addValues]

theorem placed_addOwner (d : Design ν) (b : BlockId) (loc : SourceLoc ν)
    (payload : BlockId → Payload ν) (args : Nat) : (d.addOwner b loc payload args).2.placed =
      d.placed ++ [((payload ⟨d.blocks.size⟩).mnemonic, loc)] := by
  simp [placed, addOwner, addOp, addValues]

end Design

theorem Leaf.payload_mnemonic {inputs : List ValueId} {statement : Leaf} {s t : Draft}
    {payload : Payload String} (run : (statement.payload (read inputs)).run s = .ok payload t) :
    payload.mnemonic = statement.mnemonic := by
  cases statement with
  | inst | wire | output | other =>
    obtain ⟨values, u, _, last⟩ := run_bind_eq_ok.1 run
    cases last
    rfl
  | dbgVariable note =>
    obtain ⟨value, u, _, run⟩ := run_bind_eq_ok.1 run
    obtain ⟨scope, v, _, run⟩ := run_bind_eq_ok.1 run
    obtain ⟨enum, w, _, last⟩ := run_bind_eq_ok.1 run
    cases last
    rfl
  | dbgScope note =>
    obtain ⟨scope, u, _, last⟩ := run_bind_eq_ok.1 run
    cases last
    rfl
  | moduleInfo | enumDef => cases run; rfl

section Runs

variable {s t : Draft} {before : List Deed}

theorem Leaf.draft_placed {level : Level} {label : Option String} {statement : Leaf}
    (run : (statement.draft level label).run s = .ok () t) :
    t.design.placed = s.design.placed ++ [(statement.mnemonic, level.loc)] := by
  obtain ⟨payload, u, hread, run⟩ := run_bind_eq_ok.1 run
  obtain ⟨_, v, hnote, hadd⟩ := run_bind_eq_ok.1 run
  obtain ⟨rfl, _⟩ := Leaf.payload_spec hread
  rw [addOp_design hadd, Design.placed_addOp, note_design hnote, Leaf.payload_mnemonic hread]

/-- The operations of a body lie where its deeds say. -/
theorem Body.draft_placed {body : Body} {level : Level} (here : inForce 0 before = level.loc)
    (run : (body.draft level).run s = .ok () t) :
    t.design.placed = s.design.placed ++ made before body.deeds := by
  induction body generalizing level s t before with
  | done => cases run; exact (List.append_nil _).symm
  | loc place rest ih =>
    obtain ⟨_, u, hnote, hrest⟩ := run_bind_eq_ok.1 run
    have set : inForce 0 (.place (place.getD .unknown) :: before) = place.getD .unknown := rfl
    rw [ih set hrest, note_design hnote]
    rfl
  | mention s rest ih =>
    obtain ⟨_, u, hnote, hrest⟩ := run_bind_eq_ok.1 run
    rw [ih here hrest, note_design hnote]
    rfl
  | leaf label statement rest ih =>
    obtain ⟨_, u, hleaf, hrest⟩ := run_bind_eq_ok.1 run
    have next : inForce 0 (.make statement.mnemonic :: before) = level.loc := by
      rw [inForce_make, here]
    rw [ih next hrest, Leaf.draft_placed hleaf, List.append_assoc, ← here]
    rfl
  | region name inner rest ihInner ihRest =>
    obtain ⟨_, u, hnote, run⟩ := run_bind_eq_ok.1 run
    obtain ⟨block, v, howner, run⟩ := run_bind_eq_ok.1 run
    obtain ⟨_, w, hinner, hrest⟩ := run_bind_eq_ok.1 run
    obtain ⟨rfl, grown⟩ := addOwner_design howner
    let inside : Level := { level with block := ⟨u.design.blocks.size⟩ }
    have opened : inForce 0 (.enter :: .make "opaque" :: before) = inside.loc := by
      rw [inForce_enter, inForce_make, here]
    have closed : inForce 0
        (.leave :: (inner.deeds.reverse ++ .enter :: .make "opaque" :: before)) = level.loc := by
      rw [inner.inForce_level, inForce_make, here]
    rw [ihRest closed hrest, ihInner opened hinner, grown, Design.placed_addOwner,
      note_design hnote, ← here]
    simp [deeds, made, made_append, Payload.mnemonic]

/-- The operations of a script lie where its deeds say. -/
theorem Script.draft_placed {script : Script} {block : BlockId} {loc last : SourceLoc String}
    (here : inForce 0 before = loc) (run : (script.draft block loc).run s = .ok last t) :
    t.design.placed = s.design.placed ++ made before script.deeds ∧
      inForce 0 (script.deeds.reverse ++ before) = last := by
  induction script generalizing block loc last s t before with
  | done => cases run; exact ⟨(List.append_nil _).symm, here⟩
  | loc place rest ih =>
    obtain ⟨_, u, hnote, hrest⟩ := run_bind_eq_ok.1 run
    have set : inForce 0 (.place (place.getD .unknown) :: before) = place.getD .unknown := rfl
    obtain ⟨placed, after⟩ := ih set hrest
    rw [placed, note_design hnote, ← after]
    exact ⟨rfl, by simp [deeds]⟩
  | mention s rest ih =>
    obtain ⟨_, u, hnote, hrest⟩ := run_bind_eq_ok.1 run
    obtain ⟨placed, after⟩ := ih here hrest
    rw [placed, note_design hnote]
    exact ⟨rfl, after⟩
  | module name ports body rest ih =>
    obtain ⟨_, u, hnote, run⟩ := run_bind_eq_ok.1 run
    obtain ⟨region, v, howner, run⟩ := run_bind_eq_ok.1 run
    obtain ⟨drafted, w, hget, run⟩ := run_bind_eq_ok.1 run
    obtain ⟨_, x, hbody, hrest⟩ := run_bind_eq_ok.1 run
    cases hget
    obtain ⟨rfl, grown⟩ := addOwner_design howner
    have opened : inForce 0 (.enter :: .make "hw.module" :: before) = loc := by
      rw [inForce_enter, inForce_make, here]
    have closed : inForce 0
        (.leave :: (body.deeds.reverse ++ .enter :: .make "hw.module" :: before)) = loc := by
      rw [body.inForce_level, inForce_make, here]
    obtain ⟨placed, after⟩ := ih closed hrest
    rw [placed, Body.draft_placed opened hbody, grown, Design.placed_addOwner,
      note_design hnote, ← here, ← after]
    simp [deeds, made, made_append, Payload.mnemonic]
  | externModule name ports rest ih =>
    obtain ⟨_, u, hnote, run⟩ := run_bind_eq_ok.1 run
    obtain ⟨_, v, hadd, hrest⟩ := run_bind_eq_ok.1 run
    have next : inForce 0 (.make "hw.module.extern" :: before) = loc := by rw [inForce_make, here]
    obtain ⟨placed, after⟩ := ih next hrest
    rw [placed, addOp_design hadd, Design.placed_addOp, note_design hnote, ← here, ← after]
    simp [deeds, made, Payload.mnemonic]
  | container name inner rest ihInner ihRest =>
    obtain ⟨_, u, hnote, run⟩ := run_bind_eq_ok.1 run
    obtain ⟨region, v, howner, run⟩ := run_bind_eq_ok.1 run
    obtain ⟨left, w, hinner, hrest⟩ := run_bind_eq_ok.1 run
    obtain ⟨rfl, grown⟩ := addOwner_design howner
    have next : inForce 0 (.make "opaque" :: before) = loc := by rw [inForce_make, here]
    obtain ⟨within, between⟩ := ihInner next hinner
    obtain ⟨placed, after⟩ := ihRest between hrest
    rw [placed, within, grown, Design.placed_addOwner, note_design hnote, ← here, ← after]
    simp [deeds, made, made_append, Payload.mnemonic]

/-- **Places of operations.** A script makes operations of the kinds and at
the places that its deeds say. -/
theorem Script.run_placed {script : Script} {last : SourceLoc String}
    (run : script.run = .ok last t) : t.design.placed = made [] script.deeds := by
  have nowhere : inForce 0 [] = .unknown := rfl
  have placed := (Script.draft_placed nowhere run).1
  rwa [show Draft.empty.design.placed = [] from rfl, List.nil_append] at placed

end Runs

/-! ### Other locations -/

def Body.mentions : Body → List String
  | .done => []
  | .loc place rest => placeMentions place ++ rest.mentions
  | .mention s rest => s :: rest.mentions
  | .leaf _ statement rest => statement.mentions ++ rest.mentions
  | .region name inner rest => name :: (inner.mentions ++ rest.mentions)

def Script.mentions : Script → List String
  | .done => []
  | .loc place rest => placeMentions place ++ rest.mentions
  | .mention s rest => s :: rest.mentions
  | .module name ports body rest => PortDecl.mentions name ports ++ (body.mentions ++ rest.mentions)
  | .externModule name ports rest => PortDecl.mentions name ports ++ rest.mentions
  | .container name inner rest => name :: (inner.mentions ++ rest.mentions)

def NameTable.HasFile (names : NameTable) (place : Option (SourceLoc String)) : Prop :=
  ∀ file ∈ placeMentions place, file ∈ names.strings

/-- Two bodies that differ only in the locations they set. The file of a location that one of them
does not set is known to the table by then, which is `names` before the statements. -/
inductive Body.Resets : NameTable → Body → Body → Prop
  | done {names : NameTable} : Resets names .done .done
  | inserted {names : NameTable} (place : Option (SourceLoc String)) {rest rest' : Body} :
      names.HasFile place →
    Resets names rest rest' → Resets names rest (.loc place rest')
  | deleted {names : NameTable} (place : Option (SourceLoc String)) {rest rest' : Body} :
      names.HasFile place →
    Resets names rest rest' → Resets names (.loc place rest) rest'
  | loc {names : NameTable} (place : Option (SourceLoc String)) {rest rest' : Body} :
    Resets (names.addAll (placeMentions place)) rest rest' →
      Resets names (.loc place rest) (.loc place rest')
  | mention {names : NameTable} (s : String) {rest rest' : Body} :
      Resets (names.addAll [s]) rest rest' →
    Resets names (.mention s rest) (.mention s rest')
  | leaf {names : NameTable} (label : Option String) (statement : Leaf) {rest rest' : Body} :
    Resets (names.addAll statement.mentions) rest rest' →
      Resets names (.leaf label statement rest) (.leaf label statement rest')
  | region {names : NameTable} (name : String) {inner inner' rest rest' : Body} :
    Resets (names.addAll [name]) inner inner' →
      Resets ((names.addAll [name]).addAll inner.mentions) rest rest' →
      Resets names (.region name inner rest) (.region name inner' rest')

/-- Two scripts that differ only in the locations they set, those in their bodies included. -/
inductive Script.Resets : NameTable → Script → Script → Prop
  | done {names : NameTable} : Resets names .done .done
  | inserted {names : NameTable} (place : Option (SourceLoc String)) {rest rest' : Script} :
      names.HasFile place →
    Resets names rest rest' → Resets names rest (.loc place rest')
  | deleted {names : NameTable} (place : Option (SourceLoc String)) {rest rest' : Script} :
      names.HasFile place →
    Resets names rest rest' → Resets names (.loc place rest) rest'
  | loc {names : NameTable} (place : Option (SourceLoc String)) {rest rest' : Script} :
    Resets (names.addAll (placeMentions place)) rest rest' →
      Resets names (.loc place rest) (.loc place rest')
  | mention {names : NameTable} (s : String) {rest rest' : Script} :
      Resets (names.addAll [s]) rest rest' →
    Resets names (.mention s rest) (.mention s rest')
  | module {names : NameTable} (name : String) (ports : List PortDecl) {body body' : Body}
      {rest rest' : Script} :
    body.Resets (names.addAll (PortDecl.mentions name ports)) body' →
      Resets ((names.addAll (PortDecl.mentions name ports)).addAll body.mentions) rest rest' →
        Resets names (.module name ports body rest) (.module name ports body' rest')
  | externModule {names : NameTable} (name : String) (ports : List PortDecl) {rest rest' : Script} :
    Resets (names.addAll (PortDecl.mentions name ports)) rest rest' →
      Resets names (.externModule name ports rest) (.externModule name ports rest')
  | container {names : NameTable} (name : String) {inner inner' rest rest' : Script} :
    Resets (names.addAll [name]) inner inner' →
      Resets ((names.addAll [name]).addAll inner.mentions) rest rest' →
      Resets names (.container name inner rest) (.container name inner' rest')

/-- Everything about an operation but its location. -/
def Operation.content (o : Operation ν) : Payload ν × List ValueId × BlockId :=
  (o.payload, o.results, o.parent)

/-- Two designs that differ at most in the locations of operations. -/
structure Design.SameContent (d e : Design ν) : Prop where
  ops : e.ops.map Operation.content = d.ops.map Operation.content
  blocks : e.blocks = d.blocks
  values : e.values = d.values

namespace Design.SameContent

variable {d e : Design ν}

theorem size (same : d.SameContent e) : e.ops.size = d.ops.size := by
  simpa using congrArg Array.size same.ops

theorem addOp (same : d.SameContent e) (b : BlockId) (loc loc' : SourceLoc ν) (payload : Payload ν)
    (results : Nat) : (d.addOp b loc payload results).2.SameContent
      (e.addOp b loc' payload results).2 := by
  constructor <;> simp [Design.addOp, addValues, Operation.content, same.size, same.blocks,
    same.values, same.ops]

theorem addOwner (same : d.SameContent e) (b : BlockId) (loc loc' : SourceLoc ν)
    (payload : BlockId → Payload ν) (args : Nat) :
    (d.addOwner b loc payload args).2.SameContent (e.addOwner b loc' payload args).2 := by
  constructor <;>
    simp [Design.addOwner, Design.addOp, addValues, Operation.content, same.size,
      same.blocks, same.values, same.ops]

/-- Locations have no part in what values and blocks there are. -/
theorem twins (same : d.SameContent e) : d.Twins ⟨id, id, id⟩ e where
  ops i := by rw [same.size]; rfl
  blocks i := by rw [same.blocks]; rfl
  values i := by rw [same.values]; rfl
  args b := by
    have args : e.argsAt? b = d.argsAt? b := by rw [argsAt?, argsAt?, same.blocks]
    rw [show (⟨id, id, id⟩ : Renumbering).block b = b from rfl, args]
    cases d.argsAt? b <;> simp
  producers v := by simp [same.values]

theorem map (same : d.SameContent e) (f : ν → μ) : (d.map f).SameContent (e.map f) where
  ops := by
    have content : (Operation.content ∘ Operation.map f : Operation ν → _) =
        (fun c => (c.1.map f, c.2)) ∘ Operation.content := rfl
    simp only [Design.map, Array.map_map, content]
    rw [← Array.map_map, same.ops, Array.map_map]
  blocks := same.blocks
  values := same.values

/-- Where the locations agree, too, the operations are the same. -/
theorem getElem? (same : d.SameContent e) {i : Nat} (placed : e.placed[i]? = d.placed[i]?) :
    e.ops[i]? = d.ops[i]? := by
  have content : e.ops[i]?.map Operation.content = d.ops[i]?.map Operation.content := by
    rw [← Array.getElem?_map, ← Array.getElem?_map, same.ops]
  simp only [Design.placed, List.getElem?_map, Array.getElem?_toList] at placed
  generalize e.ops[i]? = here at content placed ⊢
  generalize d.ops[i]? = there at content placed ⊢
  match here, there with
  | none, none => rfl
  | some ⟨_, _, _, _⟩, some ⟨_, _, _, _⟩ => simp_all [Operation.content]

end Design.SameContent

namespace NameTable

theorem addAll_append (t : NameTable) (first next : List String) :
    t.addAll (first ++ next) = (t.addAll first).addAll next := List.foldl_append

theorem addAll_of_mem {t : NameTable} {ss : List String} (known : ∀ s ∈ ss, s ∈ t.strings) :
    t.addAll ss = t := by
  induction ss with
  | nil => rfl
  | cons s rest ih =>
    rw [show t.addAll (s :: rest) = (t.add s).addAll rest from rfl,
      add_of_mem (known s List.mem_cons_self)]
    exact ih fun r hr => known r (List.mem_cons_of_mem s hr)

end NameTable

/-- Two drafts that differ in the locations of operations only, and that leave a table that knows
`known` with the names in `names`. -/
structure Draft.Matches (known names : NameTable) (s s' : Draft) : Prop where
  designs : s.design.SameContent s'.design
  labels : s'.labels = s.labels
  left : known.addAll s.mentions.toList = names
  right : known.addAll s'.mentions.toList = names

/-- A step that always ends well may stand before the first of two steps. -/
theorem Drafting.Together.first {α β γ : Type} {x : Drafting α} {k : α → Drafting γ}
    {y : Drafting β} {s s' t : Draft} {a : α} {post : γ → β → Draft → Draft → Prop}
    (run : x.run s = .ok a t) (next : Together (k a) y t s' post) :
    Together (x >>= k) y s s' post := by
  unfold Together at next ⊢
  rwa [EStateM.run_bind, run]

theorem Drafting.mentions_addOp {block : BlockId} {loc : SourceLoc String}
    {payload : Payload String} {results : Nat} {label : Option String} {s t : Draft}
    (run : (addOp block loc payload results label).run s = .ok () t) : t.mentions = s.mentions := by
  cases run
  dsimp only
  split <;> rfl

section Matching

variable {known names : NameTable} {s s' : Draft}

namespace Draft.Matches

/-- The same strings are noted in both. -/
theorem note (like : s.Matches known names s') (ss : List String) :
    Together (note ss) (note ss) s s' fun _ _ t t' => t.Matches known (names.addAll ss) t' := by
  refine ⟨like.designs, like.labels, ?_, ?_⟩
  · simp [NameTable.addAll_append, like.left]
  · simp [NameTable.addAll_append, like.right]

/-- A file that is known is noted in one of the two. -/
theorem noteLeft (like : s.Matches known names s') {place : Option (SourceLoc String)}
    (has : names.HasFile place) :
    ∃ t, (Drafting.note (placeMentions place)).run s = .ok () t ∧ t.Matches known names s' := by
  refine ⟨_, rfl, like.designs, like.labels, ?_, like.right⟩
  simp [NameTable.addAll_append, like.left, NameTable.addAll_of_mem has]

theorem noteRight (like : s.Matches known names s') {place : Option (SourceLoc String)}
    (has : names.HasFile place) :
    ∃ t', (Drafting.note (placeMentions place)).run s' = .ok () t' ∧ s.Matches known names t' := by
  refine ⟨_, rfl, like.designs, like.labels, like.left, ?_⟩
  simp [NameTable.addAll_append, like.right, NameTable.addAll_of_mem has]

theorem addOp (like : s.Matches known names s') (b : BlockId) (loc loc' : SourceLoc String)
    (payload : Payload String) (results : Nat) (label : Option String) :
    Together (addOp b loc payload results label) (addOp b loc' payload results label) s s'
      fun _ _ t t' => t.Matches known names t' := by
  obtain ⟨t, run⟩ : ∃ t, (Drafting.addOp b loc payload results label).run s = .ok () t := ⟨_, rfl⟩
  obtain ⟨t', run'⟩ : ∃ t', (Drafting.addOp b loc' payload results label).run s' = .ok () t' :=
    ⟨_, rfl⟩
  refine .of_ok run run' ⟨?_, ?_, ?_, ?_⟩
  · rw [addOp_design run, addOp_design run']
    exact like.designs.addOp b loc loc' payload results
  · rw [addOp_labels run, addOp_labels run', like.labels, like.designs.values]
  · rw [mentions_addOp run, like.left]
  · rw [mentions_addOp run', like.right]

theorem addOwner (like : s.Matches known names s') (b : BlockId) (loc loc' : SourceLoc String)
    (payload : BlockId → Payload String) (args : Nat) :
    Together (addOwner b loc payload args) (addOwner b loc' payload args) s s' fun r r' t t' =>
      r' = r ∧ t.Matches known names t' := by
  refine ⟨?_, like.designs.addOwner b loc loc' payload args, like.labels, like.left, like.right⟩
  simp [like.designs.blocks]

end Draft.Matches

/-- A statement that makes one operation makes it in both. -/
theorem Leaf.draft_matches (like : s.Matches known names s') (level : Level)
    (loc : SourceLoc String) (label : Option String) (statement : Leaf) :
    Together (statement.draft level label) (statement.draft { level with loc } label) s s'
      fun _ _ t t' => t.Matches known (names.addAll statement.mentions) t' := by
  have twins : s.Twins ⟨id, id, id⟩ Set.univ s' := by
    refine ⟨like.designs.twins, fun l _ => ?_⟩
    rw [like.labels]
    exact (congrFun Option.map_id _).symm
  have sure : ∀ ref ∈ statement.refs, ref.Sure ⟨id, id, id⟩ Set.univ := by
    rintro (index | l | v) _
    · trivial
    · trivial
    · rfl
  have seen := Leaf.payload_sees twins level.inputs sure
  rw [show level.inputs.map (⟨id, id, id⟩ : Renumbering).value =
    level.inputs from List.map_id _] at seen
  refine Together.bind seen fun {payload payload' _ _} _ found => ?_
  obtain ⟨same, rfl, rfl⟩ := found
  rw [Payload.renumber_fixed (fun _ => rfl) fun _ _ => rfl] at same
  cases same
  refine (like.note statement.mentions).bind fun _ noted => ?_
  exact noted.addOp level.block level.loc loc payload statement.results label

/-- **Other locations in a body.** Bodies that differ in the locations they set make operations
that differ in their locations. -/
theorem Body.Resets.draft {body body' : Body} (resets : body.Resets names body')
    (like : s.Matches known names s') (level : Level) (loc : SourceLoc String) :
    Together (body.draft level) (body'.draft { level with loc }) s s'
      fun _ _ t t' => t.Matches known (names.addAll body.mentions) t' := by
  induction resets generalizing s s' level loc with
  | done => exact .pure like
  | inserted place has _ ih =>
    obtain ⟨t', run, like⟩ := like.noteRight has
    exact .second run (ih like level (place.getD .unknown))
  | deleted place has _ ih =>
    obtain ⟨t, run, like⟩ := like.noteLeft has
    rw [mentions, NameTable.addAll_append, NameTable.addAll_of_mem has]
    exact .first run (ih like { level with loc := place.getD .unknown } loc)
  | loc place _ ih =>
    rw [mentions, NameTable.addAll_append]
    exact (like.note (placeMentions place)).bind fun _ noted =>
      ih noted { level with loc := place.getD .unknown } (place.getD .unknown)
  | mention text _ ih =>
    exact (like.note [text]).bind fun _ noted => ih noted level loc
  | leaf label statement _ ih =>
    rw [mentions, NameTable.addAll_append]
    exact (Leaf.draft_matches like level loc label statement).bind fun _ made => ih made level loc
  | @region names name inner inner' rest rest' _ _ ihInner ihRest =>
    rw [mentions, show names.addAll (name :: (inner.mentions ++ rest.mentions)) =
      (names.addAll [name]).addAll (inner.mentions ++ rest.mentions) from rfl,
      NameTable.addAll_append]
    refine (like.note [name]).bind fun _ noted => ?_
    refine (noted.addOwner level.block level.loc loc _ 0).bind fun {_ block _ _} _ owned => ?_
    obtain ⟨rfl, opened⟩ := owned
    refine (ihInner opened { level with block } loc).bind fun _ filled => ?_
    exact ihRest filled level loc

/-- **Other locations in a script.** Scripts that differ in the locations they set make designs that
differ in the locations of operations, with names from the same table. -/
theorem Script.Resets.draft {script script' : Script} (resets : script.Resets names script')
    (like : s.Matches known names s') (block : BlockId) (loc loc' : SourceLoc String) :
    Together (script.draft block loc) (script'.draft block loc') s s'
      fun _ _ t t' => t.Matches known (names.addAll script.mentions) t' := by
  induction resets generalizing s s' block loc loc' with
  | done => exact .pure like
  | inserted place has _ ih =>
    obtain ⟨t', run, like⟩ := like.noteRight has
    exact .second run (ih like block loc (place.getD .unknown))
  | deleted place has _ ih =>
    obtain ⟨t, run, like⟩ := like.noteLeft has
    rw [mentions, NameTable.addAll_append, NameTable.addAll_of_mem has]
    exact .first run (ih like block (place.getD .unknown) loc')
  | loc place _ ih =>
    rw [mentions, NameTable.addAll_append]
    exact (like.note (placeMentions place)).bind fun _ noted => ih noted block _ _
  | mention text _ ih =>
    exact (like.note [text]).bind fun _ noted => ih noted block loc loc'
  | module name ports bodies _ ih =>
    rw [mentions, NameTable.addAll_append, NameTable.addAll_append]
    refine (like.note (PortDecl.mentions name ports)).bind fun _ noted => ?_
    refine (noted.addOwner block loc loc' _ _).bind fun {_ region t t'} _ owned => ?_
    obtain ⟨rfl, opened⟩ := owned
    have inputs : t'.design.argsOf region = t.design.argsOf region := by
      rw [Design.argsOf, Design.argsOf, opened.designs.blocks]
    refine .first rfl (.second rfl ?_)
    rw [inputs]
    refine (bodies.draft opened ⟨region, t.design.argsOf region, loc⟩ loc').bind fun _ filled => ?_
    exact ih filled block loc loc'
  | externModule name ports _ ih =>
    rw [mentions, NameTable.addAll_append]
    refine (like.note (PortDecl.mentions name ports)).bind fun _ noted => ?_
    exact (noted.addOp block loc loc' _ 0 none).bind fun _ made => ih made block loc loc'
  | @container names name inner inner' rest rest' _ _ ihInner ihRest =>
    rw [mentions, show names.addAll (name :: (inner.mentions ++ rest.mentions)) =
      (names.addAll [name]).addAll (inner.mentions ++ rest.mentions) from rfl,
      NameTable.addAll_append]
    refine (like.note [name]).bind fun _ noted => ?_
    refine (noted.addOwner block loc loc' _ 0).bind fun {_ region _ _} _ owned => ?_
    obtain ⟨rfl, opened⟩ := owned
    refine (ihInner opened region loc loc').bind fun _ filled => ?_
    exact ihRest filled block _ _

end Matching

/-- The operations made on a level that was opened and closed again may
lie elsewhere, no others do. -/
theorem getElem?_made_of_outside {before after : List Deed} {inner inner' : Body}
    (counts : makes inner'.deeds = makes inner.deeds) {i : Nat}
    (outside : i < makes before ∨ makes before + makes inner.deeds ≤ i) :
    (made [] (before ++ .enter :: (inner'.deeds ++ .leave :: after)))[i]? =
      (made [] (before ++ .enter :: (inner.deeds ++ .leave :: after)))[i]? := by
  have split (body : Body) : made [] (before ++ .enter :: (body.deeds ++ .leave :: after)) =
      made [] before ++ (made (.enter :: before.reverse) body.deeds ++
        made before.reverse after) := by
    have closed (depth : Nat) :
        inForce depth (.leave :: (body.deeds.reverse ++ .enter :: before.reverse)) =
        inForce depth before.reverse := body.inForce_level depth before.reverse
    rw [made_append, List.append_nil, made, made_append, made, made_congr closed]
  rw [split, split]
  rcases outside with early | late
  · rw [List.getElem?_append_left (by rwa [length_made]),
      List.getElem?_append_left (by rwa [length_made])]
  · have past : (made [] before).length ≤ i := by rw [length_made]; omega
    rw [List.getElem?_append_right past, List.getElem?_append_right past, length_made,
      List.getElem?_append_right (by rw [length_made]; omega),
      List.getElem?_append_right (by rw [length_made]; omega), length_made, length_made, counts]

namespace Script

theorem deeds_append (first next : Script) : (first ++ next).deeds = first.deeds ++ next.deeds := by
  induction first with
  | done => rfl
  | loc place rest ih => exact congrArg (.place (place.getD .unknown) :: ·) ih
  | mention s rest ih => exact ih
  | module name ports body rest ih =>
    show Deed.make "hw.module" :: .enter :: (body.deeds ++ .leave :: (rest ++ next).deeds) = _
    simp [deeds, ih]
  | externModule name ports rest ih => exact congrArg (.make "hw.module.extern" :: ·) ih
  | container name inner rest _ ih =>
    show Deed.make "opaque" :: (inner.deeds ++ (rest ++ next).deeds) = _
    simp [deeds, ih]

/-- No statement on the level of the script sets the location, whatever
the bodies of its modules do. -/
def Unplaced : Script → Prop
  | .done => True
  | .loc .. => False
  | .mention _ rest | .module _ _ _ rest | .externModule _ _ rest => rest.Unplaced
  | .container _ inner rest => inner.Unplaced ∧ rest.Unplaced

theorem Unplaced.inForce_eq {script : Script} (unplaced : script.Unplaced) (before : List Deed) :
    inForce 0 (script.deeds.reverse ++ before) = inForce 0 before := by
  induction script generalizing before with
  | done => rfl
  | loc => exact unplaced.elim
  | mention s rest ih => exact ih unplaced before
  | module name ports body rest ih =>
    have closed := body.inForce_level 0 (.make "hw.module" :: before)
    simp only [deeds, List.reverse_cons, List.reverse_append, List.append_assoc, List.cons_append,
      List.nil_append]
    rw [ih unplaced, closed, inForce_make]
  | externModule name ports rest ih =>
    simp only [deeds, List.reverse_cons, List.append_assoc, List.cons_append, List.nil_append]
    rw [ih unplaced, inForce_make]
  | container name inner rest ihInner ihRest =>
    simp only [deeds, List.reverse_cons, List.reverse_append, List.append_assoc, List.cons_append,
      List.nil_append]
    rw [ihRest unplaced.2, ihInner unplaced.1, inForce_make]

/-- A container leaves behind the location that was set in it. -/
theorem inForce_container (name : String) (inner : Script) (place : Option (SourceLoc String))
    {quiet between : Script} (still : quiet.Unplaced) (silent : between.Unplaced)
    (before : List Deed) :
    inForce 0 ((container name (inner ++ .loc place quiet) between).deeds.reverse ++ before) =
      place.getD .unknown := by
  simp only [deeds, deeds_append, List.reverse_cons, List.reverse_append, List.append_assoc,
    List.cons_append, List.nil_append]
  rw [silent.inForce_eq, still.inForce_eq]
  rfl

end Script

/-- The design has an operation for everything that is made, of the kind that is made, and at the
place that the deeds before it put in force. -/
structure Design.PlacedBy (names : NameTable) (deeds : List Deed) (d : Design Name) : Prop where
  count : d.ops.size = makes deeds
  places : ∀ before mnemonic after, deeds = before ++ .make mnemonic :: after → ∃ op,
    d.ops[makes before]? = some op ∧ op.payload.mnemonic = mnemonic ∧
      op.loc.read names = .ok (inForce 0 before.reverse)

section Build

variable {script script' : Script} {known learned : NameTable} {d : Design Name}

theorem Script.build_placedBy (built : script.build known = (.ok d, learned)) :
    d.PlacedBy learned script.deeds := by
  obtain ⟨last, t, run, reads⟩ := script.build_reads built
  have placed := script.run_placed run
  have ops : d.ops.map (Operation.map learned.text) = t.design.ops.map (Operation.map .ok) :=
    congrArg Design.ops reads
  refine ⟨?_, fun before mnemonic after split => ?_⟩
  · have drafted : t.design.ops.size = makes script.deeds := by
      rw [← length_made, ← placed, Design.placed, List.length_map, Array.length_toList]
    rw [← drafted]
    simpa using congrArg Array.size ops
  · have here := getElem?_made before after mnemonic
    rw [← split, ← placed, Design.placed, List.getElem?_map, Option.map_eq_some_iff] at here
    obtain ⟨o, there, same⟩ := here
    simp only [Prod.mk.injEq] at same
    have one := congrArg (·[makes before]?) ops
    simp only [Array.getElem?_map] at one
    rw [Array.getElem?_toList] at there
    rw [there, Option.map_some, Option.map_eq_some_iff] at one
    obtain ⟨op, found, mapped⟩ := one
    refine ⟨op, found, ?_, ?_⟩
    · have kinds := congrArg (·.payload.mnemonic) mapped
      simp only [Operation.map, Payload.mnemonic_map] at kinds
      rw [kinds, same.1]
    · have locs := congrArg Operation.loc mapped
      simp only [Operation.map, SourceLoc.map, SourceLoc.mk.injEq] at locs
      rw [← same.2]
      exact SourceLoc.read_eq_ok_iff.2 ⟨locs.1, locs.2.1.symm, locs.2.2.symm⟩

/-- Scripts that differ in the locations they set build designs that differ in the locations of
operations, and an operation whose location is the same is the same. -/
theorem Script.Resets.build (resets : script.Resets known script')
    (built : script.build known = (.ok d, learned)) :
    ∃ d' : Design Name, script'.build known = (.ok d', learned) ∧ d.SameContent d' ∧
      ∀ i : Nat, (made [] script'.deeds)[i]? = (made [] script.deeds)[i]? →
        d'.ops[i]? = d.ops[i]? := by
  have start : Draft.empty.Matches known known .empty := ⟨⟨rfl, rfl, rfl⟩, rfl, rfl, rfl⟩
  have together := resets.draft start Design.top .unknown .unknown
  unfold Script.build at built
  split at built
  · next last t run =>
    cases built
    rcases Together.iff_ok.1 together with ⟨_, last', _, t', run₁, run',
      like⟩ | ⟨_, _, _, failed, _⟩
    · cases run.symm.trans run₁
      have table : known.addAll t'.mentions.toList = known.addAll t.mentions.toList :=
        like.right.trans like.left.symm
      refine ⟨t'.design.map (known.addAll t.mentions.toList).number, ?_, like.designs.map _,
        fun i same => ?_⟩
      · rw [Script.build, show script'.run = _ from run']
        simp only [table]
      · rw [← Script.run_placed run, ← Script.run_placed run'] at same
        simp only [Design.map, Array.getElem?_map, like.designs.getElem? same]
    · cases run.symm.trans failed
  · cases built

/-- **Levels.** Every operation of a script lies where its level was last placed, or else where the
level around was placed when this one was opened. Other locations in a script leave everything but
locations alone; those set in a module body or region reach no operation outside it, and those set
in a container reach what follows it. -/
theorem places_follow_levels (built : script.build known = (.ok d, learned)) :
    d.PlacedBy learned script.deeds ∧
    (∀ script', script.Resets known script' → ∃ d' : Design Name,
      script'.build known = (.ok d', learned) ∧ d.SameContent d' ∧
      ∀ (before after : List Deed) (inner inner' : Body),
        script.deeds = before ++ .enter :: (inner.deeds ++ .leave :: after) →
        script'.deeds = before ++ .enter :: (inner'.deeds ++ .leave :: after) →
        ∀ i : Nat, i < makes before ∨ makes before + makes inner.deeds ≤ i →
        d'.ops[i]? = d.ops[i]?) ∧
    ∀ (before after : List Deed) (name mnemonic : String) (place : Option (SourceLoc String))
      (inner quiet between : Script), quiet.Unplaced → between.Unplaced →
      script.deeds = before ++
        ((Script.container name (inner ++ .loc place quiet) between).deeds ++
          .make mnemonic :: after) →
      ∃ op,
        d.ops[makes before + makes
          (Script.container name (inner ++ .loc place quiet) between).deeds]? = some op ∧
          op.loc.read learned = .ok (place.getD .unknown) := by
  have placedBy := Script.build_placedBy built
  refine ⟨placedBy, ?_, ?_⟩
  · intro script' resets
    obtain ⟨d', built', same, kept⟩ := resets.build built
    have placedBy' := Script.build_placedBy built'
    refine ⟨d', built', same, ?_⟩
    intro before after inner inner' split split' i outside
    have counts : makes inner'.deeds = makes inner.deeds := by
      have total := same.size
      rw [placedBy.count, placedBy'.count, split, split'] at total
      simp only [makes, List.countP_append, List.countP_cons] at total ⊢
      omega
    apply kept
    rw [split, split', getElem?_made_of_outside counts outside]
  · intro before after name mnemonic place inner quiet between still silent split
    rw [← List.append_assoc] at split
    obtain ⟨op, there, _, lies⟩ := placedBy.places _ mnemonic after split
    refine ⟨op, ?_, ?_⟩
    · rwa [makes, List.countP_append] at there
    · rwa [List.reverse_append, Script.inForce_container name inner place still silent] at lies

end Build

/-- A container in which a location is set, and a module with a region in it. -/
def leaky : Script :=
  .loc (some ⟨"top.sv", 1, 1⟩)
    (.container "builtin.module"
      (.loc (some ⟨"unit.sv", 2, 4⟩)
        (.module "Unit" []
          (.region "sv.ifdef" (.leaf none (.wire "a" none) .done)
            (.leaf none (.wire "b" none) .done)) .done))
      (.externModule "Pad" [] .done))

/-- The same with a location set in the region. -/
def leakyPlaced : Script :=
  .loc (some ⟨"top.sv", 1, 1⟩)
    (.container "builtin.module"
      (.loc (some ⟨"unit.sv", 2, 4⟩)
        (.module "Unit" []
          (.region "sv.ifdef" (.loc (some ⟨"top.sv", 9, 8⟩) (.leaf none (.wire "a" none) .done))
            (.leaf none (.wire "b" none) .done)) .done))
      (.externModule "Pad" [] .done))

theorem places_of_leaky : leaky.build .fresh = (.ok leaky.design, leaky.names) ∧
    leaky.design.PlacedBy leaky.names leaky.deeds ∧
    (∃ d' : Design Name, leakyPlaced.build .fresh = (.ok d', leaky.names) ∧
      leaky.design.SameContent d' ∧ d'.ops[4]? = leaky.design.ops[4]?) ∧
    ∃ op, leaky.design.ops[5]? = some op ∧ op.loc.read leaky.names = .ok ⟨"unit.sv", 2, 4⟩ := by
  have built : leaky.build .fresh = (.ok leaky.design, leaky.names) :=
    Script.build_fresh (by decide +kernel)
  obtain ⟨placedBy, frame, leaks⟩ := places_follow_levels built
  have resets : leaky.Resets .fresh leakyPlaced := by
    have file : ((((((NameTable.fresh.addAll ["top.sv"]).addAll ["builtin.module"]).addAll
        ["unit.sv"]).addAll ["Unit"]).addAll ["sv.ifdef"])).HasFile (some ⟨"top.sv", 9, 8⟩) := by
      unfold NameTable.HasFile
      decide +kernel
    exact .loc _ (.container _ (.loc _ (.module _ _ (.region _ (.inserted _ file (.leaf _ _ .done))
      (.leaf _ _ .done)) .done)) (.externModule _ _ .done))
  obtain ⟨d', built', same, kept⟩ := frame leakyPlaced resets
  have outside := kept [.place ⟨"top.sv", 1, 1⟩, .make "opaque", .place ⟨"unit.sv", 2, 4⟩,
      .make "hw.module",
    .enter, .make "opaque"] [.make "hw.wire", .leave, .make "hw.module.extern"]
    (.leaf none (.wire "a" none) .done)
    (.loc (some ⟨"top.sv", 9, 8⟩) (.leaf none (.wire "a" none) .done)) (by decide)
    (by decide) 4 (by decide)
  obtain ⟨op, there, lies⟩ := leaks [.place ⟨"top.sv", 1, 1⟩] [] "builtin.module" "hw.module.extern"
    (some ⟨"unit.sv", 2, 4⟩) .done (.module "Unit" []
      (.region "sv.ifdef" (.leaf none (.wire "a" none) .done) (.leaf none (.wire "b" none) .done))
        .done) .done trivial trivial (by decide)
  have position : op ∈ leaky.design.ops[5]? := there
  exact ⟨built, placedBy, ⟨d', built', same, outside⟩, op, position, lies⟩

end DebugHierarchy
