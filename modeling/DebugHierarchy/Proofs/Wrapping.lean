import DebugHierarchy.Proofs.Twins
import Mathlib.Logic.Relation

/-!
Nesting does not matter.

A run of statements may be put into a region or a container of its own: all that changes is one
operation more, which tells nothing, and the handles after it.

* `Body.Wraps`, `Script.Wraps`: one run of statements is put into a region or a container;
* `Renumbering.insert`: the handles after one operation and one block more;
* `Script.Wraps.transparent`: the designs before and after differ in one operation, and their
  extractions agree up to the new handles;
* `nesting_transparent`: any number of such steps, with names in any tables.
-/

namespace DebugHierarchy

open Drafting

variable {ν : Type}

namespace Body

/-- The location in force after the statements of a body. -/
def place : Body → SourceLoc String → SourceLoc String
  | .done, before => before
  | .loc place rest, _ => rest.place (place.getD .unknown)
  | .mention _ rest, before | .leaf _ _ rest, before | .region _ _ rest, before => rest.place before

/-- No statement at the level of the body sets the location. -/
def Unplaced : Body → Prop
  | .done => True
  | .loc .. => False
  | .mention _ rest | .leaf _ _ rest | .region _ _ rest => rest.Unplaced

theorem Unplaced.place_eq {body : Body} (unplaced : body.Unplaced) (loc : SourceLoc String) :
    body.place loc = loc := by
  induction body with
  | done => rfl
  | loc => exact unplaced.elim
  | mention _ _ ih | leaf _ _ _ ih | region _ _ _ _ ih => exact ih unplaced

theorem draft_append (first next : Body) (level : Level) : (first ++ next).draft level =
    (do first.draft level; next.draft { level with loc := first.place level.loc }) := by
  induction first generalizing level with
  | done => rfl
  | loc place rest ih =>
    show (do
      note (placeMentions place)
      (rest ++ next).draft { level with loc := place.getD .unknown }) = _
    simp only [ih, draft, bind_assoc]
    rfl
  | mention text rest ih =>
    show (do note [text]; (rest ++ next).draft level) = _
    simp only [ih, draft, bind_assoc, place]
  | leaf label statement rest ih =>
    show (do statement.draft level label; (rest ++ next).draft level) = _
    simp only [ih, draft, bind_assoc, place]
  | region name inner rest _ ih =>
    show (do
      note [name]
      let block ← addOwner level.block level.loc (fun block => .other name [] [block]) 0
      inner.draft { level with block }
      (rest ++ next).draft level) = _
    simp only [ih, draft, bind_assoc, place]

/-- One run of statements of a body is put into a region of its own. The run makes an
operation and sets no location. Where the body is a module's own (`own`), no output
at its end is among the run. -/
inductive Wraps : Bool → Body → Body → Prop
  | here {own : Bool} (pre run post : Body) (name : String) : run.Unplaced → run.makesOp = true →
    (own = true → post.makesOp = true ∨ run.endsInOutput = false) →
      Wraps own (pre ++ (run ++ post)) (pre ++ .region name run post)
  | within {own : Bool} (pre : Body) {inner inner' : Body} (name : String) (post : Body) :
    Wraps false inner inner' →
      Wraps own (pre ++ .region name inner post) (pre ++ .region name inner' post)

end Body

namespace Script

theorem draft_append (first next : Script) (block : BlockId) (loc : SourceLoc String) :
    (first ++ next).draft block loc = (do next.draft block (← first.draft block loc)) := by
  induction first generalizing block loc with
  | done =>
    show next.draft block loc = _
    simp only [draft, pure_bind]
  | loc place rest ih =>
    show (do note (placeMentions place); (rest ++ next).draft block (place.getD .unknown)) = _
    simp only [ih, draft, bind_assoc]
  | mention text rest ih =>
    show (do note [text]; (rest ++ next).draft block loc) = _
    simp only [ih, draft, bind_assoc]
  | module name ports body rest ih =>
    show (Script.module name ports body (rest ++ next)).draft block loc = _
    simp only [draft_module, ih, bind_assoc]
  | externModule name ports rest ih =>
    show (Script.externModule name ports (rest ++ next)).draft block loc = _
    simp only [draft_externModule, ih, bind_assoc]
  | container name inner rest _ ih =>
    show (Script.container name inner (rest ++ next)).draft block loc = _
    simp only [draft, ih, bind_assoc]

/-- One run of statements of a script is put into a container, or one
run of a body into a region. -/
inductive Wraps : Script → Script → Prop
  | here (pre run post : Script) (name : String) :
    Wraps (pre ++ (run ++ post)) (pre ++ .container name run post)
  | container (pre : Script) {inner inner' : Script} (name : String) (post : Script) :
      Wraps inner inner' →
    Wraps (pre ++ .container name inner post) (pre ++ .container name inner' post)
  | module (pre : Script) {body body' : Body} (name : String) (ports : List PortDecl)
      (post : Script) :
    body.Wraps true body' → Wraps (pre ++ .module name ports body post)
      (pre ++ .module name ports body' post)

end Script

/-- The handles after one operation and one block more, which have the given handles. -/
def Renumbering.insert (op : OpId) (block : BlockId) : Renumbering where
  op id := if id.index < op.index then id else ⟨id.index + 1⟩
  block id := if id.index < block.index then id else ⟨id.index + 1⟩
  value := id

namespace Renumbering

variable {op : OpId} {block : BlockId}

theorem insert_increasing {a b : OpId} (less : a.index < b.index) :
    ((insert op block).op a).index < ((insert op block).op b).index := by
  have before {c : OpId} (h : c.index < op.index) : (insert op block).op c = c := if_pos h
  have past {c : OpId} (h : ¬ c.index < op.index) : (insert op block).op c = ⟨c.index + 1⟩ :=
    if_neg h
  by_cases hb : b.index < op.index
  · rw [before hb, before (Nat.lt_trans less hb)]
    exact less
  · rw [past hb]
    by_cases ha : a.index < op.index
    · rw [before ha]
      exact Nat.lt_succ_of_lt less
    · rw [past ha]
      exact Nat.succ_lt_succ less

end Renumbering

namespace Design

variable {d : Design ν}

/-- An operation with a block is all that comes between. -/
theorem twins_insert (linked : d.Linked) (b : BlockId) (loc : SourceLoc ν)
    (payload : BlockId → Payload ν) :
    d.Twins (.insert ⟨d.ops.size⟩ ⟨d.blocks.size⟩) (d.addOwner b loc payload 0).2 where
  ops i := by simp [Renumbering.insert, Nat.add_right_comm]
  blocks i := by simp [Renumbering.insert, Nat.add_right_comm]
  values i := by simp [Renumbering.insert]
  args c := by
    rw [argsAt?_addOwner, show Renumbering.value _ = id from rfl]
    by_cases old : c.index < d.blocks.size
    · have same : (Renumbering.insert ⟨d.ops.size⟩ ⟨d.blocks.size⟩).block c = c := if_pos old
      rw [same, if_neg (Nat.ne_of_lt old)]
      cases d.argsAt? c <;> simp
    · have next : (Renumbering.insert ⟨d.ops.size⟩ ⟨d.blocks.size⟩).block c = ⟨c.index + 1⟩ :=
        if_neg old
      have past (i : Nat) : d.argsAt? ⟨c.index + i⟩ = none := by
        rw [argsAt?, Array.getElem?_eq_none (show d.blocks.size ≤ c.index + i by omega)]
        rfl
      have absent : d.argsAt? c = none := past 0
      rw [next, if_neg (show c.index + 1 ≠ d.blocks.size by omega), past 1, absent]
      rfl
  producers v := by
    have same : (Renumbering.insert ⟨d.ops.size⟩ ⟨d.blocks.size⟩).value v = v := rfl
    rw [same, addOwner_values]
    simp only [List.range_zero, List.map_nil, Array.append_empty]
    cases found : d.values[v.index]? with
    | none => simp
    | some x =>
      cases x with
      | blockArg => simp [ValueDef.op?]
      | opResult op i =>
        obtain ⟨o, there, _⟩ := linked.results found
        have old : op.index < d.ops.size := (Array.getElem?_eq_some_iff.1 there).1
        have kept : (Renumbering.insert ⟨d.ops.size⟩ ⟨d.blocks.size⟩).op op = op := if_pos old
        simp [ValueDef.op?, kept]

end Design

/-! ### One run of statements put away -/

/-- Two drafts come from one by adding like forests to a block; the second one has an operation and
a block of its own besides. -/
structure Draft.Split (s t t' : Draft) (b : BlockId) (R : Renumbering) (F F' : Forest String) :
    Prop where
  inserted : ∃ op block, R = .insert op block ∧ s.design.ops.size ≤ op.index ∧
    s.design.blocks.size ≤ block.index
  twins : t.Twins R Set.univ t'
  grows : Design.GrowAlike R b b s.design s.design t.design t'.design F F'

namespace Draft.Split

variable {s t t' u u' : Draft} {b : BlockId} {R : Renumbering} {F F' G G' P : Forest String}

/-- The block is there in both. -/
theorem room (split : s.Split t t' b R F F') (inside : b.index < s.design.blocks.size) :
    b.index < t.design.blocks.size ∧ b.index < t'.design.blocks.size := by
  have count := split.grows.left.blockCount
  have count' := split.grows.right.blockCount
  omega

theorem values (split : s.Split t t' b R F F') (v : ValueId) : R.value v = v := by
  obtain ⟨_, _, rfl, _⟩ := split.inserted
  rfl

theorem op_fixed (split : s.Split t t' b R F F') {id : OpId} (old : id.index < s.design.ops.size) :
    R.op id = id := by
  obtain ⟨op, block, rfl, bound, _⟩ := split.inserted
  exact if_pos (Nat.lt_of_lt_of_le old bound)

theorem block_fixed (split : s.Split t t' b R F F') {id : BlockId}
    (old : id.index < s.design.blocks.size) : R.block id = id := by
  obtain ⟨op, block, rfl, _, bound⟩ := split.inserted
  exact if_pos (Nat.lt_of_lt_of_le old bound)

/-- What comes before the run is the same in both. -/
theorem after (adds : s.design.Adds b P t.design) (inside : b.index < s.design.blocks.size)
    (split : t.Split u u' b R F F') : s.Split u u' b R (P ++ F) (P ++ F') where
  inserted := by
    obtain ⟨op, block, same, bound, bound'⟩ := split.inserted
    have ops := adds.opCount
    have blocks := adds.blockCount
    exact ⟨op, block, same, by omega, by omega⟩
  twins := split.twins
  grows :=
    { left := adds.trans inside split.grows.left
      right := adds.trans inside split.grows.right
      like := (Forest.Like.of_fixed split.values (fun x hx => split.op_fixed (adds.index_lt x hx).2)
        fun x hx r hr => split.block_fixed (adds.fresh x hx r hr).2).append split.grows.like }

/-- What comes after the run agrees. -/
theorem before (split : s.Split t t' b R F F') (inside : b.index < s.design.blocks.size)
    (twins : u.Twins R Set.univ u')
    (grows : Design.GrowAlike R b b t.design t'.design u.design u'.design G G') :
    s.Split u u' b R (F ++ G) (F' ++ G') :=
  ⟨split.inserted, twins, split.grows.trans inside inside grows⟩

/-- What lies below one operation splits with it. -/
theorem within (payload : BlockId → Payload String) {loc : SourceLoc String} {args : Nat}
    (inside : b.index < s.design.blocks.size) (owns : ∀ r, (payload r).regions = [r])
    (renumbers : ∀ r, (payload r).renumber R = payload (R.block r))
    (outputs : (payload ⟨s.design.blocks.size⟩).isModuleLike = true →
      G'.outputs = G.outputs.map R.value)
    (grown : t.design = (s.design.addOwner b loc payload args).2)
    (split : t.Split u u' ⟨s.design.blocks.size⟩ R G G') :
    s.Split u u' b R
      (.cons ⟨s.design.ops.size⟩ (s.design.addOp b loc (payload ⟨s.design.blocks.size⟩) 0).1 G .nil)
      (.cons ⟨s.design.ops.size⟩ (s.design.addOp b loc (payload ⟨s.design.blocks.size⟩) 0).1 G'
        .nil) where
  inserted := by
    obtain ⟨op, block, same, bound, bound'⟩ := split.inserted
    simp only [grown, Design.addOwner_ops, Array.size_push,
      Design.addOwner_blocks_size] at bound bound'
    exact ⟨op, block, same, by omega, by omega⟩
  twins := split.twins
  grows := by
    have below := split.grows
    rw [grown] at below
    exact below.within (split.op_fixed (by simp [grown]))
      (split.block_fixed (by simp [grown])) inside inside owns renumbers outputs

/-- The run itself is put below an operation of its own. -/
theorem here {loc : SourceLoc String} {name : String} (inside : b.index < s.design.blocks.size)
    (grown : t.design = (s.design.addOwner b loc (fun r => .other name [] [r]) 0).2)
    (twins : u.Twins (.insert ⟨s.design.ops.size⟩ ⟨s.design.blocks.size⟩) Set.univ u')
    (grows : Design.GrowAlike (.insert ⟨s.design.ops.size⟩ ⟨s.design.blocks.size⟩) b
      ⟨s.design.blocks.size⟩ s.design t.design u.design u'.design F F') :
    s.Split u u' b (.insert ⟨s.design.ops.size⟩ ⟨s.design.blocks.size⟩) F
      (.cons ⟨s.design.ops.size⟩
        (s.design.addOp b loc (.other name [] [⟨s.design.blocks.size⟩]) 0).1 F' .nil) where
  inserted := ⟨_, _, rfl, Nat.le_refl _, Nat.le_refl _⟩
  twins := twins
  grows :=
    { left := grows.left
      right := by
        have below := grows.right
        rw [grown] at below
        exact below.within inside fun _ => rfl
      like := by
        rw [← F.append_nil]
        exact .wrapped ⟨⟨name, _, rfl⟩, rfl⟩ grows.like .nil }

end Draft.Split

/-- A step that always ends well may stand before the second of two steps. -/
theorem Drafting.Together.second {α β γ : Type} {x : Drafting α} {y : Drafting β}
    {k : β → Drafting γ} {s s' t' : Draft} {b : β} {post : α → γ → Draft → Draft → Prop}
    (run : y.run s' = .ok b t') (next : Together x (k b) s t' post) :
    Together x (y >>= k) s s' post := by
  unfold Together at next ⊢
  rwa [EStateM.run_bind, run]

/-- An operation that only holds others is added to one of two drafts. -/
theorem Draft.opened (t : Draft) (linked : t.design.Linked) (b : BlockId) (loc : SourceLoc String)
    (name : String) : ∃ u v, (note [name]).run t = .ok () u ∧
      (addOwner b loc (fun r => .other name [] [r]) 0).run u = .ok ⟨t.design.blocks.size⟩ v ∧
      v.design = (t.design.addOwner b loc (fun r => .other name [] [r]) 0).2 ∧
      t.Twins (.insert ⟨t.design.ops.size⟩ ⟨t.design.blocks.size⟩) Set.univ v := by
  let owned := (t.design.addOwner b loc (fun r => .other name [] [r]) 0).2
  let mentions := t.mentions ++ [name]
  refine ⟨⟨t.design, mentions, t.labels⟩, ⟨owned, mentions, t.labels⟩, rfl, rfl, rfl,
    Design.twins_insert linked b loc (fun r => .other name [] [r]), fun l _ => ?_⟩
  simp [Renumbering.insert]

section Bodies

variable {own : Bool} {s : Draft} {level : Level}

/-- Two bodies, drafted from one state, make designs that split, or meet the same fault. Where the
body is a module's own, they end alike. -/
def Body.Splits (own : Bool) (s : Draft) (level : Level) (body body' : Body) : Prop :=
  Together (body.draft level) (body'.draft level) s s fun _ _ t t' => ∃ R F F',
    s.Split t t' level.block R F F' ∧ (own = true → F.EndAlike R F')

/-- What comes before is the same in both. -/
theorem Body.Splits.after (pre : Body) {next next' : Body}
    (inside : level.block.index < s.design.blocks.size)
    (split : ∀ t, s.design.blocks.size ≤ t.design.blocks.size →
      (s.design.Linked → t.design.Linked) →
      next.Splits own t { level with loc := pre.place level.loc } next') :
    (pre ++ next).Splits own s level (pre ++ next') := by
  unfold Splits at split ⊢
  rw [draft_append, draft_append]
  refine Together.same fun _ t run => ?_
  obtain ⟨P, -, adds⟩ := draft_adds inside run
  have count := adds.blockCount
  refine (split t (by omega) adds.linked).imp fun ⟨R, F, F', split, ends⟩ => ?_
  refine ⟨R, _, _, split.after adds inside, fun owns => ?_⟩
  have same : P.EndAlike R P := ⟨rfl, by rw [funext split.values, List.map_id']⟩
  exact same.append (ends owns)

variable (level) in
/-- **A run of a body put away.** The statements before and after make designs that
split, or meet the same fault. -/
theorem Body.Wraps.splits {body body' : Body} (wraps : body.Wraps own body')
    (inside : level.block.index < s.design.blocks.size) (linked : s.design.Linked) :
    body.Splits own s level body' := by
  induction wraps generalizing s level with
  | @here own pre run post name unplaced makes ends =>
    refine .after pre inside fun t grown links => ?_
    have linked := links linked
    have inside : level.block.index < t.design.blocks.size := by omega
    generalize pre.place level.loc = loc
    obtain ⟨u, v, noted, owned, opened, start⟩ := t.opened linked level.block loc name
    have values (v : ValueId) :
        (Renumbering.insert ⟨t.design.ops.size⟩ ⟨t.design.blocks.size⟩).value v = v := rfl
    have inputs : level.inputs =
        level.inputs.map (Renumbering.insert ⟨t.design.ops.size⟩ ⟨t.design.blocks.size⟩).value := by
      rw [funext values, List.map_id']
    let outer : Level := ⟨level.block, level.inputs, loc⟩
    let inner : Level := ⟨⟨t.design.blocks.size⟩, level.inputs, loc⟩
    unfold Splits
    rw [draft_append, unplaced.place_eq]
    refine .second noted (.second owned ?_)
    refine (draft_together outer inner start inputs rfl inside (by simp [inner, opened])
      (run.sure_univ values)).bind fun {_ _ u u'} _ drafted => ?_
    obtain ⟨twins, F, F', grows, alike, tail⟩ := drafted
    rw [Set.univ_union] at twins
    have away := Draft.Split.here inside opened twins grows
    obtain ⟨room, room'⟩ := away.room inside
    refine (draft_together outer outer twins inputs rfl room room' (post.sure_univ values)).imp
      fun drafted => ?_
    obtain ⟨twins, G, G', more, alikeG, tailG⟩ := drafted
    rw [Set.univ_union] at twins
    refine ⟨_, _, _, away.before inside twins more, fun owns => ⟨?_, ?_⟩⟩
    · rw [Forest.last?_append, Forest.last?_append, Option.isSome_or, Option.isSome_or, alikeG.some,
        tail.some, makes]
      rfl
    · rw [Forest.outputs_append, Forest.outputs_append, alikeG.some, alikeG.outputs]
      split
      · rfl
      · next none =>
        rw [tail.outputs ((ends owns).resolve_left fun some => none (tailG.some.trans some))]
        rfl
  | @within own pre inner inner' name post _ ih =>
    refine .after pre inside fun t grown links => ?_
    have linked := links linked
    have inside : level.block.index < t.design.blocks.size := by omega
    generalize pre.place level.loc = loc
    unfold Splits
    refine Together.same fun _ u noted => ?_
    refine Together.same fun _ v owned => ?_
    have same := note_design noted
    obtain ⟨rfl, opened⟩ := addOwner_design owned
    rw [same] at opened ⊢
    have links : v.design.Linked := opened ▸ Design.linked_addOwner _ _ _ (fun _ => nofun) linked
    refine (ih ⟨⟨t.design.blocks.size⟩, level.inputs, loc⟩ (by simp [opened]) links).bind
      fun {_ _ w w'} _ ⟨R, G, G', split, _⟩ => ?_
    have around := split.within (fun r => .other name [] [r]) inside (fun _ => rfl) (fun _ => rfl)
      (fun like => Bool.noConfusion like) opened
    have inputs : level.inputs = level.inputs.map R.value := by
      rw [funext split.values, List.map_id']
    obtain ⟨room, room'⟩ := around.room inside
    let outer : Level := ⟨level.block, level.inputs, loc⟩
    refine (draft_together outer outer split.twins inputs rfl room room'
      (post.sure_univ split.values)).imp
      fun drafted => ?_
    obtain ⟨twins, F, F', more, alike, _⟩ := drafted
    rw [Set.univ_union] at twins
    exact ⟨_, _, _, around.before inside twins more,
      fun _ => Forest.EndAlike.append ⟨rfl, rfl⟩ alike⟩

end Bodies

/-- Two scripts, drafted from one state, make designs that split, or meet the same fault. -/
def Script.Splits (s : Draft) (b : BlockId) (loc : SourceLoc String) (script script' : Script) :
    Prop :=
  Together (script.draft b loc) (script'.draft b loc) s s fun last last' t t' =>
    last' = last ∧ ∃ R F F',
    s.Split t t' b R F F'

section Scripts

variable {s : Draft} {b : BlockId} {loc : SourceLoc String}

/-- What comes before is the same in both. -/
theorem Script.Splits.after (pre : Script) {next next' : Script}
    (inside : b.index < s.design.blocks.size)
    (split : ∀ t loc, s.design.blocks.size ≤ t.design.blocks.size →
      (s.design.Linked → t.design.Linked) →
      next.Splits t b loc next') : (pre ++ next).Splits s b loc (pre ++ next') := by
  unfold Splits at split ⊢
  rw [draft_append, draft_append]
  refine Together.same fun loc t run => ?_
  obtain ⟨P, -, adds⟩ := draft_adds inside run
  have count := adds.blockCount
  exact (split t loc (by omega) adds.linked).imp fun ⟨last, R, F, F', split⟩ =>
    ⟨last, R, _, _, split.after adds inside⟩

/-- What comes after agrees. -/
theorem Draft.Split.draft_after {t t' : Draft} {R : Renumbering} {F F' : Forest String}
    (split : s.Split t t' b R F F') (inside : b.index < s.design.blocks.size) (post : Script)
    (loc : SourceLoc String) :
    Together (post.draft b loc) (post.draft b loc) t t' fun last last' u u' =>
      last' = last ∧ ∃ R F F',
      s.Split u u' b R F F' := by
  obtain ⟨room, room'⟩ := split.room inside
  refine (Script.draft_together split.values split.twins room room' loc).imp fun drafted => ?_
  obtain ⟨last, twins, G, G', more⟩ := drafted
  exact ⟨last, R, _, _, split.before inside twins more⟩

variable (b loc) in
/-- **A run of a script put away.** The statements before and after make designs that
split, or meet the same fault. -/
theorem Script.Wraps.splits {script script' : Script} (wraps : script.Wraps script')
    (inside : b.index < s.design.blocks.size) (linked : s.design.Linked) :
    script.Splits s b loc script' := by
  induction wraps generalizing s b loc with
  | here pre run post name =>
    refine .after pre inside fun t loc grown links => ?_
    have linked := links linked
    have inside : b.index < t.design.blocks.size := by omega
    obtain ⟨u, v, noted, owned, opened, start⟩ := t.opened linked b loc name
    unfold Splits
    rw [draft_append]
    refine .second noted (.second owned ?_)
    have room : t.design.blocks.size < v.design.blocks.size := by simp [opened]
    refine (draft_together (fun _ => rfl) start inside room loc).bind
      fun {last _ _ _} _ drafted => ?_
    obtain ⟨rfl, twins, F, F', grows⟩ := drafted
    exact (Draft.Split.here inside opened twins grows).draft_after inside post _
  | container pre name post _ ih =>
    refine .after pre inside fun t loc grown links => ?_
    have linked := links linked
    have inside : b.index < t.design.blocks.size := by omega
    refine Together.same fun _ u noted => Together.same fun _ v owned => ?_
    have same := note_design noted
    obtain ⟨rfl, opened⟩ := addOwner_design owned
    rw [same] at opened ⊢
    have links : v.design.Linked := opened ▸ Design.linked_addOwner _ _ _ (fun _ => nofun) linked
    refine (ih ⟨t.design.blocks.size⟩ loc (by simp [opened]) links).bind
      fun {last _ _ _} _ drafted => ?_
    obtain ⟨rfl, R, G, G', split⟩ := drafted
    have around := split.within (fun r => .other name [] [r]) inside (fun _ => rfl) (fun _ => rfl)
      (fun like => Bool.noConfusion like) opened
    exact around.draft_after inside post _
  | module pre name ports post wraps =>
    refine .after pre inside fun t loc grown links => ?_
    have linked := links linked
    have inside : b.index < t.design.blocks.size := by omega
    refine Together.same fun _ u noted => Together.same fun _ v owned => ?_
    have same := note_design noted
    obtain ⟨rfl, opened⟩ := addOwner_design owned
    rw [same] at opened ⊢
    have links : v.design.Linked := opened ▸ Design.linked_addOwner _ _ _ (fun _ => nofun) linked
    refine Together.same fun w _ got => ?_
    cases got
    refine (wraps.splits ⟨⟨t.design.blocks.size⟩, _, loc⟩ (by simp [opened]) links).bind
      fun _ ⟨R, G, G', split, alike⟩ => ?_
    have around := split.within (.module name (PortDecl.number ports)) inside (fun _ => rfl)
      (fun _ => rfl) (fun _ => (alike rfl).outputs) opened
    exact around.draft_after inside post _

end Scripts

namespace Renumbering

def comp (S R : Renumbering) : Renumbering := ⟨S.op ∘ R.op, S.block ∘ R.block, S.value ∘ R.value⟩

theorem payload_twice (S R : Renumbering) (p : Payload ν) :
    (p.renumber R).renumber S = p.renumber (S.comp R) := by
  cases p <;> simp [Payload.renumber, comp]

end Renumbering

theorem Operation.Renumbered.trans {R S : Renumbering} {o o' o'' : Operation ν}
    (first : o.Renumbered R o') (next : o'.Renumbered S o'') : o.Renumbered (S.comp R) o'' where
  payload := by rw [next.payload, first.payload, Renumbering.payload_twice]
  loc := next.loc.trans first.loc
  results := by rw [next.results, first.results, List.map_map]; rfl

theorem Operation.Bare.renumbered {R : Renumbering} {o o' : Operation ν} (bare : o.Bare)
    (same : o.Renumbered R o') : o'.Bare := by
  obtain ⟨⟨name, region, payload⟩, results⟩ := bare
  exact ⟨⟨name, R.block region, by rw [same.payload, payload]; rfl⟩, by
    rw [same.results, results]; rfl⟩

namespace Design

/-- The second design is the first one with operations put in that only hold others. The operations
of the first one keep their order, and the values keep their handles. -/
structure Widens (R : Renumbering) (d d' : Design ν) : Prop where
  increasing : ∀ {a b : OpId}, a < b → R.op a < R.op b
  values : ∀ v, R.value v = v
  valueCount : d'.values.size = d.values.size
  kept : ∀ {id : OpId} {o : Operation ν}, d.ops[id.index]? = some o →
    ∃ o', d'.ops[(R.op id).index]? = some o' ∧ o.Renumbered R o'
  inserted : ∀ {id : OpId} {o' : Operation ν}, d'.ops[id.index]? = some o' →
    (∃ a : OpId, a.index < d.ops.size ∧ R.op a = id) ∨ o'.Bare

theorem Widens.refl (d : Design ν) : d.Widens ⟨id, id, id⟩ d where
  increasing := id
  values _ := rfl
  valueCount := rfl
  kept := by
    intro a o there
    have same : o.payload.renumber ⟨id, id, id⟩ = o.payload :=
      Payload.renumber_fixed (fun _ => rfl) fun _ _ => rfl
    exact ⟨o, there, same.symm, rfl, (List.map_id o.results).symm⟩
  inserted there := .inl ⟨_, (Array.getElem?_eq_some_iff.1 there).1, rfl⟩

theorem Widens.trans {R S : Renumbering} {d e f : Design ν} (first : d.Widens R e)
    (next : e.Widens S f) : d.Widens (S.comp R) f where
  increasing less := next.increasing (first.increasing less)
  values v := (congrArg S.value (first.values v)).trans (next.values v)
  valueCount := next.valueCount.trans first.valueCount
  kept there := by
    obtain ⟨o', there', same⟩ := first.kept there
    obtain ⟨o'', there'', same'⟩ := next.kept there'
    exact ⟨o'', there'', same.trans same'⟩
  inserted := by
    intro id o' there
    obtain ⟨a, inside, rfl⟩ | bare := next.inserted there
    · have found : e.ops[a.index]? = some e.ops[a.index] := Array.getElem?_eq_getElem inside
      obtain ⟨b, inside', rfl⟩ | bare := first.inserted found
      · exact .inl ⟨b, inside', rfl⟩
      · obtain ⟨o, there', same⟩ := next.kept found
        rw [there] at there'
        cases there'
        exact .inr (bare.renumbered same)
    · exact .inr bare

theorem Widens.faithful {R : Renumbering} {d d' : Design ν} (widens : d.Widens R d') :
    Relabeling.Faithful (⟨id, R.op⟩ : Relabeling ν ν) where
  name := Function.injective_id
  op a b same := by
    rcases Nat.lt_trichotomy a.index b.index with less | equal | less
    · have := widens.increasing (a := a) (b := b) less
      rw [show R.op a = R.op b from same] at this
      exact absurd this (Nat.lt_irrefl _)
    · exact Handle.ext equal
    · have := widens.increasing (a := b) (b := a) less
      rw [show R.op a = R.op b from same] at this
      exact absurd this (Nat.lt_irrefl _)

end Design

theorem Draft.Split.widens {s t t' : Draft} {b : BlockId} {R : Renumbering} {F F' : Forest String}
    (split : s.Split t t' b R F F') (n : Nesting t.design F) (n' : Nesting t'.design F') :
    t.design.Widens R t'.design where
  increasing := by
    obtain ⟨op, block, rfl, _⟩ := split.inserted
    exact Renumbering.insert_increasing
  values := split.values
  valueCount := by
    have next := split.twins.designs.values 0
    rw [split.values] at next
    exact (congrArg Handle.index next).symm
  kept there := by
    obtain ⟨o', inside, same⟩ :=
      split.grows.like.kept (n.preorder_eq ▸ Design.mem_entries_of_ops there)
    exact ⟨o', Forest.op_of_mem_preorder n'.stands _ inside, same⟩
  inserted there := by
    refine (split.grows.like.inserted
      (n'.preorder_eq ▸ Design.mem_entries_of_ops there)).imp_left ?_
    rintro ⟨e, inside, same⟩
    have found := Forest.op_of_mem_preorder n.stands e inside
    exact ⟨e.1, (Array.getElem?_eq_some_iff.1 found).1, same.symm⟩

/-- The second script meets the fault of the first one, or it makes a design with operations put in
that only hold others; what is extracted from it is the same under the new handles. -/
def Script.Transparent (script script' : Script) : Prop :=
  (∃ fault t t', script.run = .error fault t ∧ script'.run = .error fault t') ∨
    ∃ last last' t t' R, script.run = .ok last t ∧ script'.run = .ok last' t' ∧
      t.design.Widens R t'.design ∧
        ∀ options, t'.design.extract options = (t.design.extract options).relabel ⟨id, R.op⟩

theorem Script.Wraps.transparent {script script' : Script} (wraps : script.Wraps script') :
    script.Transparent script' := by
  obtain ⟨last, last', t, t', run, run', -, R, F, F', split⟩ | fault :=
    Together.iff_ok.1 (wraps.splits Design.top .unknown (s := .empty) Nat.zero_lt_one
      Design.linked_empty)
  · obtain ⟨G, flat, adds⟩ := Script.run_adds run
    obtain ⟨G', flat', adds'⟩ := Script.run_adds run'
    have left := split.grows.left
    have right := split.grows.right
    obtain rfl : G = F := adds.under_top.symm.trans left.under_top
    obtain rfl : G' = F' := adds'.under_top.symm.trans right.under_top
    have n := adds.nesting flat
    have n' := adds'.nesting flat'
    have widens := split.widens n n'
    refine .inr ⟨last, last', t, t', R, run, run', widens, fun options => ?_⟩
    exact (n.alike split.values n' split.grows.like split.twins.designs).extract_eq
      widens.faithful options
  · exact .inl fault

theorem Script.transparent_of_wrapped {script script' : Script}
    (wrapped : Relation.ReflTransGen Script.Wraps script script') : script.Transparent script' := by
  induction wrapped with
  | refl =>
    unfold Transparent
    cases run : script.run with
    | ok last t =>
      refine .inr ⟨last, last, t, t, _, rfl, rfl, .refl _, fun options => ?_⟩
      have faithful := Relabeling.names_faithful (Function.injective_id (α := String))
      have same := (t.design.alike_map id).extract_eq faithful options
      rwa [Design.map_id] at same
    | error fault t => exact .inl ⟨fault, t, t, rfl, rfl⟩
  | tail _ wraps ih =>
    obtain ⟨fault, t, t', run, run'⟩ | ⟨last, last', t, t', R, run, run', widens, same⟩ := ih
    · obtain ⟨fault', u, u', run₂, run₂'⟩ | ⟨_, _, _, _, _, run₂, _⟩ := wraps.transparent
      · rw [run'] at run₂
        cases run₂
        exact .inl ⟨fault, t, u', run, run₂'⟩
      · rw [run'] at run₂
        cases run₂
    · obtain ⟨_, _, _, run₂, _⟩ | ⟨_, last'', _, t'', S, run₂, run'', widens', same'⟩ :=
        wraps.transparent
      · rw [run'] at run₂
        cases run₂
      · rw [run'] at run₂
        cases run₂
        refine .inr ⟨last, last'', t, t'', _, run, run'', widens.trans widens', fun options => ?_⟩
        rw [same', same, Relabeling.extraction_twice]
        rfl

/-- **Nesting is transparent.** Let runs of statements be put into containers and regions, any
number of times and to any depth. Then both scripts have the same fault, or the second design is the
first one with operations put in that only hold others, and under every option both extractions come
out the same: read as strings, the names agree; the handles of operations follow the operations;
modules, instances, variables and values keep theirs. -/
theorem nesting_transparent {script script' : Script}
    (wrapped : Relation.ReflTransGen Script.Wraps script script') (known known' : NameTable) :
    (∃ fault, (script.build known).1 = .error fault ∧ (script'.build known').1 = .error fault) ∨
      ∃ d learned d' learned' R, script.build known = (.ok d, learned) ∧
        script'.build known' = (.ok d', learned') ∧
        (d.map learned.textD).Widens R (d'.map learned'.textD) ∧
        ∀ options, (d'.extract options).relabel (.names learned'.textD) =
          (d.extract options).relabel ⟨learned.textD, R.op⟩ := by
  obtain ⟨fault, t, t', run, run'⟩ | ⟨last, last', t, t', R, run, run', widens, same⟩ :=
    Script.transparent_of_wrapped wrapped
  · exact .inl ⟨fault, by rw [Script.build, run], by rw [Script.build, run']⟩
  · obtain ⟨d, learned, built⟩ : ∃ d learned, script.build known = (.ok d, learned) :=
      ⟨_, _, by rw [Script.build, run]⟩
    obtain ⟨d', learned', built'⟩ : ∃ d learned, script'.build known' = (.ok d, learned) :=
      ⟨_, _, by rw [Script.build, run']⟩
    refine .inr ⟨d, learned, d', learned', R, built, built', ?_, fun options => ?_⟩
    · obtain ⟨_, _, ran, strings⟩ := Script.build_strings built
      obtain ⟨_, _, ran', strings'⟩ := Script.build_strings built'
      cases run.symm.trans ran
      cases run'.symm.trans ran'
      rwa [strings, strings']
    · obtain ⟨_, _, ran, read⟩ := Script.build_extract built options
      obtain ⟨_, _, ran', read'⟩ := Script.build_extract built' options
      cases run.symm.trans ran
      cases run'.symm.trans ran'
      rw [read', same, ← read, Relabeling.extraction_twice]
      rfl

/-- Two modules side by side; one has a wire and an output. -/
def flatWires : Script :=
  .externModule "Ext" [⟨.input, "a", none⟩] <|
  .module "Top" [⟨.output, "y", none⟩]
    (.leaf (some "w") (.wire "w" none) <|
     .leaf none (.inst "u" "Ext" [.label "w"]) <|
     .leaf none (.output [.label "w"]) .done) .done

/-- The same with a container around both modules and a region around the wire and the instance. -/
def nestedWires : Script :=
  .container "library"
    (.externModule "Ext" [⟨.input, "a", none⟩] <|
     .module "Top" [⟨.output, "y", none⟩]
      (.region "logic"
        (.leaf (some "w") (.wire "w" none) <|
         .leaf none (.inst "u" "Ext" [.label "w"]) .done) <|
       .leaf none (.output [.label "w"]) .done) .done) .done

theorem flatWires_wrapped : Relation.ReflTransGen Script.Wraps flatWires nestedWires := by
  let wires : Body := .leaf (some "w") (.wire "w" none)
    (.leaf none (.inst "u" "Ext" [.label "w"]) .done)
  let ending : Body := .leaf none (.output [.label "w"]) .done
  have region : Body.Wraps true (wires ++ ending) (.region "logic" wires ending) :=
    .here .done wires ending "logic" trivial rfl fun _ => .inl rfl
  let pre : Script := .externModule "Ext" [⟨.input, "a", none⟩] .done
  let top (body : Body) : Script := pre ++ .module "Top" [⟨.output, "y", none⟩] body .done
  have inside : Script.Wraps flatWires (top (.region "logic" wires ending)) :=
    .module pre "Top" [⟨.output, "y", none⟩] .done region
  have outside : Script.Wraps (top (.region "logic" wires ending)) nestedWires :=
    .here .done (top (.region "logic" wires ending)) .done "library"
  exact .tail (.single inside) outside

theorem nesting_of_flatWires :
    Relation.ReflTransGen Script.Wraps flatWires nestedWires ∧
      ∃ R : Renumbering, (flatWires.design.map flatWires.names.textD).Widens R
          (nestedWires.design.map nestedWires.names.textD) ∧
        ∀ options, (nestedWires.design.extract options).relabel (.names nestedWires.names.textD) =
          (flatWires.design.extract options).relabel ⟨flatWires.names.textD, R.op⟩ := by
  have built : flatWires.build .fresh = (.ok flatWires.design, flatWires.names) :=
    Script.build_fresh (by decide +kernel)
  have built' : nestedWires.build .fresh = (.ok nestedWires.design, nestedWires.names) :=
    Script.build_fresh (by decide +kernel)
  refine ⟨flatWires_wrapped, ?_⟩
  obtain ⟨fault, fails, _⟩ | ⟨_, _, _, _, R, here, there, widens, same⟩ :=
    nesting_transparent flatWires_wrapped .fresh .fresh
  · rw [built] at fails
    cases fails
  · rw [built, Prod.mk.injEq, Except.ok.injEq] at here
    rw [built', Prod.mk.injEq, Except.ok.injEq] at there
    obtain ⟨rfl, rfl⟩ := here
    obtain ⟨rfl, rfl⟩ := there
    exact ⟨R, widens, same⟩

end DebugHierarchy
