import DebugHierarchy.Proofs.Declarations
import DebugHierarchy.Proofs.Views

/-!
What a definition shows does not depend on its handles.

A view names values by where they stand, so a definition whose body refers to nothing
outside is seen alike wherever it stands in a design. It also instantiates the same modules
and has the same problems.

* `CopiedBody`: a body under other handles, with the values that its operations refer to;
* `CopiedBody.bodyView_eq`, `CopiedBody.bodyProblem_none`: copied bodies are seen alike, and both
  have a problem or none has;
* `Declaration.Told`: what a definition shows, instantiates and gets wrong
  is told by its declaration.
-/

namespace DebugHierarchy

variable {ν α β : Type}

theorem idxOf?_map [DecidableEq α] [DecidableEq β] {f : α → β} (injective : Function.Injective f)
    (l : List α) (a : α) : (l.map f).idxOf? (f a) = l.idxOf? a := by
  induction l with
  | nil => rfl
  | cons b rest ih => simp only [List.map_cons, List.idxOf?_cons, ih, beq_iff_eq, injective.eq_iff]

/-- Operations without a meaning are of no account to a reader that passes over them. -/
theorem filterMap_essence {read : Entry ν → Option α}
    (silent : ∀ e name operands regions, e.2.payload = .other name operands regions → read e = none)
    (body : List (Entry ν)) : (essence body).filterMap read = body.filterMap read := by
  rw [essence, List.filterMap_filter]
  refine List.filterMap_congr fun e _ => ?_
  cases payload : e.2.payload with
  | other name operands regions => rw [silent e name operands regions payload, ite_self]
  | _ => rfl

theorem filterMap_of_forall₂ {A B : Type} {read : A → Option α} {read' : B → Option β} {f : α → β}
    {l : List A} {l' : List B} (alike : List.Forall₂ (fun a b => read' b = (read a).map f) l l') :
    l'.filterMap read' = (l.filterMap read).map f := by
  induction alike with
  | nil => rfl
  | @cons a b rest rest' here _ ih =>
    rw [List.filterMap_cons, List.filterMap_cons, here]
    cases read a with
    | none => exact ih
    | some x => exact congrArg (f x :: ·) ih

/-- The second entry is the first one under other handles. -/
structure Entry.Copied (R : Renumbering) (e e' : Entry ν) : Prop where
  id : e'.1 = R.op e.1
  here : e.2.Renumbered R e'.2

namespace Design

def valuesIn (d : Design ν) (block : BlockId) : List ValueId := d.argsOf block ++ d.createdIn block

end Design

/-- A body of the second design is one of the first under other handles, and what its
operations refer to lies in it. -/
structure CopiedBody (R : Renumbering) (d d' : Design ν) (block block' : BlockId) : Prop where
  ops : Function.Injective R.op
  values : Function.Injective R.value
  told : List.Forall₂ (Entry.Copied R) (essence (d.bodyOf block)) (essence (d'.bodyOf block'))
  args : d'.argsOf block' = (d.argsOf block).map R.value
  created : d'.createdIn block' = (d.createdIn block).map R.value
  outputs : d'.outputsOf block' = (d.outputsOf block).map R.value
  refers : ∀ e ∈ d.bodyOf block, ∀ v ∈ e.2.payload.operands, v ∈ d.valuesIn block
  yields : ∀ v ∈ d.outputsOf block, v ∈ d.valuesIn block
  producers : ∀ v ∈ d.valuesIn block, ∃ producer, d.definingOp v = .ok producer ∧
    d'.definingOp (R.value v) = .ok (producer.map R.op)

namespace CopiedBody

variable {R : Renumbering} {d d' : Design ν} {block block' : BlockId}
  (c : CopiedBody R d d' block block') {e e' : Entry ν}

include c

/-- A reader of copied bodies that reads copied operations alike. -/
theorem read {read : Entry ν → Option α} {read' : Entry ν → Option β} (f : α → β)
    (silent : ∀ e name operands regions, e.2.payload = .other name operands regions → read e = none)
    (silent' : ∀ e name operands regions, e.2.payload = .other name operands regions →
      read' e = none)
    (same : ∀ e ∈ d.bodyOf block, ∀ e', e.Copied R e' → read' e' = (read e).map f) :
    (d'.bodyOf block').filterMap read' = ((d.bodyOf block).filterMap read).map f := by
  have told : List.Forall₂ (fun e e' => read' e' = (read e).map f) (essence (d.bodyOf block))
      (essence (d'.bodyOf block')) := by
    refine ((List.forall₂_and_left _ _).2 ⟨fun e he => ?_, c.told⟩).imp fun e e' ⟨inside, copied⟩ =>
      same e inside e' copied
    exact (List.mem_filter.1 he).1
  rw [← filterMap_essence silent, ← filterMap_essence silent']
  exact filterMap_of_forall₂ told

theorem read_same {read read' : Entry ν → Option α}
    (silent : ∀ e name operands regions, e.2.payload = .other name operands regions → read e = none)
    (silent' : ∀ e name operands regions, e.2.payload = .other name operands regions →
      read' e = none)
    (same : ∀ e ∈ d.bodyOf block, ∀ e', e.Copied R e' → read' e' = read e) :
    (d'.bodyOf block').filterMap read' = (d.bodyOf block).filterMap read := by
  rw [c.read id silent silent'
    fun e he e' copied => by rw [same e he e' copied, Option.map_id_fun, id_eq],
    List.map_id]

/-- What is told of copied operations holds of both bodies or of none. -/
theorem forall_iff {P P' : Entry ν → Prop}
    (silent : ∀ e name operands regions, e.2.payload = .other name operands regions → P e)
    (silent' : ∀ e name operands regions, e.2.payload = .other name operands regions → P' e)
    (same : ∀ e ∈ d.bodyOf block, ∀ e', e.Copied R e' → (P' e' ↔ P e)) :
    (∀ e ∈ d'.bodyOf block', P' e) ↔ ∀ e ∈ d.bodyOf block, P e := by
  classical
  have read : ((d'.bodyOf block').filterMap fun e => if P' e then none else some ()) =
      (d.bodyOf block).filterMap fun e => if P e then none else some () :=
    c.read_same (fun e name operands regions payload =>
      if_pos (silent e name operands regions payload))
      (fun e name operands regions payload => if_pos (silent' e name operands regions payload))
      (fun e he e' copied => by simp only [same e he e' copied])
  have none (Q : Entry ν → Prop) (body : List (Entry ν)) :
      (body.filterMap fun e => if Q e then none else some ()) = [] ↔ ∀ e ∈ body, Q e := by
    rw [List.filterMap_eq_nil_iff]
    refine forall₂_congr fun e _ => ?_
    by_cases holds : Q e <;> simp [holds]
  rw [← none, ← none, read]

theorem any_eq {test : Entry ν → Bool}
    (silent : ∀ e name operands regions, e.2.payload = .other name operands regions →
      test e = false)
    (same : ∀ e e' : Entry ν, e.Copied R e' → test e' = test e) :
    (d'.bodyOf block').any test = (d.bodyOf block).any test := by
  have none : (∀ e ∈ d'.bodyOf block', test e = false) ↔ ∀ e ∈ d.bodyOf block, test e = false :=
    c.forall_iff silent silent fun e _ e' copied => by rw [same e e' copied]
  have all (body : List (Entry ν)) : body.any test = false ↔ ∀ e ∈ body, test e = false := by
    simp only [List.any_eq_false, Bool.not_eq_true]
  rw [← all, ← all] at none
  cases here : (d.bodyOf block).any test with
  | false => exact none.2 here
  | true =>
    rw [← Bool.not_eq_false, none, here]
    exact Bool.noConfusion

theorem hasVariable_eq : hasVariable (d'.bodyOf block') = hasVariable (d.bodyOf block) := by
  refine c.any_eq (fun e name operands regions payload => by rw [payload]; rfl)
    fun e e' copied => ?_
  rw [copied.here.payload]
  cases e.2.payload <;> rfl

theorem hasScope_eq : hasScope (d'.bodyOf block') = hasScope (d.bodyOf block) := by
  refine c.any_eq (fun e name operands regions payload => by rw [payload]; rfl)
    fun e e' copied => ?_
  rw [copied.here.payload]
  cases e.2.payload <;> rfl

/-- What is read off the payloads alone, and not off the values they refer to, is read alike. -/
theorem read_payload (read : Payload ν → Option α)
    (silent : ∀ name operands regions, read (.other name operands regions) = none)
    (same : ∀ p : Payload ν, read (p.renumber R) = read p) :
    ((d'.bodyOf block').filterMap fun e => read e.2.payload) =
      (d.bodyOf block).filterMap fun e => read e.2.payload :=
  c.read_same (fun e name operands regions payload => by rw [payload, silent])
    (fun e name operands regions payload => by rw [payload, silent])
    (fun e _ e' copied => by rw [copied.here.payload, same])

theorem notes_eq : notesOf (d'.bodyOf block') = notesOf (d.bodyOf block) := by
  have types := c.read_payload Payload.sourceType? (fun _ _ _ => rfl) fun p => by cases p <;> rfl
  have enums := c.read_payload Payload.enum? (fun _ _ _ => rfl) fun p => by cases p <;> rfl
  rw [notesOf, notesOf, typeOf, typeOf, enumTable, enumTable, types, enums,
    c.hasVariable_eq, c.hasScope_eq]

theorem mentions_eq : mentionsIn (d'.bodyOf block') = mentionsIn (d.bodyOf block) := by
  have mentions := c.read_payload Payload.moduleName? (fun _ _ _ => rfl) fun p => by cases p <;> rfl
  rw [mentionsIn, mentionsIn, mentions, c.hasScope_eq]

theorem scopesOf_eq : scopesOf (d'.bodyOf block') =
    (scopesOf (d.bodyOf block)).map fun x =>
      (R.op x.1, { x.2 with scope := x.2.scope.map R.value }) := by
  refine c.read _ (fun e name operands regions payload => by rw [payload]; rfl)
    (fun e name operands regions payload => by rw [payload]; rfl) fun e _ e' copied => ?_
  rw [copied.here.payload, copied.id]
  cases e.2.payload <;> rfl

theorem enumsOf_eq : enumsOf (d'.bodyOf block') = (enumsOf (d.bodyOf block)).map fun x =>
    (R.op x.1, x.2) := by
  refine c.read _ (fun e name operands regions payload => by rw [payload]; rfl)
    (fun e name operands regions payload => by rw [payload]; rfl) fun e _ e' copied => ?_
  rw [copied.here.payload, copied.id]
  cases e.2.payload <;> rfl

theorem infosOf_eq : infosOf (d'.bodyOf block') = (infosOf (d.bodyOf block)).map R.op := by
  have infos (body : List (Entry ν)) :
      infosOf body = body.filterMap fun e => if e.2.payload.isInfo then some e.1 else none := by
    rw [infosOf, ← List.filterMap_eq_map, List.filterMap_filter]
    rfl
  rw [infos, infos]
  refine c.read _ (fun e name operands regions payload => by rw [payload]; rfl)
    (fun e name operands regions payload => by rw [payload]; rfl) fun e _ e' copied => ?_
  rw [copied.here.payload, copied.id]
  cases e.2.payload <;> rfl

/-- A value of the body stands where it stood. -/
theorem place_eq {v : ValueId} (inside : v ∈ d.valuesIn block) :
    d'.placeIn block' (R.value v) = d.placeIn block v := by
  rw [Design.placeIn, Design.placeIn, c.args, c.created, idxOf?_map c.values, idxOf?_map c.values]
  cases input : (d.argsOf block).idxOf? v with
  | some i => rfl
  | none =>
    cases made : (d.createdIn block).idxOf? v with
    | some i => rfl
    | none =>
      rcases List.mem_append.1 inside with inside | inside
      · exact absurd inside (List.idxOf?_eq_none_iff.1 input)
      · exact absurd inside (List.idxOf?_eq_none_iff.1 made)

variable {ref : Option ValueId}

theorem producer_eq (inside : ∀ v ∈ ref, v ∈ d.valuesIn block) :
    d'.producer? (ref.map R.value) = (d.producer? ref).map R.op := by
  cases ref with
  | none => rfl
  | some v =>
    obtain ⟨producer, known, known'⟩ := c.producers v (inside v rfl)
    rw [Option.map_some, Design.producer?_of_ok known, Design.producer?_of_ok known']

theorem scopeIn_eq (inside : ∀ v ∈ ref, v ∈ d.valuesIn block) :
    d'.scopeIn (d'.bodyOf block') (ref.map R.value) =
      (d.scopeIn (d.bodyOf block) ref).map R.op := by
  have scopes : (scopesOf (d'.bodyOf block')).map (·.1) =
      ((scopesOf (d.bodyOf block)).map (·.1)).map R.op := by
    rw [c.scopesOf_eq, List.map_map, List.map_map]
    rfl
  rw [Design.scopeIn, Design.scopeIn, c.producer_eq inside, Option.filter_map, scopes]
  refine congrArg (Option.map R.op) (congrArg (Option.filter · _) (funext fun op => ?_))
  exact decide_eq_decide.2 (List.mem_map_of_injective c.ops)

theorem enumIn_eq (inside : ∀ v ∈ ref, v ∈ d.valuesIn block) :
    d'.enumIn (d'.bodyOf block') (ref.map R.value) = d.enumIn (d.bodyOf block) ref := by
  have faithful : Relabeling.Faithful (⟨id, R.op⟩ : Relabeling ν ν) :=
    ⟨Function.injective_id, c.ops⟩
  rw [Design.enumIn, Design.enumIn, c.producer_eq inside, c.enumsOf_eq]
  cases d.producer? ref with
  | none => rfl
  | some op => exact Survey.lookup_relabel faithful _ op

theorem portValue_eq (port : Port ν) :
    d'.portValue? block' port = (d.portValue? block port).map R.value := by
  rw [Design.portValue?, Design.portValue?, c.args, c.outputs]
  split <;> exact List.getElem?_map

theorem portValue_inside {port : Port ν} {v : ValueId} (found : d.portValue? block port = some v) :
    v ∈ d.valuesIn block := by
  unfold Design.portValue? at found
  split at found
  · exact c.yields v (List.mem_of_getElem? found)
  · exact List.mem_append_left _ (List.mem_of_getElem? found)

section Seen

variable {ports : List (Port ν)} {name : ν}

theorem varsAt_eq (level : Option OpId) :
    d'.varsAt ports block' (level.map R.op) = d.varsAt ports block level := by
  have outermost : level.map R.op = none ↔ level = none := Option.map_eq_none_iff
  have annotated : (d'.bodyOf block').filterMap (d'.annotatedAt block' (level.map R.op)) =
      (d.bodyOf block).filterMap (d.annotatedAt block level) := by
    refine c.read_same (fun e name operands regions payload => ?_)
      (fun e name operands regions payload => ?_)
      fun e he e' copied => ?_
    · rw [Design.annotatedAt, payload]; rfl
    · rw [Design.annotatedAt, payload]; rfl
    · have refers := c.refers e he
      rw [Design.annotatedAt, Design.annotatedAt, copied.here.payload, copied.here.loc]
      cases payload : e.2.payload with
      | dbgVariable note =>
        simp only [payload, Payload.operands, List.mem_cons, List.mem_append,
          Option.mem_toList] at refers
        have scope := c.scopeIn_eq fun v hv => refers v (.inr (.inl hv))
        have enum := c.enumIn_eq fun v hv => refers v (.inr (.inr hv))
        have place := c.place_eq (refers note.value (.inl rfl))
        have level' := (Option.map_injective c.ops).eq_iff
          (a := d.scopeIn (d.bodyOf block) note.scope) (b := level)
        simp only [Payload.renumber, Payload.annotation?, Option.bind_some, scope,
          enum, place, level']
      | _ => simp only [Payload.renumber, Payload.annotation?, Option.bind_none]
  have wires : (d'.bodyOf block').filterMap (d'.wireFace block') =
      (d.bodyOf block).filterMap (d.wireFace block) := by
    refine c.read_same (fun e name operands regions payload => ?_)
      (fun e name operands regions payload => ?_)
      fun e he e' copied => ?_
    · rw [Design.wireFace, payload]
    · rw [Design.wireFace, payload]
    · rw [Design.wireFace, Design.wireFace, copied.here.payload, copied.here.loc]
      cases payload : e.2.payload with
      | wire name input =>
        have result : (e'.2.result?).map (d'.placeIn block') =
            e.2.result?.map (d.placeIn block) := by
          rw [Operation.result?, Operation.result?, copied.here.results,
            List.head?_map, Option.map_map]
          refine Option.map_congr fun v hv => c.place_eq (List.mem_append_right _ ?_)
          exact List.mem_flatMap.2 ⟨e, he, List.mem_of_head? hv⟩
        simp only [Payload.renumber, result]
      | _ => rfl
  have port : d'.portFace block' = d.portFace block := by
    funext port
    rw [Design.portFace, Design.portFace, c.portValue_eq, Option.map_map]
    exact congrArg (VariableFace.mk _ _ _ _)
      (Option.map_congr fun v hv => c.place_eq (c.portValue_inside hv))
  simp only [Design.varsAt, c.hasVariable_eq, annotated, wires, port, outermost]

theorem instsAt_eq {inner inner' : OpId → View ν}
    (deeper : ∀ scope, inner' (R.op scope) = inner scope) (level : Option OpId) :
    d'.instsAt block' inner' (level.map R.op) = d.instsAt block inner level := by
  have outermost : level.map R.op = none ↔ level = none := Option.map_eq_none_iff
  have opened : (d'.bodyOf block').filterMap (d'.openedAt block' inner' (level.map R.op)) =
      (d.bodyOf block).filterMap (d.openedAt block inner level) := by
    refine c.read_same (fun e name operands regions payload => ?_)
      (fun e name operands regions payload => ?_)
      fun e he e' copied => ?_
    · rw [Design.openedAt, payload]; rfl
    · rw [Design.openedAt, payload]; rfl
    · have refers := c.refers e he
      rw [Design.openedAt, Design.openedAt, copied.here.payload, copied.id, deeper]
      cases payload : e.2.payload with
      | dbgScope note =>
        simp only [payload, Payload.operands, Option.mem_toList] at refers
        have scope := c.scopeIn_eq refers
        have level' := (Option.map_injective c.ops).eq_iff
          (a := d.scopeIn (d.bodyOf block) note.scope) (b := level)
        simp only [Payload.renumber, Payload.scope?, Option.bind_some, scope, level']
      | _ => simp only [Payload.renumber, Payload.scope?, Option.bind_none]
  have named : (d'.bodyOf block').filterMap Design.instFace =
      (d.bodyOf block).filterMap Design.instFace := by
    refine c.read_same (fun e name operands regions payload => ?_)
      (fun e name operands regions payload => ?_)
      fun e he e' copied => ?_
    · rw [Design.instFace, payload]
    · rw [Design.instFace, payload]
    · rw [Design.instFace, Design.instFace, copied.here.payload]
      cases e.2.payload <;> rfl
  simp only [Design.instsAt, c.hasScope_eq, opened, named, outermost]

theorem faceAt_eq (level : Option OpId) :
    d'.faceAt block' name (level.map R.op) = d.faceAt block name level := by
  cases level with
  | none => rw [Option.map_none, Design.faceAt, Design.faceAt, c.notes_eq]
  | some scope =>
    have faithful : Relabeling.Faithful (⟨id, R.op⟩ : Relabeling ν ν) :=
      ⟨Function.injective_id, c.ops⟩
    have split : ((scopesOf (d.bodyOf block)).map fun x =>
          (R.op x.1, { x.2 with scope := x.2.scope.map R.value })) =
        ((scopesOf (d.bodyOf block)).map fun x =>
          (x.1, { x.2 with scope := x.2.scope.map R.value })).map fun x => (R.op x.1, x.2) := by
      rw [List.map_map]
      rfl
    rw [Option.map_some, Design.faceAt, Design.faceAt, c.scopesOf_eq, split,
      Survey.lookup_relabel faithful]
    induction scopesOf (d.bodyOf block) with
    | nil => rfl
    | cons x rest ih =>
      rw [List.map_cons, List.lookup_cons, List.lookup_cons]
      split
      · rfl
      · exact ih

/-- **Copies seen.** A copied body is seen alike, to any depth. -/
theorem bodyView_eq (depth : Nat) (level : Option OpId) :
    d'.bodyView ports block' name depth (level.map R.op) =
      d.bodyView ports block name depth level := by
  induction depth generalizing level with
  | zero => rfl
  | succ depth ih =>
    rw [Design.bodyView, Design.bodyView, c.faceAt_eq, c.varsAt_eq,
      c.instsAt_eq fun scope => ih (some scope)]

end Seen

section Problems

variable {ref : Option ValueId} {policy : ScopePolicy} (user user' : OpId)

theorem scopeProblem_none (policy : ScopePolicy) (inside : ∀ v ∈ ref, v ∈ d.valuesIn block) :
    scopeProblem d' policy (d'.bodyOf block') user' (ref.map R.value) = none ↔
      scopeProblem d policy (d.bodyOf block) user ref = none := by
  cases ref with
  | none => exact Iff.rfl
  | some v =>
    obtain ⟨producer, known, known'⟩ := c.producers v (inside v rfl)
    have scope := c.scopeIn_eq inside
    rw [Option.map_some] at scope
    simp [scopeProblem, known, known', scope]

theorem enumProblem_none (inside : ∀ v ∈ ref, v ∈ d.valuesIn block) :
    enumProblem d' (d'.bodyOf block') user' (ref.map R.value) = none ↔
      enumProblem d (d.bodyOf block) user ref = none := by
  cases ref with
  | none => exact Iff.rfl
  | some v =>
    obtain ⟨producer, known, known'⟩ := c.producers v (inside v rfl)
    have enum := c.enumIn_eq inside
    rw [Option.map_some] at enum
    simp [enumProblem, known, known', enum]

theorem noteProblem_none {e e' : Entry ν} (he : e ∈ d.bodyOf block) (copied : e.Copied R e') :
    noteProblem d' policy (d'.bodyOf block') e' = none ↔
      noteProblem d policy (d.bodyOf block) e = none := by
  have refers := c.refers e he
  rw [noteProblem, noteProblem, copied.here.payload]
  cases payload : e.2.payload with
  | dbgVariable note =>
    simp only [payload, Payload.operands, List.mem_cons, List.mem_append,
      Option.mem_toList] at refers
    have scope := c.scopeProblem_none e.1 e'.1 policy
      fun v hv => refers v (.inr (.inl hv))
    have enum := c.enumProblem_none e.1 e'.1 fun v hv => refers v (.inr (.inr hv))
    simp only [Payload.renumber, Option.or_eq_none_iff, scope, enum]
  | dbgScope note =>
    simp only [payload, Payload.operands, Option.mem_toList] at refers
    exact c.scopeProblem_none _ _ policy refers
  | _ => exact Iff.rfl

theorem infoProblem_none (policy : InfoPolicy) :
    infoProblem policy user' (d'.bodyOf block') = none ↔
      infoProblem policy user (d.bodyOf block) = none := by
  cases policy with
  | lastWins => simp only [infoProblem]
  | strict =>
    simp only [infoProblem, c.infosOf_eq]
    match infosOf (d.bodyOf block) with
    | [] => exact Iff.rfl
    | [_] => exact Iff.rfl
    | _ :: _ :: _ => simp

/-- **Problems.** A copied body has a problem just where the body has one. -/
theorem bodyProblem_none (options : Options) (ports : List (Port ν)) :
    bodyProblem d' options user' ports block' = none ↔
      bodyProblem d options user ports block = none := by
  have notes : (∀ f ∈ d'.bodyOf block', noteProblem d' options.scopes (d'.bodyOf block') f = none) ↔
      ∀ f ∈ d.bodyOf block, noteProblem d options.scopes (d.bodyOf block) f = none := by
    refine c.forall_iff (fun e name operands regions payload => ?_)
      (fun e name operands regions payload => ?_)
      fun e he e' copied => c.noteProblem_none he copied
    · rw [noteProblem, payload]
    · rw [noteProblem, payload]
  simp only [bodyProblem_eq_none_iff, c.infoProblem_none user user',
    c.hasVariable_eq, c.portValue_eq, Option.isSome_map, notes]

end Problems

end CopiedBody

namespace Forest

/-- The values that a forest yields at its end are referred to by one of its operations. -/
theorem operand_of_output {F : Forest ν} {v : ValueId} (yields : v ∈ F.outputs) :
    ∃ x ∈ F.preorder, v ∈ x.2.payload.operands := by
  have ends {op : Operation ν} (last : F.last? = some op) : ∃ x ∈ F.preorder, x.2 = op := by
    clear yields
    induction F with
    | nil => cases last
    | cons id op' inner rest _ ih =>
      rw [last?] at last
      rcases Option.or_eq_some_iff.1 last with later | ⟨_, here⟩
      · obtain ⟨x, hx, same⟩ := ih later
        exact ⟨x, List.mem_append_right _ hx, same⟩
      · exact ⟨(id, op'), List.mem_cons_self, Option.some.inj here⟩
  unfold outputs at yields
  cases last : F.last? with
  | none =>
    rw [last] at yields
    cases yields
  | some op =>
    obtain ⟨x, hx, rfl⟩ := ends last
    refine ⟨x, hx, ?_⟩
    rw [last, Option.bind_some] at yields
    cases payload : x.2.payload with
    | output operands =>
      rw [payload] at yields
      exact yields
    | _ =>
      rw [payload] at yields
      cases yields

theorem Like.results_eq {R : Renumbering} {F F' : Forest ν} (like : Like R F F') :
    F'.results = F.results.map R.value := by
  induction like with
  | nil => rfl
  | @node id op op' inner inner' rest rest' here _ _ _ ihInner ihRest =>
    unfold results at ihInner ihRest ⊢
    simp only [preorder, List.cons_append, List.flatMap_cons, List.flatMap_append, ihInner,
      ihRest, here.results, List.map_append]
  | @wrapped id op run run' rest rest' bare _ _ ihRun ihRest =>
    rw [results_append, List.map_append, ← ihRun, ← ihRest]
    unfold results
    simp only [preorder, List.cons_append, List.flatMap_cons, List.flatMap_append,
      bare.results, List.nil_append]

end Forest

/-! ### Declarations told -/

def Design.problemIn (d : Design ν) (options : Options) (e : Entry ν) : Option (Failure ν) :=
  match e.2.payload with
  | .module _ ports block => bodyProblem d options e.1 ports block
  | _ => none

namespace Declaration

variable (D : Declaration)

/-- The design of a declaration that is carried out alone. -/
def alone : Design String :=
  match D.draft.run .empty with
  | .ok _ t | .error _ t => t.design

def made? : Option (Entry String) := D.alone.definitions.head?

def shows (depth : Nat) : View String := (D.made?.map fun e => D.alone.shows e depth).getD .cut

def mentions : List String := (D.made?.map D.alone.mentionsOf).getD []

def Sound (options : Options) : Prop := ∀ e ∈ D.made?, D.alone.problemIn options e = none

/-- The definition shows and instantiates what the declaration does, and is as sound. -/
structure Told (d : Design String) (e : Entry String) : Prop where
  name : e.2.payload.symbol? = some D.name
  shows : ∀ depth, d.shows e depth = D.shows depth
  mentions : d.mentionsOf e = D.mentions
  sound : ∀ options, d.problemIn options e = none ↔ D.Sound options

variable {D} {t₀ : Draft} {p₀ : Entry String × Forest String}

theorem Makes.alone_eq (makes : D.Makes t₀ p₀) : D.alone = t₀.design := by rw [alone, makes.run]

theorem Makes.made?_eq (makes : D.Makes t₀ p₀) : D.made? = some p₀.1 := by
  rw [made?, makes.alone_eq, Design.definitions, ← Forest.parts_map_fst, makes.parts]
  rfl

/-- What a definition that is as seen as the one a declaration makes alone tells. -/
theorem Makes.told (makes : D.Makes t₀ p₀) {d : Design String} {e : Entry String}
    (name : e.2.payload.symbol? = p₀.1.2.payload.symbol?)
    (shows : ∀ depth, d.shows e depth = t₀.design.shows p₀.1 depth)
    (mentions : d.mentionsOf e = t₀.design.mentionsOf p₀.1)
    (sound : ∀ options, d.problemIn options e = none ↔ t₀.design.problemIn options p₀.1 = none) :
    D.Told d e where
  name := name.trans makes.name
  shows depth := by rw [shows, Declaration.shows, makes.made?_eq, makes.alone_eq]; rfl
  mentions := by rw [mentions, Declaration.mentions, makes.made?_eq, makes.alone_eq]; rfl
  sound options := by
    rw [sound, Sound, makes.made?_eq, makes.alone_eq]
    exact ⟨fun none e he => Option.some.inj he ▸ none, fun none => none _ rfl⟩

/-- The body of a copied module is a copy. -/
theorem Makes.copiedBody (makes : D.Makes t₀ p₀) {R : Renumbering} {d : Design String}
    {F : Forest String} {p : Entry String × Forest String}
    (copies : Design.Copies R t₀.design d p₀ p) (n : Nesting d F) (hp : p ∈ F.parts) {name : String}
    {ports : List (Port String)} {block : BlockId}
    (payload : p₀.1.2.payload = .module name ports block) :
    CopiedBody R t₀.design d block (R.block block) := by
  have payload' : p.1.2.payload = .module name ports (R.block block) := by
    rw [copies.here.payload, payload]; rfl
  have hp₀ : p₀ ∈ (t₀.design.under Design.top).parts := makes.parts ▸ List.mem_singleton_self _
  have body₀ := makes.nesting.bodyIn_of_mem_parts hp₀
  have body := n.bodyIn_of_mem_parts hp
  rw [Design.bodyIn_of_module _ payload] at body₀
  rw [Design.bodyIn_of_module _ payload'] at body
  obtain ⟨stands₀, -, -, heads₀⟩ :=
    Forest.part_of_mem makes.nesting.stands makes.nesting.flat p₀ hp₀
  obtain ⟨stands, -, -, heads⟩ := Forest.part_of_mem n.stands n.flat p hp
  rw [payload] at heads₀
  rw [payload'] at heads
  simp only [Payload.regions, List.flatMap_singleton] at heads₀ heads
  have here : block ∈ p₀.1.2.payload.regions := by rw [payload]; exact List.mem_singleton_self _
  obtain ⟨args, found, within, there⟩ := makes.body block here
  obtain ⟨args', found', known'⟩ := copies.args block here
  rw [found, Option.some.injEq] at found'
  subst found'
  have inputs : t₀.design.argsOf block = args := by rw [Design.argsOf_eq, found]; rfl
  have created : t₀.design.createdIn block = p₀.2.results := by rw [Design.createdIn, body₀]; rfl
  have values : t₀.design.valuesIn block = args ++ p₀.2.results := by
    rw [Design.valuesIn, inputs, created]
  have outputs := Forest.outputsOf_eq stands₀ heads₀
  have refers : ∀ e ∈ t₀.design.bodyOf block, ∀ v ∈ e.2.payload.operands, v ∈
      t₀.design.valuesIn block := by
    rw [body₀, values]
    exact within
  refine ⟨copies.ops, copies.values, ?_, ?_, ?_, ?_, refers, fun v hv => ?_, fun v hv => ?_⟩
  · rw [body₀, body]
    exact copies.like.essence_alike.imp fun _ _ same => ⟨same.1, same.2⟩
  · rw [Design.argsOf_eq, known', inputs]
    rfl
  · rw [created, Design.createdIn, body]
    exact copies.like.results_eq
  · rw [Forest.outputsOf_eq stands heads, copies.outputs, outputs]
  · rw [outputs] at hv
    obtain ⟨x, hx, operand⟩ := Forest.operand_of_output hv
    exact refers x (body₀ ▸ hx) v operand
  · have inside := there v (values ▸ hv)
    have same := copies.producers v inside
    rw [Array.getElem?_eq_getElem inside] at same
    refine ⟨t₀.design.values[v.index].op?, ?_, ?_⟩
    · rw [Design.definingOp_eq, Array.getElem?_eq_getElem inside]
      rfl
    · rw [Design.definingOp_eq, same]
      rfl

/-- **Definitions told.** What a definition shows, instantiates and gets wrong is told by its
declaration, wherever it stands. -/
theorem StandsIn.told {d : Design String} {F : Forest String} {p : Entry String × Forest String}
    (stands : D.StandsIn d p) (n : Nesting d F) (hp : p ∈ F.parts) : D.Told d p.1 := by
  obtain ⟨R, t₀, p₀, makes, copies⟩ := stands
  have payload' := copies.here.payload
  cases payload : p₀.1.2.payload with
  | module name ports block =>
    have c := makes.copiedBody copies n hp payload
    rw [payload] at payload'
    replace payload' : p.1.2.payload = .module name ports (R.block block) := payload'
    refine makes.told (by rw [payload, payload']; rfl) (fun depth => ?_) ?_ fun options => ?_
    · rw [Design.shows, Design.shows, payload, payload']
      exact c.bodyView_eq depth none
    · rw [Design.mentionsOf, Design.mentionsOf, Design.bodyIn_of_module _ payload,
        Design.bodyIn_of_module _ payload', c.mentions_eq]
    · rw [Design.problemIn, Design.problemIn, payload, payload']
      exact c.bodyProblem_none _ _ options ports
  | externModule name ports =>
    rw [payload] at payload'
    replace payload' : p.1.2.payload = .externModule name ports := payload'
    refine makes.told (by rw [payload, payload']) (fun depth => ?_) ?_ fun options => ?_
    · rw [Design.shows, Design.shows, payload, payload']
    · rw [Design.mentionsOf, Design.mentionsOf, Design.bodyIn, Design.bodyIn, payload, payload']
    · rw [Design.problemIn, Design.problemIn, payload, payload']
  | _ =>
    have name := makes.name
    rw [payload] at name
    cases name

end Declaration

end DebugHierarchy
