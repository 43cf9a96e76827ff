import DebugHierarchy.Proofs.Settling

/-!
What every extraction records, whether it succeeds or fails.

An extraction may end at any operation, and what it recorded until then stays in its journal.
`Event.Sound` says what an event needs besides free handles: operations of the right kind, and
owners that are more than a name someone referred to.

* `Closed`: what holds of the hierarchy after any sound events (`Closed.apply`);
* `Safe`: a step records sound events only, up to its end or its failure;
* `Building.all_safe`: every extraction is such a step, from any design.
-/

namespace DebugHierarchy

variable {ν α β : Type}

namespace Design

variable (d : Design ν) (op : OpId)

def Defines (name : ν) (kind : ModuleKind) : Prop :=
  ∃ o, d.op op = .ok o ∧ o.payload.symbol? = some name ∧ o.payload.moduleKind? = some kind

def Opens (name : ν) : Prop := ∃ o note, d.op op = .ok o ∧ o.payload = .dbgScope note ∧
  note.moduleName = name

/-- The operation is one that may have an instance: an instance operation or a scope. -/
def Instantiates : Prop := ∃ o, d.op op = .ok o ∧
  ((∃ name moduleName inputs, o.payload = .inst name moduleName inputs) ∨
    ∃ note, o.payload = .dbgScope note)

end Design

namespace Hierarchy

variable (h : Hierarchy ν) (id : ModuleId)

def Defined : Prop := ∃ name kind op, h.labelAt id.index = some (name, .defined kind op)

/-- The module is there, and it comes from an operation. -/
def Made : Prop := ∃ name origin, h.labelAt id.index = some (name, origin) ∧ origin ≠ .referenced

variable {h id}

theorem Defined.made (defined : h.Defined id) : h.Made id := by
  obtain ⟨name, kind, op, label⟩ := defined
  exact ⟨name, _, label, nofun⟩

theorem Made.lt (made : h.Made id) : id.index < h.moduleCount := by
  obtain ⟨_, _, label, _⟩ := made
  exact labelAt_lt label

end Hierarchy

/-- What an event needs of the design and of the hierarchy it is recorded in. -/
def Event.Sound [DecidableEq ν] (d : Design ν) (h : Hierarchy ν) (e : Event ν) : Prop :=
  e.Fits h ∧ match e with
    | .define id kind op =>
      ∃ name, h.labelAt id.index = some (name, .referenced) ∧ d.Defines op name kind
    | .inlineModule _ name scope parent => h.Defined parent ∧ d.Opens scope name
    | .setInfo id _ | .setEnum id _ _ | .surveyed id _ => h.Made id
    | .addVariable _ _ node => h.Made node.owner
    | .addInstance _ _ owner node => h.Made owner ∧ d.Instantiates node.op
    | _ => True

namespace Hierarchy

variable {h : Hierarchy ν} {e : Event ν} {i : Nat} {name : ν} {origin : Origin}

/-- A label that is there after an event was there before, or the event gives it. -/
theorem labelAt_cases (label : (h.apply e).labelAt i = some (name, origin)) :
    h.labelAt i = some (name, origin) ∨ (∃ id, e = .register id name ∧ origin = .referenced) ∨
      (∃ id kind op, e = .define id kind op ∧ id.index = i ∧ origin = .defined kind op ∧
        ∃ before, h.labelAt i = some (name, before)) ∨
      ∃ id scope parent, e = .inlineModule id name scope parent ∧ origin = .scope scope parent := by
  cases e with
  | register id n =>
    rw [apply, labelAt_addModule h.store h.catalog] at label
    split at label
    · cases label
      exact .inr (.inl ⟨id, rfl, rfl⟩)
    · exact .inl label
  | define id kind op =>
    simp only [apply, labelAt, Store.modifyModule, Array.getElem?_modify] at label
    split at label
    · next same =>
      obtain ⟨m', hm', both⟩ := Option.map_eq_some_iff.1 label
      obtain ⟨m, hm, rfl⟩ := Option.map_eq_some_iff.1 hm'
      cases both
      refine .inr (.inr (.inl ⟨id, kind, op, rfl, same, rfl, m.origin, ?_⟩))
      rw [labelAt, hm]
      rfl
    · exact .inl label
  | inlineModule id n scope parent =>
    rw [apply, labelAt_addModule h.store h.catalog] at label
    split at label
    · cases label
      exact .inr (.inr (.inr ⟨id, scope, parent, rfl, rfl⟩))
    · exact .inl label
  | addVariable | addInstance | setInfo | setEnum | surveyed =>
    refine .inl (Eq.trans (Eq.symm ?_) label)
    refine labelAt_modifyModule h.catalog ?_ i
    exact fun m => ⟨rfl, rfl⟩
  | collect | replaceInfo | keepEnum | looseScope | built => exact .inl label

variable [DecidableEq ν]

/-- Only the label of a module that was referred to ever changes. -/
theorem labelAt_apply (fits : e.Fits h) (label : h.labelAt i = some (name, origin))
    (made : origin ≠ .referenced) : (h.apply e).labelAt i = some (name, origin) := by
  cases e with
  | register | inlineModule =>
    have old : i ≠ h.store.modules.size := Nat.ne_of_lt (labelAt_lt label)
    rw [apply, labelAt_addModule h.store h.catalog, if_neg old]
    exact label
  | define id kind op =>
    obtain ⟨other, undefined⟩ := fits
    have apart : i ≠ id.index := by
      rintro rfl
      rw [label] at undefined
      cases undefined
      exact made rfl
    rwa [labelAt_define undefined, if_neg apart]
  | addVariable | addInstance | setInfo | setEnum | surveyed =>
    refine Eq.trans ?_ label
    refine labelAt_modifyModule h.catalog ?_ i
    exact fun m => ⟨rfl, rfl⟩
  | collect | replaceInfo | keepEnum | looseScope | built => exact label

theorem Defined.apply {id : ModuleId} (defined : h.Defined id) (fits : e.Fits h) :
    (h.apply e).Defined id := by
  obtain ⟨name, kind, op, label⟩ := defined
  exact ⟨name, kind, op, labelAt_apply fits label nofun⟩

theorem Made.apply {id : ModuleId} (made : h.Made id) (fits : e.Fits h) : (h.apply e).Made id := by
  obtain ⟨name, origin, label, other⟩ := made
  exact ⟨name, origin, labelAt_apply fits label other, other⟩

end Hierarchy

/-! ### Closed hierarchies -/

/-- The modules are what the operations make them, every reference leads somewhere, and what
was only referred to is empty. -/
structure Closed [DecidableEq ν] (d : Design ν) (h : Hierarchy ν) : Prop where
  labels : ∃ f, Labels h f
  lists : ∃ f, Lists h f
  defined : ∀ {i name kind op}, h.labelAt i = some (name, .defined kind op) → d.Defines op name kind
  scopes : ∀ {i name op parent}, h.labelAt i = some (name, .scope op parent) →
    h.Defined parent ∧ d.Opens op name
  insts : ∀ {i : Nat} {node}, h.store.insts[i]? = some node →
    node.target.index < h.moduleCount ∧ d.Instantiates node.op
  bare : ∀ {i : Nat} {m}, h.store.modules[i]? = some m → m.origin = .referenced →
    m = .bare m.name .referenced
  listed : ∀ id ∈ h.catalog.order, id.index < h.moduleCount
  topLevel : ∀ id ∈ h.catalog.defined, h.Defined id

namespace Closed

variable [DecidableEq ν] {d : Design ν} {h : Hierarchy ν} {e : Event ν}

theorem empty : Closed d .empty where
  labels := ⟨_, Progress.labels_start⟩
  lists := ⟨_, Progress.lists_start⟩
  defined label := by simp [Hierarchy.empty, Hierarchy.labelAt, Store.empty] at label
  scopes label := by simp [Hierarchy.empty, Hierarchy.labelAt, Store.empty] at label
  insts found := by simp [Hierarchy.empty, Store.empty] at found
  bare found := by simp [Hierarchy.empty, Store.empty] at found
  listed id hid := by simp [Hierarchy.empty, Catalog.empty] at hid
  topLevel id hid := by simp [Hierarchy.empty, Catalog.empty] at hid

/-- A module that an event changes is one that was made, so what was
only referred to stays empty. -/
theorem bare_modifyModule (c : Closed d h) {id : ModuleId} (made : h.Made id)
    {change : ModuleNode ν → ModuleNode ν} (same : ∀ m, (change m).origin = m.origin) {i : Nat}
    {m : ModuleNode ν} (found : (h.store.modifyModule id change).modules[i]? = some m)
    (referenced : m.origin = .referenced) : m = .bare m.name .referenced := by
  simp only [Store.modifyModule, Array.getElem?_modify] at found
  split at found
  · next here =>
    obtain ⟨m', hm', rfl⟩ := Option.map_eq_some_iff.1 found
    obtain ⟨name, origin, label, other⟩ := made
    rw [here, Hierarchy.labelAt, hm'] at label
    cases label
    rw [same] at referenced
    exact absurd referenced other
  · exact c.bare found referenced

theorem bare_addModule (c : Closed d h) {name : ν} {origin : Origin} {i : Nat} {m : ModuleNode ν}
    (found : (h.store.addModule (.bare name origin)).modules[i]? = some m)
    (referenced : m.origin = .referenced) : m = .bare m.name .referenced := by
  simp only [Store.addModule, Array.getElem?_push] at found
  split at found
  · cases found
    rw [show origin = .referenced from referenced]
    rfl
  · exact c.bare found referenced

/-- **Closed steps.** A sound event keeps a hierarchy closed. -/
theorem apply (c : Closed d h) (sound : e.Sound d h) : Closed d (h.apply e) := by
  obtain ⟨fits, needs⟩ := sound
  have larger : h.moduleCount ≤ (h.apply e).moduleCount :=
    Nat.le.intro (Hierarchy.moduleCount_apply h e).symm
  refine ⟨?_, ?_, ?_, ?_, ?_, ?_, ?_, ?_⟩
  · obtain ⟨f, labels⟩ := c.labels
    exact ⟨_, labels.apply fits⟩
  · obtain ⟨f, lists⟩ := c.lists
    exact ⟨_, lists.apply fits⟩
  · intro i name kind op label
    rcases Hierarchy.labelAt_cases label with
      old | ⟨_, rfl, new⟩ | ⟨id, _, _, rfl, rfl, new, before, old⟩ | ⟨_, _, _, rfl, new⟩
    · exact c.defined old
    · cases new
    · cases new
      obtain ⟨n, undefined, defines⟩ := needs
      rw [old] at undefined
      cases undefined
      exact defines
    · cases new
  · intro i name op parent label
    rcases Hierarchy.labelAt_cases label with old | ⟨_, rfl, new⟩ | ⟨_, _, _, rfl, _, new, _⟩ |
      ⟨_, _, _, rfl, new⟩
    · exact (c.scopes old).imp_left (·.apply fits)
    · cases new
    · cases new
    · cases new
      exact needs.imp_left (·.apply fits)
  · have old {i : Nat} {node : InstanceNode ν} (found : h.store.insts[i]? = some node) :=
      (c.insts found).imp_left (Nat.lt_of_lt_of_le · larger)
    intro i node found
    cases e with
    | addInstance origin id owner new =>
      simp only [Hierarchy.apply, Store.addInstance, Store.modifyModule,
        Array.getElem?_push] at found
      split at found
      · cases found
        exact ⟨Nat.lt_of_lt_of_le fits.2.2 larger, needs.2⟩
      · exact old found
    | _ => exact old found
  · intro i m found referenced
    cases e with
    | register | inlineModule => exact c.bare_addModule found referenced
    | define id kind op =>
      simp only [Hierarchy.apply, Store.modifyModule, Array.getElem?_modify] at found
      split at found
      · obtain ⟨m', hm', rfl⟩ := Option.map_eq_some_iff.1 found
        cases referenced
      · exact c.bare found referenced
    | setInfo | setEnum | surveyed | addVariable =>
      refine c.bare_modifyModule needs ?_ found referenced
      exact fun _ => rfl
    | addInstance =>
      refine c.bare_modifyModule needs.1 ?_ found referenced
      exact fun _ => rfl
    | collect | replaceInfo | keepEnum | looseScope | built => exact c.bare found referenced
  · intro x hx
    cases e with
    | register id name =>
      rcases Array.mem_push.1 hx with old | rfl
      · exact Nat.lt_of_lt_of_le (c.listed x old) larger
      · rw [Hierarchy.moduleCount_apply]
        exact fits.1 ▸ Nat.lt_succ_self _
    | _ => exact Nat.lt_of_lt_of_le (c.listed x hx) larger
  · intro id hid
    cases e with
    | define new kind op =>
      rcases Array.mem_push.1 hid with old | rfl
      · exact (c.topLevel id old).apply fits
      · obtain ⟨name, undefined, _⟩ := needs
        exact ⟨name, kind, op, (Hierarchy.labelAt_define undefined _ _ _).trans (if_pos rfl)⟩
    | _ => exact (c.topLevel id hid).apply fits

/-- A name stands for a module that is there. -/
theorem find?_lt (c : Closed d h) {name : ν} {id : ModuleId} (found : h.find? name = some id) :
    id.index < h.moduleCount := by
  obtain ⟨f, labels⟩ := c.labels
  obtain ⟨_, label, _⟩ := labels.catalog.1 found
  exact Hierarchy.labelAt_lt label

end Closed

/-- The hierarchy is the replay of the journal, and it was closed after every event. -/
structure Progress.Sound [DecidableEq ν] (d : Design ν) (p : Progress ν) : Prop where
  replayed : p.hierarchy = .replay p.journal.toList
  closed : ∀ part, part <+: p.journal.toList → Closed d (.replay part)

/-- From one state to a later one, modules stay what they are. -/
structure Progress.Grows (p q : Progress ν) : Prop where
  defined : ∀ {id}, p.hierarchy.Defined id → q.hierarchy.Defined id
  made : ∀ {id}, p.hierarchy.Made id → q.hierarchy.Made id
  count : p.hierarchy.moduleCount ≤ q.hierarchy.moduleCount

namespace Progress

variable {d : Design ν} {p q r : Progress ν} {e : Event ν}

theorem Grows.refl (p : Progress ν) : p.Grows p := ⟨id, id, Nat.le_refl _⟩

theorem Grows.trans (first : p.Grows q) (next : q.Grows r) : p.Grows r :=
  ⟨next.defined ∘ first.defined, next.made ∘ first.made, Nat.le_trans first.count next.count⟩

variable [DecidableEq ν]

theorem Grows.record (fits : e.Fits p.hierarchy) : p.Grows (p.record e) :=
  ⟨(·.apply fits), (·.apply fits), Nat.le.intro (Hierarchy.moduleCount_apply p.hierarchy e).symm⟩

theorem Sound.here (s : p.Sound d) : Closed d p.hierarchy :=
  s.replayed ▸ s.closed _ (List.prefix_refl _)

theorem Sound.start : (start : Progress ν).Sound d := by
  refine ⟨rfl, fun part short => ?_⟩
  rw [show part = [] from List.prefix_nil.1 short]
  exact .empty

theorem Sound.record (s : p.Sound d) (sound : e.Sound d p.hierarchy) : (p.record e).Sound d := by
  have replayed : (p.record e).hierarchy = .replay (p.record e).journal.toList := by
    simp only [Progress.record, Hierarchy.replay, Array.toList_push,
      List.foldl_append, List.foldl_cons, List.foldl_nil]
    rw [s.replayed, Hierarchy.replay]
  refine ⟨replayed, fun part up => ?_⟩
  rw [Progress.record, Array.toList_push, List.prefix_concat_iff] at up
  rcases up with rfl | up
  · rw [← Array.toList_push]
    exact replayed ▸ s.here.apply sound
  · exact s.closed part up

end Progress

/-- From a state with sound records, the step comes to one, whether it ends or fails; where it ends,
modules have stayed what they were and `post` holds. -/
def Safe [DecidableEq ν] (d : Design ν) (x : Building ν α) (p : Progress ν)
    (post : α → Progress ν → Prop) : Prop :=
  p.Sound d → match x.run p with
    | .ok a q => q.Sound d ∧ p.Grows q ∧ post a q
    | .error _ q => q.Sound d

namespace Safe

variable [DecidableEq ν] {d : Design ν} {x : Building ν α} {f : α → Building ν β} {p : Progress ν}
  {post : α → Progress ν → Prop} {post' : β → Progress ν → Prop} {e : Event ν}

theorem pure {a : α} (holds : post a p) : Safe d (Pure.pure a) p post :=
  fun s => ⟨s, .refl p, holds⟩

theorem throw (failure : Failure ν) : Safe d (throw failure : Building ν α) p post := id

theorem reject (error : BuildError ν) : Safe d (Building.reject error : Building ν α) p post := id

theorem record {post : Unit → Progress ν → Prop} (sound : e.Sound d p.hierarchy)
    (holds : post () (p.record e)) : Safe d (Building.record e) p post :=
  fun s => ⟨s.record sound, .record sound.1, holds⟩

/-- A step that looks at the state first. -/
theorem get {f : Progress ν → Building ν β} (h : p.Sound d → Safe d (f p) p post') :
    Safe d (MonadState.get >>= f) p post' := fun s => h s s

theorem bind (first : Safe d x p post)
    (second : ∀ {a q}, p.Grows q → post a q → Safe d (f a) q post') : Safe d (x >>= f) p post' := by
  intro s
  have here := first s
  rw [EStateM.run_bind]
  cases run : x.run p with
  | ok a q =>
    rw [run] at here
    obtain ⟨sound, grows, holds⟩ := here
    have next := second grows holds sound
    dsimp only
    cases run' : (f a).run q with
    | ok b t =>
      rw [run'] at next
      exact ⟨next.1, grows.trans next.2.1, next.2.2⟩
    | error failure t =>
      rw [run'] at next
      exact next
  | error failure q =>
    rw [run] at here
    exact here

theorem recorded {f : Unit → Building ν β} (sound : e.Sound d p.hierarchy)
    (h : Safe d (f ()) (p.record e) post') : Safe d (Building.record e >>= f) p post' := by
  have first : Safe d (Building.record e) p fun _ q => q = p.record e := .record sound rfl
  refine first.bind ?_
  rintro _ _ _ rfl
  exact h

/-- A loop whose steps keep a condition that later states keep. -/
theorem foldlM {b : β} {f : β → α → Building ν β} {l : List α} (inv : β → Progress ν → Prop)
    (init : inv b p)
    (step : ∀ {a b q}, a ∈ l → p.Grows q → inv b q → Safe d (f b a) q inv) :
    Safe d (l.foldlM f b) p inv := by
  induction l generalizing b p with
  | nil => exact .pure init
  | cons a rest ih =>
    rw [List.foldlM_cons]
    refine (step List.mem_cons_self (.refl p) init).bind fun grows holds => ih holds ?_
    exact fun ha further => step (List.mem_cons_of_mem _ ha) (grows.trans further)

theorem forM {f : α → Building ν PUnit} {l : List α}
    (step : ∀ {a q}, a ∈ l → p.Grows q → Safe d (f a) q fun _ _ => True) :
    Safe d (ForM.forM l f) p fun _ _ => True := by
  rw [Settles.forM_eq_foldlM]
  exact foldlM (fun _ _ => True) trivial fun ha grows _ => step ha grows

end Safe

namespace Forest

theorem body_sublist (F : Forest ν) : F.body.Sublist F.preorder := by
  induction F with
  | nil => exact .slnil
  | cons id op inner rest ihInner ihRest =>
    rw [body, preorder]
    split
    · exact (ihRest.trans (List.sublist_append_right _ _)).cons _
    · exact (ihInner.cons_cons _).append ihRest

theorem definitions_sublist (F : Forest ν) : F.definitions.Sublist F.preorder := by
  induction F with
  | nil => exact .slnil
  | cons id op inner rest ihInner ihRest =>
    rw [definitions, preorder]
    split
    · exact (ihRest.trans (List.sublist_append_right _ _)).cons_cons _
    · exact (ihInner.append ihRest).cons _

end Forest

namespace Design

variable {d : Design ν}

theorem op_of_mem_forestOf {depth : Nat} {ids : List OpId} :
    ∀ e ∈ (d.forestOf depth ids).preorder, d.op e.1 = .ok e.2 := by
  induction depth generalizing ids with
  | zero => simp [forestOf, Forest.preorder]
  | succ depth ih =>
    simp only [forestOf]
    induction ids with
    | nil => simp [Forest.preorder]
    | cons id rest ihRest =>
      rw [List.foldr_cons]
      cases found : d.ops[id.index]? with
      | none => exact ihRest
      | some op =>
        intro e he
        simp only [Forest.preorder, List.cons_append, List.mem_cons, List.mem_append] at he
        rcases he with rfl | he | he
        · rw [Design.op, found]
          rfl
        · exact ih e he
        · exact ihRest e he

theorem op_of_mem_bodyOf {block : BlockId} {e : Entry ν} (he : e ∈ d.bodyOf block) :
    d.op e.1 = .ok e.2 :=
  op_of_mem_forestOf e ((d.under block).body_sublist.subset he)

theorem op_of_mem_definitions {e : Entry ν} (he : e ∈ d.definitions) : d.op e.1 = .ok e.2 :=
  op_of_mem_forestOf e ((d.under top).definitions_sublist.subset he)

end Design

namespace Building

variable [DecidableEq ν] {d : Design ν} {p : Progress ν} {owner : ModuleId} {s : Survey}
  {e : Entry ν}

theorem moduleOf_safe (name : ν) :
    Safe d (moduleOf name) p fun id q => q.hierarchy.find? name = some id := by
  unfold moduleOf
  refine .get fun _ => ?_
  cases found : p.hierarchy.find? name with
  | some id => exact .pure found
  | none =>
    refine .get fun _ => .recorded ⟨⟨rfl, found⟩, trivial⟩ (.pure ?_)
    rw [Progress.record, Hierarchy.find?_register, found, if_pos rfl]
    rfl

theorem define_safe {name : ν} {kind : ModuleKind} {op : OpId} (defines : d.Defines op name kind) :
    Safe d (define name kind op) p fun id q => q.hierarchy.Defined id := by
  unfold define
  refine (moduleOf_safe name).bind ?_
  intro id q _ found
  unfold definitionOf
  refine .get fun sound => ?_
  cases known : q.hierarchy.catalog.definition? name with
  | some first =>
    dsimp only
    split
    · exact .reject _
    · exact .reject _
  | none =>
    obtain ⟨f, labels⟩ := sound.here.labels
    have undefined := labels.referenced_of_find? found known
    exact .recorded ⟨⟨name, undefined⟩, name, undefined, defines⟩
      (.pure ⟨name, kind, op, (Hierarchy.labelAt_define undefined _ _ _).trans (if_pos rfl)⟩)

theorem addVariable_safe {origin : VariableOrigin} {node : VariableNode ν}
    (made : p.hierarchy.Made node.owner) : Safe d (addVariable origin node) p fun _ _ => True :=
  .get fun _ => .record ⟨⟨rfl, made.lt⟩, made⟩ trivial

theorem addInstance_safe {origin : InstanceOrigin} {node : InstanceNode ν}
    (made : p.hierarchy.Made owner) (target : node.target.index < p.hierarchy.moduleCount)
    (instantiates : d.Instantiates node.op) :
    Safe d (addInstance origin owner node) p fun _ _ => True :=
  .get fun _ => .record ⟨⟨rfl, made.lt, target⟩, made, instantiates⟩ trivial

theorem addInline_safe {name : ν} {scope : OpId} (parent : p.hierarchy.Defined owner)
    (opens : d.Opens scope name) :
    Safe d (addInline name scope owner) p fun id q => q.hierarchy.Made id := by
  unfold addInline
  refine .get fun _ => .recorded ⟨⟨rfl, parent.made.lt⟩, parent, opens⟩ (.pure ?_)
  refine ⟨name, .scope scope owner, ?_, nofun⟩
  rw [Progress.record, Hierarchy.apply,
    Hierarchy.labelAt_addModule p.hierarchy.store p.hierarchy.catalog]
  exact if_pos rfl

def Surveys (s : Survey) (p : Progress ν) : Prop := ∀ x ∈ s.scopes, p.hierarchy.Made x.2

omit [DecidableEq ν] in
theorem Surveys.grows {q : Progress ν} (surveys : Surveys s p) (grows : p.Grows q) : Surveys s q :=
  fun x hx => grows.made (surveys x hx)

omit [DecidableEq ν] in
theorem Surveys.made (surveys : Surveys s p) {op : OpId} {inline : ModuleId}
    (found : s.scope? op = some inline) : p.hierarchy.Made inline := by
  obtain ⟨l₁, l₂, whole, _⟩ := List.lookup_eq_some_iff.1 found
  exact surveys (op, inline) (by rw [whole]; simp)

theorem surveyOp_safe {policy : InfoPolicy} {definition : OpId} (stands : d.op e.1 = .ok e.2)
    (defined : p.hierarchy.Defined owner) (surveys : Surveys s p) :
    Safe d (surveyOp policy owner definition s e) p Surveys := by
  obtain ⟨id, op⟩ := e
  have made := defined.made
  have write {q : Progress ν} {f : Event ν} {s' : Survey} (surveys : Surveys s q)
      (same : s'.scopes = s.scopes) (sound : f.Sound d q.hierarchy) :
      Safe d (do record f; return s') q Surveys :=
    .recorded sound (.pure fun x hx => (surveys x (same ▸ hx)).apply sound.1)
  cases payload : op.payload with
  | dbgScope note =>
    simp only [surveyOp, payload]
    refine (addInline_safe defined ⟨op, note, stands, payload, rfl⟩).bind
      fun grows inline => .pure ?_
    intro x hx
    rcases List.mem_cons.1 hx with rfl | hx
    · exact inline
    · exact grows.made (surveys x hx)
  | moduleInfo typeName params =>
    simp only [surveyOp, payload]
    split
    · next first _ =>
      split
      · exact .reject _
      · refine .recorded ⟨trivial, trivial⟩ (write ?_ rfl ⟨made.lt, made⟩)
        exact surveys
    · exact write surveys rfl ⟨made.lt, made⟩
  | enumDef note =>
    simp only [surveyOp, payload]
    split
    · exact write surveys rfl ⟨trivial, trivial⟩
    · exact write surveys rfl ⟨made.lt, made⟩
  | _ =>
    simp only [surveyOp, payload]
    exact .pure surveys

theorem survey_safe {policy : InfoPolicy} {definition : OpId} {body : List (Entry ν)}
    (stands : ∀ e ∈ body, d.op e.1 = .ok e.2) (defined : p.hierarchy.Defined owner) :
    Safe d (survey policy owner definition body) p Surveys := by
  have loop : Safe d (body.foldlM (surveyOp policy owner definition) {}) p Surveys := by
    refine .foldlM Surveys (fun x hx => absurd hx List.not_mem_nil) ?_
    exact fun he grows surveys => surveyOp_safe (stands _ he) (grows.defined defined) surveys
  refine loop.bind fun grows surveys => ?_
  have made := (grows.defined defined).made
  exact .recorded ⟨made.lt, made⟩ (.pure fun x hx => (surveys x hx).apply made.lt)

theorem addPorts_safe {definition : OpId} {block : BlockId} {ports : List (Port ν)}
    (made : p.hierarchy.Made owner) :
    Safe d (addPorts d owner definition block ports) p fun _ _ => True := by
  refine .forM fun {port} _ _ grows => ?_
  cases d.portValue? block port with
  | none => exact .reject _
  | some value => exact addVariable_safe (grows.made made)

theorem require_safe {x : Except Dangling α} : Safe d (require x) p fun a _ => x = .ok a := by
  cases x with
  | ok a => exact .pure rfl
  | error what => exact .throw _

theorem scopeTarget_safe {policy : ScopePolicy} {user : OpId} {ref : Option ValueId}
    (made : p.hierarchy.Made owner) (surveys : Surveys s p) :
    Safe d (scopeTarget d policy s owner user ref) p fun id q => q.hierarchy.Made id := by
  cases ref with
  | none => exact .pure made
  | some scope =>
    simp only [scopeTarget]
    refine require_safe.bind fun {producer q} grows _ => ?_
    cases found : producer.bind s.scope? with
    | some inline =>
      obtain ⟨op, _, known⟩ := Option.bind_eq_some_iff.1 found
      exact .pure (grows.made (surveys.made known))
    | none =>
      cases policy with
      | error => exact .reject _
      | enclosing => exact .recorded ⟨trivial, trivial⟩ (.pure (grows.made made))

theorem enumTarget_safe {user : OpId} {ref : Option ValueId} :
    Safe d (enumTarget d s user ref) p fun _ _ => True := by
  cases ref with
  | none => exact .pure trivial
  | some value =>
    simp only [enumTarget]
    refine require_safe.bind fun {producer q} _ _ => ?_
    cases producer.bind s.enum? with
    | some id => exact .pure trivial
    | none => exact .reject _

theorem fillOp_safe {policy : ScopePolicy} (stands : d.op e.1 = .ok e.2)
    (made : p.hierarchy.Made owner) (surveys : Surveys s p) :
    Safe d (fillOp d policy s owner e) p fun _ _ => True := by
  obtain ⟨id, op⟩ := e
  cases payload : op.payload with
  | dbgVariable note =>
    simp only [fillOp, payload]
    refine (scopeTarget_safe made surveys).bind fun _ target => ?_
    exact enumTarget_safe.bind fun grows _ => addVariable_safe (grows.made target)
  | dbgScope note =>
    simp only [fillOp, payload]
    refine (scopeTarget_safe made surveys).bind fun first target => ?_
    refine require_safe.bind fun {inline q} next found => ?_
    have known : s.scope? id = some inline := by
      cases lookup : s.scope? id <;> rw [lookup, Handle.expect] at found <;> cases found
      rfl
    exact addInstance_safe (next.made target) (next.made (first.made (surveys.made known))).lt
      ⟨op, stands, .inr ⟨note, payload⟩⟩
  | inst name moduleName inputs =>
    simp only [fillOp, payload]
    split
    · exact .pure trivial
    · refine (moduleOf_safe moduleName).bind fun {target q} grows found => ?_
      intro sound
      exact addInstance_safe (grows.made made) (sound.here.find?_lt found)
        ⟨op, stands, .inl ⟨name, moduleName, inputs, payload⟩⟩ sound
  | wire name input =>
    simp only [fillOp, payload]
    split
    · exact .pure trivial
    · exact addVariable_safe made
  | _ =>
    simp only [fillOp, payload]
    exact .pure trivial

theorem collect_safe {options : Options} (stands : d.op e.1 = .ok e.2) :
    Safe d (collect d options e) p fun _ _ => True := by
  obtain ⟨id, op⟩ := e
  cases payload : op.payload with
  | module name ports block =>
    simp only [collect, payload]
    refine .recorded ⟨trivial, trivial⟩ ?_
    refine (define_safe ⟨op, stands, by rw [payload]; rfl, by rw [payload]; rfl⟩).bind
      fun _ defined => ?_
    refine (survey_safe (fun _ => Design.op_of_mem_bodyOf) defined).bind
      fun {s q} grows surveys => ?_
    have made := (grows.defined defined).made
    have fill {r : Progress ν} (further : q.Grows r) :
        Safe d (forM (d.bodyOf block) (fillOp d options.scopes s _)) r fun _ _ => True :=
      .forM fun he more => fillOp_safe (Design.op_of_mem_bodyOf he) ((further.trans more).made made)
        (surveys.grows (further.trans more))
    split
    · exact fill (.refl q)
    · exact (addPorts_safe made).bind fun further _ => fill further
  | externModule name ports =>
    simp only [collect, payload]
    refine .recorded ⟨trivial, trivial⟩ ?_
    refine (define_safe ⟨op, stands, by rw [payload]; rfl, by rw [payload]; rfl⟩).bind
      fun _ defined => ?_
    exact .forM fun _ grows => addVariable_safe (grows.defined defined).made
  | _ =>
    simp only [collect, payload]
    exact .pure trivial

/-- **Safe extractions.** Whatever the design and the choices, an
extraction records sound events only. -/
theorem all_safe (d : Design ν) (options : Options) : Safe d (all d options) p fun _ _ => True := by
  have loop : Safe d (forM d.definitions (collect d options)) p fun _ _ => True :=
    .forM fun he _ => collect_safe (Design.op_of_mem_definitions he)
  exact loop.bind fun _ _ => .get fun _ => .record ⟨trivial, trivial⟩ trivial

end Building

/-- A hierarchy that was extracted is closed. -/
theorem Design.closed_of_extract [DecidableEq ν] {d : Design ν} {options : Options}
    {h : Hierarchy ν} (extracted : (d.extract options).outcome = .ok h) : Closed d h := by
  have safe := Building.all_safe d options (p := .start) .start
  unfold Design.extract at extracted
  cases run : (Building.all d options).run .start with
  | ok a q =>
    rw [run] at safe extracted
    cases extracted
    exact safe.1.here
  | error failure q =>
    rw [run] at extracted
    cases extracted

end DebugHierarchy
