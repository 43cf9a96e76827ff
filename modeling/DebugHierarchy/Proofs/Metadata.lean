import DebugHierarchy.Proofs.Families
import DebugHierarchy.Proofs.Entering

/-!
What a module is told about itself.

A module has a type, enum definitions and a note of which parts annotations tell. Only the survey of
a body writes any of these, and only to the module of the body.

* `Building.Quiet`: a step tells no module anything about itself;
* `Building.survey_leaves`: a survey writes what the body says;
* `Building.all_settles_noted`: in a finished hierarchy, every module is told what its body says.
-/

namespace DebugHierarchy

variable {ν α : Type}

/-- What a module is told about itself. -/
structure Notes (ν : Type) where
  sourceType : Option (SourceType ν)
  enums : SortedMap EnumId (EnumDefinition ν)
  explicit : Presence
  deriving DecidableEq

def Notes.none : Notes ν := ⟨.none, .empty, .none⟩

def ModuleNode.notes (m : ModuleNode ν) : Notes ν := ⟨m.sourceType, m.enums, m.explicit⟩

/-- What the module with a number is told; where there is no module, nothing. -/
def Hierarchy.notesAt (h : Hierarchy ν) (i : Nat) : Notes ν :=
  (h.store.modules[i]?.map (·.notes)).getD .none

def Payload.sourceType? : Payload ν → Option (SourceType ν)
  | .moduleInfo typeName params => SourceType.ofParts (some typeName) params
  | _ => none

/-- The type that the last annotation of a body tells. -/
def typeOf (body : List (Entry ν)) : Option (SourceType ν) :=
  (body.filterMap (·.2.payload.sourceType?)).getLast?

/-- Of the enum definitions of one number, the first. -/
def firstEnums (notes : List (EnumNote ν)) : List (EnumNote ν) :=
  notes.foldl (fun kept note => if kept.any (·.id = note.id) then kept else kept ++ [note]) []

def enumTable (body : List (Entry ν)) : SortedMap EnumId (EnumDefinition ν) :=
  .ofList ((firstEnums (body.filterMap (·.2.payload.enum?))).map fun note =>
    (note.id, .ofNote note))

def notesOf (body : List (Entry ν)) : Notes ν :=
  ⟨typeOf body, enumTable body, ⟨hasVariable body, hasScope body⟩⟩

/-- What a definition says about its module; an extern module has no body to say anything. -/
def Design.notesIn (d : Design ν) (e : Entry ν) : Notes ν :=
  match e.2.payload with
  | .module _ _ block => notesOf (d.bodyOf block)
  | _ => .none

def Payload.moduleName? : Payload ν → Option ν
  | .inst _ moduleName _ => some moduleName
  | _ => none

/-- The modules that a body instantiates; a body with scopes instantiates none by name. -/
def mentionsIn (body : List (Entry ν)) : List ν :=
  if hasScope body then [] else body.filterMap (·.2.payload.moduleName?)

theorem any_firstEnums (notes : List (EnumNote ν)) (id : EnumId) :
    (firstEnums notes).any (·.id = id) = notes.any (·.id = id) := by
  induction notes using List.reverseRecOn with
  | nil => rfl
  | append_singleton notes note ih =>
    rw [firstEnums, List.foldl_append, ← firstEnums, List.any_append, ← ih]
    simp only [List.foldl_cons, List.foldl_nil]
    split
    · next taken =>
      by_cases same : note.id = id
      · rw [same] at taken
        simp [taken]
      · simp [same]
    · simp

theorem enumTable_append (body : List (Entry ν)) (e : Entry ν) {note : EnumNote ν}
    (here : e.2.payload.enum? = some note) :
    enumTable (body ++ [e]) =
      if (body.filterMap (·.2.payload.enum?)).any (·.id = note.id) then enumTable body
      else (enumTable body).insert note.id (.ofNote note) := by
  unfold enumTable
  rw [List.filterMap_append, List.filterMap_cons, here, List.filterMap_nil, firstEnums,
    List.foldl_append, ← firstEnums, List.foldl_cons, List.foldl_nil, any_firstEnums]
  split
  · rfl
  · simp [SortedMap.ofList]

theorem enumTable_append_of_none (body : List (Entry ν)) {e : Entry ν}
    (here : e.2.payload.enum? = none) :
    enumTable (body ++ [e]) = enumTable body := by
  unfold enumTable
  rw [List.filterMap_append, List.filterMap_cons, here, List.filterMap_nil, List.append_nil]

theorem typeOf_append (body : List (Entry ν)) (e : Entry ν) :
    typeOf (body ++ [e]) = e.2.payload.sourceType?.or (typeOf body) := by
  unfold typeOf
  rw [List.filterMap_append]
  cases told : e.2.payload.sourceType? <;> simp [told]

namespace Hierarchy

variable {h : Hierarchy ν}

theorem notesAt_modifyModule {s : Store ν} {id : ModuleId} {change : ModuleNode ν → ModuleNode ν}
    (c : Catalog ν) (same : ∀ m, (change m).notes = m.notes) (i : Nat) :
    notesAt ⟨s.modifyModule id change, c⟩ i = notesAt ⟨s, c⟩ i := by
  simp only [notesAt, Store.modifyModule, Array.getElem?_modify]
  split
  · cases s.modules[i]? <;> simp [same]
  · rfl

theorem notesAt_addModule {s : Store ν} (c c' : Catalog ν) {m : ModuleNode ν}
    (bare : m.notes = .none) (i : Nat) : notesAt ⟨s.addModule m, c'⟩ i = notesAt ⟨s, c⟩ i := by
  simp only [notesAt, Store.addModule, Array.getElem?_push]
  split
  · next new => simp [new, bare]
  · rfl

/-- What changes a module that is there changes its notes and those of no other module. -/
theorem notesAt_change {s : Store ν} {id : ModuleId} (c : Catalog ν)
    (there : id.index < s.modules.size) (change : ModuleNode ν → ModuleNode ν)
    (told : Notes ν → Notes ν) (tells : ∀ m, (change m).notes = told m.notes) (i : Nat) :
    notesAt ⟨s.modifyModule id change, c⟩ i =
      if i = id.index then told (notesAt ⟨s, c⟩ i) else notesAt ⟨s, c⟩ i := by
  simp only [notesAt, Store.modifyModule, Array.getElem?_modify]
  by_cases here : id.index = i
  · subst here
    simp [Array.getElem?_eq_getElem there, tells]
  · rw [if_neg here, if_neg (Ne.symm here)]

end Hierarchy

/-- The event tells no module anything about itself, and the names it may register are listed. -/
def Event.Quiet (names : List ν) : Event ν → Prop
  | .setInfo .. | .setEnum .. | .surveyed .. => False
  | .register _ name => name ∈ names
  | _ => True

theorem Event.Plain.quiet {names : List ν} (e : Event ν) (plain : e.Plain) : e.Quiet names := by
  cases e with
  | collect | register | setInfo | setEnum | surveyed => exact plain.elim
  | _ => trivial

namespace Hierarchy

theorem notesAt_apply (h : Hierarchy ν) {e : Event ν} {names : List ν} (quiet : e.Quiet names) :
    (h.apply e).notesAt = h.notesAt := by
  funext i
  cases e with
  | register | inlineModule => exact notesAt_addModule h.catalog _ rfl i
  | define | addVariable | addInstance =>
    simp only [apply, Store.addVariable, Store.addInstance]
    exact notesAt_modifyModule _ (fun _ => by rfl) i
  | setInfo | setEnum | surveyed => exact quiet.elim
  | _ => rfl

end Hierarchy

/-- On the way from one state to the other no module is told anything about itself, and the
names that are met are listed. -/
structure Progress.Keeps [DecidableEq ν] (names : List ν) (p q : Progress ν) : Prop where
  notes : q.hierarchy.notesAt = p.hierarchy.notesAt
  met : ∀ n, (q.hierarchy.find? n).isSome → (p.hierarchy.find? n).isSome ∨ n ∈ names

namespace Progress.Keeps

variable [DecidableEq ν] {p q r : Progress ν} {names : List ν}

theorem refl (p : Progress ν) : p.Keeps names p := ⟨rfl, fun _ => .inl⟩

theorem trans (first : p.Keeps names q) (next : q.Keeps names r) : p.Keeps names r where
  notes := next.notes.trans first.notes
  met n found := (next.met n found).elim (first.met n) .inr

theorem record {e : Event ν} (quiet : e.Quiet names) : p.Keeps names (p.record e) where
  notes := Hierarchy.notesAt_apply _ quiet
  met n found := by
    cases e with
    | register id name =>
      rw [Progress.record, Hierarchy.find?_register] at found
      cases known : p.hierarchy.find? n with
      | some id => exact .inl rfl
      | none =>
        rw [known, Option.none_or] at found
        split at found
        · next same => exact .inr (same ▸ quiet)
        · cases found
    | define id kind op =>
      rw [Progress.record, Hierarchy.find?_define] at found
      exact .inl found
    | _ => exact .inl found

theorem along (goes : Relation.ReflTransGen (Progress.Goes (Event.Quiet names)) p q) :
    p.Keeps names q := by
  induction goes with
  | refl => exact .refl p
  | tail _ step kept =>
    obtain ⟨e, quiet, rfl⟩ := step
    exact kept.trans (.record quiet)

end Progress.Keeps

namespace Building

variable [DecidableEq ν] {p : Progress ν} {names : List ν}

/-- The step tells no module anything about itself, and the names it may meet are listed. -/
def Quiet (names : List ν) (x : Building ν α) : Prop := ∀ p, Leaves x p fun _ q => p.Keeps names q

/-- A step that enters quiet events only is quiet. -/
theorem Enters.quiet {x : Building ν α} (enters : Enters (Event.Quiet names) x) : Quiet names x :=
  fun p => (enters p).weaken fun _ _ => .along

theorem define_quiet (name : ν) (kind : ModuleKind) (op : OpId) :
    Quiet [name] (define name kind op) := by
  have register (id : ModuleId) : Event.Quiet [name] (.register id name) :=
    List.mem_singleton_self name
  refine Enters.quiet fun p => (define_leaves register kind op p).weaken ?_
  rintro id _ ⟨r, goes, rfl⟩
  exact goes.tail ⟨.define id kind op, trivial, rfl⟩

/-! ### Surveys -/

/-- What a survey has told the module of a body once it is past a part of the body. -/
structure Told (p : Progress ν) (owner : ModuleId) (part : List (Entry ν)) (s : Survey)
    (q : Progress ν) : Prop where
  there : owner.index < q.hierarchy.moduleCount
  presence : s.presence = ⟨hasVariable part, hasScope part⟩
  numbers : ∀ id, s.enums.any (·.2 = id) = (part.filterMap (·.2.payload.enum?)).any (·.id = id)
  notes : ∀ i, q.hierarchy.notesAt i =
    if i = owner.index then ⟨typeOf part, enumTable part, .none⟩ else p.hierarchy.notesAt i
  catalog : q.hierarchy.catalog = p.hierarchy.catalog

section Surveys

omit [DecidableEq ν]

variable {owner : ModuleId} {part : List (Entry ν)} {s : Survey} {q : Progress ν} {e : Entry ν}

/-- An operation that tells no type and no enum adds nothing to the notes. -/
theorem Told.silent (h : Told p owner part s q) {s' : Survey} {r : Progress ν}
    (untyped : e.2.payload.sourceType? = none) (noEnum : e.2.payload.enum? = none)
    (count : q.hierarchy.moduleCount ≤ r.hierarchy.moduleCount)
    (same : r.hierarchy.notesAt = q.hierarchy.notesAt)
    (catalog : r.hierarchy.catalog = q.hierarchy.catalog)
    (presence : s'.presence = ⟨hasVariable (part ++ [e]), hasScope (part ++ [e])⟩)
    (enums : s'.enums = s.enums) : Told p owner (part ++ [e]) s' r where
  there := Nat.lt_of_lt_of_le h.there count
  presence := presence
  numbers id := by rw [enums, h.numbers]; simp [noEnum]
  notes i := by
    rw [same, h.notes, typeOf_append, untyped, Option.none_or, enumTable_append_of_none part noEnum]
  catalog := catalog.trans h.catalog

variable {policy : InfoPolicy} {definition id : OpId} {op : Operation ν}

/-- An annotation of the type sets the type of the module. -/
theorem surveyInfo_leaves (h : Told p owner part s q) {typeName : ν}
    {params : Option (ParamValue ν)} (payload : op.payload = .moduleInfo typeName params) :
    Leaves (surveyOp policy owner definition s (id, op)) q (Told p owner (part ++ [(id, op)])) := by
  have told : op.payload.sourceType? = SourceType.ofParts (some typeName) params := by
    rw [payload]; rfl
  have last {r : Progress ν} (same : r.hierarchy = q.hierarchy) : Leaves (do
      record (.setInfo owner (SourceType.ofParts (some typeName) params))
      return { s with info := some id }) r (Told p owner (part ++ [(id, op)])) := by
    refine .recorded (.pure ⟨?_, ?_, fun number => ?_, fun i => ?_,
      (congrArg _ same).trans h.catalog⟩)
    · have count := Hierarchy.moduleCount_apply q.hierarchy
        (.setInfo owner (SourceType.ofParts (some typeName) params))
      rw [Progress.record, same, count]
      exact h.there
    · rw [h.presence, hasVariable_append, hasScope_append]
      simp [hasVariable, hasScope, payload, Payload.annotation?, Payload.scope?]
    · rw [h.numbers]
      simp [payload, Payload.enum?]
    · have changed := Hierarchy.notesAt_change q.hierarchy.catalog h.there
        (fun m => { m with sourceType := SourceType.ofParts (some typeName) params })
        (fun n => { n with sourceType := SourceType.ofParts (some typeName) params })
        (fun _ => rfl) i
      rw [Progress.record, same]
      refine changed.trans ?_
      rw [typeOf_append, told, enumTable_append_of_none part (by rw [payload]; rfl)]
      split
      · next here =>
        have before := h.notes i
        rw [if_pos here] at before
        rw [before]
        rfl
      · next other =>
        have before := h.notes i
        rwa [if_neg other] at before
  simp only [surveyOp, payload]
  cases s.info with
  | none => exact last rfl
  | some first =>
    cases policy with
    | lastWins => exact .recorded (last rfl)
    | strict => exact .rejected _

/-- An enum definition with a new number is told to the module. -/
theorem surveyEnum_leaves (h : Told p owner part s q) {note : EnumNote ν}
    (payload : op.payload = .enumDef note) :
    Leaves (surveyOp policy owner definition s (id, op)) q (Told p owner (part ++ [(id, op)])) := by
  have presence : s.presence = ⟨hasVariable (part ++ [(id, op)]),
      hasScope (part ++ [(id, op)])⟩ := by
    rw [h.presence, hasVariable_append, hasScope_append]
    simp [hasVariable, hasScope, payload, Payload.annotation?, Payload.scope?]
  have numbers (number : EnumId) : ((id, note.id) :: s.enums).any (·.2 = number) =
      ((part ++ [(id, op)]).filterMap (·.2.payload.enum?)).any (·.id = number) := by
    rw [List.any_cons, h.numbers, Bool.or_comm]
    simp [payload, Payload.enum?]
  have untyped : typeOf (part ++ [(id, op)]) = typeOf part := by
    rw [typeOf_append, payload]
    rfl
  have table := enumTable_append part (id, op)
    (show op.payload.enum? = some note by rw [payload]; rfl)
  simp only [surveyOp, payload]
  split
  · next taken =>
    rw [h.numbers] at taken
    rw [if_pos taken] at table
    refine .recorded (.pure ⟨h.there, presence, numbers, fun i => ?_, h.catalog⟩)
    rw [untyped, table]
    exact h.notes i
  · next fresh =>
    rw [h.numbers] at fresh
    rw [if_neg fresh] at table
    have changed := Hierarchy.notesAt_change q.hierarchy.catalog h.there
      (fun m => { m with enums := m.enums.insert note.id (.ofNote note) })
      (fun n => { n with enums := n.enums.insert note.id (.ofNote note) }) (fun _ => rfl)
    refine .recorded (.pure ⟨?_, presence, numbers, fun i => (changed i).trans ?_, h.catalog⟩)
    · have count := Hierarchy.moduleCount_apply q.hierarchy (.setEnum owner note.id (.ofNote note))
      rw [Progress.record, count]
      exact h.there
    · rw [untyped, table]
      have before := h.notes i
      split
      · next here =>
        rw [if_pos here] at before
        rw [before]
      · next other => rwa [if_neg other] at before

/-- One operation of a body tells the module what it adds to the body. -/
theorem surveyOp_leaves (h : Told p owner part s q) :
    Leaves (surveyOp policy owner definition s e) q (Told p owner (part ++ [e])) := by
  obtain ⟨id, op⟩ := e
  cases payload : op.payload with
  | dbgScope note =>
    have silent : Leaves (addInline note.moduleName id owner) q fun _ r =>
        r.hierarchy.notesAt = q.hierarchy.notesAt ∧ r.hierarchy.catalog = q.hierarchy.catalog ∧
          q.hierarchy.moduleCount ≤ r.hierarchy.moduleCount :=
      .get (.recorded (.pure ⟨Hierarchy.notesAt_apply _ (show Event.Quiet [] _ from trivial), rfl,
        Nat.le.intro (Hierarchy.moduleCount_apply q.hierarchy _).symm⟩))
    simp only [surveyOp, payload]
    refine silent.bind fun {inline r} kept => .pure ?_
    refine h.silent (by rw [payload]; rfl) (by rw [payload]; rfl) kept.2.2 kept.1 kept.2.1 ?_ rfl
    rw [h.presence, hasVariable_append, hasScope_append]
    simp [hasVariable, hasScope, payload, Payload.annotation?, Payload.scope?]
  | moduleInfo typeName params => exact surveyInfo_leaves h payload
  | enumDef note => exact surveyEnum_leaves h payload
  | _ =>
    simp only [surveyOp, payload]
    refine .pure (h.silent (by rw [payload]; rfl) (by rw [payload]; rfl)
      (Nat.le_refl _) rfl rfl ?_ rfl)
    rw [h.presence, hasVariable_append, hasScope_append]
    simp [hasVariable, hasScope, payload, Payload.annotation?, Payload.scope?]

structure SurveyTells (p : Progress ν) (owner : ModuleId) (body : List (Entry ν)) (s : Survey)
    (q : Progress ν) : Prop where
  insts : s.presence.insts = hasScope body
  notes : ∀ i, q.hierarchy.notesAt i = if i = owner.index then notesOf body
    else p.hierarchy.notesAt i
  catalog : q.hierarchy.catalog = p.hierarchy.catalog

/-- **Surveys.** A survey tells the module of a body what the body says,
and no other module anything. -/
theorem survey_leaves (inside : owner.index < p.hierarchy.moduleCount)
    (untold : p.hierarchy.notesAt owner.index = .none) (body : List (Entry ν)) :
    Leaves (survey policy owner definition body) p (SurveyTells p owner body) := by
  have start : Told p owner ([] : List (Entry ν)) {} p := by
    refine ⟨inside, rfl, fun _ => rfl, fun i => ?_, rfl⟩
    split
    · next here => rw [here, untold]; rfl
    · rfl
  have loop : Leaves (body.foldlM (surveyOp policy owner definition) {}) p (Told p owner body) :=
    .foldlM (Told p owner) start fun _ told => surveyOp_leaves told
  refine loop.bind fun {s q} h => .recorded (.pure ⟨by rw [h.presence], fun i => ?_, h.catalog⟩)
  have changed := Hierarchy.notesAt_change q.hierarchy.catalog h.there
    (fun m => { m with explicit := s.presence }) (fun n => { n with explicit := s.presence })
    (fun _ => rfl) i
  refine changed.trans ?_
  have before := h.notes i
  split
  · next here =>
    rw [if_pos here] at before
    rw [before, h.presence]
    rfl
  · next other => rwa [if_neg other] at before

end Surveys

section Definitions

variable {d : Design ν} {owner : ModuleId}

/-- On the way from one state to the other a module is told something, no other module is told
anything, and the names that are met are listed. -/
structure Informs (owner : ModuleId) (told : Notes ν) (names : List ν) (p q : Progress ν) :
    Prop where
  notes : ∀ i, q.hierarchy.notesAt i = if i = owner.index then told else p.hierarchy.notesAt i
  met : ∀ n, (q.hierarchy.find? n).isSome → (p.hierarchy.find? n).isSome ∨ n ∈ names

/-- Once its name is defined, a module is told what its body says. -/
theorem body_leaves {options : Options} {op : OpId} {ports : List (Port ν)} {block : BlockId}
    (inside : owner.index < p.hierarchy.moduleCount)
    (untold : p.hierarchy.notesAt owner.index = .none) : Leaves (do
        let s ← survey options.info owner op (d.bodyOf block)
        unless s.presence.vars do addPorts d owner op block ports
        forM (d.bodyOf block) (fillOp d options.scopes s owner)) p fun _ q =>
      Informs owner (notesOf (d.bodyOf block)) (mentionsIn (d.bodyOf block)) p q := by
  refine (survey_leaves inside untold (d.bodyOf block)).bind fun {s q} surveyed => ?_
  have fill : Enters (Event.Quiet (mentionsIn (d.bodyOf block)))
      (forM (d.bodyOf block) (fillOp d options.scopes s owner)) := by
    refine .forM fun e he => fillOp_enters Event.Plain.quiet _
      fun structural name moduleName inputs inst _ => ?_
    rw [surveyed.insts] at structural
    rw [Event.Quiet, mentionsIn, structural, if_neg Bool.false_ne_true]
    exact List.mem_filterMap.2 ⟨e, he, by rw [inst]; rfl⟩
  have informs {r : Progress ν} (kept : q.Keeps (mentionsIn (d.bodyOf block)) r) :
      Informs owner (notesOf (d.bodyOf block)) (mentionsIn (d.bodyOf block)) p r := by
    refine ⟨fun i => by rw [kept.notes, surveyed.notes], fun n found => ?_⟩
    have before := kept.met n found
    rwa [Hierarchy.find?, surveyed.catalog, ← Hierarchy.find?] at before
  split
  · exact fun a r run => informs (fill.quiet q a r run)
  · have ports : Enters (Event.Quiet (mentionsIn (d.bodyOf block)))
        (addPorts d owner op block ports) :=
      addPorts_enters Event.Plain.quiet op block ports
    exact fun a r run => informs ((ports.bind fun _ => fill).quiet q a r run)

end Definitions

end Building

def Design.mentionsOf (d : Design ν) (e : Entry ν) : List ν := mentionsIn (d.bodyIn e)

/-- Every module with an account is told what its definition says, and no other module anything; and
every name that is met is that of a definition or is instantiated by one. -/
structure Noted [DecidableEq ν] (d : Design ν) (accounts : List (Account ν)) (h : Hierarchy ν) :
    Prop where
  own : ∀ a ∈ accounts, h.notesAt a.owner.index = d.notesIn a.entry
  others : ∀ i, (∀ a ∈ accounts, a.owner.index ≠ i) → h.notesAt i = .none
  named : ∀ n, (h.find? n).isSome →
    ∃ a ∈ accounts, a.entry.2.payload.symbol? = some n ∨ n ∈ d.mentionsOf a.entry

namespace Building

variable [DecidableEq ν] {d : Design ν} {F : Forest ν} {accounts : List (Account ν)}
  {part : List (Entry ν)} {q r : Progress ν} {options : Options} {e : Entry ν}

/-- A definition that is taken in tells its module what it says. -/
theorem collect_leaves (n : Nesting d F) (up : part ++ [e] <+: d.definitions)
    (h : Collected d accounts part q) :
    Leaves (collect d options e) q fun _ r => ∃ owner name, e.2.payload.symbol? = some name ∧
      r.hierarchy.find? name = some owner ∧ (q.hierarchy.notesAt owner.index = .none →
        Informs owner (d.notesIn e) (name :: d.mentionsOf e) q r) := by
  have like : e.2.payload.isModuleLike = true := (n.mem_definitions_iff.1 (up.subset (by simp))).2
  have named {name : ν} {kind : ModuleKind} (symbol : e.2.payload.symbol? = some name)
      (kind_eq : e.2.payload.moduleKind? = some kind) :=
    (Leaves.of_settles (define_entry_settles n up h symbol kind_eq)).and
      (define_quiet name kind e.1 _)
  obtain ⟨id, op⟩ := e
  cases payload : op.payload with
  | module name ports block =>
    have body : d.bodyIn (id, op) = d.bodyOf block := d.bodyIn_of_module payload
    simp only [collect, payload]
    refine .recorded ((named (by rw [payload]; rfl) (by rw [payload]; rfl)).bind ?_)
    rintro owner t ⟨⟨defined, found⟩, kept⟩
    have reached : t.Reached := .leads ⟨_, h.leads⟩ defined
    have inside := reached.find?_lt found
    have distinct : ((d.bodyOf block).map (·.1)).Nodup :=
      body ▸ n.body_ids_nodup (up.subset (by simp))
    intro a r run
    have told := Leaves.of_settles (body_settles reached inside distinct) a r run
    refine ⟨owner, name, rfl, told.1.find? found, fun untold => ?_⟩
    have untold' : t.hierarchy.notesAt owner.index = .none := (congrFun kept.notes _).trans untold
    have informs := body_leaves inside untold' a r run
    refine ⟨fun i => ?_, fun m met => ?_⟩
    · rw [informs.notes, kept.notes]
      simp only [Design.notesIn, payload]
      rfl
    · rw [Design.mentionsOf, body]
      rcases informs.met m met with before | here
      · exact (kept.met m before).imp_right fun same =>
          List.mem_cons.2 (.inl (List.mem_singleton.1 same))
      · exact .inr (List.mem_cons_of_mem _ here)
  | externModule name ports =>
    simp only [collect, payload]
    refine .recorded ((named (by rw [payload]; rfl) (by rw [payload]; rfl)).bind ?_)
    rintro owner t ⟨⟨defined, found⟩, kept⟩
    have reached : t.Reached := .leads ⟨_, h.leads⟩ defined
    intro a r run
    have told := Leaves.of_settles (externPorts_settles (reached.find?_lt found) ports) a r run
    refine ⟨owner, name, rfl, told.find? found, fun untold => ?_⟩
    have quiet : Quiet [name] (forM ports fun port : Port ν =>
        addVariable .externPort (.ofPort port none owner)) :=
      (Enters.forM fun port _ => addVariable_enters Event.Plain.quiet _ _).quiet
    have kept := kept.trans (quiet t a r run)
    refine ⟨fun i => ?_, fun m met => ?_⟩
    · rw [kept.notes]
      simp only [Design.notesIn, payload]
      split
      · next here => exact here ▸ untold
      · rfl
    · exact (kept.met m met).imp_right fun same =>
        List.mem_cons.2 (.inl (List.mem_singleton.1 same))
  | _ => simp [payload, Payload.isModuleLike, Payload.symbol?] at like

/-- One more definition is told what it says. -/
theorem collect_noted (n : Nesting d F) (up : part ++ [e] <+: d.definitions)
    (h : Collected d accounts part q) (noted : Noted d accounts q.hierarchy) :
    Settles (collect d options e) q (problemAt d options e) fun _ r =>
      ∃ a, Collected d (accounts ++ [a]) (part ++ [e]) r ∧
        Noted d (accounts ++ [a]) r.hierarchy := by
  refine ((collect_settles n up h).and (collect_leaves n up h)).weaken ?_
  rintro _ r _ ⟨⟨a, taken⟩, owner, name, symbol, found, told⟩
  have mine : a ∈ accounts ++ [a] := by simp
  obtain ⟨entries, entry⟩ := List.append_inj' ((List.map_append ..).symm.trans taken.entries) rfl
  obtain rfl : a.entry = e := by simpa using entry
  obtain rfl : owner = a.owner := by
    obtain ⟨name', symbol', found'⟩ := taken.known a mine
    rw [symbol] at symbol'
    cases symbol'
    rw [found] at found'
    exact Option.some.inj found'
  -- Those before have other modules, since no module is defined twice.
  have apart : ∀ b ∈ accounts, b.owner ≠ a.owner := by
    intro b hb same
    obtain ⟨_, _, label⟩ := taken.label_of_owner mine
    obtain ⟨_, _, label'⟩ := taken.label_of_owner (List.mem_append_left _ hb)
    rw [same, label, Option.some.injEq, Prod.mk.injEq, Origin.defined.injEq] at label'
    have before := (n.mem_part_iff up).1 (h.mem_part hb)
    exact absurd (label'.2.2 ▸ before.2) (Nat.lt_irrefl _)
  have informs := told (noted.others _ fun b hb same => apart b hb (Handle.ext same))
  refine ⟨a, taken, fun b hb => ?_, fun i other => ?_, fun m met => ?_⟩
  · rcases List.mem_append.1 hb with old | new
    · rw [informs.notes, if_neg fun same => apart b old (Handle.ext same), noted.own b old]
    · rw [List.mem_singleton.1 new, informs.notes, if_pos rfl]
  · rw [informs.notes, if_neg fun same => other a mine same.symm,
      noted.others i fun b hb => other b (List.mem_append_left _ hb)]
  · rcases informs.met m met with before | here
    · obtain ⟨b, hb, named⟩ := noted.named m before
      exact ⟨b, List.mem_append_left _ hb, named⟩
    · rcases List.mem_cons.1 here with rfl | here
      · exact ⟨a, mine, .inl symbol⟩
      · exact ⟨a, mine, .inr here⟩

/-- **Notes.** In a finished hierarchy, every module is told what its definition says, and every
name comes from a definition. -/
theorem all_settles_noted (n : Nesting d F) (options : Options) :
    Settles (all d options) .start (d.problem options) fun _ q =>
      ∃ accounts, Collected d accounts d.definitions q ∧ Noted d accounts q.hierarchy := by
  refine all_settles_of n (fun accounts q => Noted d accounts q.hierarchy) ⟨nofun,
    fun i _ => ?_, nofun⟩ ?_ ?_
  · simp [Progress.start, Hierarchy.empty, Store.empty, Hierarchy.notesAt]
  · exact fun up h noted => collect_noted n up h noted
  · exact fun noted => ⟨noted.own, noted.others, noted.named⟩

end Building

end DebugHierarchy
