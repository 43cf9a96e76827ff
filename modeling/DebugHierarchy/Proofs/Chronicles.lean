import DebugHierarchy.Proofs.Births
import DebugHierarchy.Proofs.LooseScopes

/-!
What the journal of an extraction says of its own events.

A node that is added refers to modules that the journal has told of before: a variable to the module
that is being filled in or to a level of its body, an instance to such a level or to a module with a
name. And the references to scopes that the journal lets pass are those that are loose, in the order
in which bodies are filled in. One walk through the steps of an extraction carries both.

* `Event.Founded`: what an event that adds a node rests on;
* `Design.looseScopes`: the loose references of a design;
* `Chronicle`: the events of a journal are founded, and it has let these loose references pass;
* `Building.all_chronicled`: what an extraction has done where it ends.
-/

namespace DebugHierarchy

variable {ν : Type}

def Payload.scopeOperand? : Payload ν → Option ValueId
  | .dbgVariable note => note.scope
  | .dbgScope note => note.scope
  | _ => none

namespace Design

variable (d : Design ν)

/-- A reference to a scope with the operation it stands in, if it is loose. -/
def looseRef (user : OpId) (ref : Option ValueId) : List (OpId × ValueId) :=
  (ref.filter fun value => ¬d.LocalScope user value).toList.map (user, ·)

def looseIn (body : List (Entry ν)) : List (OpId × ValueId) :=
  body.flatMap fun f => d.looseRef f.1 f.2.payload.scopeOperand?

/-- The loose references of a design: one definition after the other, those in its body. -/
def looseScopes : List (OpId × ValueId) := d.definitions.flatMap fun e => d.looseIn (d.bodyIn e)

variable {d} {user : OpId} {value : ValueId}

theorem looseRef_of_local (inside : d.LocalScope user value) :
    d.looseRef user (some value) = [] := by
  simp [looseRef, inside]

theorem looseRef_of_not_local (outside : ¬d.LocalScope user value) :
    d.looseRef user (some value) = [(user, value)] := by
  simp [looseRef, outside]

theorem looseIn_append_singleton (body : List (Entry ν)) (f : Entry ν) :
    d.looseIn (body ++ [f]) = d.looseIn body ++ d.looseRef f.1 f.2.payload.scopeOperand? := by
  simp [looseIn]

end Design

/-- A survey tells which references in its body are loose. -/
theorem Nesting.localScope_iff_known {d : Design ν} {F : Forest ν} (n : Nesting d F)
    (linked : d.WellLinked) {e f : Entry ν} (he : e ∈ d.definitions) (hf : f ∈ d.bodyIn e)
    {s : Survey} (knows : s.Knows (d.bodyIn e)) {value : ValueId} {producer : Option OpId}
    (found : d.definingOp value = .ok producer) :
    d.LocalScope f.1 value ↔ (producer.bind s.scope?).isSome := by
  rw [n.localScope_iff linked he hf, found]
  cases producer with
  | none => simp
  | some op =>
    rw [Option.bind_some, knows op]
    simp

def Event.loose? : Event ν → Option (OpId × ValueId)
  | .looseScope op scope => some (op, scope)
  | _ => none

/-- The events make the module one with a body. -/
def Bodied (facts : List (Event ν)) (id : ModuleId) : Prop := ∃ op, .define id .module op ∈ facts

/-- The events make the module a level of a body. -/
def Inlined (facts : List (Event ν)) (id : ModuleId) : Prop :=
  ∃ name scope parent, .inlineModule id name scope parent ∈ facts

/-- The modules that a new node refers to are what the events make them. -/
def Event.Founded (facts : List (Event ν)) : Event ν → Prop
  | .addVariable .externPort _ node => ∃ op, .define node.owner .external op ∈ facts
  | .addVariable .port _ node => node.value.isSome ∧ Bodied facts node.owner
  | .addVariable .wire _ node => Bodied facts node.owner
  | .addVariable .annotated _ node => Bodied facts node.owner ∨ Inlined facts node.owner
  | .addInstance .scope _ _ node => Inlined facts node.target
  | .addInstance .structural _ _ node => ∃ name, .register node.target name ∈ facts
  | _ => True

section Founded

variable {facts more : List (Event ν)} (sub : facts ⊆ more)

include sub

theorem Bodied.mono {id : ModuleId} (bodied : Bodied facts id) : Bodied more id :=
  bodied.imp fun _ member => sub member

theorem Inlined.mono {id : ModuleId} (inlined : Inlined facts id) : Inlined more id := by
  obtain ⟨name, scope, parent, member⟩ := inlined
  exact ⟨name, scope, parent, sub member⟩

theorem Event.Founded.mono {e : Event ν} (founded : e.Founded facts) : e.Founded more := by
  cases e with
  | addVariable origin id node =>
    cases origin with
    | externPort => exact founded.imp fun _ member => sub member
    | port => exact ⟨founded.1, founded.2.mono sub⟩
    | wire => exact Bodied.mono sub founded
    | annotated => exact founded.imp (·.mono sub) (·.mono sub)
  | addInstance origin id owner node =>
    cases origin with
    | scope => exact Inlined.mono sub founded
    | structural => exact founded.imp fun _ member => sub member
  | _ => trivial

end Founded

theorem Progress.subset_record (p : Progress ν) (e : Event ν) :
    p.journal.toList ⊆ (p.record e).journal.toList := by
  rw [p.journal_record]
  exact List.subset_append_left _ _

def Survey.Inlines (s : Survey) (facts : List (Event ν)) : Prop := ∀ x ∈ s.scopes, Inlined facts x.2

theorem Survey.Inlines.mono {s : Survey} {facts more : List (Event ν)} (inlines : s.Inlines facts)
    (sub : facts ⊆ more) : s.Inlines more := fun x hx => (inlines x hx).mono sub

theorem Survey.Inlines.of_scope? {s : Survey} {facts : List (Event ν)} (inlines : s.Inlines facts)
    {op : OpId} {inline : ModuleId} (found : s.scope? op = some inline) : Inlined facts inline := by
  obtain ⟨before, after, whole, _⟩ := List.lookup_eq_some_iff.1 found
  exact inlines (op, inline) (by rw [whole]; simp)

theorem Hierarchy.find?_cases [DecidableEq ν] {h : Hierarchy ν} {e : Event ν} {name : ν}
    {id : ModuleId} (found : (h.apply e).find? name = some id) : h.find? name = some id ∨
      e = .register id name := by
  cases e with
  | register j n =>
    rw [find?_register, Option.or_eq_some_iff] at found
    rcases found with old | ⟨_, new⟩
    · exact .inl old
    · split at new
      · next same =>
        cases new
        exact .inr (same ▸ rfl)
      · cases new
  | define j kind op =>
    rw [Hierarchy.find?_define] at found
    exact .inl found
  | _ => exact .inl found

/-! ### Chronicles -/

/-- The journal has entered the given events; every event in it is founded; and it has let these
loose references pass, which none does under a strict policy. -/
structure Chronicle [DecidableEq ν] (policy : ScopePolicy) (facts : List (Event ν))
    (loose : List (OpId × ValueId)) (p : Progress ν) : Prop where
  entered : facts ⊆ p.journal.toList
  named : ∀ {name id}, p.hierarchy.find? name = some id → .register id name ∈ p.journal.toList
  founded : ∀ e ∈ p.journal.toList, e.Founded p.journal.toList
  passed : p.journal.toList.filterMap Event.loose? = loose
  strict : policy = .error → loose = []

section Chronicles

variable [DecidableEq ν] {policy : ScopePolicy} {facts : List (Event ν)}
  {loose : List (OpId × ValueId)} {p : Progress ν} {e : Event ν}

namespace Chronicle

theorem start : Chronicle policy ([] : List (Event ν)) [] .start where
  entered := List.nil_subset _
  named found := nomatch found
  founded _ member := nomatch member
  passed := rfl
  strict _ := rfl

/-- An event that the journal has is one to rely on. -/
theorem remember (c : Chronicle policy facts loose p) (member : e ∈ p.journal.toList) :
    Chronicle policy (e :: facts) loose p :=
  { c with entered := List.cons_subset.2 ⟨member, c.entered⟩ }

theorem forget (c : Chronicle policy (e :: facts) loose p) : Chronicle policy facts loose p :=
  { c with entered := (List.cons_subset.1 c.entered).2 }

/-- All that the journal has may be relied on. -/
theorem review (c : Chronicle policy facts loose p) : Chronicle policy p.journal.toList loose p :=
  { c with entered := List.Subset.refl _ }

theorem clear (c : Chronicle policy facts loose p) : Chronicle policy [] loose p :=
  { c with entered := List.nil_subset _ }

/-- A founded event keeps every event founded, and lets pass what it lets pass. -/
theorem append (c : Chronicle policy facts loose p) (founded : e.Founded facts)
    (strict : policy = .error → e.loose? = none) :
    Chronicle policy (e :: facts) (loose ++ e.loose?.toList) (p.record e) := by
  have longer := p.subset_record e
  have last : e ∈ (p.record e).journal.toList := by simp [p.journal_record]
  constructor
  · exact List.cons_subset.2 ⟨last, fun f hf => longer (c.entered hf)⟩
  · intro name id found
    rcases Hierarchy.find?_cases found with old | rfl
    · exact longer (c.named old)
    · exact last
  · intro f hf
    rw [p.journal_record, List.mem_append, List.mem_singleton] at hf
    rcases hf with old | rfl
    · exact (c.founded f old).mono longer
    · exact (founded.mono c.entered).mono longer
  · rw [p.journal_record, List.filterMap_append, c.passed]
    cases lets : e.loose? <;> simp [lets]
  · intro error
    rw [c.strict error, strict error]
    rfl

theorem record (c : Chronicle policy facts loose p) (founded : e.Founded facts)
    (silent : e.loose? = none) :
    Chronicle policy (e :: facts) loose (p.record e) := by
  have longer := c.append founded fun _ => silent
  rwa [silent, Option.toList_none, List.append_nil] at longer

end Chronicle

namespace Building

theorem moduleOf_chronicled (c : Chronicle policy facts loose p) (name : ν) :
    Leaves (moduleOf name) p fun id q => Chronicle policy (.register id name :: facts) loose q := by
  refine .get ?_
  cases found : p.hierarchy.find? name with
  | some id => exact .pure (c.remember (c.named found))
  | none => exact .get (.recorded (.pure (c.record trivial rfl)))

theorem define_chronicled (c : Chronicle policy facts loose p) (name : ν) (kind : ModuleKind)
    (op : OpId) :
    Leaves (define name kind op) p fun id q =>
      Chronicle policy (.define id kind op :: facts) loose q := by
  refine (moduleOf_chronicled c name).bind fun {id q} named => ?_
  unfold definitionOf
  refine .get ?_
  cases q.hierarchy.catalog.definition? name with
  | none => exact .recorded (.pure (named.forget.record trivial rfl))
  | some first =>
    dsimp only
    split
    · exact .reject _
    · exact .reject _

theorem addVariable_chronicled (c : Chronicle policy facts loose p) {origin : VariableOrigin}
    {node : VariableNode ν} (founded : ∀ id, (Event.addVariable origin id node).Founded facts) :
    Leaves (addVariable origin node) p fun _ q => Chronicle policy facts loose q :=
  .get (.record (c.record (founded _) rfl).forget)

theorem addInstance_chronicled (c : Chronicle policy facts loose p) {origin : InstanceOrigin}
    {owner : ModuleId} {node : InstanceNode ν}
    (founded : ∀ id, (Event.addInstance origin id owner node).Founded facts) :
    Leaves (addInstance origin owner node) p fun _ q => Chronicle policy facts loose q :=
  .get (.record (c.record (founded _) rfl).forget)

theorem addInline_chronicled (c : Chronicle policy facts loose p) (name : ν) (scope : OpId)
    (parent : ModuleId) :
    Leaves (addInline name scope parent) p fun id q => Chronicle policy facts loose q ∧
      p.journal.toList ⊆ q.journal.toList ∧ Inlined q.journal.toList id := by
  refine .get (.recorded (.pure ?_))
  have kept := (c.record
    (e := .inlineModule p.hierarchy.store.nextModule name scope parent) trivial rfl).forget
  refine ⟨kept, p.subset_record _, name, scope, parent, ?_⟩
  simp [p.journal_record]

section Surveys

variable {info : InfoPolicy} {owner : ModuleId} {definition : OpId} {s : Survey} {f : Entry ν}

/-- A survey comes to know levels only. -/
theorem surveyOp_chronicled (c : Chronicle policy facts loose p)
    (inlines : s.Inlines p.journal.toList) :
    Leaves (surveyOp info owner definition s f) p fun t q =>
      Chronicle policy facts loose q ∧ t.Inlines q.journal.toList := by
  have write {q : Progress ν} {e : Event ν} {t : Survey} (c : Chronicle policy facts loose q)
      (inlines : t.Inlines q.journal.toList) (founded : e.Founded facts)
      (silent : e.loose? = none) : Leaves (do record e; return t) q fun t q =>
        Chronicle policy facts loose q ∧ t.Inlines q.journal.toList :=
    .recorded (.pure ⟨(c.record founded silent).forget, inlines.mono (q.subset_record e)⟩)
  obtain ⟨id, op⟩ := f
  cases payload : op.payload with
  | dbgScope note =>
    simp only [surveyOp, payload]
    refine (addInline_chronicled c note.moduleName id owner).bind fun {inline q} noted => .pure ?_
    obtain ⟨kept, longer, level⟩ := noted
    refine ⟨kept, fun x hx => ?_⟩
    rcases List.mem_cons.1 hx with rfl | old
    · exact level
    · exact (inlines x old).mono longer
  | moduleInfo typeName params =>
    simp only [surveyOp, payload]
    split
    · split
      · exact .reject _
      · have kept {e : Event ν} : s.Inlines (p.record e).journal.toList :=
          inlines.mono (p.subset_record e)
        exact .recorded (write (c.record (e := .replaceInfo _ _) trivial rfl).forget
          kept trivial rfl)
    · exact write c inlines trivial rfl
  | enumDef note =>
    simp only [surveyOp, payload]
    split
    · exact write c inlines trivial rfl
    · exact write c inlines trivial rfl
  | _ =>
    simp only [surveyOp, payload]
    exact .pure ⟨c, inlines⟩

theorem survey_chronicled (c : Chronicle policy facts loose p) (body : List (Entry ν)) :
    Leaves (survey info owner definition body) p fun t q =>
      Chronicle policy facts loose q ∧ t.Inlines q.journal.toList := by
  have loop : Leaves (body.foldlM (surveyOp info owner definition) {}) p fun t q =>
      Chronicle policy facts loose q ∧ t.Inlines q.journal.toList := by
    refine .foldlM (fun _ (t : Survey) q =>
      Chronicle policy facts loose q ∧ t.Inlines q.journal.toList) ⟨c, ?_⟩ ?_
    · exact fun x hx => nomatch hx
    · rintro _ f t q _ ⟨kept, inlines⟩
      exact surveyOp_chronicled kept inlines
  refine loop.bind fun {t q} noted => .recorded (.pure ?_)
  exact ⟨(noted.1.record (e := .surveyed _ _) trivial rfl).forget, noted.2.mono (q.subset_record _)⟩

end Surveys

section Filling

variable {d : Design ν} {s : Survey} {owner : ModuleId} {definition : OpId} {user : OpId}

theorem addPorts_chronicled (c : Chronicle policy facts loose p) (bodied : Bodied facts owner)
    (block : BlockId) (ports : List (Port ν)) :
    Leaves (addPorts d owner definition block ports) p fun _ q =>
      Chronicle policy facts loose q := by
  refine .forM (fun _ q => Chronicle policy facts loose q) c fun {_ port q} _ kept => ?_
  cases d.portValue? block port with
  | none => exact .reject _
  | some value => exact addVariable_chronicled kept fun _ => ⟨rfl, bodied⟩

/-- A reference attaches to the module itself, or to a level of its body; if
it is loose, it is let pass. -/
theorem scopeTarget_chronicled (c : Chronicle policy facts loose p) (bodied : Bodied facts owner)
    (inlines : s.Inlines facts) (ref : Option ValueId)
    (knows : ∀ value ∈ ref, ∀ producer, d.definingOp value = .ok producer →
      (d.LocalScope user value ↔ (producer.bind s.scope?).isSome)) :
    Leaves (scopeTarget d policy s owner user ref) p fun target q =>
      Chronicle policy facts (loose ++ d.looseRef user ref) q ∧
        (Bodied facts target ∨ Inlined facts target) := by
  cases ref with
  | none => exact .pure ⟨by simpa [Design.looseRef] using c, .inl bodied⟩
  | some value =>
    simp only [scopeTarget]
    cases found : d.definingOp value with
    | error what => exact .dangling what
    | ok producer =>
      have local_iff := knows value rfl producer found
      refine .known ?_
      cases known : producer.bind s.scope? with
      | some inline =>
        obtain ⟨op, _, level⟩ := Option.bind_eq_some_iff.1 known
        rw [Design.looseRef_of_local (local_iff.2 (by rw [known]; rfl)), List.append_nil]
        exact .pure ⟨c, .inr (inlines.of_scope? level)⟩
      | none =>
        rw [Design.looseRef_of_not_local (by rw [local_iff, known]; simp)]
        cases policy with
        | error => exact .reject _
        | enclosing =>
          exact .recorded (.pure ⟨(c.append (e := .looseScope user value) trivial (by simp)).forget,
            .inl bodied⟩)

theorem enumTarget_chronicled (c : Chronicle policy facts loose p) (ref : Option ValueId) :
    Leaves (enumTarget d s user ref) p fun _ q => Chronicle policy facts loose q := by
  cases ref with
  | none => exact .pure c
  | some value =>
    simp only [enumTarget]
    cases d.definingOp value with
    | error what => exact .dangling what
    | ok producer =>
      refine .known ?_
      cases producer.bind s.enum? with
      | some id => exact .pure c
      | none => exact .reject _

theorem fillOp_chronicled (c : Chronicle policy facts loose p) (bodied : Bodied facts owner)
    (inlines : s.Inlines facts) {f : Entry ν}
    (knows : ∀ value ∈ f.2.payload.scopeOperand?, ∀ producer, d.definingOp value = .ok producer →
      (d.LocalScope f.1 value ↔ (producer.bind s.scope?).isSome)) :
    Leaves (fillOp d policy s owner f) p fun _ q =>
      Chronicle policy facts (loose ++ d.looseRef f.1 f.2.payload.scopeOperand?) q := by
  obtain ⟨id, op⟩ := f
  have silent (none : op.payload.scopeOperand? = none) :
      loose ++ d.looseRef id op.payload.scopeOperand? = loose := by
    rw [none]
    exact List.append_nil _
  cases payload : op.payload with
  | dbgVariable note =>
    rw [payload] at knows
    simp only [fillOp, payload]
    refine (scopeTarget_chronicled c bodied inlines note.scope knows).bind
      fun {target q} attached => ?_
    refine (enumTarget_chronicled attached.1 note.enumDef).bind fun kept => ?_
    exact addVariable_chronicled kept fun _ => attached.2
  | dbgScope note =>
    rw [payload] at knows
    simp only [fillOp, payload]
    refine (scopeTarget_chronicled c bodied inlines note.scope knows).bind
      fun {target q} attached => ?_
    cases level : s.scope? id with
    | none => exact .dangling _
    | some inline =>
      exact .known (addInstance_chronicled attached.1 fun _ => inlines.of_scope? level)
  | inst name moduleName inputs =>
    rw [← payload, silent (by rw [payload]; rfl)]
    simp only [fillOp, payload]
    split
    · exact .pure c
    · refine (moduleOf_chronicled c moduleName).bind fun {target q} named => ?_
      have added : Leaves (addInstance .structural owner ⟨name, target, id⟩) q fun _ q =>
          Chronicle policy (.register target moduleName :: facts) loose q :=
        addInstance_chronicled named fun _ => ⟨moduleName, List.mem_cons_self⟩
      exact added.weaken fun _ _ kept => kept.forget
  | wire name input =>
    rw [← payload, silent (by rw [payload]; rfl)]
    simp only [fillOp, payload]
    split
    · exact .pure c
    · exact addVariable_chronicled c fun _ => bodied
  | _ =>
    rw [← payload, silent (by rw [payload]; rfl)]
    simp only [fillOp, payload]
    exact .pure c

end Filling

section Definitions

variable {d : Design ν} {F : Forest ν} {options : Options} {e : Entry ν}

/-- A definition is taken in with the loose references of its body. -/
theorem collect_chronicled (n : Nesting d F) (linked : d.WellLinked) (he : e ∈ d.definitions)
    (c : Chronicle options.scopes [] loose p) :
    Leaves (collect d options e) p fun _ q =>
      Chronicle options.scopes [] (loose ++ d.looseIn (d.bodyIn e)) q := by
  obtain ⟨id, op⟩ := e
  cases payload : op.payload with
  | module name ports block =>
    have body : d.bodyIn (id, op) = d.bodyOf block := d.bodyIn_of_module payload
    simp only [collect, payload]
    have begun := (c.record (e := .collect .module name id) trivial rfl).forget
    refine .recorded ((define_chronicled begun name .module id).bind fun {owner q} defined => ?_)
    have surveyed : Leaves (survey options.info owner id (d.bodyOf block)) q fun s r =>
        (Chronicle options.scopes [.define owner .module id] loose r ∧ s.Inlines r.journal.toList) ∧
          s.Knows (d.bodyOf block) :=
      (survey_chronicled defined (d.bodyOf block)).and fun s r run => survey_knows run
    refine surveyed.bind fun {s r} noted => ?_
    obtain ⟨⟨kept, inlines⟩, knows⟩ := noted
    have bodied : Bodied r.journal.toList owner := ⟨id, kept.entered List.mem_cons_self⟩
    have fill {t : Progress ν} (c : Chronicle options.scopes r.journal.toList loose t) :
        Leaves (forM (d.bodyOf block) (fillOp d options.scopes s owner)) t fun _ q =>
          Chronicle options.scopes [] (loose ++ d.looseIn (d.bodyIn (id, op))) q := by
      rw [body]
      refine Leaves.weaken (.forM (fun part q =>
        Chronicle options.scopes r.journal.toList (loose ++ d.looseIn part) q) ?_ ?_)
          fun _ _ c => c.clear
      · simpa [Design.looseIn] using c
      · intro part f q hf c
        rw [Design.looseIn_append_singleton, ← List.append_assoc]
        exact fillOp_chronicled c bodied inlines fun value _ producer found =>
          n.localScope_iff_known linked he (body ▸ hf) (body ▸ knows) found
    split
    · exact fill kept.review
    · exact (addPorts_chronicled kept.review bodied block ports).bind fill
  | externModule name ports =>
    rw [show d.looseIn (d.bodyIn (id, op)) = [] by simp [Design.bodyIn, payload, Design.looseIn],
      List.append_nil]
    simp only [collect, payload]
    have begun := (c.record (e := .collect .external name id) trivial rfl).forget
    refine .recorded ((define_chronicled begun name .external id).bind fun {owner q} defined => ?_)
    have ports : Leaves (forM ports fun port : Port ν =>
        addVariable .externPort (.ofPort port none owner)) q
        fun _ q => Chronicle options.scopes [.define owner .external id] loose q :=
      .forM (fun _ q => Chronicle options.scopes [.define owner .external id] loose q) defined
        fun _ kept =>
        addVariable_chronicled kept fun _ => ⟨id, List.mem_singleton_self _⟩
    exact ports.weaken fun _ _ kept => kept.forget
  | _ =>
    rw [show d.looseIn (d.bodyIn (id, op)) = [] by simp [Design.bodyIn, payload, Design.looseIn],
      List.append_nil]
    simp only [collect, payload]
    exact .pure c

/-- **Chronicles.** Where an extraction ends, every event of its journal is founded, the journal has
let pass the loose references of the design, and its last event counts the nodes. -/
theorem all_chronicled (n : Nesting d F) (linked : d.WellLinked) :
    Leaves (all d options) .start fun _ q => Chronicle options.scopes [] d.looseScopes q ∧
      q.journal.toList.getLast? = some (.built q.hierarchy.stats) := by
  have loop : Leaves (forM d.definitions (collect d options)) .start fun _ q =>
      Chronicle options.scopes [] d.looseScopes q := by
    refine .forM (fun part q =>
      Chronicle options.scopes [] (part.flatMap fun e => d.looseIn (d.bodyIn e)) q)
      .start fun {part e q} he c => ?_
    rw [List.flatMap_append, List.flatMap_singleton]
    exact collect_chronicled n linked he c
  refine loop.bind fun {_ q} c => .get (.record ⟨?_, ?_⟩)
  · exact (c.record (e := .built q.hierarchy.stats) trivial rfl).forget
  · rw [q.journal_record, List.getLast?_concat]
    rfl

end Definitions

end Building

end Chronicles

end DebugHierarchy
