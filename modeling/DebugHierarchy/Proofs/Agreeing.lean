import DebugHierarchy.Proofs.Editing
import DebugHierarchy.Proofs.Surveying

/-!
Two extractions side by side.

No step of an extraction reads the journal. So two runs that differ only in what they put down there
come to the same result. `Agrees v w g x y` says a little more: from hierarchies that look the same
through the view `v`, both steps fail with the same failure, or both end in hierarchies that look
the same through `w`, with results that `g` relates. The view is the identity for most steps; one
that blurs a part of a hierarchy lets two runs differ there for a while.

* `Agrees.bind`, `Agrees.foldlM`, `Agrees.forM`: steps in a row;
* `Building.collect_agrees`, `Building.all_agrees`: two extractions agree where the surveys and the
  fillings of all bodies do.
-/

namespace DebugHierarchy

variable {ν α β γ δ : Type}

/-- A part of a hierarchy, or all of it. -/
abbrev Sight (ν : Type) := Hierarchy ν → Hierarchy ν

/-- From hierarchies that look the same through `v`, the two steps end in hierarchies that look the
same through `w`, with results that `g` relates, or they fail in the same way. -/
def Agrees (v w : Sight ν) (g : α → β) (x : Building ν α) (y : Building ν β) : Prop :=
  ∀ p q, v p.hierarchy = v q.hierarchy →
    match x.run p, y.run q with
    | .ok a p', .ok b q' => b = g a ∧ w p'.hierarchy = w q'.hierarchy
    | .error failure _, .error failure' _ => failure = failure'
    | _, _ => False

abbrev Same (x y : Building ν α) : Prop := Agrees id id id x y

namespace Agrees

variable {u v w : Sight ν} {g : α → β} {k : γ → δ} {x : Building ν α} {y : Building ν β}
  {f : α → Building ν γ} {f' : β → Building ν δ}

theorem pure (a : α) : Agrees v v g (Pure.pure a) (Pure.pure (g a)) := fun _ _ same => ⟨rfl, same⟩

theorem throw (failure : Failure ν) :
    Agrees v w g (throw failure : Building ν α) (throw failure : Building ν β) := fun _ _ _ => rfl

theorem reject (error : BuildError ν) :
    Agrees v w g (Building.reject error : Building ν α) (Building.reject error : Building ν β) :=
  throw (.invalid error)

theorem record {e e' : Event ν} (stable : ∀ h h', v h = v h' → w (h.apply e) = w (h'.apply e')) :
    Agrees v w id (Building.record e) (Building.record e') :=
  fun p q same => ⟨rfl, stable p.hierarchy q.hierarchy same⟩

/-- Steps in a row, the second of which may rely on what the first one gives. -/
theorem bind_of (post : α → Prop) (first : Agrees u v g x y)
    (gives : ∀ p a q, x.run p = .ok a q → post a)
    (next : ∀ a, post a → Agrees v w k (f a) (f' (g a))) : Agrees u w k (x >>= f) (y >>= f') := by
  intro p q same
  have here := first p q same
  rw [EStateM.run_bind, EStateM.run_bind]
  cases left : x.run p with
  | ok a p' =>
    cases right : y.run q with
    | ok b q' =>
      rw [left, right] at here
      obtain ⟨rfl, same'⟩ := here
      exact next a (gives p a p' left) p' q' same'
    | error failure q' =>
      rw [left, right] at here
      exact here.elim
  | error failure p' =>
    cases right : y.run q with
    | ok b q' =>
      rw [left, right] at here
      exact here.elim
    | error failure' q' =>
      rw [left, right] at here
      exact here

theorem bind (first : Agrees u v g x y) (next : ∀ a, Agrees v w k (f a) (f' (g a))) :
    Agrees u w k (x >>= f) (y >>= f') :=
  first.bind_of (fun _ => True) (fun _ _ _ _ => trivial) fun a _ => next a

/-- A step that looks at the state first. -/
theorem get {f : Progress ν → Building ν α} {f' : Progress ν → Building ν β}
    (next : ∀ p q, v p.hierarchy = v q.hierarchy → Agrees v w g (f p) (f' q)) :
    Agrees v w g (MonadState.get >>= f) (MonadState.get >>= f') :=
  fun p q same => next p q same p q same

/-- An event before another step. -/
theorem recorded {e e' : Event ν} {f : Unit → Building ν α} {f' : Unit → Building ν β}
    (stable : ∀ h h', u h = u h' → v (h.apply e) = v (h'.apply e'))
    (next : Agrees v w g (f ()) (f' ())) :
    Agrees u w g (Building.record e >>= f) (Building.record e' >>= f') :=
  (record stable).bind fun _ => next

/-- An event of the first run alone, which the view does not show. -/
theorem recorded_left {e : Event ν} {f : Unit → Building ν α} (hidden : ∀ h, v (h.apply e) = v h)
    (next : Agrees v w g (f ()) y) : Agrees v w g (Building.record e >>= f) y :=
  fun p q same => next (p.record e) q ((hidden p.hierarchy).trans same)

theorem foldlM {l : List γ} {f : α → γ → Building ν α} {f' : β → γ → Building ν β}
    (step : ∀ a, ∀ c ∈ l, Agrees v v g (f a c) (f' (g a) c)) (a : α) :
    Agrees v v g (l.foldlM f a) (l.foldlM f' (g a)) := by
  induction l generalizing a with
  | nil => exact pure a
  | cons c rest ih =>
    rw [List.foldlM_cons, List.foldlM_cons]
    apply (step a c List.mem_cons_self).bind
    exact ih fun a c hc => step a c (List.mem_cons_of_mem _ hc)

theorem forM {l : List γ} {f f' : γ → Building ν PUnit}
    (step : ∀ c ∈ l, Agrees v v id (f c) (f' c)) :
    Agrees v v id (ForM.forM l f) (ForM.forM l f') := by
  induction l with
  | nil => exact pure ()
  | cons c rest ih =>
    rw [List.forM_cons, List.forM_cons]
    apply (step c List.mem_cons_self).bind
    intro _
    exact ih fun c hc => step c (List.mem_cons_of_mem _ hc)

end Agrees

/-- The survey knows the scopes of a body, and no others. -/
def Survey.Knows (s : Survey) (body : List (Entry ν)) : Prop :=
  ∀ op, (s.scope? op).isSome ↔ op ∈ (scopesOf body).map (·.1)

namespace Building

theorem apply_same (e : Event ν) (h h' : Hierarchy ν) (same : id h = id h') :
    id (h.apply e) = id (h'.apply e) := congrArg (·.apply e) same

theorem record_same (e : Event ν) : Same (record e) (record e) := .record (apply_same e)

theorem addVariable_same (origin : VariableOrigin) (node : VariableNode ν) :
    Same (addVariable origin node) (addVariable origin node) := by
  apply Agrees.get
  intro p q same
  rw [show p.hierarchy = q.hierarchy from same]
  exact record_same _

theorem addInstance_same (origin : InstanceOrigin) (owner : ModuleId) (node : InstanceNode ν) :
    Same (addInstance origin owner node) (addInstance origin owner node) := by
  apply Agrees.get
  intro p q same
  rw [show p.hierarchy = q.hierarchy from same]
  exact record_same _

theorem addInline_same (name : ν) (scope : OpId) (parent : ModuleId) :
    Same (addInline name scope parent) (addInline name scope parent) := by
  apply Agrees.get
  intro p q same
  rw [show p.hierarchy = q.hierarchy from same]
  exact (record_same _).bind fun _ => .pure _

theorem require_same (found : Except Dangling α) :
    Same (require found : Building ν α) (require found) := by
  cases found with
  | ok a => exact .pure a
  | error what => exact .throw (.dangling what)

section Names

variable [DecidableEq ν]

theorem moduleOf_same (name : ν) : Same (moduleOf name) (moduleOf name) := by
  apply Agrees.get
  intro p q same
  rw [show p.hierarchy = q.hierarchy from same]
  cases q.hierarchy.find? name with
  | some id => exact .pure id
  | none =>
    apply Agrees.get
    intro p' q' same'
    rw [show p'.hierarchy = q'.hierarchy from same']
    exact (record_same _).bind fun _ => .pure _

theorem definitionOf_same (name : ν) :
    Same (definitionOf name) (definitionOf name) := by
  apply Agrees.get
  intro p q same
  rw [show p.hierarchy = q.hierarchy from same]
  exact .pure _

theorem define_same (name : ν) (kind : ModuleKind) (op : OpId) :
    Same (define name kind op) (define name kind op) := by
  apply (moduleOf_same name).bind
  intro id
  apply (definitionOf_same name).bind
  intro first
  cases first with
  | none => exact (record_same _).bind fun _ => .pure _
  | some first =>
    obtain ⟨firstKind, firstOp⟩ := first
    by_cases same : firstKind = kind
    · simp only [same, if_true, id_eq]
      exact .reject _
    · simp only [same, if_false, id_eq]
      exact .reject _

end Names

/-- Policies differ about annotations of the type only. -/
theorem surveyOp_policy {e : Entry ν} (other : e.2.payload.isInfo = false)
    (policy policy' : InfoPolicy) (owner : ModuleId) (definition : OpId) (s : Survey) :
    surveyOp policy owner definition s e = surveyOp policy' owner definition s e := by
  obtain ⟨id, op⟩ := e
  cases payload : op.payload with
  | moduleInfo typeName params => simp [payload, Payload.isInfo] at other
  | _ => simp only [surveyOp, payload]

theorem surveyOp_same (policy : InfoPolicy) (owner : ModuleId) (definition : OpId) (s : Survey)
    (e : Entry ν) :
    Same (surveyOp policy owner definition s e) (surveyOp policy owner definition s e) := by
  obtain ⟨id, op⟩ := e
  cases payload : op.payload with
  | dbgScope note =>
    simp only [surveyOp, payload]
    exact (addInline_same _ _ _).bind fun _ => .pure _
  | moduleInfo typeName params =>
    simp only [surveyOp, payload]
    have last (t : Survey) : Same
        (do record (.setInfo owner (SourceType.ofParts (some typeName) params)); return t)
        (do record (.setInfo owner (SourceType.ofParts (some typeName) params)); return t :
          Building ν _) :=
      (record_same _).bind fun _ => .pure _
    cases s.info with
    | none => exact last _
    | some first =>
      by_cases strict : policy = .strict
      · simp only [strict, if_true]
        have rejected : Same (reject (.duplicateModuleInfo definition first id) : Building ν Unit)
            (reject (.duplicateModuleInfo definition first id)) := .reject _
        exact rejected.bind fun _ => (record_same _).bind fun _ => last _
      · simp only [strict, if_false]
        exact (record_same _).bind fun _ => last _
  | enumDef note =>
    simp only [surveyOp, payload]
    split
    · exact (record_same _).bind fun _ => .pure _
    · exact (record_same _).bind fun _ => .pure _
  | _ =>
    simp only [surveyOp, payload]
    exact .pure _

theorem surveyOps_same (policy : InfoPolicy) (owner : ModuleId) (definition : OpId) (s : Survey)
    (body : List (Entry ν)) : Same (body.foldlM (surveyOp policy owner definition) s)
      (body.foldlM (surveyOp policy owner definition) s) :=
  .foldlM (fun t e _ => surveyOp_same policy owner definition t e) s

theorem survey_same (policy : InfoPolicy) (owner : ModuleId) (definition : OpId)
    (body : List (Entry ν)) :
    Same (survey policy owner definition body) (survey policy owner definition body) := by
  apply (surveyOps_same policy owner definition {} body).bind
  intro s
  exact (record_same _).bind fun _ => .pure s

theorem surveyOp_scopes {policy : InfoPolicy} {owner : ModuleId} {definition : OpId} {s t : Survey}
    {e : Entry ν} {p q : Progress ν}
    (run : (surveyOp policy owner definition s e).run p = .ok t q) :
    t.scopes.map (·.1) = (scopesOf [e]).map (·.1) ++ s.scopes.map (·.1) := by
  obtain ⟨id, payload, loc, results, parent⟩ := e
  cases payload with
  | moduleInfo typeName params =>
    simp only [surveyOp] at run
    cases before : s.info with
    | none =>
      rw [before] at run
      cases run
      rfl
    | some first =>
      rw [before] at run
      cases policy with
      | strict => cases run
      | lastWins =>
        cases run
        rfl
  | enumDef note =>
    simp only [surveyOp] at run
    split at run
    · cases run
      rfl
    · cases run
      rfl
  | _ =>
    cases run
    rfl

theorem surveyOps_scopes {policy : InfoPolicy} {owner : ModuleId} {definition : OpId}
    {body : List (Entry ν)} {s t : Survey} {p q : Progress ν}
    (run : (body.foldlM (surveyOp policy owner definition) s).run p = .ok t q) :
    t.scopes.map (·.1) = ((scopesOf body).map (·.1)).reverse ++ s.scopes.map (·.1) := by
  induction body generalizing s p with
  | nil =>
    cases run
    rfl
  | cons e rest ih =>
    rw [List.foldlM_cons, EStateM.run_bind] at run
    cases first : (surveyOp policy owner definition s e).run p with
    | error failure r =>
      rw [first] at run
      cases run
    | ok u r =>
      rw [first] at run
      have one : ((scopesOf [e]).map (·.1)).reverse = (scopesOf [e]).map (·.1) := by
        cases found : e.2.payload.scope? <;> simp [scopesOf, found]
      have both : scopesOf (e :: rest) = scopesOf [e] ++ scopesOf rest := scopesOf_append [e] rest
      rw [ih run, surveyOp_scopes first, both, List.map_append, List.reverse_append, one,
        List.append_assoc]

/-- A survey knows the scopes of the body. -/
theorem survey_knows {policy : InfoPolicy} {owner : ModuleId} {definition : OpId}
    {body : List (Entry ν)} {p q : Progress ν} {t : Survey}
    (run : (survey policy owner definition body).run p = .ok t q) : t.Knows body := by
  unfold survey at run
  rw [EStateM.run_bind] at run
  cases whole : (body.foldlM (surveyOp policy owner definition) {}).run p with
  | error failure r =>
    rw [whole] at run
    cases run
  | ok u r =>
    rw [whole] at run
    cases run
    intro op
    have listed : op ∈ t.scopes.map (·.1) ↔ op ∈ (scopesOf body).map (·.1) := by
      rw [surveyOps_scopes whole]
      simp
    rw [← listed, Survey.scope?, Option.isSome_iff_ne_none, ne_eq, List.lookup_eq_none_iff]
    simp

theorem scopeTarget_same (d : Design ν) (policy : ScopePolicy) (s : Survey) (owner : ModuleId)
    (user : OpId) (ref : Option ValueId) :
    Same (scopeTarget d policy s owner user ref) (scopeTarget d policy s owner user ref) := by
  cases ref with
  | none => exact .pure owner
  | some scope =>
    simp only [scopeTarget]
    apply (require_same _).bind
    intro producer
    rw [id_eq]
    cases producer.bind s.scope? with
    | some inline => exact .pure inline
    | none =>
      cases policy with
      | error => exact .reject _
      | enclosing => exact (record_same _).bind fun _ => .pure owner

theorem enumTarget_same (d : Design ν) (s : Survey) (user : OpId) (ref : Option ValueId) :
    Same (enumTarget d s user ref) (enumTarget d s user ref) := by
  cases ref with
  | none => exact .pure none
  | some value =>
    simp only [enumTarget]
    apply (require_same _).bind
    intro producer
    rw [id_eq]
    cases producer.bind s.enum? with
    | some id => exact .pure (some id)
    | none => exact .reject _

theorem addPorts_same {d d' : Design ν} {block : BlockId}
    (same : ∀ port, d'.portValue? block port = d.portValue? block port) (owner : ModuleId)
    (definition : OpId) (ports : List (Port ν)) :
    Same (addPorts d owner definition block ports) (addPorts d' owner definition block ports) := by
  apply Agrees.forM
  intro port _
  rw [same port]
  cases d.portValue? block port with
  | none => exact .reject _
  | some value => exact addVariable_same _ _

variable [DecidableEq ν]

theorem fillOp_same (d : Design ν) (policy : ScopePolicy) (s : Survey) (owner : ModuleId)
    (e : Entry ν) :
    Same (fillOp d policy s owner e) (fillOp d policy s owner e) := by
  obtain ⟨id, op⟩ := e
  cases payload : op.payload with
  | dbgVariable note =>
    simp only [fillOp, payload]
    apply (scopeTarget_same d policy s owner id note.scope).bind
    intro target
    apply (enumTarget_same d s id note.enumDef).bind
    intro enumId
    exact addVariable_same _ _
  | dbgScope note =>
    simp only [fillOp, payload]
    apply (scopeTarget_same d policy s owner id note.scope).bind
    intro target
    apply (require_same _).bind
    intro inline
    exact addInstance_same _ _ _
  | inst name moduleName inputs =>
    simp only [fillOp, payload]
    split
    · exact .pure _
    · exact (moduleOf_same _).bind fun _ => addInstance_same _ _ _
  | wire name input =>
    simp only [fillOp, payload]
    split
    · exact .pure _
    · exact addVariable_same _ _
  | _ =>
    simp only [fillOp, payload]
    exact .pure _

/-! ### Two designs -/

structure BodiesAgree (d d' : Design ν) (o o' : Options) (definition : OpId) (block : BlockId) :
    Prop where
  ports : ∀ port, d'.portValue? block port = d.portValue? block port
  survey : ∀ owner, Same (survey o.info owner definition (d.bodyOf block))
    (survey o'.info owner definition (d'.bodyOf block))
  fill : ∀ s owner, s.Knows (d.bodyOf block) →
    Same (forM (d.bodyOf block) (fillOp d o.scopes s owner))
    (forM (d'.bodyOf block) (fillOp d' o'.scopes s owner))

variable {d d' : Design ν} {o o' : Options}

theorem collect_agrees {e : Entry ν}
    (bodies : ∀ name ports block, e.2.payload = .module name ports block →
    BodiesAgree d d' o o' e.1 block) : Same (collect d o e) (collect d' o' e) := by
  obtain ⟨op, operation⟩ := e
  cases payload : operation.payload with
  | module name ports block =>
    have body := bodies name ports block payload
    simp only [collect, payload]
    apply (record_same _).bind
    intro _
    apply (define_same name .module op).bind
    intro owner
    apply (body.survey owner).bind_of (·.Knows (d.bodyOf block)) fun _ _ _ run => survey_knows run
    intro s knows
    have fill := body.fill s owner knows
    by_cases vars : s.presence.vars = true
    · simp only [id_eq, vars, if_true]
      exact fill
    · simp only [id_eq, vars]
      exact (addPorts_same body.ports owner op ports).bind fun _ => fill
  | externModule name ports =>
    simp only [collect, payload]
    apply (record_same _).bind
    intro _
    apply (define_same name .external op).bind
    intro owner
    exact .forM fun port _ => addVariable_same _ _
  | _ =>
    simp only [collect, payload]
    exact .pure _

theorem all_agrees (definitions : d'.definitions = d.definitions)
    (bodies : ∀ e ∈ d.definitions, ∀ name ports block, e.2.payload = .module name ports block →
      BodiesAgree d d' o o' e.1 block) : Same (all d o) (all d' o') := by
  unfold all
  rw [definitions]
  have loop : Same (forM d.definitions (collect d o)) (forM d.definitions (collect d' o')) :=
    .forM fun e he => collect_agrees (bodies e he)
  apply loop.bind
  intro _
  apply Agrees.get
  intro p q same
  rw [show p.hierarchy = q.hierarchy from same]
  exact record_same _

end Building

/-- **Agreement.** Two extractions come to the same where they read the bodies of all
definitions in the same way. -/
theorem Design.outcome_agrees [DecidableEq ν] {d d' : Design ν} {o o' : Options}
    (definitions : d'.definitions = d.definitions)
    (bodies : ∀ e ∈ d.definitions, ∀ name ports block, e.2.payload = .module name ports block →
      Building.BodiesAgree d d' o o' e.1 block) :
    (d.extract o).outcome = (d'.extract o').outcome := by
  have both := Building.all_agrees definitions bodies .start .start rfl
  unfold Design.extract
  cases left : (Building.all d o).run .start with
  | ok a p =>
    cases right : (Building.all d' o').run .start with
    | ok b q =>
      rw [left, right] at both
      exact congrArg Except.ok both.2
    | error failure q =>
      rw [left, right] at both
      exact both.elim
  | error failure p =>
    cases right : (Building.all d' o').run .start with
    | ok b q =>
      rw [left, right] at both
      exact both.elim
    | error failure' q =>
      rw [left, right] at both
      exact congrArg Except.error both

end DebugHierarchy
