import DebugHierarchy.Proofs.Surveying

/-!
Filling in a body gives what the body tells.

Each operation of a body tells at most one node. `annotated`, `wired`, `opened` and `instantiated`
are the four ways; which of them count depends on the annotations there are. `inline` gives the
inline module of a scope and `find` the module of a name.

* `noteProblem`: what is wrong with the references of an annotation;
* `Building.fill_settles`: filling in a body fails with the first such problem in the order of the
  body, and else adds what `filling` tells, in the order of the body.
-/

namespace DebugHierarchy

variable {ν : Type}

section Tell

variable (d : Design ν) (body : List (Entry ν)) (inline : OpId → Option ModuleId) (owner : ModuleId)
  (find : ν → Option ModuleId)

/-- The module that a reference to a scope stands for: the inline module of a scope of the
body, or else the module itself. -/
def targetIn (ref : Option ValueId) : ModuleId := ((d.scopeIn body ref).bind inline).getD owner

def annotated (e : Entry ν) : Option (VariableNode ν) :=
  e.2.payload.annotation?.map fun note =>
    { name := note.name
      loc := e.2.loc
      value := some note.value
      sourceType := SourceType.ofParts note.typeName note.params
      enumId := d.enumIn body note.enumDef
      owner := targetIn d body inline owner note.scope }

def wired (e : Entry ν) : Option (VariableNode ν) :=
  match e.2.payload with
  | .wire name _ => some ⟨name, e.2.loc, e.2.result?, none, none, owner⟩
  | _ => none

def opened (e : Entry ν) : Option (Placement ν) :=
  e.2.payload.scope?.bind fun note => (inline e.1).map fun target =>
    ⟨targetIn d body inline owner note.scope, ⟨note.name, target, e.1⟩⟩

def instantiated (e : Entry ν) : Option (Placement ν) :=
  match e.2.payload with
  | .inst name moduleName _ => (find moduleName).map fun target => ⟨owner, ⟨name, target, e.1⟩⟩
  | _ => none

variable {d body inline owner find}

/-- What an annotation tells is owned by the module that its scope stands for. -/
theorem owner_of_annotated {e : Entry ν} {v : VariableNode ν}
    (told : annotated d body inline owner e = some v) :
    ∃ note, e.2.payload.annotation? = some note ∧
      v.owner = targetIn d body inline owner note.scope := by
  obtain ⟨note, payload, rfl⟩ := Option.map_eq_some_iff.1 told
  exact ⟨note, payload, rfl⟩

/-- What a wire tells is owned by the module itself. -/
theorem owner_of_wired {e : Entry ν} {v : VariableNode ν} (told : wired owner e = some v) :
    v.owner = owner := by
  unfold wired at told
  split at told
  · cases told
    rfl
  · cases told

theorem opened_eq_some_iff {e : Entry ν} {p : Placement ν} : opened d body inline owner e = some p ↔
    ∃ note target, e.2.payload = .dbgScope note ∧ inline e.1 = some target ∧
      p = ⟨targetIn d body inline owner note.scope, ⟨note.name, target, e.1⟩⟩ := by
  have scope (note : ScopeNote ν ValueId) :
      e.2.payload.scope? = some note ↔ e.2.payload = .dbgScope note := by
    cases e.2.payload <;> simp [Payload.scope?]
  simp only [opened, Option.bind_eq_some_iff, Option.map_eq_some_iff, scope]
  constructor
  · rintro ⟨note, payload, target, known, rfl⟩
    exact ⟨note, target, payload, known, rfl⟩
  · rintro ⟨note, target, payload, known, rfl⟩
    exact ⟨note, payload, target, known, rfl⟩

theorem instantiated_eq_some_iff {e : Entry ν} {p : Placement ν} :
    instantiated owner find e = some p ↔
    ∃ name moduleName inputs target, e.2.payload = .inst name moduleName inputs ∧
      find moduleName = some target ∧ p = ⟨owner, ⟨name, target, e.1⟩⟩ := by
  unfold instantiated
  constructor
  · intro told
    split at told
    · next name moduleName inputs payload =>
      obtain ⟨target, known, rfl⟩ := Option.map_eq_some_iff.1 told
      exact ⟨name, moduleName, inputs, target, payload, known, rfl⟩
    · cases told
  · rintro ⟨name, moduleName, inputs, target, payload, known, rfl⟩
    rw [payload]
    exact Option.map_eq_some_iff.2 ⟨target, known, rfl⟩

variable (d body inline owner find)

def filling (e : Entry ν) : Findings ν where
  defined := []
  inlined := []
  vars := (annotated d body inline owner e).toList ++ if hasVariable body then []
    else (wired owner e).toList
  insts := (opened d body inline owner e).toList ++
    if hasScope body then [] else (instantiated owner find e).toList

end Tell

section Problems

variable (d : Design ν) (policy : ScopePolicy) (body : List (Entry ν)) (user : OpId)

def scopeProblem : Option ValueId → Option (Failure ν)
  | none => none
  | some scope =>
    match d.definingOp scope with
    | .error what => some (.dangling what)
    | .ok _ =>
      if policy = .error ∧ d.scopeIn body (some scope) = none then
        some (.invalid (.unresolvedScope user scope))
      else none

def enumProblem : Option ValueId → Option (Failure ν)
  | none => none
  | some value =>
    match d.definingOp value with
    | .error what => some (.dangling what)
    | .ok _ =>
      if d.enumIn body (some value) = none then some (.invalid (.invalidEnumReference user value))
        else none

/-- What is wrong with the references of an operation, its scope before its enum definition. -/
def noteProblem (e : Entry ν) : Option (Failure ν) :=
  match e.2.payload with
  | .dbgVariable note =>
    (scopeProblem d policy body e.1 note.scope).or (enumProblem d body e.1 note.enumDef)
  | .dbgScope note => scopeProblem d policy body e.1 note.scope
  | _ => none

def portProblem (definition : OpId) (block : BlockId) (port : Port ν) : Option (Failure ν) :=
  if d.portValue? block port = none then
    some (.invalid (.missingPortValue definition port.name port.position))
  else none

variable {d} in
theorem portProblem_eq_none_iff {definition : OpId} {block : BlockId} {port : Port ν} :
    portProblem d definition block port = none ↔ (d.portValue? block port).isSome := by
  rw [portProblem, Option.isSome_iff_ne_none]
  split <;> simp_all

end Problems

namespace Building

variable {d : Design ν} {p q : Progress ν} {owner : ModuleId}

/-- A port without a value is an error; the others become variables. -/
theorem addPorts_settles [DecidableEq ν] (inside : owner.index < p.hierarchy.moduleCount)
    (definition : OpId) (block : BlockId) (ports : List (Port ν)) :
    Settles (addPorts d owner definition block ports) p
      (ports.findSome? (portProblem d definition block)) fun _ q =>
      p.Leads { Findings.none with
        vars := ports.map fun port => .ofPort port (d.portValue? block port) owner } q := by
  refine .forM (fun done q => p.Leads { Findings.none with
    vars := done.map fun port => .ofPort port (d.portValue? block port) owner } q) (.refl p) ?_
  intro done port q _ told
  unfold portProblem
  cases value : d.portValue? block port with
  | none => exact .throw _
  | some value =>
    refine (addVariable_settles (Nat.lt_of_lt_of_le inside told.moduleCount_le)).weaken ?_
    intro _ r _ leads
    have further := told.trans leads
    rw [List.map_append, List.map_singleton, value]
    exact further

section References

variable {body : List (Entry ν)} (distinct : (body.map (·.1)).Nodup) (base : Nat) (user : OpId)

include distinct

/-- A reference to an enum definition stands for the one of the body that it names. -/
theorem enumTarget_settles (ref : Option ValueId) :
    Settles (enumTarget d (Survey.of base body) user ref) p (enumProblem d body user ref)
      fun enum q =>
      enum = d.enumIn body ref ∧ q = p := by
  cases ref with
  | none => exact .pure ⟨rfl, rfl⟩
  | some value =>
    simp only [enumTarget, enumProblem, Survey.enumIn_eq distinct d base]
    cases found : d.definingOp value with
    | error what => exact rfl
    | ok producer =>
      rw [Design.producer?_of_ok found]
      refine .known ?_
      cases enum : Option.bind _ (Survey.of base body).enum? with
      | some id => exact .pure ⟨rfl, rfl⟩
      | none => exact .throw _

/-- A reference to a scope stands for a module that is there. -/
theorem targetIn_lt (inside : owner.index < p.hierarchy.moduleCount)
    (room : base + (scopesOf body).length ≤ p.hierarchy.moduleCount) (ref : Option ValueId) :
    (targetIn d body (Survey.of base body).scope? owner ref).index < p.hierarchy.moduleCount := by
  unfold targetIn
  cases target : (d.scopeIn body ref).bind (Survey.of base body).scope? with
  | none => exact inside
  | some inline =>
    obtain ⟨op, _, found⟩ := Option.bind_eq_some_iff.1 target
    obtain ⟨note, member⟩ := (Survey.scope?_eq_some_iff distinct).1 found
    exact Nat.lt_of_lt_of_le (numberedScopes_lt member) room

/-- A reference to a scope stands for the inline module of the one of the body that it names. -/
theorem scopeTarget_settles [DecidableEq ν] {policy : ScopePolicy} (ref : Option ValueId) :
    Settles (scopeTarget d policy (Survey.of base body) owner user ref) p
      (scopeProblem d policy body user ref) fun target q =>
      target = targetIn d body (Survey.of base body).scope? owner ref ∧ p.Leads .none q ∧
        q.hierarchy.moduleCount = p.hierarchy.moduleCount := by
  cases ref with
  | none => exact .pure ⟨rfl, .refl p, rfl⟩
  | some scope =>
    simp only [scopeTarget, scopeProblem, targetIn, Survey.scopeIn_eq_none_iff distinct base,
      Survey.scopeIn_bind distinct]
    cases found : d.definingOp scope with
    | error what => exact rfl
    | ok producer =>
      rw [Design.producer?_of_ok found]
      refine .known ?_
      cases inline : Option.bind _ (Survey.of base body).scope? with
      | some inline =>
        rw [if_neg (by simp)]
        exact .pure ⟨rfl, .refl _, rfl⟩
      | none =>
        cases policy with
        | error => exact .throw _
        | enclosing =>
          refine .seq (record_settles (e := .looseScope user scope) trivial rfl rfl) ?_
          rintro _ _ kept
          exact .pure ⟨rfl, kept⟩

end References

/-! ### Bodies -/

section Bodies

variable [DecidableEq ν] {body : List (Entry ν)} {inline : OpId → Option ModuleId}

/-- The modules that a part of a body instantiates by name are known. -/
def Met (h : Hierarchy ν) (part : List (Entry ν)) : Prop :=
  ∀ e ∈ part, ∀ {name moduleName inputs}, e.2.payload = .inst name moduleName inputs →
    ∃ id, h.find? moduleName = some id

/-- What filling in a body has done once it is past a part of it. -/
structure Filled (d : Design ν) (body : List (Entry ν)) (inline : OpId → Option ModuleId)
    (owner : ModuleId) (p : Progress ν) (part : List (Entry ν)) (q : Progress ν) : Prop where
  leads : p.Leads (.gather (filling d body inline owner q.hierarchy.find?) part) q
  met : hasScope body = false → Met q.hierarchy part

/-- What a body tells stays the same when further names are met. -/
theorem filling_congr (leads : ∃ f, p.Leads f q) {part : List (Entry ν)}
    (met : hasScope body = false → Met p.hierarchy part) :
    ∀ e ∈ part, filling d body inline owner p.hierarchy.find? e =
      filling d body inline owner q.hierarchy.find? e := by
  intro e he
  obtain ⟨f, leads⟩ := leads
  cases scopes : hasScope body with
  | true => simp [filling, scopes]
  | false =>
    have same : instantiated owner p.hierarchy.find? e =
        instantiated owner q.hierarchy.find? e := by
      unfold instantiated
      split
      · next payload =>
        obtain ⟨id, found⟩ := met scopes e he payload
        rw [found, leads.find? found]
      · rfl
    rw [filling, filling, same]

theorem Filled.singleton {e : Entry ν}
    (leads : p.Leads (filling d body inline owner q.hierarchy.find? e) q)
    (met : hasScope body = false → Met q.hierarchy [e]) : Filled d body inline owner p [e] q :=
  ⟨(Findings.gather_singleton _ e).symm ▸ leads, met⟩

/-- Parts of a body are filled in one after the other. -/
theorem Filled.append {part rest : List (Entry ν)} {r : Progress ν}
    (first : Filled d body inline owner p part q) (next : Filled d body inline owner q rest r) :
    Filled d body inline owner p (part ++ rest) r := by
  refine ⟨?_, fun scopes e he => ?_⟩
  · rw [Findings.gather_append, ← Findings.gather_congr (filling_congr ⟨_, next.leads⟩ first.met)]
    exact first.leads.trans next.leads
  · intro name moduleName inputs payload
    rcases List.mem_append.1 he with old | new
    · obtain ⟨id, found⟩ := first.met scopes e old payload
      exact ⟨id, next.leads.find? found⟩
    · exact next.met scopes e new payload

/-- An operation that is no instance operation instantiates nothing. -/
theorem met_singleton {e : Entry ν}
    (noInst : ∀ name moduleName inputs, e.2.payload ≠ .inst name moduleName inputs)
    (h : Hierarchy ν) :
    Met h [e] := by
  intro f hf name moduleName inputs payload
  rw [List.mem_singleton.1 hf] at payload
  exact absurd payload (noInst _ _ _)

section Operations

variable {policy : ScopePolicy} {base : Nat} {id : OpId} {op : Operation ν}

section Notes

variable (distinct : (body.map (·.1)).Nodup) (inside : owner.index < p.hierarchy.moduleCount)
  (room : base + (scopesOf body).length ≤ p.hierarchy.moduleCount) (he : (id, op) ∈ body)

include distinct inside room he

/-- An annotation adds its variable where its scope says. -/
theorem fillVariable_settles {note : VariableNote ν ValueId}
    (payload : op.payload = .dbgVariable note) :
    Settles (fillOp d policy (Survey.of base body) owner (id, op)) p
      (noteProblem d policy body (id, op))
      fun _ => Filled d body (Survey.of base body).scope? owner p [(id, op)] := by
  have present : hasVariable body = true :=
    List.any_eq_true.2 ⟨_, he, by simp [payload, Payload.annotation?]⟩
  have target_lt := targetIn_lt (d := d) distinct base inside room note.scope
  simp only [fillOp, noteProblem, payload]
  refine (scopeTarget_settles distinct base id note.scope).bind ?_
  rintro _ q _ ⟨rfl, quiet, count⟩
  rw [← Option.or_none (o := enumProblem d body id note.enumDef)]
  refine (enumTarget_settles distinct base id note.enumDef).bind ?_
  rintro _ _ _ ⟨rfl, rfl⟩
  rw [← count] at target_lt
  refine (addVariable_settles target_lt).weaken ?_
  intro _ r _ leads
  refine .singleton ?_ fun _ => met_singleton (by simp [payload]) _
  have tells : filling d body (Survey.of base body).scope? owner r.hierarchy.find? (id, op) =
      { Findings.none with vars := [⟨note.name, op.loc, some note.value,
        SourceType.ofParts note.typeName note.params, d.enumIn body note.enumDef,
        targetIn d body (Survey.of base body).scope? owner note.scope⟩] } := by
    simp [filling, annotated, opened, instantiated, payload, Payload.annotation?,
      Payload.scope?, present, Findings.none]
  rw [tells]
  exact quiet.trans leads

/-- A scope adds the instance that leads to its inline module. -/
theorem fillScope_settles {note : ScopeNote ν ValueId} (payload : op.payload = .dbgScope note) :
    Settles (fillOp d policy (Survey.of base body) owner (id, op)) p
      (noteProblem d policy body (id, op))
      fun _ => Filled d body (Survey.of base body).scope? owner p [(id, op)] := by
  have present : hasScope body = true :=
    List.any_eq_true.2 ⟨_, he, by simp [payload, Payload.scope?]⟩
  have target_lt := targetIn_lt (d := d) distinct base inside room note.scope
  have member : id ∈ (scopesOf body).map (·.1) :=
    List.mem_map_of_mem (mem_scopesOf.2 ⟨_, he, rfl, payload⟩)
  obtain ⟨inline, found⟩ := Option.isSome_iff_exists.1
    ((Survey.scope?_isSome_iff distinct base).2 member)
  have inline_lt : inline.index < p.hierarchy.moduleCount := by
    obtain ⟨_, numbered⟩ := (Survey.scope?_eq_some_iff distinct).1 found
    exact Nat.lt_of_lt_of_le (numberedScopes_lt numbered) room
  simp only [fillOp, noteProblem, payload, found, Handle.expect]
  rw [← Option.or_none (o := scopeProblem d policy body id note.scope)]
  refine (scopeTarget_settles distinct base id note.scope).bind ?_
  rintro _ q _ ⟨rfl, quiet, count⟩
  refine .known ?_
  rw [← count] at target_lt inline_lt
  refine (addInstance_settles target_lt inline_lt).weaken ?_
  intro _ r _ leads
  refine .singleton ?_ fun _ => met_singleton (by simp [payload]) _
  have tells : filling d body (Survey.of base body).scope? owner r.hierarchy.find? (id, op) =
      { Findings.none with insts :=
        [⟨targetIn d body (Survey.of base body).scope? owner note.scope,
          ⟨note.name, inline, id⟩⟩] } := by
    simp [filling, annotated, wired, opened, payload, Payload.annotation?,
      Payload.scope?, present, found, Findings.none]
  rw [tells]
  exact quiet.trans leads

end Notes

/-- Where there is no scope, an instance operation adds its instance. -/
theorem fillInst_settles (reached : p.Reached) (inside : owner.index < p.hierarchy.moduleCount)
    {name moduleName : ν} {inputs : List ValueId}
    (payload : op.payload = .inst name moduleName inputs) :
    Settles (fillOp d policy (Survey.of base body) owner (id, op)) p none
      fun _ => Filled d body (Survey.of base body).scope? owner p [(id, op)] := by
  simp only [fillOp, payload]
  by_cases scopes : (Survey.of base body).presence.insts = true
  · rw [if_pos scopes]
    rw [Survey.of_insts] at scopes
    refine .pure (.singleton ?_ fun none => by rw [scopes] at none; cases none)
    have tells : filling d body (Survey.of base body).scope? owner p.hierarchy.find? (id, op) =
        .none := by
      simp [filling, annotated, wired, opened, payload, Payload.annotation?, Payload.scope?, scopes,
        Findings.none]
    exact tells ▸ .refl p
  · rw [if_neg scopes]
    rw [Bool.not_eq_true, Survey.of_insts] at scopes
    refine .seq (moduleOf_settles moduleName) ?_
    rintro target q ⟨quiet, found, _⟩
    have there := Nat.lt_of_lt_of_le inside quiet.moduleCount_le
    refine (addInstance_settles there ((reached.leads quiet).find?_lt found)).weaken ?_
    intro _ r _ leads
    have known := leads.find? found
    refine .singleton ?_ fun _ e he _ _ _ same => ?_
    · have tells : filling d body (Survey.of base body).scope? owner r.hierarchy.find? (id, op) =
          { Findings.none with insts := [⟨owner, ⟨name, target, id⟩⟩] } := by
        simp [filling, annotated, wired, opened, instantiated, payload, Payload.annotation?,
          Payload.scope?, scopes, known, Findings.none]
      rw [tells]
      exact quiet.trans leads
    · rw [List.mem_singleton.1 he, payload] at same
      cases same
      exact ⟨target, known⟩

/-- Where there is no annotation, a wire adds its variable. -/
theorem fillWire_settles (inside : owner.index < p.hierarchy.moduleCount) {name : ν}
    {input : Option ValueId} (payload : op.payload = .wire name input) :
    Settles (fillOp d policy (Survey.of base body) owner (id, op)) p none
      fun _ => Filled d body (Survey.of base body).scope? owner p [(id, op)] := by
  simp only [fillOp, payload]
  by_cases vars : (Survey.of base body).presence.vars = true
  · rw [if_pos vars]
    rw [Survey.of_vars] at vars
    refine .pure (.singleton ?_ fun _ => met_singleton (by simp [payload]) _)
    have tells : filling d body (Survey.of base body).scope? owner p.hierarchy.find? (id, op) =
        .none := by
      simp [filling, annotated, opened, instantiated, payload, Payload.annotation?,
        Payload.scope?, vars, Findings.none]
    exact tells ▸ .refl p
  · rw [if_neg vars]
    rw [Bool.not_eq_true, Survey.of_vars] at vars
    refine (addVariable_settles inside).weaken ?_
    intro _ r _ leads
    refine .singleton ?_ fun _ => met_singleton (by simp [payload]) _
    have tells : filling d body (Survey.of base body).scope? owner r.hierarchy.find? (id, op) =
        { Findings.none with vars := [⟨name, op.loc, op.result?, none, none, owner⟩] } := by
      simp [filling, annotated, wired, opened, instantiated, payload,
        Payload.annotation?, Payload.scope?, vars, Findings.none]
    rw [tells]
    exact leads

/-- One operation of a body adds the node it tells. -/
theorem fillOp_settles {e : Entry ν} (distinct : (body.map (·.1)).Nodup) (reached : p.Reached)
    (inside : owner.index < p.hierarchy.moduleCount)
    (room : base + (scopesOf body).length ≤ p.hierarchy.moduleCount) (he : e ∈ body) :
    Settles (fillOp d policy (Survey.of base body) owner e) p (noteProblem d policy body e)
      fun _ => Filled d body (Survey.of base body).scope? owner p [e] := by
  obtain ⟨id, op⟩ := e
  cases payload : op.payload with
  | dbgVariable note => exact fillVariable_settles distinct inside room he payload
  | dbgScope note => exact fillScope_settles distinct inside room he payload
  | inst name moduleName inputs =>
    rw [noteProblem, payload]
    exact fillInst_settles reached inside payload
  | wire name input =>
    rw [noteProblem, payload]
    exact fillWire_settles inside payload
  | _ =>
    simp only [fillOp, noteProblem, payload]
    refine .pure (.singleton ?_ fun _ => met_singleton (by simp [payload]) _)
    have tells : filling d body (Survey.of base body).scope? owner p.hierarchy.find? (id, op) =
        .none := by
      simp [filling, annotated, wired, opened, instantiated, payload,
        Payload.annotation?, Payload.scope?, Findings.none]
    exact tells ▸ .refl p

end Operations

/-- **Filling in.** Filling in a body fails with the first problem of a reference, and else adds
what the body tells, in its order. -/
theorem fill_settles (policy : ScopePolicy) (base : Nat) (distinct : (body.map (·.1)).Nodup)
    (reached : p.Reached) (inside : owner.index < p.hierarchy.moduleCount)
    (room : base + (scopesOf body).length ≤ p.hierarchy.moduleCount) :
    Settles (forM body (fillOp d policy (Survey.of base body) owner)) p
      (body.findSome? (noteProblem d policy body)) fun _ =>
      Filled d body (Survey.of base body).scope? owner p body := by
  refine .forM (Filled d body (Survey.of base body).scope? owner p) ⟨.refl p, nofun⟩ ?_
  intro done e q part h
  have he : e ∈ body := part.subset (by simp)
  have larger := h.leads.moduleCount_le
  exact (fillOp_settles distinct (reached.leads h.leads) (by omega) (by omega) he).weaken
    fun _ one => h.append one

end Bodies

end Building

end DebugHierarchy
