import DebugHierarchy.Proofs.Agreeing
import DebugHierarchy.Proofs.Families
import DebugHierarchy.Proofs.Linking
import DebugHierarchy.Proofs.Outcome

/-!
References to scopes of other modules.

A reference is loose if it names no scope of the module around it: a scope of another module, a
value of another kind, an argument of a block. An extraction that forgives such references is one
of the design without them.

* `Design.LocalScope`: the references that are not loose, told by the bodies alone;
* `Design.dropLoose`: the edit that drops loose references;
* `Nesting.outcome_dropLoose`: to forgive them is to drop them.
-/

namespace DebugHierarchy

variable {ν : Type}

def Payload.filterScope (keep : ValueId → Bool) : Payload ν → Payload ν
  | .dbgVariable note => .dbgVariable { note with scope := note.scope.filter keep }
  | .dbgScope note => .dbgScope { note with scope := note.scope.filter keep }
  | p => p

/-- What tells nothing of the notes of variables and scopes is the same without their references. -/
theorem Payload.filterScope_same {α : Type} (read : Payload ν → α)
    (onVariable : ∀ note note', read (.dbgVariable note) = read (.dbgVariable note'))
    (scopes : ∀ note note', read (.dbgScope note) = read (.dbgScope note')) {keep : ValueId → Bool}
    (p : Payload ν) : read (p.filterScope keep) = read p := by
  cases p with
  | dbgVariable note => exact onVariable _ note
  | dbgScope note => exact scopes _ note
  | _ => rfl

namespace Design

variable (d : Design ν)

/-- The value is a result of a scope in the body of the module in which `user` stands. -/
def LocalScope (user : OpId) (value : ValueId) : Prop :=
  ∃ e ∈ d.definitions, user ∈ (d.bodyIn e).map (·.1) ∧
    ∃ f ∈ d.bodyIn e, f.2.payload.scope?.isSome ∧ value ∈ f.2.results

instance (user : OpId) (value : ValueId) : Decidable (d.LocalScope user value) :=
  inferInstanceAs (Decidable (∃ e ∈ d.definitions, _ ∧ ∃ f ∈ d.bodyIn e, _ ∧ _))

/-- Drops every reference to a scope that is not a scope of the same module. -/
def dropLoose : Edit ν := fun id op =>
  { op with payload := op.payload.filterScope fun value => d.LocalScope id value }

variable {d}

theorem dropLoose_quiet : d.dropLoose.Quiet where
  regions id op := op.payload.filterScope_same Payload.regions (fun _ _ => rfl) fun _ _ => rfl
  output id op := op.payload.filterScope_same Payload.output? (fun _ _ => rfl) fun _ _ => rfl
  moduleLike id op := op.payload.filterScope_same Payload.isModuleLike (fun _ _ => rfl)
    fun _ _ => rfl
  module id op like := by
    obtain ⟨payload, loc, results, parent⟩ := op
    cases payload <;> first | rfl | simp [Payload.isModuleLike, Payload.symbol?] at like

end Design

/-- An operation produces its results and nothing else. -/
theorem Design.WellLinked.definingOp_iff {d : Design ν} (linked : d.WellLinked) {value : ValueId}
    {op : OpId} :
    d.definingOp value = .ok (some op) ↔ ∃ o, d.op op = .ok o ∧ value ∈ o.results := by
  have place : d.definingOp value = .ok (some op) ↔ ∃ i, d.value value = .ok (.opResult op i) := by
    unfold Design.definingOp
    cases d.value value with
    | error what => exact ⟨nofun, nofun⟩
    | ok source => cases source <;> simp [bind, Except.bind, pure, Except.pure]
  simp only [place, linked.values, Holds, List.mem_iff_getElem?]
  constructor
  · rintro ⟨i, o, found, result⟩
    exact ⟨o, found, i, result⟩
  · rintro ⟨o, found, i, result⟩
    exact ⟨i, o, found, result⟩

/-- The scopes that an operation of a body may refer to are those of the body. -/
theorem Nesting.localScope_iff {d : Design ν} {F : Forest ν} (n : Nesting d F)
    (linked : d.WellLinked) {e f : Entry ν} (he : e ∈ d.definitions) (hf : f ∈ d.bodyIn e)
    {value : ValueId} : d.LocalScope f.1 value ↔
      ∃ op, d.definingOp value = .ok (some op) ∧ op ∈ (scopesOf (d.bodyIn e)).map (·.1) := by
  have user : f.1 ∈ (d.bodyIn e).map (·.1) := List.mem_map_of_mem hf
  have result {g : Entry ν} (hg : g ∈ d.bodyIn e) :
      value ∈ g.2.results ↔ d.definingOp value = .ok (some g.1) := by
    rw [linked.definingOp_iff, op_of_mem_entries (n.mem_entries_of_body he hg)]
    simp
  constructor
  · rintro ⟨e', he', inside, g, hg, scope, member⟩
    cases n.home_unique he he' user inside
    obtain ⟨note, found⟩ := Option.isSome_iff_exists.1 scope
    refine ⟨g.1, (result hg).1 member, ?_⟩
    rw [List.mem_map]
    exact ⟨(g.1, note), List.mem_filterMap.2 ⟨g, hg, by rw [found]; rfl⟩, rfl⟩
  · rintro ⟨op, known, listed⟩
    obtain ⟨⟨_, note⟩, scope, rfl⟩ := List.mem_map.1 listed
    obtain ⟨g, hg, rfl, payload⟩ := mem_scopesOf.1 scope
    exact ⟨e, he, user, g, hg, by rw [payload]; rfl, (result hg).2 known⟩

/-! ### Extractions without loose references -/

namespace Building

section Scopes

variable {d : Design ν} {s : Survey} {owner : ModuleId}

theorem surveyOp_dropLoose (policy : InfoPolicy) (definition : OpId) (e : Entry ν) :
    surveyOp policy owner definition s (Edit.entry d.dropLoose e) =
      surveyOp policy owner definition s e := by
  obtain ⟨id, op⟩ := e
  cases payload : op.payload <;>
    simp only [surveyOp, Edit.entry, Design.dropLoose, payload, Payload.filterScope]

theorem survey_dropLoose (policy : InfoPolicy) (definition : OpId) (body : List (Entry ν)) :
    survey policy owner definition (body.map (Edit.entry d.dropLoose)) =
      survey policy owner definition body := by
  simp only [survey, List.foldlM_map, surveyOp_dropLoose]

/-- To take a reference for one to the module itself is to do without it. -/
theorem scopeTarget_filter (d' : Design ν) (producers : d'.definingOp = d.definingOp) {user : OpId}
    {ref : Option ValueId} {keep : ValueId → Bool}
    (known : ∀ v ∈ ref, ∃ producer, d.definingOp v = .ok producer ∧
      (keep v = true ↔ (producer.bind s.scope?).isSome)) :
    Same (scopeTarget d .enclosing s owner user ref)
      (scopeTarget d' .error s owner user (ref.filter keep)) := by
  cases ref with
  | none => exact .pure owner
  | some scope =>
    obtain ⟨producer, found, kept⟩ := known scope rfl
    cases inside : producer.bind s.scope? with
    | some inline =>
      have stays : keep scope = true := kept.2 (by rw [inside]; rfl)
      simp only [Option.filter, stays, if_true, scopeTarget, producers, found, require,
        pure_bind, inside]
      exact .pure inline
    | none =>
      have dropped : keep scope = false := by
        rw [← Bool.not_eq_true, kept, inside]
        simp
      simp only [Option.filter, dropped, scopeTarget, found, require, pure_bind, inside]
      exact .recorded_left (fun h => rfl) (.pure owner)

variable [DecidableEq ν] {F : Forest ν}

theorem fillOp_dropLoose (n : Nesting d F) (linked : d.WellLinked) {e f : Entry ν}
    (he : e ∈ d.definitions) (hf : f ∈ d.bodyIn e)
    (inRange : ∀ v ∈ f.2.payload.references, v.index < d.values.size)
    (knows : s.Knows (d.bodyIn e)) : Same (fillOp d .enclosing s owner f)
      (fillOp (d.edit d.dropLoose) .error s owner (Edit.entry d.dropLoose f)) := by
  have target (ref : Option ValueId) (there : ∀ v ∈ ref, v.index < d.values.size) :
      Same (scopeTarget d .enclosing s owner f.1 ref)
        (scopeTarget (d.edit d.dropLoose) .error s owner f.1
          (ref.filter fun value => d.LocalScope f.1 value)) := by
    apply scopeTarget_filter _ (d.edit_definingOp d.dropLoose)
    intro v hv
    obtain ⟨producer, found⟩ := definingOp_of_lt (there v hv)
    refine ⟨producer, found, ?_⟩
    rw [decide_eq_true_iff, n.localScope_iff linked he hf, found]
    cases producer with
    | none => simp
    | some op =>
      rw [Option.bind_some, knows op]
      simp
  obtain ⟨user, op⟩ := f
  cases payload : op.payload with
  | dbgVariable note =>
    simp only [payload, Payload.references, List.mem_append, Option.mem_toList] at inRange
    simp only [fillOp, Edit.entry, Design.dropLoose, payload, Payload.filterScope]
    apply (target note.scope fun v hv => inRange v (.inl hv)).bind
    intro target
    apply (enumTarget_same d s user note.enumDef).bind
    intro enumId
    exact addVariable_same _ _
  | dbgScope note =>
    simp only [payload, Payload.references, Option.mem_toList] at inRange
    simp only [fillOp, Edit.entry, Design.dropLoose, payload, Payload.filterScope]
    apply (target note.scope inRange).bind
    intro target
    apply (require_same _).bind
    intro inline
    exact addInstance_same _ _ _
  | _ =>
    have same := fillOp_same d .error s owner (user, op)
    simp only [fillOp, payload] at same
    simp only [fillOp, Edit.entry, Design.dropLoose, payload, Payload.filterScope]
    exact same

end Scopes

end Building

/-- To forgive references to scopes of other modules is to drop them. -/
theorem Nesting.outcome_dropLoose [DecidableEq ν] {d : Design ν} {F : Forest ν} (n : Nesting d F)
    (linked : d.WellLinked) (inRange : d.InRange) (info : InfoPolicy) :
    (d.extract { scopes := .enclosing, info }).outcome =
      ((d.edit d.dropLoose).extract { scopes := .error, info }).outcome := by
  apply Design.outcome_agrees (Design.dropLoose_quiet.definitions d)
  intro e he name ports block payload
  have body : d.bodyIn e = d.bodyOf block := d.bodyIn_of_module payload
  have edited : (d.edit d.dropLoose).bodyOf block = (d.bodyOf block).map (Edit.entry d.dropLoose) :=
    Design.dropLoose_quiet.bodyOf d block
  refine ⟨Design.dropLoose_quiet.portValue? d block, ?_, ?_⟩
  · intro owner
    rw [edited, Building.survey_dropLoose]
    exact Building.survey_same info owner e.1 (d.bodyOf block)
  · intro s owner knows
    rw [edited, List.forM_map]
    apply Agrees.forM
    intro f hf
    rw [← body] at hf knows
    exact Building.fillOp_dropLoose n linked he hf (inRange f (n.mem_entries_of_body he hf)) knows

end DebugHierarchy
