import DebugHierarchy.Proofs.Collecting
import DebugHierarchy.Proofs.Drafting

/-!
What comes of the extraction from a design that a script makes.

* `outcome_decided`: success or the first problem of the design;
* `Design.Scripted.collected`: a hierarchy that was extracted is told by the
  accounts of all definitions.
-/

namespace DebugHierarchy

def Payload.references {ν : Type} : Payload ν → List ValueId
  | .dbgVariable note => note.scope.toList ++ note.enumDef.toList
  | .dbgScope note => note.scope.toList
  | _ => []

/-- Every annotation refers to values that the design has. -/
def Design.InRange {ν : Type} (d : Design ν) : Prop :=
  ∀ e ∈ d.entries, ∀ v ∈ e.2.payload.references, v.index < d.values.size

variable {d : Design Name} {options : Options}

theorem Design.Scripted.settles (scripted : d.Scripted) (options : Options) :
    Settles (Building.all d options) .start (d.problem options) fun _ q =>
      ∃ accounts, Collected d accounts d.definitions q := by
  obtain ⟨F, n⟩ := scripted.nesting
  exact Building.all_settles n

/-- A hierarchy that was extracted is told by the accounts of all definitions, and the design has no
problem. -/
theorem Design.Scripted.collected (scripted : d.Scripted) {h : Hierarchy Name}
    (extracted : (d.extract options).outcome = .ok h) :
    ∃ F accounts q, q.hierarchy = h ∧ Nesting d F ∧ Collected d accounts d.definitions q ∧
      d.problem options = none := by
  obtain ⟨F, n⟩ := scripted.nesting
  have settled := scripted.settles options
  unfold Settles at settled
  unfold Design.extract at extracted
  cases run : (Building.all d options).run .start with
  | ok a q =>
    rw [run] at extracted settled
    cases extracted
    obtain ⟨none, accounts, collected⟩ := settled
    exact ⟨F, accounts, q, rfl, n, collected, none⟩
  | error failure q =>
    rw [run] at extracted
    cases extracted

section Problems

variable {ν : Type} {d : Design ν}

theorem definingOp_of_lt {v : ValueId} (there : v.index < d.values.size) :
    ∃ producer, d.definingOp v = .ok producer := by
  unfold Design.definingOp Design.value
  rw [Array.getElem?_eq_getElem there]
  cases d.values[v.index] with
  | opResult op i => exact ⟨some op, rfl⟩
  | blockArg block i => exact ⟨none, rfl⟩

/-- An annotation without references past the values contradicts the design, or it is in order. -/
theorem noteProblem_invalid {policy : ScopePolicy} {body : List (Entry ν)} {e : Entry ν}
    {failure : Failure ν} (inRange : ∀ v ∈ e.2.payload.references, v.index < d.values.size)
    (found : noteProblem d policy body e = some failure) : ∃ error, failure = .invalid error := by
  have scope {user : OpId} {ref : Option ValueId} (there : ∀ v ∈ ref, v.index < d.values.size)
      (found : scopeProblem d policy body user ref = some failure) :
      ∃ error, failure = .invalid error := by
    cases ref with
    | none => cases found
    | some v =>
      obtain ⟨producer, known⟩ := definingOp_of_lt (there v rfl)
      simp only [scopeProblem, known] at found
      split at found
      · cases found
        exact ⟨_, rfl⟩
      · cases found
  have enum {user : OpId} {ref : Option ValueId} (there : ∀ v ∈ ref, v.index < d.values.size)
      (found : enumProblem d body user ref = some failure) : ∃ error, failure = .invalid error := by
    cases ref with
    | none => cases found
    | some v =>
      obtain ⟨producer, known⟩ := definingOp_of_lt (there v rfl)
      simp only [enumProblem, known] at found
      split at found
      · cases found
        exact ⟨_, rfl⟩
      · cases found
  unfold noteProblem at found
  cases payload : e.2.payload with
  | dbgVariable note =>
    rw [payload] at found inRange
    simp only [Payload.references, List.mem_append, Option.mem_toList] at inRange
    rcases Option.or_eq_some_iff.1 found with found | ⟨_, found⟩
    · exact scope (fun v hv => inRange v (.inl hv)) found
    · exact enum (fun v hv => inRange v (.inr hv)) found
  | dbgScope note =>
    rw [payload] at found inRange
    simp only [Payload.references, Option.mem_toList] at inRange
    exact scope inRange found
  | _ =>
    rw [payload] at found
    cases found

/-- Where every annotation refers to values that are there, every problem is a contradiction. -/
theorem Nesting.problem_invalid [DecidableEq ν] {F : Forest ν} (n : Nesting d F)
    (inRange : d.InRange) {options : Options} {failure : Failure ν}
    (found : d.problem options = some failure) : ∃ error, failure = .invalid error := by
  obtain ⟨e, he, found⟩ := List.exists_of_findSome?_eq_some found
  rcases problemAt_cases found with
    named | ⟨name, ports, block, payload, typed | ⟨_, unbound⟩ | ⟨f, hf, noted⟩⟩
  · unfold nameProblem at named
    split at named
    · obtain ⟨first, _, rfl⟩ := Option.map_eq_some_iff.1 named
      exact ⟨_, rfl⟩
    · cases named
  · unfold infoProblem at typed
    split at typed
    · cases typed
      exact ⟨_, rfl⟩
    · cases typed
  · obtain ⟨_, _, rfl⟩ := portsProblem_eq_some_iff.1 unbound
    exact ⟨_, rfl⟩
  · rw [← d.bodyIn_of_module payload] at hf
    exact noteProblem_invalid
      (inRange f (n.mem_entries_of_body (n.definition_of_module he payload) hf)) noted

/-- Where a design has no problem, no module of it has one. -/
theorem bodyProblem_none [DecidableEq ν] {options : Options} (none : d.problem options = none)
    {e : Entry ν} (he : e ∈ d.entries) {name : ν} {ports : List (Port ν)} {block : BlockId}
    (payload : e.2.payload = .module name ports block) :
    (hasVariable (d.bodyOf block) = false → ∀ port ∈ ports, (d.portValue? block port).isSome) ∧
      ∀ f ∈ d.bodyOf block, noteProblem d options.scopes (d.bodyOf block) f = .none := by
  have here : problemAt d options e = .none := List.findSome?_eq_none_iff.1 none e he
  rw [problemAt, payload, Option.or_eq_none_iff] at here
  exact (bodyProblem_eq_none_iff.1 here.2).2

end Problems

/-- **Outcomes.** An extraction fails with the first problem of the design, and succeeds
just where there is none. Where every annotation refers to values that are there, each
problem is a contradiction. -/
theorem outcome_decided (scripted : d.Scripted) (options : Options) :
    (∀ failure, (d.extract options).outcome = .error failure ↔ d.problem options = some failure) ∧
      ((∃ h, (d.extract options).outcome = .ok h) ↔ d.problem options = none) ∧
      (d.InRange → ∀ failure, d.problem options = some failure →
        ∃ error, failure = .invalid error) := by
  have settled := scripted.settles options
  obtain ⟨F, n⟩ := scripted.nesting
  have contradictions : d.InRange → ∀ failure, d.problem options = some failure →
      ∃ error, failure = .invalid error := fun inRange failure => n.problem_invalid inRange
  unfold Settles at settled
  unfold Design.extract
  cases run : (Building.all d options).run .start with
  | ok a q =>
    rw [run] at settled
    refine ⟨fun failure => ?_, ?_, contradictions⟩
    · simp [settled.1]
    · simp [settled.1]
  | error failure q =>
    rw [run] at settled
    have found : d.problem options = some failure := settled
    refine ⟨fun other => ?_, ?_, contradictions⟩
    · simp [found]
    · simp [found]

/-- The hierarchy of a design; empty where an extraction fails. -/
def Design.hierarchy (d : Design Name) (options : Options) : Hierarchy Name :=
  match (d.extract options).outcome with
  | .ok h => h
  | .error _ => .empty

/-- A variable in a scope that is none, in the first of two modules of one name. -/
def twoDefects : Script :=
  .module "A" [⟨.input, "a", none⟩]
    (.leaf none (.dbgVariable ⟨"v", .input 0, some (.input 0), none, none, none⟩) .done) <|
  .module "A" [] .done .done

theorem outcome_of_twoDefects :
    (twoDefects.design.extract {}).outcome = .error (.invalid (.unresolvedScope ⟨1⟩ ⟨0⟩)) ∧
      ∃ error : BuildError Name, Failure.invalid (.unresolvedScope ⟨1⟩ ⟨0⟩) = .invalid error := by
  obtain ⟨failed, _, contradictions⟩ := outcome_decided twoDefects.design_scripted {}
  have problem : twoDefects.design.problem {} = some (.invalid (.unresolvedScope ⟨1⟩ ⟨0⟩)) := by
    decide +kernel
  have inRange : twoDefects.design.InRange := by
    unfold Design.InRange
    decide +kernel
  exact ⟨(failed _).2 problem, contradictions inRange _ problem⟩

/-- A scope in a value that is not there. -/
def lostScope : Script :=
  .module "M" [] (.leaf none (.dbgScope ⟨"s", "S", some (.value ⟨99⟩)⟩) .done) .done

/-- A value that is not there ends an extraction also where no policy objects to the
scope and nothing else is wrong. -/
theorem lostScope_fails : lostScope.design.Scripted ∧
    (∀ e ∈ lostScope.design.entries, nameProblem lostScope.design e = none ∧
      e.2.payload.ports = [] ∧ e.2.payload.annotation? = none ∧ e.2.payload.isInfo = false) ∧
    ¬ ∃ h, (lostScope.design.extract { scopes := .enclosing }).outcome = .ok h := by
  have failed : (lostScope.design.extract { scopes := .enclosing }).outcome =
      .error (.dangling ⟨.value, 99⟩) := by decide +kernel
  refine ⟨lostScope.design_scripted, by decide +kernel, fun ⟨h, extracted⟩ => ?_⟩
  rw [failed] at extracted
  cases extracted

end DebugHierarchy
