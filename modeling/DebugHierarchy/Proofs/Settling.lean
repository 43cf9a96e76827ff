import DebugHierarchy.Proofs.Ledger

/-!
What a step of an extraction comes to, success or failure.

`Settles x p problem post` settles both outcomes of a step at once: from `p` the step fails exactly
with `problem`, and where there is none it ends, and what it ends with meets `post`. Of two steps in
a row the first problem counts (`Settles.bind`), and a loop over a list is settled by what holds
after each part of the list (`Settles.foldlM`, `Settles.forM`).

Below the rules stand the single steps: new modules, definitions, variables and instances.
-/

namespace DebugHierarchy

variable {ν : Type} {α β : Type}

/-- From `p` the step fails with the problem, if there is one, and else ends as `post` has it. -/
def Settles (x : Building ν α) (p : Progress ν) (problem : Option (Failure ν))
    (post : α → Progress ν → Prop) : Prop :=
  match x.run p with
  | .ok a q => problem = none ∧ post a q
  | .error failure _ => problem = some failure

namespace Settles

variable {x : Building ν α} {f : α → Building ν β} {p : Progress ν}
  {problem next : Option (Failure ν)} {post : α → Progress ν → Prop} {post' : β → Progress ν → Prop}

theorem pure {a : α} (holds : post a p) : Settles (Pure.pure a) p none post := ⟨rfl, holds⟩

theorem throw (failure : Failure ν) : Settles (throw failure) p (some failure) post := rfl

theorem record {e : Event ν} {post : Unit → Progress ν → Prop} (holds : post () (p.record e)) :
    Settles (Building.record e) p none post := ⟨rfl, holds⟩

theorem weaken {post' : α → Progress ν → Prop} (h : Settles x p problem post)
    (imp : ∀ {a q}, problem = none → post a q → post' a q) : Settles x p problem post' := by
  unfold Settles at h ⊢
  cases run : x.run p with
  | ok a q =>
    rw [run] at h
    exact ⟨h.1, imp h.1 h.2⟩
  | error failure q =>
    rw [run] at h
    exact h

/-- **First problem.** Of two steps in a row, the second one matters only
where the first has no problem. -/
theorem bind (first : Settles x p problem post)
    (second : ∀ {a q}, problem = none → post a q → Settles (f a) q next post') :
    Settles (x >>= f) p (problem.or next) post' := by
  unfold Settles at first
  show match (x >>= f).run p with
    | .ok a q => problem.or next = none ∧ post' a q
    | .error failure _ => problem.or next = some failure
  rw [EStateM.run_bind]
  cases run : x.run p with
  | ok a q =>
    rw [run] at first
    obtain ⟨none, holds⟩ := first
    rw [none, Option.none_or]
    exact second none holds
  | error failure q =>
    rw [run] at first
    rw [show problem = some failure from first]
    rfl

/-- A step that looks at the state first. -/
theorem get {f : Progress ν → Building ν β} (h : Settles (f p) p problem post') :
    Settles (MonadState.get >>= f) p problem post' := h

/-- A step without a problem before another one. -/
theorem seq (first : Settles x p none post)
    (second : ∀ {a q}, post a q → Settles (f a) q next post') : Settles (x >>= f) p next post' := by
  have := first.bind fun _ holds => second holds
  rwa [Option.none_or] at this

/-- An event before another step. -/
theorem recorded {e : Event ν} {f : Unit → Building ν β}
    (h : Settles (f ()) (p.record e) next post') :
    Settles (Building.record e >>= f) p next post' := h

/-- A known value before another step. -/
theorem known {a : α} (h : Settles (f a) p next post') :
    Settles (Pure.pure a >>= f) p next post' := h

/-- **Loops.** A loop over a list is settled by what holds after each part of it. The problem of a
part is that of every longer one. -/
theorem foldlM {f : β → α → Building ν β} {l : List α} {b : β}
    (problem : List α → Option (Failure ν)) (inv : List α → β → Progress ν → Prop)
    (start : problem [] = none) (init : inv [] b p)
    (lasting : ∀ {done rest failure}, problem done = some failure →
      problem (done ++ rest) = some failure) (step : ∀ {done a b p}, done ++ [a] <+: l →
      problem done = none → inv done b p →
      Settles (f b a) p (problem (done ++ [a])) (inv (done ++ [a]))) :
    Settles (l.foldlM f b) p (problem l) (inv l) := by
  suffices ∀ rest done b p, done ++ rest = l → problem done = none → inv done b p →
      Settles (rest.foldlM f b) p (problem l) (inv l) from this l [] b p rfl start init
  intro rest
  -- The part that is done grows by the first member of the rest.
  induction rest with
  | nil =>
    intro done b p whole none holds
    rw [List.append_nil] at whole
    subst whole
    rw [none]
    exact .pure holds
  | cons a rest ih =>
    intro done b p whole none holds
    have longer : done ++ [a] ++ rest = l := by rw [List.append_assoc]; exact whole
    have here := step ⟨rest, longer⟩ none holds
    rw [List.foldlM_cons]
    unfold Settles at here ⊢
    rw [EStateM.run_bind]
    cases run : (f b a).run p with
    | ok b' q =>
      rw [run] at here
      exact ih _ _ _ longer here.1 here.2
    | error failure q =>
      rw [run] at here
      exact longer ▸ lasting here

theorem forM_eq_foldlM (f : α → Building ν PUnit) (l : List α) :
    ForM.forM l f = l.foldlM (fun _ => f) PUnit.unit := by
  induction l with
  | nil => rfl
  | cons a rest ih => rw [List.forM_cons, List.foldlM_cons, ih]

theorem forM {f : α → Building ν PUnit} {l : List α} {problem : α → Option (Failure ν)}
    (inv : List α → Progress ν → Prop) (init : inv [] p)
    (step : ∀ {done a p}, done ++ [a] <+: l → inv done p →
      Settles (f a) p (problem a) fun _ => inv (done ++ [a])) :
    Settles (ForM.forM l f) p (l.findSome? problem) fun _ => inv l := by
  rw [forM_eq_foldlM]
  refine foldlM (fun done => done.findSome? problem) (fun done _ => inv done) rfl init ?_ ?_
  · intro done rest failure found
    rw [List.findSome?_append, found]
    rfl
  · intro done a _ p part none holds
    rw [List.findSome?_append, none, Option.none_or, List.findSome?_singleton]
    exact step part holds

end Settles

def Progress.Reached [DecidableEq ν] (p : Progress ν) : Prop := ∃ f, Progress.start.Leads f p

namespace Progress

variable [DecidableEq ν] {p q : Progress ν}

theorem Reached.leads (reached : p.Reached) {f : Findings ν} (leads : p.Leads f q) : q.Reached := by
  obtain ⟨g, hg⟩ := reached
  exact ⟨g ++ f, hg.trans leads⟩

theorem Reached.labels (reached : p.Reached) : ∃ f, Labels p.hierarchy f := by
  obtain ⟨f, hf⟩ := reached
  exact ⟨_, hf.labels labels_start⟩

/-- The catalog holds no module that is not there. -/
theorem Reached.find?_lt (reached : p.Reached) {name : ν} {id : ModuleId}
    (found : p.hierarchy.find? name = some id) : id.index < p.hierarchy.moduleCount := by
  obtain ⟨f, labels⟩ := reached.labels
  obtain ⟨origin, label, _⟩ := labels.catalog.1 found
  exact Hierarchy.labelAt_lt label

theorem Leads.of_fits {e : Event ν} {f : Findings ν} (fits : e.Fits p.hierarchy)
    (tells : e.findings = f) : p.Leads f (p.record e) := tells ▸ .record fits

end Progress

def Hierarchy.definitionOf? [DecidableEq ν] (h : Hierarchy ν) (name : ν) :
    Option (ModuleKind × OpId) :=
  (h.find? name).bind fun id => h.store.modules[id.index]?.bind (·.definition?)

/-- A catalog has the definitions of names that the modules have. -/
theorem Labels.definition?_eq [DecidableEq ν] {h : Hierarchy ν} {f : Findings ν}
    (labels : Labels h f) (name : ν) : h.catalog.definition? name = h.definitionOf? name := by
  unfold Hierarchy.definitionOf? Catalog.definition? Hierarchy.find? Catalog.find?
  cases found : h.catalog.slots.find? name with
  | none => rfl
  | some slot =>
    obtain ⟨origin, label, definition⟩ := labels.slots _ (LookupMap.mem_of_find? found)
    obtain ⟨m, hm, both⟩ := Option.map_eq_some_iff.1 label
    cases both
    rw [Option.map_some, Option.bind_some, Option.bind_some, hm]
    exact definition

/-- What a name without a definition stands for was only referred to. -/
theorem Labels.referenced_of_find? [DecidableEq ν] {h : Hierarchy ν} {f : Findings ν}
    (labels : Labels h f) {name : ν} {id : ModuleId} (found : h.find? name = some id)
    (undefined : h.catalog.definition? name = none) :
    h.labelAt id.index = some (name, .referenced) := by
  obtain ⟨origin, label, inline⟩ := labels.catalog.1 found
  obtain ⟨m, hm, both⟩ := Option.map_eq_some_iff.1 label
  cases both
  rw [labels.definition?_eq, Hierarchy.definitionOf?, found, Option.bind_some, hm, Option.bind_some,
    ModuleNode.definition?] at undefined
  rw [label]
  cases origin : m.origin with
  | referenced => rfl
  | defined k o => rw [origin] at undefined; cases undefined
  | scope s parent => exact absurd origin (inline s parent)

/-- The contradiction between two definitions of one name. -/
def BuildError.clash (name : ν) (first : ModuleKind × OpId) (kind : ModuleKind) (op : OpId) :
    BuildError ν :=
  if first.1 = kind then .duplicateModule name first.2 op else .conflictingKinds name first.2 op

namespace Building

/-! ### Single steps -/

variable [DecidableEq ν] {p : Progress ν}

/-- An event that adds no node is recorded without further effect. -/
theorem record_settles {e : Event ν} (fits : e.Fits p.hierarchy) (tells : e.findings = .none)
    (count : (p.hierarchy.apply e).moduleCount = p.hierarchy.moduleCount) :
    Settles (record e) p none fun _ q =>
      p.Leads .none q ∧ q.hierarchy.moduleCount = p.hierarchy.moduleCount :=
  .record ⟨.of_fits fits tells, count⟩

/-- A name stands for one module from the moment it is met. -/
theorem moduleOf_settles (name : ν) :
    Settles (moduleOf name) p none fun id q =>
      p.Leads .none q ∧ q.hierarchy.find? name = some id ∧
        q.hierarchy.definitionOf? name = p.hierarchy.definitionOf? name := by
  unfold moduleOf
  refine .get ?_
  cases found : p.hierarchy.find? name with
  | some id => exact .pure ⟨.refl p, found, rfl⟩
  | none =>
    refine .get ?_
    have added : (p.record (.register p.hierarchy.store.nextModule name)).hierarchy.find? name =
        some p.hierarchy.store.nextModule := by
      rw [Progress.record, Hierarchy.find?_register, found, if_pos rfl]
      rfl
    refine .recorded (.pure ⟨.of_fits (e := .register _ name) ⟨rfl, found⟩ rfl, added, ?_⟩)
    rw [Hierarchy.definitionOf?, added, Hierarchy.definitionOf?, found]
    simp [Progress.record, Hierarchy.apply, Store.nextModule, Store.addModule, ModuleNode.bare,
      ModuleNode.definition?]

/-- A name takes one definition; a second one contradicts the first. -/
theorem define_settles (reached : p.Reached) (name : ν) (kind : ModuleKind) (op : OpId) :
    Settles (define name kind op) p
      ((p.hierarchy.definitionOf? name).map fun first => .invalid (.clash name first kind op))
      fun id q => p.Leads { Findings.none with defined := [⟨id, kind, op⟩] } q ∧
        q.hierarchy.find? name = some id := by
  unfold define
  refine .seq (moduleOf_settles name) ?_
  rintro id q ⟨leads, found, same⟩
  obtain ⟨f, labels⟩ := (reached.leads leads).labels
  have definition : q.hierarchy.catalog.definition? name = p.hierarchy.definitionOf? name :=
    (labels.definition?_eq name).trans same
  unfold definitionOf
  refine .get ?_
  rw [definition]
  cases known : p.hierarchy.definitionOf? name with
  | some first =>
    obtain ⟨firstKind, firstOp⟩ := first
    simp only [Option.map_some, BuildError.clash]
    split
    · exact .throw _
    · exact .throw _
  | none =>
    refine .recorded (.pure ⟨?_, (Hierarchy.find?_define ..).trans found⟩)
    have label := labels.referenced_of_find? found (definition.trans known)
    have := leads.trans (.of_fits (e := .define id kind op) ⟨name, label⟩ rfl)
    exact this

theorem addVariable_settles {origin : VariableOrigin} {node : VariableNode ν}
    (owner : node.owner.index < p.hierarchy.moduleCount) :
    Settles (addVariable origin node) p none fun _ q =>
      p.Leads { Findings.none with vars := [node] } q :=
  .get (.record (.of_fits ⟨rfl, owner⟩ rfl))

theorem addInstance_settles {origin : InstanceOrigin} {owner : ModuleId} {node : InstanceNode ν}
    (inside : owner.index < p.hierarchy.moduleCount)
    (target : node.target.index < p.hierarchy.moduleCount) :
    Settles (addInstance origin owner node) p none fun _ q =>
      p.Leads { Findings.none with insts := [⟨owner, node⟩] } q :=
  .get (.record (.of_fits ⟨rfl, inside, target⟩ rfl))

/-- An inline module takes the next free handle. -/
theorem addInline_settles {name : ν} {scope : OpId} {parent : ModuleId}
    (inside : parent.index < p.hierarchy.moduleCount) :
    Settles (addInline name scope parent) p none fun id q =>
      id = p.hierarchy.store.nextModule ∧ q.hierarchy.moduleCount = p.hierarchy.moduleCount + 1 ∧
        p.Leads { Findings.none with inlined := [⟨id, name, scope, parent⟩] } q := by
  unfold addInline
  refine .get (.recorded (.pure ⟨rfl, Hierarchy.moduleCount_apply _ _, ?_⟩))
  exact .of_fits (e := .inlineModule _ name scope parent) ⟨rfl, inside⟩ rfl

end Building

end DebugHierarchy
