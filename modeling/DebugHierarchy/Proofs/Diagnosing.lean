import DebugHierarchy.Proofs.Linking
import DebugHierarchy.Proofs.Outcome
import DebugHierarchy.Proofs.Relabeling

/-!
Diagnoses of errors.

A diagnosis looks an error's operations and values up in the design and reads names as
texts. It never looks at a name otherwise, and an error of an extraction refers to nothing
that its design does not have.

* `BuildError.diagnose_map`: under other names the diagnosis is the same, if
  these have the same texts;
* `Nesting.problem_within`: an error refers to what is there;
* `problemAt_arises`: an error tells of the definition at which an extraction ends with it;
* `BuildError.Within.diagnosed`: the diagnosis of such an error succeeds.
-/

namespace DebugHierarchy

variable {ν μ : Type}

@[simp] theorem Payload.mnemonic_map (f : ν → μ) (p : Payload ν) :
    (p.map f).mnemonic = p.mnemonic := by
  cases p <;> rfl

theorem SourceLoc.resolve_map (text : μ → Except Dangling String) (f : ν → μ) (l : SourceLoc ν) :
    (l.map f).resolve text = l.resolve (text ∘ f) := rfl

namespace Design

variable (f : ν → μ) (d : Design ν)

theorem op_map (id : OpId) : (d.map f).op id = (·.map f) <$> d.op id := by
  unfold Design.op Handle.expect
  rw [Design.map, Array.getElem?_map]
  cases d.ops[id.index]? <;> rfl

theorem definingOp_map (v : ValueId) : (d.map f).definingOp v = d.definingOp v := rfl

theorem ownerOf_map (id : OpId) : (d.map f).ownerOf id = d.ownerOf id := by
  unfold ownerOf
  rw [op_map, bind_map_left]
  rfl

theorem enclosingFrom_map (steps : Nat) (id : OpId) : (d.map f).enclosingFrom steps id =
    (Option.map fun e => (e.1, e.2.map f)) <$> d.enclosingFrom steps id := by
  induction steps generalizing id with
  | zero => rfl
  | succ steps ih =>
    simp only [enclosingFrom, ownerOf_map, map_bind]
    refine bind_congr fun owner => ?_
    cases owner with
    | none => rfl
    | some owner =>
      simp only [op_map, bind_map_left, map_bind]
      refine bind_congr fun op => ?_
      rw [show (op.map f).payload = op.payload.map f from rfl]
      cases op.payload with
      | module => rfl
      | _ => exact ih owner

theorem enclosingModule_map (id : OpId) : (d.map f).enclosingModule id =
    (Option.map fun e => (e.1, e.2.map f)) <$> d.enclosingModule id := by
  unfold enclosingModule
  rw [enclosingFrom_map]
  simp [Design.map]

end Design

namespace BuildError

variable (text : μ → Except Dangling String) {f : ν → μ}

theorem moduleName_map (op : Operation ν) :
    moduleName text (op.map f) = moduleName (text ∘ f) op := by
  unfold moduleName
  cases payload : op.payload <;> simp [Operation.map, payload, Payload.map, Payload.symbol?]

variable [Inhabited ν] [DecidableEq ν] [Inhabited μ] [DecidableEq μ]

theorem isUnknown_map (injective : Function.Injective f) (blank : f default = default)
    (l : SourceLoc ν) : (l.map f).isUnknown = l.isUnknown := by
  obtain ⟨file, line, column⟩ := l
  simp only [SourceLoc.isUnknown, SourceLoc.unknown, SourceLoc.map, SourceLoc.mk.injEq, ← blank,
    injective.eq_iff]

theorem portLoc?_map (injective : Function.Injective f) (blank : f default = default)
    (op : Operation ν) (port : ν) :
    portLoc? (op.map f) (f port) = (portLoc? op port).map (·.map f) := by
  have ports : (op.map f).payload.ports = op.payload.ports.map (·.map f) := by
    cases payload : op.payload <;> simp [Operation.map, payload, Payload.map, Payload.ports]
  have same : (fun p : Port μ => decide (p.name = f port) && !p.loc.isUnknown) ∘ Port.map f =
      fun p : Port ν => decide (p.name = port) && !p.loc.isUnknown := by
    funext p
    simp only [Function.comp_apply, Port.map, injective.eq_iff, isUnknown_map injective blank]
  rw [portLoc?, ports, List.find?_map, same, portLoc?, Option.map_map, Option.map_map]
  rfl

/-- **Other names.** A diagnosis depends on the texts of names, not on the names. -/
theorem diagnose_map (injective : Function.Injective f) (blank : f default = default) (d : Design ν)
    (e : BuildError ν) : (e.map f).diagnose text (d.map f) = e.diagnose (text ∘ f) d := by
  cases e with
  | unresolvedScope op scope =>
    simp only [diagnose, map, code, Design.op_map, Design.definingOp_map,
      Design.enclosingModule_map, bind_map_left]
    refine bind_congr fun user => ?_
    simp only [Operation.map, Payload.mnemonic_map, SourceLoc.resolve_map]
    refine bind_congr fun place => bind_congr fun producer => ?_
    cases producer with
    | none =>
      refine bind_congr fun origin => bind_congr fun around => ?_
      cases around with
      | none => rfl
      | some around => exact congrArg (· >>= _) (moduleName_map text around.2)
    | some producer =>
      refine bind_congr fun producer => bind_congr fun place => bind_congr fun origin => ?_
      refine bind_congr fun around => ?_
      cases around with
      | none => rfl
      | some around => exact congrArg (· >>= _) (moduleName_map text around.2)
  | conflictingKinds name first second =>
    simp only [diagnose, map, code, Design.op_map, bind_map_left]
    simp only [Operation.map, Payload.mnemonic_map, SourceLoc.resolve_map, Function.comp_apply]
  | duplicateModule name first second =>
    simp only [diagnose, map, code, Design.op_map, bind_map_left]
    simp only [Operation.map, SourceLoc.resolve_map, Function.comp_apply]
  | invalidEnumReference op value =>
    simp only [diagnose, map, code, Design.op_map, Design.definingOp_map, bind_map_left]
    simp only [Operation.map, Payload.mnemonic_map, SourceLoc.resolve_map]
  | missingPortValue module port position =>
    simp only [diagnose, map, code, Design.op_map, bind_map_left, moduleName_map,
      portLoc?_map injective blank]
    refine bind_congr fun owner => bind_congr fun port' => bind_congr fun name => ?_
    have site : ((portLoc? owner port).map (·.map f)).getD (owner.map f).loc =
        ((portLoc? owner port).getD owner.loc).map f := by
      cases portLoc? owner port <;> rfl
    rw [site, SourceLoc.resolve_map]
  | duplicateModuleInfo module first second =>
    simp only [diagnose, map, code, Design.op_map, bind_map_left, moduleName_map]
    simp only [Operation.map, SourceLoc.resolve_map]

def ops : BuildError ν → List OpId
  | .unresolvedScope op _ | .invalidEnumReference op _ | .missingPortValue op _ _ => [op]
  | .conflictingKinds _ first second | .duplicateModule _ first second => [first, second]
  | .duplicateModuleInfo module first second => [module, first, second]

def values : BuildError ν → List ValueId
  | .unresolvedScope _ value | .invalidEnumReference _ value => [value]
  | _ => []

/-- An error refers to nothing that the design does not have. -/
structure Within (e : BuildError ν) (d : Design ν) : Prop where
  ops : ∀ op ∈ e.ops, op.index < d.ops.size
  values : ∀ v ∈ e.values, v.index < d.values.size

end BuildError

section Problems

variable {d : Design ν} {error : BuildError ν}

theorem Design.lt_of_mem_entries {e : Entry ν} (he : e ∈ d.entries) : e.1.index < d.ops.size :=
  (Array.getElem?_eq_some_iff.1 (Design.ops_of_mem_entries he)).1

theorem lt_of_definingOp {v : ValueId} {producer : Option OpId}
    (found : d.definingOp v = .ok producer) : v.index < d.values.size := by
  by_contra past
  unfold Design.definingOp Design.value at found
  rw [Array.getElem?_eq_none (Nat.le_of_not_lt past)] at found
  cases found

theorem scopeProblem_eq_invalid {policy : ScopePolicy} {body : List (Entry ν)} {user : OpId}
    {ref : Option ValueId} (found : scopeProblem d policy body user ref = some (.invalid error)) :
    ∃ v producer, d.definingOp v = .ok producer ∧ error = .unresolvedScope user v := by
  unfold scopeProblem at found
  split at found
  · cases found
  · split at found
    · cases found
    · next known =>
      split at found
      · cases found
        exact ⟨_, _, known, rfl⟩
      · cases found

theorem enumProblem_eq_invalid {body : List (Entry ν)} {user : OpId} {ref : Option ValueId}
    (found : enumProblem d body user ref = some (.invalid error)) :
    ∃ v producer, d.definingOp v = .ok producer ∧ error = .invalidEnumReference user v := by
  unfold enumProblem at found
  split at found
  · cases found
  · split at found
    · cases found
    · next known =>
      split at found
      · cases found
        exact ⟨_, _, known, rfl⟩
      · cases found

/-- An annotation contradicts the design with a reference to a value that is there. -/
theorem noteProblem_eq_invalid {policy : ScopePolicy} {body : List (Entry ν)} {e : Entry ν}
    (found : noteProblem d policy body e = some (.invalid error)) : ∃ v producer,
      d.definingOp v = .ok producer ∧
        (error = .unresolvedScope e.1 v ∨ error = .invalidEnumReference e.1 v) := by
  unfold noteProblem at found
  split at found
  · rcases Option.or_eq_some_iff.1 found with found | ⟨_, found⟩
    · exact (scopeProblem_eq_invalid found).imp fun _ => Exists.imp fun _ => And.imp_right .inl
    · exact (enumProblem_eq_invalid found).imp fun _ => Exists.imp fun _ => And.imp_right .inr
  · exact (scopeProblem_eq_invalid found).imp fun _ => Exists.imp fun _ => And.imp_right .inl
  · cases found

theorem noteProblem_within {policy : ScopePolicy} {body : List (Entry ν)} {e : Entry ν}
    (there : e.1.index < d.ops.size) (found : noteProblem d policy body e = some (.invalid error)) :
    error.Within d := by
  obtain ⟨v, producer, known, same⟩ := noteProblem_eq_invalid found
  have value := lt_of_definingOp known
  rcases same with rfl | rfl
  all_goals exact ⟨by simpa [BuildError.ops] using there, by simpa [BuildError.values] using value⟩

theorem infoProblem_within {policy : InfoPolicy} {definition : OpId} {body : List (Entry ν)}
    (there : definition.index < d.ops.size) (inside : ∀ e ∈ body, e.1.index < d.ops.size)
    (found : infoProblem policy definition body = some (.invalid error)) : error.Within d := by
  unfold infoProblem at found
  split at found
  · next first second rest infos =>
    cases found
    have member {op : OpId} (listed : op ∈ infosOf body) : op.index < d.ops.size := by
      obtain ⟨e, he, rfl⟩ := List.mem_map.1 listed
      exact inside e (List.mem_of_mem_filter he)
    have first_lt : first.index < d.ops.size := member (by simp [infos])
    have second_lt : second.index < d.ops.size := member (by simp [infos])
    exact ⟨by simp [BuildError.ops, there, first_lt, second_lt], by simp [BuildError.values]⟩
  · cases found

theorem nameProblem_within [DecidableEq ν] {e : Entry ν} (he : e ∈ d.entries)
    (found : nameProblem d e = some (.invalid error)) : error.Within d := by
  unfold nameProblem at found
  split at found
  · obtain ⟨first, earlier, same⟩ := Option.map_eq_some_iff.1 found
    obtain ⟨f, hf, kind⟩ := Option.bind_eq_some_iff.1 earlier
    obtain ⟨_, _, rfl⟩ := Option.map_eq_some_iff.1 kind
    have first_lt : f.1.index < d.ops.size :=
      Design.lt_of_mem_entries (List.mem_of_find?_eq_some hf)
    have second_lt : e.1.index < d.ops.size := Design.lt_of_mem_entries he
    cases same
    unfold BuildError.clash
    split
    · exact ⟨by simp [BuildError.ops, first_lt, second_lt], by simp [BuildError.values]⟩
    · exact ⟨by simp [BuildError.ops, first_lt, second_lt], by simp [BuildError.values]⟩
  · cases found

/-- **References of errors.** A contradiction in a design refers to what the design has. -/
theorem Nesting.problem_within [DecidableEq ν] {F : Forest ν} (n : Nesting d F) {options : Options}
    (found : d.problem options = some (.invalid error)) : error.Within d := by
  obtain ⟨e, he, found⟩ := List.exists_of_findSome?_eq_some found
  have there : e.1.index < d.ops.size := Design.lt_of_mem_entries he
  rcases problemAt_cases found with named | ⟨name, ports, block, payload, found⟩
  · exact nameProblem_within he named
  · have inside {f : Entry ν} (hf : f ∈ d.bodyOf block) : f.1.index < d.ops.size := by
      rw [← d.bodyIn_of_module payload] at hf
      exact Design.lt_of_mem_entries (n.mem_entries_of_body (n.definition_of_module he payload) hf)
    rcases found with typed | ⟨_, unbound⟩ | ⟨f, hf, noted⟩
    · exact infoProblem_within there (fun f => inside) typed
    · obtain ⟨port, _, same⟩ := portsProblem_eq_some_iff.1 unbound
      cases same
      exact ⟨by simpa [BuildError.ops] using there, by simp [BuildError.values]⟩
    · exact noteProblem_within (inside hf) noted

/-- What an error tells of the definition at which an extraction ends with it. -/
def BuildError.ArisesAt (d : Design ν) (e : Entry ν) : BuildError ν → Prop
  | .unresolvedScope op _ | .invalidEnumReference op _ => ∃ name ports block,
    e.2.payload = .module name ports block ∧ op ∈ (d.bodyOf block).map (·.1)
  | .conflictingKinds _ _ second | .duplicateModule _ _ second => second = e.1
  | .missingPortValue module port position => module = e.1 ∧ ∃ name ports block,
    e.2.payload = .module name ports block ∧ hasVariable (d.bodyOf block) = false ∧
      ports.findSome? (portProblem d e.1 block) =
        some (.invalid (.missingPortValue module port position))
  | .duplicateModuleInfo module _ _ => module = e.1

/-- **Origins of errors.** The problem of a definition tells of just that definition. -/
theorem problemAt_arises [DecidableEq ν] {options : Options} {e : Entry ν}
    (found : problemAt d options e = some (.invalid error)) : error.ArisesAt d e := by
  rcases problemAt_cases found with
    named | ⟨name, ports, block, payload, typed | ⟨absent, unbound⟩ | ⟨f, hf, noted⟩⟩
  · unfold nameProblem at named
    split at named
    · obtain ⟨first, _, same⟩ := Option.map_eq_some_iff.1 named
      unfold BuildError.clash at same
      split at same <;> cases same <;> rfl
    · cases named
  · unfold infoProblem at typed
    split at typed
    · cases typed
      rfl
    · cases typed
  · obtain ⟨port, _, same⟩ := portsProblem_eq_some_iff.1 unbound
    cases same
    exact ⟨rfl, name, ports, block, payload, absent, unbound⟩
  · obtain ⟨_, _, _, rfl | rfl⟩ := noteProblem_eq_invalid noted
    all_goals exact ⟨name, ports, block, payload, List.mem_map_of_mem hf⟩

/-- An extraction fails with a problem of its design. -/
theorem Nesting.problem_of_failure [DecidableEq ν] {F : Forest ν} (n : Nesting d F)
    {options : Options} {failure : Failure ν}
    (failed : (d.extract options).outcome = .error failure) : d.problem options = some failure := by
  have settled : Settles (Building.all d options) .start (d.problem options) _ :=
    Building.all_settles n
  unfold Settles at settled
  unfold Design.extract at failed
  cases run : (Building.all d options).run .start with
  | ok a q =>
    rw [run] at failed
    cases failed
  | error other q =>
    rw [run] at failed settled
    cases failed
    exact settled

end Problems

/-! ### Diagnoses that succeed -/

theorem succeeds_bind {ε α β : Type} {x : Except ε α} {a : α} {f : α → Except ε β}
    (first : x = .ok a) (next : ∃ b, f a = .ok b) : ∃ b, x >>= f = .ok b :=
  next.imp fun _ result => bind_eq_ok_iff.2 ⟨a, first, result⟩

namespace Design.WellLinked

variable {d : Design ν} (h : d.WellLinked)

include h

theorem ownerOf {id : OpId} (there : id.index < d.ops.size) :
    ∃ owner, d.ownerOf id = .ok owner ∧ ∀ op ∈ owner, op.index < d.ops.size := by
  have found := Array.getElem?_eq_getElem there
  obtain ⟨block, around, _⟩ := h.listed_at found
  refine ⟨block.parent, ?_, ?_⟩
  · unfold Design.ownerOf
    rw [op_eq_ok_iff.2 found]
    show (do return (← d.block _).parent) = _
    rw [block_eq_ok_iff.2 around]
    rfl
  · intro op parent
    exact (h.before around parent).1

theorem enclosingFrom (steps : Nat) {id : OpId} (there : id.index < d.ops.size) :
    ∃ around, d.enclosingFrom steps id = .ok around := by
  induction steps generalizing id with
  | zero => exact ⟨none, rfl⟩
  | succ steps ih =>
    obtain ⟨owner, found, inside⟩ := h.ownerOf there
    cases owner with
    | none => exact ⟨none, by rw [Design.enclosingFrom, found]; rfl⟩
    | some owner =>
      have bound := inside owner rfl
      apply succeeds_bind found
      apply succeeds_bind (op_eq_ok_iff.2 (Array.getElem?_eq_getElem bound))
      split
      · exact ⟨_, rfl⟩
      · exact ih bound

theorem definingOp {v : ValueId} (there : v.index < d.values.size) :
    ∃ producer, d.definingOp v = .ok producer ∧ ∀ op ∈ producer, op.index < d.ops.size := by
  have known : d.value v = .ok d.values[v.index] :=
    value_eq_ok_iff.2 (Array.getElem?_eq_getElem there)
  have holds := (h.values v _).1 known
  unfold Design.definingOp
  rw [known]
  cases place : d.values[v.index] with
  | blockArg b i => exact ⟨none, rfl, by simp⟩
  | opResult op i =>
    rw [place] at holds
    obtain ⟨o, found, _⟩ := holds
    have bound := (Array.getElem?_eq_some_iff.1 (op_eq_ok_iff.1 found)).1
    exact ⟨some op, rfl, by simpa using bound⟩

end Design.WellLinked

theorem BuildError.moduleName_ok (op : Operation String) :
    ∃ name, moduleName .ok op = .ok name := by
  unfold moduleName
  split
  · exact ⟨_, rfl⟩
  · exact ⟨_, rfl⟩

theorem SourceLoc.resolve_ok (l : SourceLoc String) : l.resolve .ok = .ok l := rfl

/-- **Diagnoses succeed.** An error that refers to nothing but what the
design has can be diagnosed. -/
theorem BuildError.Within.diagnosed {d : Design String} {e : BuildError String}
    (within : e.Within d) (linked : d.WellLinked) : ∃ report, e.diagnose .ok d = .ok report := by
  have op {id : OpId} (member : id ∈ e.ops) : ∃ o, d.op id = .ok o :=
    ⟨_, Design.op_eq_ok_iff.2 (Array.getElem?_eq_getElem (within.ops id member))⟩
  cases e with
  | unresolvedScope user scope =>
    obtain ⟨o, found⟩ := op (List.mem_singleton_self _)
    obtain ⟨producer, known, inside⟩ :=
      linked.definingOp (within.values scope (List.mem_singleton_self _))
    obtain ⟨around, enclosing⟩ := linked.enclosingFrom d.ops.size
      (within.ops user (List.mem_singleton_self _))
    apply succeeds_bind found
    apply succeeds_bind (SourceLoc.resolve_ok o.loc)
    apply succeeds_bind known
    cases producer with
    | none =>
      apply succeeds_bind rfl
      apply succeeds_bind enclosing
      cases around with
      | none => exact ⟨_, rfl⟩
      | some around =>
        obtain ⟨name, named⟩ := moduleName_ok around.2
        apply succeeds_bind named
        exact ⟨_, rfl⟩
    | some producer =>
      have made := Design.op_eq_ok_iff.2 (Array.getElem?_eq_getElem (inside producer rfl))
      apply succeeds_bind made
      apply succeeds_bind rfl
      apply succeeds_bind rfl
      apply succeeds_bind enclosing
      cases around with
      | none => exact ⟨_, rfl⟩
      | some around =>
        obtain ⟨name, named⟩ := moduleName_ok around.2
        apply succeeds_bind named
        exact ⟨_, rfl⟩
  | conflictingKinds name first second | duplicateModule name first second =>
    obtain ⟨later, there⟩ := op (List.mem_cons_of_mem _ (List.mem_singleton_self second))
    obtain ⟨earlier, here⟩ := op (List.mem_cons_self (a := first))
    apply succeeds_bind there
    apply succeeds_bind here
    exact ⟨_, rfl⟩
  | invalidEnumReference user value =>
    obtain ⟨o, found⟩ := op (List.mem_singleton_self _)
    obtain ⟨producer, known, inside⟩ :=
      linked.definingOp (within.values value (List.mem_singleton_self _))
    apply succeeds_bind found
    apply succeeds_bind (SourceLoc.resolve_ok o.loc)
    apply succeeds_bind known
    cases producer with
    | none => exact ⟨_, rfl⟩
    | some producer =>
      apply succeeds_bind (Design.op_eq_ok_iff.2 (Array.getElem?_eq_getElem (inside producer rfl)))
      exact ⟨_, rfl⟩
  | missingPortValue module port position =>
    obtain ⟨o, found⟩ := op (List.mem_singleton_self _)
    obtain ⟨name, named⟩ := moduleName_ok o
    apply succeeds_bind found
    apply succeeds_bind rfl
    apply succeeds_bind named
    exact ⟨_, rfl⟩
  | duplicateModuleInfo module first second =>
    obtain ⟨owner, found⟩ := op (show module ∈ _ by simp [BuildError.ops])
    obtain ⟨later, there⟩ := op (show second ∈ _ by simp [BuildError.ops])
    obtain ⟨earlier, here⟩ := op (show first ∈ _ by simp [BuildError.ops])
    obtain ⟨name, named⟩ := moduleName_ok owner
    apply succeeds_bind found
    apply succeeds_bind there
    apply succeeds_bind here
    apply succeeds_bind named
    exact ⟨_, rfl⟩

end DebugHierarchy
