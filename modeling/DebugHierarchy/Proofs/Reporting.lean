import DebugHierarchy.Proofs.Numbering

/-!
What a diagnosis says.

An error names operations and values by their handles, and its diagnosis looks them up
again in the design. So what it says is right only if the error was made in the right
place: the module that a reader is shown is found on the way up from an operation, and it
is the one that the extraction was at.

* `Design.Climbs`: the way up from an operation to the first module around it;
* `Nesting.climbs`: from an operation in the body of a module it ends at this module;
* `BuildError.Reported`: how a diagnosis marks the place of its error;
* `failures_diagnosed`: every failure of an extraction is diagnosed, and an unresolved scope is said
  to lie in the module whose body was filled in.
-/

namespace DebugHierarchy

variable {ν α : Type}

/-- The way up from an operation, owner after owner, comes to an end: at the first module
around, or outside all operations. -/
inductive Design.Climbs (d : Design ν) : OpId → Option (Entry ν) → Prop
  | top {id : OpId} : d.ownerOf id = .ok none → d.Climbs id none
  | found {id owner : OpId} {op : Operation ν} : d.ownerOf id = .ok (some owner) →
      d.op owner = .ok op →
      (∃ name ports block, op.payload = .module name ports block) → d.Climbs id (some (owner, op))
  | onward {id owner : OpId} {op : Operation ν} {around : Option (Entry ν)} :
      d.ownerOf id = .ok (some owner) → d.op owner = .ok op →
      (∀ name ports block, op.payload ≠ .module name ports block) → d.Climbs owner around →
      d.Climbs id around

section Climbing

variable {d : Design ν}

theorem Design.WellLinked.owner_lt (linked : d.WellLinked) {id owner : OpId}
    (found : d.ownerOf id = .ok (some owner)) : owner.index < id.index := by
  obtain ⟨o, there, found⟩ := bind_eq_ok_iff.1 found
  obtain ⟨block, around, parent⟩ := bind_eq_ok_iff.1 found
  obtain ⟨listing, listed, member⟩ := linked.listed_at (Design.op_eq_ok_iff.1 there)
  rw [Design.block_eq_ok_iff.1 around] at listed
  cases listed
  exact (linked.before (Design.block_eq_ok_iff.1 around) (Except.ok.inj parent)).2 id member

/-- Owners have ever smaller handles, so there are steps enough for every way up. -/
theorem Design.Climbs.enclosingFrom (linked : d.WellLinked) {id : OpId} {around : Option (Entry ν)}
    (climbs : d.Climbs id around) : ∀ {steps}, id.index < steps →
      d.enclosingFrom steps id = .ok around := by
  induction climbs with
  | top owner =>
    rintro (_ | steps) room
    · exact absurd room (Nat.not_lt_zero _)
    · exact bind_eq_ok_iff.2 ⟨none, owner, rfl⟩
  | found owner op module =>
    rintro (_ | steps) room
    · exact absurd room (Nat.not_lt_zero _)
    · obtain ⟨name, ports, block, payload⟩ := module
      exact bind_eq_ok_iff.2 ⟨_, owner, bind_eq_ok_iff.2 ⟨_, op, by rw [payload]; rfl⟩⟩
  | @onward id owner op around step there other _ ih =>
    rintro (_ | steps) room
    · exact absurd room (Nat.not_lt_zero _)
    · have less := linked.owner_lt step
      refine bind_eq_ok_iff.2 ⟨_, step, bind_eq_ok_iff.2 ⟨_, there, ?_⟩⟩
      split
      · next payload => exact absurd payload (other _ _ _)
      · exact ih (by omega)

theorem Design.Climbs.enclosingModule (linked : d.WellLinked) {id : OpId}
    {around : Option (Entry ν)} (climbs : d.Climbs id around) (there : id.index < d.ops.size) :
    d.enclosingModule id = .ok around :=
  climbs.enclosingFrom linked there

/-- What a block lists is owned by the operation that owns the block. -/
theorem Design.WellLinked.ownerOf_of_region (linked : d.WellLinked) {id x : OpId} {op : Operation ν}
    (there : d.ops[id.index]? = some op) {r : BlockId} (region : r ∈ op.payload.regions)
    (member : x ∈ d.opsOf r) : d.ownerOf x = .ok (some id) := by
  obtain ⟨block, found, parent⟩ := linked.owner there region
  rw [Design.opsOf, found] at member
  obtain ⟨o, here, listed⟩ := linked.parent found (Array.mem_toList_iff.1 member)
  have around : d.block o.parent = .ok block :=
    Design.block_eq_ok_iff.2 (by rw [listed]; exact found)
  exact bind_eq_ok_iff.2 ⟨o, Design.op_eq_ok_iff.2 here,
    bind_eq_ok_iff.2 ⟨block, around, by rw [parent]; rfl⟩⟩

/-- Where no modules lie in a forest, the way up from everything in it is that
from its outermost operations. -/
theorem Forest.climbs_of_plain (linked : d.WellLinked) {F : Forest ν} (stands : F.StandsIn d)
    (plain : F.Plain) {around : Option (Entry ν)} (heads : ∀ id ∈ F.heads, d.Climbs id around) :
    ∀ f ∈ F.preorder, d.Climbs f.1 around := by
  induction F with
  | nil => simp [preorder]
  | cons id op inner rest ihInner ihRest =>
    obtain ⟨here, below, standsInner, standsRest⟩ := stands
    obtain ⟨silent, plainInner, plainRest⟩ := plain
    have outermost : d.Climbs id around := heads id List.mem_cons_self
    have inside : ∀ x ∈ inner.heads, d.Climbs x around := by
      rw [below]
      intro x hx
      obtain ⟨r, region, member⟩ := List.mem_flatMap.1 hx
      refine .onward (linked.ownerOf_of_region here region member)
        (Design.op_eq_ok_iff.2 here) ?_ outermost
      intro name ports block payload
      rw [payload] at silent
      cases silent
    simp only [preorder, List.cons_append, List.mem_cons, List.mem_append]
    rintro f (rfl | hf | hf)
    · exact outermost
    · exact ihInner standsInner plainInner inside f hf
    · exact ihRest standsRest plainRest (fun x hx => heads x (List.mem_cons_of_mem _ hx)) f hf

/-- **The way up.** From an operation in the body of a module, at whatever depth,
the way up ends at the module. -/
theorem Nesting.climbs {F : Forest ν} (n : Nesting d F) (linked : d.WellLinked) {e : Entry ν}
    (he : e ∈ d.definitions) {name : ν} {ports : List (Port ν)} {block : BlockId}
    (payload : e.2.payload = .module name ports block) {op : OpId}
    (inside : op ∈ (d.bodyOf block).map (·.1)) : d.Climbs op (some e) := by
  have there : d.ops[e.1.index]? = some e.2 :=
    Design.ops_of_mem_entries (n.mem_definitions_iff.1 he).1
  rw [Design.definitions, n.under_top, ← F.parts_map_fst] at he
  obtain ⟨part, hpart, rfl⟩ := List.mem_map.1 he
  obtain ⟨stands, plain, _, heads⟩ := Forest.part_of_mem n.stands n.flat part hpart
  rw [← d.bodyIn_of_module payload, n.bodyIn_of_mem_parts hpart] at inside
  obtain ⟨f, hf, rfl⟩ := List.mem_map.1 inside
  refine Forest.climbs_of_plain linked stands plain (fun x hx => ?_) f hf
  rw [heads] at hx
  obtain ⟨r, region, member⟩ := List.mem_flatMap.1 hx
  exact .found (linked.ownerOf_of_region there region member) (Design.op_eq_ok_iff.2 there)
    ⟨name, ports, block, payload⟩

end Climbing

/-- A loop fails at the first member for which its step does. -/
theorem Building.forM_eq_error {f : α → Building ν PUnit} {l : List α} {p q : Progress ν}
    {failure : Failure ν} (run : (forM l f).run p = .error failure q) :
    ∃ before a after r, l = before ++ a :: after ∧
      (forM before f).run p = .ok () r ∧ (f a).run r = .error failure q := by
  induction l generalizing p with
  | nil => cases run
  | cons a rest ih =>
    rw [List.forM_cons, EStateM.run_bind] at run
    cases here : (f a).run p with
    | ok _ r =>
      rw [here] at run
      obtain ⟨before, b, after, s, rfl, ran, failed⟩ := ih run
      refine ⟨a :: before, b, after, s, rfl, ?_, failed⟩
      rw [List.forM_cons, EStateM.run_bind, here]
      exact ran
    | error failure' r =>
      rw [here] at run
      cases run
      exact ⟨[], a, rest, p, rfl, rfl, here⟩

/-- An extraction takes in all definitions before `e`, and fails while it takes in `e`. -/
def Design.FailsAt [DecidableEq ν] (d : Design ν) (options : Options) (e : Entry ν)
    (failure : Failure ν) : Prop :=
  ∃ before after p q, d.definitions = before ++ e :: after ∧
    (forM before (Building.collect d options)).run .start = .ok () p ∧
    (Building.collect d options e).run p = .error failure q

theorem Design.fails_at [DecidableEq ν] {d : Design ν} {options : Options} {failure : Failure ν}
    (failed : (d.extract options).outcome = .error failure) : ∃ e, d.FailsAt options e failure := by
  unfold Design.extract at failed
  split at failed
  · cases failed
  · next other q run =>
    cases failed
    unfold Building.all at run
    rw [EStateM.run_bind] at run
    cases loop : (forM d.definitions (Building.collect d options)).run .start with
    | ok _ p =>
      rw [loop] at run
      cases run
    | error failure' q =>
      rw [loop] at run
      cases run
      obtain ⟨before, e, after, p, whole, ran, failed⟩ := Building.forM_eq_error loop
      exact ⟨e, before, after, p, q, whole, ran, failed⟩

theorem Design.FailsAt.definition [DecidableEq ν] {d : Design ν} {options : Options} {e : Entry ν}
    {failure : Failure ν} (fails : d.FailsAt options e failure) : e ∈ d.definitions := by
  obtain ⟨before, after, _, _, whole, _⟩ := fails
  rw [whole]
  exact List.mem_append_right _ List.mem_cons_self

/-- An extraction fails with the problem of the definition that it fails at. -/
theorem Nesting.problem_of_fails [DecidableEq ν] {d : Design ν} {F : Forest ν} (n : Nesting d F)
    {options : Options} {e : Entry ν} {failure : Failure ν} (fails : d.FailsAt options e failure) :
    problemAt d options e = some failure := by
  obtain ⟨before, after, p, q, whole, ran, failed⟩ := fails
  have up : before ++ [e] <+: d.definitions := ⟨after, by rw [whole, List.append_assoc]; rfl⟩
  have loop : Settles (forM before (Building.collect d options)) .start
      (before.findSome? (problemAt d options))
      fun _ r => ∃ accounts, Collected d accounts before r := by
    refine .forM (fun part r => ∃ accounts, Collected d accounts part r) ⟨[], rfl,
      .refl _, by simp, by simp⟩ ?_
    rintro part f r within ⟨accounts, taken⟩
    refine (Building.collect_settles n ((within.trans (List.prefix_append _ _)).trans up)
      taken).weaken ?_
    rintro _ _ _ ⟨a, taken⟩
    exact ⟨_, taken⟩
  unfold Settles at loop
  rw [ran] at loop
  obtain ⟨_, accounts, taken⟩ := loop
  have settled : Settles (Building.collect d options e) p _ _ := Building.collect_settles n up taken
  unfold Settles at settled
  rw [failed] at settled
  exact settled

/-! ### What is said -/

def Label.At (text : ν → Except Dangling String) (d : Design ν) (op : OpId) (l : Label) : Prop :=
  ∃ o, d.op op = .ok o ∧ o.loc.resolve text = .ok l.loc

namespace BuildError

def site? : BuildError ν → Option OpId
  | .unresolvedScope op _ | .invalidEnumReference op _ => some op
  | .conflictingKinds _ _ second | .duplicateModule _ _ second
  | .duplicateModuleInfo _ _ second => some second
  | .missingPortValue .. => none

/-- A diagnosis marks the place of its error first, and then only what is related to it. -/
structure Reported (text : ν → Except Dangling String) (d : Design ν) (e : BuildError ν)
    (report : Diagnostic) : Prop where
  code : report.code = e.code
  severity : report.severity = .error
  marked : ∃ first related, report.labels = first :: related ∧ first.primary = true ∧
    (∀ l ∈ related, l.primary = false) ∧ ∀ op ∈ e.site?, first.At text d op

def argumentNote : String := "the scope value is a block argument"

/-- What a diagnosis of a scope adds for the operation that produces it. -/
def ProducerLabels (text : ν → Except Dangling String) (d : Design ν) : Option OpId →
    List Label → Prop
  | none, labels => labels = []
  | some made, labels => ∃ o loc, d.op made = .ok o ∧ o.loc.resolve text = .ok loc ∧
    labels = [⟨loc, s!"scope value produced by `{o.payload.mnemonic}`", false⟩]

/-- What a diagnosis of a scope adds for the module around. -/
def AroundLabels (text : ν → Except Dangling String) : Option (Entry ν) → List Label → Prop
  | none, labels => labels = []
  | some e, labels => ∃ name loc, moduleName text e.2 = .ok name ∧ e.2.loc.resolve text = .ok loc ∧
    labels = [⟨loc, s!"in module `{name}`", false⟩]

variable {text : ν → Except Dangling String} {d : Design ν} {report : Diagnostic}

theorem ProducerLabels.related {producer : Option OpId} {labels : List Label}
    (shown : ProducerLabels text d producer labels) : ∀ l ∈ labels, l.primary = false := by
  cases producer with
  | none => simp [show labels = [] from shown]
  | some made =>
    obtain ⟨o, loc, _, _, rfl⟩ := shown
    simp

theorem AroundLabels.related {around : Option (Entry ν)} {labels : List Label}
    (shown : AroundLabels text around labels) : ∀ l ∈ labels, l.primary = false := by
  cases around with
  | none => simp [show labels = [] from shown]
  | some made =>
    obtain ⟨name, loc, _, _, rfl⟩ := shown
    simp

theorem aroundLabels_of_diagnosis {start : Diagnostic} {around : Option (Entry ν)} {note : String}
    (told : (match around with
      | some (_, around) => do
        let name ← moduleName text around
        let loc ← around.loc.resolve text
        let located ← pure (start.withRelated loc s!"in module `{name}`")
        pure (located.withNote note)
      | none => do
        let located ← pure start
        pure (located.withNote note)) = Except.ok report) :
    ∃ labels, AroundLabels text around labels ∧
      report = { start with labels := start.labels ++ labels, notes := start.notes ++ [note] } := by
  cases around with
  | none =>
    cases told
    exact ⟨[], rfl, by rw [List.append_nil]; rfl⟩
  | some around =>
    simp only [bind_eq_ok_iff] at told
    obtain ⟨name, named, loc, site, _, same, told⟩ := told
    cases same
    cases told
    exact ⟨_, ⟨name, loc, named, site, rfl⟩, rfl⟩

variable [Inhabited ν] [DecidableEq ν]

/-- What the diagnosis of an unresolved scope is made of. -/
theorem diagnose_unresolvedScope {op : OpId} {scope : ValueId}
    (diagnosed : (unresolvedScope op scope : BuildError ν).diagnose text d = .ok report) :
    ∃ user place producer around made outer, d.op op = .ok user ∧
      user.loc.resolve text = .ok place ∧
      d.definingOp scope = .ok producer ∧ d.enclosingModule op = .ok around ∧
      ProducerLabels text d producer made ∧ AroundLabels text around outer ∧
      report = ⟨.unresolvedScope, .error,
        s!"`{user.payload.mnemonic}` refers to a scope outside its module",
        ⟨place, "scope used here", true⟩ :: (made ++ outer),
        (if producer = none then [argumentNote] else []) ++
          ["scopes must be defined by a `dbg.scope` in the same module"]⟩ := by
  simp only [diagnose, bind_eq_ok_iff] at diagnosed
  obtain ⟨user, found, place, located, producer, known, diagnosed⟩ := diagnosed
  cases producer with
  | none =>
    simp only [bind_eq_ok_iff] at diagnosed
    obtain ⟨_, same, around, enclosing, diagnosed⟩ := diagnosed
    cases same
    obtain ⟨outer, shown, rfl⟩ := aroundLabels_of_diagnosis diagnosed
    exact ⟨user, place, none, around, [], outer, found, located, known, enclosing, rfl, shown, rfl⟩
  | some producer =>
    simp only [bind_eq_ok_iff] at diagnosed
    obtain ⟨o, there, loc, site, _, same, around, enclosing, diagnosed⟩ := diagnosed
    cases same
    obtain ⟨outer, shown, rfl⟩ := aroundLabels_of_diagnosis diagnosed
    exact ⟨user, place, some producer, around, _, outer, found, located, known, enclosing,
      ⟨o, loc, there, site, rfl⟩, shown, rfl⟩

/-- **Labels.** A diagnosis that succeeds marks one place, that of its error, and marks it first. -/
theorem reported {e : BuildError ν} (diagnosed : e.diagnose text d = .ok report) :
    e.Reported text d report := by
  cases e with
  | unresolvedScope op scope =>
    obtain ⟨user, place, producer, around, made, outer, found, located, _, _,
        produced, shown, rfl⟩ :=
      diagnose_unresolvedScope diagnosed
    refine ⟨rfl, rfl, _, _, rfl, rfl, fun l hl => ?_, ?_⟩
    · exact (List.mem_append.1 hl).elim (produced.related l) (shown.related l)
    · rintro _ ⟨⟩
      exact ⟨user, found, located⟩
  | conflictingKinds name first second | duplicateModule name first second =>
    simp only [diagnose, bind_eq_ok_iff] at diagnosed
    obtain ⟨later, found, earlier, _, _, _, place, located, place', _, same⟩ := diagnosed
    cases same
    refine ⟨rfl, rfl, _, _, rfl, rfl, by simp, ?_⟩
    rintro _ ⟨⟩
    exact ⟨later, found, located⟩
  | invalidEnumReference op value =>
    simp only [diagnose, bind_eq_ok_iff] at diagnosed
    obtain ⟨user, found, place, located, producer, _, diagnosed⟩ := diagnosed
    cases producer with
    | none =>
      cases diagnosed
      refine ⟨rfl, rfl, _, _, rfl, rfl, by simp, ?_⟩
      rintro _ ⟨⟩
      exact ⟨user, found, located⟩
    | some producer =>
      simp only [bind_eq_ok_iff] at diagnosed
      obtain ⟨_, _, _, _, same⟩ := diagnosed
      cases same
      refine ⟨rfl, rfl, _, _, rfl, rfl, by simp, ?_⟩
      rintro _ ⟨⟩
      exact ⟨user, found, located⟩
  | missingPortValue module port position =>
    simp only [diagnose, bind_eq_ok_iff] at diagnosed
    obtain ⟨_, _, _, _, _, _, _, _, same⟩ := diagnosed
    cases same
    exact ⟨rfl, rfl, _, _, rfl, rfl, by simp, by simp [site?]⟩
  | duplicateModuleInfo module first second =>
    simp only [diagnose, bind_eq_ok_iff] at diagnosed
    obtain ⟨_, _, later, found, _, _, _, _, place, located, _, _, same⟩ := diagnosed
    cases same
    refine ⟨rfl, rfl, _, _, rfl, rfl, by simp, ?_⟩
    rintro _ ⟨⟩
    exact ⟨later, found, located⟩

end BuildError

/-- A value is produced by an operation, or it is an argument of a block. -/
theorem Design.value_of_definingOp {d : Design ν} {v : ValueId} {producer : Option OpId}
    (known : d.definingOp v = .ok producer) :
    (∃ b i, d.value v = .ok (.blockArg b i) ∧ producer = none) ∨
      ∃ made i, d.value v = .ok (.opResult made i) ∧ producer = some made := by
  obtain ⟨place, found, same⟩ := bind_eq_ok_iff.1 known
  cases place with
  | blockArg b i => exact .inl ⟨b, i, found, (Except.ok.inj same).symm⟩
  | opResult made i => exact .inr ⟨made, i, found, (Except.ok.inj same).symm⟩

/-- What the diagnosis of an unresolved scope says of the module around and of the value
that was taken for a scope. -/
structure ScopeReported [DecidableEq ν] (text : ν → Except Dangling String) (d : Design ν)
    (options : Options) (op : OpId) (scope : ValueId) (report : Diagnostic) : Prop where
  /-- The last label is at the module whose body was filled in when the extraction ended, and names
  it. It is the module at which the way up from the operation ends. -/
  around : ∃ e name ports block, d.FailsAt options e (.invalid (.unresolvedScope op scope)) ∧
    e.2.payload = .module name ports block ∧ op ∈ (d.bodyOf block).map (·.1) ∧
    d.Climbs op (some e) ∧
    ∃ s label, text name = .ok s ∧ report.labels.getLast? = some label ∧ label.At text d e.1 ∧
      label.primary = false ∧ label.message = s!"in module `{s}`"
  /-- There is a note of an argument just where the value is one, -/
  argument : BuildError.argumentNote ∈ report.notes ↔ ∃ b i, d.value scope = .ok (.blockArg b i)
  /-- and else a label at the operation that produces the value. -/
  produced : BuildError.argumentNote ∉ report.notes →
    ∃ made i o, d.value scope = .ok (.opResult made i) ∧
    d.op made = .ok o ∧ ∃ label ∈ report.labels, label.At text d made ∧ label.primary = false ∧
      label.message = s!"scope value produced by `{o.payload.mnemonic}`"

theorem Nesting.scopeReported [Inhabited ν] [DecidableEq ν] {d : Design ν} {F : Forest ν}
    (n : Nesting d F) (linked : d.WellLinked) {text : ν → Except Dangling String}
    {options : Options} {op : OpId} {scope : ValueId} {report : Diagnostic}
    (failed : (d.extract options).outcome = .error (.invalid (.unresolvedScope op scope)))
    (diagnosed : (BuildError.unresolvedScope op scope : BuildError ν).diagnose text d =
      .ok report) :
    ScopeReported text d options op scope report := by
  obtain ⟨e, fails⟩ := Design.fails_at failed
  obtain ⟨name, ports, block, payload, inside⟩ := problemAt_arises (n.problem_of_fails fails)
  have climbs := n.climbs linked fails.definition payload inside
  obtain ⟨user, place, producer, around, made, outer, found, located, known, enclosing,
      produced, shown, rfl⟩ :=
    BuildError.diagnose_unresolvedScope diagnosed
  have there : op.index < d.ops.size :=
    (Array.getElem?_eq_some_iff.1 (Design.op_eq_ok_iff.1 found)).1
  obtain rfl : some e = around :=
    Except.ok.inj ((climbs.enclosingModule linked there).symm.trans enclosing)
  have definition : d.op e.1 = .ok e.2 :=
    op_of_mem_entries (n.mem_definitions_iff.1 fails.definition).1
  obtain ⟨s, loc, named, site, rfl⟩ := shown
  have named : text name = .ok s := by
    rw [BuildError.moduleName, payload] at named
    exact named
  have note : BuildError.argumentNote ∈
      (if producer = none then [BuildError.argumentNote] else []) ++
      ["scopes must be defined by a `dbg.scope` in the same module"] ↔ producer = none := by
    have other : BuildError.argumentNote ≠
        "scopes must be defined by a `dbg.scope` in the same module" := by decide
    split <;> simp_all
  refine ⟨⟨e, name, ports, block, fails, payload, inside, climbs, s, ⟨loc, _, false⟩, named,
    ?_, ⟨e.2, definition, site⟩, rfl, rfl⟩, ?_, ?_⟩
  · rw [← List.cons_append, List.getLast?_concat]
  · rw [note]
    rcases Design.value_of_definingOp known with ⟨b, i, value, rfl⟩ | ⟨x, i, value, rfl⟩
    · exact iff_of_true rfl ⟨b, i, value⟩
    · refine iff_of_false (by simp) ?_
      rintro ⟨b, j, other⟩
      cases value.symm.trans other
  · rw [note]
    intro some
    rcases Design.value_of_definingOp known with ⟨_, _, _, rfl⟩ | ⟨x, i, value, rfl⟩
    · exact absurd rfl some
    · obtain ⟨o, loc', here, site', rfl⟩ := produced
      exact ⟨x, i, o, value, here, ⟨loc', _, false⟩, .tail _ (.head _), ⟨o, here, site'⟩, rfl, rfl⟩

/-- Every error with which an extraction ends has a diagnosis. -/
theorem Script.diagnosed_of_failure {script : Script} {known learned : NameTable} {d : Design Name}
    (built : script.build known = (.ok d, learned)) {options : Options} {error : BuildError Name}
    (failed : (d.extract options).outcome = .error (.invalid error)) :
    ∃ report, error.diagnose learned.text d = .ok report := by
  obtain ⟨_, t, _, reads⟩ := build_outcome built options
  rw [failed] at reads
  generalize (t.design.extract options).outcome = draft at reads
  cases reads with
  | invalid _ diagnosed _ => exact ⟨_, diagnosed⟩

/-- **Diagnoses of failures.** An error with which an extraction ends can be diagnosed. The
diagnosis marks the place of the error, and of a scope that is unresolved it tells the module whose
body was filled in and where the value comes from. -/
theorem failures_diagnosed {script : Script} {known learned : NameTable} {d : Design Name}
    (built : script.build known = (.ok d, learned)) {options : Options} {error : BuildError Name}
    (failed : (d.extract options).outcome = .error (.invalid error)) : ∃ report,
      error.diagnose learned.text d = .ok report ∧ error.Reported learned.text d report ∧
        ∀ op scope, error = .unresolvedScope op scope →
          ScopeReported learned.text d options op scope report := by
  have scripted : d.Scripted := ⟨script, known, learned, built⟩
  obtain ⟨F, n⟩ := scripted.nesting
  obtain ⟨report, diagnosed⟩ := Script.diagnosed_of_failure built failed
  refine ⟨report, diagnosed, BuildError.reported diagnosed, ?_⟩
  rintro op scope rfl
  exact n.scopeReported scripted.wellLinked failed diagnosed

/-- A variable deep in the regions of a module in a container, which refers
to a scope of another module. -/
def foreignScope : Script :=
  .module "Other" [] (.leaf (some "s") (.dbgScope ⟨"s", "Level", none⟩) .done) <|
  .container "c"
    (.loc (some ⟨"top.sv", 3, 1⟩) <|
      .module "Top" [⟨.input, "a", none⟩]
        (.region "outer"
          (.region "inner"
            (.loc (some ⟨"top.sv", 4, 2⟩) <|
              .leaf none (.dbgVariable ⟨"v", .input 0, some (.label "s"), none, none, none⟩) .done)
                .done) .done)
        .done) .done

theorem diagnosed_of_foreignScope :
    (foreignScope.design.extract {}).outcome = .error (.invalid (.unresolvedScope ⟨6⟩ ⟨0⟩)) ∧
    ∃ report, (BuildError.unresolvedScope ⟨6⟩ ⟨0⟩ : BuildError Name).diagnose
      foreignScope.names.text
        foreignScope.design = .ok report ∧
      ScopeReported foreignScope.names.text foreignScope.design {} ⟨6⟩ ⟨0⟩ report ∧
      report.labels.map (·.loc) = [⟨"top.sv", 4, 2⟩, .unknown, ⟨"top.sv", 3, 1⟩] := by
  have built : foreignScope.build .fresh = (.ok foreignScope.design, foreignScope.names) :=
    Script.build_fresh (by decide +kernel)
  have failed : (foreignScope.design.extract {}).outcome =
      .error (.invalid (.unresolvedScope ⟨6⟩ ⟨0⟩)) := by
    decide +kernel
  obtain ⟨report, diagnosed, _, told⟩ := failures_diagnosed built failed
  refine ⟨failed, report, diagnosed, told _ _ rfl, ?_⟩
  have places : ((BuildError.unresolvedScope ⟨6⟩ ⟨0⟩ : BuildError Name).diagnose
      foreignScope.names.text foreignScope.design).map (fun r => r.labels.map (·.loc)) =
      .ok [⟨"top.sv", 4, 2⟩, .unknown, ⟨"top.sv", 3, 1⟩] := by decide +kernel
  rw [diagnosed] at places
  exact Except.ok.inj places

end DebugHierarchy
