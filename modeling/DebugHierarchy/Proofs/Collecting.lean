import DebugHierarchy.Proofs.Filling
import DebugHierarchy.Proofs.Nesting

/-!
A whole extraction, definition by definition.

What was done for a definition is told by an `Account`: the module it got, and where its inline
modules start. The findings of an extraction are those of its accounts, one for each definition that
was taken in (`Collected`). Only the catalog links the accounts with each other.

* `Design.problem`: the first problem of a design, in the order in which an
  extraction meets problems;
* `Building.all_settles`: an extraction fails with just that, and else its findings are those of the
  accounts of all definitions.
-/

namespace DebugHierarchy

variable {ν : Type}

/-- The kind and the operation of the definition of a name that comes before an operation. -/
def Design.earlier? [DecidableEq ν] (d : Design ν) (op : OpId) (name : ν) :
    Option (ModuleKind × OpId) :=
  (d.entries.find? fun e => e.1 < op ∧ e.2.payload.symbol? = some name).bind fun e =>
    e.2.payload.moduleKind?.map (·, e.1)

def nameProblem [DecidableEq ν] (d : Design ν) (e : Entry ν) : Option (Failure ν) :=
  match e.2.payload.symbol?, e.2.payload.moduleKind? with
  | some name, some kind =>
    (d.earlier? e.1 name).map fun first => .invalid (.clash name first kind e.1)
  | _, _ => none

/-- What is wrong in the body of a module: first the annotations of its type, then the ports that
stand for variables, then the references of annotations. -/
def bodyProblem (d : Design ν) (options : Options) (definition : OpId) (ports : List (Port ν))
    (block : BlockId) : Option (Failure ν) :=
  let body := d.bodyOf block
  (infoProblem options.info definition body).or <|
    (if hasVariable body then none else ports.findSome? (portProblem d definition block)).or <|
      body.findSome? (noteProblem d options.scopes body)

theorem bodyProblem_eq_none_iff {d : Design ν} {options : Options} {definition : OpId}
    {ports : List (Port ν)} {block : BlockId} :
    bodyProblem d options definition ports block = none ↔
      infoProblem options.info definition (d.bodyOf block) = none ∧
        (hasVariable (d.bodyOf block) = false → ∀ port ∈ ports, (d.portValue? block port).isSome) ∧
        ∀ f ∈ d.bodyOf block, noteProblem d options.scopes (d.bodyOf block) f = none := by
  simp only [bodyProblem, Option.or_eq_none_iff, List.findSome?_eq_none_iff]
  cases hasVariable (d.bodyOf block) <;> simp [portProblem_eq_none_iff]

/-- What is wrong with an operation that defines a module: first its name, then its body. -/
def problemAt [DecidableEq ν] (d : Design ν) (options : Options) (e : Entry ν) :
    Option (Failure ν) :=
  (nameProblem d e).or <|
    match e.2.payload with
    | .module _ ports block => bodyProblem d options e.1 ports block
    | _ => none

/-- The first problem of a design, its operations taken in the order of their handles. -/
def Design.problem [DecidableEq ν] (d : Design ν) (options : Options) : Option (Failure ν) :=
  d.entries.findSome? (problemAt d options)

/-- A problem with an operation that defines a module lies in its name, in the annotations of the
module's type, in its ports, or in an annotation of the body. -/
theorem problemAt_cases [DecidableEq ν] {d : Design ν} {options : Options} {e : Entry ν}
    {failure : Failure ν} (found : problemAt d options e = some failure) :
    nameProblem d e = some failure ∨
      ∃ name ports block, e.2.payload = .module name ports block ∧
        (infoProblem options.info e.1 (d.bodyOf block) = some failure ∨
          (hasVariable (d.bodyOf block) = false ∧
            ports.findSome? (portProblem d e.1 block) = some failure) ∨
          ∃ f ∈ d.bodyOf block, noteProblem d options.scopes (d.bodyOf block) f =
            some failure) := by
  rcases Option.or_eq_some_iff.1 found with found | ⟨_, found⟩
  · exact .inl found
  refine .inr ?_
  cases payload : e.2.payload with
  | module name ports block =>
    rw [payload] at found
    refine ⟨name, ports, block, rfl, ?_⟩
    rcases Option.or_eq_some_iff.1 found with found | ⟨_, found⟩
    · exact .inl found
    rcases Option.or_eq_some_iff.1 found with found | ⟨_, found⟩
    · split at found
      · cases found
      · next absent => exact .inr (.inl ⟨by simpa using absent, found⟩)
    · exact .inr (.inr (List.exists_of_findSome?_eq_some found))
  | _ =>
    rw [payload] at found
    cases found

/-- The first port, in the order of their declarations, for which the body has no value. -/
def Design.FirstUnbound (d : Design ν) (block : BlockId) (ports : List (Port ν)) (port : Port ν) :
    Prop :=
  ∃ before after, ports = before ++ port :: after ∧ (∀ p ∈ before, (d.portValue? block p).isSome) ∧
    d.portValue? block port = none

theorem portsProblem_eq_some_iff {d : Design ν} {definition : OpId} {block : BlockId}
    {ports : List (Port ν)} {failure : Failure ν} :
    ports.findSome? (portProblem d definition block) = some failure ↔
      ∃ port, d.FirstUnbound block ports port ∧
        failure = .invalid (.missingPortValue definition port.name port.position) := by
  rw [List.findSome?_eq_some_iff]
  constructor
  · rintro ⟨before, port, after, rfl, found, earlier⟩
    unfold portProblem at found
    split at found
    · next unbound =>
      cases found
      exact ⟨port, ⟨before, after, rfl, fun p hp => portProblem_eq_none_iff.1 (earlier p hp),
        unbound⟩, rfl⟩
    · cases found
  · rintro ⟨port, ⟨before, after, rfl, earlier, unbound⟩, rfl⟩
    exact ⟨before, port, after, rfl, if_pos unbound,
      fun p hp => portProblem_eq_none_iff.2 (earlier p hp)⟩

/-- The variables of a module: those that annotations of the body tell, or
else those of ports and wires. -/
def bodyVars (d : Design ν) (inline : OpId → Option ModuleId) (owner : ModuleId)
    (ports : List (Port ν)) (block : BlockId) : List (VariableNode ν) :=
  let body := d.bodyOf block
  if hasVariable body then body.filterMap (annotated d body inline owner)
  else (ports.map fun port => .ofPort port (d.portValue? block port) owner) ++
    body.filterMap (wired owner)

/-- The instances of a module: those that scopes of the body tell, or else
those of instance operations. -/
def bodyInsts (d : Design ν) (inline : OpId → Option ModuleId) (owner : ModuleId)
    (find : ν → Option ModuleId) (body : List (Entry ν)) : List (Placement ν) :=
  if hasScope body then body.filterMap (opened d body inline owner)
  else body.filterMap (instantiated owner find)

def bodyFindings (d : Design ν) (find : ν → Option ModuleId) (base : Nat) (owner : ModuleId)
    (ports : List (Port ν)) (block : BlockId) : Findings ν where
  defined := []
  inlined := inlinings base owner (d.bodyOf block)
  vars := bodyVars d (Survey.of base (d.bodyOf block)).scope? owner ports block
  insts := bodyInsts d (Survey.of base (d.bodyOf block)).scope? owner find (d.bodyOf block)

/-- What was done for a definition: the module it got, and how many modules there were before
its inline modules were made. -/
structure Account (ν : Type) where
  entry : Entry ν
  owner : ModuleId
  base : Nat

/-- The findings of an account; `find` gives the module of a name. -/
def Account.findings (d : Design ν) (find : ν → Option ModuleId) (a : Account ν) : Findings ν :=
  match a.entry.2.payload with
  | .module _ ports block =>
    { bodyFindings d find a.base a.owner ports block with
      defined := [⟨a.owner, .module, a.entry.1⟩] }
  | .externModule _ ports =>
    { Findings.none with
      defined := [⟨a.owner, .external, a.entry.1⟩]
      vars := ports.map fun port => .ofPort port none a.owner }
  | _ => .none

theorem Account.mem_defined {d : Design ν} {find : ν → Option ModuleId} {a : Account ν}
    {x : Definition} : x ∈ (a.findings d find).defined ↔
      ∃ kind, a.entry.2.payload.moduleKind? = some kind ∧ x = ⟨a.owner, kind, a.entry.1⟩ := by
  unfold findings Payload.moduleKind?
  cases a.entry.2.payload <;> simp [Findings.none]

theorem flatMap_toList {α β : Type} (f : α → Option β) (l : List α) :
    (l.flatMap fun a => (f a).toList) = l.filterMap f := by
  induction l with
  | nil => rfl
  | cons a rest ih => rw [List.flatMap_cons, ih]; cases h : f a <;> simp [h]

/-- Annotations tell the variables of a body or its wires do, and scopes tell its instances or
its instance operations do. -/
theorem gather_filling (d : Design ν) (body : List (Entry ν)) (inline : OpId → Option ModuleId)
    (owner : ModuleId) (find : ν → Option ModuleId) :
    Findings.gather (filling d body inline owner find) body = { Findings.none with
      vars := if hasVariable body then body.filterMap (annotated d body inline owner)
        else body.filterMap (wired owner)
      insts := bodyInsts d inline owner find body } := by
  have vars : (Findings.gather (filling d body inline owner find) body).vars =
      if hasVariable body then body.filterMap (annotated d body inline owner)
        else body.filterMap (wired owner) := by
    rw [Findings.gather_vars]
    cases present : hasVariable body with
    | true => simp [filling, present, flatMap_toList]
    | false =>
      rw [if_neg (by simp), ← flatMap_toList]
      refine List.flatMap_congr fun e he => ?_
      have none : e.2.payload.annotation? = none := by
        simpa using List.any_eq_false.1 present e he
      simp [filling, present, annotated, none]
  have insts : (Findings.gather (filling d body inline owner find) body).insts =
      bodyInsts d inline owner find body := by
    rw [Findings.gather_insts, bodyInsts]
    cases present : hasScope body with
    | true => simp [filling, present, flatMap_toList]
    | false =>
      rw [if_neg (by simp), ← flatMap_toList]
      refine List.flatMap_congr fun e he => ?_
      have none : e.2.payload.scope? = none := by
        simpa using List.any_eq_false.1 present e he
      simp [filling, present, opened, none]
  have defined : (Findings.gather (filling d body inline owner find) body).defined = [] := by
    simp [Findings.gather_defined, filling]
  have inlined : (Findings.gather (filling d body inline owner find) body).inlined = [] := by
    simp [Findings.gather_inlined, filling]
  rw [← vars, ← insts, Findings.none, ← defined, ← inlined]

/-- The instances of a body stay the same when further names are met. -/
theorem bodyInsts_congr [DecidableEq ν] {d : Design ν} {inline : OpId → Option ModuleId}
    {owner : ModuleId} {p q : Progress ν} {f : Findings ν} {body : List (Entry ν)}
    (leads : p.Leads f q) (met : hasScope body = false → Building.Met p.hierarchy body) :
    bodyInsts d inline owner p.hierarchy.find? body =
      bodyInsts d inline owner q.hierarchy.find? body := by
  unfold bodyInsts
  cases scopes : hasScope body with
  | true => rfl
  | false =>
    rw [if_neg (by simp), if_neg (by simp)]
    refine List.filterMap_congr fun e he => ?_
    unfold instantiated
    split
    · next inst =>
      obtain ⟨id, found⟩ := met scopes e he inst
      rw [found, leads.find? found]
    · rfl

/-! ### Accounts of a part of the definitions -/

/-- What an extraction has done once it is past a part of the definitions. -/
structure Collected [DecidableEq ν] (d : Design ν) (accounts : List (Account ν))
    (part : List (Entry ν)) (q : Progress ν) : Prop where
  entries : accounts.map (·.entry) = part
  leads : Progress.start.Leads (.gather (Account.findings d q.hierarchy.find?) accounts) q
  known : ∀ a ∈ accounts, ∃ name, a.entry.2.payload.symbol? = some name ∧
    q.hierarchy.find? name = some a.owner
  met : ∀ a ∈ accounts, ∀ {name ports block}, a.entry.2.payload = .module name ports block →
    hasScope (d.bodyOf block) = false → Building.Met q.hierarchy (d.bodyOf block)

section Definitions

variable {d : Design ν} {F : Forest ν}

theorem Nesting.entries_ascending (n : Nesting d F) :
    d.entries.Pairwise fun e f => e.1 < f.1 := by
  have indices : (d.entries.map (·.1.index)).Pairwise (· < ·) :=
    n.entries_ids ▸ List.pairwise_lt_range
  rw [List.pairwise_map] at indices
  exact indices

theorem Nesting.definitions_ascending (n : Nesting d F) :
    d.definitions.Pairwise fun e f => e.1 < f.1 := by
  rw [n.definitions_eq]
  exact n.entries_ascending.filter _

/-- What comes before a definition is what has a smaller handle. -/
theorem Nesting.mem_part_iff (n : Nesting d F) {part : List (Entry ν)} {e f : Entry ν}
    (up : part ++ [e] <+: d.definitions) : f ∈ part ↔ f ∈ d.definitions ∧ f.1 < e.1 := by
  obtain ⟨rest, whole⟩ := up
  have ascending := n.definitions_ascending
  rw [← whole] at ascending ⊢
  have before := (List.pairwise_append.1 (List.pairwise_append.1 ascending).1).2.2
  have after := (List.pairwise_append.1 ascending).2.2
  simp only [List.mem_append, List.mem_singleton]
  constructor
  · intro member
    exact ⟨.inl (.inl member), before f member e (List.mem_singleton_self e)⟩
  · rintro ⟨(member | rfl) | later, less⟩
    · exact member
    · exact absurd less (Nat.lt_irrefl _)
    · exact absurd less (Nat.lt_asymm (after e (by simp) f later))

end Definitions

namespace Collected

variable [DecidableEq ν] {d : Design ν} {F : Forest ν} {accounts : List (Account ν)}
  {part : List (Entry ν)} {q : Progress ν}

theorem labels (h : Collected d accounts part q) :
    Labels q.hierarchy (.gather (Account.findings d q.hierarchy.find?) accounts) :=
  h.leads.labels Progress.labels_start

theorem lists (h : Collected d accounts part q) :
    Lists q.hierarchy (.gather (Account.findings d q.hierarchy.find?) accounts) :=
  h.leads.lists Progress.lists_start

theorem mem_defined (h : Collected d accounts part q) {x : Definition} :
    (∃ name, q.hierarchy.labelAt x.id.index = some (name, .defined x.kind x.op)) ↔
      ∃ a ∈ accounts, ∃ kind, a.entry.2.payload.moduleKind? = some kind ∧
        x = ⟨a.owner, kind, a.entry.1⟩ := by
  rw [← h.labels.defined, Findings.gather_defined, List.mem_flatMap]
  simp only [Account.mem_defined]

/-- A name is defined where one of the definitions taken in defines it. -/
theorem definitionOf?_eq_some_iff (h : Collected d accounts part q) {name : ν} {kind : ModuleKind}
    {op : OpId} : q.hierarchy.definitionOf? name = some (kind, op) ↔
      ∃ e ∈ part, e.1 = op ∧ e.2.payload.symbol? = some name ∧
        e.2.payload.moduleKind? = some kind := by
  have definition {id : ModuleId} :
      q.hierarchy.store.modules[id.index]?.bind (·.definition?) = some (kind, op) ↔
        ∃ name, q.hierarchy.labelAt id.index = some (name, .defined kind op) := by
    unfold Hierarchy.labelAt
    cases found : q.hierarchy.store.modules[id.index]? with
    | none => simp
    | some m =>
      cases origin : m.origin <;> simp [ModuleNode.definition?, origin]
  unfold Hierarchy.definitionOf?
  rw [Option.bind_eq_some_iff]
  constructor
  · rintro ⟨id, found, defined⟩
    obtain ⟨a, ha, k, kind_eq, same⟩ :=
      (h.mem_defined (x := ⟨id, kind, op⟩)).1 (definition.1 defined)
    cases same
    obtain ⟨n, symbol, owned⟩ := h.known a ha
    obtain ⟨_, label, _⟩ := h.labels.catalog.1 found
    obtain ⟨_, label', _⟩ := h.labels.catalog.1 owned
    rw [label] at label'
    cases label'
    exact ⟨a.entry, h.entries ▸ List.mem_map_of_mem ha, rfl, symbol, kind_eq⟩
  · rintro ⟨e, he, rfl, symbol, kind_eq⟩
    obtain ⟨a, ha, rfl⟩ := List.mem_map.1 (h.entries.symm ▸ he)
    obtain ⟨n, symbol', owned⟩ := h.known a ha
    rw [symbol] at symbol'
    cases symbol'
    have defined := (h.mem_defined (x := ⟨a.owner, kind, a.entry.1⟩)).2 ⟨a, ha, kind, kind_eq, rfl⟩
    exact ⟨a.owner, owned, definition.2 defined⟩

/-- What defines a name so far is the definition of the name that comes before. -/
theorem definitionOf?_eq (h : Collected d accounts part q) (n : Nesting d F) {e : Entry ν}
    (up : part ++ [e] <+: d.definitions) (name : ν) :
    q.hierarchy.definitionOf? name = d.earlier? e.1 name := by
  have mem_part {f : Entry ν} (symbol : f.2.payload.symbol? = some name) :
      f ∈ part ↔ f ∈ d.entries ∧ f.1 < e.1 := by
    rw [n.mem_part_iff up, n.mem_definitions_iff]
    simp [Payload.isModuleLike, symbol]
  unfold Design.earlier?
  cases found : d.entries.find? fun f => f.1 < e.1 ∧ f.2.payload.symbol? = some name with
  | some first =>
    obtain ⟨less, symbol⟩ : first.1 < e.1 ∧ first.2.payload.symbol? = some name := by
      simpa using List.find?_some found
    obtain ⟨kind, kind_eq⟩ : ∃ kind, first.2.payload.moduleKind? = some kind := by
      cases payload : first.2.payload <;> simp [payload, Payload.symbol?] at symbol <;>
        simp [Payload.moduleKind?]
    rw [Option.bind_some, kind_eq, Option.map_some, h.definitionOf?_eq_some_iff]
    exact ⟨first, (mem_part symbol).2 ⟨List.mem_of_find?_eq_some found, less⟩, rfl, symbol, kind_eq⟩
  | none =>
    rw [Option.bind_none, Option.eq_none_iff_forall_not_mem]
    rintro ⟨kind, op⟩ defined
    obtain ⟨f, hf, _, symbol, _⟩ := h.definitionOf?_eq_some_iff.1 defined
    obtain ⟨there, less⟩ := (mem_part symbol).1 hf
    exact List.find?_eq_none.1 found f there (by simp [less, symbol])

/-- What a definition tells stays the same when further names are met. -/
theorem findings_congr (h : Collected d accounts part q) {r : Progress ν} {f : Findings ν}
    (leads : q.Leads f r) : ∀ a ∈ accounts,
      a.findings d q.hierarchy.find? = a.findings d r.hierarchy.find? := by
  intro a ha
  unfold Account.findings
  split
  · next payload => rw [bodyFindings, bodyFindings, bodyInsts_congr leads (h.met a ha payload)]
  · rfl
  · rfl

/-- One more definition adds its account. -/
theorem append_singleton (h : Collected d accounts part q) {r : Progress ν} {a : Account ν}
    (name : ν) (leads : q.Leads (a.findings d r.hierarchy.find?) r)
    (symbol : a.entry.2.payload.symbol? = some name)
    (known : r.hierarchy.find? name = some a.owner)
    (met : ∀ {name ports block}, a.entry.2.payload = .module name ports block →
      hasScope (d.bodyOf block) = false → Building.Met r.hierarchy (d.bodyOf block)) :
    Collected d (accounts ++ [a]) (part ++ [a.entry]) r := by
  refine ⟨?_, ?_, ?_, ?_⟩
  · rw [List.map_append, h.entries, List.map_singleton]
  · rw [Findings.gather_append, Findings.gather_singleton,
      ← Findings.gather_congr (h.findings_congr leads)]
    exact h.leads.trans leads
  · intro b hb
    rcases List.mem_append.1 hb with old | new
    · obtain ⟨n, symbol, found⟩ := h.known b old
      exact ⟨n, symbol, leads.find? found⟩
    · rw [List.mem_singleton.1 new]
      exact ⟨name, symbol, known⟩
  · intro b hb _ _ _ payload scopes
    rcases List.mem_append.1 hb with old | new
    · intro e he _ _ _ inst
      obtain ⟨id, found⟩ := h.met b old payload scopes e he inst
      exact ⟨id, leads.find? found⟩
    · rw [List.mem_singleton.1 new] at payload
      exact met payload scopes

end Collected

namespace Building

variable [DecidableEq ν] {d : Design ν} {F : Forest ν} {accounts : List (Account ν)}
  {part : List (Entry ν)} {p q : Progress ν} {options : Options}

/-- The ports of an extern module become variables without a value. -/
theorem externPorts_settles {owner : ModuleId} (inside : owner.index < p.hierarchy.moduleCount)
    (ports : List (Port ν)) :
    Settles (forM ports fun port => addVariable .externPort (.ofPort port none owner)) p
      none fun _ q =>
      p.Leads { Findings.none with vars := ports.map fun port => .ofPort port none owner } q := by
  have loop : Settles (forM ports fun port => addVariable .externPort (.ofPort port none owner)) p
      (ports.findSome? fun _ => none) fun _ q =>
      p.Leads { Findings.none with vars := ports.map fun port => .ofPort port none owner } q := by
    refine .forM (fun done q => p.Leads { Findings.none with
      vars := done.map fun port => .ofPort port none owner } q) (.refl p) ?_
    intro done port q _ told
    refine (addVariable_settles (Nat.lt_of_lt_of_le inside told.moduleCount_le)).weaken ?_
    intro _ r _ leads
    have further := told.trans leads
    rw [List.map_append, List.map_singleton]
    exact further
  rwa [List.findSome?_eq_none_iff.2 fun _ _ => rfl] at loop

/-- **Bodies.** Once its name is defined, a module is taken in as its body tells. -/
theorem body_settles (reached : p.Reached) {owner : ModuleId}
    (inside : owner.index < p.hierarchy.moduleCount) {op : OpId} {ports : List (Port ν)}
    {block : BlockId} (distinct : ((d.bodyOf block).map (·.1)).Nodup) :
    Settles (do
        let s ← survey options.info owner op (d.bodyOf block)
        unless s.presence.vars do addPorts d owner op block ports
        forM (d.bodyOf block) (fillOp d options.scopes s owner)) p
      (bodyProblem d options op ports block) fun _ q =>
      p.Leads (bodyFindings d q.hierarchy.find? p.hierarchy.moduleCount owner ports block) q ∧
        (hasScope (d.bodyOf block) = false → Met q.hierarchy (d.bodyOf block)) := by
  refine (survey_settles inside (d.bodyOf block)).bind ?_
  rintro _ q _ ⟨rfl, count, surveyed⟩
  have there : owner.index < q.hierarchy.moduleCount := by omega
  have fill {r : Progress ν} {f : Findings ν} (ported : q.Leads f r) :=
    have larger := ported.moduleCount_le
    fill_settles (d := d) options.scopes p.hierarchy.moduleCount distinct
      ((reached.leads surveyed).leads ported) (by omega : owner.index < r.hierarchy.moduleCount)
      (by omega)
  by_cases vars : (Survey.of p.hierarchy.moduleCount (d.bodyOf block)).presence.vars = true
  · rw [if_pos vars]
    rw [Survey.of_vars] at vars
    rw [if_pos vars, Option.none_or]
    refine (fill (.refl q)).weaken ?_
    intro _ r _ filled
    refine ⟨?_, filled.met⟩
    have leads := surveyed.trans filled.leads
    rw [gather_filling, if_pos vars] at leads
    rw [bodyFindings, bodyVars, if_pos vars]
    simpa only [Findings.none, Findings.mk_append_mk, List.append_nil, List.nil_append] using leads
  · rw [if_neg vars]
    rw [Survey.of_vars] at vars
    rw [if_neg vars]
    refine (addPorts_settles there op block ports).bind ?_
    intro _ r _ ported
    refine (fill ported).weaken ?_
    intro _ t _ filled
    refine ⟨?_, filled.met⟩
    have leads := (surveyed.trans ported).trans filled.leads
    rw [gather_filling, if_neg vars] at leads
    rw [bodyFindings, bodyVars, if_neg vars]
    simpa only [Findings.none, Findings.mk_append_mk, List.append_nil, List.nil_append] using leads

/-- A definition names its module, unless the name was defined before. -/
theorem define_entry_settles (n : Nesting d F) {e : Entry ν} (up : part ++ [e] <+: d.definitions)
    (h : Collected d accounts part q) {name : ν} {kind : ModuleKind}
    (symbol : e.2.payload.symbol? = some name) (kind_eq : e.2.payload.moduleKind? = some kind) :
    Settles (define name kind e.1) (q.record (.collect kind name e.1)) (nameProblem d e) fun id r =>
      q.Leads { Findings.none with defined := [⟨id, kind, e.1⟩] } r ∧
        r.hierarchy.find? name = some id := by
  have noted : q.Leads .none (q.record (.collect kind name e.1)) := .of_fits trivial rfl
  have settled := define_settles (.leads ⟨_, h.leads⟩ noted) name kind e.1
  have earlier : (q.record (.collect kind name e.1)).hierarchy.definitionOf? name =
      d.earlier? e.1 name :=
    h.definitionOf?_eq n up name
  rw [nameProblem, symbol, kind_eq]
  rw [earlier] at settled
  exact settled.weaken fun _ ⟨told, found⟩ => ⟨noted.trans told, found⟩

section Kinds

variable {id : OpId} {op : Operation ν} (n : Nesting d F)
  (up : part ++ [(id, op)] <+: d.definitions) (h : Collected d accounts part q) {name : ν}
  {ports : List (Port ν)}

include n up h

/-- A module is taken in with its body. -/
theorem collectModule_settles {block : BlockId} (payload : op.payload = .module name ports block) :
    Settles (collect d options (id, op)) q (problemAt d options (id, op)) fun _ r =>
      ∃ a, Collected d (accounts ++ [a]) (part ++ [(id, op)]) r := by
  have symbol : op.payload.symbol? = some name := by rw [payload]; rfl
  have kind : op.payload.moduleKind? = some .module := by rw [payload]; rfl
  have defines := define_entry_settles n up h symbol kind
  simp only [collect, payload, problemAt]
  refine .recorded (defines.bind ?_)
  rintro owner r _ ⟨defined, found⟩
  have reached : r.Reached := .leads ⟨_, h.leads⟩ defined
  have distinct : ((d.bodyOf block).map (·.1)).Nodup :=
    d.bodyIn_of_module (e := (id, op)) payload ▸ n.body_ids_nodup (up.subset (by simp))
  refine (body_settles reached (reached.find?_lt found) distinct).weaken ?_
  rintro _ t _ ⟨told, met⟩
  let account : Account ν := ⟨(id, op), owner, r.hierarchy.moduleCount⟩
  refine ⟨account, h.append_singleton name ?_ symbol (told.find? found) ?_⟩
  · have leads := defined.trans told
    simpa only [account, Account.findings, payload, bodyFindings, Findings.none,
      Findings.mk_append_mk, List.append_nil, List.nil_append] using leads
  · intro _ _ _ same
    simp only [account, payload] at same
    cases same
    exact met

/-- An extern module is taken in with its ports. -/
theorem collectExtern_settles (payload : op.payload = .externModule name ports) :
    Settles (collect d options (id, op)) q (problemAt d options (id, op)) fun _ r =>
      ∃ a, Collected d (accounts ++ [a]) (part ++ [(id, op)]) r := by
  have symbol : op.payload.symbol? = some name := by rw [payload]; rfl
  have kind : op.payload.moduleKind? = some .external := by rw [payload]; rfl
  have defines := define_entry_settles n up h symbol kind
  simp only [collect, payload, problemAt]
  refine .recorded (defines.bind ?_)
  rintro owner r _ ⟨defined, found⟩
  have reached : r.Reached := .leads ⟨_, h.leads⟩ defined
  refine (externPorts_settles (reached.find?_lt found) ports).weaken ?_
  intro _ t _ told
  let account : Account ν := ⟨(id, op), owner, r.hierarchy.moduleCount⟩
  refine ⟨account, h.append_singleton name ?_ symbol (told.find? found) ?_⟩
  · have leads := defined.trans told
    simpa only [account, Account.findings, payload, Findings.none, Findings.mk_append_mk,
      List.append_nil, List.nil_append] using leads
  · intro _ _ _ same
    simp only [account, payload] at same
    cases same

end Kinds

/-- **Definitions.** A definition is taken in after those before it, or
else it has the first problem. -/
theorem collect_settles (n : Nesting d F) {e : Entry ν} (up : part ++ [e] <+: d.definitions)
    (h : Collected d accounts part q) :
    Settles (collect d options e) q (problemAt d options e) fun _ r =>
      ∃ a, Collected d (accounts ++ [a]) (part ++ [e]) r := by
  have like : e.2.payload.isModuleLike = true := (n.mem_definitions_iff.1 (up.subset (by simp))).2
  obtain ⟨id, op⟩ := e
  cases payload : op.payload with
  | module name ports block => exact collectModule_settles n up h payload
  | externModule name ports => exact collectExtern_settles n up h payload
  | _ => simp [payload, Payload.isModuleLike, Payload.symbol?] at like

/-- The problems of a design are those of its definitions. -/
theorem problem_eq (n : Nesting d F) (options : Options) :
    d.problem options = d.definitions.findSome? (problemAt d options) := by
  rw [Design.problem, n.definitions_eq, ← List.head?_filterMap, ← List.head?_filterMap,
    List.filterMap_filter]
  refine congrArg List.head? (List.filterMap_congr fun e _ => ?_)
  cases like : e.2.payload.isModuleLike with
  | true => rfl
  | false =>
    unfold Payload.isModuleLike at like
    cases payload : e.2.payload <;> simp [payload, Payload.symbol?] at like <;>
      simp [problemAt, nameProblem, payload, Payload.symbol?]

/-- What every definition keeps once it is taken in holds of an extraction that ends. -/
theorem all_settles_of (n : Nesting d F) (inv : List (Account ν) → Progress ν → Prop)
    (start : inv [] .start) (step : ∀ {part accounts e q}, part ++ [e] <+: d.definitions →
      Collected d accounts part q →
      inv accounts q → Settles (collect d options e) q (problemAt d options e) fun _ r =>
        ∃ a, Collected d (accounts ++ [a]) (part ++ [e]) r ∧ inv (accounts ++ [a]) r)
    (last : ∀ {accounts q}, inv accounts q → inv accounts (q.record (.built q.hierarchy.stats))) :
    Settles (all d options) .start (d.problem options) fun _ q =>
      ∃ accounts, Collected d accounts d.definitions q ∧ inv accounts q := by
  have loop : Settles (forM d.definitions (collect d options)) .start
      (d.definitions.findSome? (problemAt d options)) fun _ q =>
      ∃ accounts, Collected d accounts d.definitions q ∧ inv accounts q := by
    refine .forM (fun part q => ∃ accounts, Collected d accounts part q ∧ inv accounts q)
      ⟨[], ⟨rfl, .refl _, by simp, by simp⟩, start⟩ ?_
    rintro part e q up ⟨accounts, h, holds⟩
    refine (step up h holds).weaken ?_
    rintro _ r _ ⟨a, taken⟩
    exact ⟨_, taken⟩
  rw [problem_eq n, ← Option.or_none (o := d.definitions.findSome? _)]
  refine loop.bind ?_
  rintro _ q _ ⟨accounts, h, holds⟩
  refine .get (.record ⟨accounts, ⟨h.entries, ?_, h.known, h.met⟩, last holds⟩)
  have leads := h.leads.trans
    (.of_fits (f := .none) (e := .built q.hierarchy.stats) (p := q) trivial rfl)
  rw [Findings.append_none] at leads
  exact leads

/-- **Extractions.** An extraction fails with the first problem of the design, and else it has an
account of every definition. -/
theorem all_settles (n : Nesting d F) :
    Settles (all d options) .start (d.problem options) fun _ q =>
      ∃ accounts, Collected d accounts d.definitions q := by
  have settled : Settles (all d options) .start (d.problem options) fun _ q =>
      ∃ accounts, Collected d accounts d.definitions q ∧ True := by
    refine all_settles_of n (fun _ _ => True) trivial ?_ id
    intro part accounts e q up h _
    exact (collect_settles n up h).weaken fun _ ⟨a, taken⟩ => ⟨a, taken, trivial⟩
  exact settled.weaken fun _ ⟨accounts, h, _⟩ => ⟨accounts, h⟩

end Building

end DebugHierarchy
