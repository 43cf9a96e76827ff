import DebugHierarchy.Proofs.Contents
import DebugHierarchy.Proofs.Diagnosing
import DebugHierarchy.Proofs.Partition
import DebugHierarchy.Proofs.Stations

/-!
Ports and the values they stand for.

A script numbers the ports of a module, and an extraction reads a value by that number: of an output
among the operands of the output operation that ends the body, of every other port among the
arguments of the body. Both count in the same way (`Port.Numbered`), so that a port can lack a value
only where there are too few operands.

* `portsProblem_eq`: the first port without a value;
* `Design.BindsPorts`: what an extraction makes of the ports of a module;
* `ports_bound`: the ports of every module that a script declares are
  numbered and bound in this way.
-/

namespace DebugHierarchy

open Drafting

variable {ν μ : Type}

namespace Port

/-- The ports that take their values from the arguments of a body. -/
def others (ports : List (Port ν)) : List (Port ν) :=
  ports.filter fun port => !port.direction.isOutput

/-- The ports that take their values from the operands that end a body. -/
def outputs (ports : List (Port ν)) : List (Port ν) := ports.filter (·.direction.isOutput)

/-- Ports are numbered in order, those of either kind for themselves. -/
structure Numbered (ports : List (Port ν)) : Prop where
  others : (others ports).map (·.position) = List.range (others ports).length
  outputs : (outputs ports).map (·.position) = List.range (outputs ports).length

/-- A member of a list that is numbered in order has its place as its number. -/
theorem position_eq {ports : List (Port ν)}
    (counted : ports.map (·.position) = List.range ports.length) {k : Nat} {port : Port ν}
    (found : ports[k]? = some port) : port.position = k := by
  have there := (List.getElem?_eq_some_iff.1 found).1
  have same : (ports.map (·.position))[k]? = (List.range ports.length)[k]? := by rw [counted]
  rw [List.getElem?_map, found, List.getElem?_range there] at same
  exact Option.some.inj same

theorem others_map (f : ν → μ) (ports : List (Port ν)) :
    others (ports.map (·.map f)) = (others ports).map (·.map f) := List.filter_map

theorem outputs_map (f : ν → μ) (ports : List (Port ν)) :
    outputs (ports.map (·.map f)) = (outputs ports).map (·.map f) := List.filter_map

/-- Names are of no account to the numbers of ports. -/
theorem numbered_map {ports : List (Port ν)} (numbered : Numbered ports) (f : ν → μ) :
    Numbered (ports.map (·.map f)) := by
  constructor
  · rw [others_map, List.map_map, List.length_map]
    exact numbered.others
  · rw [outputs_map, List.map_map, List.length_map]
    exact numbered.outputs

end Port

namespace PortDecl

theorem numberFrom_positions (a b : Nat) (ports : List PortDecl) :
    (Port.others (numberFrom a b ports)).map (·.position) = List.range' a (argCount ports) ∧
      (Port.outputs (numberFrom a b ports)).map (·.position) =
        List.range' b (ports.countP (·.direction.isOutput)) := by
  induction ports generalizing a b with
  | nil => exact ⟨rfl, rfl⟩
  | cons p rest ih =>
    unfold numberFrom argCount
    cases output : p.direction.isOutput with
    | true =>
      obtain ⟨others, outputs⟩ := ih a (b + 1)
      constructor
      · simpa [Port.others, argCount, output] using others
      · simpa [Port.outputs, output, List.range'_succ] using outputs
    | false =>
      obtain ⟨others, outputs⟩ := ih (a + 1) b
      constructor
      · simpa [Port.others, argCount, output, List.range'_succ] using others
      · simpa [Port.outputs, output] using outputs

/-- As many ports take their values from arguments as the body has arguments. -/
theorem length_others_number (ports : List PortDecl) :
    (Port.others (number ports)).length = argCount ports := by
  have count := congrArg List.length (numberFrom_positions 0 0 ports).1
  rwa [List.length_map, List.length_range'] at count

/-- Declared ports are numbered in order. -/
theorem number_numbered (ports : List PortDecl) : Port.Numbered (number ports) := by
  obtain ⟨others, outputs⟩ := numberFrom_positions 0 0 ports
  have count := congrArg List.length outputs
  rw [List.length_map, List.length_range'] at count
  constructor
  · rw [length_others_number, List.range_eq_range']
    exact others
  · rw [number, count, List.range_eq_range']
    exact outputs

/-- Declared ports keep their order and all that was declared of them. -/
theorem number_declares (ports : List PortDecl) :
    (number ports).map (fun p => (p.name, p.direction, p.loc)) =
      ports.map fun p => (p.name, p.direction, p.loc.getD .unknown) := by
  suffices ∀ a b, (numberFrom a b ports).map (fun p => (p.name, p.direction, p.loc)) =
      ports.map fun p => (p.name, p.direction, p.loc.getD .unknown) from this 0 0
  induction ports with
  | nil => exact fun _ _ => rfl
  | cons p rest ih =>
    intro a b
    unfold numberFrom
    split <;> simp [ih]

end PortDecl

section Values

variable {d : Design ν} {block : BlockId} {ports : List (Port ν)} {k : Nat} {port : Port ν}

/-- Operands come from the operation that ends the block, and from nowhere else. -/
theorem Design.outputsOf_eq (d : Design ν) (block : BlockId) : d.outputsOf block =
    (((d.opsOf block).getLast?.bind fun last => d.ops[last.index]?).bind
      (·.payload.output?)).getD [] := by
  unfold outputsOf terminator? opsOf
  cases d.blocks[block.index]? with
  | none => rfl
  | some b =>
    simp only [Option.bind_eq_bind, Option.bind_some, Array.getLast?_toList]
    cases b.ops.back? with
    | none => rfl
    | some last =>
      simp only [Option.bind_some]
      cases found : d.ops[last.index]? with
      | none => rfl
      | some op =>
        cases isOutput : op.payload.output? with
        | none => simp [isOutput]
        | some operands => simp [isOutput, found]

/-- What a search passes over anyway can be left out first. -/
theorem findSome?_filter {α β : Type} {f : α → Option β} {test : α → Bool} {l : List α}
    (skipped : ∀ x ∈ l, test x = false → f x = none) :
    l.findSome? f = (l.filter test).findSome? f := by
  induction l with
  | nil => rfl
  | cons x rest ih =>
    obtain ⟨here, later⟩ := List.forall_mem_cons.1 skipped
    cases pass : test x with
    | true => rw [List.filter_cons_of_pos pass, List.findSome?_cons, List.findSome?_cons, ih later]
    | false =>
      rw [List.filter_cons_of_neg (by simp [pass]), List.findSome?_cons, here pass, ih later]

/-- In a list that counts up from `a`, the first member with a number not below `n`
is that with the number `n`. -/
theorem findSome?_of_positions {α : Type} {f : Port ν → Option α} {g : Port ν → α} {n a : Nat}
    {l : List (Port ν)} (counted : l.map (·.position) = List.range' a l.length) (small : a ≤ n)
    (each : ∀ p ∈ l, f p = if p.position < n then none else some (g p)) :
    l.findSome? f = (l[n - a]?).map g := by
  induction l generalizing a with
  | nil => rfl
  | cons p rest ih =>
    rw [List.map_cons, List.length_cons, List.range'_succ] at counted
    obtain ⟨first, counted⟩ := List.cons.inj counted
    obtain ⟨here, later⟩ := List.forall_mem_cons.1 each
    rw [List.findSome?_cons, here, first]
    by_cases less : a < n
    · have next : n - a = n - (a + 1) + 1 := by omega
      rw [if_pos less, ih counted less later, next, List.getElem?_cons_succ]
    · obtain rfl : a = n := by omega
      rw [if_neg less, Nat.sub_self]
      rfl

variable (numbered : Port.Numbered ports)

include numbered

theorem portValue?_of_others (args : (d.argsOf block).length = (Port.others ports).length)
    (found : (Port.others ports)[k]? = some port) : port.position = k ∧
      ∃ v, (d.argsOf block)[k]? = some v ∧ d.portValue? block port = some v := by
  have position := Port.position_eq numbered.others found
  have there : k < (d.argsOf block).length := args ▸ (List.getElem?_eq_some_iff.1 found).1
  have direction : port.direction.isOutput = false := by
    simpa using (List.mem_filter.1 (List.mem_of_getElem? found)).2
  have value := List.getElem?_eq_getElem there
  exact ⟨position, _, value, by rw [Design.portValue?, direction, position]; exact value⟩

theorem portValue?_of_outputs (found : (Port.outputs ports)[k]? = some port) :
    port.position = k ∧ d.portValue? block port = (d.outputsOf block)[k]? := by
  have position := Port.position_eq numbered.outputs found
  have direction : port.direction.isOutput = true :=
    (List.mem_filter.1 (List.mem_of_getElem? found)).2
  exact ⟨position, by rw [Design.portValue?, direction, if_pos rfl, position]⟩

/-- **Missing values.** The first port without a value is the output whose
number is the count of operands. -/
theorem portsProblem_eq (args : (d.argsOf block).length = (Port.others ports).length)
    (definition : OpId) : ports.findSome? (portProblem d definition block) =
      ((Port.outputs ports)[(d.outputsOf block).length]?).map fun port =>
        .invalid (.missingPortValue definition port.name port.position) := by
  let missing (port : Port ν) : Failure ν :=
    .invalid (.missingPortValue definition port.name port.position)
  have ofOutputs : ports.findSome? (portProblem d definition block) =
      (Port.outputs ports).findSome? (portProblem d definition block) := by
    refine findSome?_filter fun port hport direction => ?_
    obtain ⟨k, found⟩ := List.getElem?_of_mem
      (List.mem_filter.2 ⟨hport, by simp [direction]⟩ : port ∈ Port.others ports)
    obtain ⟨_, v, _, value⟩ := portValue?_of_others numbered args found
    simp [portProblem, value]
  have short : ∀ port ∈ Port.outputs ports, portProblem d definition block port =
      if port.position < (d.outputsOf block).length then none else some (missing port) := by
    intro port hport
    have direction : port.direction.isOutput = true := (List.mem_filter.1 hport).2
    rw [portProblem, Design.portValue?, direction, if_pos rfl]
    by_cases there : port.position < (d.outputsOf block).length
    · rw [if_pos there, List.getElem?_eq_getElem there, if_neg (by simp)]
    · rw [if_neg there, List.getElem?_eq_none (Nat.le_of_not_lt there), if_pos rfl]
  have counted := numbered.outputs
  rw [List.range_eq_range'] at counted
  rw [ofOutputs, findSome?_of_positions counted (Nat.zero_le _) short, Nat.sub_zero]

end Values

/-! ### Ports in an extraction -/

/-- What an event adds to the variables is what it tells of variables. -/
theorem Hierarchy.vars_apply (h : Hierarchy ν) (e : Event ν) :
    (h.apply e).store.vars.toList = h.store.vars.toList ++ e.findings.vars := by
  cases e <;>
    simp [apply, Event.findings, Findings.none, Store.addModule, Store.modifyModule,
      Store.addVariable, Store.addInstance]

/-- On the way from one state to another, just the variables that are told are added. -/
theorem Progress.Leads.vars [DecidableEq ν] {p q : Progress ν} {f : Findings ν}
    (leads : p.Leads f q) :
    q.hierarchy.store.vars.toList = p.hierarchy.store.vars.toList ++ f.vars := by
  obtain ⟨es, writes, rfl⟩ := leads
  induction writes with
  | nil => simp [Findings.gather, Findings.none]
  | @cons p q e es fits _ ih =>
    rw [ih, Progress.record, Hierarchy.vars_apply, Findings.gather, Findings.vars_append,
      List.append_assoc]

namespace Design

section Binding

variable [DecidableEq ν] (d : Design ν) (options : Options) (e : Entry ν) (ports : List (Port ν))
  (block : BlockId)

def portVars (owner : ModuleId) : List (VariableNode ν) :=
  ports.map fun port => .ofPort port (d.portValue? block port) owner

/-- These nodes are the variables of the ports of a module, one for each port, in order. -/
structure PortNodes (owner : ModuleId) (nodes : List (VariableNode ν)) : Prop where
  length : nodes.length = ports.length
  /-- A variable has the name and the place of its port, and neither type nor enum. -/
  shown : ∀ (i : Nat) (port : Port ν) (v : VariableNode ν), ports[i]? = some port →
    nodes[i]? = some v →
    v.name = port.name ∧ v.loc = port.loc ∧ v.sourceType = none ∧ v.enumId = none ∧ v.owner = owner
  /-- Of the ports that are no outputs, the variable of the one with
  number `k` holds argument `k`. -/
  argument : ∀ (k : Nat) (port : Port ν) (v : VariableNode ν),
    ((ports.zip nodes).filter fun x => !x.1.direction.isOutput)[k]? = some (port, v) →
      ∃ value, (d.argsOf block)[k]? = some value ∧ v.value = some value
  /-- Of the outputs, the variable of the one with number `k` holds operand `k`. -/
  operand : ∀ (k : Nat) (port : Port ν) (v : VariableNode ν),
    ((ports.zip nodes).filter fun x => x.1.direction.isOutput)[k]? = some (port, v) →
      ∃ value, (d.outputsOf block)[k]? = some value ∧ v.value = some value

/-- An extraction ends because the body ends with too few operands: the first output
without one lacks its value. -/
def LacksOperand (failure : Failure ν) : Prop :=
  ∃ port, (Port.outputs ports)[(d.outputsOf block).length]? = some port ∧
    port.position = (d.outputsOf block).length ∧
    failure = .invalid (.missingPortValue e.1 port.name (d.outputsOf block).length)

/-- What an extraction makes of the ports of the module that the operation of `e` defines. -/
structure BindsPorts : Prop where
  /-- A port that is no output is numbered among those, and stands for
  the argument with its number. -/
  arguments : ∀ k port, (Port.others ports)[k]? = some port → port.position = k ∧
    ∃ v, (d.argsOf block)[k]? = some v ∧ d.portValue? block port = some v
  /-- An output is numbered among the outputs, and stands for the operand with its number. -/
  operands : ∀ k port, (Port.outputs ports)[k]? = some port →
    port.position = k ∧ d.portValue? block port = (d.outputsOf block)[k]?
  /-- The operands are those of the last operation of the body, if it is an output operation. -/
  ends : d.outputsOf block =
    (((d.opsOf block).getLast?.bind fun last => d.ops[last.index]?).bind
      (·.payload.output?)).getD []
  /-- Ports are taken in just where there are operands enough, whatever was done before. -/
  phase : ∀ (owner : ModuleId) (p : Progress ν), owner.index < p.hierarchy.moduleCount →
    match (Building.addPorts d owner e.1 block ports).run p with
    | .ok _ q => (Port.outputs ports).length ≤ (d.outputsOf block).length ∧
      ∃ nodes, d.PortNodes ports block owner nodes ∧
        q.hierarchy.store.vars.toList = p.hierarchy.store.vars.toList ++ nodes
    | .error failure _ => d.LacksOperand e ports block failure
  /-- In a hierarchy that was extracted, the module lists the variables of its ports first. -/
  extracted : hasVariable (d.bodyOf block) = false → ∀ h, (d.extract options).outcome = .ok h →
    (Port.outputs ports).length ≤ (d.outputsOf block).length ∧
      ∃ owner m nodes, h.module owner = .ok m ∧
      m.definition? = some (.module, e.1) ∧ d.PortNodes ports block owner nodes ∧
      nodes <+: h.varsOf owner
  /-- A port lacks its value for this reason only. -/
  rejected : ∀ name position,
    (d.extract options).outcome = .error (.invalid (.missingPortValue e.1 name position)) →
      hasVariable (d.bodyOf block) = false ∧
        d.LacksOperand e ports block (.invalid (.missingPortValue e.1 name position))
  /-- An extraction that gets to the ports of the module, and finds too few operands, ends there. -/
  rejects : hasVariable (d.bodyOf block) = false →
    (∀ f ∈ d.entries, f.1 < e.1 → problemAt d options f = none) → nameProblem d e = none →
    infoProblem options.info e.1 (d.bodyOf block) = none →
    (d.outputsOf block).length < (Port.outputs ports).length →
    ∃ failure, (d.extract options).outcome = .error failure ∧ d.LacksOperand e ports block failure

end Binding

end Design

section Bound

variable {d : Design Name} {options : Options} {e : Entry Name} {name : Name}
  {ports : List (Port Name)} {block : BlockId}

/-- The variables that an extraction makes of ports are those of the ports,
where there are operands enough. -/
theorem Design.portNodes_of_portVars (numbered : Port.Numbered ports)
    (args : (d.argsOf block).length = (Port.others ports).length)
    (enough : (Port.outputs ports).length ≤ (d.outputsOf block).length) (owner : ModuleId) :
    d.PortNodes ports block owner (d.portVars ports block owner) := by
  -- A port and its variable pass a test on the port together, so both lists are filtered alike.
  have zipped : ports.zip (d.portVars ports block owner) =
      ports.map fun port => (port, VariableNode.ofPort port (d.portValue? block port) owner) := by
    rw [portVars, List.zip_map_right, List.zip_eq_zipWith, List.zipWith_self, List.map_map]
    rfl
  refine ⟨List.length_map _, fun i port v hport hv => ?_, fun k port v found => ?_,
    fun k port v found => ?_⟩
  · rw [portVars, List.getElem?_map, hport] at hv
    cases hv
    exact ⟨rfl, rfl, rfl, rfl, rfl⟩
  · rw [zipped, List.filter_map, List.getElem?_map] at found
    obtain ⟨p, hp, same⟩ := Option.map_eq_some_iff.1 found
    cases same
    obtain ⟨_, value, there, held⟩ := portValue?_of_others numbered args hp
    exact ⟨value, there, held⟩
  · rw [zipped, List.filter_map, List.getElem?_map] at found
    obtain ⟨p, hp, same⟩ := Option.map_eq_some_iff.1 found
    cases same
    have there : k < (d.outputsOf block).length :=
      Nat.lt_of_lt_of_le (List.getElem?_eq_some_iff.1 hp).1 enough
    have held : d.portValue? block port = _ := (portValue?_of_outputs numbered hp).2
    rw [List.getElem?_eq_getElem there] at held
    exact ⟨_, List.getElem?_eq_getElem there, held⟩

/-- An extraction fails just with the problem of its design. -/
theorem Design.Scripted.failed_iff (scripted : d.Scripted) {failure : Failure Name} :
    (d.extract options).outcome = .error failure ↔ d.problem options = some failure := by
  obtain ⟨F, n⟩ := scripted.nesting
  refine ⟨n.problem_of_failure, fun found => ?_⟩
  cases outcome : (d.extract options).outcome with
  | ok h =>
    obtain ⟨_, _, _, _, _, _, none⟩ := scripted.collected outcome
    rw [none] at found
    cases found
  | error other =>
    rw [n.problem_of_failure outcome] at found
    rw [Option.some.inj found]

/-- A module that was taken in lists the variables of its ports first. -/
theorem Collected.portVars_first {F : Forest Name} {accounts : List (Account Name)}
    {q : Progress Name} {a : Account Name} (c : Collected d accounts d.definitions q)
    (n : Nesting d F) (ha : a ∈ accounts) (payload : a.entry.2.payload = .module name ports block)
    (absent : hasVariable (d.bodyOf block) = false) :
    d.portVars ports block a.owner <+: q.hierarchy.varsOf a.owner := by
  obtain ⟨_, _, label⟩ := c.label_of_owner ha
  have told : q.hierarchy.familyVars a.owner = _ := c.vars_of_family n ha
  rw [c.vars_of_module n ha payload, bodyVars, if_neg (by simp [absent])] at told
  rw [c.varsOf_eq (c.home_owner ha) (Hierarchy.labelAt_lt label), told, List.filter_append]
  have own : (d.portVars ports block a.owner).filter (·.owner = a.owner) =
      d.portVars ports block a.owner := by
    refine List.filter_eq_self.2 fun v hv => ?_
    obtain ⟨port, _, rfl⟩ := List.mem_map.1 hv
    exact decide_eq_true rfl
  exact own ▸ List.prefix_append _ _

/-- The problem of a design is that of an operation before which there is none. -/
theorem Nesting.problem_of_first {F : Forest Name} (n : Nesting d F) (he : e ∈ d.entries)
    (earlier : ∀ f ∈ d.entries, f.1 < e.1 → problemAt d options f = none)
    {failure : Failure Name} (here : problemAt d options e = some failure) :
    d.problem options = some failure := by
  obtain ⟨before, after, whole⟩ := List.append_of_mem he
  have ascending := n.entries_ascending
  rw [whole, List.pairwise_append] at ascending
  have first : before.findSome? (problemAt d options) = none := by
    refine List.findSome?_eq_none_iff.2 fun f hf => earlier f ?_ ?_
    · exact whole ▸ List.mem_append_left _ hf
    · exact ascending.2.2 f hf e List.mem_cons_self
  rw [Design.problem, whole, List.findSome?_append, first, Option.none_or, List.findSome?_cons,
    here]

section Numbered

variable (numbered : Port.Numbered ports)
  (args : (d.argsOf block).length = (Port.others ports).length)

include numbered args

theorem lacksOperand_of_portsProblem {failure : Failure Name}
    (found : ports.findSome? (portProblem d e.1 block) = some failure) :
    d.LacksOperand e ports block failure := by
  rw [portsProblem_eq numbered args] at found
  obtain ⟨port, there, rfl⟩ := Option.map_eq_some_iff.1 found
  have position := Port.position_eq numbered.outputs there
  exact ⟨port, there, position, by rw [position]⟩

theorem portsProblem_eq_none_iff (definition : OpId) :
    ports.findSome? (portProblem d definition block) = none ↔
      (Port.outputs ports).length ≤ (d.outputsOf block).length := by
  rw [portsProblem_eq numbered args, Option.map_eq_none_iff, List.getElem?_eq_none_iff]

theorem Design.Scripted.bindsPorts (scripted : d.Scripted) (options : Options) (he : e ∈ d.entries)
    (payload : e.2.payload = .module name ports block) : d.BindsPorts options e ports block := by
  obtain ⟨F, n⟩ := scripted.nesting
  refine ⟨fun k port => portValue?_of_others numbered args,
    fun k port => portValue?_of_outputs numbered, d.outputsOf_eq block, fun owner p inside => ?_,
    fun absent h extracted => ?_, fun lost position failed => ?_,
    fun absent earlier named typed few => ?_⟩
  · have settled := Building.addPorts_settles (d := d) inside e.1 block ports
    unfold Settles at settled
    split
    · next run =>
      rw [run] at settled
      have few := (portsProblem_eq_none_iff numbered args e.1).1 settled.1
      exact ⟨few, _, Design.portNodes_of_portVars numbered args few owner, settled.2.vars⟩
    · next run =>
      rw [run] at settled
      exact lacksOperand_of_portsProblem numbered args settled
  · obtain ⟨F, accounts, q, rfl, n, c, none⟩ := scripted.collected extracted
    have bound := (bodyProblem_none none he payload).1 absent
    have few := (portsProblem_eq_none_iff numbered args e.1).1
      (List.findSome?_eq_none_iff.2 fun port hport =>
        portProblem_eq_none_iff.2 (bound port hport))
    obtain ⟨a, ha, rfl⟩ := List.mem_map.1 (c.entries ▸ n.definition_of_module he payload)
    obtain ⟨_, label⟩ := (c.mem_defined (x := ⟨a.owner, .module, a.entry.1⟩)).2
      ⟨a, ha, .module, by rw [payload]; rfl, rfl⟩
    obtain ⟨m, found, _, origin⟩ := Hierarchy.module_of_labelAt label
    exact ⟨few, a.owner, m, _, found, by rw [ModuleNode.definition?, origin, Origin.definition?],
      Design.portNodes_of_portVars numbered args few a.owner, c.portVars_first n ha payload absent⟩
  · have found := n.problem_of_failure failed
    obtain ⟨f, hf, found⟩ := List.exists_of_findSome?_eq_some found
    obtain ⟨same, _, _, _, payload', absent, here⟩ := problemAt_arises found
    have op := op_of_mem_entries hf
    rw [← same, op_of_mem_entries he] at op
    obtain rfl : f = e := Prod.ext same.symm (Except.ok.inj op).symm
    rw [payload] at payload'
    cases payload'
    exact ⟨absent, lacksOperand_of_portsProblem numbered args here⟩
  · obtain ⟨failure, here⟩ : ∃ failure,
        ports.findSome? (portProblem d e.1 block) = some failure := by
      rw [portsProblem_eq numbered args, List.getElem?_eq_getElem few]
      exact ⟨_, rfl⟩
    have atE : problemAt d options e = some failure := by
      rw [problemAt, named, Option.none_or, payload]
      simp only [bodyProblem, typed, absent, Option.none_or, Bool.false_eq_true, if_false,
        here, Option.some_or]
    exact ⟨failure, scripted.failed_iff.2 (n.problem_of_first he earlier atE),
      lacksOperand_of_portsProblem numbered args here⟩

end Numbered

end Bound

/-- The body of a module with these ports reads the arguments of its block as inputs, wherever in
the body a statement stands. -/
structure Level.Serves (level : Level) (ports : List PortDecl) (body : Body) (s : Draft) :
    Prop where
  /-- There is an argument for each port that is no output. -/
  count : level.inputs.length = ports.countP fun p => !p.direction.isOutput
  block : s.design.argsOf level.block = level.inputs
  /-- An input is the argument with its number, and past the last one there is a fault. -/
  reads : ∀ x, Body.Reaches ⟨level, body, s⟩ x → x.draft.design.argsOf level.block = level.inputs ∧
    ∀ k, (read x.level.inputs (.input k)).run x.draft =
      match level.inputs[k]? with
      | some v => .ok v x.draft
      | none => .error (.noInput k) x.draft

/-- Numbered ports are those that were declared, in order. -/
structure PortDecl.Numbers (decls : List PortDecl) (ports : List (Port String)) : Prop where
  declared : ports.map (fun p => (p.name, p.direction, p.loc)) =
    decls.map fun p => (p.name, p.direction, p.loc.getD .unknown)
  others : ∀ (k : Nat) (port : Port String), (Port.others ports)[k]? = some port → port.position = k
  outputs : ∀ (k : Nat) (port : Port String), (Port.outputs ports)[k]? = some port →
    port.position = k

theorem Drafting.read_input (inputs : List ValueId) (k : Nat) (s : Draft) :
    (Drafting.read inputs (.input k)).run s =
      match inputs[k]? with
      | some v => .ok v s
      | none => .error (.noInput k) s := by
  unfold Drafting.read
  dsimp only
  cases inputs[k]? <;> rfl

theorem Level.serves {level : Level} {ports : List PortDecl} {s : Draft} (body : Body)
    (inside : level.block.index < s.design.blocks.size)
    (inputs : level.inputs = s.design.argsOf level.block)
    (count : level.inputs.length = PortDecl.argCount ports) : level.Serves ports body s := by
  refine ⟨count, inputs.symm, fun x reached => ?_⟩
  obtain ⟨_, same, grows⟩ := reached.level inside
  refine ⟨(grows.argsOf_kept inside).trans inputs.symm, fun k => ?_⟩
  rw [same]
  exact read_input level.inputs k x.draft

/-- The names of a design change nothing in its blocks. -/
theorem Design.argsOf_map (d : Design ν) (f : ν → μ) (b : BlockId) :
    (d.map f).argsOf b = d.argsOf b := rfl

/-- **Ports.** Wherever a script declares a module, its ports are numbered in order, its body reads
its inputs from the arguments of its block, and in the finished design an extraction binds the ports
to these arguments and to the operands that end the body. -/
theorem ports_bound {script rest : Script} {block : BlockId} {loc : SourceLoc String}
    {name : String} {ports : List PortDecl} {body : Body} {s : Draft}
    (reached : Script.Reaches script.start ⟨block, loc, .module name ports body rest, s⟩) :
    ∃ level t, (openModule block loc name ports).run s = .ok level t ∧
      PortDecl.Numbers ports (PortDecl.number ports) ∧ level.Serves ports body t ∧
      ∀ known d learned, script.build known = (.ok d, learned) →
        d.argsOf level.block = level.inputs ∧ ∃ op, d.op ⟨s.design.ops.size⟩ = .ok op ∧
          op.payload = .module (learned.number name)
            ((PortDecl.number ports).map (·.map learned.number)) level.block ∧
          ∀ options, d.BindsPorts options (⟨s.design.ops.size⟩, op)
            ((PortDecl.number ports).map (·.map learned.number)) level.block := by
  obtain ⟨inside, further⟩ := reached.ends Nat.zero_lt_one
  obtain ⟨level, t, opened, first, _, room, inputs, count, op, found, old, payload⟩ :=
    openModule_run inside loc name ports
  have numbered := PortDecl.number_numbered ports
  refine ⟨level, t, opened,
    ⟨PortDecl.number_declares ports, fun _ _ => Port.position_eq numbered.others,
    fun _ _ => Port.position_eq numbered.outputs⟩, Level.serves body room inputs count, ?_⟩
  intro known d learned built
  have scripted : d.Scripted := ⟨script, known, learned, built⟩
  unfold Script.build at built
  split at built
  · next last final run =>
    cases built
    obtain ⟨u, ⟨_, ends⟩, grows⟩ := further final ⟨last, run⟩
    rw [Script.draft_module_eq] at ends
    obtain ⟨_, _, opened', ends⟩ := run_bind_eq_ok.1 ends
    cases opened.symm.trans opened'
    obtain ⟨_, v, hbody, hrest⟩ := run_bind_eq_ok.1 ends
    have within := Body.draft_grows room hbody
    have back := Design.Grows.inside inside (first.trans within)
    have all : t.design.Grows final.design :=
      (within.trans (Script.draft_grows back hrest)).trans grows
    let number := (known.addAll final.mentions.toList).number
    have args : (final.design.map number).argsOf level.block = level.inputs := by
      rw [Design.argsOf_map, all.argsOf_kept room, inputs]
    have kept : (final.design.map number).ops[s.design.ops.size]? = some (op.map number) := by
      rw [Design.map, Array.getElem?_map, all.op_kept old, found]
      rfl
    have mapped : (op.map number).payload =
        .module (number name) ((PortDecl.number ports).map (·.map number)) level.block := by
      rw [Operation.map, payload]
      rfl
    refine ⟨args, op.map number, Design.op_eq_ok_iff.2 kept, mapped, fun options => ?_⟩
    refine Design.Scripted.bindsPorts (Port.numbered_map numbered number) ?_ scripted options
      (Design.mem_entries_of_ops kept) mapped
    rw [args, count, ← PortDecl.length_others_number, Port.others_map, List.length_map]
  · cases built

/-- A module in a container, its outputs apart from each other. It ends with one operand; the output
operation within the region has more. -/
def mixedPorts : Script :=
  .container "c"
    (.module "M" [⟨.output, "o", none⟩, ⟨.input, "a", none⟩, ⟨.inout, "b", none⟩,
      ⟨.output, "p", none⟩] (.region "r" (.leaf none (.output [.input 0, .input 1]) .done) <|
        .leaf none (.output [.input 1]) .done) .done) .done

theorem ports_of_mixedPorts : ∃ ports body rest s level t,
    Script.Reaches mixedPorts.start ⟨⟨1⟩, .unknown, .module "M" ports body rest, s⟩ ∧
      (openModule ⟨1⟩ .unknown "M" ports).run s = .ok level t ∧ level.Serves ports body t ∧
      mixedPorts.design.argsOf level.block = level.inputs ∧
      ∃ op, mixedPorts.design.op ⟨s.design.ops.size⟩ = .ok op ∧
        ∀ options, mixedPorts.design.BindsPorts options (⟨s.design.ops.size⟩, op)
          ((PortDecl.number ports).map (·.map mixedPorts.names.number)) level.block := by
  have reached : Script.Reaches mixedPorts.start _ := .single (.enter rfl)
  have built : mixedPorts.build .fresh = (.ok mixedPorts.design, mixedPorts.names) :=
    Script.build_fresh (by decide +kernel)
  obtain ⟨level, t, opened, _, serves, bound⟩ := ports_bound reached
  obtain ⟨args, op, found, _, binds⟩ := bound .fresh _ _ built
  exact ⟨_, _, _, _, level, t, reached, opened, serves, args, op, found, binds⟩

example : (mixedPorts.design.extract {}).outcome =
    .error (.invalid (.missingPortValue ⟨1⟩ (mixedPorts.names.number "p") 1)) := by
  decide +kernel

end DebugHierarchy
