import DebugHierarchy.Proofs.PortBinding
import DebugHierarchy.Proofs.Reporting

/-!
Where a port without a value is said to be declared.

The error of a missing value keeps the name and the number of the port. Its diagnosis looks for the
place of the port by the name alone, among the ports whose place is known. Nothing keeps two ports
from having one name, so the place may be that of a namesake.

* `portLoc?_eq_some_iff`, `portLoc?_eq_none_iff`: the place that is found;
* `port_labelled`: the diagnosis marks the first port of the name with a known place, which is the
  right one where it has no namesake with another place;
* `namesakes_mislabelled`: a port for which its namesake is marked.
-/

namespace DebugHierarchy

variable {ν : Type}

section Places

variable [Inhabited ν] [DecidableEq ν]

/-- The first port of a name whose place is known. -/
def Port.FirstPlaced (ports : List (Port ν)) (name : ν) (port : Port ν) : Prop :=
  port.name = name ∧ port.loc.isUnknown = false ∧ ∃ before after, ports = before ++ port :: after ∧
    ∀ p ∈ before, p.name = name → p.loc.isUnknown = true

/-- Where a port is declared: at its own place, or else at that of its module. -/
def Port.site (port : Port ν) (owner : Operation ν) : SourceLoc ν :=
  if port.loc.isUnknown then owner.loc else port.loc

def Diagnostic.Marks (text : ν → Except Dangling String) (report : Diagnostic) (loc : SourceLoc ν) :
    Prop :=
  ∃ label, report.primaryLabel? = some label ∧ loc.resolve text = .ok label.loc

/-- How a diagnosis marks a port without a value. -/
structure PortReported (text : ν → Except Dangling String) (owner : Operation ν) (port : Port ν)
    (report : Diagnostic) : Prop where
  /-- It marks the first port of the name with a known place, -/
  placed : ∀ p, Port.FirstPlaced owner.payload.ports port.name p → report.Marks text p.loc
  /-- and where no port of the name has one, the module. -/
  unplaced : (∀ p ∈ owner.payload.ports, p.name = port.name → p.loc.isUnknown = true) →
    report.Marks text owner.loc
  /-- So it marks the port itself, or else the module, unless the place of a namesake is known. -/
  alone : (∀ p ∈ owner.payload.ports, p.name = port.name → p.loc.isUnknown = false → p = port) →
    report.Marks text (port.site owner)

namespace BuildError

variable {owner : Operation ν} {name : ν}

theorem portLoc?_eq_some_iff {loc : SourceLoc ν} : portLoc? owner name = some loc ↔
    ∃ p, Port.FirstPlaced owner.payload.ports name p ∧ p.loc = loc := by
  simp [portLoc?, Port.FirstPlaced, List.find?_eq_some_iff_append, and_assoc, imp_iff_not_or]

theorem portLoc?_eq_none_iff : portLoc? owner name = none ↔
    ∀ p ∈ owner.payload.ports, p.name = name → p.loc.isUnknown = true := by
  simp [portLoc?]

variable {text : ν → Except Dangling String} {d : Design ν} {module : OpId} {report : Diagnostic}

theorem marks_of_diagnosis {position : Nat} (there : d.op module = .ok owner)
    (diagnosed : (missingPortValue module name position : BuildError ν).diagnose text d =
      .ok report) :
    report.Marks text ((portLoc? owner name).getD owner.loc) := by
  simp only [diagnose, bind_eq_ok_iff] at diagnosed
  obtain ⟨_, found, _, _, _, _, place, located, same⟩ := diagnosed
  cases there.symm.trans found
  cases same
  exact ⟨_, rfl, located⟩

/-- **Marked ports.** The diagnosis of a missing value marks what a search by
the name of the port finds. -/
theorem portReported {port : Port ν} (there : d.op module = .ok owner)
    (declared : port ∈ owner.payload.ports)
    (diagnosed : (missingPortValue module port.name port.position : BuildError ν).diagnose text d =
      .ok report) :
    PortReported text owner port report := by
  have marks := marks_of_diagnosis there diagnosed
  have placed (p : Port ν) (first : Port.FirstPlaced owner.payload.ports port.name p) :
      report.Marks text p.loc := by
    rwa [portLoc?_eq_some_iff.2 ⟨p, first, rfl⟩] at marks
  have unplaced (none : ∀ p ∈ owner.payload.ports, p.name = port.name → p.loc.isUnknown = true) :
      report.Marks text owner.loc := by
    rwa [portLoc?_eq_none_iff.2 none] at marks
  refine ⟨placed, unplaced, fun alone => ?_⟩
  unfold Port.site
  cases found : portLoc? owner port.name with
  | none =>
    have none := portLoc?_eq_none_iff.1 found
    rw [if_pos (none port declared rfl)]
    exact unplaced none
  | some loc =>
    obtain ⟨p, first, _⟩ := portLoc?_eq_some_iff.1 found
    obtain ⟨before, after, whole, _⟩ := first.2.2
    obtain rfl := alone p (whole ▸ List.mem_append_right _ List.mem_cons_self) first.1 first.2.1
    rw [if_neg (by simp [first.2.1])]
    exact placed p first

end BuildError

end Places

/-- **Ports without values.** An extraction that ends with a missing value ends with the first port
that has none. The diagnosis marks the first port of its name whose place is known. -/
theorem port_labelled {script : Script} {known learned : NameTable} {d : Design Name}
    (built : script.build known = (.ok d, learned)) {options : Options} {module : OpId}
    {portName : Name} {position : Nat}
    (failed : (d.extract options).outcome =
      .error (.invalid (.missingPortValue module portName position))) :
    ∃ owner name ports block port report, d.op module = .ok owner ∧
      owner.payload = .module name ports block ∧
      d.FirstUnbound block ports port ∧ port.name = portName ∧ port.position = position ∧
      (BuildError.missingPortValue module portName position).diagnose learned.text d = .ok report ∧
      PortReported learned.text owner port report := by
  have scripted : d.Scripted := ⟨script, known, learned, built⟩
  obtain ⟨report, diagnosed⟩ := Script.diagnosed_of_failure built failed
  obtain ⟨e, he, found⟩ := List.exists_of_findSome?_eq_some (scripted.failed_iff.1 failed)
  obtain ⟨rfl, name, ports, block, payload, _, unbound⟩ := problemAt_arises found
  obtain ⟨port, first, same⟩ := portsProblem_eq_some_iff.1 unbound
  cases same
  have there : d.op e.1 = .ok e.2 := op_of_mem_entries he
  have declared : port ∈ e.2.payload.ports := by
    obtain ⟨before, after, whole, _⟩ := first
    rw [payload]
    exact whole ▸ List.mem_append_right before List.mem_cons_self
  exact ⟨e.2, name, ports, block, port, report, there, payload, first, rfl, rfl, diagnosed,
    BuildError.portReported there declared diagnosed⟩

/-- An input and an output of one name, each at its own place, and no value for the output. -/
def namesakes : Script :=
  .module "M" [⟨.input, "y", some ⟨"a.sv", 1, 1⟩⟩, ⟨.output, "y", some ⟨"a.sv", 2, 2⟩⟩] .done .done

theorem namesakes_labelled :
    (namesakes.design.extract {}).outcome =
        .error (.invalid (.missingPortValue ⟨0⟩ (namesakes.names.number "y") 0)) ∧
      ∃ owner name ports block port report, namesakes.design.op ⟨0⟩ = .ok owner ∧
        owner.payload = .module name ports block ∧ namesakes.design.FirstUnbound block ports port ∧
        (BuildError.missingPortValue ⟨0⟩ (namesakes.names.number "y") 0).diagnose
          namesakes.names.text
          namesakes.design = .ok report ∧ PortReported namesakes.names.text owner port report := by
  have built : namesakes.build .fresh = (.ok namesakes.design, namesakes.names) :=
    Script.build_fresh (by decide +kernel)
  have failed : (namesakes.design.extract {}).outcome =
      .error (.invalid (.missingPortValue ⟨0⟩ (namesakes.names.number "y") 0)) := by decide +kernel
  obtain ⟨owner, name, ports, block, port, report, there, payload, first, _, _,
      diagnosed, reported⟩ :=
    port_labelled built failed
  exact ⟨failed, owner, name, ports, block, port, report, there, payload, first,
    diagnosed, reported⟩

/-- The output has no value, and the place of the input is marked. -/
theorem namesakes_mislabelled : ∃ owner name ports block port report,
    (namesakes.design.extract {}).outcome =
      .error (.invalid (.missingPortValue ⟨0⟩ port.name port.position)) ∧
      namesakes.design.op ⟨0⟩ = .ok owner ∧ owner.payload = .module name ports block ∧
      namesakes.design.FirstUnbound block ports port ∧ port.loc.isUnknown = false ∧
      (BuildError.missingPortValue ⟨0⟩ port.name port.position).diagnose namesakes.names.text
        namesakes.design = .ok report ∧ ¬report.Marks namesakes.names.text (port.site owner) := by
  let y := namesakes.names.number "y"
  let file := namesakes.names.number "a.sv"
  let input : Port Name := ⟨y, .input, 0, ⟨file, 1, 1⟩⟩
  let output : Port Name := ⟨y, .output, 0, ⟨file, 2, 2⟩⟩
  let payload : Payload Name := .module (namesakes.names.number "M") [input, output] ⟨1⟩
  let report : Diagnostic :=
    ⟨.missingPortValue, .error, "port `y` of module `M` has no value at index 0",
    [⟨⟨"a.sv", 1, 1⟩, "port declared here", true⟩],
    ["inputs bind to body arguments, outputs to `hw.output` operands"]⟩
  have unbound : namesakes.design.FirstUnbound ⟨1⟩ [input, output] output :=
    ⟨[input], [], rfl, by decide +kernel, by decide +kernel⟩
  have resolved : output.loc.resolve namesakes.names.text = .ok ⟨"a.sv", 2, 2⟩ := by decide +kernel
  refine ⟨⟨payload, .unknown, [], ⟨0⟩⟩, _, _, _, output,
    report, by decide +kernel, by decide +kernel, rfl, unbound, by decide +kernel, by
      decide +kernel, ?_⟩
  rintro ⟨label, primary, site⟩
  cases primary
  rw [Port.site, if_neg (by decide +kernel), resolved] at site
  exact absurd (Except.ok.inj site) (by decide)

end DebugHierarchy
