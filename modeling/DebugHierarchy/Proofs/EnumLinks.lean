import DebugHierarchy.Proofs.Descriptions

/-!
Enums of variables.

A variable keeps the number of an enum definition, and the number is looked up where the variable is
owned and, in an inline module, in the module around it. An inline module has no enum definitions of
its own, so the table that answers is that of the body with the variable's annotation.

* `Looks`, `Closed.looks`: looking from a module outwards comes to an end,
  with the answer of the chain;
* `ofNote_reads`: what an enum definition says of a value;
* `Collected.annotation_of_enumId`: a variable with a number is told by an annotation that refers to
  an enum definition of the same body;
* `enum_links`: the number of a variable leads to the first definition of that
  number in the variable's body.
-/

namespace DebugHierarchy

variable {ν : Type}

/-- Looking for a number from a module outwards comes to an end with this answer. -/
inductive Hierarchy.Looks (h : Hierarchy ν) (enum : EnumId) : ModuleId →
    Option (EnumDefinition ν) → Prop
  | here {id : ModuleId} {m : ModuleNode ν} {definition : EnumDefinition ν}
      (node : h.module id = .ok m) (known : m.enum? enum = some definition) :
      Looks h enum id (some definition)
  | outward {id parent : ModuleId} {m : ModuleNode ν} {found : Option (EnumDefinition ν)}
      (node : h.module id = .ok m) (unknown : m.enum? enum = none) (inner : m.parent? = some parent)
      (rest : Looks h enum parent found) : Looks h enum id found
  | ends {id : ModuleId} {m : ModuleNode ν} (node : h.module id = .ok m)
      (unknown : m.enum? enum = none) (outermost : m.parent? = none) : Looks h enum id none

/-- Looking ends with one answer. -/
theorem Hierarchy.Looks.unique {h : Hierarchy ν} {enum : EnumId} {id : ModuleId}
    {found found' : Option (EnumDefinition ν)} (looks : h.Looks enum id found)
    (looks' : h.Looks enum id found') : found = found' := by
  induction looks with
  | here node known =>
    cases looks' <;> simp_all
  | outward node unknown inner _ ih =>
    cases looks' <;> simp_all
  | ends node unknown outermost =>
    cases looks' <;> simp_all

theorem Hierarchy.Looks.module {h : Hierarchy ν} {enum : EnumId} {id : ModuleId}
    {found : Option (EnumDefinition ν)} (looks : h.Looks enum id found) :
    ∃ m, h.module id = .ok m := by
  cases looks with
  | here node => exact ⟨_, node⟩
  | outward node => exact ⟨_, node⟩
  | ends node => exact ⟨_, node⟩

/-- In a closed hierarchy, looking outwards from a module comes to an end,
with what the chain answers. -/
theorem Closed.looks {d : Design Name} {h : Hierarchy Name} (c : Closed d h) {id : ModuleId}
    {m : ModuleNode Name} (node : h.module id = .ok m) (enum : EnumId) :
    h.Looks enum id ((h.chain id).findSome? (·.enum? enum)) := by
  have chain := c.chain_eq node
  cases inner : m.parent? with
  | none =>
    rw [inner] at chain
    rw [show h.chain id = [m] from chain, List.findSome?_singleton]
    cases known : m.enum? enum with
    | none => exact .ends node known inner
    | some definition => exact .here node known
  | some parent =>
    rw [inner] at chain
    obtain ⟨around, outer, chain⟩ := chain
    have outermost : around.parent? = none := by
      obtain ⟨_, around', outer', top⟩ := (c.partitioned.parents id m node).2 parent inner
      rw [outer] at outer'
      cases outer'
      have flag := (c.partitioned.parents parent around outer).1
      rw [top] at flag
      simpa using flag
    rw [chain, List.findSome?_cons]
    cases known : m.enum? enum with
    | some definition => exact .here node known
    | none =>
      refine .outward node known inner ?_
      rw [List.findSome?_singleton]
      cases known : around.enum? enum with
      | none => exact .ends outer known outermost
      | some definition => exact .here outer known

/-- The definition says of a value what the variants say: the last one that has it counts. Its
entries are the values that occur, in ascending order. -/
structure EnumDefinition.Reads (definition : EnumDefinition ν) (variants : List (ν × Int)) :
    Prop where
  variant : ∀ x, definition.variant? x = ((variants.filter (·.2 = x)).getLast?).map (·.1)
  values : ∀ x, x ∈ definition.variants.toList.map (·.1) ↔ ∃ w ∈ variants, w.2 = x
  ascending : (definition.variants.toList.map (·.1)).Pairwise (· < ·)

theorem ofNote_reads (note : EnumNote ν) : (EnumDefinition.ofNote note).Reads note.variants := by
  have variant (x : Int) : (EnumDefinition.ofNote note).variant? x =
      ((note.variants.filter (·.2 = x)).getLast?).map (·.1) := by
    rw [EnumDefinition.variant?, EnumDefinition.ofNote, SortedMap.find?_ofList, List.filter_map,
      List.getLast?_map, Option.map_map]
    rfl
  refine ⟨variant, fun x => ?_, ?_⟩
  · rw [SortedMap.mem_keys_iff, ← EnumDefinition.variant?, variant, Option.isSome_map,
      List.getLast?_isSome, ne_eq, List.filter_eq_nil_iff]
    simp
  · rw [List.pairwise_map]
    exact (EnumDefinition.ofNote note).variants.ascending

/-! ### Numbers of variables -/

theorem annotated_eq_some_iff {d : Design ν} {body : List (Entry ν)}
    {inline : OpId → Option ModuleId} {owner : ModuleId} {e : Entry ν} {node : VariableNode ν} :
    annotated d body inline owner e = some node ↔
      ∃ note, e.2.payload = .dbgVariable note ∧ node = ⟨note.name, e.2.loc, some note.value,
        SourceType.ofParts note.typeName note.params, d.enumIn body note.enumDef,
        targetIn d body inline owner note.scope⟩ := by
  have noted (note : VariableNote ν ValueId) :
      e.2.payload.annotation? = some note ↔ e.2.payload = .dbgVariable note := by
    cases e.2.payload <;> simp [Payload.annotation?]
  rw [annotated, Option.map_eq_some_iff]
  exact exists_congr fun note => and_congr (noted note) eq_comm

theorem enumId_of_wired {owner : ModuleId} {e : Entry ν} {node : VariableNode ν}
    (told : wired owner e = some node) : node.enumId = none := by
  unfold wired at told
  split at told
  · cases told
    rfl
  · cases told

/-- A number that one of the enum definitions of a body has, a first one has. -/
theorem exists_firstEnum {body : List (Entry ν)} {f : Entry ν} (hf : f ∈ body) {note : EnumNote ν}
    (payload : f.2.payload = .enumDef note) : ∃ first, FirstEnum body note.id first := by
  have known : note.id ∈ (enumTable body).toList.map (·.1) :=
    mem_keys_enumTable.2 ⟨f, hf, note, payload, rfl⟩
  obtain ⟨definition, found⟩ := Option.isSome_iff_exists.1 (SortedMap.mem_keys_iff.1 known)
  obtain ⟨first, isFirst, _⟩ := find?_enumTable_eq_some_iff.1 found
  exact ⟨first, isFirst⟩

/-- The variable is told by an annotation of the body that refers to an enum definition of the
body, and this has the number. -/
def LinkedIn (d : Design ν) (h : Hierarchy ν) (owner : ModuleId) (body : List (Entry ν))
    (node : VariableNode ν) (enum : EnumId) : Prop :=
  ∃ e ∈ body, annotated d body h.inline? owner e = some node ∧
    ∃ use value, e.2.payload = .dbgVariable use ∧ use.enumDef = some value ∧
      ∃ f ∈ body, ∃ definition, d.definingOp value = .ok (some f.1) ∧
      f.2.payload = .enumDef definition ∧
        definition.id = enum

theorem linkedIn_of_annotated {d : Design ν} {h : Hierarchy ν} {owner : ModuleId}
    {body : List (Entry ν)} (distinct : (body.map (·.1)).Nodup) {e : Entry ν} (he : e ∈ body)
    {node : VariableNode ν} (told : annotated d body h.inline? owner e = some node) {enum : EnumId}
    (numbered : node.enumId = some enum) :
    LinkedIn d h owner body node enum := by
  obtain ⟨use, payload, same⟩ := annotated_eq_some_iff.1 told
  rw [same] at numbered
  obtain ⟨value, ref⟩ : ∃ value, use.enumDef = some value := by
    cases ref : use.enumDef with
    | none =>
      rw [ref] at numbered
      cases numbered
    | some value => exact ⟨value, rfl⟩
  obtain ⟨f, hf, definition, produced, isEnum, sameId⟩ := enum_of_enumIn distinct (ref ▸ numbered)
  exact ⟨e, he, told, use, value, payload, ref, f, hf, definition, produced, isEnum, sameId.symm⟩

section Numbers

variable [DecidableEq ν] {d : Design ν} {F : Forest ν} {accounts : List (Account ν)}
  {q : Progress ν}

namespace Collected

variable (c : Collected d accounts d.definitions q) (n : Nesting d F)

include c n

/-- A variable with a number is told by an annotation: no port and no wire has one. -/
theorem annotation_of_enumId {v : VariableId} {node : VariableNode ν}
    (found : q.hierarchy.dbgVariable v = .ok node) {enum : EnumId}
    (numbered : node.enumId = some enum) :
    ∃ a ∈ accounts, ∃ name ports block, a.entry.2.payload = .module name ports block ∧
      ∃ e ∈ d.bodyOf block, annotated d (d.bodyOf block) q.hierarchy.inline? a.owner e =
        some node := by
  have there := List.mem_of_getElem? (c.lists.dbgVariable_eq_ok_iff.1 found)
  rw [Findings.gather_vars, List.mem_flatMap] at there
  obtain ⟨a, ha, told⟩ := there
  refine ⟨a, ha, ?_⟩
  cases payload : a.entry.2.payload with
  | module name ports block =>
    refine ⟨name, ports, block, rfl, ?_⟩
    rw [c.vars_of_module n ha payload, bodyVars] at told
    split at told
    · exact List.mem_filterMap.1 told
    · rcases List.mem_append.1 told with isPort | isWire
      · obtain ⟨port, _, rfl⟩ := List.mem_map.1 isPort
        cases numbered
      · obtain ⟨e, _, wire⟩ := List.mem_filterMap.1 isWire
        rw [enumId_of_wired wire] at numbered
        cases numbered
  | externModule name ports =>
    simp only [Account.findings, payload] at told
    obtain ⟨port, _, rfl⟩ := List.mem_map.1 told
    cases numbered
  | _ => simp [Account.findings, payload, Findings.none] at told

/-- Where a reference to a scope leads, a number is found in the table of the body: an inline
module has no table of its own. -/
theorem looks_from_target (noted : Noted d accounts q.hierarchy) {a : Account ν} (ha : a ∈ accounts)
    {name : ν} {ports : List (Port ν)} {block : BlockId}
    (payload : a.entry.2.payload = .module name ports block) {m : ModuleNode ν}
    (node : q.hierarchy.module a.owner = .ok m) {enum : EnumId} {note : EnumNote ν}
    (first : FirstEnum (d.bodyOf block) enum note) (ref : Option ValueId) {target : ModuleId}
    (leads : target = targetIn d (d.bodyOf block) q.hierarchy.inline? a.owner ref) :
    q.hierarchy.Looks enum target (some (.ofNote note)) ∧ (target = a.owner ∨
      ∃ inner, q.hierarchy.module target = .ok inner ∧ inner.parent? = some a.owner) := by
  have known : m.enum? enum = some (.ofNote note) := by
    have told : m.notes = notesOf (d.bodyOf block) := by
      rw [← Hierarchy.notesAt_of_module node, noted.own a ha, Design.notesIn, payload]
    rw [ModuleNode.enum?, show m.enums = enumTable (d.bodyOf block) from congrArg Notes.enums told]
    exact find?_enumTable_eq_some_iff.2 ⟨note, first, rfl⟩
  rw [← d.bodyIn_of_module payload] at leads
  rcases c.target_cases n ha ref with ⟨_, own⟩ | ⟨scope, label, _, labelled⟩
  · rw [leads, own]
    exact ⟨.here node known, .inl rfl⟩
  · rw [← leads] at labelled
    obtain ⟨inner, found, _, origin⟩ := Hierarchy.module_of_labelAt labelled
    have parent : inner.parent? = some a.owner := by rw [ModuleNode.parent?, origin]
    have unknown : inner.enum? enum = none := by
      have told : inner.notes = .none :=
        c.notes_of_bodiless noted found fun op => by simp [ModuleNode.definition?, origin]
      rw [ModuleNode.enum?, show inner.enums = .empty from congrArg Notes.enums told]
      rfl
    exact ⟨.outward found unknown parent (.here node known), .inr ⟨inner, found, parent⟩⟩

end Collected

end Numbers

/-- How the number of a variable leads to an enum definition of the body
with the variable's annotation. -/
structure Hierarchy.Links (d : Design ν) (h : Hierarchy ν) (v : VariableId) (node : VariableNode ν)
    (enum : EnumId) (owner : ModuleId) (body : List (Entry ν)) (note : EnumNote ν) : Prop where
  linked : LinkedIn d h owner body node enum
  /-- The variable is owned by the module of the body, or by an inline module within. -/
  within : node.owner = owner ∨ ∃ inner, h.module node.owner = .ok inner ∧
    inner.parent? = some owner
  first : FirstEnum body enum note
  looks : h.Looks enum node.owner (some (.ofNote note))
  resolved : h.resolveEnum v = .ok (some (.ofNote note))

theorem Hierarchy.resolveEnum_of_node {h : Hierarchy ν} {v : VariableId} {node : VariableNode ν}
    (found : h.dbgVariable v = .ok node) : h.resolveEnum v =
      .ok (node.enumId.bind fun enum => (h.chain node.owner).findSome? (·.enum? enum)) := by
  rw [resolveEnum, found]
  rfl

section Finished

variable {d : Design Name} {options : Options} {h : Hierarchy Name}

/-- **Enums.** A variable without a number has no enum. The number of any other one leads to the
first definition of that number in the body with the variable's annotation. -/
theorem enum_links (scripted : d.Scripted) (extracted : (d.extract options).outcome = .ok h)
    {v : VariableId} {node : VariableNode Name} (found : h.dbgVariable v = .ok node) :
    (h.resolveEnum v = .ok none ↔ node.enumId = none) ∧
      ∀ enum, node.enumId = some enum → ∃ owner m op definition name ports block note,
        h.module owner = .ok m ∧ m.definition? = some (.module, op) ∧ d.op op = .ok definition ∧
          definition.payload = .module name ports block ∧
          h.Links d v node enum owner (d.bodyOf block) note ∧
          (EnumDefinition.ofNote note).Reads note.variants := by
  have closed := d.closed_of_extract extracted
  obtain ⟨F, accounts, q, rfl, _, n, c, noted, _⟩ := scripted.noted extracted
  have links {enum : EnumId} (numbered : node.enumId = some enum) :
      ∃ owner m op definition name ports block note,
      q.hierarchy.module owner = .ok m ∧ m.definition? = some (.module, op) ∧
        d.op op = .ok definition ∧ definition.payload = .module name ports block ∧
        q.hierarchy.Links d v node enum owner (d.bodyOf block) note ∧
        (EnumDefinition.ofNote note).Reads note.variants := by
    obtain ⟨a, ha, name, ports, block, payload, e, he, told⟩ :=
      c.annotation_of_enumId n found numbered
    have linked := linkedIn_of_annotated
      (d.bodyIn_of_module payload ▸ c.body_nodup n ha) he told numbered
    obtain ⟨_, _, _, _, _, _, _, f, hf, definition, _, isEnum, same⟩ := id linked
    obtain ⟨first, isFirst⟩ := exists_firstEnum hf isEnum
    rw [same] at isFirst
    obtain ⟨label, labelled⟩ := c.label_of_body ha payload
    obtain ⟨m, here, _, _⟩ := Hierarchy.module_of_labelAt labelled
    obtain ⟨use, _, leads⟩ := owner_of_annotated told
    obtain ⟨looks, within⟩ := c.looks_from_target n noted ha payload here isFirst use.scope leads
    have resolved : q.hierarchy.resolveEnum v = .ok (some (.ofNote first)) := by
      obtain ⟨inner, there⟩ := looks.module
      rw [Hierarchy.resolveEnum_of_node found, numbered, Option.bind_some,
        (closed.looks there _).unique looks]
    exact ⟨a.owner, m, a.entry.1, a.entry.2, name, ports, block, first, here,
      definition_of_label here labelled, op_of_mem_entries (c.mem_entries n ha), payload,
      ⟨linked, within, isFirst, looks, resolved⟩,
      ofNote_reads first⟩
  refine ⟨⟨fun none => ?_, fun none => ?_⟩, fun enum => links⟩
  · cases numbered : node.enumId with
    | none => rfl
    | some enum =>
      obtain ⟨_, _, _, _, _, _, _, _, _, _, _, _, linked, _⟩ := links numbered
      rw [linked.resolved] at none
      cases none
  · rw [Hierarchy.resolveEnum_of_node found, none]
    rfl

/-- A variable in a scope. It refers to an enum definition that comes later; one of the same number
stands before that in a region, and another module has one, too. -/
def sharedNumber : Script :=
  .module "A" [⟨.input, "a", none⟩]
    (.leaf (some "s") (.dbgScope ⟨"s", "S", none⟩) <|
      .leaf none (.dbgVariable ⟨"v", .input 0, some (.label "s"), none, none, some (.value ⟨3⟩)⟩) <|
      .region "r" (.leaf none (.enumDef ⟨"E", ⟨1⟩, [("X", 0), ("Y", 0)]⟩) .done) <|
      .leaf none (.enumDef ⟨"F", ⟨1⟩, [("Z", 0)]⟩) .done) <|
  .module "B" [] (.leaf none (.enumDef ⟨"G", ⟨1⟩, [("W", 0)]⟩) .done) .done

theorem links_of_sharedNumber :
    ∃ node, (sharedNumber.design.hierarchy {}).dbgVariable ⟨0⟩ = .ok node ∧
    node.enumId = some ⟨1⟩ ∧ node.owner = ⟨1⟩ ∧ ∃ owner m op definition name ports block note,
      (sharedNumber.design.hierarchy {}).module owner = .ok m ∧ m.definition? = some (.module, op) ∧
        sharedNumber.design.op op = .ok definition ∧ definition.payload = .module name ports block ∧
        (sharedNumber.design.hierarchy {}).Links sharedNumber.design ⟨0⟩ node ⟨1⟩ owner
          (sharedNumber.design.bodyOf block) note ∧
        (EnumDefinition.ofNote note).Reads note.variants := by
  have extracted : (sharedNumber.design.extract {}).outcome =
      .ok (sharedNumber.design.hierarchy {}) := by
    decide +kernel
  have read : ((sharedNumber.design.hierarchy {}).dbgVariable ⟨0⟩).toOption.map
      (fun v => (v.enumId, v.owner)) =
      some (some ⟨1⟩, ⟨1⟩) := by decide +kernel
  cases found : (sharedNumber.design.hierarchy {}).dbgVariable ⟨0⟩ with
  | error what =>
    rw [found] at read
    cases read
  | ok node =>
    rw [found] at read
    obtain ⟨numbered, owner⟩ := Prod.mk.inj (Option.some.inj read)
    exact ⟨node, rfl, numbered, owner,
      (enum_links sharedNumber.design_scripted extracted found).2 ⟨1⟩ numbered⟩

example : ((sharedNumber.design.hierarchy {}).resolveEnum ⟨0⟩).toOption.join.bind (·.variant? 0) =
    some (sharedNumber.names.number "Y") := by
  decide +kernel

end Finished

end DebugHierarchy
