import DebugHierarchy.Proofs.Attribution
import DebugHierarchy.Proofs.Partition

/-!
What a finished module says of itself.

The type of a module is the one that its body annotates last. Of the enum definitions of a body
that have one number, the first stands for the number. A module without a body has neither, and
nothing in it is explicit.

* `typeOf_eq_some_iff`, `find?_enumTable`: the notes of a body, read off its operations;
* `Collected.notes_of_body`: the notes of a module are those of its body;
* `module_described`: the type, the enums and the explicit parts of every
  module, and who tells them.
-/

namespace DebugHierarchy

variable {ν : Type}

/-- Of the annotations of the type in a body, the last one tells this name and these parameters. -/
def LastInfo (body : List (Entry ν)) (typeName : ν) (params : Option (ParamValue ν)) : Prop :=
  ∃ before e after, body = before ++ e :: after ∧ e.2.payload = .moduleInfo typeName params ∧
    ∀ f ∈ after, f.2.payload.isInfo = false

/-- Of the enum definitions of a body with this number, this is the first one. -/
def FirstEnum (body : List (Entry ν)) (id : EnumId) (note : EnumNote ν) : Prop :=
  ∃ before e after, body = before ++ e :: after ∧ e.2.payload = .enumDef note ∧ note.id = id ∧
    ∀ f ∈ before, ∀ other, f.2.payload = .enumDef other → other.id ≠ id

theorem Payload.sourceType?_eq_some_iff {p : Payload ν} {t : SourceType ν} :
    p.sourceType? = some t ↔
    ∃ typeName params, p = .moduleInfo typeName params ∧ t = ⟨some typeName, params⟩ := by
  cases p <;> simp [sourceType?, SourceType.ofParts, eq_comm]

theorem Payload.sourceType?_eq_none_iff {p : Payload ν} : p.sourceType? = none ↔
    p.isInfo = false := by
  cases p <;> simp [sourceType?, SourceType.ofParts, isInfo]

theorem Payload.isInfo_eq_false_iff {p : Payload ν} :
    p.isInfo = false ↔ ∀ typeName params, p ≠ .moduleInfo typeName params := by
  cases p <;> simp [isInfo]

theorem Payload.isSome_annotation?_iff {p : Payload ν} :
    p.annotation?.isSome = true ↔ ∃ note, p = .dbgVariable note := by
  cases p <;> simp [annotation?]

theorem Payload.isSome_scope?_iff {p : Payload ν} : p.scope?.isSome = true ↔
    ∃ note, p = .dbgScope note := by
  cases p <;> simp [scope?]

theorem Payload.enum?_eq_some_iff {p : Payload ν} {note : EnumNote ν} :
    p.enum? = some note ↔ p = .enumDef note := by
  cases p <;> simp [enum?]

theorem typeOf_eq_some_iff {body : List (Entry ν)} {t : SourceType ν} : typeOf body = some t ↔
    ∃ typeName params, LastInfo body typeName params ∧ t = ⟨some typeName, params⟩ := by
  rw [typeOf, List.getLast?_filterMap, List.findSome?_eq_some_iff]
  constructor
  · rintro ⟨after, e, before, whole, told, rest⟩
    obtain ⟨typeName, params, payload, rfl⟩ := Payload.sourceType?_eq_some_iff.1 told
    refine ⟨typeName, params, ⟨before.reverse, e, after.reverse, ?_, payload, fun f hf => ?_⟩, rfl⟩
    · rw [List.reverse_eq_append_iff.1 whole]
      simp
    · exact Payload.sourceType?_eq_none_iff.1 (rest f (List.mem_reverse.1 hf))
  · rintro ⟨typeName, params, ⟨before, e, after, rfl, payload, rest⟩, rfl⟩
    refine ⟨after.reverse, e, before.reverse, by simp, ?_, fun f hf => ?_⟩
    · exact Payload.sourceType?_eq_some_iff.2 ⟨typeName, params, payload, rfl⟩
    · exact Payload.sourceType?_eq_none_iff.2 (rest f (List.mem_reverse.1 hf))

theorem typeOf_eq_none_iff {body : List (Entry ν)} :
    typeOf body = none ↔ ∀ e ∈ body, e.2.payload.isInfo = false := by
  rw [typeOf, List.getLast?_eq_none_iff, List.filterMap_eq_nil_iff]
  exact forall₂_congr fun e _ => Payload.sourceType?_eq_none_iff

def Payload.enumOf? (id : EnumId) (p : Payload ν) : Option (EnumNote ν) :=
  p.enum?.filter (·.id = id)

theorem Payload.enumOf?_eq_some_iff {p : Payload ν} {id : EnumId} {note : EnumNote ν} :
    p.enumOf? id = some note ↔ p = .enumDef note ∧ note.id = id := by
  rw [enumOf?, Option.filter_eq_some_iff, enum?_eq_some_iff, decide_eq_true_iff]

theorem Payload.enumOf?_eq_none_iff {p : Payload ν} {id : EnumId} :
    p.enumOf? id = none ↔ ∀ note, p = .enumDef note → note.id ≠ id := by
  rw [Option.eq_none_iff_forall_ne_some]
  simp only [ne_eq, enumOf?_eq_some_iff, not_and]

/-- A body has enum definitions of a number just where one of its operations is one. -/
theorem any_enums_eq (body : List (Entry ν)) (id : EnumId) :
    (body.filterMap (·.2.payload.enum?)).any (·.id = id) =
      (body.findSome? (·.2.payload.enumOf? id)).isSome := by
  rw [Bool.eq_iff_iff, List.findSome?_isSome_iff, List.any_eq_true]
  simp only [List.mem_filterMap, Option.isSome_iff_exists, Payload.enumOf?_eq_some_iff,
    Payload.enum?_eq_some_iff, decide_eq_true_iff]
  constructor
  · rintro ⟨note, ⟨e, he, payload⟩, same⟩
    exact ⟨e, he, note, payload, same⟩
  · rintro ⟨e, he, note, payload, same⟩
    exact ⟨note, ⟨e, he, payload⟩, same⟩

/-- A number is looked up in a body operation by operation. -/
theorem find?_enumTable (body : List (Entry ν)) (id : EnumId) :
    (enumTable body).find? id = (body.findSome? (·.2.payload.enumOf? id)).map .ofNote := by
  induction body using List.reverseRecOn with
  | nil => rfl
  | append_singleton body e ih =>
    rw [List.findSome?_append, List.findSome?_singleton, Payload.enumOf?]
    cases here : e.2.payload.enum? with
    | none => rw [enumTable_append_of_none body here, ih, Option.filter_none, Option.or_none]
    | some note =>
      rw [enumTable_append body e here, any_enums_eq, Option.filter_some]
      by_cases same : note.id = id
      · subst same
        rw [if_pos (decide_eq_true rfl)]
        cases earlier : body.findSome? (·.2.payload.enumOf? note.id) with
        | none => simp [SortedMap.find?_insert]
        | some first => simp [ih, earlier]
      · have stays : ((enumTable body).insert note.id (.ofNote note)).find? id =
            (enumTable body).find? id := by
          rw [SortedMap.find?_insert, if_neg same]
        rw [if_neg fun here => same (of_decide_eq_true here), Option.or_none, ← ih]
        split
        · rfl
        · exact stays

theorem find?_enumTable_eq_some_iff {body : List (Entry ν)} {id : EnumId}
    {definition : EnumDefinition ν} :
    (enumTable body).find? id = some definition ↔ ∃ note, FirstEnum body id note ∧
      .ofNote note = definition := by
  rw [find?_enumTable, Option.map_eq_some_iff]
  refine exists_congr fun note => and_congr_left fun _ => ?_
  simp only [List.findSome?_eq_some_iff, Payload.enumOf?_eq_some_iff,
    Payload.enumOf?_eq_none_iff, FirstEnum, and_assoc]

theorem mem_keys_enumTable {body : List (Entry ν)} {id : EnumId} :
    id ∈ (enumTable body).toList.map (·.1) ↔ ∃ e ∈ body, ∃ note, e.2.payload = .enumDef note ∧
      note.id = id := by
  rw [SortedMap.mem_keys_iff, find?_enumTable, Option.isSome_map, List.findSome?_isSome_iff]
  simp only [Option.isSome_iff_exists, Payload.enumOf?_eq_some_iff]

section Modules

variable {h : Hierarchy ν} {id : ModuleId} {m : ModuleNode ν}

theorem Hierarchy.notesAt_of_module (node : h.module id = .ok m) :
    h.notesAt id.index = m.notes := by
  rw [notesAt, module_eq_ok_iff.1 node]
  rfl

/-- A module has the definition that its label tells. -/
theorem definition_of_label {name : ν} {kind : ModuleKind} {op : OpId} (node : h.module id = .ok m)
    (label : h.labelAt id.index = some (name, .defined kind op)) :
    m.definition? = some (kind, op) := by
  rw [Hierarchy.labelAt_of_module node] at label
  obtain ⟨_, origin⟩ := Prod.mk.inj (Option.some.inj label)
  rw [ModuleNode.definition?, origin, Origin.definition?]

variable [DecidableEq ν] {d : Design ν} {F : Forest ν} {accounts : List (Account ν)}
  {q : Progress ν}

theorem Collected.label_of_body {part : List (Entry ν)} (c : Collected d accounts part q)
    {a : Account ν} (ha : a ∈ accounts) {name : ν} {ports : List (Port ν)} {block : BlockId}
    (payload : a.entry.2.payload = .module name ports block) :
    ∃ label, q.hierarchy.labelAt a.owner.index = some (label, .defined .module a.entry.1) :=
  (c.mem_defined (x := ⟨a.owner, .module, a.entry.1⟩)).2 ⟨a, ha, .module, by rw [payload]; rfl, rfl⟩

/-- A module with a body is told what the body says. -/
theorem Collected.notes_of_body (c : Collected d accounts d.definitions q) (n : Nesting d F)
    (noted : Noted d accounts q.hierarchy) (node : q.hierarchy.module id = .ok m) {op : OpId}
    (defined : m.definition? = some (.module, op)) : ∃ a ∈ accounts, ∃ name ports block,
      a.owner = id ∧ a.entry.1 = op ∧ d.op op = .ok a.entry.2 ∧ a.entry ∈ d.entries ∧
        a.entry.2.payload = .module name ports block ∧ m.notes = notesOf (d.bodyOf block) := by
  obtain ⟨a, ha, rfl, rfl, found, entry, name, ports, block, payload⟩ :=
    c.account_of_module n (labelAt_of_definition node defined)
  refine ⟨a, ha, name, ports, block, rfl, rfl, found, entry, payload, ?_⟩
  rw [← Hierarchy.notesAt_of_module node, noted.own a ha, Design.notesIn, payload]

/-- A module without a body is told nothing. -/
theorem Collected.notes_of_bodiless {part : List (Entry ν)} (c : Collected d accounts part q)
    (noted : Noted d accounts q.hierarchy) (node : q.hierarchy.module id = .ok m)
    (bodiless : ∀ op, m.definition? ≠ some (.module, op)) : m.notes = .none := by
  rw [← Hierarchy.notesAt_of_module node]
  by_cases owned : ∃ a ∈ accounts, a.owner = id
  · obtain ⟨a, ha, rfl⟩ := owned
    rw [noted.own a ha, Design.notesIn]
    cases payload : a.entry.2.payload with
    | module name ports block =>
      obtain ⟨_, label⟩ := c.label_of_body ha payload
      exact absurd (definition_of_label node label) (bodiless _)
    | _ => rfl
  · exact noted.others _ fun a ha same => owned ⟨a, ha, Handle.ext same⟩

/-- Where a design has no problem, no module is annotated with two types against the policy. -/
theorem infoProblem_none {options : Options} (none : d.problem options = none) {e : Entry ν}
    (he : e ∈ d.entries) {name : ν} {ports : List (Port ν)} {block : BlockId}
    (payload : e.2.payload = .module name ports block) :
    infoProblem options.info e.1 (d.bodyOf block) = .none := by
  have here : problemAt d options e = .none := List.findSome?_eq_none_iff.1 none e he
  rw [problemAt, payload, Option.or_eq_none_iff] at here
  exact (bodyProblem_eq_none_iff.1 here.2).1

end Modules

/-! ### Descriptions -/

/-- Where one type per module is insisted on and nothing contradicts
that, there is no more than one. -/
theorem length_infosOf_le {definition : OpId} {body : List (Entry ν)}
    (single : infoProblem .strict definition body = none) : (infosOf body).length ≤ 1 := by
  unfold infoProblem at single
  cases infos : infosOf body with
  | nil => exact Nat.zero_le 1
  | cons first rest =>
    cases rest with
    | nil => exact Nat.le_refl 1
    | cons second rest =>
      rw [infos] at single
      cases single

/-- A module says of itself what its body says. -/
structure ModuleNode.DescribedBy (m : ModuleNode ν) (policy : InfoPolicy) (body : List (Entry ν)) :
    Prop where
  vars : m.explicit.vars = true ↔ ∃ e ∈ body, ∃ note, e.2.payload = .dbgVariable note
  insts : m.explicit.insts = true ↔ ∃ e ∈ body, ∃ note, e.2.payload = .dbgScope note
  typed : ∀ t, m.sourceType = some t ↔
    ∃ typeName params, LastInfo body typeName params ∧ t = ⟨some typeName, params⟩
  untyped : m.sourceType = none ↔
    ∀ e ∈ body, ∀ typeName params, e.2.payload ≠ .moduleInfo typeName params
  /-- Where one type per module is insisted on, no more than one is annotated. -/
  single : policy = .strict → (body.filter (·.2.payload.isInfo)).length ≤ 1
  enums : ∀ id definition, m.enum? id = some definition ↔
    ∃ note, FirstEnum body id note ∧ .ofNote note = definition
  numbers : ∀ id, id ∈ m.enums.toList.map (·.1) ↔
    ∃ e ∈ body, ∃ note, e.2.payload = .enumDef note ∧ note.id = id

theorem ModuleNode.describedBy {m : ModuleNode ν} {policy : InfoPolicy} {definition : OpId}
    {body : List (Entry ν)} (told : m.notes = notesOf body)
    (single : infoProblem policy definition body = none) : m.DescribedBy policy body := by
  have sourceType : m.sourceType = typeOf body := congrArg Notes.sourceType told
  have enums : m.enums = enumTable body := congrArg Notes.enums told
  have explicit : m.explicit = ⟨hasVariable body, hasScope body⟩ := congrArg Notes.explicit told
  refine ⟨?_, ?_, ?_, ?_, ?_, ?_, ?_⟩
  · rw [explicit, hasVariable, List.any_eq_true]
    simp only [Payload.isSome_annotation?_iff]
  · rw [explicit, hasScope, List.any_eq_true]
    simp only [Payload.isSome_scope?_iff]
  · intro t
    rw [sourceType, typeOf_eq_some_iff]
  · rw [sourceType, typeOf_eq_none_iff]
    simp only [Payload.isInfo_eq_false_iff]
  · rintro rfl
    rw [← List.length_map (·.1), ← infosOf]
    exact length_infosOf_le single
  · intro id definition
    rw [ModuleNode.enum?, enums, find?_enumTable_eq_some_iff]
  · intro id
    rw [enums, mem_keys_enumTable]

/-- What a module of a hierarchy says of itself, and who tells it. -/
structure Describes [DecidableEq ν] (d : Design ν) (options : Options) (id : ModuleId)
    (m : ModuleNode ν) : Prop where
  own : ∀ op, m.definition? = some (.module, op) →
    ∃ definition name ports block, d.op op = .ok definition ∧
    definition.payload = .module name ports block ∧ m.DescribedBy options.info (d.bodyOf block)
  /-- In the end it says what it says after the whole journal. -/
  finished : (Hierarchy.replay (d.extract options).journal).module id = .ok m
  /-- A module without a body says nothing. -/
  others : (∀ op, m.definition? ≠ some (.module, op)) →
    m.explicit = .none ∧ m.sourceType = none ∧ m.enums = .empty
  /-- No event changes anything of this unless it comes while the module's
  own definition is taken in. -/
  frame : ∀ before e, before ++ [e] <+: (d.extract options).journal →
    (Hierarchy.replay (before ++ [e])).notesAt id.index ≠
      (Hierarchy.replay before).notesAt id.index →
      ∃ op, m.definition? = some (.module, op) ∧ underway before = some (.module, op)

section Finished

variable {d : Design Name} {options : Options} {h : Hierarchy Name}

/-- A finished hierarchy is told by accounts, and its modules by the definitions of these. -/
theorem Design.Scripted.noted (scripted : d.Scripted)
    (extracted : (d.extract options).outcome = .ok h) :
    ∃ F accounts q, q.hierarchy = h ∧ q.journal.toList = (d.extract options).journal ∧ Nesting d F ∧
      Collected d accounts d.definitions q ∧ Noted d accounts q.hierarchy ∧
      d.problem options = none := by
  obtain ⟨F, n⟩ := scripted.nesting
  obtain ⟨a, q, run, same, journal⟩ := d.run_of_extract extracted
  have settled := Building.all_settles_noted n options
  rw [Settles, run] at settled
  obtain ⟨fine, accounts, c, noted⟩ := settled
  exact ⟨F, accounts, q, same, journal, n, c, noted, fine⟩

/-- A finished hierarchy is what its whole journal makes. -/
theorem Design.replay_of_extract (extracted : (d.extract options).outcome = .ok h) :
    h = .replay (d.extract options).journal := by
  obtain ⟨a, q, run, rfl, journal⟩ := d.run_of_extract extracted
  have safe := Building.all_safe d options (p := .start) .start
  rw [run] at safe
  rw [← journal]
  exact safe.1.replayed

/-- **Descriptions.** A module says of itself what its body says, a module without a body nothing,
and only while its definition is taken in does anything of this change. -/
theorem module_described (scripted : d.Scripted) (extracted : (d.extract options).outcome = .ok h)
    {id : ModuleId} {m : ModuleNode Name} (node : h.module id = .ok m) :
    Describes d options id m := by
  have replayed := d.replay_of_extract extracted
  obtain ⟨F, accounts, q, rfl, journal, n, c, noted, fine⟩ := scripted.noted extracted
  refine ⟨?_, replayed ▸ node, ?_, ?_⟩
  · intro op defined
    obtain ⟨a, _, name, ports, block, _, rfl, found, entry, payload, told⟩ :=
      c.notes_of_body n noted node defined
    exact ⟨a.entry.2, name, ports, block, found, payload,
      ModuleNode.describedBy told (infoProblem_none fine entry payload)⟩
  · intro bodiless
    have told := c.notes_of_bodiless noted node bodiless
    exact ⟨congrArg Notes.explicit told, congrArg Notes.sourceType told, congrArg Notes.enums told⟩
  · intro before e up changes
    -- Only an event that tells the module something changes its notes.
    have tells : e.Tells id.index := by
      by_contra silent
      rw [Hierarchy.replay, List.foldl_append, ← Hierarchy.replay] at changes
      exact changes (Hierarchy.notesAt_apply_of_silent _ silent)
    obtain ⟨op, current, recorded⟩ := d.attributed_of_extract extracted before e up id.index tells
    have whole := (List.prefix_append before [e]).trans up
    obtain ⟨name, label⟩ := c.label_of_define (journal ▸ whole.subset recorded)
    exact ⟨op, definition_of_label node label, current⟩

end Finished

/-- A module that is instantiated before it is defined. Its body annotates two types and defines two
enums of one number, one of each in a region. -/
def lateModule : Script :=
  .module "Top" [] (.leaf none (.inst "u" "Late" []) .done) <|
  .module "Late" []
    (.leaf none (.enumDef ⟨"E", ⟨1⟩, [("A", 0)]⟩) <|
      .leaf none (.moduleInfo "T" none) <|
      .region "r"
        (.leaf none (.enumDef ⟨"F", ⟨1⟩, [("B", 0)]⟩) <|
          .leaf none (.moduleInfo "U" none) .done) .done) .done

theorem described_of_lateModule : ∃ m, (lateModule.design.hierarchy {}).module ⟨1⟩ = .ok m ∧
    m.definition? = some (.module, ⟨2⟩) ∧ Describes lateModule.design {} ⟨1⟩ m := by
  have extracted : (lateModule.design.extract {}).outcome =
      .ok (lateModule.design.hierarchy {}) := by
    decide +kernel
  obtain ⟨m, node, defined⟩ :=
    module_of_bind (x := (.module, ⟨2⟩)) (lateModule.design.hierarchy {}) ⟨1⟩
    (·.definition?) (by decide +kernel)
  exact ⟨m, node, defined, module_described lateModule.design_scripted extracted node⟩

end DebugHierarchy
