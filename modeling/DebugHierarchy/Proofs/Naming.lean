import DebugHierarchy.Proofs.Drafting
import DebugHierarchy.Proofs.Relabeling

/-!
Numbers for names.

A script speaks of names as strings, and its design has numbers for them. Which numbers these are
depends on the table they come from, but an extraction does not: read back as strings, it is the
extraction from the draft of the script.

* `Design.alike_map`: a design under other names is the same design;
* `Script.run_fixed`: the names of a draft are the strings that its statements mention;
* `Script.build_extract`: an extraction, read back as strings;
* `Script.build_names`: every name in a hierarchy is a number of the table.
-/

namespace DebugHierarchy

variable {ν μ κ : Type}

section Twice

variable (f : μ → κ) (g : ν → μ)

namespace ParamValue

mutual

theorem map_map : (v : ParamValue ν) → (v.map g).map f = v.map (f ∘ g)
  | .int _ | .bool _ | .str _ => rfl
  | .array items => congrArg array (mapItems_mapItems items)
  | .dict entries => congrArg dict (mapEntries_mapEntries entries)

theorem mapItems_mapItems : (items : List (ParamValue ν)) →
    mapItems f (mapItems g items) = mapItems (f ∘ g) items
  | [] => rfl
  | v :: rest => congrArg₂ List.cons (map_map v) (mapItems_mapItems rest)

theorem mapEntries_mapEntries : (entries : List (ν × ParamValue ν)) →
    mapEntries f (mapEntries g entries) = mapEntries (f ∘ g) entries
  | [] => rfl
  | (k, v) :: rest =>
    congrArg₂ List.cons (congrArg (Prod.mk (f (g k))) (map_map v)) (mapEntries_mapEntries rest)

end

end ParamValue

@[simp] theorem paramValue_map_comp :
    ParamValue.map f ∘ ParamValue.map g = ParamValue.map (f ∘ g) := funext (ParamValue.map_map f g)

@[simp] theorem Port.map_map (p : Port ν) : (p.map g).map f = p.map (f ∘ g) := rfl

@[simp] theorem port_map_comp : Port.map f ∘ Port.map g = Port.map (f ∘ g) := rfl

theorem Payload.map_map (p : Payload ν) : (p.map g).map f = p.map (f ∘ g) := by
  cases p <;>
    simp [Payload.map, VariableNote.map, ScopeNote.map, EnumNote.map, Function.comp_def,
      ParamValue.map_map]

theorem Operation.map_map (op : Operation ν) : (op.map g).map f = op.map (f ∘ g) := by
  simp [Operation.map, Payload.map_map, SourceLoc.map]

theorem Design.map_map (d : Design ν) : (d.map g).map f = d.map (f ∘ g) := by
  simp [Design.map, Operation.map_map, Function.comp_def]

@[simp] theorem SourceType.map_map (t : SourceType ν) : (t.map g).map f = t.map (f ∘ g) := by
  simp [SourceType.map]

@[simp] theorem sourceType_map_comp :
    SourceType.map f ∘ SourceType.map g = SourceType.map (f ∘ g) :=
  funext (SourceType.map_map f g)

theorem SortedMap.map_map {ρ α β γ : Type} [Ranked ρ] (f : β → γ) (g : α → β) (m : SortedMap ρ α) :
    (m.map g).map f = m.map (f ∘ g) :=
  SortedMap.ext (by simp [SortedMap.map])

@[simp] theorem EnumDefinition.map_map (e : EnumDefinition ν) :
    (e.map g).map f = e.map (f ∘ g) := by
  simp [EnumDefinition.map, SortedMap.map_map]

@[simp] theorem enumDefinition_map_comp :
    EnumDefinition.map f ∘ EnumDefinition.map g = EnumDefinition.map (f ∘ g) :=
  funext (EnumDefinition.map_map f g)

@[simp] theorem VariableNode.map_map (v : VariableNode ν) : (v.map g).map f = v.map (f ∘ g) := by
  simp [VariableNode.map, SourceLoc.map]

end Twice

namespace Relabeling

def comp (r : Relabeling μ κ) (s : Relabeling ν μ) : Relabeling ν κ :=
  ⟨r.name ∘ s.name, r.op ∘ s.op⟩

variable (r : Relabeling μ κ) (s : Relabeling ν μ)

@[simp] theorem origin_twice (o : Origin) :
    (o.relabel s.op).relabel r.op = o.relabel (r.comp s).op := by
  cases o <;> rfl

@[simp] theorem moduleNode_twice (m : ModuleNode ν) :
    (m.relabel s).relabel r = m.relabel (r.comp s) := by
  simp [ModuleNode.relabel, ModuleNode.map, SortedMap.map_map, comp]

@[simp] theorem instanceNode_twice (i : InstanceNode ν) :
    (i.relabel s).relabel r = i.relabel (r.comp s) := rfl

theorem catalog_twice (c : Catalog ν) : (c.relabel s).relabel r = c.relabel (r.comp s) := by
  simp [Catalog.relabel, LookupMap.map, LookupMap.mapKeys, Slot.relabel, comp, Function.comp_def]

@[simp] theorem hierarchy_twice (h : Hierarchy ν) :
    (h.relabel s).relabel r = h.relabel (r.comp s) := by
  have modules : ModuleNode.relabel r ∘ ModuleNode.relabel s = ModuleNode.relabel (r.comp s) :=
    funext (moduleNode_twice r s)
  have insts : InstanceNode.relabel r ∘ InstanceNode.relabel s = InstanceNode.relabel (r.comp s) :=
    rfl
  have vars : VariableNode.map r.name ∘ VariableNode.map s.name =
      VariableNode.map (r.comp s).name :=
    funext (VariableNode.map_map r.name s.name)
  simp only [Hierarchy.relabel, Store.relabel, catalog_twice, Array.map_map, modules, insts, vars]

@[simp] theorem event_twice (e : Event ν) : (e.relabel s).relabel r = e.relabel (r.comp s) := by
  cases e <;> simp [Event.relabel, comp]

@[simp] theorem failure_twice (failure : Failure ν) :
    (failure.relabel s).relabel r = failure.relabel (r.comp s) := by
  cases failure with
  | invalid error => cases error <;> rfl
  | dangling what =>
    obtain ⟨space, i⟩ := what
    cases space <;> rfl

theorem extraction_twice (x : Extraction ν) : (x.relabel s).relabel r = x.relabel (r.comp s) := by
  obtain ⟨outcome, journal⟩ := x
  cases outcome <;> simp [Extraction.relabel]

end Relabeling

def Relabeling.names (f : ν → μ) : Relabeling ν μ := ⟨f, id⟩

theorem Relabeling.names_faithful {f : ν → μ} (injective : Function.Injective f) :
    (names f).Faithful := ⟨injective, Function.injective_id⟩

theorem Hierarchy.relabel_names (f : ν → μ) (h : Hierarchy ν) : h.relabel (.names f) = h.map f := by
  have origin (o : Origin) : o.relabel id = o := by cases o <;> rfl
  have node : ModuleNode.relabel (.names f) = ModuleNode.map f := by
    funext m
    rw [ModuleNode.relabel, Relabeling.names, origin]
    rfl
  have catalog : h.catalog.relabel (.names f) = h.catalog.map f := by
    simp [Catalog.relabel, Catalog.map, LookupMap.map, LookupMap.mapKeys, Slot.relabel,
      Relabeling.names]
  simp only [relabel, Store.relabel, map, Store.map, node, catalog]
  rfl

theorem BuildError.relabel_names (f : ν → μ) (e : BuildError ν) :
    e.relabel (.names f) = e.map f := by
  cases e <;> rfl

theorem Dangling.relabel_names (f : ν → μ) (what : Dangling) :
    what.relabel (Relabeling.names f).op = what := by
  obtain ⟨space, i⟩ := what
  cases space <;> rfl

namespace Forest

variable (f : ν → μ) (F : Forest ν)

theorem definitions_map : (F.map f).definitions = F.definitions.map fun e => (e.1, e.2.map f) := by
  induction F with
  | nil => rfl
  | cons id op inner rest ihInner ihRest =>
    have like : (op.map f).payload.isModuleLike = op.payload.isModuleLike :=
      op.payload.isModuleLike_map f
    simp only [map, definitions, like, ihInner, ihRest]
    split <;> simp

theorem body_map : (F.map f).body = F.body.map fun e => (e.1, e.2.map f) := by
  induction F with
  | nil => rfl
  | cons id op inner rest ihInner ihRest =>
    have like : (op.map f).payload.isModuleLike = op.payload.isModuleLike :=
      op.payload.isModuleLike_map f
    simp only [map, body, like, ihInner, ihRest]
    split <;> simp

theorem isModuleLike_of_mem_definitions : ∀ e ∈ F.definitions, e.2.payload.isModuleLike = true := by
  induction F with
  | nil => simp [definitions]
  | cons id op inner rest ihInner ihRest =>
    intro e he
    rw [definitions] at he
    split at he
    · next like =>
      rcases List.mem_cons.1 he with rfl | he
      · exact like
      · exact ihRest e he
    · exact (List.mem_append.1 he).elim (ihInner e) (ihRest e)

end Forest

namespace Design

variable (f : ν → μ) (d : Design ν)

theorem forestOf_map (depth : Nat) (ids : List OpId) :
    (d.map f).forestOf depth ids = (d.forestOf depth ids).map f := by
  have ops (id : OpId) : (d.map f).ops[id.index]? = d.ops[id.index]?.map (·.map f) := by
    rw [Design.map, Array.getElem?_map]
  have opsOf : (d.map f).opsOf = d.opsOf := rfl
  have regions (op : Operation ν) : (op.map f).payload.regions = op.payload.regions :=
    op.payload.regions_map f
  induction depth generalizing ids with
  | zero => rfl
  | succ depth ih =>
    simp only [forestOf] at ih ⊢
    induction ids with
    | nil => rfl
    | cons id rest ihRest =>
      rw [List.foldr_cons, List.foldr_cons, ihRest, ops]
      cases d.ops[id.index]? with
      | none => rfl
      | some op => simp only [Option.map_some, regions, opsOf, ih, Forest.map]

theorem under_map (block : BlockId) : (d.map f).under block = (d.under block).map f :=
  forestOf_map f d d.blocks.size (d.opsOf block)

theorem portValue?_map (block : BlockId) (port : Port ν) :
    (d.map f).portValue? block (port.map f) = d.portValue? block port := by
  have ops (i : Nat) : (d.map f).ops[i]? = d.ops[i]?.map (·.map f) := by
    rw [Design.map, Array.getElem?_map]
  have output (op : Operation ν) : (op.map f).payload.output? = op.payload.output? := by
    cases payload : op.payload <;> simp [Operation.map, payload, Payload.map, Payload.output?]
  have outputs : (d.map f).outputsOf block = d.outputsOf block := by
    have blocks : (d.map f).blocks = d.blocks := rfl
    have last : (d.map f).terminator? block = d.terminator? block := by
      simp only [terminator?, blocks, ops, Option.bind_eq_bind, Option.bind_map,
        Function.comp_def, output]
    simp only [outputsOf, last, ops, Option.bind_eq_bind, Option.bind_map,
      Function.comp_def, output]
  rw [portValue?, outputs]
  rfl

theorem bodyOf_map (block : BlockId) :
    (d.map f).bodyOf block = (d.bodyOf block).map fun e => (e.1, e.2.map f) := by
  rw [bodyOf, under_map, Forest.body_map, bodyOf]

/-- Under other names, a body tells the same. -/
theorem told_map (block : BlockId) :
    List.Forall₂ (Entry.Alike (.names f)) (essence (d.bodyOf block))
      (essence ((d.map f).bodyOf block)) := by
  have other : (fun e : Entry μ => !e.2.payload.isOther) ∘ (fun e : Entry ν => (e.1, e.2.map f)) =
      fun e => !e.2.payload.isOther := by
    funext e
    cases payload : e.2.payload <;> simp [Operation.map, payload, Payload.map, Payload.isOther]
  rw [bodyOf_map, essence, essence, List.filter_map, other, List.forall₂_map_right_iff]
  exact List.forall₂_same.2 fun e _ => ⟨rfl, rfl, rfl, rfl⟩

/-- **Other names.** A design under other names agrees with itself. -/
theorem alike_map : d.Alike (.names f) (d.map f) where
  definitions := by
    have all : (d.map f).definitions = d.definitions.map fun e => (e.1, e.2.map f) := by
      rw [definitions, under_map, Forest.definitions_map, definitions]
    rw [all, List.forall₂_map_right_iff]
    refine List.forall₂_same.2 fun e he => ?_
    have like := Forest.isModuleLike_of_mem_definitions _ e he
    cases payload : e.2.payload with
    | module name ports block =>
      exact .module rfl payload (by simp [Operation.map, payload, Payload.map, Relabeling.names])
        ⟨portValue?_map f d block, told_map f d block⟩
    | externModule name ports =>
      exact .external rfl payload (by simp [Operation.map, payload, Payload.map, Relabeling.names])
    | _ => simp [payload, Payload.isModuleLike, Payload.symbol?] at like
  producers v := by
    have same : (d.map f).definingOp v = d.definingOp v := rfl
    rw [same]
    cases d.definingOp v <;> simp [Except.map, Relabeling.names]

end Design

section Fixed

variable {k : ν → ν}

namespace ParamValue

mutual

theorem map_fixed : (v : ParamValue ν) → (∀ n ∈ v.names, k n = n) → v.map k = v
  | .int _, _ | .bool _, _ => rfl
  | .str s, fixed => congrArg str (fixed s (List.mem_singleton_self s))
  | .array items, fixed => congrArg array (mapItems_fixed items fixed)
  | .dict entries, fixed => congrArg dict (mapEntries_fixed entries fixed)

theorem mapItems_fixed : (items : List (ParamValue ν)) → (∀ n ∈ namesOfItems items, k n = n) →
    mapItems k items = items
  | [], _ => rfl
  | v :: rest, fixed =>
    congrArg₂ List.cons (map_fixed v fun n hn => fixed n (List.mem_append_left _ hn))
      (mapItems_fixed rest fun n hn => fixed n (List.mem_append_right _ hn))

theorem mapEntries_fixed : (entries : List (ν × ParamValue ν)) →
    (∀ n ∈ namesOfEntries entries, k n = n) → mapEntries k entries = entries
  | [], _ => rfl
  | (key, v) :: rest, fixed =>
    congrArg₂ List.cons
      (congrArg₂ Prod.mk (fixed key List.mem_cons_self)
        (map_fixed v fun n hn => fixed n (List.mem_cons_of_mem _ (List.mem_append_left _ hn))))
      (mapEntries_fixed rest fun n hn =>
        fixed n (List.mem_cons_of_mem _ (List.mem_append_right _ hn)))

end

end ParamValue

theorem SourceLoc.map_fixed {l : SourceLoc ν} (fixed : k l.file = l.file) : l.map k = l := by
  rw [SourceLoc.map, fixed]

end Fixed

section Drafts

open Drafting

/-- The string was mentioned, or it is empty. -/
def Draft.Knows (s : Draft) (n : String) : Prop := n = "" ∨ n ∈ s.mentions.toList

/-- From one draft to the next, every name that is added was mentioned. -/
structure Draft.Mentions (s t : Draft) : Prop where
  grows : ∀ {n}, s.Knows n → t.Knows n
  names : ∀ {k : String → String}, (∀ n, t.Knows n → k n = n) → s.design.map k = s.design →
    t.design.map k = t.design

theorem Draft.Mentions.refl (s : Draft) : s.Mentions s := ⟨id, fun _ => id⟩

theorem Draft.Mentions.trans {s t u : Draft} (first : s.Mentions t) (next : t.Mentions u) :
    s.Mentions u :=
  ⟨next.grows ∘ first.grows, fun fixed here =>
    next.names fixed (first.names (fun n hn => fixed n (next.grows hn)) here)⟩

theorem Design.map_addOp (f : ν → μ) (d : Design ν) (b : BlockId) (loc : SourceLoc ν)
    (payload : Payload ν) (results : Nat) : (d.addOp b loc payload results).2.map f =
      ((d.map f).addOp b (loc.map f) (payload.map f) results).2 := by
  simp [addOp, addValues, map, Operation.map]

theorem Design.map_addOwner (f : ν → μ) (d : Design ν) (b : BlockId) (loc : SourceLoc ν)
    (payload : BlockId → Payload ν) (args : Nat) : (d.addOwner b loc payload args).2.map f =
      ((d.map f).addOwner b (loc.map f) (fun r => (payload r).map f) args).2 := by
  simp [addOwner, addOp, addValues, map, Operation.map]

theorem Drafting.note_mentions {ss : List String} {s t : Draft} (run : (note ss).run s = .ok () t) :
    s.Mentions t ∧ ∀ n ∈ ss, t.Knows n := by
  cases run
  refine ⟨⟨fun known => known.imp_right fun h => ?_, fun _ => id⟩, fun n hn => .inr ?_⟩
  · simp [h]
  · simp [hn]

theorem Drafting.addOp_mentions {block : BlockId} {loc : SourceLoc String}
    {payload : Payload String} {results : Nat} {label : Option String} {s t : Draft}
    (run : (addOp block loc payload results label).run s = .ok () t) (located : s.Knows loc.file)
    (named : ∀ {k : String → String}, (∀ n, s.Knows n → k n = n) → payload.map k = payload) :
    s.Mentions t := by
  have design := addOp_design run
  have mentions : t.mentions = s.mentions := by
    cases run
    dsimp only
    split <;> rfl
  have same (n : String) : t.Knows n ↔ s.Knows n := by rw [Draft.Knows, mentions, Draft.Knows]
  refine ⟨(same _).2, fun fixed here => ?_⟩
  have known n (hn : s.Knows n) := fixed n ((same n).2 hn)
  rw [design, Design.map_addOp, here, named known, SourceLoc.map_fixed (known _ located)]

theorem Drafting.addOwner_mentions {block region : BlockId} {loc : SourceLoc String}
    {payload : BlockId → Payload String} {args : Nat} {s t : Draft}
    (run : (addOwner block loc payload args).run s = .ok region t) (located : s.Knows loc.file)
    (named : ∀ {k : String → String}, (∀ n, s.Knows n → k n = n) →
      ∀ r, (payload r).map k = payload r) :
    s.Mentions t := by
  obtain ⟨_, design⟩ := addOwner_design run
  have mentions : t.mentions = s.mentions := by cases run; rfl
  have same (n : String) : t.Knows n ↔ s.Knows n := by rw [Draft.Knows, mentions, Draft.Knows]
  refine ⟨(same _).2, fun fixed here => ?_⟩
  have known n (hn : s.Knows n) := fixed n ((same n).2 hn)
  rw [design, Design.map_addOwner, here, funext (named known),
    SourceLoc.map_fixed (known _ located)]

/-- The names of the ports of a module's head are mentioned with it. -/
theorem PortDecl.number_fixed {k : String → String} {name : String} {ports : List PortDecl}
    (blank : k "" = "") (fixed : ∀ n ∈ mentions name ports, k n = n) (others outputs : Nat) :
    (numberFrom others outputs ports).map (·.map k) = numberFrom others outputs ports := by
  have ofPort (p : PortDecl) (hp : p ∈ ports) : k p.name = p.name :=
    fixed _ (List.mem_append_right _ (List.mem_cons_of_mem _ (List.mem_map_of_mem hp)))
  have ofFile (p : PortDecl) (hp : p ∈ ports) :
      (p.loc.getD .unknown).map k = p.loc.getD .unknown := by
    cases found : p.loc with
    | none => exact SourceLoc.map_fixed blank
    | some l =>
      refine SourceLoc.map_fixed
        (fixed _ (List.mem_append_left _ (List.mem_filterMap.2 ⟨p, hp, ?_⟩)))
      rw [found]
      rfl
  clear fixed
  induction ports generalizing others outputs with
  | nil => rfl
  | cons p rest ih =>
    have tail others outputs := ih others outputs (fun q hq => ofPort q (List.mem_cons_of_mem _ hq))
      (fun q hq => ofFile q (List.mem_cons_of_mem _ hq))
    have here (position : Nat) : Port.map k ⟨p.name, p.direction, position, p.loc.getD .unknown⟩ =
        ⟨p.name, p.direction, position, p.loc.getD .unknown⟩ := by
      rw [Port.map, ofPort p List.mem_cons_self, ofFile p List.mem_cons_self]
    simp only [numberFrom]
    split <;> rw [List.map_cons, here, tail]

/-- The names of the operation that a statement makes are mentioned by the statement. -/
theorem Leaf.payload_fixed {k : String → String} {inputs : List ValueId} {statement : Leaf}
    {s t : Draft} {payload : Payload String}
    (run : (statement.payload (read inputs)).run s = .ok payload t)
    (fixed : ∀ n ∈ statement.mentions, k n = n) : payload.map k = payload := by
  have optional {params : Option (ParamValue String)}
      (fixed : ∀ n ∈ (params.map (·.names)).getD [], k n = n) : params.map (·.map k) = params := by
    cases params with
    | none => rfl
    | some v => exact congrArg some (v.map_fixed fixed)
  cases statement with
  | inst name moduleName refs =>
    obtain ⟨values, u, _, last⟩ := run_bind_eq_ok.1 run
    cases last
    simp only [mentions, List.mem_cons, List.not_mem_nil, or_false, forall_eq_or_imp,
      forall_eq] at fixed
    simp only [Payload.map, fixed]
  | wire name refs | other name refs =>
    obtain ⟨values, u, _, last⟩ := run_bind_eq_ok.1 run
    cases last
    simp only [mentions, List.mem_cons, List.not_mem_nil, or_false, forall_eq] at fixed
    simp only [Payload.map, fixed]
  | output refs =>
    obtain ⟨values, u, _, last⟩ := run_bind_eq_ok.1 run
    cases last
    rfl
  | dbgVariable note =>
    obtain ⟨value, u, _, run⟩ := run_bind_eq_ok.1 run
    obtain ⟨scope, v, _, run⟩ := run_bind_eq_ok.1 run
    obtain ⟨enum, w, _, last⟩ := run_bind_eq_ok.1 run
    cases last
    simp only [mentions, List.cons_append, List.mem_cons, forall_eq_or_imp] at fixed
    obtain ⟨name, fixed⟩ := fixed
    have params := optional fun n hn => fixed n (List.mem_append_right _ hn)
    have typeName : note.typeName.map k = note.typeName := by
      cases found : note.typeName with
      | none => rfl
      | some n => exact congrArg some (fixed n (List.mem_append_left _ (by simp [found])))
    simp only [Payload.map, VariableNote.map, name, params, typeName]
  | dbgScope note =>
    obtain ⟨scope, u, hscope, last⟩ := run_bind_eq_ok.1 run
    cases last
    simp only [mentions, List.mem_cons, List.not_mem_nil, or_false, forall_eq_or_imp,
      forall_eq] at fixed
    simp only [Payload.map, ScopeNote.map, fixed]
  | moduleInfo typeName params =>
    cases run
    have params := optional fun n hn => fixed n (List.mem_append_left _ hn)
    simp only [Payload.map, params,
      fixed typeName (List.mem_append_right _ (List.mem_singleton_self _))]
  | enumDef note =>
    cases run
    simp only [mentions, List.mem_cons, forall_eq_or_imp] at fixed
    have variants : note.variants.map (fun v => (k v.1, v.2)) = note.variants := by
      conv_rhs => rw [← List.map_id note.variants]
      exact List.map_congr_left fun v hv => Prod.ext (fixed.2 _ (List.mem_map_of_mem hv)) rfl
    simp only [Payload.map, EnumNote.map, fixed.1, variants]

/-- What a place that is set leaves as the location is mentioned. -/
theorem knows_place {place : Option (SourceLoc String)} {t : Draft}
    (known : ∀ n ∈ placeMentions place, t.Knows n) : t.Knows (place.getD .unknown).file := by
  cases place with
  | none => exact .inl rfl
  | some l => exact known _ (List.mem_singleton_self _)

theorem Leaf.draft_mentions {level : Level} {label : Option String} {statement : Leaf} {s t : Draft}
    (located : s.Knows level.loc.file) (run : (statement.draft level label).run s = .ok () t) :
    s.Mentions t := by
  obtain ⟨payload, u, hread, run⟩ := run_bind_eq_ok.1 run
  obtain ⟨_, v, hnote, hadd⟩ := run_bind_eq_ok.1 run
  obtain ⟨rfl, _⟩ := Leaf.payload_spec hread
  obtain ⟨noted, known⟩ := note_mentions hnote
  exact noted.trans (addOp_mentions hadd (noted.grows located) fun fixed =>
    Leaf.payload_fixed hread fun n hn => fixed n (known n hn))

theorem Body.draft_mentions {body : Body} {level : Level} {s t : Draft}
    (located : s.Knows level.loc.file) (run : (body.draft level).run s = .ok () t) :
    s.Mentions t := by
  induction body generalizing level s t with
  | done => cases run; exact .refl s
  | loc place rest ih =>
    obtain ⟨_, u, hnote, hrest⟩ := run_bind_eq_ok.1 run
    obtain ⟨noted, known⟩ := note_mentions hnote
    exact noted.trans (ih (knows_place known) hrest)
  | mention text rest ih =>
    obtain ⟨_, u, hnote, hrest⟩ := run_bind_eq_ok.1 run
    obtain ⟨noted, _⟩ := note_mentions hnote
    exact noted.trans (ih (noted.grows located) hrest)
  | leaf label statement rest ih =>
    obtain ⟨_, u, hleaf, hrest⟩ := run_bind_eq_ok.1 run
    have here := Leaf.draft_mentions located hleaf
    exact here.trans (ih (here.grows located) hrest)
  | region name inner rest ihInner ihRest =>
    obtain ⟨_, u, hnote, run⟩ := run_bind_eq_ok.1 run
    obtain ⟨block, v, howner, run⟩ := run_bind_eq_ok.1 run
    obtain ⟨_, w, hinner, hrest⟩ := run_bind_eq_ok.1 run
    obtain ⟨noted, known⟩ := note_mentions hnote
    have owned := noted.trans (addOwner_mentions howner (noted.grows located) fun fixed r => by
      rw [Payload.map, fixed name (known name (List.mem_singleton_self name))])
    have inside := owned.trans (ihInner (by exact owned.grows located) hinner)
    exact inside.trans (ihRest (inside.grows located) hrest)

theorem Script.draft_mentions {script : Script} {block : BlockId} {loc last : SourceLoc String}
    {s t : Draft} (located : s.Knows loc.file) (run : (script.draft block loc).run s = .ok last t) :
    s.Mentions t ∧ t.Knows last.file := by
  induction script generalizing block loc last s t with
  | done => cases run; exact ⟨.refl s, located⟩
  | loc place rest ih =>
    obtain ⟨_, u, hnote, hrest⟩ := run_bind_eq_ok.1 run
    obtain ⟨noted, known⟩ := note_mentions hnote
    exact (ih (knows_place known) hrest).imp_left noted.trans
  | mention text rest ih =>
    obtain ⟨_, u, hnote, hrest⟩ := run_bind_eq_ok.1 run
    obtain ⟨noted, _⟩ := note_mentions hnote
    exact (ih (noted.grows located) hrest).imp_left noted.trans
  | module name ports body rest ih =>
    obtain ⟨_, u, hnote, run⟩ := run_bind_eq_ok.1 run
    obtain ⟨region, v, howner, run⟩ := run_bind_eq_ok.1 run
    obtain ⟨drafted, w, hget, run⟩ := run_bind_eq_ok.1 run
    obtain ⟨_, x, hbody, hrest⟩ := run_bind_eq_ok.1 run
    cases hget
    obtain ⟨noted, known⟩ := note_mentions hnote
    have owned := noted.trans (addOwner_mentions howner (noted.grows located) fun fixed r => by
      have named := fun n hn => fixed n (known n hn)
      rw [Payload.map, PortDecl.number, PortDecl.number_fixed (fixed _ (.inl rfl)) named,
        named name (List.mem_append_right _ List.mem_cons_self)])
    have inside := owned.trans (Body.draft_mentions (owned.grows located) hbody)
    exact (ih (inside.grows located) hrest).imp_left inside.trans
  | externModule name ports rest ih =>
    obtain ⟨_, u, hnote, run⟩ := run_bind_eq_ok.1 run
    obtain ⟨_, v, hadd, hrest⟩ := run_bind_eq_ok.1 run
    obtain ⟨noted, known⟩ := note_mentions hnote
    have added := noted.trans (addOp_mentions hadd (noted.grows located) fun fixed => by
      have named := fun n hn => fixed n (known n hn)
      rw [Payload.map, PortDecl.number, PortDecl.number_fixed (fixed _ (.inl rfl)) named,
        named name (List.mem_append_right _ List.mem_cons_self)])
    exact (ih (added.grows located) hrest).imp_left added.trans
  | container name inner rest ihInner ihRest =>
    obtain ⟨_, u, hnote, run⟩ := run_bind_eq_ok.1 run
    obtain ⟨region, v, howner, run⟩ := run_bind_eq_ok.1 run
    obtain ⟨after, w, hinner, hrest⟩ := run_bind_eq_ok.1 run
    obtain ⟨noted, known⟩ := note_mentions hnote
    have owned := noted.trans (addOwner_mentions howner (noted.grows located) fun fixed r => by
      rw [Payload.map, fixed name (known name (List.mem_singleton_self name))])
    obtain ⟨inner, stays⟩ := ihInner (owned.grows located) hinner
    exact (ihRest stays hrest).imp_left (owned.trans inner).trans

/-- **Names of a draft.** The names of a draft are the strings that its statements
mention, and the empty one. -/
theorem Script.run_fixed {script : Script} {last : SourceLoc String} {t : Draft}
    (run : script.run = .ok last t) {k : String → String} (fixed : ∀ n, t.Knows n → k n = n) :
    t.design.map k = t.design :=
  (Script.draft_mentions (.inl rfl) run).1.names fixed
    (by simp [Draft.empty, Design.empty, Design.map])

end Drafts

namespace NameTable

theorem addAll_strings (t : NameTable) (ss : List String) {s : String} :
    s ∈ (t.addAll ss).strings ↔ s ∈ t.strings ∨ s ∈ ss := by
  unfold addAll
  induction ss generalizing t with
  | nil => simp
  | cons r rest ih =>
    have added : s ∈ (t.add r).strings ↔ s ∈ t.strings ∨ s = r := by
      by_cases known : r ∈ t.strings
      · rw [add_of_mem known]
        exact ⟨.inl, fun h => h.elim id fun same => same ▸ known⟩
      · simp [strings_add_of_not_mem known]
    rw [List.foldl_cons, ih, added, List.mem_cons, or_assoc]

theorem knows_empty (t : NameTable) : "" ∈ t.strings := t.reserved.subset (by decide)

abbrev Known (t : NameTable) := { s : String // s ∈ t.strings }

/-- The string itself if the table knows it, and else the empty one. -/
def known (t : NameTable) (s : String) : t.Known :=
  if h : s ∈ t.strings then ⟨s, h⟩ else ⟨"", t.knows_empty⟩

theorem known_val {t : NameTable} {s : String} (h : s ∈ t.strings) : (t.known s).val = s := by
  rw [known, dif_pos h]

theorem textD_number {t : NameTable} {s : String} (h : s ∈ t.strings) :
    t.textD (t.number s) = s := by
  rw [textD, text_eq_ok_iff.1 (text_number h)]
  rfl

def numberKnown (t : NameTable) (s : t.Known) : Name := t.number s.val

theorem number_injective (t : NameTable) : Function.Injective t.numberKnown := by
  intro a b same
  have both := congrArg t.textD same
  rw [numberKnown, numberKnown, textD_number a.2, textD_number b.2] at both
  exact Subtype.ext both

theorem textD_comp_numberKnown (t : NameTable) : t.textD ∘ t.numberKnown = Subtype.val :=
  funext fun s => textD_number s.2

end NameTable

/-! ### Extractions read back -/

section Build

variable {script : Script} {known learned : NameTable} {d : Design Name}

/-- The design of a script and its draft are one design, whose names are strings of the table. -/
theorem Script.build_known (built : script.build known = (.ok d, learned)) :
    ∃ last t, script.run = .ok last t ∧ ∃ e : Design learned.Known,
      e.map Subtype.val = t.design ∧ e.map learned.numberKnown = d := by
  unfold build at built
  split at built
  · next last t run =>
    cases built
    have strings : (t.design.map (known.addAll t.mentions.toList).known).map Subtype.val =
        t.design := by
      rw [Design.map_map]
      refine Script.run_fixed run fun n hn => NameTable.known_val ?_
      rw [NameTable.addAll_strings]
      rcases hn with rfl | mentioned
      · exact .inl known.knows_empty
      · exact .inr mentioned
    refine ⟨last, t, run, _, strings, ?_⟩
    conv_rhs => rw [← strings]
    rw [Design.map_map, Design.map_map, Design.map_map]
    rfl
  · cases built

theorem Relabeling.names_comp (f : μ → κ) (g : ν → μ) : (names f).comp (names g) = names (f ∘ g) :=
  rfl

/-- **Names do not matter.** Read back as strings, what comes of a design
is what comes of its draft. -/
theorem Script.build_extract (built : script.build known = (.ok d, learned)) (options : Options) :
    ∃ last t, script.run = .ok last t ∧
      (d.extract options).relabel (.names learned.textD) = t.design.extract options := by
  obtain ⟨last, t, run, e, strings, numbers⟩ := Script.build_known built
  refine ⟨last, t, run, ?_⟩
  rw [← strings, ← numbers,
    (e.alike_map _).extract_eq (Relabeling.names_faithful learned.number_injective),
    (e.alike_map _).extract_eq (Relabeling.names_faithful Subtype.val_injective),
    Relabeling.extraction_twice, Relabeling.names_comp, learned.textD_comp_numberKnown]

/-- Read back as strings, the design of a script is its draft. -/
theorem Script.build_strings (built : script.build known = (.ok d, learned)) :
    ∃ last t, script.run = .ok last t ∧ d.map learned.textD = t.design := by
  obtain ⟨last, t, run, e, strings, numbers⟩ := Script.build_known built
  exact ⟨last, t, run, by rw [← strings, ← numbers, Design.map_map, learned.textD_comp_numberKnown]⟩

/-- A hierarchy that was extracted has numbers of strings for names. -/
theorem Script.build_hierarchy (built : script.build known = (.ok d, learned)) {options : Options}
    {h : Hierarchy Name} (extracted : (d.extract options).outcome = .ok h) :
    ∃ g : Hierarchy learned.Known, g.map learned.numberKnown = h := by
  obtain ⟨last, t, run, e, strings, numbers⟩ := Script.build_known built
  rw [← numbers, (e.alike_map _).extract_eq (Relabeling.names_faithful learned.number_injective),
    Extraction.relabel] at extracted
  cases outcome : (e.extract options).outcome with
  | error failure =>
    rw [outcome] at extracted
    cases extracted
  | ok g =>
    rw [outcome] at extracted
    cases extracted
    exact ⟨g, (Hierarchy.relabel_names _ g).symm⟩

end Build

def SourceType.names (t : SourceType ν) : List ν :=
  t.typeName.toList ++ (t.params.map (·.names)).getD []

def EnumDefinition.names (e : EnumDefinition ν) : List ν := e.name :: e.variants.toList.map (·.2)

def ModuleNode.names (m : ModuleNode ν) : List ν :=
  m.name :: (m.sourceType.map (·.names)).getD [] ++ m.enums.toList.flatMap (·.2.names)

def VariableNode.names (v : VariableNode ν) : List ν :=
  v.name :: v.loc.file :: (v.sourceType.map (·.names)).getD []

def Hierarchy.names (h : Hierarchy ν) : List ν :=
  h.store.modules.toList.flatMap (·.names) ++ h.store.insts.toList.map (·.name) ++
    h.store.vars.toList.flatMap (·.names)

section Names

variable (f : ν → μ)

namespace ParamValue

mutual

theorem names_map : (v : ParamValue ν) → (v.map f).names = v.names.map f
  | .int _ | .bool _ | .str _ => rfl
  | .array items => namesOfItems_map items
  | .dict entries => namesOfEntries_map entries

theorem namesOfItems_map : (items : List (ParamValue ν)) →
    namesOfItems (mapItems f items) = (namesOfItems items).map f
  | [] => rfl
  | v :: rest => by
    rw [mapItems, namesOfItems, namesOfItems, names_map v, namesOfItems_map rest, List.map_append]

theorem namesOfEntries_map : (entries : List (ν × ParamValue ν)) →
    namesOfEntries (mapEntries f entries) = (namesOfEntries entries).map f
  | [] => rfl
  | (k, v) :: rest => by
    rw [mapEntries, namesOfEntries, namesOfEntries, names_map v, namesOfEntries_map rest,
      List.map_append, List.map_cons]

end

end ParamValue

theorem SourceType.names_map (t : SourceType ν) : (t.map f).names = t.names.map f := by
  obtain ⟨typeName, params⟩ := t
  cases typeName <;> cases params <;> simp [SourceType.names, SourceType.map, ParamValue.names_map]

theorem EnumDefinition.names_map (e : EnumDefinition ν) : (e.map f).names = e.names.map f := by
  simp [EnumDefinition.names, EnumDefinition.map, SortedMap.map]

theorem sourceTypeNames_map (t : Option (SourceType ν)) :
    ((t.map (·.map f)).map (·.names)).getD [] = ((t.map (·.names)).getD []).map f := by
  cases t with
  | none => rfl
  | some t => exact t.names_map f

theorem ModuleNode.names_relabel (r : Relabeling ν μ) (m : ModuleNode ν) :
    (m.relabel r).names = m.names.map r.name := by
  simp only [ModuleNode.names, ModuleNode.relabel, ModuleNode.map,
    sourceTypeNames_map, SortedMap.map, List.flatMap_map, EnumDefinition.names_map, List.map_append,
    List.map_cons, List.map_flatMap]

theorem VariableNode.names_map (v : VariableNode ν) : (v.map f).names = v.names.map f := by
  simp only [VariableNode.names, VariableNode.map, sourceTypeNames_map,
    SourceLoc.map, List.map_cons]

theorem Hierarchy.names_relabel (r : Relabeling ν μ) (h : Hierarchy ν) :
    (h.relabel r).names = h.names.map r.name := by
  simp only [Hierarchy.names, Hierarchy.relabel, Store.relabel, Array.toList_map, List.flatMap_map,
    List.map_map, ModuleNode.names_relabel, VariableNode.names_map, List.map_append,
    List.map_flatMap]
  rfl

end Names

/-- **Names lead back.** Every name in a hierarchy that was extracted is the number of a string. -/
theorem Script.build_names {script : Script} {known learned : NameTable} {d : Design Name}
    (built : script.build known = (.ok d, learned)) {options : Options} {h : Hierarchy Name}
    (extracted : (d.extract options).outcome = .ok h) :
    ∀ n ∈ h.names, ∃ s, learned.text n = .ok s := by
  obtain ⟨g, rfl⟩ := Script.build_hierarchy built extracted
  rw [← Hierarchy.relabel_names, Hierarchy.names_relabel]
  intro n hn
  obtain ⟨s, _, rfl⟩ := List.mem_map.1 hn
  exact ⟨s.val, NameTable.text_number s.2⟩

/-- The table that knows the strings of a script besides the reserved ones. -/
def Script.names (script : Script) : NameTable := (script.build .fresh).2

/-- A script without a fault has a design. -/
theorem Script.build_fresh {script : Script}
    (fine : (script.build .fresh).1.toOption.isSome = true) :
    script.build .fresh = (.ok script.design, script.names) := by
  unfold design names
  cases built : script.build .fresh with
  | mk result learned =>
    rw [built] at fine
    cases result with
    | ok d => rfl
    | error fault => cases fine

end DebugHierarchy
