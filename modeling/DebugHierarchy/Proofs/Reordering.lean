import DebugHierarchy.Proofs.Copies

/-!
Declarations in another order.

The order of declarations decides which handles everything gets, and whether a module is met by its
definition or by an instance of it first. No name and no view tells of either.

* `Nesting.problem_none`: a design is fine where no name is defined twice and every body is fine;
* `ToldBy`: what declarations tell of the hierarchy of their design, whatever their order;
* `declarations_commute`: declarations in another order have a hierarchy just where the first ones
  have, and both are seen alike.
-/

namespace DebugHierarchy

variable {ν μ : Type}

section Problems

variable [DecidableEq ν] {d : Design ν} {F : Forest ν} {options : Options}

theorem Design.earlier?_eq_none_iff {op : OpId} {name : ν} : d.earlier? op name = none ↔
    ∀ e ∈ d.entries, e.1 < op → e.2.payload.symbol? ≠ some name := by
  unfold earlier?
  cases found : d.entries.find? fun e => e.1 < op ∧ e.2.payload.symbol? = some name with
  | none => simpa using found
  | some e =>
    obtain ⟨before, named⟩ : e.1 < op ∧ e.2.payload.symbol? = some name := by
      simpa using List.find?_some found
    have some : (e.2.payload.moduleKind?.map (·, e.1)) ≠ none := by
      cases payload : e.2.payload <;> simp_all [Payload.symbol?, Payload.moduleKind?]
    rw [Option.bind_some]
    exact ⟨fun none => absurd none some,
      fun all => absurd named (all e (List.mem_of_find?_eq_some found) before)⟩

/-- No name is defined twice, just where no definition has a problem with its name. -/
theorem Nesting.names_distinct (n : Nesting d F) : (∀ e ∈ d.definitions, nameProblem d e = none) ↔
    (d.definitions.map (·.2.payload.symbol?)).Nodup := by
  have fine {e : Entry ν} (he : e ∈ d.definitions) : nameProblem d e = none ↔
      ∀ f ∈ d.definitions, f.1 < e.1 → f.2.payload.symbol? ≠ e.2.payload.symbol? := by
    rw [n.definitions_eq] at he ⊢
    obtain ⟨name, symbol⟩ := Option.isSome_iff_exists.1 (List.mem_filter.1 he).2
    obtain ⟨kind, kind_eq⟩ : ∃ kind, e.2.payload.moduleKind? = some kind := by
      cases payload : e.2.payload <;> simp_all [Payload.symbol?, Payload.moduleKind?]
    simp only [nameProblem, symbol, kind_eq, Option.map_eq_none_iff, Design.earlier?_eq_none_iff]
    refine ⟨fun all f hf => all f (List.mem_filter.1 hf).1, fun all f hf before same => ?_⟩
    refine all f (List.mem_filter.2 ⟨hf, ?_⟩) before same
    rw [Payload.isModuleLike, same]
    rfl
  rw [List.Nodup, List.pairwise_map]
  constructor
  · intro all
    exact n.definitions_ascending.imp_of_mem fun {a b} ha hb before =>
      (fine hb).1 (all b hb) a ha before
  · intro distinct e he
    refine (fine he).2 fun f hf before same => ?_
    have keys : (d.definitions.map (·.2.payload.symbol?)).Nodup := List.pairwise_map.2 distinct
    rw [List.inj_on_of_nodup_map keys hf he same] at before
    exact Nat.lt_irrefl _ before

/-- **Fine designs.** A design is fine where no name is defined twice and every body is fine. -/
theorem Nesting.problem_none (n : Nesting d F) : d.problem options = none ↔
    (d.definitions.map (·.2.payload.symbol?)).Nodup ∧
      ∀ e ∈ d.definitions, d.problemIn options e = none := by
  rw [Building.problem_eq n, List.findSome?_eq_none_iff, ← n.names_distinct, ← forall₂_and]
  exact forall₂_congr fun e _ => Option.or_eq_none_iff

/-- An extraction gives a hierarchy just where the design is fine, and
there all is told by accounts. -/
theorem Nesting.extracts (n : Nesting d F) (options : Options) :
    ((∃ h, (d.extract options).outcome = .ok h) ↔ d.problem options = none) ∧
      ∀ h, (d.extract options).outcome = .ok h → ∃ accounts q, q.hierarchy = h ∧
        Collected d accounts d.definitions q ∧ Noted d accounts q.hierarchy := by
  have settled := Building.all_settles_noted n options
  unfold Settles at settled
  unfold Design.extract
  cases run : (Building.all d options).run .start with
  | ok a q =>
    rw [run] at settled
    obtain ⟨none, accounts, told⟩ := settled
    refine ⟨⟨fun _ => none, fun _ => ⟨_, rfl⟩⟩, fun h same => ?_⟩
    cases same
    exact ⟨accounts, q, rfl, told⟩
  | error failure q =>
    rw [run] at settled
    refine ⟨⟨fun ⟨_, same⟩ => (nomatch same), fun none => ?_⟩, fun _ same => nomatch same⟩
    cases settled.symm.trans none

end Problems

/-- A definition instantiates a name where its body has an instance of it and no scopes. -/
theorem Design.mem_mentionsOf {d : Design ν} {e : Entry ν} {s : ν} : s ∈ d.mentionsOf e ↔
    ∃ name ports block, e.2.payload = .module name ports block ∧ hasScope (d.bodyOf block) = false ∧
      ∃ f ∈ d.bodyOf block, ∃ inst inputs, f.2.payload = .inst inst s inputs := by
  have instantiates (p : Payload ν) : p.moduleName? = some s ↔
      ∃ inst inputs, p = .inst inst s inputs := by
    cases p <;> simp [Payload.moduleName?, eq_comm]
  cases payload : e.2.payload with
  | module name ports block =>
    rw [mentionsOf, d.bodyIn_of_module payload, mentionsIn]
    cases silent : hasScope (d.bodyOf block) with
    | true => simp [silent]
    | false => simp [silent, instantiates]
  | _ => simp [mentionsOf, bodyIn, payload, mentionsIn, hasScope]

def Hierarchy.namesOf (h : Hierarchy ν) (ids : List ModuleId) : Set ν :=
  { n | ∃ id ∈ ids, ∃ m, h.module id = .ok m ∧ m.name = n }

section Names

variable [DecidableEq ν] {d : Design ν} {F : Forest ν} {accounts : List (Account ν)}
  {q : Progress ν} {h : Hierarchy ν} {s : ν}

theorem Registered.mem_modules (registered : Registered d h) :
    s ∈ h.namesOf h.modules ↔ (h.find? s).isSome := by
  rw [Option.isSome_iff_exists]
  simp only [Hierarchy.namesOf, Set.mem_ofPred_eq, registered.modules, mem_positions,
    registered.found, Array.getElem?_toList, Hierarchy.module_eq_ok_iff, Bool.not_eq_true']
  constructor
  · rintro ⟨id, ⟨m, there, named⟩, m', there', rfl⟩
    rw [there] at there'
    cases there'
    exact ⟨id, m, there, named, rfl⟩
  · rintro ⟨id, m, there, named, rfl⟩
    exact ⟨id, ⟨m, there, named⟩, m, there, rfl⟩

namespace Collected

variable (c : Collected d accounts d.definitions q)

include c

/-- Every definition has an account. -/
theorem exists_account {P : Entry ν → Prop} : (∃ a ∈ accounts, P a.entry) ↔
    ∃ e ∈ d.definitions, P e := by
  rw [← c.entries]
  simp

/-- The names that are met are those of definitions and those that definitions instantiate. -/
theorem found_iff (noted : Noted d accounts q.hierarchy) : (q.hierarchy.find? s).isSome ↔
    ∃ e ∈ d.definitions, e.2.payload.symbol? = some s ∨ s ∈ d.mentionsOf e := by
  rw [← c.exists_account]
  refine ⟨noted.named s, ?_⟩
  rintro ⟨a, ha, symbol | mentioned⟩
  · obtain ⟨name, symbol', found⟩ := c.known a ha
    rw [symbol] at symbol'
    cases symbol'
    rw [found]
    rfl
  · obtain ⟨name, ports, block, payload, silent, e, he, inst, inputs, instantiates⟩ :=
      Design.mem_mentionsOf.1 mentioned
    obtain ⟨target, found⟩ := c.met a ha payload silent e he instantiates
    rw [found]
    rfl

variable (n : Nesting d F) {a : Account ν}

include n

/-- An instance of a name, in a body without scopes, leads to the module of the name. -/
theorem placement_of_instance {b : Account ν} (hb : b ∈ accounts) {name : ν} {ports : List (Port ν)}
    {block : BlockId} (payload : b.entry.2.payload = .module name ports block)
    (silent : hasScope (d.bodyOf block) = false) {e : Entry ν} (he : e ∈ d.bodyOf block) {inst : ν}
    {inputs : List ValueId} (instantiates : e.2.payload = .inst inst s inputs) {id : ModuleId}
    (found : q.hierarchy.find? s = some id) :
    ⟨b.owner, ⟨inst, id, e.1⟩⟩ ∈ (b.findings d q.hierarchy.find?).insts := by
  have told : instantiated b.owner q.hierarchy.find? e = some ⟨b.owner, ⟨inst, id, e.1⟩⟩ :=
    instantiated_eq_some_iff.2 ⟨inst, s, inputs, id, instantiates, found, rfl⟩
  rw [c.insts_of_module n hb payload, bodyInsts, silent, if_neg Bool.false_ne_true]
  exact List.mem_filterMap.2 ⟨e, he, told⟩

/-- A defined module is instantiated just where a definition instantiates its name. -/
theorem isInstantiated_iff (ha : a ∈ accounts) (found : q.hierarchy.find? s = some a.owner) :
    q.hierarchy.isInstantiated a.owner = true ↔ ∃ e ∈ d.definitions, s ∈ d.mentionsOf e := by
  obtain ⟨label, kind, labelled⟩ := c.label_of_owner ha
  obtain ⟨m, there, _, origin⟩ := Hierarchy.module_of_labelAt labelled
  have named : (q.hierarchy.store.modules[a.owner.index]?).any (fun m => !m.isInline) = true := by
    rw [Hierarchy.module_eq_ok_iff.1 there]
    simp [ModuleNode.isInline, origin]
  have leads : q.hierarchy.store.insts.any (·.target = a.owner) = true ↔
      ∃ b ∈ accounts, ∃ p ∈ (b.findings d q.hierarchy.find?).insts, p.node.target = a.owner := by
    rw [← Array.any_toList, c.lists.insts, List.any_eq_true]
    simp only [List.mem_map, exists_exists_and_eq_and, decide_eq_true_eq, Findings.mem_gather_insts]
    constructor
    · rintro ⟨p, ⟨b, hb, told⟩, same⟩
      exact ⟨b, hb, p, told, same⟩
    · rintro ⟨b, hb, p, told, same⟩
      exact ⟨p, ⟨b, hb, told⟩, same⟩
  rw [Hierarchy.isInstantiated, named, Bool.and_true, leads, ← c.exists_account]
  refine exists_congr fun b => and_congr_right fun hb => ?_
  rw [Design.mem_mentionsOf]
  constructor
  · rintro ⟨p, told, same⟩
    cases payload : b.entry.2.payload with
    | module name ports block =>
      rw [c.insts_of_module n hb payload, bodyInsts] at told
      split at told
      · -- The instance of a scope leads to an inline module.
        obtain ⟨e, he, told⟩ := List.mem_filterMap.1 told
        obtain ⟨note, target, _, known, rfl⟩ := opened_eq_some_iff.1 told
        obtain ⟨_, _, inline⟩ := (c.inline?_eq_some_iff n).1 known
        rw [show target = a.owner from same, labelled] at inline
        cases inline
      · next silent =>
        obtain ⟨e, he, told⟩ := List.mem_filterMap.1 told
        obtain ⟨inst, moduleName, inputs, target, instantiates, known, rfl⟩ :=
          instantiated_eq_some_iff.1 told
        obtain ⟨_, label₁, _⟩ := c.labels.catalog.1 found
        obtain ⟨_, label₂, _⟩ := c.labels.catalog.1 known
        rw [show target = a.owner from same, label₁] at label₂
        cases label₂
        exact ⟨name, ports, block, rfl, Bool.of_not_eq_true silent, e, he, inst,
          inputs, instantiates⟩
    | _ => simp [Account.findings, payload, Findings.none] at told
  · rintro ⟨name, ports, block, payload, silent, e, he, inst, inputs, instantiates⟩
    exact ⟨_, c.placement_of_instance n hb payload silent he instantiates found, rfl⟩

variable (closed : Closed d q.hierarchy)

include closed

theorem mem_topLevel : s ∈ q.hierarchy.namesOf q.hierarchy.topLevel ↔
    ∃ e ∈ d.definitions, e.2.payload.symbol? = some s := by
  have registered := c.registered n closed
  rw [← c.exists_account, Hierarchy.namesOf, Set.mem_ofPred_eq, c.topLevel_eq]
  constructor
  · rintro ⟨id, hid, m, there, rfl⟩
    obtain ⟨a, ha, rfl⟩ := List.mem_map.1 hid
    obtain ⟨name, symbol, found⟩ := c.known a ha
    obtain ⟨m', there', _, rfl⟩ := (registered.found _ _).1 found
    rw [there] at there'
    cases there'
    exact ⟨a, ha, symbol⟩
  · rintro ⟨a, ha, symbol⟩
    obtain ⟨name, symbol', found⟩ := c.known a ha
    rw [symbol] at symbol'
    cases symbol'
    obtain ⟨m, there, _, named⟩ := (registered.found _ _).1 found
    exact ⟨a.owner, List.mem_map_of_mem ha, m, there, named⟩

/-- A module at the top is instantiated just where a definition instantiates its name. -/
theorem isInstantiated_of_topLevel {id : ModuleId} {m : ModuleNode ν}
    (hid : id ∈ q.hierarchy.topLevel) (there : q.hierarchy.module id = .ok m) :
    q.hierarchy.isInstantiated id = true ↔ ∃ e ∈ d.definitions, m.name ∈ d.mentionsOf e := by
  have registered := c.registered n closed
  obtain ⟨m', there', named, _⟩ := (registered.topLevel id).1 hid
  rw [there] at there'
  cases there'
  rw [c.topLevel_eq] at hid
  obtain ⟨a, ha, rfl⟩ := List.mem_map.1 hid
  exact c.isInstantiated_iff n ha ((registered.found _ _).2 ⟨m, there, named, rfl⟩)

theorem mem_roots : s ∈ q.hierarchy.namesOf q.hierarchy.roots ↔
    s ∈ q.hierarchy.namesOf q.hierarchy.topLevel ∧ ¬∃ e ∈ d.definitions, s ∈ d.mentionsOf e := by
  simp only [Hierarchy.namesOf, Set.mem_ofPred_eq, Hierarchy.roots, List.mem_filter,
    Bool.not_eq_true']
  constructor
  · rintro ⟨id, ⟨hid, free⟩, m, there, rfl⟩
    refine ⟨⟨id, hid, m, there, rfl⟩, fun mentioned => ?_⟩
    rw [(c.isInstantiated_of_topLevel n closed hid there).2 mentioned] at free
    cases free
  · rintro ⟨⟨id, hid, m, there, rfl⟩, free⟩
    have leads := c.isInstantiated_of_topLevel n closed hid there
    exact ⟨id, ⟨hid, Bool.of_not_eq_true fun yes => free (leads.1 yes)⟩, m, there, rfl⟩

end Collected

end Names

/-! ### Designs of declarations -/

theorem exists_of_forall₂ {A B : Type} {R : A → B → Prop} {l : List A} {l' : List B}
    (all : List.Forall₂ R l l') {a : A} (ha : a ∈ l) : ∃ b ∈ l', R a b := by
  induction all with
  | nil => cases ha
  | cons here _ ih =>
    rcases List.mem_cons.1 ha with rfl | ha
    · exact ⟨_, List.mem_cons_self, here⟩
    · obtain ⟨b, hb, same⟩ := ih ha
      exact ⟨b, List.mem_cons_of_mem _ hb, same⟩

/-- The definitions of a design are told by declarations, in their order. -/
structure Design.MadeOf (d : Design String) (items : List Declaration) : Prop where
  nesting : ∃ F, Nesting d F
  told : List.Forall₂ (fun D e => D.Told d e) items d.definitions

/-- Closed declarations meet no fault and make a design. -/
theorem Script.run_declarations {items : List Declaration} (closed : ∀ D ∈ items, D.Closed) :
    ∃ last t, (ofDeclarations items).run = .ok last t ∧ t.design.MadeOf items := by
  obtain ⟨last, t, F, run, adds, stand⟩ :=
    draft_declarations closed (s := .empty) Nat.zero_lt_one rfl .unknown
  obtain ⟨G, flat, adds'⟩ := run_adds run
  obtain rfl : G = F := adds'.under_top.symm.trans adds.under_top
  have n := adds.nesting flat
  refine ⟨last, t, run, ⟨_, n⟩, ?_⟩
  rw [Design.definitions, n.under_top, ← Forest.parts_map_fst, List.forall₂_map_right_iff,
    List.forall₂_iff_zip]
  obtain ⟨size, each⟩ := List.forall₂_iff_zip.1 stand
  exact ⟨size, fun both => (each both).told n (List.of_mem_zip both).2⟩

/-- What declarations tell of a hierarchy, whatever their order. -/
structure ToldBy (items : List Declaration) (d : Design String) (h : Hierarchy String) : Prop where
  modules : h.namesOf h.modules = { s | ∃ D ∈ items, D.name = s ∨ s ∈ D.mentions }
  topLevel : h.namesOf h.topLevel = { s | ∃ D ∈ items, D.name = s }
  roots : h.namesOf h.roots = { s | (∃ D ∈ items, D.name = s) ∧ ¬∃ D ∈ items, s ∈ D.mentions }
  /-- A declared module is seen as its declaration shows it. -/
  declared : ∀ D ∈ items, ∀ depth, (h.find? D.name).map (h.viewOf d depth) = some (D.shows depth)
  /-- Of a module that is only instantiated nothing is seen but its name. -/
  instantiated : ∀ s, (¬∃ D ∈ items, D.name = s) → ∀ depth, (h.find? s).map (h.viewOf d depth) =
    if ∃ D ∈ items, s ∈ D.mentions then some (.ofName s depth) else none

namespace Design.MadeOf

variable {d : Design String} {items : List Declaration} (made : d.MadeOf items)

include made

theorem definition_of_item {D : Declaration} (hD : D ∈ items) : ∃ e ∈ d.definitions, D.Told d e :=
  exists_of_forall₂ made.told hD

theorem exists_iff {P : Entry String → Prop} {Q : Declaration → Prop}
    (same : ∀ D e, D.Told d e → (P e ↔ Q D)) : (∃ e ∈ d.definitions, P e) ↔ ∃ D ∈ items, Q D := by
  constructor
  · rintro ⟨e, he, holds⟩
    obtain ⟨D, hD, told⟩ := exists_of_forall₂ made.told.flip he
    exact ⟨D, hD, (same D e told).1 holds⟩
  · rintro ⟨D, hD, holds⟩
    obtain ⟨e, he, told⟩ := made.definition_of_item hD
    exact ⟨e, he, (same D e told).2 holds⟩

theorem names_eq : (items.map (·.name)).map some = d.definitions.map (·.2.payload.symbol?) := by
  rw [← List.forall₂_eq_eq_eq, List.map_map, List.forall₂_map_left_iff, List.forall₂_map_right_iff]
  exact made.told.imp fun D e told => told.name.symm

/-- **Fine declarations.** Their design is fine where no two have one name
and the body of each is fine. -/
theorem problem_none {options : Options} : d.problem options = none ↔
    (items.map (·.name)).Nodup ∧ ∀ D ∈ items, D.Sound options := by
  obtain ⟨F, n⟩ := made.nesting
  have unsound : (∃ e ∈ d.definitions, d.problemIn options e ≠ none) ↔
      ∃ D ∈ items, ¬D.Sound options :=
    made.exists_iff fun D e told => not_congr (told.sound options)
  have sound : (∀ e ∈ d.definitions, d.problemIn options e = none) ↔
      ∀ D ∈ items, D.Sound options := by
    have := not_congr unsound
    push Not at this
    exact this
  rw [n.problem_none, ← made.names_eq, List.nodup_map_iff (Option.some_injective _), sound]

/-- **Declarations told.** What is seen of a hierarchy is told by the declarations of its design. -/
theorem toldBy {options : Options} {h : Hierarchy String}
    (extracted : (d.extract options).outcome = .ok h) :
    ToldBy items d h := by
  obtain ⟨F, n⟩ := made.nesting
  obtain ⟨accounts, q, rfl, c, noted⟩ := (n.extracts options).2 h extracted
  have closed := Design.closed_of_extract extracted
  have registered := c.registered n closed
  have declares (s : String) : (∃ e ∈ d.definitions, e.2.payload.symbol? = some s) ↔
      ∃ D ∈ items, D.name = s :=
    made.exists_iff fun D e told => by rw [told.name, Option.some.injEq]
  have instantiates (s : String) : (∃ e ∈ d.definitions, s ∈ d.mentionsOf e) ↔
      ∃ D ∈ items, s ∈ D.mentions :=
    made.exists_iff fun D e told => by rw [told.mentions]
  have topLevel (s : String) : s ∈ q.hierarchy.namesOf q.hierarchy.topLevel ↔
      ∃ D ∈ items, D.name = s :=
    (c.mem_topLevel n closed).trans (declares s)
  have found (s : String) : (q.hierarchy.find? s).isSome ↔ ∃ D ∈ items, D.name = s ∨
      s ∈ D.mentions :=
    (c.found_iff noted).trans (made.exists_iff fun D e told => by
      rw [told.name, Option.some.injEq, told.mentions])
  refine ⟨?_, ?_, ?_, ?_, ?_⟩
  · ext s
    rw [registered.mem_modules, found]
    rfl
  · ext s
    rw [topLevel]
    rfl
  · ext s
    rw [c.mem_roots n closed, topLevel, instantiates]
    rfl
  · intro D hD depth
    obtain ⟨a, ha, told⟩ : ∃ a ∈ accounts, D.Told d a.entry := by
      obtain ⟨e, he, told⟩ := made.definition_of_item hD
      exact c.exists_account.2 ⟨e, he, told⟩
    obtain ⟨name, symbol, known⟩ := c.known a ha
    rw [told.name] at symbol
    cases symbol
    rw [known, Option.map_some, c.viewOf_owner n ha noted closed, told.shows]
  · intro s undeclared depth
    cases known : q.hierarchy.find? s with
    | none =>
      rw [if_neg]
      · rfl
      · rintro ⟨D, hD, mentioned⟩
        have there := (found s).2 ⟨D, hD, .inr mentioned⟩
        rw [known] at there
        cases there
    | some id =>
      obtain ⟨m, there, named, rfl⟩ := (registered.found s id).1 known
      have undefined : m.op? = none := by
        by_contra made
        have listed := (registered.topLevel id).2 ⟨m, there, named,
            Option.isSome_iff_ne_none.2 made⟩
        exact undeclared ((topLevel m.name).1 ⟨id, listed, m, there, rfl⟩)
      obtain ⟨D, hD, declared | mentioned⟩ := (found m.name).1 (by rw [known]; rfl)
      · exact absurd ⟨D, hD, declared⟩ undeclared
      · rw [if_pos ⟨D, hD, mentioned⟩, Option.map_some,
          registered.viewOf_referenced there named undefined]

end Design.MadeOf

namespace ToldBy

variable {items items' : List Declaration} {d d' : Design String} {h h' : Hierarchy String}

/-- The order of declarations tells nothing. -/
theorem of_perm (told : ToldBy items d h) (perm : items.Perm items') : ToldBy items' d h where
  modules := by simp only [told.modules, perm.mem_iff]
  topLevel := by simp only [told.topLevel, perm.mem_iff]
  roots := by simp only [told.roots, perm.mem_iff]
  declared D hD := told.declared D (perm.mem_iff.2 hD)
  instantiated s undeclared depth := by
    simp only [← perm.mem_iff] at undeclared ⊢
    exact told.instantiated s undeclared depth

/-- Hierarchies that the same declarations tell are seen alike. -/
theorem view_eq (told : ToldBy items d h) (told' : ToldBy items d' h') (s : String) (depth : Nat) :
    (h.find? s).map (h.viewOf d depth) = (h'.find? s).map (h'.viewOf d' depth) := by
  by_cases declared : ∃ D ∈ items, D.name = s
  · obtain ⟨D, hD, rfl⟩ := declared
    rw [told.declared D hD, told'.declared D hD]
  · rw [told.instantiated s declared, told'.instantiated s declared]

end ToldBy

namespace Hierarchy

variable (f : ν → μ) (h : Hierarchy ν)

theorem modules_map : (h.map f).modules = h.modules := rfl

theorem roots_map : (h.map f).roots = h.roots := by
  have leads (id : ModuleId) : (h.map f).isInstantiated id = h.isInstantiated id := by
    simp [isInstantiated, map, Store.map, InstanceNode.map, Option.any_map, ModuleNode.map,
      ModuleNode.isInline]
  simp only [roots, leads]
  rfl

theorem namesOf_map (ids : List ModuleId) :
    (h.map f).namesOf ids = { s | ∃ id ∈ ids, ∃ m, h.module id = .ok m ∧ f m.name = s } := by
  ext s
  simp only [namesOf, Set.mem_ofPred_eq, module_eq_ok_iff]
  refine exists_congr fun id => and_congr_right fun _ => ?_
  simp only [map, Store.map, Array.getElem?_map, Option.map_eq_some_iff, exists_exists_and_eq_and]
  rfl

def texts (names : NameTable) (h : Hierarchy Name) (ids : List ModuleId) : Set String :=
  { s | ∃ id ∈ ids, ∃ m, h.module id = .ok m ∧ names.textD m.name = s }

/-- The view of the module of a string, all names read as strings. -/
def viewText? (names : NameTable) (d : Design Name) (h : Hierarchy Name) (depth : Nat)
    (s : String) :
    Option (View String) :=
  (h.findText? names s).map ((h.map names.textD).viewOf (d.map names.textD) depth)

end Hierarchy

/-- Two hierarchies are seen alike by a reader who reads names as strings. -/
structure SeenAlike (names names' : NameTable) (d d' : Design Name) (h h' : Hierarchy Name) :
    Prop where
  modules : h.texts names h.modules = h'.texts names' h'.modules
  topLevel : h.texts names h.topLevel = h'.texts names' h'.topLevel
  roots : h.texts names h.roots = h'.texts names' h'.roots
  views : ∀ s depth, h.viewText? names d depth s = h'.viewText? names' d' depth s

namespace Script

variable {script : Script} {known learned : NameTable} {d : Design Name} {options : Options}
  {h : Hierarchy Name}

/-- A string is looked up in an extracted hierarchy as in the hierarchy read as strings. -/
theorem findText_eq (built : script.build known = (.ok d, learned))
    (extracted : (d.extract options).outcome = .ok h) (s : String) :
    h.findText? learned s = (h.map learned.textD).find? s := by
  obtain ⟨g, rfl⟩ := build_hierarchy built extracted
  rw [← Hierarchy.relabel_names, ← Hierarchy.relabel_names, Relabeling.hierarchy_twice,
    Relabeling.names_comp, learned.textD_comp_numberKnown, Hierarchy.findText?]
  cases found : learned.find? s with
  | some n =>
    have text := NameTable.find?_eq_some_iff.1 found
    have inside : s ∈ learned.strings :=
      NameTable.find?_isSome_iff.1 (Option.isSome_of_eq_some found)
    obtain rfl : learned.number s = n := NameTable.number_of_text text
    have number := g.relabel_find? (.names learned.numberKnown)
      (Relabeling.names_faithful learned.number_injective) ⟨s, inside⟩
    have text := g.relabel_find? (.names Subtype.val)
      (Relabeling.names_faithful Subtype.val_injective) (⟨s, inside⟩ : learned.Known)
    exact number.trans text.symm
  | none =>
    have outside : s ∉ learned.strings := learned.inverse.find?_eq_none_iff.1 found
    symm
    rw [Option.bind_none, Hierarchy.find?, Catalog.find?, Option.map_eq_none_iff,
      Option.eq_none_iff_forall_ne_some]
    intro slot there
    obtain ⟨x, _, same⟩ := List.mem_map.1 (LookupMap.mem_of_find? there)
    have named : x.1.val = s := congrArg Prod.fst same
    exact outside (named ▸ x.1.2)

/-- A hierarchy extracted from the design of a script, read as strings, is one of its draft. -/
theorem extract_strings {last : SourceLoc String} {t : Draft}
    (built : script.build known = (.ok d, learned)) (run : script.run = .ok last t)
    (options : Options) : d.map learned.textD = t.design ∧
      ((∃ h, (d.extract options).outcome = .ok h) ↔
        ∃ h, (t.design.extract options).outcome = .ok h) ∧
        ∀ h, (d.extract options).outcome = .ok h →
          (t.design.extract options).outcome = .ok (h.map learned.textD) := by
  obtain ⟨_, _, run', strings⟩ := build_strings built
  cases run.symm.trans run'
  obtain ⟨_, _, run', read⟩ := build_extract built options
  cases run.symm.trans run'
  refine ⟨strings, ?_⟩
  rw [← read, Extraction.relabel]
  cases (d.extract options).outcome with
  | ok h =>
    refine ⟨⟨fun _ => ⟨_, rfl⟩, fun _ => ⟨_, rfl⟩⟩, fun h' same => ?_⟩
    cases same
    exact congrArg Except.ok (Hierarchy.relabel_names _ h)
  | error failure => simp

end Script

/-- Closed declarations make a design that has a hierarchy just where no two of them have one name
and the body of each is fine, and they tell what is seen of it. -/
theorem Script.build_declarations {items : List Declaration} (closed : ∀ D ∈ items, D.Closed)
    (known : NameTable) :
    ∃ d learned, (ofDeclarations items).build known = (.ok d, learned) ∧ ∀ options,
      ((∃ h, (d.extract options).outcome = .ok h) ↔
        (items.map (·.name)).Nodup ∧ ∀ D ∈ items, D.Sound options) ∧
      ∀ h, (d.extract options).outcome = .ok h →
        (∀ s, h.findText? learned s = (h.map learned.textD).find? s) ∧
          ToldBy items (d.map learned.textD) (h.map learned.textD) := by
  obtain ⟨last, t, run, made⟩ := run_declarations closed
  obtain ⟨F, n⟩ := made.nesting
  obtain ⟨d, learned, built⟩ : ∃ d learned, (ofDeclarations items).build known = (.ok d, learned) :=
    ⟨_, _, by rw [build, run]⟩
  refine ⟨d, learned, built, fun options => ?_⟩
  obtain ⟨strings, alike, extracts⟩ := extract_strings built run options
  rw [alike, (n.extracts options).1, made.problem_none]
  refine ⟨Iff.rfl, fun h extracted => ⟨findText_eq built extracted, ?_⟩⟩
  rw [strings]
  exact made.toldBy (extracts h extracted)

/-- **Declarations commute.** Let every declaration of a list refer to nothing outside itself, and
put the list into any order. Both lists make a design, under every option both designs have a
hierarchy or neither has, and where they have one the same strings name its modules, its defined
modules and its roots, and the module of each string is seen alike, to any depth. -/
theorem declarations_commute {items items' : List Declaration} (closed : ∀ D ∈ items, D.Closed)
    (perm : items.Perm items') (known known' : NameTable) :
    ∃ d learned d' learned', (Script.ofDeclarations items).build known = (.ok d, learned) ∧
      (Script.ofDeclarations items').build known' = (.ok d', learned') ∧ ∀ options,
        ((∃ h, (d.extract options).outcome = .ok h) ↔ ∃ h', (d'.extract options).outcome = .ok h') ∧
        ∀ h h', (d.extract options).outcome = .ok h → (d'.extract options).outcome = .ok h' →
          SeenAlike learned learned' d d' h h' := by
  obtain ⟨d, learned, built, each⟩ := Script.build_declarations closed known
  obtain ⟨d', learned', built', each'⟩ :=
    Script.build_declarations (fun D hD => closed D (perm.mem_iff.2 hD)) known'
  refine ⟨d, learned, d', learned', built, built',
    fun options => ⟨?_, fun h h' extracted extracted' => ?_⟩⟩
  · rw [(each options).1, (each' options).1, (perm.map _).nodup_iff]
    simp only [perm.mem_iff]
  · obtain ⟨found, told⟩ := (each options).2 h extracted
    obtain ⟨found', told'⟩ := (each' options).2 h' extracted'
    have told := told.of_perm perm
    have modules := told.modules.trans told'.modules.symm
    have topLevel := told.topLevel.trans told'.topLevel.symm
    have roots := told.roots.trans told'.roots.symm
    rw [Hierarchy.modules_map, Hierarchy.modules_map, Hierarchy.namesOf_map,
      Hierarchy.namesOf_map] at modules
    rw [Hierarchy.namesOf_map, Hierarchy.namesOf_map] at topLevel
    rw [Hierarchy.roots_map, Hierarchy.roots_map, Hierarchy.namesOf_map,
      Hierarchy.namesOf_map] at roots
    refine ⟨modules, topLevel, roots, fun s depth => ?_⟩
    rw [Hierarchy.viewText?, Hierarchy.viewText?, found, found']
    exact told.view_eq told' s depth

/-- A module with an instance of one that is declared after it, this one with an inner
level, and an extern module. -/
def forwardInstance : List Declaration :=
  [⟨some ⟨"top.sv", 1, 1⟩, "Top", [⟨.input, "a", none⟩, ⟨.output, "y", none⟩],
      some (.leaf (some "w") (.wire "w" (some (.input 0))) <|
        .leaf none (.inst "u" "Leaf" [.label "w"]) <|
        .leaf none (.output [.label "w"]) .done)⟩,
    ⟨some ⟨"leaf.sv", 1, 1⟩, "Leaf", [⟨.input, "a", none⟩],
      some (.leaf (some "s") (.dbgScope ⟨"s", "Level", none⟩) <|
        .leaf none (.dbgVariable ⟨"v", .input 0, some (.label "s"), none, none, none⟩) .done)⟩,
    ⟨none, "Ext", [⟨.input, "a", none⟩], none⟩]

theorem forwardInstance_closed : ∀ D ∈ forwardInstance, D.Closed := by
  simp [forwardInstance, Declaration.Closed, Body.Closed, Leaf.refs, Ref.Closed,
    Leaf.binds, Leaf.results, PortDecl.argCount, Direction.isOutput]

theorem declarations_commute_forwardInstance :
    (∀ D ∈ forwardInstance, D.Closed) ∧ forwardInstance.Perm forwardInstance.reverse ∧
      SeenAlike (Script.ofDeclarations forwardInstance).names
        (Script.ofDeclarations forwardInstance.reverse).names
        (Script.ofDeclarations forwardInstance).design
          (Script.ofDeclarations forwardInstance.reverse).design
        ((Script.ofDeclarations forwardInstance).design.hierarchy {})
        ((Script.ofDeclarations forwardInstance.reverse).design.hierarchy {}) := by
  have perm : forwardInstance.Perm forwardInstance.reverse := (List.reverse_perm _).symm
  let first := Script.ofDeclarations forwardInstance
  let second := Script.ofDeclarations forwardInstance.reverse
  have built : first.build .fresh = (.ok first.design, first.names) :=
    Script.build_fresh (by decide +kernel)
  have built' : second.build .fresh = (.ok second.design, second.names) :=
    Script.build_fresh (by decide +kernel)
  refine ⟨forwardInstance_closed, perm, ?_⟩
  obtain ⟨d, learned, d', learned', here, there, alike⟩ :=
    declarations_commute forwardInstance_closed perm .fresh .fresh
  rw [built, Prod.mk.injEq, Except.ok.injEq] at here
  rw [built', Prod.mk.injEq, Except.ok.injEq] at there
  obtain ⟨rfl, rfl⟩ := here
  obtain ⟨rfl, rfl⟩ := there
  exact (alike {}).2 _ _ (by decide +kernel) (by decide +kernel)

end DebugHierarchy
