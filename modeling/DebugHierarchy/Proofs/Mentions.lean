import DebugHierarchy.Proofs.Permanence
import DebugHierarchy.Proofs.Reordering

/-!
Names in the order in which they are met.

A catalog takes a name in when it is met for the first time, and never again. An extraction meets a
name where a definition bears it, and where the body of a definition instantiates it. So the order
of a catalog can be read off the design: it is the order of first mentions.

* `Building.Meets`: a step meets names, in a certain order;
* `Building.all_meets`: an extraction meets the names that its design mentions;
* `catalog_ordered`: the catalog of a hierarchy lists these names, and no string finds any other.
-/

namespace DebugHierarchy

variable {ν α β : Type}

def Hierarchy.metNames (h : Hierarchy ν) : List ν := h.catalog.slots.entries.map (·.1)

def Event.Nameless : Event ν → Prop
  | .register .. => False
  | _ => True

theorem Event.Plain.nameless (e : Event ν) (plain : e.Plain) : e.Nameless := by
  cases e with
  | register => exact plain
  | _ => trivial

theorem Event.Tells.nameless {i : Nat} (e : Event ν) (tells : e.Tells i) : e.Nameless := by
  cases e with
  | register => exact tells
  | _ => trivial

theorem Hierarchy.metNames_apply (h : Hierarchy ν) {e : Event ν} (nameless : e.Nameless) :
    (h.apply e).metNames = h.metNames := by
  cases e with
  | register => exact nameless.elim
  | define => simp [metNames, apply, Catalog.define, LookupMap.map]
  | _ => rfl

theorem Hierarchy.metNames_register (h : Hierarchy ν) (id : ModuleId) (name : ν) :
    (h.apply (.register id name)).metNames = h.metNames ++ [name] := by
  simp [metNames, apply, Catalog.register, LookupMap.push]

theorem Hierarchy.mem_metNames [DecidableEq ν] {h : Hierarchy ν} {name : ν} :
    name ∈ h.metNames ↔ (h.find? name).isSome := by
  simp [metNames, find?, Catalog.find?, LookupMap.find?]

/-- What is not new adds nothing to a list without repeats, and what is new stands last. -/
theorem eraseDups_append_singleton [DecidableEq α] (l : List α) (a : α) :
    (l ++ [a]).eraseDups = if a ∈ l then l.eraseDups else l.eraseDups ++ [a] := by
  rw [List.eraseDups_append]
  by_cases known : a ∈ l <;> simp [List.removeAll, known, List.eraseDups_cons]

namespace Building

variable [DecidableEq ν]

/-- Where the step ends, it has met these names, in their order and after
those that were met before. -/
def Meets (names : List ν) (x : Building ν α) : Prop :=
  ∀ p seen, p.hierarchy.metNames = seen.eraseDups →
    Leaves x p fun _ q => q.hierarchy.metNames = (seen ++ names).eraseDups

namespace Meets

variable {names names' : List ν} {x : Building ν α} {f : α → Building ν β}

/-- A step that enters no name meets none. -/
theorem of_enters (enters : Enters Event.Nameless x) : Meets [] x := by
  intro p seen met a q run
  rw [List.append_nil, ← met]
  have goes := enters p a q run
  clear run
  induction goes with
  | refl => rfl
  | tail _ step ih =>
    obtain ⟨e, nameless, rfl⟩ := step
    rw [← ih]
    exact Hierarchy.metNames_apply _ nameless

/-- Of two steps in a row, the second one may rely on what is known of the value between them. -/
theorem bind_of {holds : α → Prop} (first : Meets names x)
    (value : ∀ p, Leaves x p fun a _ => holds a) (second : ∀ a, holds a → Meets names' (f a)) :
    Meets (names ++ names') (x >>= f) := by
  intro p seen met
  refine ((first p seen met).and (value p)).bind ?_
  rintro a q ⟨met', here⟩
  rw [← List.append_assoc]
  exact second a here q _ met'

theorem bind (first : Meets names x) (second : ∀ a, Meets names' (f a)) :
    Meets (names ++ names') (x >>= f) :=
  have known (p : Progress ν) : Leaves x p fun _ _ => True := fun _ _ _ => trivial
  first.bind_of known fun a _ => second a

theorem forM {f : α → Building ν PUnit} {names : α → List ν} {l : List α}
    (each : ∀ a ∈ l, Meets (names a) (f a)) :
    Meets (l.flatMap names) (ForM.forM l f) := by
  induction l with
  | nil => exact of_enters (.pure _)
  | cons a rest ih =>
    rw [List.forM_cons, List.flatMap_cons]
    exact (each a List.mem_cons_self).bind fun _ => ih fun b hb =>
      each b (List.mem_cons_of_mem _ hb)

end Meets

theorem moduleOf_meets (name : ν) : Meets [name] (moduleOf name) := by
  intro p seen met
  refine .get ?_
  have known : name ∈ seen ↔ (p.hierarchy.find? name).isSome := by
    rw [← Hierarchy.mem_metNames, met, List.mem_eraseDups]
  rw [eraseDups_append_singleton, ← met]
  cases found : p.hierarchy.find? name with
  | some id =>
    rw [found] at known
    exact .pure (by rw [if_pos (known.2 rfl)])
  | none =>
    rw [found] at known
    refine .get (.recorded (.pure ?_))
    rw [if_neg fun old => nomatch known.1 old]
    exact Hierarchy.metNames_register _ _ name

/-- A definition meets its own name. -/
theorem define_meets (name : ν) (kind : ModuleKind) (op : OpId) :
    Meets [name] (define name kind op) := by
  refine Meets.bind (moduleOf_meets name) fun id => Meets.of_enters ?_
  unfold definitionOf
  refine .get fun p => ?_
  cases p.hierarchy.catalog.definition? name with
  | none => exact .recorded trivial (.pure _)
  | some first =>
    dsimp only
    split
    · exact .reject _
    · exact .reject _

omit [DecidableEq ν] in
/-- A survey notes whether there are scopes. -/
theorem survey_presence (policy : InfoPolicy) (owner : ModuleId) (definition : OpId)
    (body : List (Entry ν)) (p : Progress ν) :
    Leaves (survey policy owner definition body) p fun s _ =>
      s.presence.insts = hasScope body := by
  have loop : Leaves (body.foldlM (surveyOp policy owner definition) {}) p fun s _ =>
      s.presence.insts = hasScope body := by
    refine .foldlM (fun part (s : Survey) _ => s.presence.insts = hasScope part) rfl ?_
    rintro part ⟨id, op⟩ s p _ noted
    have same (silent : op.payload.scope? = none) :
        s.presence.insts = hasScope (part ++ [(id, op)]) := by
      rw [noted, hasScope_append]
      simp [hasScope, silent]
    cases payload : op.payload with
    | dbgScope note =>
      simp only [surveyOp, payload]
      have entered : Leaves (addInline note.moduleName id owner) p fun _ _ => True :=
        fun _ _ _ => trivial
      refine entered.bind fun _ => .pure ?_
      rw [hasScope_append]
      simp [hasScope, payload, Payload.scope?]
    | moduleInfo typeName params =>
      have same := same (by rw [payload]; rfl)
      simp only [surveyOp, payload]
      split
      · split
        · exact .reject _
        · exact .recorded (.recorded (.pure same))
      · exact .recorded (.pure same)
    | enumDef note =>
      have same := same (by rw [payload]; rfl)
      simp only [surveyOp, payload]
      split
      · exact .recorded (.pure same)
      · exact .recorded (.pure same)
    | _ =>
      have same := same (by rw [payload]; rfl)
      simp only [surveyOp, payload]
      exact .pure same
  exact loop.bind fun noted => .recorded (.pure noted)

variable {d : Design ν}

/-- Filling in an operation meets the name that it instantiates, if the body has no scopes. -/
theorem fillOp_meets (policy : ScopePolicy) (s : Survey) (owner : ModuleId) (e : Entry ν) :
    Meets (if s.presence.insts then [] else e.2.payload.moduleName?.toList)
      (fillOp d policy s owner e) := by
  have silent (none : s.presence.insts = false → e.2.payload.moduleName? = none) :
      Meets (if s.presence.insts then [] else e.2.payload.moduleName?.toList)
        (fillOp d policy s owner e) := by
    have nothing : (if s.presence.insts then [] else e.2.payload.moduleName?.toList) = [] := by
      cases structural : s.presence.insts with
      | true => rfl
      | false => rw [none structural]; rfl
    rw [nothing]
    refine .of_enters (fillOp_enters Event.Plain.nameless policy
      fun structural name moduleName inputs inst => ?_)
    have := none structural
    rw [inst] at this
    cases this
  obtain ⟨id, op⟩ := e
  cases payload : op.payload with
  | inst name moduleName inputs =>
    by_cases present : s.presence.insts = true
    · refine payload ▸ silent fun structural => ?_
      rw [present] at structural
      cases structural
    · simp only [fillOp, payload, if_neg present]
      exact (moduleOf_meets moduleName).bind fun target =>
        .of_enters (addInstance_enters Event.Plain.nameless _ _ _)
  | _ => exact payload ▸ silent fun _ => by rw [payload]; rfl

/-- A body meets the names that it instantiates. -/
theorem body_meets {options : Options} {owner : ModuleId} {op : OpId} {ports : List (Port ν)}
    {block : BlockId} : Meets (mentionsIn (d.bodyOf block)) (do
      let s ← survey options.info owner op (d.bodyOf block)
      unless s.presence.vars do addPorts d owner op block ports
      forM (d.bodyOf block) (fillOp d options.scopes s owner)) := by
  have survey : Meets [] (survey options.info owner op (d.bodyOf block)) :=
    .of_enters (survey_enters Event.Plain.nameless (fun _ => Event.Tells.nameless _) _)
  refine survey.bind_of (survey_presence _ _ _ _) fun s noted => ?_
  have fill : Meets (mentionsIn (d.bodyOf block)) (forM (d.bodyOf block)
      (fillOp d options.scopes s owner)) := by
    have loop := Meets.forM fun e (_ : e ∈ d.bodyOf block) =>
      fillOp_meets (d := d) options.scopes s owner e
    rw [noted] at loop
    unfold mentionsIn
    cases scopes : hasScope (d.bodyOf block) with
    | true =>
      have none : (d.bodyOf block).flatMap (fun _ => ([] : List ν)) = [] := by simp
      simpa only [scopes, if_true, none] using loop
    | false => simpa [scopes, flatMap_toList] using loop
  split
  · exact fill
  · exact Meets.bind (.of_enters (addPorts_enters Event.Plain.nameless _ _ _)) fun _ => fill

end Building

/-- The names that a design mentions: of each definition its own name, and then those that its body
instantiates. -/
def Design.mentions (d : Design ν) : List ν :=
  d.definitions.flatMap fun e => e.2.payload.symbol?.toList ++ d.mentionsOf e

theorem Design.mem_mentions {d : Design ν} {n : ν} : n ∈ d.mentions ↔
    ∃ e ∈ d.definitions, e.2.payload.symbol? = some n ∨ n ∈ d.mentionsOf e := by
  simp [mentions]

/-- A name is not mentioned where no definition bears it and only bodies
with scopes instantiate it. -/
theorem Design.not_mem_mentions {d : Design ν} {n : ν}
    (unborn : ∀ e ∈ d.definitions, e.2.payload.symbol? ≠ some n)
    (hidden : ∀ e ∈ d.definitions, ∀ f ∈ d.bodyIn e, ∀ inst inputs, f.2.payload =
      .inst inst n inputs →
      hasScope (d.bodyIn e) = true) : n ∉ d.mentions := by
  rw [mem_mentions]
  rintro ⟨e, he, bears | instantiates⟩
  · exact unborn e he bears
  · obtain ⟨name, ports, block, payload, silent, f, hf, inst, inputs, here⟩ :=
      mem_mentionsOf.1 instantiates
    rw [← d.bodyIn_of_module payload] at silent hf
    rw [hidden e he f hf inst inputs here] at silent
    cases silent

namespace Building

variable [DecidableEq ν] {d : Design ν} {options : Options}

theorem collect_meets (e : Entry ν) :
    Meets (e.2.payload.symbol?.toList ++ d.mentionsOf e) (collect d options e) := by
  obtain ⟨id, op⟩ := e
  have comesUp {kind : ModuleKind} {name : ν} :
      Meets [] (record (.collect kind name id) : Building ν Unit) :=
    .of_enters (.record trivial)
  cases payload : op.payload with
  | module name ports block =>
    rw [Design.mentionsOf, d.bodyIn_of_module payload]
    simp only [collect, payload]
    exact comesUp.bind fun _ => (define_meets name .module id).bind fun owner => body_meets
  | externModule name ports =>
    have silent : d.mentionsOf (id, op) = [] := by
      simp [Design.mentionsOf, Design.bodyIn, payload, mentionsIn, hasScope]
    rw [silent]
    simp only [collect, payload]
    refine comesUp.bind fun _ => (define_meets name .external id).bind fun owner => .of_enters ?_
    exact .forM fun port _ => addVariable_enters Event.Plain.nameless _ _
  | _ =>
    have silent : d.mentionsOf (id, op) = [] := by
      simp [Design.mentionsOf, Design.bodyIn, payload, mentionsIn, hasScope]
    rw [silent]
    simp only [collect, payload]
    exact .of_enters (.pure _)

/-- **Mentions.** An extraction meets the names that its design mentions. -/
theorem all_meets : Meets d.mentions (all d options) := by
  have loop : Meets d.mentions (forM d.definitions (collect d options)) :=
    Meets.forM fun e _ => collect_meets e
  have last : Meets [] (do record (.built (← get).hierarchy.stats) : Building ν Unit) :=
    .of_enters (.get fun _ => .record trivial)
  have whole := loop.bind fun _ => last
  rwa [List.append_nil] at whole

end Building

/-- A finished catalog lists the names that the design mentions. -/
theorem Design.metNames_of_extract [DecidableEq ν] {d : Design ν} {options : Options}
    {h : Hierarchy ν} (extracted : (d.extract options).outcome = .ok h) :
    h.metNames = d.mentions.eraseDups := by
  unfold Design.extract at extracted
  cases run : (Building.all d options).run .start with
  | ok a q =>
    rw [run] at extracted
    cases extracted
    exact Building.all_meets .start [] rfl a q run
  | error failure q =>
    rw [run] at extracted
    cases extracted

/-! ### Finished catalogs -/

/-- A string finds the module of the name that it is the text of. -/
theorem Hierarchy.findText?_eq_some_iff {h : Hierarchy Name} {names : NameTable} {s : String}
    {id : ModuleId} :
    h.findText? names s = some id ↔ ∃ n, names.text n = .ok s ∧ h.find? n = some id := by
  rw [findText?, Option.bind_eq_some_iff]
  simp only [NameTable.find?_eq_some_iff]

/-- The modules of a catalog have the names that it lists. -/
theorem Catalogued.names_eq {h : Hierarchy ν} {f : Findings ν} (c : Catalogued h f) :
    h.modules.map (fun id => (·.name) <$> h.module id) = h.metNames.map .ok := by
  rw [Hierarchy.modules, c.order, List.map_map, Hierarchy.metNames, List.map_map]
  refine List.map_congr_left fun x hx => ?_
  obtain ⟨m, found, named, _⟩ := c.module_of_slot hx
  rw [Function.comp_apply, found, Function.comp_apply, ← named]
  rfl

/-- The catalog of a hierarchy is told by what its design mentions, and a string
finds what the catalog lists. -/
structure Catalogues (d : Design Name) (h : Hierarchy Name) (names : NameTable) : Prop where
  /-- The definitions are all operations that define a module, in the order of their handles. -/
  definitions : d.definitions = d.entries.filter (·.2.payload.isModuleLike)
  /-- One after the other the modules have the names that are mentioned, each
  where it is mentioned first. -/
  ordered : h.modules.map (fun id => (·.name) <$> h.module id) = d.mentions.eraseDups.map .ok
  /-- These names are numbers of strings. -/
  texts : ∀ n ∈ d.mentions, ∃ s, names.text n = .ok s
  /-- A string finds a module just where it is one of them. -/
  finds : ∀ s, (h.findText? names s).isSome ↔ ∃ n ∈ d.mentions, names.text n = .ok s
  /-- What it finds is the module of the catalog that has the string for its name. -/
  found : ∀ s id, h.findText? names s = some id ↔
    id ∈ h.modules ∧ ∃ m, h.module id = .ok m ∧ names.text m.name = .ok s
  /-- A name that no definition bears, and that only bodies with scopes instantiate, is not met;
  whether scopes bear it is of no account. -/
  unmet : ∀ n, (∀ e ∈ d.definitions, e.2.payload.symbol? ≠ some n) →
    (∀ e ∈ d.definitions, ∀ f ∈ d.bodyIn e, ∀ inst inputs, f.2.payload = .inst inst n inputs →
      hasScope (d.bodyIn e) = true) →
    h.find? n = none ∧ ∀ s, names.text n = .ok s → h.findText? names s = none

/-- **Catalogs in order.** The catalog of a hierarchy lists the names that its design
mentions, in the order of their first mentions. By no other string is a module found, whatever
else the table has learned since. -/
theorem catalog_ordered {script : Script} {known learned later : NameTable} {d : Design Name}
    (built : script.build known = (.ok d, learned)) {options : Options} {h : Hierarchy Name}
    (extracted : (d.extract options).outcome = .ok h) (grown : learned.Extends later) :
    Catalogues d h later := by
  have closed := Design.closed_of_extract extracted
  have met := Design.metNames_of_extract extracted
  obtain ⟨F, accounts, q, rfl, n, c, _⟩ :=
    Design.Scripted.collected ⟨script, known, learned, built⟩ extracted
  have registered := c.registered n closed
  have mentioned {n : Name} : (q.hierarchy.find? n).isSome ↔ n ∈ d.mentions := by
    rw [← Hierarchy.mem_metNames, met, List.mem_eraseDups]
  have finds (s : String) : (q.hierarchy.findText? later s).isSome ↔
      ∃ n ∈ d.mentions, later.text n = .ok s := by
    simp only [← mentioned, Option.isSome_iff_exists, Hierarchy.findText?_eq_some_iff]
    constructor
    · rintro ⟨id, n, text, found⟩
      exact ⟨n, ⟨id, found⟩, text⟩
    · rintro ⟨n, ⟨id, found⟩, text⟩
      exact ⟨id, n, text, found⟩
  refine ⟨n.definitions_eq, c.catalogued.names_eq.trans (by rw [met]), fun m hm => ?_, finds,
    fun s id => ?_, ?_⟩
  · rw [← List.mem_eraseDups, ← met] at hm
    obtain ⟨x, hx, rfl⟩ := List.mem_map.1 hm
    have text := (Script.build_knownIn built extracted).catalog x (by simpa using hx)
    exact text.imp fun _ => grown.text
  · rw [Hierarchy.findText?_eq_some_iff, registered.modules, mem_positions]
    simp only [registered.found, Array.getElem?_toList, ← Hierarchy.module_eq_ok_iff,
      Bool.not_eq_true']
    constructor
    · rintro ⟨_, text, m, there, named, rfl⟩
      exact ⟨⟨m, there, named⟩, m, there, text⟩
    · rintro ⟨⟨m, there, named⟩, m', there', text⟩
      cases there.symm.trans there'
      exact ⟨m.name, text, m, there, named, rfl⟩
  · intro m unborn hidden
    have absent : q.hierarchy.find? m = none :=
      Option.not_isSome_iff_eq_none.1 (mt mentioned.1 (Design.not_mem_mentions unborn hidden))
    refine ⟨absent, fun s text => ?_⟩
    rw [Hierarchy.findText?, NameTable.find?_eq_some_iff.2 text, Option.bind_some, absent]

/-- Modules that instantiate each other. Of the names in the body with a scope none is mentioned. -/
def firstMentions : Script :=
  .module "Top" []
    (.leaf none (.inst "u" "Late" []) <|
     .region "r" (.leaf none (.inst "v" "Ext" []) .done) <|
     .leaf none (.inst "w" "Late" []) .done) <|
  .module "Scoped" []
    (.leaf none (.inst "x" "Hidden" []) <|
     .leaf none (.dbgScope ⟨"s", "Level", none⟩) .done) <|
  .module "Late" [] (.leaf none (.inst "y" "Top" []) .done) <|
  .externModule "Ext" [] .done

theorem catalog_of_firstMentions :
    firstMentions.design.mentions.eraseDups = ["Top", "Late", "Ext",
      "Scoped"].map firstMentions.names.number ∧
      firstMentions.names.Extends (firstMentions.names.add "Later") ∧
      Catalogues firstMentions.design (firstMentions.design.hierarchy {})
        (firstMentions.names.add "Later") := by
  have built : firstMentions.build .fresh = (.ok firstMentions.design, firstMentions.names) :=
    Script.build_fresh (by decide +kernel)
  have extracted : (firstMentions.design.extract {}).outcome =
      .ok (firstMentions.design.hierarchy {}) := by
    decide +kernel
  have grown := firstMentions.names.extends_add "Later"
  exact ⟨by decide +kernel, grown, catalog_ordered built extracted grown⟩

end DebugHierarchy
