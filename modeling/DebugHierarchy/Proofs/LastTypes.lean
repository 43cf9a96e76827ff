import DebugHierarchy.Proofs.Agreeing
import DebugHierarchy.Proofs.Families

/-!
Modules whose type is annotated more than once.

Of several annotations of the type the last one counts, unless an extraction insists on one alone.
Where the last one counts, the others might as well not be there.

* `Design.LastInfo`: the annotation that counts;
* `Design.keepLast`: the edit that puts inert operations in the places of the others;
* `Nesting.outcome_keepLast`: to let the last one count is to keep that one alone.
-/

namespace DebugHierarchy

variable {ν : Type}

theorem Payload.isInfo_iff {p : Payload ν} :
    p.isInfo = true ↔ ∃ typeName params, p = .moduleInfo typeName params := by
  cases p <;> simp [isInfo]

namespace Design

variable (d : Design ν)

/-- The operation is the last annotation of the type in the body of its module. -/
def LastInfo (id : OpId) : Prop := ∃ e ∈ d.definitions, (infosOf (d.bodyIn e)).getLast? = some id

instance (id : OpId) : Decidable (d.LastInfo id) :=
  inferInstanceAs (Decidable (∃ e ∈ d.definitions, _))

/-- Puts an inert operation in the place of every annotation of a type but
the last one of its module. -/
def keepLast (inert : ν) : Edit ν := fun id op =>
  if op.payload.isInfo = true ∧ ¬ d.LastInfo id then
    { op with payload := .other inert [] [], results := [] }
  else op

variable {d}

/-- What does not tell an inert operation from an annotation of a type is the
same of an edited operation. -/
theorem keepLast_payload {inert : ν} {α : Type} (read : Payload ν → α)
    (same : ∀ typeName params, read (.other inert [] []) = read (.moduleInfo typeName params))
    (id : OpId) (op : Operation ν) : read (d.keepLast inert id op).payload = read op.payload := by
  unfold keepLast
  split
  · next replaced =>
    obtain ⟨typeName, params, payload⟩ := Payload.isInfo_iff.1 replaced.1
    rw [payload]
    exact same typeName params
  · rfl

theorem keepLast_quiet {inert : ν} : (d.keepLast inert).Quiet where
  regions := keepLast_payload Payload.regions fun _ _ => rfl
  output := keepLast_payload Payload.output? fun _ _ => rfl
  moduleLike := keepLast_payload Payload.isModuleLike fun _ _ => rfl
  module id op like := by
    apply if_neg
    rintro ⟨info, _⟩
    obtain ⟨_, _, payload⟩ := Payload.isInfo_iff.1 info
    rw [payload] at like
    cases like

end Design

/-- The last annotation of the type in the body of its module is the last one
in the body in which it is. -/
theorem Nesting.lastInfo_iff {d : Design ν} {F : Forest ν} (n : Nesting d F) {e f : Entry ν}
    (he : e ∈ d.definitions) (hf : f ∈ d.bodyIn e) : d.LastInfo f.1 ↔
      (infosOf (d.bodyIn e)).getLast? = some f.1 := by
  have user : f.1 ∈ (d.bodyIn e).map (·.1) := List.mem_map_of_mem hf
  constructor
  · rintro ⟨e', he', last⟩
    have inside : f.1 ∈ (d.bodyIn e').map (·.1) := by
      have listed := List.mem_of_getLast? last
      exact (List.filter_sublist.map _).subset listed
    cases n.home_unique he he' user inside
    exact last
  · intro last
    exact ⟨e, he, last⟩

namespace Store

variable (s : Store ν) (id : ModuleId)

theorem modifyModule_modifyModule (f g : ModuleNode ν → ModuleNode ν) :
    (s.modifyModule id f).modifyModule id g = s.modifyModule id fun m => g (f m) := by
  refine Store.ext (Array.ext_getElem? fun i => ?_) rfl rfl
  simp only [modifyModule, Array.getElem?_modify]
  split
  · rw [Option.map_map]
    rfl
  · rfl

theorem modifyModule_addModule {f : ModuleNode ν → ModuleNode ν} {m : ModuleNode ν}
    (fixed : f m = m) : (s.addModule m).modifyModule id f = (s.modifyModule id f).addModule m := by
  refine Store.ext (Array.ext_getElem? fun i => ?_) rfl rfl
  simp only [modifyModule, addModule, Array.getElem?_modify, Array.getElem?_push, Array.size_modify]
  by_cases last : i = s.modules.size
  · simp [last, fixed]
  · simp [last]

end Store

def Hierarchy.untyped (owner : ModuleId) : Sight ν := fun h => h.apply (.setInfo owner none)

namespace Hierarchy

variable (owner : ModuleId) (h : Hierarchy ν)

theorem untyped_setInfo (t : Option (SourceType ν)) :
    untyped owner (h.apply (.setInfo owner t)) = untyped owner h :=
  Hierarchy.ext (h.store.modifyModule_modifyModule owner _ _) rfl

/-- A type hides the one before. -/
theorem setInfo_untyped (t : Option (SourceType ν)) :
    (untyped owner h).apply (.setInfo owner t) = h.apply (.setInfo owner t) :=
  Hierarchy.ext (h.store.modifyModule_modifyModule owner _ _) rfl

theorem untyped_inlineModule (id : ModuleId) (name : ν) (scope : OpId) (parent : ModuleId) :
    untyped owner (h.apply (.inlineModule id name scope parent)) =
      (untyped owner h).apply (.inlineModule id name scope parent) :=
  Hierarchy.ext (h.store.modifyModule_addModule owner rfl) rfl

theorem untyped_setEnum (enum : EnumId) (e : EnumDefinition ν) :
    untyped owner (h.apply (.setEnum owner enum e)) =
      (untyped owner h).apply (.setEnum owner enum e) := by
  have enumFirst := h.store.modifyModule_modifyModule owner
    (fun m => { m with enums := m.enums.insert enum e }) fun m => { m with sourceType := none }
  have typeFirst := h.store.modifyModule_modifyModule owner
    (fun m => { m with sourceType := none }) fun m => { m with enums := m.enums.insert enum e }
  exact Hierarchy.ext (enumFirst.trans typeFirst.symm) rfl

theorem untyped_nextModule : (untyped owner h).store.nextModule = h.store.nextModule := by
  simp [untyped, apply, Store.modifyModule, Store.nextModule]

end Hierarchy

def Survey.untyped (s : Survey) : Survey := { s with info := none }

/-! ### Bodies read with the last annotation alone -/

namespace Building

section Infos

variable {owner : ModuleId} {definition : OpId} {s : Survey}

/-- An event that goes with the view. -/
theorem stable_untyped {e : Event ν}
    (goes : ∀ h : Hierarchy ν, Hierarchy.untyped owner (h.apply e) =
      (Hierarchy.untyped owner h).apply e)
    (h h' : Hierarchy ν) (same : Hierarchy.untyped owner h = Hierarchy.untyped owner h') :
    Hierarchy.untyped owner (h.apply e) = Hierarchy.untyped owner (h'.apply e) := by
  rw [goes, goes, same]

/-- Where no type is annotated, it is of no account that the types differ. -/
theorem surveyOp_untyped (policy policy' : InfoPolicy) {e : Entry ν}
    (other : e.2.payload.isInfo = false) :
    Agrees (Hierarchy.untyped owner) (Hierarchy.untyped owner) Survey.untyped
      (surveyOp policy owner definition s e) (surveyOp policy' owner definition s.untyped e) := by
  obtain ⟨user, op⟩ := e
  cases payload : op.payload with
  | dbgScope note =>
    have inline : Agrees (Hierarchy.untyped owner) (Hierarchy.untyped owner) id
        (addInline note.moduleName user owner) (addInline note.moduleName user owner) := by
      apply Agrees.get
      intro p q same
      have next : p.hierarchy.store.nextModule = q.hierarchy.store.nextModule := by
        rw [← Hierarchy.untyped_nextModule owner p.hierarchy, same, Hierarchy.untyped_nextModule]
      rw [next]
      exact .recorded (stable_untyped fun h => h.untyped_inlineModule owner _ _ _ _) (.pure _)
    simp only [surveyOp, payload]
    exact inline.bind fun _ => .pure _
  | moduleInfo typeName params => simp [payload, Payload.isInfo] at other
  | enumDef note =>
    simp only [surveyOp, payload]
    by_cases taken : s.enums.any (·.2 = note.id) = true
    · simp only [Survey.untyped, taken, if_true]
      exact .recorded (stable_untyped fun h => rfl) (.pure _)
    · simp only [Survey.untyped, taken]
      exact .recorded (stable_untyped fun h => h.untyped_setEnum owner _ _) (.pure _)
  | _ =>
    simp only [surveyOp, payload]
    exact .pure _

/-- An annotation of the type that is replaced later leaves no trace but the type itself. -/
theorem surveyOp_replaced {e e' : Entry ν} {inert : ν} (info : e.2.payload.isInfo = true)
    (replaced : e'.2.payload = .other inert [] []) :
    Agrees (Hierarchy.untyped owner) (Hierarchy.untyped owner) Survey.untyped
      (surveyOp .lastWins owner definition s e)
      (surveyOp .strict owner definition s.untyped e') := by
  obtain ⟨user, op⟩ := e
  obtain ⟨typeName, params, payload⟩ := Payload.isInfo_iff.1 info
  dsimp only at payload
  simp only [surveyOp, payload, replaced]
  cases s.info with
  | none =>
    exact .recorded_left (fun h => h.untyped_setInfo owner _) (.pure _)
  | some first =>
    apply Agrees.recorded_left fun h => rfl
    exact .recorded_left (fun h => h.untyped_setInfo owner _) (.pure _)

/-- The last annotation of the type tells it, whatever was told before. -/
theorem surveyOp_last {e : Entry ν} (info : e.2.payload.isInfo = true) :
    Agrees (Hierarchy.untyped owner) id id (surveyOp .lastWins owner definition s e)
      (surveyOp .strict owner definition s.untyped e) := by
  obtain ⟨user, op⟩ := e
  obtain ⟨typeName, params, payload⟩ := Payload.isInfo_iff.1 info
  dsimp only at payload
  simp only [surveyOp, payload, Survey.untyped]
  have told (t : Option (SourceType ν)) (h h' : Hierarchy ν)
      (same : Hierarchy.untyped owner h = Hierarchy.untyped owner h') :
      id (h.apply (.setInfo owner t)) = id (h'.apply (.setInfo owner t)) := by
    rw [id_eq, id_eq, ← h.setInfo_untyped owner, same, h'.setInfo_untyped owner]
  cases s.info with
  | none => exact .recorded (told _) (.pure _)
  | some first =>
    apply Agrees.recorded_left fun h => rfl
    exact .recorded (told _) (.pure _)

/-- Policies are of no account where no type is annotated. -/
theorem surveyOps_quiet {body : List (Entry ν)} (none : infosOf body = [])
    (policy policy' : InfoPolicy) (s : Survey) : body.foldlM (surveyOp policy owner definition) s =
      body.foldlM (surveyOp policy' owner definition) s := by
  induction body generalizing s with
  | nil => rfl
  | cons e rest ih =>
    have both : infosOf [e] ++ infosOf rest = [] := by rw [← infosOf_append]; exact none
    obtain ⟨here, later⟩ := List.append_eq_nil_iff.1 both
    have other : e.2.payload.isInfo = false := by
      cases info : e.2.payload.isInfo <;> simp [infosOf, info] at here ⊢
    rw [List.foldlM_cons, List.foldlM_cons, surveyOp_policy other policy policy']
    exact bind_congr fun t => ih later t

/-- An edit that replaces every annotation of the type but the last one. -/
structure KeepsLast (g : Edit ν) (last : Option OpId) (e : Entry ν) : Prop where
  replaced : e.2.payload.isInfo = true → last ≠ some e.1 →
    ∃ inert, (g.entry e).2.payload = .other inert [] []
  kept : (e.2.payload.isInfo = true → last = some e.1) → g.entry e = e

/-- Where no type is annotated, nothing is replaced. -/
theorem map_quiet {g : Edit ν} {body : List (Entry ν)} {last : Option OpId}
    (none : infosOf body = []) (keeps : ∀ e ∈ body, KeepsLast g last e) :
    body.map g.entry = body := by
  conv_rhs => rw [← List.map_id body]
  apply List.map_congr_left
  intro e he
  apply (keeps e he).kept
  intro info
  have listed : e.1 ∈ infosOf body := List.mem_map_of_mem (List.mem_filter.2 ⟨he, info⟩)
  rw [none] at listed
  cases listed

/-- Up to the last annotation of the type the types differ, and from then on nothing does. -/
theorem surveyOps_keepLast {g : Edit ν} {body : List (Entry ν)} {last : OpId}
    (distinct : (body.map (·.1)).Nodup) (found : (infosOf body).getLast? = some last)
    (keeps : ∀ e ∈ body, KeepsLast g (some last) e) (s : Survey) :
    Agrees (Hierarchy.untyped owner) id id (body.foldlM (surveyOp .lastWins owner definition) s)
      ((body.map g.entry).foldlM (surveyOp .strict owner definition) s.untyped) := by
  induction body generalizing s with
  | nil => cases found
  | cons e rest ih =>
    rw [List.map_cons, List.nodup_cons] at distinct
    have here := keeps e List.mem_cons_self
    have later := fun f (hf : f ∈ rest) => keeps f (List.mem_cons_of_mem _ hf)
    have infos : infosOf (e :: rest) = infosOf [e] ++ infosOf rest := infosOf_append [e] rest
    rw [List.map_cons, List.foldlM_cons, List.foldlM_cons]
    by_cases none : infosOf rest = []
    · rw [infos, none, List.append_nil] at found
      have info : e.2.payload.isInfo = true := by
        by_contra other
        simp [infosOf, other] at found
      have same : last = e.1 := by
        simp only [infosOf, List.filter_cons, info, if_true, List.filter_nil,
          List.map_cons, List.map_nil, List.getLast?_singleton, Option.some.injEq] at found
        exact found.symm
      rw [here.kept fun _ => congrArg some same, map_quiet none later]
      apply (surveyOp_last info).bind
      intro t
      rw [surveyOps_quiet none .strict .lastWins]
      exact surveyOps_same .lastWins owner definition t rest
    · have found' : (infosOf rest).getLast? = some last := by
        rwa [infos, List.getLast?_append_of_ne_nil _ none] at found
      have next := ih distinct.2 found' later
      by_cases info : e.2.payload.isInfo = true
      · have other : some last ≠ some e.1 := by
          intro same
          cases same
          have listed := List.mem_of_getLast? found'
          exact distinct.1 ((List.filter_sublist.map _).subset listed)
        obtain ⟨inert, replaced⟩ := here.replaced info other
        exact (surveyOp_replaced info replaced).bind next
      · rw [here.kept fun info' => absurd info' info]
        exact (surveyOp_untyped .lastWins .strict (by simpa using info)).bind next

/-- With the last annotation of the type alone, a strict survey finds what a lenient one does. -/
theorem survey_keepLast {g : Edit ν} {body : List (Entry ν)} (distinct : (body.map (·.1)).Nodup)
    (keeps : ∀ e ∈ body, KeepsLast g (infosOf body).getLast? e) :
    Same (survey .lastWins owner definition body)
      (survey .strict owner definition (body.map g.entry)) := by
  have loop : Same (body.foldlM (surveyOp .lastWins owner definition) {})
      ((body.map g.entry).foldlM (surveyOp .strict owner definition) {}) := by
    cases last : (infosOf body).getLast? with
    | none =>
      have none : infosOf body = [] := List.getLast?_eq_none_iff.1 last
      rw [map_quiet none keeps, surveyOps_quiet none .strict .lastWins]
      exact surveyOps_same .lastWins owner definition {} body
    | some last =>
      rw [last] at keeps
      intro p q same
      exact surveyOps_keepLast distinct last keeps {} p q (congrArg (Hierarchy.untyped owner) same)
  apply loop.bind
  intro s
  exact (record_same _).bind fun _ => .pure s

variable [DecidableEq ν] {d : Design ν}

/-- Filling a body in passes over annotations of the type. -/
theorem fillOp_keepLast {g : Edit ν} {last : Option OpId} {e : Entry ν} (keeps : KeepsLast g last e)
    (policy : ScopePolicy) :
    Same (fillOp d policy s owner e) (fillOp (d.edit g) policy s owner (g.entry e)) := by
  by_cases gone : e.2.payload.isInfo = true ∧ last ≠ some e.1
  · obtain ⟨info, other⟩ := gone
    obtain ⟨typeName, params, payload⟩ := Payload.isInfo_iff.1 info
    obtain ⟨inert, replaced⟩ := keeps.replaced info other
    simp only [fillOp, payload, replaced]
    exact .pure ()
  · rw [keeps.kept fun info => not_not.1 fun other => gone ⟨info, other⟩]
    exact fillOp_same d policy s owner e

end Infos

end Building

/-- To let the last annotation of a type count is to keep that one alone. -/
theorem Nesting.outcome_keepLast [DecidableEq ν] {d : Design ν} {F : Forest ν} (n : Nesting d F)
    (scopes : ScopePolicy) (inert : ν) :
    (d.extract { scopes, info := .lastWins }).outcome =
      ((d.edit (d.keepLast inert)).extract { scopes, info := .strict }).outcome := by
  apply Design.outcome_agrees (Design.keepLast_quiet.definitions d)
  intro e he name ports block payload
  have body : d.bodyIn e = d.bodyOf block := d.bodyIn_of_module payload
  have edited : (d.edit (d.keepLast inert)).bodyOf block =
      (d.bodyOf block).map (Edit.entry (d.keepLast inert)) :=
    Design.keepLast_quiet.bodyOf d block
  have keeps : ∀ f ∈ d.bodyIn e,
      Building.KeepsLast (d.keepLast inert) (infosOf (d.bodyIn e)).getLast? f := by
    intro f hf
    have last := n.lastInfo_iff he hf
    constructor
    · intro info other
      refine ⟨inert, ?_⟩
      rw [Edit.entry, Design.keepLast, if_pos ⟨info, fun here => other (last.1 here)⟩]
    · intro same
      rw [Edit.entry, Design.keepLast, if_neg fun gone => gone.2 (last.2 (same gone.1))]
  have distinct := n.body_ids_nodup he
  rw [body] at keeps distinct
  refine ⟨Design.keepLast_quiet.portValue? d block, ?_, ?_⟩
  · intro owner
    rw [edited]
    exact Building.survey_keepLast distinct keeps
  · intro s owner _
    rw [edited, List.forM_map]
    apply Agrees.forM
    intro f hf
    exact Building.fillOp_keepLast (keeps f hf) scopes

end DebugHierarchy
