import DebugHierarchy.Proofs.LastTypes
import DebugHierarchy.Proofs.LooseScopes

/-!
What lenient options do.

Lenient options repair a design before its extraction, and that is all they do. Where there is
nothing to repair they change nothing.

* `Design.outcome_of_laxer`: where a strict extraction succeeds, a lenient one gives the same;
* `lenience_repairs`: a lenient extraction is a strict one of the repaired design.
-/

namespace DebugHierarchy

variable {ν : Type}

/-- Where the first step ends, the second one does the same. -/
def Follows {α : Type} (x y : Building ν α) : Prop := ∀ p a q, x.run p = .ok a q → y.run p = .ok a q

namespace Follows

variable {α β : Type} {x y : Building ν α} {f g : α → Building ν β}

theorem refl (x : Building ν α) : Follows x x := fun _ _ _ => id

theorem reject (error : BuildError ν) (y : Building ν α) : Follows (Building.reject error) y :=
  nofun

theorem reject_bind (error : BuildError ν) (f : α → Building ν β) (y : Building ν β) :
    Follows (Building.reject error >>= f) y := nofun

theorem bind (first : Follows x y) (next : ∀ a, Follows (f a) (g a)) :
    Follows (x >>= f) (y >>= g) := by
  intro p b r run
  rw [EStateM.run_bind] at run ⊢
  cases here : x.run p with
  | ok a q =>
    rw [here] at run
    rw [first p a q here]
    exact next a q b r run
  | error failure q =>
    rw [here] at run
    cases run

theorem foldlM {f g : β → α → Building ν β} (step : ∀ b a, Follows (f b a) (g b a)) (l : List α)
    (b : β) : Follows (l.foldlM f b) (l.foldlM g b) := by
  induction l generalizing b with
  | nil => exact refl _
  | cons a rest ih =>
    rw [List.foldlM_cons, List.foldlM_cons]
    exact (step b a).bind fun b' => ih b'

theorem forM {f g : α → Building ν PUnit} (step : ∀ a, Follows (f a) (g a)) (l : List α) :
    Follows (ForM.forM l f) (ForM.forM l g) := by
  rw [Settles.forM_eq_foldlM, Settles.forM_eq_foldlM]
  exact foldlM (fun _ a => step a) l PUnit.unit

end Follows

structure Options.Laxer (strict lax : Options) : Prop where
  scopes : lax.scopes = strict.scopes ∨ lax.scopes = .enclosing
  info : lax.info = strict.info ∨ lax.info = .lastWins

namespace Building

/-- Where a survey finds one annotation of the type at most, it does not
matter that it insists on it. -/
theorem surveyOp_follows {policy policy' : InfoPolicy}
    (laxer : policy' = policy ∨ policy' = .lastWins) (owner : ModuleId) (definition : OpId)
    (s : Survey) (e : Entry ν) :
    Follows (surveyOp policy owner definition s e) (surveyOp policy' owner definition s e) := by
  rcases laxer with rfl | rfl
  · exact .refl _
  · by_cases info : e.2.payload.isInfo = true
    · obtain ⟨id, op⟩ := e
      obtain ⟨typeName, params, payload⟩ := Payload.isInfo_iff.1 info
      dsimp only at payload
      simp only [surveyOp, payload]
      cases s.info with
      | none => exact .refl _
      | some first =>
        cases policy with
        | strict => exact .reject_bind _ _ _
        | lastWins => exact .refl _
    · rw [surveyOp_policy (by simpa using info) policy .lastWins]
      exact .refl _

theorem survey_follows {policy policy' : InfoPolicy}
    (laxer : policy' = policy ∨ policy' = .lastWins) (owner : ModuleId) (definition : OpId)
    (body : List (Entry ν)) :
    Follows (survey policy owner definition body) (survey policy' owner definition body) := by
  apply (Follows.foldlM (surveyOp_follows laxer owner definition) body {}).bind
  intro s
  exact .refl _

/-- Where all references to scopes are met, it does not matter what becomes of others. -/
theorem scopeTarget_follows {policy policy' : ScopePolicy}
    (laxer : policy' = policy ∨ policy' = .enclosing) (d : Design ν) (s : Survey) (owner : ModuleId)
    (user : OpId) (ref : Option ValueId) :
    Follows (scopeTarget d policy s owner user ref) (scopeTarget d policy' s owner user ref) := by
  rcases laxer with rfl | rfl
  · exact .refl _
  · cases ref with
    | none => exact .refl _
    | some scope =>
      apply (Follows.refl (require (d.definingOp scope))).bind
      intro producer
      cases producer.bind s.scope? with
      | some inline => exact .refl _
      | none =>
        cases policy with
        | error => exact .reject _ _
        | enclosing => exact .refl _

variable [DecidableEq ν]

theorem fillOp_follows {policy policy' : ScopePolicy}
    (laxer : policy' = policy ∨ policy' = .enclosing) (d : Design ν) (s : Survey) (owner : ModuleId)
    (e : Entry ν) :
    Follows (fillOp d policy s owner e) (fillOp d policy' s owner e) := by
  obtain ⟨id, op⟩ := e
  cases payload : op.payload with
  | dbgVariable note =>
    simp only [fillOp, payload]
    exact (scopeTarget_follows laxer d s owner id note.scope).bind fun _ => .refl _
  | dbgScope note =>
    simp only [fillOp, payload]
    exact (scopeTarget_follows laxer d s owner id note.scope).bind fun _ => .refl _
  | _ =>
    simp only [fillOp, payload]
    exact .refl _

theorem collect_follows {strict lax : Options} (laxer : strict.Laxer lax) (d : Design ν)
    (e : Entry ν) :
    Follows (collect d strict e) (collect d lax e) := by
  obtain ⟨op, operation⟩ := e
  cases payload : operation.payload with
  | module name ports block =>
    simp only [collect, payload]
    apply (Follows.refl _).bind
    intro _
    apply (Follows.refl _).bind
    intro owner
    apply (survey_follows laxer.info owner op (d.bodyOf block)).bind
    intro s
    have fill := Follows.forM (fillOp_follows laxer.scopes d s owner) (d.bodyOf block)
    by_cases vars : s.presence.vars = true
    · simp only [vars, if_true]
      exact fill
    · simp only [vars]
      exact (Follows.refl _).bind fun _ => fill
  | _ =>
    simp only [collect, payload]
    exact .refl _

end Building

/-- Where a strict extraction succeeds, a lenient one has the same hierarchy. -/
theorem Design.outcome_of_laxer [DecidableEq ν] {d : Design ν} {strict lax : Options}
    (laxer : strict.Laxer lax) {h : Hierarchy ν} (extracted : (d.extract strict).outcome = .ok h) :
    (d.extract lax).outcome = .ok h := by
  have follows : Follows (Building.all d strict) (Building.all d lax) :=
    (Follows.forM (Building.collect_follows laxer d) d.definitions).bind fun _ => .refl _
  unfold Design.extract at extracted ⊢
  cases run : (Building.all d strict).run .start with
  | ok a p =>
    rw [run] at extracted
    rw [follows .start a p run]
    exact extracted
  | error failure p =>
    rw [run] at extracted
    cases extracted

/-- **Leniency.** Lenient options repair a design and change nothing else. To forgive references to
scopes of other modules is to drop them, and to let the last annotation of a type count is to keep
that one alone; so where strict options lead to a hierarchy, more lenient ones lead to the same. -/
theorem lenience_repairs {d : Design Name} (scripted : d.Scripted) (inRange : d.InRange) :
    (∀ info, (d.extract { scopes := .enclosing, info }).outcome =
      ((d.edit d.dropLoose).extract { scopes := .error, info }).outcome) ∧
    (∀ scopes inert, (d.extract { scopes, info := .lastWins }).outcome =
      ((d.edit (d.keepLast inert)).extract { scopes, info := .strict }).outcome) ∧
    ∀ strict lax : Options, strict.Laxer lax → ∀ h, (d.extract strict).outcome = .ok h →
      (d.extract lax).outcome = .ok h := by
  obtain ⟨F, n⟩ := scripted.nesting
  refine ⟨?_, ?_, ?_⟩
  · intro info
    exact n.outcome_dropLoose scripted.wellLinked inRange info
  · intro scopes inert
    exact n.outcome_keepLast scopes inert
  · intro strict lax laxer h extracted
    exact Design.outcome_of_laxer laxer extracted

/-- References to a block argument and to a scope of another module, and
two annotations of one type. -/
def looseNotes : Script :=
  .module "A" [⟨.input, "a", none⟩]
    (.leaf (some "s") (.dbgScope ⟨"s", "S", some (.input 0)⟩) <|
      .leaf none (.dbgVariable ⟨"v", .input 0, some (.label "s"), none, none, none⟩) <|
      .leaf none (.moduleInfo "T" none) <|
      .leaf none (.moduleInfo "U" none) .done) <|
  .module "B" [⟨.input, "b", none⟩]
    (.leaf none (.dbgVariable ⟨"w", .input 0, some (.label "s"), none, none, none⟩) .done) .done

theorem repairs_of_looseNotes : looseNotes.design.InRange ∧
    (∀ info, (looseNotes.design.extract { scopes := .enclosing, info }).outcome =
      ((looseNotes.design.edit looseNotes.design.dropLoose).extract
        { scopes := .error, info }).outcome) ∧
    (looseNotes.design.extract { scopes := .error }).outcome.toOption = none ∧
    ((looseNotes.design.edit looseNotes.design.dropLoose).extract
      { scopes := .error }).outcome.toOption.isSome := by
  have inRange : looseNotes.design.InRange := by
    unfold Design.InRange
    decide +kernel
  have repairs := (lenience_repairs looseNotes.design_scripted inRange).1
  exact ⟨inRange, repairs, by decide +kernel, by decide +kernel⟩

end DebugHierarchy
