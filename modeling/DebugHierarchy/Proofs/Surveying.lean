import DebugHierarchy.Proofs.BodyNotes
import DebugHierarchy.Proofs.Settling

/-!
A survey sees what is in the body.

* `infoProblem`: the contradiction a survey may meet;
* `Building.survey_settles`: a survey fails with just that, and else finds `Survey.of` the body and
  makes one inline module for each scope, in the order of the scopes.
-/

namespace DebugHierarchy

variable {ν : Type}

/-- Where one type per module is insisted on, the first two annotations of the type of a
module contradict each other. -/
def infoProblem (policy : InfoPolicy) (definition : OpId) (body : List (Entry ν)) :
    Option (Failure ν) :=
  match policy, infosOf body with
  | .strict, first :: second :: _ => some (.invalid (.duplicateModuleInfo definition first second))
  | _, _ => none

def inlinings (base : Nat) (owner : ModuleId) (body : List (Entry ν)) : List (Inlining ν) :=
  (numberedScopes base body).map fun x => ⟨x.2, x.1.2.moduleName, x.1.1, owner⟩

theorem infoProblem_append {policy : InfoPolicy} {definition : OpId} {body : List (Entry ν)}
    {failure : Failure ν} (found : infoProblem policy definition body = some failure)
    (rest : List (Entry ν)) : infoProblem policy definition (body ++ rest) = some failure := by
  unfold infoProblem at found ⊢
  rw [infosOf_append]
  split at found
  · next infos =>
    rw [infos]
    exact found
  · cases found

/-- An operation that annotates no type is no reason to fail. -/
theorem infoProblem_append_singleton {policy : InfoPolicy} {definition : OpId}
    {body : List (Entry ν)} {e : Entry ν} (other : e.2.payload.isInfo = false) :
    infoProblem policy definition (body ++ [e]) = infoProblem policy definition body := by
  have none : infosOf [e] = [] := by simp [infosOf, other]
  unfold infoProblem
  rw [infosOf_append, none, List.append_nil]

/-- What one more operation adds to a survey. -/
theorem Survey.of_append_singleton (base : Nat) (body : List (Entry ν)) (e : Entry ν) :
    Survey.of base (body ++ [e]) =
      { presence := ⟨hasVariable body || e.2.payload.annotation?.isSome,
          hasScope body || e.2.payload.scope?.isSome⟩
        scopes := ((numberedScopes (base + (scopesOf body).length) [e]).map
          fun x => (x.1.1, x.2)) ++ (Survey.of base body).scopes
        info := if e.2.payload.isInfo then some e.1 else (infosOf body).getLast?
        enums := enumsOf [e] ++ (enumsOf body).reverse } := by
  have scopes : ((numberedScopes (base + (scopesOf body).length) [e]).map fun x =>
      (x.1.1, x.2)).reverse =
      (numberedScopes (base + (scopesOf body).length) [e]).map fun x => (x.1.1, x.2) := by
    cases h : e.2.payload.scope? <;> simp [numberedScopes, scopesOf, h]
  have enums : (enumsOf [e]).reverse = enumsOf [e] := by
    cases h : e.2.payload.enum? <;> simp [enumsOf, h]
  have info : (infosOf (body ++ [e])).getLast? =
      if e.2.payload.isInfo then some e.1 else (infosOf body).getLast? := by
    rw [infosOf_append]
    cases h : e.2.payload.isInfo <;> simp [infosOf, h]
  rw [Survey.of, hasVariable_append, hasScope_append, numberedScopes_append, List.map_append,
    List.reverse_append, enumsOf_append, List.reverse_append, info, scopes, enums]
  simp [Survey.of, hasVariable, hasScope]

theorem inlinings_append (base : Nat) (owner : ModuleId) (body rest : List (Entry ν)) :
    inlinings base owner (body ++ rest) =
      inlinings base owner body ++ inlinings (base + (scopesOf body).length) owner rest := by
  rw [inlinings, numberedScopes_append, List.map_append]
  rfl

namespace Building

variable [DecidableEq ν] {p : Progress ν}

/-- What a survey has done once it has seen a part of a body. -/
structure Surveyed (p : Progress ν) (owner : ModuleId) (body : List (Entry ν)) (s : Survey)
    (q : Progress ν) : Prop where
  found : s = Survey.of p.hierarchy.moduleCount body
  count : q.hierarchy.moduleCount = p.hierarchy.moduleCount + (scopesOf body).length
  leads : p.Leads { Findings.none with inlined := inlinings p.hierarchy.moduleCount owner body } q

variable {owner : ModuleId} {body : List (Entry ν)} {s : Survey} {q : Progress ν} {e : Entry ν}

/-- An operation other than a scope adds no module. -/
theorem Surveyed.append_singleton (h : Surveyed p owner body s q) {s' : Survey} {r : Progress ν}
    (noScope : e.2.payload.scope? = none) (leads : q.Leads .none r)
    (count : r.hierarchy.moduleCount = q.hierarchy.moduleCount)
    (found : s' = Survey.of p.hierarchy.moduleCount (body ++ [e])) :
    Surveyed p owner (body ++ [e]) s' r := by
  have none : scopesOf [e] = [] := by simp [scopesOf, noScope]
  refine ⟨found, ?_, ?_⟩
  · rw [count, h.count, scopesOf_append, none, List.append_nil]
  · have nothing : inlinings (p.hierarchy.moduleCount + (scopesOf body).length) owner [e] = [] := by
      rw [inlinings, numberedScopes, none]
      rfl
    have further := h.leads.trans leads
    rw [inlinings_append, nothing, List.append_nil]
    rwa [Findings.append_none] at further

theorem Surveyed.inside (h : Surveyed p owner body s q)
    (inside : owner.index < p.hierarchy.moduleCount) :
    owner.index < q.hierarchy.moduleCount := Nat.lt_of_lt_of_le inside h.leads.moduleCount_le

section Operations

variable {policy : InfoPolicy} {definition : OpId} {id : OpId} {op : Operation ν}

/-- A scope adds its inline module. -/
theorem surveyScope_settles (inside : owner.index < p.hierarchy.moduleCount)
    (h : Surveyed p owner body s q) {note : ScopeNote ν ValueId}
    (payload : op.payload = .dbgScope note) :
    Settles (surveyOp policy owner definition s (id, op)) q none
      (Surveyed p owner (body ++ [(id, op)])) := by
  simp only [surveyOp, payload]
  refine .seq (addInline_settles (h.inside inside)) ?_
  rintro _ r ⟨rfl, count, leads⟩
  have one : scopesOf [(id, op)] = [(id, note)] := by simp [scopesOf, payload, Payload.scope?]
  have fresh : q.hierarchy.store.nextModule =
      ⟨p.hierarchy.moduleCount + (scopesOf body).length⟩ := congrArg Handle.mk h.count
  refine .pure ⟨?_, ?_, ?_⟩
  · rw [h.found, Survey.of_append_singleton, fresh]
    simp [payload, Payload.annotation?, Payload.scope?, Payload.enum?, Payload.isInfo, Survey.of,
      numberedScopes, one, enumsOf]
  · rw [count, h.count, scopesOf_append, one, List.length_append]
    rfl
  · have more : inlinings (p.hierarchy.moduleCount + (scopesOf body).length) owner [(id, op)] =
        [⟨q.hierarchy.store.nextModule, note.moduleName, id, owner⟩] := by
      rw [fresh, inlinings, numberedScopes, one]
      rfl
    rw [inlinings_append, more]
    exact h.leads.trans leads

/-- An annotation of the type replaces the one before it, or else contradicts it. -/
theorem surveyInfo_settles (inside : owner.index < p.hierarchy.moduleCount)
    (clean : infoProblem policy definition body = none) (h : Surveyed p owner body s q)
    {typeName : ν} {params : Option (ParamValue ν)}
    (payload : op.payload = .moduleInfo typeName params) :
    Settles (surveyOp policy owner definition s (id, op)) q
      (infoProblem policy definition (body ++ [(id, op)]))
      (Surveyed p owner (body ++ [(id, op)])) := by
  have info : s.info = (infosOf body).getLast? := congrArg Survey.info h.found
  have infos : infosOf [(id, op)] = [id] := by simp [infosOf, payload, Payload.isInfo]
  simp only [surveyOp, payload, info]
  have last {r : Progress ν} (leads : q.Leads .none r)
      (count : r.hierarchy.moduleCount = q.hierarchy.moduleCount) :
      Settles (do
          record (.setInfo owner (SourceType.ofParts (some typeName) params))
          return { s with info := some id }) r none (Surveyed p owner (body ++ [(id, op)])) := by
    have still : owner.index < r.hierarchy.moduleCount := count ▸ h.inside inside
    refine .seq (record_settles still rfl (Hierarchy.moduleCount_apply _ _)) ?_
    rintro _ t ⟨further, same⟩
    refine .pure (h.append_singleton (by simp [payload, Payload.scope?]) (leads.trans further)
      (same.trans count) ?_)
    rw [h.found, Survey.of_append_singleton]
    simp [payload, Payload.annotation?, Payload.scope?, Payload.enum?, Payload.isInfo, Survey.of,
      numberedScopes, scopesOf, enumsOf]
  cases before : (infosOf body).getLast? with
  | none =>
    have clear : infoProblem policy definition (body ++ [(id, op)]) = none := by
      unfold infoProblem
      rw [infosOf_append, List.getLast?_eq_none_iff.1 before, infos]
      cases policy <;> rfl
    rw [clear]
    exact last (.refl q) rfl
  | some first =>
    cases policy with
    | lastWins =>
      refine .seq (record_settles (e := .replaceInfo first id) trivial rfl rfl) ?_
      rintro _ t ⟨further, same⟩
      exact last further same
    | strict =>
      -- So far no type was annotated twice, so `first` is the only annotation.
      have only : infosOf body = [first] := by
        unfold infoProblem at clean
        cases all : infosOf body with
        | nil => rw [all] at before; cases before
        | cons a rest =>
          cases rest with
          | nil => rw [all] at before; cases before; rfl
          | cons b rest => rw [all] at clean; cases clean
      unfold infoProblem
      rw [infosOf_append, only, infos]
      exact .throw _

/-- Of the enum definitions of one number, the first one is kept. -/
theorem surveyEnum_settles (inside : owner.index < p.hierarchy.moduleCount)
    (h : Surveyed p owner body s q) {note : EnumNote ν} (payload : op.payload = .enumDef note) :
    Settles (surveyOp policy owner definition s (id, op)) q none
      (Surveyed p owner (body ++ [(id, op)])) := by
  have last {r : Progress ν} (leads : q.Leads .none r)
      (count : r.hierarchy.moduleCount = q.hierarchy.moduleCount) :
      Surveyed p owner (body ++ [(id, op)]) { s with enums := (id, note.id) :: s.enums } r := by
    refine h.append_singleton (by simp [payload, Payload.scope?]) leads count ?_
    rw [h.found, Survey.of_append_singleton]
    simp [payload, Payload.annotation?, Payload.scope?, Payload.enum?, Payload.isInfo, Survey.of,
      numberedScopes, scopesOf, enumsOf]
  simp only [surveyOp, payload]
  split
  · refine .seq (record_settles (e := .keepEnum id note.id) trivial rfl rfl) ?_
    rintro _ t ⟨further, same⟩
    exact .pure (last further same)
  · refine .seq (record_settles (e := .setEnum owner note.id (.ofNote note)) (h.inside inside) rfl
      (Hierarchy.moduleCount_apply _ _)) ?_
    rintro _ t ⟨further, same⟩
    exact .pure (last further same)

/-- One operation adds to a survey what it adds to the body. -/
theorem surveyOp_settles {e : Entry ν} (inside : owner.index < p.hierarchy.moduleCount)
    (clean : infoProblem policy definition body = none) (h : Surveyed p owner body s q) :
    Settles (surveyOp policy owner definition s e) q (infoProblem policy definition (body ++ [e]))
      (Surveyed p owner (body ++ [e])) := by
  obtain ⟨id, op⟩ := e
  cases payload : op.payload with
  | dbgScope note =>
    rw [infoProblem_append_singleton (by simp [payload, Payload.isInfo]), clean]
    exact surveyScope_settles inside h payload
  | moduleInfo typeName params => exact surveyInfo_settles inside clean h payload
  | enumDef note =>
    rw [infoProblem_append_singleton (by simp [payload, Payload.isInfo]), clean]
    exact surveyEnum_settles inside h payload
  | _ =>
    simp only [surveyOp, payload]
    rw [infoProblem_append_singleton (by simp [payload, Payload.isInfo]), clean]
    refine .pure (h.append_singleton (by simp [payload, Payload.scope?]) (.refl q) rfl ?_)
    rw [h.found, Survey.of_append_singleton]
    simp [payload, Payload.annotation?, Payload.scope?, Payload.enum?, Payload.isInfo, Survey.of,
      numberedScopes, scopesOf, enumsOf]

end Operations

/-- **Surveys.** A survey fails where two annotations of the type contradict each other, and
else finds what is in the body. -/
theorem survey_settles {policy : InfoPolicy} {definition : OpId}
    (inside : owner.index < p.hierarchy.moduleCount) (body : List (Entry ν)) :
    Settles (survey policy owner definition body) p (infoProblem policy definition body)
      (Surveyed p owner body) := by
  have start : Surveyed p owner ([] : List (Entry ν)) {} p := ⟨rfl, rfl, .refl p⟩
  have loop : Settles (body.foldlM (surveyOp policy owner definition) {}) p
      (infoProblem policy definition body) (Surveyed p owner body) := by
    refine .foldlM (infoProblem policy definition) (Surveyed p owner)
      (by cases policy <;> rfl) start ?_ ?_
    · exact fun found => infoProblem_append found _
    · exact fun _ clean h => surveyOp_settles inside clean h
  rw [← Option.or_none (o := infoProblem policy definition body)]
  refine loop.bind fun _ h => ?_
  refine .seq (record_settles (h.inside inside) rfl (Hierarchy.moduleCount_apply _ _)) ?_
  rintro _ r ⟨further, same⟩
  have leads := h.leads.trans further
  rw [Findings.append_none] at leads
  exact .pure ⟨h.found, same.trans h.count, leads⟩

end Building

end DebugHierarchy
