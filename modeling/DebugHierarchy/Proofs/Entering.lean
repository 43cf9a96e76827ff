import DebugHierarchy.Proofs.Settling
import Mathlib.Logic.Relation

/-!
What a step enters in the journal.

What steps do to a hierarchy, and what they leave alone, is told by the events that they enter. Most
events are plain: they add a node, or report something. Only two kinds need a closer look, those
that meet a name and those that tell a module something about itself.

* `Leaves`: what holds of the state that a step leaves behind, wherever the step ends;
* `Building.Enters`: a step enters allowed events only, up to its end;
* `Building.survey_enters`, `Building.fillOp_enters`: what the two readings of a body enter.
-/

namespace DebugHierarchy

variable {ν α β : Type}

/-- Where the step ends from `p`, the condition holds. -/
def Leaves (x : Building ν α) (p : Progress ν) (post : α → Progress ν → Prop) : Prop :=
  ∀ a q, x.run p = .ok a q → post a q

theorem Settles.and {x : Building ν α} {p : Progress ν} {problem : Option (Failure ν)}
    {post post' : α → Progress ν → Prop} (settled : Settles x p problem post)
    (left : Leaves x p post') :
    Settles x p problem fun a q => post a q ∧ post' a q := by
  unfold Settles at settled ⊢
  cases run : x.run p with
  | ok a q =>
    rw [run] at settled
    exact ⟨settled.1, settled.2, left a q run⟩
  | error failure q =>
    rw [run] at settled
    exact settled

namespace Leaves

variable {x : Building ν α} {f : α → Building ν β} {p : Progress ν} {post : α → Progress ν → Prop}
  {post' : β → Progress ν → Prop}

theorem pure {a : α} (holds : post a p) : Leaves (Pure.pure a) p post := by
  rintro _ _ ⟨⟩
  exact holds

theorem reject (error : BuildError ν) : Leaves (Building.reject error) p post := nofun

theorem record {e : Event ν} {post : Unit → Progress ν → Prop} (holds : post () (p.record e)) :
    Leaves (Building.record e) p post := by
  rintro _ _ ⟨⟩
  exact holds

theorem bind (first : Leaves x p post) (second : ∀ {a q}, post a q → Leaves (f a) q post') :
    Leaves (x >>= f) p post' := by
  intro b r run
  rw [EStateM.run_bind] at run
  cases ran : x.run p with
  | ok a q =>
    rw [ran] at run
    exact second (first a q ran) b r run
  | error failure q =>
    rw [ran] at run
    cases run

theorem get {f : Progress ν → Building ν β} (h : Leaves (f p) p post') :
    Leaves (MonadState.get >>= f) p post' := h

theorem recorded {e : Event ν} {f : Unit → Building ν β} (h : Leaves (f ()) (p.record e) post') :
    Leaves (Building.record e >>= f) p post' := h

theorem rejected (error : BuildError ν) : Leaves (Building.reject error >>= f) p post' := nofun

theorem dangling (what : Dangling) : Leaves (Building.require (.error what) >>= f) p post' := by
  intro b q run
  cases run

/-- A known value before another step. -/
theorem known {a : α} (h : Leaves (f a) p post') : Leaves (Pure.pure a >>= f) p post' := h

/-- What settles a step tells where it ends. -/
theorem of_settles {problem : Option (Failure ν)} (settled : Settles x p problem post) :
    Leaves x p post := by
  intro a q run
  unfold Settles at settled
  rw [run] at settled
  exact settled.2

theorem and {post' : α → Progress ν → Prop} (first : Leaves x p post) (second : Leaves x p post') :
    Leaves x p fun a q => post a q ∧ post' a q := fun a q run => ⟨first a q run, second a q run⟩

theorem weaken {post' : α → Progress ν → Prop} (left : Leaves x p post)
    (weaker : ∀ a q, post a q → post' a q) :
    Leaves x p post' := fun a q run => weaker a q (left a q run)

/-- A loop leaves what holds after each part of its list. -/
theorem foldlM {γ : Type} {f : β → γ → Building ν β} {l : List γ} {b : β}
    (inv : List γ → β → Progress ν → Prop) (init : inv [] b p)
    (step : ∀ {done c b p}, c ∈ l → inv done b p → Leaves (f b c) p (inv (done ++ [c]))) :
    Leaves (l.foldlM f b) p (inv l) := by
  suffices ∀ rest done b p, rest ⊆ l → inv done b p →
      Leaves (rest.foldlM f b) p (inv (done ++ rest)) from
    this l [] b p (List.Subset.refl l) init
  intro rest
  induction rest with
  | nil =>
    intro done b p _ holds
    rw [List.append_nil]
    exact pure holds
  | cons c rest ih =>
    intro done b p within holds
    obtain ⟨member, within⟩ := List.cons_subset.1 within
    rw [List.foldlM_cons]
    refine (step member holds).bind fun {b q} further => ?_
    rw [← List.singleton_append, ← List.append_assoc]
    exact ih _ b q within further

theorem forM {f : α → Building ν PUnit} {l : List α} (inv : List α → Progress ν → Prop)
    (init : inv [] p) (step : ∀ {done a q}, a ∈ l → inv done q → Leaves (f a) q fun _ =>
      inv (done ++ [a])) :
    Leaves (ForM.forM l f) p fun _ => inv l := by
  rw [Settles.forM_eq_foldlM]
  exact foldlM (fun done _ => inv done) init step

end Leaves

namespace Event

/-- The event meets no name, tells no module anything about itself, and no
definition comes up with it. -/
def Plain : Event ν → Prop
  | .collect .. | .register .. | .setInfo .. | .setEnum .. | .surveyed .. => False
  | _ => True

/-- The event tells the module with the number something about itself. -/
def Tells (i : Nat) : Event ν → Prop
  | .setInfo id _ | .setEnum id _ _ | .surveyed id _ => id.index = i
  | _ => False

end Event

def Progress.Goes (allowed : Event ν → Prop) (p q : Progress ν) : Prop :=
  ∃ e, allowed e ∧ q = p.record e

namespace Building

/-- Every event that the step enters, up to its end, is allowed. -/
def Enters (allowed : Event ν → Prop) (x : Building ν α) : Prop :=
  ∀ p, Leaves x p fun _ q => Relation.ReflTransGen (Progress.Goes allowed) p q

variable {allowed : Event ν → Prop}

namespace Enters

variable {x : Building ν α} {f : α → Building ν β}

theorem pure (a : α) : Enters allowed (Pure.pure a : Building ν α) := fun _ => .pure .refl

theorem reject (error : BuildError ν) : Enters allowed (Building.reject error : Building ν α) :=
  fun _ => .reject error

theorem record {e : Event ν} (may : allowed e) : Enters allowed (Building.record e) :=
  fun _ => .record (.single ⟨e, may, rfl⟩)

theorem require (found : Except Dangling α) :
    Enters allowed (Building.require found : Building ν α) := by
  cases found with
  | ok a => exact pure a
  | error what => exact fun _ => nofun

theorem bind (first : Enters allowed x) (second : ∀ a, Enters allowed (f a)) :
    Enters allowed (x >>= f) :=
  fun p => (first p).bind fun {a q} goes b r run => goes.trans (second a q b r run)

theorem get {f : Progress ν → Building ν β} (each : ∀ p, Enters allowed (f p)) :
    Enters allowed (MonadState.get >>= f) := fun p => each p p

/-- An event before another step. -/
theorem recorded {e : Event ν} {f : Unit → Building ν β} (may : allowed e)
    (next : Enters allowed (f ())) :
    Enters allowed (Building.record e >>= f) := (record may).bind fun _ => next

theorem foldlM {f : β → α → Building ν β} {l : List α} (each : ∀ b, ∀ a ∈ l, Enters allowed (f b a))
    (b : β) :
    Enters allowed (l.foldlM f b) := by
  induction l generalizing b with
  | nil => exact pure b
  | cons a rest ih =>
    rw [List.foldlM_cons]
    exact (each b a List.mem_cons_self).bind (ih fun b c hc => each b c (List.mem_cons_of_mem _ hc))

theorem forM {f : α → Building ν PUnit} {l : List α} (each : ∀ a ∈ l, Enters allowed (f a)) :
    Enters allowed (ForM.forM l f) := by
  rw [Settles.forM_eq_foldlM]
  exact foldlM (fun _ => each) _

end Enters

/-! ### Single steps -/

theorem moduleOf_enters [DecidableEq ν] {name : ν} (register : ∀ id, allowed (.register id name)) :
    Enters allowed (moduleOf name) := by
  refine .get fun p => ?_
  cases p.hierarchy.find? name with
  | some id => exact .pure id
  | none => exact .get fun _ => .recorded (register _) (.pure _)

/-- The last event of a definition gives the name's module its definition. -/
theorem define_leaves [DecidableEq ν] {name : ν} (register : ∀ id, allowed (.register id name))
    (kind : ModuleKind) (op : OpId) (p : Progress ν) : Leaves (define name kind op) p fun id q =>
      ∃ r, Relation.ReflTransGen (Progress.Goes allowed) p r ∧
        q = r.record (.define id kind op) := by
  refine (moduleOf_enters register p).bind fun {id r} goes => ?_
  unfold definitionOf
  refine .get ?_
  cases r.hierarchy.catalog.definition? name with
  | none => exact .recorded (.pure ⟨r, goes, rfl⟩)
  | some first =>
    dsimp only
    split
    · exact .reject _
    · exact .reject _

section Plain

variable (plain : ∀ e : Event ν, e.Plain → allowed e)

include plain

theorem addVariable_enters (origin : VariableOrigin) (node : VariableNode ν) :
    Enters allowed (addVariable origin node) := .get fun _ => .record (plain _ trivial)

theorem addInstance_enters (origin : InstanceOrigin) (owner : ModuleId) (node : InstanceNode ν) :
    Enters allowed (addInstance origin owner node) := .get fun _ => .record (plain _ trivial)

theorem addInline_enters (name : ν) (scope : OpId) (parent : ModuleId) :
    Enters allowed (addInline name scope parent) :=
  .get fun _ => .recorded (plain _ trivial) (.pure _)

section Surveys

variable {policy : InfoPolicy} {owner : ModuleId} {definition : OpId}
  (tells : ∀ e : Event ν, e.Tells owner.index → allowed e)

include tells

theorem surveyOp_enters (s : Survey) (e : Entry ν) :
    Enters allowed (surveyOp policy owner definition s e) := by
  obtain ⟨id, op⟩ := e
  cases payload : op.payload with
  | dbgScope note =>
    simp only [surveyOp, payload]
    exact (addInline_enters plain _ _ _).bind fun _ => .pure _
  | moduleInfo typeName params =>
    simp only [surveyOp, payload]
    split
    · split
      · exact .reject _
      · exact .recorded (plain _ trivial) (.recorded (tells _ rfl) (.pure _))
    · exact .recorded (tells _ rfl) (.pure _)
  | enumDef note =>
    simp only [surveyOp, payload]
    split
    · exact .recorded (plain _ trivial) (.pure _)
    · exact .recorded (tells _ rfl) (.pure _)
  | _ =>
    simp only [surveyOp, payload]
    exact .pure _

/-- A survey tells the module of the body something, and is plain otherwise. -/
theorem survey_enters (body : List (Entry ν)) :
    Enters allowed (survey policy owner definition body) :=
  (Enters.foldlM (fun s e _ => surveyOp_enters plain tells s e) _).bind fun _ =>
    .recorded (tells _ rfl) (.pure _)

end Surveys

section Filling

variable {d : Design ν} {owner : ModuleId}

theorem addPorts_enters (definition : OpId) (block : BlockId) (ports : List (Port ν)) :
    Enters allowed (addPorts d owner definition block ports) := by
  refine .forM fun port _ => ?_
  cases d.portValue? block port with
  | none => exact .reject _
  | some value => exact addVariable_enters plain _ _

theorem scopeTarget_enters (policy : ScopePolicy) (s : Survey) (user : OpId)
    (ref : Option ValueId) :
    Enters allowed (scopeTarget d policy s owner user ref) := by
  cases ref with
  | none => exact .pure _
  | some scope =>
    refine (Enters.require _).bind fun producer => ?_
    cases producer.bind s.scope? with
    | some inline => exact .pure _
    | none =>
      cases policy with
      | error => exact .reject _
      | enclosing => exact .recorded (plain _ trivial) (.pure _)

omit plain in
theorem enumTarget_enters (s : Survey) (user : OpId) (ref : Option ValueId) :
    Enters allowed (enumTarget d s user ref) := by
  cases ref with
  | none => exact .pure _
  | some value =>
    refine (Enters.require _).bind fun producer => ?_
    cases producer.bind s.enum? with
    | some id => exact .pure _
    | none => exact .reject _

/-- Filling in an operation is plain, but where the operation
instantiates a module, its name is met. -/
theorem fillOp_enters [DecidableEq ν] (policy : ScopePolicy) {s : Survey} {e : Entry ν}
    (register : s.presence.insts = false → ∀ name moduleName inputs,
      e.2.payload = .inst name moduleName inputs → ∀ id, allowed (.register id moduleName)) :
    Enters allowed (fillOp d policy s owner e) := by
  obtain ⟨id, op⟩ := e
  cases payload : op.payload with
  | dbgVariable note =>
    simp only [fillOp, payload]
    refine (scopeTarget_enters plain policy s id note.scope).bind fun target => ?_
    exact (enumTarget_enters s id note.enumDef).bind fun _ => addVariable_enters plain _ _
  | dbgScope note =>
    simp only [fillOp, payload]
    refine (scopeTarget_enters plain policy s id note.scope).bind fun target => ?_
    exact (Enters.require _).bind fun _ => addInstance_enters plain _ _ _
  | inst name moduleName inputs =>
    simp only [fillOp, payload]
    split
    · exact .pure _
    · next structural =>
      have here := register (Bool.of_not_eq_true structural) name moduleName inputs payload
      exact (moduleOf_enters here).bind fun _ => addInstance_enters plain _ _ _
  | wire name input =>
    simp only [fillOp, payload]
    split
    · exact .pure _
    · exact addVariable_enters plain _ _
  | _ =>
    simp only [fillOp, payload]
    exact .pure _

end Filling

end Plain

end Building

end DebugHierarchy
