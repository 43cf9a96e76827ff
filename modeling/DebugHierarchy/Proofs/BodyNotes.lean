import DebugHierarchy.Extraction.Basic
import Mathlib.Data.List.Basic
import Mathlib.Data.List.Nodup

/-!
What a body holds, read off its operations.

A reader of a body sees which annotations there are, in the order in which they are met, and which
annotation of the body a reference names. A survey is to find the same: `Survey.of` lists the scopes
of a body with the handles that follow `base`, in order.

* `Survey.scope?_eq_some_iff`: the scope table holds every scope of the body, with its number;
* `Survey.scopeIn_bind`, `Survey.enumIn_eq`: a reference looked up in a survey is the annotation
  of the body that it names.
-/

namespace DebugHierarchy

variable {ν : Type}

namespace Payload

def annotation? : Payload ν → Option (VariableNote ν ValueId)
  | .dbgVariable note => some note
  | _ => none

def scope? : Payload ν → Option (ScopeNote ν ValueId)
  | .dbgScope note => some note
  | _ => none

def enum? : Payload ν → Option (EnumNote ν)
  | .enumDef note => some note
  | _ => none

/-- The operation annotates the type of its module. -/
def isInfo : Payload ν → Bool
  | .moduleInfo .. => true
  | _ => false

end Payload

def hasVariable (body : List (Entry ν)) : Bool := body.any (·.2.payload.annotation?.isSome)

def hasScope (body : List (Entry ν)) : Bool := body.any (·.2.payload.scope?.isSome)

def scopesOf (body : List (Entry ν)) : List (OpId × ScopeNote ν ValueId) :=
  body.filterMap fun e => e.2.payload.scope?.map (e.1, ·)

def enumsOf (body : List (Entry ν)) : List (OpId × EnumId) :=
  body.filterMap fun e => e.2.payload.enum?.map (e.1, ·.id)

def infosOf (body : List (Entry ν)) : List OpId :=
  (body.filter (·.2.payload.isInfo)).map (·.1)

namespace Design

/-- The operation whose result a reference is. -/
def producer? (d : Design ν) (ref : Option ValueId) : Option OpId :=
  ref.bind fun value => (d.definingOp value).toOption.join

theorem producer?_of_ok {d : Design ν} {value : ValueId} {producer : Option OpId}
    (found : d.definingOp value = .ok producer) : d.producer? (some value) = producer := by
  simp [producer?, found, Except.toOption]

theorem producer?_eq_some_iff {d : Design ν} {ref : Option ValueId} {op : OpId} :
    d.producer? ref = some op ↔ ∃ value, ref = some value ∧ d.definingOp value = .ok (some op) := by
  unfold producer?
  rw [Option.bind_eq_some_iff]
  refine exists_congr fun value => and_congr_right fun _ => ?_
  cases d.definingOp value <;> simp [Except.toOption]

variable (d : Design ν) (body : List (Entry ν))

/-- The scope of a body that a reference names. -/
def scopeIn (ref : Option ValueId) : Option OpId :=
  (d.producer? ref).filter (· ∈ (scopesOf body).map (·.1))

/-- The number of the enum definition of a body that a reference names. -/
def enumIn (ref : Option ValueId) : Option EnumId := (d.producer? ref).bind fun op =>
  (enumsOf body).lookup op

theorem scopeIn_eq_some_iff {d : Design ν} {body : List (Entry ν)} {ref : Option ValueId}
    {op : OpId} :
    d.scopeIn body ref = some op ↔ d.producer? ref = some op ∧
      ∃ note, (op, note) ∈ scopesOf body := by
  rw [scopeIn, Option.filter_eq_some_iff]
  simp

end Design

/-- The scopes of a body with the handles of their inline modules, which count up from `base`. -/
def numberedScopes (base : Nat) (body : List (Entry ν)) :
    List ((OpId × ScopeNote ν ValueId) × ModuleId) :=
  ((scopesOf body).zipIdx base).map fun x => (x.1, ⟨x.2⟩)

def Survey.of (base : Nat) (body : List (Entry ν)) : Survey where
  presence := ⟨hasVariable body, hasScope body⟩
  scopes := ((numberedScopes base body).map fun x => (x.1.1, x.2)).reverse
  info := (infosOf body).getLast?
  enums := (enumsOf body).reverse

theorem Survey.of_vars (base : Nat) (body : List (Entry ν)) :
    (Survey.of base body).presence.vars = hasVariable body := rfl

theorem Survey.of_insts (base : Nat) (body : List (Entry ν)) :
    (Survey.of base body).presence.insts = hasScope body := rfl

section Append

variable (base : Nat) (body rest : List (Entry ν))

theorem scopesOf_append : scopesOf (body ++ rest) = scopesOf body ++ scopesOf rest :=
  List.filterMap_append

theorem enumsOf_append : enumsOf (body ++ rest) = enumsOf body ++ enumsOf rest :=
  List.filterMap_append

theorem infosOf_append : infosOf (body ++ rest) = infosOf body ++ infosOf rest := by
  simp [infosOf]

theorem hasVariable_append : hasVariable (body ++ rest) = (hasVariable body || hasVariable rest) :=
  List.any_append

theorem hasScope_append : hasScope (body ++ rest) = (hasScope body || hasScope rest) :=
  List.any_append

theorem numberedScopes_append : numberedScopes base (body ++ rest) =
    numberedScopes base body ++ numberedScopes (base + (scopesOf body).length) rest := by
  rw [numberedScopes, scopesOf_append, List.zipIdx_append, List.map_append]
  rfl

end Append

/-! ### Looking annotations up -/

/-- Where no key comes twice, a look-up finds every entry. -/
theorem lookup_eq_some_iff {κ α : Type} [DecidableEq κ] {l : List (κ × α)}
    (distinct : (l.map (·.1)).Nodup) {k : κ} {a : α} : l.lookup k = some a ↔ (k, a) ∈ l := by
  induction l with
  | nil => simp
  | cons x rest ih =>
    obtain ⟨j, b⟩ := x
    rw [List.map_cons, List.nodup_cons] at distinct
    rw [List.lookup_cons, List.mem_cons, Prod.mk.injEq]
    by_cases same : k = j
    · subst same
      have tail : (k, a) ∈ rest → a = b := fun h => absurd (List.mem_map_of_mem h) distinct.1
      simp only [BEq.rfl, Option.some.injEq, true_and]
      exact ⟨fun same => .inl same.symm, fun h => (h.elim id tail).symm⟩
    · rw [beq_eq_false_iff_ne.2 same]
      simp [same, ih distinct.2]

/-- Where no key comes twice, the order of the entries is of no account to a look-up. -/
theorem lookup_reverse {κ α : Type} [DecidableEq κ] {l : List (κ × α)}
    (distinct : (l.map (·.1)).Nodup) (k : κ) : l.reverse.lookup k = l.lookup k := by
  have reversed : (l.reverse.map (·.1)).Nodup := by
    rw [List.map_reverse]
    exact List.nodup_reverse.2 distinct
  ext a
  rw [lookup_eq_some_iff reversed, lookup_eq_some_iff distinct, List.mem_reverse]

theorem mem_scopesOf {body : List (Entry ν)} {op : OpId} {note : ScopeNote ν ValueId} :
    (op, note) ∈ scopesOf body ↔ ∃ e ∈ body, e.1 = op ∧ e.2.payload = .dbgScope note := by
  simp only [scopesOf, List.mem_filterMap, Option.map_eq_some_iff, Prod.mk.injEq]
  constructor
  · rintro ⟨e, he, n, found, rfl, rfl⟩
    refine ⟨e, he, rfl, ?_⟩
    cases payload : e.2.payload <;> simp [payload, Payload.scope?] at found
    rw [found]
  · rintro ⟨e, he, rfl, payload⟩
    exact ⟨e, he, note, by rw [payload]; rfl, rfl, rfl⟩

theorem numberedScopes_map_fst (base : Nat) (body : List (Entry ν)) :
    (numberedScopes base body).map (·.1) = scopesOf body := by
  rw [numberedScopes, List.map_map]
  exact List.zipIdx_map_fst _ _

theorem numberedScopes_map_snd (base : Nat) (body : List (Entry ν)) :
    (numberedScopes base body).map (·.2.index) = List.range' base (scopesOf body).length := by
  rw [numberedScopes, List.map_map]
  exact List.zipIdx_map_snd _ _

theorem numberedScopes_lt {base : Nat} {body : List (Entry ν)}
    {x : (OpId × ScopeNote ν ValueId) × ModuleId} (hx : x ∈ numberedScopes base body) :
    x.2.index < base + (scopesOf body).length := by
  have : x.2.index ∈ (numberedScopes base body).map (·.2.index) := List.mem_map_of_mem hx
  rw [numberedScopes_map_snd, List.mem_range'_1] at this
  exact this.2

/-- What a part of the notes of a body refers to stands in the body, in the same order. -/
theorem filterMap_ids_sublist {α : Type} (read : Payload ν → Option α) (body : List (Entry ν)) :
    ((body.filterMap fun e => (read e.2.payload).map (e.1, ·)).map (·.1)).Sublist
      (body.map (·.1)) := by
  induction body with
  | nil => exact .slnil
  | cons e rest ih =>
    rw [List.filterMap_cons]
    cases found : read e.2.payload with
    | none => exact ih.cons _
    | some a => exact ih.cons_cons _

section Lookup

variable {body : List (Entry ν)} (distinct : (body.map (·.1)).Nodup)

include distinct

theorem scopesOf_ids_nodup : ((scopesOf body).map (·.1)).Nodup :=
  (filterMap_ids_sublist Payload.scope? body).nodup distinct

theorem enumsOf_ids_nodup : ((enumsOf body).map (·.1)).Nodup := by
  have : enumsOf body = body.filterMap fun e =>
      ((fun p : Payload ν => p.enum?.map (·.id)) e.2.payload).map (e.1, ·) := by
    simp only [enumsOf, Option.map_map, Function.comp_def]
  rw [this]
  exact (filterMap_ids_sublist (fun p => p.enum?.map (·.id)) body).nodup distinct

namespace Survey

theorem scopes_ids_nodup (base : Nat) : ((Survey.of base body).scopes.map (·.1)).Nodup := by
  rw [Survey.of, List.map_reverse, List.nodup_reverse, List.map_map]
  have : (numberedScopes base body).map ((·.1) ∘ fun x => (x.1.1, x.2)) =
      ((numberedScopes base body).map (·.1)).map (·.1) := by
    rw [List.map_map]
    rfl
  rw [this, numberedScopes_map_fst]
  exact scopesOf_ids_nodup distinct

/-- The table of scopes holds every scope of the body with its number, and nothing else. -/
theorem scope?_eq_some_iff {base : Nat} {op : OpId} {inline : ModuleId} :
    (Survey.of base body).scope? op = some inline ↔
      ∃ note, ((op, note), inline) ∈ numberedScopes base body := by
  rw [scope?, lookup_eq_some_iff (scopes_ids_nodup distinct base), Survey.of]
  simp only [List.mem_reverse, List.mem_map, Prod.mk.injEq]
  constructor
  · rintro ⟨⟨⟨o, note⟩, i⟩, hx, rfl, rfl⟩
    exact ⟨note, hx⟩
  · rintro ⟨note, hx⟩
    exact ⟨_, hx, rfl, rfl⟩

theorem scope?_isSome_iff (base : Nat) {op : OpId} :
    ((Survey.of base body).scope? op).isSome ↔ op ∈ (scopesOf body).map (·.1) := by
  rw [Option.isSome_iff_exists, ← numberedScopes_map_fst base body]
  simp only [scope?_eq_some_iff distinct, List.mem_map]
  constructor
  · rintro ⟨inline, note, hx⟩
    exact ⟨_, ⟨_, hx, rfl⟩, rfl⟩
  · rintro ⟨_, ⟨⟨⟨o, note⟩, inline⟩, hx, rfl⟩, rfl⟩
    exact ⟨inline, note, hx⟩

/-- The inline module of the scope that a reference names is found by its operation. -/
theorem scopeIn_bind (d : Design ν) (base : Nat) (ref : Option ValueId) :
    (d.scopeIn body ref).bind (Survey.of base body).scope? =
      (d.producer? ref).bind (Survey.of base body).scope? := by
  unfold Design.scopeIn
  cases d.producer? ref with
  | none => rfl
  | some op =>
    have known : _ ↔ op ∈ _ := scope?_isSome_iff distinct base
    by_cases member : op ∈ (scopesOf body).map (·.1)
    · simp [Option.filter, member]
    · rw [Option.bind_some, Option.not_isSome_iff_eq_none.1 (mt known.1 member)]
      simp only [Option.filter, member, decide_false, Bool.false_eq_true, if_false,
        Option.bind_none]

theorem scopeIn_eq_none_iff {d : Design ν} (base : Nat) {ref : Option ValueId} :
    d.scopeIn body ref = none ↔ (d.producer? ref).bind (Survey.of base body).scope? = none := by
  rw [← scopeIn_bind distinct]
  constructor
  · intro none
    rw [none, Option.bind_none]
  · intro none
    cases found : d.scopeIn body ref with
    | none => rfl
    | some op =>
      obtain ⟨_, note, scope⟩ := Design.scopeIn_eq_some_iff.1 found
      have member : op ∈ (scopesOf body).map (·.1) := List.mem_map_of_mem scope
      rw [found, Option.bind_some] at none
      have := (scope?_isSome_iff distinct base).2 member
      rw [none] at this
      cases this

theorem enumIn_eq (d : Design ν) (base : Nat) (ref : Option ValueId) :
    d.enumIn body ref = (d.producer? ref).bind (Survey.of base body).enum? := by
  unfold Design.enumIn
  cases d.producer? ref with
  | none => rfl
  | some op => exact (lookup_reverse (enumsOf_ids_nodup distinct) op).symm

end Survey

end Lookup

end DebugHierarchy
