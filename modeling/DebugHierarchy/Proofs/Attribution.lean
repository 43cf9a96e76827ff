import DebugHierarchy.Proofs.Metadata

/-!
Who tells a module about itself.

Definitions are taken in one after the other, and while one of them is, no other comes
up. What is told then is told to the module that it defines: ports, instances and
references of any kind tell nothing.

* `OwnTurn`, `Attributed`: what a journal tells a module, it tells it while
  its definition is taken in;
* `TakingIn.record`, `TakingIn.along`: an event within a definition tells no other module,
  nor does a stretch of them;
* `Design.attributed_of_extract`: whatever a journal tells a module, it tells it within
  the module's own definition.
-/

namespace DebugHierarchy

variable {ν : Type}

/-- An event that does not tell a module anything leaves its notes as they are. -/
theorem Hierarchy.notesAt_apply_of_silent (h : Hierarchy ν) {e : Event ν} {i : Nat}
    (silent : ¬e.Tells i) : (h.apply e).notesAt i = h.notesAt i := by
  have unless_quiet (quiet : ∃ names, e.Quiet names) : (h.apply e).notesAt i = h.notesAt i :=
    congrFun (h.notesAt_apply quiet.choose_spec) i
  cases e with
  | setInfo id | setEnum id | surveyed id =>
    have other : id.index ≠ i := silent
    simp only [apply, notesAt, Store.modifyModule, Array.getElem?_modify, if_neg other]
  | register id name => exact unless_quiet ⟨[name], List.mem_singleton_self name⟩
  | _ => exact unless_quiet ⟨[], trivial⟩

def Event.collects? : Event ν → Option (ModuleKind × OpId)
  | .collect kind _ op => some (kind, op)
  | _ => none

/-- The definition that is taken in when a journal has come this far. -/
def underway (journal : List (Event ν)) : Option (ModuleKind × OpId) :=
  (journal.filterMap Event.collects?).getLast?

theorem underway_append_singleton (journal : List (Event ν)) (e : Event ν) :
    underway (journal ++ [e]) = e.collects?.or (underway journal) := by
  unfold underway
  rw [List.filterMap_append, List.getLast?_append]
  cases comes : e.collects? <;> simp [comes]

/-- The definition that is taken in is that of the module with the number. -/
def OwnTurn (journal : List (Event ν)) (i : Nat) : Prop :=
  ∃ op, underway journal = some (.module, op) ∧ .define ⟨i⟩ .module op ∈ journal

/-- Whatever the journal tells a module, it tells it within the module's own definition. -/
def Attributed (journal : List (Event ν)) : Prop :=
  ∀ before e, before ++ [e] <+: journal → ∀ i, e.Tells i → OwnTurn before i

/-- One more event that tells a module something needs that module's turn. -/
theorem Attributed.append_singleton {journal : List (Event ν)} {e : Event ν}
    (attributed : Attributed journal) (own : ∀ i, e.Tells i → OwnTurn journal i) :
    Attributed (journal ++ [e]) := by
  intro before f up
  rcases List.prefix_concat_iff.1 up with last | earlier
  · obtain ⟨rfl, rfl⟩ := List.append_singleton_inj.1 last
    exact own
  · exact attributed before f earlier

/-- No other definition comes up with the event, and it tells only the listed modules something. -/
def Event.Within (told : Nat → Prop) (e : Event ν) : Prop :=
  e.collects? = none ∧ ∀ i, e.Tells i → told i

/-- The journal is attributed, and the listed modules are those whose definition is taken in. -/
structure TakingIn (told : Nat → Prop) (p : Progress ν) : Prop where
  attributed : Attributed p.journal.toList
  own : ∀ i, told i → OwnTurn p.journal.toList i

section Stretches

variable {told : Nat → Prop} {p q : Progress ν} {e : Event ν}

theorem Event.Plain.within (e : Event ν) (plain : e.Plain) : e.Within told := by
  cases e with
  | collect | register | setInfo | setEnum | surveyed => exact plain.elim
  | _ => exact ⟨rfl, fun _ => False.elim⟩

theorem Event.Tells.within {i : Nat} {e : Event ν} (tells : e.Tells i) : e.Within (· = i) := by
  cases e with
  | setInfo | setEnum | surveyed => exact ⟨rfl, fun _ other => other.symm.trans tells⟩
  | _ => exact tells.elim

theorem Event.within_register (id : ModuleId) (name : ν) : (Event.register id name).Within told :=
  ⟨rfl, fun _ => False.elim⟩

theorem Progress.journal_record (p : Progress ν) (e : Event ν) :
    (p.record e).journal.toList = p.journal.toList ++ [e] := Array.toList_push

/-- An event within a definition leaves that definition underway, and
tells no other module anything. -/
theorem TakingIn.record (taking : TakingIn told p) (within : e.Within told) :
    TakingIn told (p.record e) where
  attributed := by
    rw [p.journal_record]
    exact taking.attributed.append_singleton fun i tells => taking.own i (within.2 i tells)
  own i listed := by
    obtain ⟨op, current, defined⟩ := taking.own i listed
    rw [p.journal_record]
    refine ⟨op, ?_, List.mem_append_left _ defined⟩
    rw [underway_append_singleton, within.1, Option.none_or, current]

theorem TakingIn.along (taking : TakingIn told p)
    (goes : Relation.ReflTransGen (Progress.Goes (Event.Within told)) p q) : TakingIn told q := by
  induction goes with
  | refl => exact taking
  | tail _ step ih =>
    obtain ⟨e, within, rfl⟩ := step
    exact ih.record within

/-- No other definition comes up along a stretch within one. -/
theorem underway_along (goes : Relation.ReflTransGen (Progress.Goes (Event.Within told)) p q) :
    underway q.journal.toList = underway p.journal.toList := by
  induction goes with
  | refl => rfl
  | tail _ step ih =>
    obtain ⟨e, within, rfl⟩ := step
    rw [Progress.journal_record, underway_append_singleton, within.1, Option.none_or, ih]

end Stretches

/-! ### Whole extractions -/

namespace Building

variable [DecidableEq ν] {d : Design ν} {options : Options}

/-- A definition comes up and has its module, with nothing told on the way. -/
theorem define_attributed {p : Progress ν} (attributed : Attributed p.journal.toList)
    (kind : ModuleKind) (name : ν) (op : OpId) :
    Leaves (define name kind op) (p.record (.collect kind name op)) fun id q =>
      TakingIn (fun _ => False) q ∧ underway q.journal.toList = some (kind, op) ∧
        .define id kind op ∈ q.journal.toList := by
  have opened : TakingIn (fun _ => False) (p.record (.collect kind name op)) := by
    refine ⟨?_, nofun⟩
    rw [p.journal_record]
    exact attributed.append_singleton nofun
  have current : underway (p.record (.collect kind name op)).journal.toList = some (kind, op) := by
    rw [p.journal_record, underway_append_singleton]
    rfl
  have register (id : ModuleId) : (Event.register id name).Within fun _ => False :=
    Event.within_register id name
  refine (define_leaves register kind op _).weaken ?_
  rintro id _ ⟨r, goes, rfl⟩
  have all := goes.tail ⟨.define id kind op, Event.Plain.within _ trivial, rfl⟩
  refine ⟨opened.along all, (underway_along all).trans current, ?_⟩
  rw [r.journal_record]
  exact List.mem_append_right _ (List.mem_singleton_self _)

/-- A definition that comes up tells its own module, and no other. -/
theorem collect_attributed {p : Progress ν} (attributed : Attributed p.journal.toList)
    (e : Entry ν) :
    Leaves (collect d options e) p fun _ q => Attributed q.journal.toList := by
  obtain ⟨op, o⟩ := e
  cases payload : o.payload with
  | module name ports block =>
    simp only [collect, payload]
    refine .recorded ((define_attributed attributed .module name op).bind fun {id q} defined => ?_)
    obtain ⟨silent, current, recorded⟩ := defined
    have taking : TakingIn (· = id.index) q :=
      ⟨silent.attributed, fun i here => ⟨op, current, here ▸ recorded⟩⟩
    have told (e : Event ν) (tells : e.Tells id.index) : e.Within (· = id.index) := tells.within
    refine (survey_enters Event.Plain.within told (d.bodyOf block) q).bind fun {s r} goes => ?_
    have fill : Enters (Event.Within (· = id.index)) (forM (d.bodyOf block)
        (fillOp d options.scopes s id)) :=
      .forM fun _ _ => fillOp_enters Event.Plain.within _ fun _ _ moduleName _ _ target =>
        Event.within_register target moduleName
    have ports : Enters (Event.Within (· = id.index)) (addPorts d id op block ports) :=
      addPorts_enters Event.Plain.within op block ports
    split
    · exact fun a t run => (taking.along (goes.trans (fill r a t run))).attributed
    · exact fun a t run =>
        (taking.along (goes.trans (ports.bind (fun _ => fill) r a t run))).attributed
  | externModule name ports =>
    simp only [collect, payload]
    refine .recorded ((define_attributed attributed .external name op).bind
      fun {id q} defined => ?_)
    have fill : Enters (Event.Within fun _ => False)
        (forM ports fun port : Port ν => addVariable .externPort (.ofPort port none id)) :=
      .forM fun _ _ => addVariable_enters Event.Plain.within _ _
    exact fun a r run => (defined.1.along (fill q a r run)).attributed
  | _ =>
    simp only [collect, payload]
    exact .pure attributed

/-- Whatever an extraction tells a module, it tells it within the module's own definition. -/
theorem all_attributed : Leaves (all d options) .start fun _ q => Attributed q.journal.toList := by
  have start : Attributed (Progress.start : Progress ν).journal.toList := by
    intro before e up
    cases List.append_ne_nil_of_right_ne_nil before (List.cons_ne_nil e []) (List.prefix_nil.1 up)
  have loop : Leaves (forM d.definitions (collect d options)) .start fun _ q =>
      Attributed q.journal.toList :=
    .forM (fun _ q => Attributed q.journal.toList) start fun _ attributed =>
      collect_attributed attributed _
  refine loop.bind fun {_ q} attributed => .get (.record ?_)
  rw [q.journal_record]
  exact attributed.append_singleton nofun

end Building

section Journals

variable [DecidableEq ν] {d : Design ν} {options : Options} {h : Hierarchy ν}

/-- What comes of an extraction is the state in which it ends. -/
theorem Design.run_of_extract (extracted : (d.extract options).outcome = .ok h) : ∃ a q,
    (Building.all d options).run .start = .ok a q ∧ q.hierarchy = h ∧
      q.journal.toList = (d.extract options).journal := by
  unfold extract at extracted ⊢
  cases run : (Building.all d options).run .start with
  | ok a q =>
    rw [run] at extracted
    cases extracted
    exact ⟨a, q, rfl, rfl, rfl⟩
  | error failure q =>
    rw [run] at extracted
    cases extracted

/-- **Attribution.** Whatever the journal of a hierarchy tells a module, it tells it within
the module's own definition. -/
theorem Design.attributed_of_extract (extracted : (d.extract options).outcome = .ok h) :
    Attributed (d.extract options).journal := by
  obtain ⟨a, q, run, _, journal⟩ := d.run_of_extract extracted
  exact journal ▸ Building.all_attributed a q run

theorem Progress.Writes.journal {p q : Progress ν} {es : List (Event ν)} (writes : p.Writes es q) :
    q.journal.toList = p.journal.toList ++ es := by
  induction writes with
  | nil => exact (List.append_nil _).symm
  | cons fits _ ih => rw [ih, journal_record, List.append_assoc, List.singleton_append]

/-- A definition that the journal has recorded is the definition of its module in the end. -/
theorem Collected.label_of_define {accounts : List (Account ν)} {part : List (Entry ν)}
    {q : Progress ν} (c : Collected d accounts part q) {id : ModuleId} {kind : ModuleKind}
    {op : OpId} (recorded : .define id kind op ∈ q.journal.toList) :
    ∃ name, q.hierarchy.labelAt id.index = some (name, .defined kind op) := by
  obtain ⟨es, writes, told⟩ := c.leads
  have member : .define id kind op ∈ es := by
    rw [writes.journal] at recorded
    exact (List.mem_append.1 recorded).resolve_left List.not_mem_nil
  refine (c.labels.defined (x := ⟨id, kind, op⟩)).1 ?_
  rw [← told, Findings.gather_defined, List.mem_flatMap]
  exact ⟨_, member, List.mem_singleton_self _⟩

end Journals

end DebugHierarchy
