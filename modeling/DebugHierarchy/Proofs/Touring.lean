import DebugHierarchy.Proofs.Subtrees

/-!
What a walk shows, and how it ends.

A walk follows handles from block to block, and a visitor may answer by all that it has
seen so far. What a walk comes to is told by the log of its visitor: the operations it was
shown, each with its answer.

* `Design.BlockWalk`: the walk of a block as a recursion along handles, which is to come to an end;
* `Forest.Tour`: what a log and an ending tell of each other, kept along a
  forest (`Forest.walk_tour`);
* `walk_tours`: every walk over a block of the design of a script ends, shows an operation just
  where the answers before it let it, and ends as the last of them says.
-/

namespace DebugHierarchy

variable {ν ε σ α : Type}

section Recursion

variable {m : Type → Type} [Monad m]

/-- Two walks in a row. After the first one is stopped, there is no second one. -/
def thenWalk (first second : m Outcome) : m Outcome := do
  match ← first with
  | .completed => second
  | .stopped => pure .stopped

mutual

/-- The walk of a block, which has an end: that of its operations. -/
inductive Design.BlockWalk (d : Design ν) (visit : OpId → Operation ν → m Control) :
    BlockId → m Outcome → Prop
  | ops {b : BlockId} {block : Block} {x : m Outcome} : d.block b = .ok block →
      Design.OpsWalk d visit block.ops.toList x → Design.BlockWalk d visit b x

/-- The walk of listed operations: each is shown, and its blocks are walked
where the visitor descends. -/
inductive Design.OpsWalk (d : Design ν) (visit : OpId → Operation ν → m Control) :
    List OpId → m Outcome → Prop
  | nil : Design.OpsWalk d visit [] (pure .completed)
  | cons {id : OpId} {op : Operation ν} {rest : List OpId} {inner beside : m Outcome} :
      d.op id = .ok op →
      Design.BlocksWalk d visit op.payload.regions inner → Design.OpsWalk d visit rest beside →
      Design.OpsWalk d visit (id :: rest) (do
        match ← visit id op with
        | .descend => thenWalk inner beside
        | .skip => beside
        | .stop => pure .stopped)

/-- The walk of one block after the other. -/
inductive Design.BlocksWalk (d : Design ν) (visit : OpId → Operation ν → m Control) :
    List BlockId → m Outcome → Prop
  | nil : Design.BlocksWalk d visit [] (pure .completed)
  | cons {b : BlockId} {rest : List BlockId} {first next : m Outcome} :
      Design.BlockWalk d visit b first →
      Design.BlocksWalk d visit rest next →
      Design.BlocksWalk d visit (b :: rest) (thenWalk first next)

end

section Single

variable {d : Design ν} {visit : OpId → Operation ν → m Control}

mutual

/-- A block has one walk only. -/
theorem Design.BlockWalk.unique {b : BlockId} {x y : m Outcome} :
    d.BlockWalk visit b x → d.BlockWalk visit b y → x = y
  | .ops found walk, .ops found' walk' => by
    cases found.symm.trans found'
    exact walk.unique walk'

theorem Design.OpsWalk.unique {ids : List OpId} {x y : m Outcome} :
    d.OpsWalk visit ids x → d.OpsWalk visit ids y → x = y
  | .nil, .nil => rfl
  | .cons found below beside, .cons found' below' beside' => by
    cases found.symm.trans found'
    rw [below.unique below', beside.unique beside']

theorem Design.BlocksWalk.unique {bs : List BlockId} {x y : m Outcome} :
    d.BlocksWalk visit bs x → d.BlocksWalk visit bs y → x = y
  | .nil, .nil => rfl
  | .cons first next, .cons first' next' => by
    rw [first.unique first', next.unique next']

end

end Single

section Lawful

variable [LawfulMonad m] {d : Design ν} {visit : OpId → Operation ν → m Control}

/-- What follows a step and a walk follows each walk that the step can lead to. -/
theorem thenWalk_bind (x : m α) (f : α → m Outcome) (y : m Outcome) :
    thenWalk (x >>= f) y = x >>= fun a => thenWalk (f a) y :=
  bind_assoc ..

@[simp] theorem thenWalk_completed (y : m Outcome) : thenWalk (pure .completed) y = y :=
  pure_bind ..

@[simp] theorem thenWalk_stopped (y : m Outcome) : thenWalk (pure .stopped) y = pure .stopped :=
  pure_bind ..

theorem thenWalk_assoc (x y z : m Outcome) :
    thenWalk (thenWalk x y) z = thenWalk x (thenWalk y z) := by
  refine (thenWalk_bind ..).trans (congrArg _ (funext fun outcome => ?_))
  cases outcome with
  | completed => rfl
  | stopped => exact thenWalk_stopped z

/-- The walk of two lists in a row. -/
theorem Design.OpsWalk.split {xs ys : List OpId} {z : m Outcome}
    (walk : d.OpsWalk visit (xs ++ ys) z) :
    ∃ x y, d.OpsWalk visit xs x ∧ d.OpsWalk visit ys y ∧ z = thenWalk x y := by
  induction xs generalizing z with
  | nil => exact ⟨_, z, .nil, walk, (thenWalk_completed z).symm⟩
  | cons id xs ih =>
    cases walk with
    | @cons _ op _ inner _ found below beside =>
      obtain ⟨x, y, first, second, rfl⟩ := ih beside
      refine ⟨_, y, .cons found below first, second, ?_⟩
      refine (congrArg _ (funext fun control => ?_)).trans (thenWalk_bind ..).symm
      cases control with
      | descend => exact (thenWalk_assoc inner x y).symm
      | skip => rfl
      | stop => exact (thenWalk_stopped y).symm

/-- The walk of all that stands in some blocks is the walk of the blocks. -/
theorem Design.BlocksWalk.of_ops {bs : List BlockId} {z : m Outcome}
    (there : ∀ b ∈ bs, ∃ block, d.block b = .ok block)
    (walk : d.OpsWalk visit (bs.flatMap d.opsOf) z) : d.BlocksWalk visit bs z := by
  induction bs generalizing z with
  | nil =>
    cases walk
    exact .nil
  | cons b rest ih =>
    rw [List.flatMap_cons] at walk
    obtain ⟨x, y, first, second, rfl⟩ := walk.split
    obtain ⟨block, found⟩ := there b List.mem_cons_self
    have ops : d.opsOf b = block.ops.toList := by rw [opsOf, block_eq_ok_iff.1 found]
    rw [ops] at first
    exact .cons (.ops found first)
      (ih (fun c member => there c (List.mem_cons_of_mem _ member)) second)

/-- **The recursion ends.** The walk of a forest that stands in a design is the recursion
along the handles of the design. -/
theorem Forest.walk_follows (linked : d.WellLinked) {F : Forest ν} (stands : F.StandsIn d) :
    d.OpsWalk visit F.heads (F.walk visit) := by
  induction F with
  | nil => exact .nil
  | cons id op inner rest ihInner ihRest =>
    obtain ⟨here, heads, below, beside⟩ := stands
    have blocks : d.BlocksWalk visit op.payload.regions (inner.walk visit) := by
      refine .of_ops (fun b owned => ?_) (heads ▸ ihInner below)
      obtain ⟨block, found, _⟩ := linked.owner here owned
      exact ⟨block, Design.block_eq_ok_iff.2 found⟩
    exact .cons (Design.op_eq_ok_iff.2 here) blocks (ihRest beside)

end Lawful

end Recursion

/-- An operation that a visitor was shown, with its answer. -/
structure Visited (ν ε : Type) where
  id : OpId
  op : Operation ν
  answer : Except ε Control

namespace Visited

def ending? (x : Visited ν ε) : Option (Except ε Outcome) :=
  match x.answer with
  | .error e => some (.error e)
  | .ok .stop => some (.ok .stopped)
  | .ok .descend | .ok .skip => none

theorem ending?_eq_error_iff {x : Visited ν ε} {e : ε} : x.ending? = some (.error e) ↔
    x.answer = .error e := by
  unfold ending?
  rcases x.answer with f | (_ | _ | _) <;> simp

theorem ending?_eq_stopped_iff {x : Visited ν ε} : x.ending? = some (.ok .stopped) ↔
    x.answer = .ok .stop := by
  unfold ending?
  rcases x.answer with f | (_ | _ | _) <;> simp

def Ends (x : Visited ν ε) : Prop := x.answer = .ok .stop ∨ ∃ e, x.answer = .error e

theorem ending?_eq_none_iff {x : Visited ν ε} : x.ending? = none ↔ ¬ x.Ends := by
  unfold ending? Ends
  rcases x.answer with f | (_ | _ | _) <;> simp

theorem ending?_ne_completed {x : Visited ν ε} : x.ending? ≠ some (.ok .completed) := by
  unfold ending?
  rcases x.answer with f | (_ | _ | _) <;> simp

end Visited

/-- What a step comes to: a value or an error, and the state it leaves. -/
def resultOf : Except ε α → σ → EStateM.Result ε σ α
  | .ok a, s => .ok a s
  | .error e, s => .error e s

theorem exists_resultOf (r : EStateM.Result ε σ α) : ∃ ending s, r = resultOf ending s := by
  cases r with
  | ok a s => exact ⟨.ok a, s, rfl⟩
  | error e s => exact ⟨.error e, s, rfl⟩

/-- The visitor together with a log of what it is shown and how it answers. -/
def watch (visit : OpId → Operation ν → EStateM ε σ Control) (id : OpId) (op : Operation ν) :
    EStateM ε (σ × List (Visited ν ε)) Control := fun (s, log) =>
  match (visit id op).run s with
  | .ok control s => .ok control (s, log ++ [⟨id, op, .ok control⟩])
  | .error e s => .error e (s, log ++ [⟨id, op, .error e⟩])

theorem watch_run {visit : OpId → Operation ν → EStateM ε σ Control} {id : OpId} {op : Operation ν}
    {s t : σ} {answer : Except ε Control} (run : (visit id op).run s = resultOf answer t)
    (log : List (Visited ν ε)) :
    (watch visit id op).run (s, log) = resultOf answer (t, log ++ [⟨id, op, answer⟩]) := by
  show watch visit id op (s, log) = _
  rw [watch, run]
  cases answer <;> rfl

def Descended (log : List (Visited ν ε)) (id : OpId) : Prop :=
  ∃ x ∈ log, x.id = id ∧ x.answer = .ok .descend

/-- The operations of a forest that a log shows, and the ending of the walk,
are as its answers have it. -/
structure Forest.Tour (F : Forest ν) (log : List (Visited ν ε)) (ending : Except ε Outcome) :
    Prop where
  shown : (log.map fun x => (x.id, x.op)).Sublist F.preorder
  visited_iff : ∀ id ∈ F.ids, id ∈ log.map (·.id) ↔
    (∀ outer, F.Nested outer id → Descended log outer) ∧ ∀ x ∈ log, x.id < id → x.ending? = none
  ended : (ending = .ok .completed ∧ ∀ x ∈ log, x.ending? = none) ∨
    ∃ before x, log = before ++ [x] ∧ x.ending? = some ending ∧ ∀ y ∈ before, y.ending? = none

namespace Forest.Tour

variable {F G : Forest ν} {log more : List (Visited ν ε)} {ending last : Except ε Outcome}
  {id : OpId}

theorem mem_ids (t : F.Tour log ending) {x : Visited ν ε} (hx : x ∈ log) : x.id ∈ F.ids := by
  have member := t.shown.subset (List.mem_map_of_mem hx)
  exact List.mem_map_of_mem (f := Prod.fst) member

theorem mem_ids_of_visited (t : F.Tour log ending) (visited : id ∈ log.map (·.id)) :
    id ∈ F.ids := by
  obtain ⟨x, hx, rfl⟩ := List.mem_map.1 visited
  exact t.mem_ids hx

/-- A walk that is not over has met no answer that ends it. -/
theorem none_of_completed (t : F.Tour log (.ok .completed)) : ∀ x ∈ log, x.ending? = none := by
  rcases t.ended with ⟨_, none⟩ | ⟨before, x, _, ends, _⟩
  · exact none
  · exact absurd ends Visited.ending?_ne_completed

/-- A walk is over before its end just where an answer says so. -/
theorem ending_eq_iff (t : F.Tour log ending) {how : Except ε Outcome}
    (early : how ≠ .ok .completed) :
    ending = how ↔ ∃ x ∈ log, x.ending? = some how := by
  rcases t.ended with ⟨rfl, goesOn⟩ | ⟨before, x, rfl, ends, goesOn⟩
  · refine iff_of_false early.symm ?_
    rintro ⟨x, hx, ends⟩
    rw [goesOn x hx] at ends
    cases ends
  · constructor
    · rintro rfl
      exact ⟨x, by simp, ends⟩
    · rintro ⟨y, hy, told⟩
      rcases List.mem_append.1 hy with hy | hy
      · rw [goesOn y hy] at told
        cases told
      · rw [List.mem_singleton.1 hy, ends] at told
        exact Option.some.inj told

/-- An answer that ends the walk is the last one. -/
theorem last_of_ends (t : F.Tour log ending) {x : Visited ν ε} (hx : x ∈ log) (ends : x.Ends) :
    log.getLast? = some x := by
  have others {y : Visited ν ε} (goesOn : y.ending? = none) : ¬ y.Ends :=
    Visited.ending?_eq_none_iff.1 goesOn
  rcases t.ended with ⟨_, goesOn⟩ | ⟨before, y, rfl, _, goesOn⟩
  · exact absurd ends (others (goesOn x hx))
  · rcases List.mem_append.1 hx with hx | hx
    · exact absurd ends (others (goesOn x hx))
    · rw [List.mem_singleton.1 hx]
      exact List.getLast?_concat ..

theorem nil : (.nil : Forest ν).Tour ([] : List (Visited ν ε)) (.ok .completed) where
  shown := .slnil
  visited_iff := by simp
  ended := .inl ⟨rfl, by simp⟩

section Single

variable {op : Operation ν} {inner : Forest ν}
  (ascending : (Forest.cons id op inner .nil).ids.Pairwise (· < ·))

include ascending

theorem lt_of_inner {j : OpId} (member : j ∈ inner.ids) : id < j := by
  rw [ids_cons, ids_nil, List.append_nil, List.pairwise_cons] at ascending
  exact ascending.1 j member

/-- Only the operation itself is shown where the visitor does not descend. -/
theorem single {answer : Except ε Control} (past : answer ≠ .ok .descend)
    (ends : (⟨id, op, answer⟩ : Visited ν ε).ending? = some ending ∨
      (⟨id, op, answer⟩ : Visited ν ε).ending? = none ∧ ending = .ok .completed) :
    (Forest.cons id op inner .nil).Tour [⟨id, op, answer⟩] ending where
  shown := by simp [preorder]
  visited_iff := by
    intro j member
    rw [ids_cons, ids_nil, List.append_nil, List.mem_cons] at member
    rcases member with rfl | member
    · refine iff_of_true (by simp) ⟨?_, ?_⟩
      · rintro outer (⟨rfl, inside⟩ | below | beside)
        · exact absurd (lt_of_inner ascending inside) (Nat.lt_irrefl _)
        · exact absurd (lt_of_inner ascending below.mem.2) (Nat.lt_irrefl _)
        · exact beside.elim
      · rintro x hx less
        obtain rfl := List.mem_singleton.1 hx
        exact absurd less (Nat.lt_irrefl _)
    · refine iff_of_false ?_ ?_
      · rw [List.map_singleton, List.mem_singleton]
        rintro rfl
        exact Nat.lt_irrefl _ (lt_of_inner ascending member)
      · rintro ⟨descended, _⟩
        obtain ⟨x, hx, _, here⟩ := descended id (.inl ⟨rfl, member⟩)
        obtain rfl := List.mem_singleton.1 hx
        exact past here
  ended := by
    rcases ends with ends | ⟨goesOn, rfl⟩
    · exact .inr ⟨[], _, rfl, ends, by simp⟩
    · exact .inl ⟨rfl, by simpa using goesOn⟩

/-- Where the visitor descends, the walk goes on below. -/
theorem below (t : inner.Tour log ending) :
    (Forest.cons id op inner .nil).Tour (⟨id, op, .ok .descend⟩ :: log) ending where
  shown := by
    rw [List.map_cons, preorder, preorder, List.append_nil]
    exact t.shown.cons_cons _
  visited_iff := by
    intro j member
    rw [ids_cons, ids_nil, List.append_nil, List.mem_cons] at member
    rcases member with rfl | member
    · refine iff_of_true (by simp) ⟨?_, ?_⟩
      · rintro outer (⟨rfl, inside⟩ | below | beside)
        · exact absurd (lt_of_inner ascending inside) (Nat.lt_irrefl _)
        · exact absurd (lt_of_inner ascending below.mem.2) (Nat.lt_irrefl _)
        · exact beside.elim
      · intro x hx less
        rcases List.mem_cons.1 hx with rfl | hx
        · rfl
        · exact absurd (Nat.lt_trans less (lt_of_inner ascending (t.mem_ids hx))) (Nat.lt_irrefl _)
    · have other : j ≠ id := fun same => Nat.lt_irrefl _ (same ▸ lt_of_inner ascending member)
      rw [List.map_cons, List.mem_cons, or_iff_right other, t.visited_iff j member]
      refine and_congr ⟨?_, ?_⟩ ?_
      · rintro descended outer (⟨rfl, _⟩ | below | beside)
        · exact ⟨_, List.mem_cons_self, rfl, rfl⟩
        · obtain ⟨x, hx, told⟩ := descended outer below
          exact ⟨x, List.mem_cons_of_mem _ hx, told⟩
        · exact beside.elim
      · intro descended outer nested
        obtain ⟨x, hx, same, told⟩ := descended outer (.inr (.inl nested))
        rcases List.mem_cons.1 hx with rfl | hx
        · exact absurd (same ▸ lt_of_inner ascending nested.mem.1) (Nat.lt_irrefl _)
        · exact ⟨x, hx, same, told⟩
      · simp [Visited.ending?]
  ended := by
    rcases t.ended with ⟨rfl, none⟩ | ⟨before, x, rfl, ends, none⟩
    · exact .inl ⟨rfl, List.forall_mem_cons.2 ⟨rfl, none⟩⟩
    · exact .inr ⟨_ :: before, x, rfl, ends, List.forall_mem_cons.2 ⟨rfl, none⟩⟩

end Single

section Append

variable (ascending : (F ++ G).ids.Pairwise (· < ·))

include ascending

theorem lt_of_append {i j : OpId} (hi : i ∈ F.ids) (hj : j ∈ G.ids) : i < j := by
  rw [ids_append, List.pairwise_append] at ascending
  exact ascending.2.2 i hi j hj

theorem nested_left {outer : OpId} (member : id ∈ F.ids) : (F ++ G).Nested outer id ↔
    F.Nested outer id := by
  rw [nested_append]
  refine or_iff_left fun nested => ?_
  exact Nat.lt_irrefl _ (lt_of_append ascending member nested.mem.2)

theorem nested_right {outer : OpId} (member : id ∈ G.ids) : (F ++ G).Nested outer id ↔
    G.Nested outer id := by
  rw [nested_append]
  refine or_iff_right fun nested => ?_
  exact Nat.lt_irrefl _ (lt_of_append ascending nested.mem.2 member)

/-- After a walk that came to its end, the next one follows. -/
theorem append (t : F.Tour log (.ok .completed)) (u : G.Tour more ending) :
    (F ++ G).Tour (log ++ more) ending where
  shown := by
    rw [List.map_append, preorder_append]
    exact t.shown.append u.shown
  visited_iff := by
    intro j member
    rw [ids_append, List.mem_append] at member
    rw [List.map_append, List.mem_append]
    rcases member with member | member
    · have notAfter : j ∉ more.map (·.id) := fun visited =>
        Nat.lt_irrefl _ (lt_of_append ascending member (u.mem_ids_of_visited visited))
      rw [or_iff_left notAfter, t.visited_iff j member]
      refine and_congr (forall_congr' fun outer => ?_) ⟨fun before x hx less => ?_,
        fun before x hx => ?_⟩
      · rw [nested_left ascending member]
        refine imp_congr_right fun nested =>
          ⟨fun ⟨x, hx, told⟩ => ?_, fun ⟨x, hx, same, told⟩ => ?_⟩
        · exact ⟨x, List.mem_append_left _ hx, told⟩
        · rcases List.mem_append.1 hx with hx | hx
          · exact ⟨x, hx, same, told⟩
          · exact absurd (same ▸ lt_of_append ascending nested.mem.1 (u.mem_ids hx))
              (Nat.lt_irrefl _)
      · rcases List.mem_append.1 hx with hx | hx
        · exact before x hx less
        · exact absurd (Nat.lt_trans less (lt_of_append ascending member (u.mem_ids hx)))
            (Nat.lt_irrefl _)
      · exact before x (List.mem_append_left _ hx)
    · have notBefore : j ∉ log.map (·.id) := fun visited =>
        Nat.lt_irrefl _ (lt_of_append ascending (t.mem_ids_of_visited visited) member)
      rw [or_iff_right notBefore, u.visited_iff j member]
      refine and_congr (forall_congr' fun outer => ?_) ⟨fun before x hx less => ?_,
        fun before x hx => ?_⟩
      · rw [nested_right ascending member]
        refine imp_congr_right fun nested =>
          ⟨fun ⟨x, hx, told⟩ => ?_, fun ⟨x, hx, same, told⟩ => ?_⟩
        · exact ⟨x, List.mem_append_right _ hx, told⟩
        · rcases List.mem_append.1 hx with hx | hx
          · exact absurd (same ▸ lt_of_append ascending (t.mem_ids hx) nested.mem.1)
              (Nat.lt_irrefl _)
          · exact ⟨x, hx, same, told⟩
      · rcases List.mem_append.1 hx with hx | hx
        · exact t.none_of_completed x hx
        · exact before x hx less
      · exact before x (List.mem_append_right _ hx)
  ended := by
    have none := t.none_of_completed
    rcases u.ended with ⟨rfl, others⟩ | ⟨before, x, rfl, ends, others⟩
    · exact .inl ⟨rfl, List.forall_mem_append.2 ⟨none, others⟩⟩
    · exact .inr ⟨log ++ before, x, (List.append_assoc ..).symm, ends,
        List.forall_mem_append.2 ⟨none, others⟩⟩

/-- After an answer that ends the walk nothing more is shown. -/
theorem append_of_ended (t : F.Tour log ending) (ended : ending ≠ .ok .completed) :
    (F ++ G).Tour log ending where
  shown := by
    rw [preorder_append]
    exact t.shown.trans (List.sublist_append_left _ _)
  visited_iff := by
    intro j member
    rw [ids_append, List.mem_append] at member
    rcases member with member | member
    · simp only [t.visited_iff j member, nested_left ascending member]
    · refine iff_of_false (fun visited => ?_) ?_
      · exact Nat.lt_irrefl _ (lt_of_append ascending (t.mem_ids_of_visited visited) member)
      · rintro ⟨_, goesOn⟩
        obtain ⟨completed, _⟩ | ⟨before, x, rfl, ends, _⟩ := t.ended
        · exact ended completed
        · have hx : x ∈ before ++ [x] := by simp
          rw [goesOn x hx (lt_of_append ascending (t.mem_ids hx) member)] at ends
          cases ends
  ended := t.ended

end Append

end Forest.Tour

/-! ### Walks are tours -/

section Walks

variable {visit : OpId → Operation ν → EStateM ε σ Control}

theorem thenWalk_run_of_ended {x y : EStateM ε σ Outcome} {s t : σ} {ending : Except ε Outcome}
    (run : x.run s = resultOf ending t) (ended : ending ≠ .ok .completed) :
    (thenWalk x y).run s = resultOf ending t := by
  rw [thenWalk, EStateM.run_bind, run]
  rcases ending with e | (_ | _)
  · rfl
  · exact absurd rfl ended
  · rfl

theorem thenWalk_run {x y : EStateM ε σ Outcome} {s t : σ}
    (run : x.run s = resultOf (.ok .completed) t) : (thenWalk x y).run s = y.run t := by
  rw [thenWalk, EStateM.run_bind, run]
  rfl

/-- **Tours.** A walk over a forest is a tour of it, and the log that is kept changes nothing. -/
theorem Forest.walk_tour {F : Forest ν} (ascending : F.ids.Pairwise (· < ·)) (s : σ)
    (past : List (Visited ν ε)) : ∃ log ending last,
      (F.walk (watch visit)).run (s, past) = resultOf ending (last, past ++ log) ∧
        (F.walk visit).run s = resultOf ending last ∧ F.Tour log ending := by
  induction F generalizing s past with
  | nil => exact ⟨[], .ok .completed, s, by rw [List.append_nil]; rfl, rfl, .nil⟩
  | cons id op inner rest ihInner ihRest =>
    -- The operation with what is nested in it is toured first, and then what lies beside it.
    have whole : Forest.cons id op inner rest = .cons id op inner .nil ++ rest := rfl
    have parts := ascending
    rw [ids_cons, List.pairwise_append] at parts
    have first : (Forest.cons id op inner .nil).ids.Pairwise (· < ·) := by
      rw [ids_cons, ids_nil, List.append_nil]
      exact parts.1
    have below := (List.pairwise_cons.1 parts.1).2
    have beside := parts.2.1
    rw [whole] at ascending ⊢
    obtain ⟨answer, t, shown⟩ := exists_resultOf ((visit id op).run s)
    have logged := watch_run shown past
    rcases answer with e | (_ | _ | _)
    · have here : (Forest.cons id op inner .nil).Tour [⟨id, op, .error e⟩] (.error e) :=
        .single first (by simp) (.inl rfl)
      refine ⟨_, .error e, t, ?_, ?_, here.append_of_ended ascending (by simp)⟩
      · simp only [cons_append, nil_append, Forest.walk, EStateM.run_bind, logged]
        rfl
      · simp only [cons_append, nil_append, Forest.walk, EStateM.run_bind, shown]
        rfl
    · obtain ⟨log, ending, u, innerLogged, innerRun, tour⟩ :=
        ihInner below t (past ++ [⟨id, op, .ok .descend⟩])
      have tourHere : (Forest.cons id op inner .nil).Tour _ _ := tour.below first
      have descend {τ : Type} {see : OpId → Operation ν → EStateM ε τ Control} {a b : τ}
          (seen : (see id op).run a = resultOf (.ok .descend) b) :
          ((Forest.cons id op inner .nil ++ rest).walk see).run a =
            (thenWalk (inner.walk see) (rest.walk see)).run b := by
        simp only [cons_append, nil_append, Forest.walk, EStateM.run_bind, seen]
        rfl
      by_cases ended : ending = .ok .completed
      · subst ended
        obtain ⟨more, ending, v, restLogged, restRun, tourRest⟩ :=
          ihRest beside u ((past ++ [⟨id, op, .ok .descend⟩]) ++ log)
        refine ⟨_, ending, v, ?_, ?_, tourHere.append ascending tourRest⟩
        · rw [descend logged, thenWalk_run innerLogged, restLogged]
          simp
        · rw [descend shown, thenWalk_run innerRun, restRun]
      · refine ⟨_, ending, u, ?_, ?_, tourHere.append_of_ended ascending ended⟩
        · rw [descend logged, thenWalk_run_of_ended innerLogged ended]
          simp
        · rw [descend shown, thenWalk_run_of_ended innerRun ended]
    · obtain ⟨more, ending, v, restLogged, restRun, tourRest⟩ :=
        ihRest beside t (past ++ [⟨id, op, .ok .skip⟩])
      have here : (Forest.cons id op inner .nil).Tour [⟨id, op, .ok .skip⟩] (.ok .completed :
          Except ε _) :=
        .single first (by simp) (.inr ⟨rfl, rfl⟩)
      refine ⟨_, ending, v, ?_, ?_, here.append ascending tourRest⟩
      · simp only [cons_append, nil_append, Forest.walk, EStateM.run_bind, logged]
        refine restLogged.trans ?_
        simp
      · simp only [cons_append, nil_append, Forest.walk, EStateM.run_bind, shown]
        exact restRun
    · have here : (Forest.cons id op inner .nil).Tour [⟨id, op, .ok .stop⟩] (.ok .stopped :
          Except ε _) :=
        .single first (by simp) (.inl rfl)
      refine ⟨_, .ok .stopped, t, ?_, ?_, here.append_of_ended ascending (by simp)⟩
      · simp only [cons_append, nil_append, Forest.walk, EStateM.run_bind, logged]
        rfl
      · simp only [cons_append, nil_append, Forest.walk, EStateM.run_bind, shown]
        rfl

end Walks

section Sure

variable {m n : Type → Type} [Monad m] [Monad n]

/-- A walk in one monad is carried over to another one together with its visitor. -/
theorem Forest.walk_carried (carry : ∀ {α : Type}, m α → n α)
    (pure_carried : ∀ {α : Type} (a : α), carry (pure a) = pure a)
    (bind_carried : ∀ {α β : Type} (x : m α) (f : α → m β),
      carry (x >>= f) = carry x >>= fun a => carry (f a))
    (visit : OpId → Operation ν → m Control) (F : Forest ν) :
    F.walk (fun id op => carry (visit id op)) = carry (F.walk visit) := by
  induction F with
  | nil => exact (pure_carried _).symm
  | cons id op inner rest ihInner ihRest =>
    rw [Forest.walk, Forest.walk, bind_carried]
    refine congrArg _ (funext fun control => ?_)
    cases control with
    | descend =>
      rw [ihInner, bind_carried]
      refine congrArg (carry (inner.walk visit) >>= ·) (funext fun outcome => ?_)
      cases outcome with
      | completed => exact ihRest
      | stopped => exact (pure_carried _).symm
    | skip => exact ihRest
    | stop => exact (pure_carried _).symm

/-- A computation that cannot fail, where failures are possible. -/
def sure (x : StateM σ α) : EStateM ε σ α := fun s => .ok (x.run s).1 (x.run s).2

theorem Forest.walk_sure (visit : OpId → Operation ν → StateM σ Control) (F : Forest ν) :
    F.walk (fun id op => sure (ε := ε) (visit id op)) = sure (F.walk visit) :=
  Forest.walk_carried (m := StateM σ) (fun x => sure x) (fun _ => rfl) (fun _ _ => rfl) visit F

end Sure

namespace Design

/-- What a log and an ending of a walk over a block tell of each other,
by the handles of the design. -/
structure Toured (d : Design ν) (b : BlockId) (log : List (Visited ν ε))
    (ending : Except ε Outcome) : Prop where
  /-- Operations are shown in the order of their handles, none twice. -/
  ascending : (log.map (·.id)).Pairwise (· < ·)
  /-- They are those of the design, and lie in the block. -/
  shown : ∀ x ∈ log, d.op x.id = .ok x.op ∧ d.LiesIn b x.id
  /-- An operation is shown just where the visitor descended at all that it is nested in, and no
  answer before it ended the walk. -/
  visited_iff : ∀ id, d.LiesIn b id → (id ∈ log.map (·.id) ↔
    (∀ outer, d.LiesIn b outer → d.LiesBelow outer id → Descended log outer) ∧
      ∀ x ∈ log, x.id < id → ¬ x.Ends)
  failed_iff : ∀ e, ending = .error e ↔ ∃ x ∈ log, x.answer = .error e
  stopped_iff : ending = .ok .stopped ↔ ∃ x ∈ log, x.answer = .ok .stop
  completed_iff : ending = .ok .completed ↔ ∀ x ∈ log, ¬ x.Ends
  /-- An answer that ends the walk is the last one. -/
  last : ∀ x ∈ log, x.Ends → log.getLast? = some x

/-- Walks over a block end, and show what they are to show. -/
structure WalksWell (d : Design ν) (b : BlockId) : Prop where
  /-- The recursion along handles has an end, and the walk is what it comes to. -/
  recursion :
    ∀ {m : Type → Type} [Monad m] [LawfulMonad m] (visit : OpId → Operation ν → m Control),
    ∃ x, d.walk b visit = .ok x ∧ ∀ y, d.BlockWalk visit b y ↔ y = x
  /-- A visitor with a state of its own: what it is shown, whatever it answers by. -/
  tour : ∀ {ε σ : Type} (visit : OpId → Operation ν → EStateM ε σ Control) (s : σ),
    ∃ log ending last,
    (d.walk b visit).map (·.run s) = .ok (resultOf ending last) ∧
      (d.walk b (watch visit)).map (·.run (s, [])) = .ok (resultOf ending (last, log)) ∧
      d.Toured b log ending
  /-- With a visitor that cannot fail, the walk is the one in which failures are possible. -/
  sure : ∀ {ε σ : Type} (visit : OpId → Operation ν → StateM σ Control),
    d.walk b (fun id op => sure (ε := ε) (visit id op)) = (d.walk b visit).map sure

end Design

section Main

variable {d : Design ν} {b : BlockId}

/-- A tour of the forest under a block tells of the block. -/
theorem Forest.Tour.toured {F : Forest ν} {log : List (Visited ν ε)} {ending : Except ε Outcome}
    (t : F.Tour log ending) (stands : F.StandsIn d) (heads : F.heads = d.opsOf b)
    (ascending : F.ids.Pairwise (· < ·)) : d.Toured b log ending := by
  have inside (id : OpId) : id ∈ F.ids ↔ d.LiesIn b id := by
    rw [Forest.mem_ids_iff stands, heads, Design.LiesIn]
  have ends (x : Visited ν ε) : x.ending? = none ↔ ¬ x.Ends := Visited.ending?_eq_none_iff
  refine ⟨?_, fun x hx => ⟨?_, ?_⟩, fun id lies => ?_, fun e => ?_, ?_, ?_,
    fun x hx => t.last_of_ends hx⟩
  · have within := t.shown.map Prod.fst
    rw [List.map_map] at within
    exact ascending.sublist within
  · have member := t.shown.subset (List.mem_map_of_mem hx)
    exact Design.op_eq_ok_iff.2 (Forest.op_of_mem_preorder stands _ member)
  · exact (inside x.id).1 (t.mem_ids hx)
  · rw [t.visited_iff id ((inside id).2 lies)]
    simp only [Forest.nested_iff stands, inside, and_imp, ends]
  · have early : (Except.error e : Except ε Outcome) ≠ .ok .completed := nofun
    simp only [t.ending_eq_iff early, Visited.ending?_eq_error_iff]
  · have early : (Except.ok .stopped : Except ε Outcome) ≠ .ok .completed := nofun
    simp only [t.ending_eq_iff early, Visited.ending?_eq_stopped_iff]
  · constructor
    · rintro rfl x hx
      exact (ends x).1 (t.none_of_completed x hx)
    · intro goesOn
      rcases t.ended with ⟨completed, _⟩ | ⟨before, x, rfl, ended, _⟩
      · exact completed
      · rw [(ends x).2 (goesOn x (by simp))] at ended
        cases ended

/-- The walk over a block is the recursion along the handles from there. -/
theorem Nesting.block_walk {F : Forest ν} (n : Nesting d F) (linked : d.WellLinked)
    (there : b.index < d.blocks.size) {m : Type → Type} [Monad m] [LawfulMonad m]
    (visit : OpId → Operation ν → m Control) :
    d.walk b visit = .ok ((d.under b).walk visit) ∧
      d.BlockWalk visit b ((d.under b).walk visit) := by
  obtain ⟨stands, heads, _⟩ := n.under_block linked there
  have found : d.block b = .ok d.blocks[b.index] :=
    Design.block_eq_ok_iff.2 (Array.getElem?_eq_getElem there)
  have listed : d.opsOf b = d.blocks[b.index].ops.toList := by
    rw [Design.opsOf, Design.block_eq_ok_iff.1 found]
  have walk : d.OpsWalk visit (d.under b).heads _ := Forest.walk_follows linked stands
  rw [heads, listed] at walk
  exact ⟨by rw [Design.walk, found]; rfl, .ops found walk⟩

/-- **Walks.** Over every block of the design of a script, a walk ends whatever its
visitor answers by. It shows an operation just where the answers before it let it, and
ends as the last of them says. -/
theorem walk_tours {d : Design Name} (scripted : d.Scripted) {b : BlockId}
    (there : b.index < d.blocks.size) : d.WalksWell b := by
  obtain ⟨F, n⟩ := scripted.nesting
  have linked := scripted.wellLinked
  obtain ⟨stands, heads, ascending⟩ := n.under_block linked there
  have found : d.block b = .ok d.blocks[b.index] :=
    Design.block_eq_ok_iff.2 (Array.getElem?_eq_getElem there)
  have walks {m : Type → Type} [Monad m] (visit : OpId → Operation Name → m Control) :
      d.walk b visit = .ok ((d.under b).walk visit) := by
    rw [Design.walk, found]
    rfl
  refine ⟨fun visit => ?_, fun visit s => ?_, fun visit => ?_⟩
  · have follows := (n.block_walk linked there visit).2
    refine ⟨_, walks visit, fun y => ⟨fun other => other.unique follows, ?_⟩⟩
    rintro rfl
    exact follows
  · obtain ⟨log, ending, last, logged, run, t⟩ := Forest.walk_tour ascending s []
    refine ⟨log, ending, last, ?_, ?_, t.toured stands heads ascending⟩
    · rw [walks, ← run]
      rfl
    · rw [walks]
      exact congrArg Except.ok logged
  · rw [walks, walks, Forest.walk_sure]
    rfl

theorem walks_of_containedRegion : Design.top.index < containedRegion.design.blocks.size ∧
    containedRegion.design.WalksWell Design.top :=
  ⟨by decide +kernel, walk_tours containedRegion.design_scripted (by decide +kernel)⟩

-- Three regions deep, an answer that stops the walk keeps what follows from the visitor.
example : ((Itinerary.mk [(⟨3⟩, .control .stop)] []).tryRun containedRegion.design Design.top).map
    (fun r => (r.visited.map (·.1.index), r.ending)) = .ok ([0, 1, 2, 3], .ok .stopped) := by
  decide +kernel

end Main

end DebugHierarchy
