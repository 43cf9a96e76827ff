import DebugHierarchy.Design.Visit
import DebugHierarchy.Proofs.Growing
import Mathlib.Logic.ExistsUnique

/-!
How the tables of a design refer to each other.

Operations, blocks and values name each other in both directions: a block lists its operations and
an operation names its block, an operation names the blocks it owns and a block its owner, a value
names the place it stands at.

* `Design.WellLinked`: both directions agree; a step of growth keeps them so (`WellLinked.grown`);
* `Design.IsTree`: the tables are those of a tree, read in the order of the handles;
* `design_links_consistent`: the design of a script is such a tree.
-/

namespace DebugHierarchy

variable {ν μ : Type}

namespace Design

def listed (d : Design ν) : List OpId := d.blocks.toList.flatMap (·.ops.toList)

def owned (d : Design ν) : List BlockId := d.ops.toList.flatMap (·.payload.regions)

/-- The value stands at a place: it is that result of an operation or that argument of a block. -/
def Holds (d : Design ν) (v : ValueId) : ValueDef → Prop
  | .opResult op i => ∃ o, d.op op = .ok o ∧ o.results[i]? = some v
  | .blockArg b i => ∃ block, d.block b = .ok block ∧ block.args[i]? = some v

/-- The owner of `inner` stands in `outer`. -/
def Inside (d : Design ν) (inner outer : BlockId) : Prop :=
  ∃ block owner o, d.block inner = .ok block ∧ block.parent = some owner ∧ d.op owner = .ok o ∧
    o.parent = outer

/-- What the tables say of each other agrees. -/
structure WellLinked (d : Design ν) : Prop where
  /-- Every operation is listed once. -/
  listed : d.listed.Perm ((List.range d.ops.size).map Handle.mk)
  /-- An operation names the block that lists it. -/
  parent : ∀ {b : Nat} {block : Block} {id : OpId}, d.blocks[b]? = some block → id ∈ block.ops →
    ∃ o, d.ops[id.index]? = some o ∧ o.parent.index = b
  /-- Every block but the top one is owned once, in the order of the handles. -/
  owned : d.owned = (List.range' 1 (d.blocks.size - 1)).map Handle.mk
  /-- A block names the operation that owns it. -/
  owner : ∀ {i : Nat} {o : Operation ν} {r : BlockId}, d.ops[i]? = some o → r ∈ o.payload.regions →
    ∃ block, d.blocks[r.index]? = some block ∧ block.parent = some ⟨i⟩
  free : ∃ block, d.blocks[0]? = some block ∧ block.parent = none
  /-- The owner of a block comes before the operations in it. -/
  before : ∀ {b : Nat} {block : Block} {owner : OpId}, d.blocks[b]? = some block →
    block.parent = some owner → owner.index < d.ops.size ∧ ∀ id ∈ block.ops, owner < id
  /-- A value names the one place at which it stands. -/
  values : ∀ v place, d.value v = .ok place ↔ d.Holds v place

theorem wellLinked_empty : (empty : Design ν).WellLinked where
  listed := by simp [Design.listed, empty]
  parent := by
    intro b block id found member
    simp only [empty, List.getElem?_toArray, List.getElem?_singleton] at found
    split at found
    · cases found
      simp at member
    · cases found
  owned := rfl
  owner := by simp [empty]
  free := ⟨_, rfl, rfl⟩
  before := by
    intro b block owner found parent
    simp only [empty, List.getElem?_toArray, List.getElem?_singleton] at found
    split at found
    · cases found
      cases parent
    · cases found
  values v place := by
    rw [value_eq_ok_iff]
    cases place with
    | opResult op i => simp [Holds, op_eq_ok_iff, empty]
    | blockArg b i =>
      simp only [Holds, block_eq_ok_iff, empty, List.getElem?_toArray, List.getElem?_singleton]
      constructor
      · intro found
        simp at found
      · rintro ⟨block, found, arg⟩
        split at found
        · cases found
          simp at arg
        · cases found

namespace Grown

variable {d e : Design ν} {b : BlockId} {o : Operation ν} {fresh : List Block}
  (g : d.Grown b o fresh e)

include g

/-- An operation is an old one, or the new one. -/
theorem op_cases {i : Nat} {x : Operation ν} : e.ops[i]? = some x ↔
    d.ops[i]? = some x ∨ i = d.ops.size ∧ x = o := by
  rw [g.ops, Array.getElem?_push]
  by_cases new : i = d.ops.size
  · subst new
    simp [eq_comm]
  · simp [new]

/-- A block is an old one, which may list the new operation, or it is owned by the new operation. -/
theorem block_cases {i : Nat} {y : Block} : e.blocks[i]? = some y ↔
    (∃ x, d.blocks[i]? = some x ∧
      y = if b.index = i then { x with ops := x.ops.push ⟨d.ops.size⟩ } else x) ∨
      ∃ j, i = d.blocks.size + j ∧ fresh[j]? = some y := by
  rw [g.blocks]
  by_cases old : i < d.blocks.size
  · rw [Array.getElem?_append_left (by simpa using old), Array.getElem?_modify]
    have later : ¬ ∃ j, i = d.blocks.size + j ∧ fresh[j]? = some y := by
      rintro ⟨j, rfl, _⟩
      omega
    rw [or_iff_left later]
    split
    · rw [Option.map_eq_some_iff]
      exact exists_congr fun x => and_congr_right fun _ => eq_comm
    · simp
  · rw [Array.getElem?_append_right (by simpa using old),
      Array.getElem?_eq_none (by omega : d.blocks.size ≤ i)]
    simp only [Array.size_modify, List.getElem?_toArray, reduceCtorEq, false_and,
      exists_false, false_or]
    constructor
    · intro found
      exact ⟨i - d.blocks.size, by omega, found⟩
    · rintro ⟨j, rfl, found⟩
      rwa [Nat.add_sub_cancel_left]

theorem ops_size : e.ops.size = d.ops.size + 1 := by
  rw [g.ops, Array.size_push]

/-- The new operation is listed once more than before, the others as before. -/
theorem listed_perm : e.listed.Perm (d.listed ++ [⟨d.ops.size⟩]) := by
  have inside : b.index < d.blocks.toList.length := by simpa using g.inside
  have none : fresh.flatMap (·.ops.toList) = [] := by
    rw [List.flatMap_eq_nil_iff]
    intro block hblock
    rw [(g.empty block hblock).1]
  have here : (d.blocks.modify b.index fun block =>
      { block with ops := block.ops.push ⟨d.ops.size⟩ }).toList = d.blocks.toList.take b.index ++
        { d.blocks.toList[b.index] with ops := d.blocks.toList[b.index].ops.push ⟨d.ops.size⟩ } ::
          d.blocks.toList.drop (b.index + 1) := by
    rw [Array.toList_modify, List.modify_eq_take_cons_drop inside]
  have whole := List.take_append_drop b.index d.blocks.toList
  rw [List.drop_eq_getElem_cons inside] at whole
  rw [listed, g.blocks, Array.toList_append, List.flatMap_append, none, List.append_nil, here,
    listed]
  conv_rhs => rw [← whole]
  simp only [List.flatMap_append, List.flatMap_cons, Array.toList_push, List.append_assoc]
  refine List.Perm.append_left _ (List.Perm.append_left _ ?_)
  exact List.perm_append_comm

/-- A value stands where it stood, or at a new place. -/
theorem holds_iff {v : ValueId} {place : ValueDef} :
    e.Holds v place ↔ d.Holds v place ∨ d.New o fresh v place := by
  cases place with
  | opResult op i =>
    simp only [Holds, New, op_eq_ok_iff, g.op_cases]
    constructor
    · rintro ⟨x, found | ⟨here, rfl⟩, result⟩
      · exact .inl ⟨x, found, result⟩
      · exact .inr ⟨Handle.ext here, result⟩
    · rintro (⟨x, found, result⟩ | ⟨rfl, result⟩)
      · exact ⟨x, .inl found, result⟩
      · exact ⟨o, .inr ⟨rfl, rfl⟩, result⟩
  | blockArg c i =>
    simp only [Holds, New, block_eq_ok_iff, g.block_cases]
    constructor
    · rintro ⟨block, ⟨x, found, rfl⟩ | ⟨j, here, found⟩, arg⟩
      · refine .inl ⟨x, found, ?_⟩
        by_cases atBlock : b.index = c.index
        · rwa [if_pos atBlock] at arg
        · rwa [if_neg atBlock] at arg
      · exact .inr ⟨j, block, Handle.ext here, found, arg⟩
    · rintro (⟨x, found, arg⟩ | ⟨j, block, rfl, found, arg⟩)
      · exact ⟨_, .inl ⟨x, found, rfl⟩, by split <;> exact arg⟩
      · exact ⟨block, .inr ⟨j, rfl, found⟩, arg⟩

theorem owned_eq : e.owned = d.owned ++ o.payload.regions := by
  rw [owned, g.ops, Array.toList_push, List.flatMap_append, List.flatMap_singleton, owned]

end Grown

/-- **Growth links.** A step of growth keeps the tables in agreement. -/
theorem WellLinked.grown {d e : Design ν} {b : BlockId} {o : Operation ν} {fresh : List Block}
    (h : d.WellLinked) (g : d.Grown b o fresh e) : e.WellLinked where
  listed := by
    rw [g.ops_size, List.range_succ, List.map_append]
    exact g.listed_perm.trans (h.listed.append_right _)
  parent := by
    intro i block id found member
    rcases g.block_cases.1 found with ⟨x, old, rfl⟩ | ⟨j, rfl, new⟩
    · by_cases here : b.index = i
      · rw [if_pos here, Array.mem_push] at member
        rcases member with member | rfl
        · obtain ⟨x, hx, parent⟩ := h.parent old member
          exact ⟨x, g.op_cases.2 (.inl hx), parent⟩
        · exact ⟨o, g.op_cases.2 (.inr ⟨rfl, rfl⟩), by rw [g.parent]; exact here⟩
      · rw [if_neg here] at member
        obtain ⟨x, hx, parent⟩ := h.parent old member
        exact ⟨x, g.op_cases.2 (.inl hx), parent⟩
    · rw [(g.empty block (List.mem_of_getElem? new)).1] at member
      simp at member
  owned := by
    obtain ⟨top, found, _⟩ := h.free
    have some := (Array.getElem?_eq_some_iff.1 found).1
    have count := g.blocks_size
    have next : d.blocks.size = 1 + (d.blocks.size - 1) := by omega
    rw [g.owned_eq, h.owned, g.regions, ← List.map_append]
    conv_lhs => rw [next]
    rw [Nat.add_sub_cancel_left, List.range'_append_1]
    congr 2
    omega
  owner := by
    intro i x r found member
    rcases g.op_cases.1 found with old | ⟨rfl, rfl⟩
    · obtain ⟨block, hblock, parent⟩ := h.owner old member
      exact ⟨_, g.block_cases.2 (.inl ⟨block, hblock, rfl⟩), by split <;> exact parent⟩
    · rw [g.regions] at member
      obtain ⟨k, hk, rfl⟩ := List.mem_map.1 member
      obtain ⟨low, high⟩ := List.mem_range'_1.1 hk
      have bound : k - d.blocks.size < fresh.length := by omega
      refine ⟨fresh[k - d.blocks.size], g.block_cases.2 (.inr ⟨k - d.blocks.size, ?_, ?_⟩), ?_⟩
      · exact (Nat.add_sub_cancel' low).symm
      · exact List.getElem?_eq_getElem bound
      · exact (g.empty _ (List.getElem_mem bound)).2
  free := by
    obtain ⟨top, found, parent⟩ := h.free
    exact ⟨_, g.block_cases.2 (.inl ⟨top, found, rfl⟩), by split <;> exact parent⟩
  before := by
    intro i block owner found parent
    rw [g.ops_size]
    rcases g.block_cases.1 found with ⟨x, old, rfl⟩ | ⟨j, rfl, new⟩
    · have same : x.parent = some owner := by
        by_cases here : b.index = i
        · rwa [if_pos here] at parent
        · rwa [if_neg here] at parent
      obtain ⟨there, less⟩ := h.before old same
      refine ⟨by omega, ?_⟩
      intro id member
      by_cases here : b.index = i
      · rw [if_pos here, Array.mem_push] at member
        rcases member with member | rfl
        · exact less id member
        · exact there
      · rw [if_neg here] at member
        exact less id member
    · obtain ⟨none, last⟩ := g.empty block (List.mem_of_getElem? new)
      rw [last] at parent
      cases parent
      rw [none]
      exact ⟨Nat.lt_succ_self _, by simp⟩
  values v place := by
    have old := h.values v place
    rw [value_eq_ok_iff] at old ⊢
    rw [g.values, old, g.holds_iff]

theorem Grows.wellLinked {d e : Design ν} (grows : d.Grows e) (h : d.WellLinked) :
    e.WellLinked := by
  induction grows with
  | refl => exact h
  | tail _ step ih =>
    obtain ⟨_, _, _, g⟩ := step
    exact ih.grown g

theorem WellLinked.map {d : Design ν} (h : d.WellLinked) (f : ν → μ) : (d.map f).WellLinked where
  listed := by simpa [Design.listed, Design.map] using h.listed
  parent := by
    intro b block id found member
    obtain ⟨o, there, parent⟩ := h.parent found member
    exact ⟨o.map f, by rw [Design.map, Array.getElem?_map, there]; rfl, parent⟩
  owned := by
    have same : (d.map f).owned = d.owned := by
      simp only [Design.owned, Design.map, Array.toList_map, List.flatMap_map]
      exact List.flatMap_congr fun o _ => o.payload.regions_map f
    exact same.trans h.owned
  owner := by
    intro i o r found member
    rw [Design.map, Array.getElem?_map, Option.map_eq_some_iff] at found
    obtain ⟨x, there, rfl⟩ := found
    exact h.owner there (by rwa [Operation.map, x.payload.regions_map] at member)
  free := h.free
  before := by
    intro b block owner found parent
    have := h.before found parent
    rwa [Design.map, Array.size_map]
  values v place := by
    rw [show (d.map f).value v = d.value v from rfl, h.values]
    cases place with
    | opResult op i =>
      simp only [Holds, op_eq_ok_iff, Design.map, Array.getElem?_map, Option.map_eq_some_iff]
      constructor
      · rintro ⟨o, found, result⟩
        exact ⟨_, ⟨o, found, rfl⟩, result⟩
      · rintro ⟨_, ⟨o, found, rfl⟩, result⟩
        exact ⟨o, found, result⟩
    | blockArg b i => exact Iff.rfl

/-! ### A tree -/

/-- The tables are those of a tree of operations and blocks, which a walk meets in the order of the
handles. -/
structure IsTree (d : Design ν) : Prop where
  /-- Over all blocks every operation is listed once, and nothing else is. -/
  listed_once : ∀ id : OpId, d.listed.count id = if id.index < d.ops.size then 1 else 0
  /-- An operation is listed by the block it names. -/
  listed_at : ∀ id o, d.op id = .ok o → ∃ block, d.block o.parent = .ok block ∧ id ∈ block.ops
  /-- Over all operations every block is owned once, save the top one, which none owns. -/
  owned_once : ∀ b : BlockId, b.index < d.blocks.size → d.owned.count b = if b = top then 0 else 1
  /-- The owner of a block is the operation it names. -/
  owner_iff : ∀ b block, d.block b = .ok block → ∀ id,
    block.parent = some id ↔ ∃ o, d.op id = .ok o ∧ b ∈ o.payload.regions
  /-- The owner of a block comes before the operations in it. -/
  owner_before : ∀ b block owner, d.block b = .ok block → block.parent = some owner →
    ∀ id ∈ block.ops, owner < id
  /-- The way out of a block ends at the top one, -/
  outwards : ∀ b : BlockId, b.index < d.blocks.size → Relation.ReflTransGen d.Inside b top
  /-- and it goes no further. -/
  outermost : ∀ outer, ¬ d.Inside top outer
  /-- A value names a place just where it stands there. -/
  value_iff : ∀ v place, d.value v = .ok place ↔ d.Holds v place
  /-- Every value stands at one place. -/
  value_place : ∀ v : ValueId, v.index < d.values.size → ∃! place, d.Holds v place
  /-- A walk that always descends shows the operations in the order of their handles, each once. -/
  walk_order : ∀ {m : Type → Type} [Monad m] [LawfulMonad m] (see : OpId → Operation ν → m Unit),
    d.walk top (fun id o => do see id o; return .descend) =
      .ok (do forM d.entries fun e => see e.1 e.2
              return .completed)
  /-- These are all operations. -/
  entries_order : d.entries.map (·.1) = (List.range d.ops.size).map Handle.mk

namespace WellLinked

variable {d : Design ν} (h : d.WellLinked)

include h

theorem mem_listed {id : OpId} : id ∈ d.listed ↔ id.index < d.ops.size := by
  rw [h.listed.mem_iff, List.mem_map]
  constructor
  · rintro ⟨i, hi, rfl⟩
    exact List.mem_range.1 hi
  · intro there
    exact ⟨id.index, List.mem_range.2 there, rfl⟩

theorem listed_nodup : d.listed.Nodup := by
  rw [h.listed.nodup_iff]
  apply List.Nodup.map _ List.nodup_range
  intro i j same
  exact congrArg Handle.index same

theorem mem_owned {b : BlockId} : b ∈ d.owned ↔ b ≠ top ∧ b.index < d.blocks.size := by
  obtain ⟨block, found, _⟩ := h.free
  have some := (Array.getElem?_eq_some_iff.1 found).1
  have apart : b ≠ top ↔ b.index ≠ 0 := not_congr Handle.ext_iff
  rw [h.owned, apart, List.mem_map]
  constructor
  · rintro ⟨i, hi, rfl⟩
    have := List.mem_range'_1.1 hi
    constructor
    · show i ≠ 0
      omega
    · show i < d.blocks.size
      omega
  · rintro ⟨other, there⟩
    exact ⟨b.index, List.mem_range'_1.2 (by omega), rfl⟩

theorem owned_nodup : d.owned.Nodup := by
  rw [h.owned]
  apply List.Nodup.map _ List.nodup_range'
  intro i j same
  exact congrArg Handle.index same

/-- The top block has no owner, -/
theorem parent_top {block : Block} (found : d.blocks[top.index]? = some block) :
    block.parent = none := by
  obtain ⟨same, again, none⟩ := h.free
  rw [show d.blocks[0]? = some block from found] at again
  cases again
  exact none

/-- and every other block has one. -/
theorem eq_top_of_parent {b : BlockId} {block : Block} (found : d.blocks[b.index]? = some block)
    (none : block.parent = none) : b = top := by
  by_contra other
  have there := (Array.getElem?_eq_some_iff.1 found).1
  obtain ⟨o, ho, member⟩ := List.mem_flatMap.1 (h.mem_owned.2 ⟨other, there⟩)
  obtain ⟨i, hi⟩ := List.getElem?_of_mem ho
  obtain ⟨same, again, parent⟩ := h.owner (by simpa using hi) member
  rw [found] at again
  cases again
  rw [none] at parent
  cases parent

/-- An operation stands in the block it names, which is there. -/
theorem listed_at {id : OpId} {o : Operation ν} (found : d.ops[id.index]? = some o) :
    ∃ block, d.blocks[o.parent.index]? = some block ∧ id ∈ block.ops := by
  have there := (Array.getElem?_eq_some_iff.1 found).1
  obtain ⟨block, hblock, member⟩ := List.mem_flatMap.1 (h.mem_listed.2 there)
  obtain ⟨b, hb⟩ := List.getElem?_of_mem hblock
  have at_b : d.blocks[b]? = some block := by simpa using hb
  obtain ⟨x, again, parent⟩ := h.parent at_b (by simpa using member)
  rw [found] at again
  cases again
  exact ⟨block, by rw [parent]; exact at_b, by simpa using member⟩

/-- The way out of a block passes owners with ever smaller handles, so it ends at the top block. -/
theorem outwards {b : BlockId} (there : b.index < d.blocks.size) :
    Relation.ReflTransGen d.Inside b top := by
  suffices ∀ k (b : BlockId) block, d.blocks[b.index]? = some block →
      (∀ owner ∈ block.parent, owner.index < k) → Relation.ReflTransGen d.Inside b top by
    apply this d.ops.size b _ (Array.getElem?_eq_getElem there)
    intro owner parent
    exact (h.before (Array.getElem?_eq_getElem there) parent).1
  intro k
  induction k with
  | zero =>
    intro b block found below
    cases parent : block.parent with
    | none => rw [h.eq_top_of_parent found parent]
    | some owner => exact absurd (below owner parent) (Nat.not_lt_zero _)
  | succ k ih =>
    intro b block found below
    cases parent : block.parent with
    | none => rw [h.eq_top_of_parent found parent]
    | some owner =>
      have bound := (h.before found parent).1
      have owned := Array.getElem?_eq_getElem bound
      obtain ⟨outer, around, member⟩ := h.listed_at owned
      have step : d.Inside b d.ops[owner.index].parent :=
        ⟨block, owner, _, block_eq_ok_iff.2 found, parent, op_eq_ok_iff.2 owned, rfl⟩
      apply Relation.ReflTransGen.head step
      apply ih _ outer around
      intro further outside
      have less : further.index < owner.index := (h.before around outside).2 owner member
      have := below owner parent
      omega

/-- The owner of a block is the operation it names. -/
theorem owner_iff {b : BlockId} {block : Block} (found : d.blocks[b.index]? = some block)
    {id : OpId} :
    block.parent = some id ↔ ∃ o, d.ops[id.index]? = some o ∧ b ∈ o.payload.regions := by
  have named {i : Nat} {o : Operation ν} (owner : d.ops[i]? = some o)
      (member : b ∈ o.payload.regions) : block.parent = some ⟨i⟩ := by
    obtain ⟨same, again, parent⟩ := h.owner owner member
    rw [found] at again
    cases again
    exact parent
  constructor
  · intro parent
    have other : b ≠ top := by
      rintro rfl
      rw [h.parent_top found] at parent
      cases parent
    have there := (Array.getElem?_eq_some_iff.1 found).1
    obtain ⟨o, ho, member⟩ := List.mem_flatMap.1 (h.mem_owned.2 ⟨other, there⟩)
    obtain ⟨i, hi⟩ := List.getElem?_of_mem ho
    have owner : d.ops[i]? = some o := by simpa using hi
    rw [named owner member] at parent
    cases parent
    exact ⟨o, owner, member⟩
  · rintro ⟨o, owner, member⟩
    exact named owner member

/-- Every value stands at the place it names and at no other. -/
theorem value_place {v : ValueId} (there : v.index < d.values.size) :
    ∃! place, d.Holds v place := by
  have known : d.value v = .ok d.values[v.index] :=
    value_eq_ok_iff.2 (Array.getElem?_eq_getElem there)
  refine ⟨_, (h.values v _).1 known, ?_⟩
  intro place holds
  have again := (h.values v place).2 holds
  rw [known] at again
  cases again
  rfl

end WellLinked

end Design

/-- A walk that always descends shows what lies in a forest in pre-order. -/
theorem Forest.walk_descending {m : Type → Type} [Monad m] [LawfulMonad m]
    (see : OpId → Operation ν → m Unit) (F : Forest ν) :
    F.walk (fun id o => do see id o; return .descend) =
      (do forM F.preorder fun e => see e.1 e.2
          return .completed) := by
  induction F with
  | nil => simp [walk, preorder]
  | cons id o inner rest ihInner ihRest =>
    simp only [walk, preorder, List.cons_append, List.forM_cons, List.forM_append,
      bind_assoc, pure_bind, ihInner, ihRest]

theorem Design.Scripted.wellLinked {d : Design Name} (scripted : d.Scripted) : d.WellLinked := by
  obtain ⟨script, last, t, f, run, rfl⟩ := scripted.draft
  exact (Design.Grows.wellLinked (Script.run_grows run) Design.wellLinked_empty).map f

/-- **Trees.** The tables of the design of a script are those of a tree, which a walk meets
in the order of the handles. -/
theorem design_links_consistent {d : Design Name} (scripted : d.Scripted) : d.IsTree := by
  have linked : d.WellLinked := scripted.wellLinked
  obtain ⟨F, n⟩ := scripted.nesting
  refine {
    listed_once := fun id => ?_
    listed_at := fun id o found => ?_
    owned_once := fun b there => ?_
    owner_iff := fun b block found id => ?_
    owner_before := fun b block owner found parent => ?_
    outwards := fun b => linked.outwards
    outermost := ?_
    value_iff := linked.values
    value_place := fun v => linked.value_place
    walk_order := fun see => ?_
    entries_order := ?_ }
  · rw [linked.listed_nodup.count]
    exact if_congr linked.mem_listed rfl rfl
  · simp only [Design.block_eq_ok_iff]
    exact linked.listed_at (Design.op_eq_ok_iff.1 found)
  · rw [linked.owned_nodup.count]
    by_cases atTop : b = Design.top
    · rw [if_pos atTop, if_neg fun member => (linked.mem_owned.1 member).1 atTop]
    · rw [if_neg atTop, if_pos (linked.mem_owned.2 ⟨atTop, there⟩)]
  · simp only [Design.op_eq_ok_iff]
    exact linked.owner_iff (Design.block_eq_ok_iff.1 found)
  · exact (linked.before (Design.block_eq_ok_iff.1 found) parent).2
  · rintro outer ⟨block, owner, o, found, parent, _⟩
    rw [linked.parent_top (Design.block_eq_ok_iff.1 found)] at parent
    cases parent
  · obtain ⟨block, found, _⟩ := linked.free
    have there : d.block Design.top = .ok block := Design.block_eq_ok_iff.2 found
    rw [Design.walk, there, n.under_top, Forest.walk_descending, n.preorder_eq]
    rfl
  · have order := congrArg (List.map fun i => (⟨i⟩ : OpId)) n.entries_ids
    rwa [List.map_map] at order

/-- A region in a module in a container, with a scope in it, and an extern
module beside the container. -/
def containedRegion : Script :=
  .container "c"
    (.module "M" [⟨.input, "a", none⟩, ⟨.output, "b", none⟩]
      (.region "r" (.leaf (some "s") (.dbgScope ⟨"s", "S", none⟩) .done) <|
        .leaf none (.output [.input 0]) .done) .done) <|
  .externModule "E" [] .done

theorem links_of_containedRegion :
    containedRegion.design.ops.size = 6 ∧ containedRegion.design.blocks.size = 4 ∧
      containedRegion.design.IsTree :=
  ⟨by decide +kernel, by decide +kernel, design_links_consistent containedRegion.design_scripted⟩

end DebugHierarchy
