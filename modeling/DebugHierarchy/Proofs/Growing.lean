import DebugHierarchy.Proofs.Drafting
import Mathlib.Logic.Relation

/-!
Designs grow by one kind of step.

A step adds one operation at the end of a block, together with the blocks that the operation
owns. Nothing else happens to the tables of a design, so what such a step keeps holds of every
design that a script makes.

* `Design.Grown`: what one step adds;
* `Script.run_grows`: a script takes such steps only, starting from the empty design.
-/

namespace DebugHierarchy

variable {ν : Type}

theorem bind_eq_ok_iff {ε α β : Type} {x : Except ε α} {f : α → Except ε β} {b : β} :
    x >>= f = .ok b ↔ ∃ a, x = .ok a ∧ f a = .ok b := by
  cases x with
  | ok a => exact ⟨fun run => ⟨a, rfl, run⟩, fun ⟨_, same, run⟩ => by cases same; exact run⟩
  | error e => exact ⟨nofun, nofun⟩

namespace Handle

theorem expect_eq_ok_iff {s : Space} {α : Type} {h : Handle s} {found : Option α} {a : α} :
    h.expect found = .ok a ↔ found = some a := by
  unfold expect
  cases found <;> simp

end Handle

namespace Design

variable {d e : Design ν}

theorem op_eq_ok_iff {id : OpId} {o : Operation ν} : d.op id = .ok o ↔ d.ops[id.index]? = some o :=
  Handle.expect_eq_ok_iff

theorem block_eq_ok_iff {b : BlockId} {block : Block} :
    d.block b = .ok block ↔ d.blocks[b.index]? = some block := Handle.expect_eq_ok_iff

theorem value_eq_ok_iff {v : ValueId} {place : ValueDef} :
    d.value v = .ok place ↔ d.values[v.index]? = some place := Handle.expect_eq_ok_iff

/-- The value stands at a place that is new: it is a result of the operation `o` or an argument of
one of the blocks that `o` owns. -/
def New (d : Design ν) (o : Operation ν) (fresh : List Block) (v : ValueId) : ValueDef → Prop
  | .opResult op i => op = ⟨d.ops.size⟩ ∧ o.results[i]? = some v
  | .blockArg b i =>
    ∃ j block, b = ⟨d.blocks.size + j⟩ ∧ fresh[j]? = some block ∧ block.args[i]? = some v

/-- `e` is `d` with the operation `o` at the end of the block `b`, and with
the new blocks that `o` owns. -/
structure Grown (d : Design ν) (b : BlockId) (o : Operation ν) (fresh : List Block) (e : Design ν) :
    Prop where
  inside : b.index < d.blocks.size
  ops : e.ops = d.ops.push o
  blocks : e.blocks = (d.blocks.modify b.index fun block =>
    { block with ops := block.ops.push ⟨d.ops.size⟩ }) ++ fresh.toArray
  parent : o.parent = b
  regions : o.payload.regions = (List.range' d.blocks.size fresh.length).map Handle.mk
  empty : ∀ block ∈ fresh, block.ops = #[] ∧ block.parent = some ⟨d.ops.size⟩
  values : ∀ (v : ValueId) place,
    e.values[v.index]? = some place ↔ d.values[v.index]? = some place ∨ d.New o fresh v place

def Step (d e : Design ν) : Prop := ∃ b o fresh, d.Grown b o fresh e

abbrev Grows : Design ν → Design ν → Prop := Relation.ReflTransGen Step

/-- The values that are appended are numbered from the first free handle on. -/
theorem getElem?_append_values {α : Type} (values : Array α) (f : Nat → α) (count : Nat)
    (v : ValueId) (a : α) :
    (values ++ ((List.range count).map f).toArray)[v.index]? = some a ↔ values[v.index]? = some a ∨
      ∃ i, a = f i ∧ ((List.range count).map fun i => (⟨values.size + i⟩ : ValueId))[i]? =
        some v := by
  simp only [List.getElem?_map, Option.map_eq_some_iff]
  by_cases old : v.index < values.size
  · rw [Array.getElem?_append_left old]
    refine ⟨.inl, ?_⟩
    rintro (found | ⟨i, _, k, _, rfl⟩)
    · exact found
    · exact absurd old (by simp)
  · rw [Array.getElem?_append_right (by omega),
      Array.getElem?_eq_none (by omega : values.size ≤ v.index)]
    simp only [List.getElem?_toArray, List.getElem?_map, Option.map_eq_some_iff,
      reduceCtorEq, false_or]
    constructor
    · rintro ⟨i, bound, rfl⟩
      obtain ⟨small, rfl⟩ := List.getElem?_eq_some_iff.1 bound
      rw [List.getElem_range]
      refine ⟨_, rfl, _, bound, Handle.ext ?_⟩
      simp only [List.getElem_range]
      omega
    · rintro ⟨i, rfl, k, bound, rfl⟩
      obtain ⟨small, rfl⟩ := List.getElem?_eq_some_iff.1 bound
      simp only [List.getElem_range] at bound ⊢
      exact ⟨i, by simpa using bound, rfl⟩

theorem grown_addOp {b : BlockId} (inside : b.index < d.blocks.size) (loc : SourceLoc ν)
    {payload : Payload ν} (leaf : payload.regions = []) (results : Nat) :
    d.Grown b (d.addOp b loc payload results).1 [] (d.addOp b loc payload results).2 where
  inside := inside
  ops := rfl
  blocks := by simp
  parent := rfl
  regions := leaf
  empty := by simp
  values v place := by
    rw [addOp_values, getElem?_append_values, ← addOp_results d b loc payload results]
    refine or_congr_right ?_
    cases place with
    | opResult op i => simp [New, and_assoc]
    | blockArg c i => simp [New]

theorem grown_addOwner {b : BlockId} (inside : b.index < d.blocks.size) (loc : SourceLoc ν)
    {payload : BlockId → Payload ν} (owns : ∀ r, (payload r).regions = [r]) (args : Nat) :
    d.Grown b (d.addOp b loc (payload ⟨d.blocks.size⟩) 0).1
      [⟨(List.range args).map fun i => ⟨d.values.size + i⟩, #[], some ⟨d.ops.size⟩⟩]
      (d.addOwner b loc payload args).2 where
  inside := inside
  ops := rfl
  blocks := by simp [addOwner, addValues]
  parent := rfl
  regions := owns _
  empty := by simp
  values v place := by
    rw [addOwner_values, getElem?_append_values]
    refine or_congr_right ?_
    cases place with
    | opResult op i => simp [New]
    | blockArg c i =>
      simp only [New]
      constructor
      · rintro ⟨_, same, arg⟩
        cases same
        exact ⟨0, _, rfl, rfl, arg⟩
      · rintro ⟨j, block, rfl, found, arg⟩
        cases j with
        | zero =>
          cases found
          exact ⟨i, rfl, arg⟩
        | succ j => simp at found

theorem Grown.blocks_size {b : BlockId} {o : Operation ν} {fresh : List Block}
    (g : d.Grown b o fresh e) : e.blocks.size = d.blocks.size + fresh.length := by
  simp [g.blocks]

theorem Grows.blocks_le (grows : d.Grows e) : d.blocks.size ≤ e.blocks.size := by
  induction grows with
  | refl => exact Nat.le_refl _
  | tail _ step ih =>
    obtain ⟨_, _, fresh, g⟩ := step
    have := g.blocks_size
    omega

end Design

open Drafting

theorem Leaf.draft_grows {level : Level} {label : Option String} {statement : Leaf} {s t : Draft}
    (inside : level.block.index < s.design.blocks.size)
    (run : (statement.draft level label).run s = .ok () t) : s.design.Grows t.design := by
  obtain ⟨payload, u, hread, run⟩ := run_bind_eq_ok.1 run
  obtain ⟨_, v, hnote, hadd⟩ := run_bind_eq_ok.1 run
  obtain ⟨rfl, makes⟩ := Leaf.payload_spec hread
  rw [addOp_design hadd, note_design hnote]
  exact .single ⟨_, _, _, Design.grown_addOp inside level.loc makes.leaf _⟩

/-- A block that was opened for an operation is there. -/
theorem Drafting.addOwner_grows {b region : BlockId} {loc : SourceLoc String}
    {payload : BlockId → Payload String} {args : Nat} {s t : Draft}
    (inside : b.index < s.design.blocks.size) (owns : ∀ r, (payload r).regions = [r])
    (run : (addOwner b loc payload args).run s = .ok region t) :
    s.design.Grows t.design ∧ region.index < t.design.blocks.size := by
  obtain ⟨rfl, grown⟩ := addOwner_design run
  rw [grown]
  exact ⟨.single ⟨_, _, _, Design.grown_addOwner inside loc owns args⟩, by simp⟩

theorem Body.draft_grows {body : Body} {level : Level} {s t : Draft}
    (inside : level.block.index < s.design.blocks.size)
    (run : (body.draft level).run s = .ok () t) : s.design.Grows t.design := by
  induction body generalizing level s t with
  | done => cases run; exact .refl
  | loc place rest ih =>
    obtain ⟨_, u, hnote, hrest⟩ := run_bind_eq_ok.1 run
    have same := note_design hnote
    rw [← same] at inside ⊢
    apply ih _ hrest
    exact inside
  | mention text rest ih =>
    obtain ⟨_, u, hnote, hrest⟩ := run_bind_eq_ok.1 run
    rw [← note_design hnote] at inside ⊢
    exact ih inside hrest
  | leaf label statement rest ih =>
    obtain ⟨_, u, hleaf, hrest⟩ := run_bind_eq_ok.1 run
    have first := Leaf.draft_grows inside hleaf
    have count := Design.Grows.blocks_le first
    exact first.trans (ih (by omega) hrest)
  | region name inner rest ihInner ihRest =>
    obtain ⟨_, u, hnote, run⟩ := run_bind_eq_ok.1 run
    obtain ⟨block, v, howner, run⟩ := run_bind_eq_ok.1 run
    obtain ⟨_, w, hinner, hrest⟩ := run_bind_eq_ok.1 run
    rw [← note_design hnote] at inside ⊢
    obtain ⟨opened, room⟩ := addOwner_grows inside (fun _ => rfl) howner
    have first := opened.trans (ihInner room hinner)
    have count := Design.Grows.blocks_le first
    exact first.trans (ihRest (by omega) hrest)

theorem Script.draft_grows {script : Script} {block : BlockId} {loc last : SourceLoc String}
    {s t : Draft} (inside : block.index < s.design.blocks.size)
    (run : (script.draft block loc).run s = .ok last t) : s.design.Grows t.design := by
  induction script generalizing block loc last s t with
  | done => cases run; exact .refl
  | loc place rest ih =>
    obtain ⟨_, u, hnote, hrest⟩ := run_bind_eq_ok.1 run
    rw [← note_design hnote] at inside ⊢
    exact ih inside hrest
  | mention text rest ih =>
    obtain ⟨_, u, hnote, hrest⟩ := run_bind_eq_ok.1 run
    rw [← note_design hnote] at inside ⊢
    exact ih inside hrest
  | module name ports body rest ih =>
    obtain ⟨_, u, hnote, run⟩ := run_bind_eq_ok.1 run
    obtain ⟨region, v, howner, run⟩ := run_bind_eq_ok.1 run
    obtain ⟨drafted, w, hget, run⟩ := run_bind_eq_ok.1 run
    obtain ⟨_, x, hbody, hrest⟩ := run_bind_eq_ok.1 run
    cases hget
    rw [← note_design hnote] at inside ⊢
    obtain ⟨opened, room⟩ := addOwner_grows inside (fun _ => rfl) howner
    have first := opened.trans (Body.draft_grows room hbody)
    have count := Design.Grows.blocks_le first
    exact first.trans (ih (by omega) hrest)
  | externModule name ports rest ih =>
    obtain ⟨_, u, hnote, run⟩ := run_bind_eq_ok.1 run
    obtain ⟨_, v, hadd, hrest⟩ := run_bind_eq_ok.1 run
    rw [← note_design hnote] at inside ⊢
    have first : u.design.Grows v.design := by
      rw [addOp_design hadd]
      exact .single ⟨_, _, _, Design.grown_addOp inside loc rfl 0⟩
    have count := Design.Grows.blocks_le first
    exact first.trans (ih (by omega) hrest)
  | container name inner rest ihInner ihRest =>
    obtain ⟨_, u, hnote, run⟩ := run_bind_eq_ok.1 run
    obtain ⟨region, v, howner, run⟩ := run_bind_eq_ok.1 run
    obtain ⟨after, w, hinner, hrest⟩ := run_bind_eq_ok.1 run
    rw [← note_design hnote] at inside ⊢
    obtain ⟨opened, room⟩ := addOwner_grows inside (fun _ => rfl) howner
    have first := opened.trans (ihInner room hinner)
    have count := Design.Grows.blocks_le first
    exact first.trans (ihRest (by omega) hrest)

/-- **Growth.** A script grows its design from the empty one, step by step. -/
theorem Script.run_grows {script : Script} {last : SourceLoc String} {t : Draft}
    (run : script.run = .ok last t) : Design.empty.Grows t.design :=
  Script.draft_grows (s := .empty) Nat.zero_lt_one run

end DebugHierarchy
