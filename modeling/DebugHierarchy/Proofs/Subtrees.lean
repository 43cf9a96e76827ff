import DebugHierarchy.Proofs.Linking

/-!
What lies under a block.

A block holds operations, and these own further blocks. Followed by handles, this is a relation
between operations (`Design.Owns`); read off a forest, it is the nesting of its nodes
(`Forest.Nested`). Both agree where the forest stands in the design.

* `Nesting.under_block`: in the design of a script, the forest under every block is complete;
* `Forest.mem_ids_iff`, `Forest.nested_iff`: membership and nesting in such
  a forest, told by handles.
-/

namespace DebugHierarchy

variable {ν : Type} {d : Design ν}

namespace Design

/-- The first operation owns the block in which the second one stands. -/
def Owns (d : Design ν) (outer id : OpId) : Prop :=
  ∃ o, d.op outer = .ok o ∧ ∃ b ∈ o.payload.regions, id ∈ d.opsOf b

/-- The second operation lies in a block that the first one owns, at whatever depth. -/
abbrev LiesBelow (d : Design ν) : OpId → OpId → Prop := Relation.TransGen d.Owns

/-- The operation lies in the block, at whatever depth. -/
def LiesIn (d : Design ν) (b : BlockId) (id : OpId) : Prop :=
  ∃ head ∈ d.opsOf b, Relation.ReflTransGen d.Owns head id

end Design

namespace Forest

def ids (F : Forest ν) : List OpId := F.preorder.map (·.1)

/-- The operation `outer` of the forest has the operation `id` nested in it. -/
def Nested (outer id : OpId) : Forest ν → Prop
  | nil => False
  | cons i _ inner rest => i = outer ∧ id ∈ inner.ids ∨ inner.Nested outer id ∨ rest.Nested outer id

@[simp] theorem ids_nil : (nil : Forest ν).ids = [] := rfl

@[simp] theorem ids_cons (i : OpId) (op : Operation ν) (inner rest : Forest ν) :
    (cons i op inner rest).ids = i :: inner.ids ++ rest.ids := by
  simp [ids, preorder]

@[simp] theorem ids_append (F G : Forest ν) : (F ++ G).ids = F.ids ++ G.ids := by
  simp [ids]

section Nested

variable {F G : Forest ν} {outer id : OpId}

theorem Nested.mem (nested : F.Nested outer id) : outer ∈ F.ids ∧ id ∈ F.ids := by
  induction F with
  | nil => exact nested.elim
  | cons i op inner rest ihInner ihRest =>
    rw [ids_cons, List.cons_append, List.mem_cons, List.mem_cons, List.mem_append, List.mem_append]
    rcases nested with ⟨rfl, member⟩ | below | beside
    · exact ⟨.inl rfl, .inr (.inl member)⟩
    · exact ⟨.inr (.inl (ihInner below).1), .inr (.inl (ihInner below).2)⟩
    · exact ⟨.inr (.inr (ihRest beside).1), .inr (.inr (ihRest beside).2)⟩

theorem nested_append : (F ++ G).Nested outer id ↔ F.Nested outer id ∨ G.Nested outer id := by
  induction F with
  | nil => simp [Nested]
  | cons i op inner rest _ ih => simp only [cons_append, Nested, ih, or_assoc]

end Nested

section Standing

variable {F G : Forest ν} {outer id : OpId}

theorem heads_subset_ids : ∀ id ∈ F.heads, id ∈ F.ids := by
  induction F with
  | nil => simp [heads]
  | cons i op inner rest _ ih =>
    intro id member
    rw [ids_cons, List.cons_append, List.mem_cons, List.mem_append]
    rcases List.mem_cons.1 member with rfl | member
    · exact .inl rfl
    · exact .inr (.inr (ih id member))

theorem standsIn_append_iff : (F ++ G).StandsIn d ↔ F.StandsIn d ∧ G.StandsIn d := by
  refine ⟨fun stands => ?_, fun both => standsIn_append both.1 both.2⟩
  induction F with
  | nil => exact ⟨trivial, stands⟩
  | cons i op inner rest _ ih =>
    obtain ⟨here, heads, below, beside⟩ := stands
    obtain ⟨left, right⟩ := ih beside
    exact ⟨⟨here, heads, below, left⟩, right⟩

/-- A forest falls apart where its heads do. -/
theorem exists_append_of_heads {xs ys : List OpId} (heads : F.heads = xs ++ ys) :
    ∃ G H : Forest ν, F = G ++ H ∧ G.heads = xs ∧ H.heads = ys := by
  induction xs generalizing F with
  | nil => exact ⟨nil, F, rfl, rfl, heads⟩
  | cons x xs ih =>
    cases F with
    | nil => cases heads
    | cons i op inner rest =>
      obtain ⟨rfl, tail⟩ := List.cons.inj heads
      obtain ⟨G, H, rfl, first, second⟩ := ih tail
      exact ⟨cons i op inner G, H, rfl, congrArg (i :: ·) first, second⟩

/-- What is nested in an operation is a forest of its own. -/
theorem exists_inner (stands : F.StandsIn d) {e : Entry ν} (member : e ∈ F.preorder) :
    ∃ inner : Forest ν, inner.StandsIn d ∧ inner.heads = e.2.payload.regions.flatMap d.opsOf ∧
      inner.regions ≤ F.regions ∧ inner.preorder.Sublist F.preorder := by
  induction F with
  | nil => cases member
  | cons i op inner rest ihInner ihRest =>
    obtain ⟨_, heads, below, beside⟩ := stands
    simp only [preorder, regions, List.cons_append, List.mem_cons, List.mem_append] at member ⊢
    rcases member with rfl | member | member
    · exact ⟨inner, below, heads, by omega, (List.sublist_append_left _ _).cons _⟩
    · obtain ⟨G, stands, heads, room, within⟩ := ihInner below member
      exact ⟨G, stands, heads, by omega, (within.trans (List.sublist_append_left _ _)).cons _⟩
    · obtain ⟨G, stands, heads, room, within⟩ := ihRest beside member
      exact ⟨G, stands, heads, by omega, (within.trans (List.sublist_append_right _ _)).cons _⟩

/-- What lies in one of the blocks that an operation owns is a forest of its own. -/
theorem exists_region (stands : F.StandsIn d) {e : Entry ν} (member : e ∈ F.preorder) {b : BlockId}
    (owned : b ∈ e.2.payload.regions) :
    ∃ G : Forest ν, G.StandsIn d ∧ G.heads = d.opsOf b ∧ G.regions ≤ F.regions ∧
      G.preorder.Sublist F.preorder := by
  obtain ⟨inner, below, heads, room, within⟩ := exists_inner stands member
  obtain ⟨before, after, regions⟩ := List.append_of_mem owned
  rw [regions, List.flatMap_append, List.flatMap_cons] at heads
  obtain ⟨L, rest, rfl, _, heads⟩ := exists_append_of_heads heads
  obtain ⟨G, R, rfl, heads, _⟩ := exists_append_of_heads heads
  rw [standsIn_append_iff, standsIn_append_iff] at below
  rw [regions_append, regions_append] at room
  rw [preorder_append, preorder_append] at within
  have here : G.preorder.Sublist (L.preorder ++ (G.preorder ++ R.preorder)) :=
    (List.sublist_append_left _ _).trans (List.sublist_append_right _ _)
  exact ⟨G, below.2.1, heads, by omega, here.trans within⟩

/-! ### Nesting told by handles -/

/-- An operation of the forest has nested in it what stands in its blocks. -/
theorem nested_of_owns (stands : F.StandsIn d) (member : outer ∈ F.ids) (owns : d.Owns outer id) :
    F.Nested outer id := by
  induction F with
  | nil => cases member
  | cons i op inner rest ihInner ihRest =>
    obtain ⟨here, heads, below, beside⟩ := stands
    rw [ids_cons, List.cons_append, List.mem_cons, List.mem_append] at member
    rcases member with rfl | member | member
    · obtain ⟨o, found, b, owned, inBlock⟩ := owns
      rw [Design.op_eq_ok_iff, here] at found
      cases found
      refine .inl ⟨rfl, heads_subset_ids id ?_⟩
      rw [heads]
      exact List.mem_flatMap.2 ⟨b, owned, inBlock⟩
    · exact .inr (.inl (ihInner below member))
    · exact .inr (.inr (ihRest beside member))

/-- What is nested in an operation comes with all that stands in its blocks. -/
theorem Nested.owns {inside : OpId} (stands : F.StandsIn d) (nested : F.Nested outer id)
    (owns : d.Owns id inside) : F.Nested outer inside := by
  induction F with
  | nil => exact nested.elim
  | cons i op inner rest ihInner ihRest =>
    obtain ⟨_, _, below, beside⟩ := stands
    rcases nested with ⟨rfl, member⟩ | nested | nested
    · exact .inl ⟨rfl, (nested_of_owns below member owns).mem.2⟩
    · exact .inr (.inl (ihInner below nested))
    · exact .inr (.inr (ihRest beside nested))

/-- What holds of the heads, and with an operation of all that stands in its
blocks, holds of the whole forest. -/
theorem forall_ids {P : OpId → Prop} (stands : F.StandsIn d) (heads : ∀ id ∈ F.heads, P id)
    (inwards : ∀ {outer id}, P outer → d.Owns outer id → P id) : ∀ id ∈ F.ids, P id := by
  induction F with
  | nil => simp
  | cons i op inner rest ihInner ihRest =>
    obtain ⟨here, innerHeads, below, beside⟩ := stands
    have first : P i := heads i List.mem_cons_self
    intro id member
    rw [ids_cons, List.cons_append, List.mem_cons, List.mem_append] at member
    rcases member with rfl | member | member
    · exact first
    · refine ihInner below (fun head there => ?_) id member
      rw [innerHeads] at there
      obtain ⟨b, owned, inBlock⟩ := List.mem_flatMap.1 there
      exact inwards first ⟨op, Design.op_eq_ok_iff.2 here, b, owned, inBlock⟩
    · exact ihRest beside (fun head there => heads head (List.mem_cons_of_mem _ there)) id member

/-- **Membership.** The operations of a forest are its heads and what they own, step by step. -/
theorem mem_ids_iff (stands : F.StandsIn d) :
    id ∈ F.ids ↔ ∃ head ∈ F.heads, Relation.ReflTransGen d.Owns head id := by
  constructor
  · have reached : ∀ id ∈ F.ids, ∃ head ∈ F.heads, Relation.ReflTransGen d.Owns head id := by
      refine forall_ids stands (fun head there => ⟨head, there, .refl⟩) ?_
      rintro outer id ⟨head, there, way⟩ owns
      exact ⟨head, there, way.tail owns⟩
    exact reached id
  · rintro ⟨head, there, way⟩
    induction way with
    | refl => exact heads_subset_ids head there
    | tail _ owns ih => exact (nested_of_owns stands ih owns).mem.2

/-- **Nesting.** An operation has nested in it what it owns, step by step. -/
theorem nested_iff (stands : F.StandsIn d) :
    F.Nested outer id ↔ outer ∈ F.ids ∧ d.LiesBelow outer id := by
  constructor
  · intro nested
    refine ⟨nested.mem.1, ?_⟩
    induction F with
    | nil => exact nested.elim
    | cons i op inner rest ihInner ihRest =>
      obtain ⟨here, heads, below, beside⟩ := stands
      rcases nested with ⟨rfl, member⟩ | nested | nested
      · refine forall_ids below (fun head there => ?_) (fun way owns => way.tail owns) id member
        rw [heads] at there
        obtain ⟨b, owned, inBlock⟩ := List.mem_flatMap.1 there
        exact .single ⟨op, Design.op_eq_ok_iff.2 here, b, owned, inBlock⟩
      · exact ihInner below nested
      · exact ihRest beside nested
  · rintro ⟨member, way⟩
    induction way with
    | single owns => exact nested_of_owns stands member owns
    | tail _ owns ih => exact ih.owns stands owns

end Standing

end Forest

/-- **Under a block.** In a design that is told by a forest, the forest under every block is
complete, and its operations are met in the order of their handles. -/
theorem Nesting.under_block {F : Forest ν} (n : Nesting d F) (linked : d.WellLinked) {b : BlockId}
    (there : b.index < d.blocks.size) :
    (d.under b).StandsIn d ∧ (d.under b).heads = d.opsOf b ∧
      (d.under b).ids.Pairwise (· < ·) := by
  have ordered {G : Forest ν} (within : G.preorder.Sublist F.preorder) :
      G.ids.Pairwise (· < ·) := by
    have all : (F.preorder.map (·.1.index)).Pairwise (· < ·) := n.order ▸ List.pairwise_lt_range
    rw [List.pairwise_map] at all
    exact List.pairwise_map.2 (all.sublist within)
  by_cases atTop : b = Design.top
  · rw [atTop, n.under_top]
    exact ⟨n.stands, n.heads, ordered (.refl _)⟩
  · obtain ⟨o, ho, owned⟩ := List.mem_flatMap.1 (linked.mem_owned.2 ⟨atTop, there⟩)
    obtain ⟨i, hi⟩ := List.getElem?_of_mem ho
    have member : ((⟨i⟩, o) : Entry ν) ∈ F.preorder := by
      rw [n.preorder_eq]
      exact Design.mem_entries_of_ops (by simpa using hi)
    obtain ⟨G, stands, heads, room, within⟩ := Forest.exists_region n.stands member owned
    have total := n.room
    rw [Forest.under_eq stands heads (by omega)]
    exact ⟨stands, heads, ordered within⟩

end DebugHierarchy
