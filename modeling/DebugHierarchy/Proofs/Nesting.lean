import DebugHierarchy.Design.Forest
import Mathlib.Data.List.Nodup

/-!
What lies in what, told by a forest that stands for the whole design.

* `Forest.StandsIn`: each operation of the forest has under it all that lies in its blocks, so that
  nothing is cut off (`forestOf_heads`);
* `Nesting`: the forest holds every operation once, in the order of the handles, and no module lies
  in another one. `Proofs/Drafting` shows that scripts only make such designs;
* `Nesting.definitions_eq`: the definitions are met in the order of their handles;
* `Nesting.sections_sublist`: the bodies of the modules share no operation.
-/

namespace DebugHierarchy

variable {ν μ : Type}

namespace Forest

def heads : Forest ν → List OpId
  | nil => []
  | cons id _ _ rest => id :: rest.heads

def depth : Forest ν → Nat
  | nil => 0
  | cons _ _ inner rest => max (inner.depth + 1) rest.depth

def regions : Forest ν → Nat
  | nil => 0
  | cons _ op inner rest => op.payload.regions.length + inner.regions + rest.regions

def append : Forest ν → Forest ν → Forest ν
  | nil, next => next
  | cons id op inner rest, next => cons id op inner (rest.append next)

instance : Append (Forest ν) := ⟨append⟩

/-- Every operation stands in the design as the forest has it, with all that lies in its blocks. -/
def StandsIn (d : Design ν) : Forest ν → Prop
  | nil => True
  | cons id op inner rest =>
    d.ops[id.index]? = some op ∧ inner.heads = op.payload.regions.flatMap d.opsOf ∧
      inner.StandsIn d ∧ rest.StandsIn d

def Plain : Forest ν → Prop
  | nil => True
  | cons _ op inner rest => op.payload.isModuleLike = false ∧ inner.Plain ∧ rest.Plain

/-- Module-like operations lie beside each other, never in each other. -/
def Flat : Forest ν → Prop
  | nil => True
  | cons _ op inner rest =>
    (if op.payload.isModuleLike then inner.Plain else inner.Flat) ∧ rest.Flat

/-- The outermost module-like operations, each with what lies in it. -/
def parts : Forest ν → List (Entry ν × Forest ν)
  | nil => []
  | cons id op inner rest =>
    if op.payload.isModuleLike then ((id, op), inner) :: rest.parts else inner.parts ++ rest.parts

@[simp] theorem nil_append (F : Forest ν) : nil ++ F = F := rfl

@[simp] theorem cons_append (id : OpId) (op : Operation ν) (inner rest F : Forest ν) :
    cons id op inner rest ++ F = cons id op inner (rest ++ F) := rfl

@[simp] theorem heads_append (F G : Forest ν) : (F ++ G).heads = F.heads ++ G.heads := by
  induction F with
  | nil => rfl
  | cons id op inner rest _ ih => simp [heads, ih]

@[simp] theorem preorder_append (F G : Forest ν) :
    (F ++ G).preorder = F.preorder ++ G.preorder := by
  induction F with
  | nil => rfl
  | cons id op inner rest _ ih => simp [preorder, ih]

@[simp] theorem regions_append (F G : Forest ν) : (F ++ G).regions = F.regions + G.regions := by
  induction F with
  | nil => simp [regions]
  | cons id op inner rest _ ih => simp only [cons_append, regions, ih]; omega

theorem standsIn_append {d : Design ν} {F G : Forest ν} (hF : F.StandsIn d) (hG : G.StandsIn d) :
    (F ++ G).StandsIn d := by
  induction F with
  | nil => exact hG
  | cons id op inner rest _ ih => exact ⟨hF.1, hF.2.1, hF.2.2.1, ih hF.2.2.2⟩

theorem plain_append {F G : Forest ν} (hF : F.Plain) (hG : G.Plain) : (F ++ G).Plain := by
  induction F with
  | nil => exact hG
  | cons id op inner rest _ ih => exact ⟨hF.1, hF.2.1, ih hF.2.2⟩

theorem flat_append {F G : Forest ν} (hF : F.Flat) (hG : G.Flat) : (F ++ G).Flat := by
  induction F with
  | nil => exact hG
  | cons id op inner rest _ ih => exact ⟨hF.1, ih hF.2⟩

theorem eq_nil_of_heads {F : Forest ν} (none : F.heads = []) : F = nil := by
  cases F with
  | nil => rfl
  | cons => simp [heads] at none

theorem op_of_mem_preorder {d : Design ν} {F : Forest ν} (stands : F.StandsIn d) :
    ∀ e ∈ F.preorder, d.ops[e.1.index]? = some e.2 := by
  induction F with
  | nil => simp [preorder]
  | cons id op inner rest ihInner ihRest =>
    intro e he
    obtain ⟨here, _, hInner, hRest⟩ := stands
    simp only [preorder, List.cons_append, List.mem_cons, List.mem_append] at he
    rcases he with rfl | he | he
    · exact here
    · exact ihInner hInner e he
    · exact ihRest hRest e he

/-- No chain of operations is longer than there are blocks to hold them. -/
theorem depth_le {d : Design ν} {F : Forest ν} (stands : F.StandsIn d) :
    F.depth ≤ F.regions + 1 := by
  induction F with
  | nil => simp [depth]
  | cons id op inner rest ihInner ihRest =>
    obtain ⟨_, heads, hInner, hRest⟩ := stands
    have below := ihInner hInner
    have beside := ihRest hRest
    have room : inner.depth ≤ op.payload.regions.length + inner.regions := by
      cases owned : op.payload.regions with
      | nil =>
        rw [owned] at heads
        rw [eq_nil_of_heads heads]
        simp [depth]
      | cons => simp only [List.length_cons]; omega
    simp only [depth, regions]
    omega

/-- Read deep enough, the design gives back the forest that stands in it. -/
theorem forestOf_heads {d : Design ν} {F : Forest ν} (stands : F.StandsIn d) {depth : Nat}
    (enough : F.depth ≤ depth) : d.forestOf depth F.heads = F := by
  induction F generalizing depth with
  | nil => cases depth <;> rfl
  | cons id op inner rest ihInner ihRest =>
    obtain ⟨here, heads, hInner, hRest⟩ := stands
    simp only [Forest.depth] at enough
    obtain ⟨depth, rfl⟩ : ∃ k, depth = k + 1 := ⟨depth - 1, by omega⟩
    have inner_eq : d.forestOf depth inner.heads = inner := ihInner hInner (by omega)
    have rest_eq : d.forestOf (depth + 1) rest.heads = rest := ihRest hRest (by omega)
    rw [heads] at inner_eq
    simp only [Design.forestOf] at rest_eq
    simp only [Forest.heads, Design.forestOf, List.foldr_cons, here, inner_eq, rest_eq]

theorem under_eq {d : Design ν} {F : Forest ν} {block : BlockId} (stands : F.StandsIn d)
    (heads : F.heads = d.opsOf block) (room : F.regions < d.blocks.size) : d.under block = F := by
  rw [Design.under, ← heads]
  exact forestOf_heads stands (Nat.le_trans (depth_le stands) room)

/-! ### Modules and what lies in them -/

theorem body_of_plain {F : Forest ν} (plain : F.Plain) : F.body = F.preorder := by
  induction F with
  | nil => rfl
  | cons id op inner rest ihInner ihRest =>
    simp [body, preorder, plain.1, ihInner plain.2.1, ihRest plain.2.2]

theorem filter_preorder_of_plain {F : Forest ν} (plain : F.Plain) :
    F.preorder.filter (·.2.payload.isModuleLike) = [] := by
  induction F with
  | nil => rfl
  | cons id op inner rest ihInner ihRest =>
    simp only [preorder, List.cons_append, List.filter_cons, plain.1, Bool.false_eq_true, if_false,
      List.filter_append, ihInner plain.2.1, ihRest plain.2.2, List.append_nil]

/-- Where no module lies in another one, every module is met. -/
theorem definitions_of_flat {F : Forest ν} (flat : F.Flat) :
    F.definitions = F.preorder.filter (·.2.payload.isModuleLike) := by
  induction F with
  | nil => rfl
  | cons id op inner rest ihInner ihRest =>
    obtain ⟨here, hRest⟩ := flat
    simp only [definitions, preorder, List.cons_append, List.filter_cons, List.filter_append,
      ← ihRest hRest]
    cases like : op.payload.isModuleLike with
    | true =>
      rw [like, if_pos rfl] at here
      simp [filter_preorder_of_plain here]
    | false =>
      rw [like, if_neg (by simp)] at here
      simp [ihInner here]

theorem parts_map_fst (F : Forest ν) : F.parts.map (·.1) = F.definitions := by
  induction F with
  | nil => rfl
  | cons id op inner rest ihInner ihRest =>
    simp only [parts, definitions]
    split <;> simp [ihInner, ihRest]

theorem parts_sublist (F : Forest ν) :
    (F.parts.flatMap fun p => p.1 :: p.2.preorder).Sublist F.preorder := by
  induction F with
  | nil => exact .slnil
  | cons id op inner rest ihInner ihRest =>
    simp only [parts, preorder, List.cons_append]
    split
    · exact ((List.Sublist.refl inner.preorder).append ihRest).cons_cons _
    · rw [List.flatMap_append]
      exact (ihInner.append ihRest).cons _

theorem part_of_mem {d : Design ν} {F : Forest ν} (stands : F.StandsIn d) (flat : F.Flat) :
    ∀ p ∈ F.parts, p.2.StandsIn d ∧ p.2.Plain ∧ p.2.regions ≤ F.regions ∧
      p.2.heads = p.1.2.payload.regions.flatMap d.opsOf := by
  induction F with
  | nil => simp [parts]
  | cons id op inner rest ihInner ihRest =>
    intro p hp
    obtain ⟨_, heads, hInner, hRest⟩ := stands
    obtain ⟨here, flatRest⟩ := flat
    simp only [parts] at hp
    split at hp
    · next like =>
      rw [if_pos like] at here
      rcases List.mem_cons.1 hp with rfl | hp
      · exact ⟨hInner, here, by simp only [regions]; omega, heads⟩
      · obtain ⟨a, b, c, e⟩ := ihRest hRest flatRest p hp
        exact ⟨a, b, by simp only [regions]; omega, e⟩
    · next like =>
      rw [if_neg like] at here
      rcases List.mem_append.1 hp with hp | hp
      · obtain ⟨a, b, c, e⟩ := ihInner hInner here p hp
        exact ⟨a, b, by simp only [regions]; omega, e⟩
      · obtain ⟨a, b, c, e⟩ := ihRest hRest flatRest p hp
        exact ⟨a, b, by simp only [regions]; omega, e⟩

end Forest

namespace Design

def entries (d : Design ν) : List (Entry ν) :=
  (List.range d.ops.size).filterMap fun i => d.ops[i]?.map (⟨i⟩, ·)

theorem ops_of_mem_entries {d : Design ν} {e : Entry ν} (he : e ∈ d.entries) :
    d.ops[e.1.index]? = some e.2 := by
  obtain ⟨i, _, found⟩ := List.mem_filterMap.1 he
  obtain ⟨op, there, rfl⟩ := Option.map_eq_some_iff.1 found
  exact there

theorem mem_entries_of_ops {d : Design ν} {id : OpId} {op : Operation ν}
    (there : d.ops[id.index]? = some op) : (id, op) ∈ d.entries :=
  List.mem_filterMap.2 ⟨id.index,
    List.mem_range.2 (Array.getElem?_eq_some_iff.1 there).1, by rw [there]; rfl⟩

/-- What belongs to the body of a definition; extern modules have none. -/
def bodyIn (d : Design ν) (e : Entry ν) : List (Entry ν) :=
  match e.2.payload with
  | .module _ _ body => d.bodyOf body
  | _ => []

theorem bodyIn_of_module (d : Design ν) {e : Entry ν} {name : ν} {ports : List (Port ν)}
    {block : BlockId} (payload : e.2.payload = .module name ports block) :
    d.bodyIn e = d.bodyOf block := by
  rw [bodyIn, payload]

end Design

theorem op_of_mem_entries {d : Design ν} {e : Entry ν} (he : e ∈ d.entries) :
    d.op e.1 = .ok e.2 := by
  rw [Design.op, Design.ops_of_mem_entries he]
  rfl

/-- The forest stands for the whole design. -/
structure Nesting (d : Design ν) (F : Forest ν) : Prop where
  stands : F.StandsIn d
  heads : F.heads = d.opsOf Design.top
  flat : F.Flat
  order : F.preorder.map (·.1.index) = List.range d.ops.size
  room : F.regions < d.blocks.size

namespace Nesting

variable {d : Design ν} {F : Forest ν}

theorem under_top (n : Nesting d F) : d.under Design.top = F :=
  Forest.under_eq n.stands n.heads n.room

theorem preorder_eq (n : Nesting d F) : F.preorder = d.entries := by
  have found : ∀ l : List (Entry ν), (∀ e ∈ l, d.ops[e.1.index]? = some e.2) →
      l = (l.map (·.1.index)).filterMap fun i => d.ops[i]?.map (⟨i⟩, ·) := by
    intro l hl
    induction l with
    | nil => rfl
    | cons e rest ih =>
      have here := hl e List.mem_cons_self
      have beside := ih fun e he => hl e (List.mem_cons_of_mem _ he)
      simp only [List.map_cons, List.filterMap_cons, here, Option.map_some, ← beside]
  rw [Design.entries, ← n.order]
  exact found _ (Forest.op_of_mem_preorder n.stands)

/-- **Definitions in order.** The definitions of a design are its module-like operations, in
the order of their handles. -/
theorem definitions_eq (n : Nesting d F) :
    d.definitions = d.entries.filter (·.2.payload.isModuleLike) := by
  rw [Design.definitions, n.under_top, Forest.definitions_of_flat n.flat, n.preorder_eq]

theorem mem_definitions_iff (n : Nesting d F) {e : Entry ν} :
    e ∈ d.definitions ↔ e ∈ d.entries ∧ e.2.payload.isModuleLike = true := by
  rw [n.definitions_eq, List.mem_filter]

theorem definition_of_module (n : Nesting d F) {e : Entry ν} (he : e ∈ d.entries) {name : ν}
    {ports : List (Port ν)} {block : BlockId} (payload : e.2.payload = .module name ports block) :
    e ∈ d.definitions :=
  n.mem_definitions_iff.2 ⟨he, by rw [payload]; rfl⟩

/-- What lies in the body of a module is the part of the forest that belongs to its definition. -/
theorem under_of_mem_parts (n : Nesting d F) {p : Entry ν × Forest ν} (hp : p ∈ F.parts) {name : ν}
    {ports : List (Port ν)} {block : BlockId} (payload : p.1.2.payload = .module name ports block) :
    d.under block = p.2 ∧ p.2.Plain := by
  obtain ⟨stands, plain, room, heads⟩ := Forest.part_of_mem n.stands n.flat p hp
  rw [payload] at heads
  simp only [Payload.regions, List.flatMap_cons, List.flatMap_nil, List.append_nil] at heads
  have total := n.room
  exact ⟨Forest.under_eq stands heads (by omega), plain⟩

theorem bodyIn_of_mem_parts (n : Nesting d F) {p : Entry ν × Forest ν} (hp : p ∈ F.parts) :
    d.bodyIn p.1 = p.2.preorder := by
  obtain ⟨_, _, _, heads⟩ := Forest.part_of_mem n.stands n.flat p hp
  have like : p.1.2.payload.isModuleLike = true := by
    have : p.1 ∈ F.definitions := F.parts_map_fst ▸ List.mem_map_of_mem hp
    rw [Forest.definitions_of_flat n.flat] at this
    exact (List.mem_filter.1 this).2
  unfold Design.bodyIn
  cases payload : p.1.2.payload with
  | module name ports body =>
    obtain ⟨under, plain⟩ := n.under_of_mem_parts hp payload
    show (d.under body).body = _
    rw [under, Forest.body_of_plain plain]
  | externModule name ports =>
    rw [payload] at heads
    rw [Forest.eq_nil_of_heads heads]
    rfl
  | _ => simp [payload, Payload.isModuleLike, Payload.symbol?] at like

/-- **Bodies apart.** The definitions and the operations of their bodies, taken together, are
operations of the design in the order of their handles, none of them twice. -/
theorem sections_sublist (n : Nesting d F) :
    (d.definitions.flatMap fun e => e :: d.bodyIn e).Sublist d.entries := by
  have : (d.definitions.flatMap fun e => e :: d.bodyIn e) =
      F.parts.flatMap fun p => p.1 :: p.2.preorder := by
    rw [Design.definitions, n.under_top, ← F.parts_map_fst, List.flatMap_map]
    exact List.flatMap_congr fun p hp => by rw [n.bodyIn_of_mem_parts hp]
  rw [this, ← n.preorder_eq]
  exact F.parts_sublist

theorem mem_entries_of_body (n : Nesting d F) {e f : Entry ν} (he : e ∈ d.definitions)
    (hf : f ∈ d.bodyIn e) : f ∈ d.entries :=
  n.sections_sublist.subset (List.mem_flatMap.2 ⟨e, he, List.mem_cons_of_mem _ hf⟩)

theorem entries_ids (n : Nesting d F) : d.entries.map (·.1.index) = List.range d.ops.size := by
  rw [← n.preorder_eq, n.order]

theorem sections_nodup (n : Nesting d F) :
    ((d.definitions.flatMap fun e => e :: d.bodyIn e).map (·.1)).Nodup := by
  have all : (d.entries.map (·.1)).Nodup :=
    .of_map (·.index) (by rw [List.map_map]; exact n.entries_ids ▸ List.nodup_range)
  exact (n.sections_sublist.map _).nodup all

theorem body_ids_nodup (n : Nesting d F) {e : Entry ν} (he : e ∈ d.definitions) :
    ((d.bodyIn e).map (·.1)).Nodup := by
  have := n.sections_nodup
  rw [List.map_flatMap, List.nodup_flatMap] at this
  exact (List.nodup_cons.1 (this.1 e he)).2

end Nesting

end DebugHierarchy
