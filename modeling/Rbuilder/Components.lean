/-
  Connected components of a graph that grows by one vertex at a time.

  `graph adj nodes` has the edges of a relation between the vertices in `nodes`. Blocks that
  cover the vertices, each of them connected and without edges to the others, are the
  components (`IsComponents.eq_components`). A new vertex joins the blocks that it touches
  into one block, and the others stay (`IsComponents.insert`).
-/
import Mathlib.Combinatorics.SimpleGraph.Connectivity.Connected

namespace Components

variable {V : Type} (adj : V → V → Prop) {nodes nodes' block : Set V} {blocks : Set (Set V)}

/-- The edges of a relation, in either direction, between the vertices in `nodes`. -/
def graph (nodes : Set V) : SimpleGraph V where
  Adj a b := a ≠ b ∧ a ∈ nodes ∧ b ∈ nodes ∧ (adj a b ∨ adj b a)
  symm := ⟨fun _ _ h => ⟨h.1.symm, h.2.2.1, h.2.1, h.2.2.2.symm⟩⟩
  loopless := ⟨fun _ h => h.1 rfl⟩

/-- The vertices that can be reached from a vertex. -/
def component (nodes : Set V) (a : V) : Set V :=
  {b | (graph adj nodes).Reachable a b}

def components (nodes : Set V) : Set (Set V) :=
  {block | ∃ a ∈ nodes, block = component adj nodes a}

def Touches (v : V) (block : Set V) : Prop := ∃ b ∈ block, adj v b ∨ adj b v

structure IsComponents (nodes : Set V) (blocks : Set (Set V)) : Prop where
  nonempty : ∀ {block}, block ∈ blocks → block.Nonempty
  subset : ∀ {block}, block ∈ blocks → block ⊆ nodes
  cover : ∀ {a}, a ∈ nodes → ∃ block ∈ blocks, a ∈ block
  closed : ∀ {block a b}, block ∈ blocks → a ∈ block → (graph adj nodes).Adj a b → b ∈ block
  connected : ∀ {block a b}, block ∈ blocks → a ∈ block → b ∈ block →
    (graph adj nodes).Reachable a b

variable {adj}

theorem graph_mono (h : nodes ⊆ nodes') : graph adj nodes ≤ graph adj nodes' :=
  fun _ _ hadj => ⟨hadj.1, h hadj.2.1, h hadj.2.2.1, hadj.2.2.2⟩

namespace IsComponents

section

variable (h : IsComponents adj nodes blocks)
include h

theorem mem_of_reachable {a b : V}
    (hblock : block ∈ blocks) (ha : a ∈ block) (hreach : (graph adj nodes).Reachable a b) :
    b ∈ block := by
  rw [SimpleGraph.reachable_iff_reflTransGen] at hreach
  induction hreach with
  | refl => exact ha
  | tail _ hadj ih => exact h.closed hblock ih hadj

theorem eq_component {a : V}
    (hblock : block ∈ blocks) (ha : a ∈ block) : block = component adj nodes a := by
  ext b
  exact ⟨fun hb => h.connected hblock ha hb, fun hreach => h.mem_of_reachable hblock ha hreach⟩

theorem eq_components : blocks = components adj nodes := by
  ext block
  constructor
  · intro hblock
    obtain ⟨a, ha⟩ := h.nonempty hblock
    exact ⟨a, h.subset hblock ha, h.eq_component hblock ha⟩
  rintro ⟨a, ha, rfl⟩
  obtain ⟨block, hblock, ha'⟩ := h.cover ha
  rw [← h.eq_component hblock ha']
  exact hblock

end

theorem empty : IsComponents adj (∅ : Set V) ∅ where
  nonempty hblock := absurd hblock (Set.notMem_empty _)
  subset hblock := absurd hblock (Set.notMem_empty _)
  cover ha := absurd ha (Set.notMem_empty _)
  closed hblock := absurd hblock (Set.notMem_empty _)
  connected hblock := absurd hblock (Set.notMem_empty _)

/-- A vertex is added: the blocks that it touches are joined. -/
theorem insert (h : IsComponents adj nodes blocks) {v : V} (hv : v ∉ nodes) :
    IsComponents adj (Insert.insert v nodes)
      ({block | block ∈ blocks ∧ ¬Touches adj v block} ∪
        {Insert.insert v (⋃₀ {block | block ∈ blocks ∧ Touches adj v block})}) := by
  have hmono : graph adj nodes ≤ graph adj (Insert.insert v nodes) :=
    graph_mono (Set.subset_insert v nodes)
  -- an edge that is new leads to `v`
  have hedge : ∀ {a b}, a ∈ nodes → b ∈ nodes → (graph adj (Insert.insert v nodes)).Adj a b →
      (graph adj nodes).Adj a b := fun ha hb hadj => ⟨hadj.1, ha, hb, hadj.2.2.2⟩
  have htouch : ∀ {block a}, block ∈ blocks → a ∈ block →
      (graph adj (Insert.insert v nodes)).Adj a v → Touches adj v block :=
    fun _ ha hadj => ⟨_, ha, hadj.2.2.2.symm⟩
  -- the vertices of the joined block reach `v`
  have hreach : ∀ {a}, a ∈ Insert.insert v (⋃₀ {block | block ∈ blocks ∧ Touches adj v block}) →
      (graph adj (Insert.insert v nodes)).Reachable a v := by
    intro a ha
    rcases Set.mem_insert_iff.mp ha with rfl | ⟨block, ⟨hblock, b, hb, hvb⟩, ha⟩
    · exact SimpleGraph.Reachable.refl a
    have hbnode := h.subset hblock hb
    have hadj : (graph adj (Insert.insert v nodes)).Adj b v :=
      ⟨fun heq => hv (heq ▸ hbnode), Set.mem_insert_of_mem v hbnode, Set.mem_insert v nodes, hvb.symm⟩
    exact ((h.connected hblock ha hb).mono hmono).trans hadj.reachable
  refine ⟨?_, ?_, ?_, ?_, ?_⟩
  · rintro block (⟨hblock, -⟩ | rfl)
    · exact h.nonempty hblock
    · exact ⟨v, Set.mem_insert v _⟩
  · rintro block (⟨hblock, -⟩ | rfl) a ha
    · exact Set.mem_insert_of_mem v (h.subset hblock ha)
    · rcases Set.mem_insert_iff.mp ha with rfl | ⟨block, ⟨hblock, -⟩, ha⟩
      · exact Set.mem_insert a nodes
      · exact Set.mem_insert_of_mem v (h.subset hblock ha)
  · intro a ha
    rcases Set.mem_insert_iff.mp ha with rfl | ha
    · exact ⟨_, Or.inr rfl, Set.mem_insert a _⟩
    obtain ⟨block, hblock, ha⟩ := h.cover ha
    by_cases htouches : Touches adj v block
    · exact ⟨_, Or.inr rfl, Set.mem_insert_of_mem v ⟨block, ⟨hblock, htouches⟩, ha⟩⟩
    · exact ⟨block, Or.inl ⟨hblock, htouches⟩, ha⟩
  · rintro block a b (⟨hblock, hnot⟩ | rfl) ha hadj
    · rcases Set.mem_insert_iff.mp hadj.2.2.1 with rfl | hb
      · exact absurd (htouch hblock ha hadj) hnot
      · exact h.closed hblock ha (hedge (h.subset hblock ha) hb hadj)
    rcases Set.mem_insert_iff.mp hadj.2.2.1 with rfl | hb
    · exact Set.mem_insert b _
    rcases Set.mem_insert_iff.mp ha with rfl | ⟨block, ⟨hblock, htouches⟩, ha⟩
    · obtain ⟨block, hblock, hb⟩ := h.cover hb
      exact Set.mem_insert_of_mem a ⟨block, ⟨hblock, htouch hblock hb hadj.symm⟩, hb⟩
    · have hb := h.closed hblock ha (hedge (h.subset hblock ha) hb hadj)
      exact Set.mem_insert_of_mem v ⟨block, ⟨hblock, htouches⟩, hb⟩
  · rintro block a b (⟨hblock, -⟩ | rfl) ha hb
    · exact (h.connected hblock ha hb).mono hmono
    · exact (hreach ha).trans (hreach hb).symm

end IsComponents

end Components
