/-
  The groups over a whole history of orders.

  In every state the groups are the connected components of the orders added so far (`Inv`).
  Groups only grow: a group of an earlier state is still there with more orders, or its id and
  its orders went to a group that conflicts with it (`Grows`).
-/
import Rbuilder.Parallel.Grouping
import Mathlib.Data.List.Induction

namespace Parallel

open Building (OrderId)
open Components (IsComponents Touches)
open List

/-- The orders that are grouped: the first of each id, if it has a trace. -/
def distinctOrders (orders : List SimulatedOrder) : Set SimulatedOrder :=
  {order | order.usedStateTrace ≠ none ∧ orders.find? (fun order' => order'.id = order.id) = some order}

variable {orders : List SimulatedOrder} {order order' : SimulatedOrder}

theorem distinctOrders_known
    (h : (∃ order' ∈ orders, order'.id = order.id) ∨ order.usedStateTrace = none) :
    distinctOrders (orders ++ [order]) = distinctOrders orders := by
  ext order'
  refine and_congr_right fun htrace => ?_
  rw [find?_append, Option.or_eq_some_iff]
  refine or_iff_left ?_
  rintro ⟨hnone, hfind⟩
  obtain ⟨hid, rfl⟩ : order.id = order'.id ∧ order = order' := by simpa using hfind
  rcases h with ⟨order'', hmem, heq⟩ | hnone'
  · exact absurd heq (by simpa using find?_eq_none.mp hnone order'' hmem)
  · exact htrace hnone'

theorem distinctOrders_new
    (h : ∀ order' ∈ orders, order'.id ≠ order.id) (htrace : order.usedStateTrace ≠ none) :
    distinctOrders (orders ++ [order]) = insert order (distinctOrders orders) := by
  ext order'
  simp only [distinctOrders, Set.mem_ofPred_eq, Set.mem_insert_iff, find?_append,
    Option.or_eq_some_iff]
  constructor
  · rintro ⟨htrace', hfind | ⟨-, hfind⟩⟩
    · exact Or.inr ⟨htrace', hfind⟩
    · obtain ⟨-, rfl⟩ : order.id = order'.id ∧ order = order' := by simpa using hfind
      exact Or.inl rfl
  rintro (rfl | ⟨htrace', hfind⟩)
  · have hnone : orders.find? (fun order'' => order''.id = order'.id) = none :=
      find?_eq_none.mpr fun order'' hmem => by simpa using h order'' hmem
    exact ⟨htrace, Or.inr ⟨hnone, by simp⟩⟩
  · exact ⟨htrace', Or.inl hfind⟩

theorem mem_of_mem_distinctOrders (h : order ∈ distinctOrders orders) : order ∈ orders :=
  mem_of_find?_eq_some h.2

/-- Orders with the same id are one order. -/
theorem eq_of_mem_distinctOrders
    (h : order ∈ distinctOrders orders) (h' : order' ∈ distinctOrders orders)
    (hid : order.id = order'.id) : order = order' := by
  have hfind := h.2
  rw [hid] at hfind
  exact Option.some.inj (hfind.symm.trans h'.2)

namespace ConflictFinder

variable {finder finder' a b c : ConflictFinder} {orders : List SimulatedOrder}
  {order : SimulatedOrder}

/-- The sets of orders of the groups. -/
def blocks (finder : ConflictFinder) : Set (Set SimulatedOrder) :=
  {block | ∃ g data, finder.groups.lookup g = some data ∧ block = orderSet data}

structure Inv (orders : List SimulatedOrder) (finder : ConflictFinder) : Prop extends finder.Sound where
  ids : ∀ id, id ∈ finder.orders ↔ ∃ order ∈ orders, order.id = id
  components : IsComponents Conflicts (distinctOrders orders) finder.blocks
  retired : ∀ {g data r}, finder.groups.lookup g = some data → r ∈ data.conflictingGroupIds →
    finder.groups.lookup r = none ∧ r < finder.groupCounter
  disjoint : ∀ {g data g' data' r}, finder.groups.lookup g = some data →
    finder.groups.lookup g' = some data' → r ∈ data.conflictingGroupIds →
    r ∈ data'.conflictingGroupIds → g = g'

theorem Inv.mem_nodes (h : Inv orders finder) {g : Nat} {data : GroupData}
    (hlookup : finder.groups.lookup g = some data) (hmem : order ∈ data.orders) :
    order ∈ distinctOrders orders :=
  have hblock : orderSet data ∈ finder.blocks := ⟨g, data, hlookup, rfl⟩
  h.components.subset hblock hmem

/-- From one state to a later one: a group grows under its id, or another group has its orders
    and its id. -/
def Grows (finder finder' : ConflictFinder) : Prop :=
  ∀ ⦃g data⦄, finder.groups.lookup g = some data →
    (∃ data', finder'.groups.lookup g = some data' ∧ data.orders ⊆ data'.orders ∧
      data'.conflictingGroupIds = data.conflictingGroupIds) ∨
    ∃ g' data', finder'.groups.lookup g' = some data' ∧ g ∈ data'.conflictingGroupIds ∧
      data.orders ⊆ data'.orders ∧ data.conflictingGroupIds ⊆ data'.conflictingGroupIds

/-- Where the ids in `conflictingGroupIds` come from in one step. -/
def Origin (finder finder' : ConflictFinder) : Prop :=
  ∀ ⦃g data r⦄, finder'.groups.lookup g = some data → r ∈ data.conflictingGroupIds →
    ∃ g' data', finder.groups.lookup g' = some data' ∧ data'.orders ⊆ data.orders ∧
      (r = g' ∨ r ∈ data'.conflictingGroupIds)

theorem Grows.refl (finder : ConflictFinder) : Grows finder finder :=
  fun _ data hlookup => Or.inl ⟨data, hlookup, Subset.refl _, rfl⟩

theorem Grows.trans (hab : Grows a b) (hbc : Grows b c) : Grows a c := by
  intro g data hlookup
  rcases hab hlookup with ⟨data₁, hlookup₁, horders₁, hids₁⟩ | ⟨g₁, data₁, hlookup₁, hg, horders₁, hids₁⟩
  · rcases hbc hlookup₁ with ⟨data₂, hlookup₂, horders₂, hids₂⟩ |
      ⟨g₂, data₂, hlookup₂, hg₂, horders₂, hids₂⟩
    · exact Or.inl ⟨data₂, hlookup₂, Subset.trans horders₁ horders₂, hids₂.trans hids₁⟩
    · exact Or.inr ⟨g₂, data₂, hlookup₂, hg₂, Subset.trans horders₁ horders₂, hids₁ ▸ hids₂⟩
  rcases hbc hlookup₁ with ⟨data₂, hlookup₂, horders₂, hids₂⟩ |
    ⟨g₂, data₂, hlookup₂, hg₂, horders₂, hids₂⟩
  · exact Or.inr ⟨g₁, data₂, hlookup₂, hids₂ ▸ hg, Subset.trans horders₁ horders₂, hids₂ ▸ hids₁⟩
  · exact Or.inr ⟨g₂, data₂, hlookup₂, hids₂ hg, Subset.trans horders₁ horders₂, hids₁.trans hids₂⟩

theorem Origin.refl (finder : ConflictFinder) : Origin finder finder :=
  fun g data _ hlookup hr => ⟨g, data, hlookup, Subset.refl _, Or.inr hr⟩

theorem inv_new : Inv [] new where
  describes hlookup := by cases hlookup
  lists := ⟨fun access => by cases access <;> exact nodup_nil, fun access g => by
    refine iff_of_false ?_ ?_
    · cases access <;> exact not_mem_nil
    · rintro ⟨data, hlookup, -⟩
      cases hlookup⟩
  unique hlookup := by cases hlookup
  lt_counter hlookup := by cases hlookup
  ids id := by simp [new]
  components := by
    have hnodes : distinctOrders [] = ∅ := by ext; simp [distinctOrders]
    have hblocks : new.blocks = ∅ := by
      ext block
      refine iff_of_false ?_ (Set.notMem_empty _)
      rintro ⟨g, data, hlookup, -⟩
      cases hlookup
    rw [hnodes, hblocks]
    exact .empty
  retired hlookup := by cases hlookup
  disjoint hlookup := by cases hlookup

/-! ## One order -/

theorem mem_noteOrder (h : ∀ id, id ∈ finder.orders ↔ ∃ order ∈ orders, order.id = id) (id : OrderId) :
    id ∈ (finder.noteOrder order.id).orders ↔ ∃ order' ∈ orders ++ [order], order'.id = id := by
  change id ∈ insert order.id finder.orders ↔ _
  rw [Finset.mem_insert, h, or_comm, eq_comm]
  simp only [mem_append, mem_singleton, or_and_right, exists_or, exists_eq_left]

theorem Inv.noteOrder (h : Inv orders finder)
    (hnodes : distinctOrders (orders ++ [order]) = distinctOrders orders) :
    Inv (orders ++ [order]) (finder.noteOrder order.id) where
  __ := h
  toSound := h.toSound.noteOrder order.id
  ids := mem_noteOrder h.ids
  components := by
    rw [hnodes]
    exact h.components

theorem Inv.mem_merged (h : Inv orders finder) {usedState : UsedStateTrace}
    (htrace : order.usedStateTrace = some usedState) {g : Nat} :
    g ∈ finder.allGroupsInConflict usedState ↔
      ∃ data, finder.groups.lookup g = some data ∧ Touches Conflicts order (orderSet data) := by
  have hhas : ∀ access, order.Has access ↔ usedState.Has access := by
    intro access
    simp only [SimulatedOrder.Has, htrace, Option.some.injEq, exists_eq_left']
  rw [mem_allGroupsInConflict h.lists]
  constructor
  · rintro ⟨x, y, hx, ⟨data, hlookup, hy⟩, hclash⟩
    obtain ⟨order', ho, hy⟩ := ((h.describes hlookup).has y).mp hy
    refine ⟨data, hlookup, order', ho, ?_⟩
    rcases hclash with hclash | hclash
    · exact Or.inl ⟨x, y, (hhas x).mpr hx, hy, hclash⟩
    · exact Or.inr ⟨y, x, hy, (hhas x).mpr hx, hclash⟩
  rintro ⟨data, hlookup, order', ho, ⟨x, y, hx, hy, hclash⟩ | ⟨y, x, hy, hx, hclash⟩⟩
  · exact ⟨x, y, (hhas x).mp hx, ⟨data, hlookup, ((h.describes hlookup).has y).mpr ⟨order', ho, hy⟩⟩,
      Or.inl hclash⟩
  · exact ⟨x, y, (hhas x).mp hx, ⟨data, hlookup, ((h.describes hlookup).has y).mpr ⟨order', ho, hy⟩⟩,
      Or.inr hclash⟩

section Step

variable {usedState : UsedStateTrace} {merged : List Nat} {groupId g r : Nat}
  {data data' : GroupData}

section

variable (hm : Merged finder order merged finder' groupId data)
include hm

/-- The group is the one that was merged, or one from before. -/
theorem Merged.lookup_cases (hlookup : finder'.groups.lookup g = some data') :
    (g = groupId ∧ data' = data) ∨
      (g ≠ groupId ∧ g ∉ merged ∧ finder.groups.lookup g = some data') := by
  rw [hm.lookup] at hlookup
  split_ifs at hlookup with heq hmem
  · exact Or.inl ⟨heq, (Option.some.inj hlookup).symm⟩
  · exact Or.inr ⟨heq, hmem, hlookup⟩

theorem Merged.lookup_self : finder'.groups.lookup groupId = some data := by
  rw [hm.lookup, if_pos rfl]

theorem Merged.lookup_other (hne : g ≠ groupId) (hmem : g ∉ merged) :
    finder'.groups.lookup g = finder.groups.lookup g := by
  rw [hm.lookup, if_neg hne, if_neg hmem]

/-- The id of the merged group was not live, or is that of the only group merged. -/
theorem Merged.mem_of_lookup (h : finder.Sound)
    (hlookup : finder.groups.lookup groupId = some data') :
    merged = [groupId] := by
  rcases hm.id_cases with heq | heq
  · exact heq
  · exact absurd (h.lt_counter hlookup) (heq ▸ lt_irrefl _)

theorem Merged.sound (h : finder.Sound)
    (hfresh : ∀ {g data}, finder.groups.lookup g = some data → order ∉ data.orders) :
    finder'.Sound where
  describes := by
    intro g data' hlookup
    rcases hm.lookup_cases hlookup with ⟨-, rfl⟩ | ⟨-, -, hlookup⟩
    · exact hm.describes
    · exact h.describes hlookup
  lists := hm.lists
  unique := by
    -- an order of the merged group is not in a group that stayed
    have hother : ∀ {g data' order'}, g ∉ merged → finder.groups.lookup g = some data' →
        order' ∈ data.orders → order' ∉ data'.orders := by
      intro g data' order' hg hlookup ho ho'
      rcases (hm.mem_orders order').mp ho with rfl | ⟨g', hg', data'', hlookup', ho''⟩
      · exact hfresh hlookup ho'
      · exact hg (h.unique hlookup hlookup' ho' ho'' ▸ hg')
    intro g data₁ g' data₂ order' hlookup hlookup' ho ho'
    rcases hm.lookup_cases hlookup with ⟨rfl, rfl⟩ | ⟨-, hg, hold⟩
    · rcases hm.lookup_cases hlookup' with ⟨rfl, -⟩ | ⟨-, hg', hold'⟩
      · rfl
      · exact absurd ho' (hother hg' hold' ho)
    · rcases hm.lookup_cases hlookup' with ⟨rfl, rfl⟩ | ⟨-, hg', hold'⟩
      · exact absurd ho (hother hg hold ho')
      · exact h.unique hold hold' ho ho'
  lt_counter := by
    intro g data' hlookup
    rcases hm.lookup_cases hlookup with ⟨rfl, -⟩ | ⟨-, -, hlookup⟩
    · exact hm.lt_counter
    · exact (h.lt_counter hlookup).trans_le hm.counter_le

/-- The components with the new order. -/
theorem Merged.blocks_eq (h : finder.Sound) (hmerged : ∀ {g}, g ∈ merged ↔
      ∃ data, finder.groups.lookup g = some data ∧ Touches Conflicts order (orderSet data)) :
    finder'.blocks = {block | block ∈ finder.blocks ∧ ¬Touches Conflicts order block} ∪
      {insert order (⋃₀ {block | block ∈ finder.blocks ∧ Touches Conflicts order block})} := by
  have hunion : orderSet data =
      insert order (⋃₀ {block | block ∈ finder.blocks ∧ Touches Conflicts order block}) := by
    ext order'
    refine (hm.mem_orders order').trans (or_congr_right ⟨?_, ?_⟩)
    · rintro ⟨g, hg, data', hlookup, ho⟩
      obtain ⟨data'', hlookup', htouch⟩ := hmerged.mp hg
      cases hlookup.symm.trans hlookup'
      exact ⟨_, ⟨⟨g, _, hlookup, rfl⟩, htouch⟩, ho⟩
    · rintro ⟨block, ⟨⟨g, data', hlookup, rfl⟩, htouch⟩, ho⟩
      exact ⟨g, hmerged.mpr ⟨data', hlookup, htouch⟩, data', hlookup, ho⟩
  rw [← hunion]
  ext block
  constructor
  · rintro ⟨g, data', hlookup, rfl⟩
    rcases hm.lookup_cases hlookup with ⟨-, rfl⟩ | ⟨-, hg, hold⟩
    · exact Or.inr rfl
    · exact Or.inl ⟨⟨g, data', hold, rfl⟩, fun htouch => hg (hmerged.mpr ⟨data', hold, htouch⟩)⟩
  rintro (⟨⟨g, data', hlookup, rfl⟩, hnot⟩ | rfl)
  · have hg : g ∉ merged := by
      intro hg
      obtain ⟨data'', hlookup', htouch⟩ := hmerged.mp hg
      cases hlookup.symm.trans hlookup'
      exact hnot htouch
    have hne : g ≠ groupId := by
      rintro rfl
      exact hg (hm.mem_of_lookup h hlookup ▸ mem_cons_self)
    exact ⟨g, data', (hm.lookup_other hne hg).trans hlookup, rfl⟩
  · exact ⟨groupId, data, hm.lookup_self, rfl⟩

theorem Merged.grows (h : finder.Sound) :
    Grows finder finder' := by
  intro g data₀ hlookup
  by_cases hg : g ∈ merged
  · have horders : data₀.orders ⊆ data.orders :=
      fun order' ho => (hm.mem_orders order').mpr (Or.inr ⟨g, hg, data₀, hlookup, ho⟩)
    have hids : data₀.conflictingGroupIds ⊆ data.conflictingGroupIds :=
      fun r hr => (hm.mem_conflictingGroupIds r).mpr (Or.inr ⟨g, hg, data₀, hlookup, hr⟩)
    rcases hm.id_cases with hone | hcounter
    · -- the only group keeps its id, and no id is added
      obtain rfl : g = groupId := mem_singleton.mp (hone ▸ hg)
      refine Or.inl ⟨data, hm.lookup_self, horders, (hids.antisymm fun r hr => ?_).symm⟩
      rcases (hm.mem_conflictingGroupIds r).mp hr with ⟨hr, hne⟩ | ⟨g', hg', data', hlookup', hr⟩
      · exact absurd (mem_singleton.mp (hone ▸ hr)) hne
      · obtain rfl : g' = g := mem_singleton.mp (hone ▸ hg')
        cases hlookup.symm.trans hlookup'
        exact hr
    · have hne : g ≠ groupId := (hcounter ▸ h.lt_counter hlookup).ne
      exact Or.inr ⟨groupId, data, hm.lookup_self,
        (hm.mem_conflictingGroupIds g).mpr (Or.inl ⟨hg, hne⟩), horders, hids⟩
  · have hne : g ≠ groupId := by
      rintro rfl
      exact hg (hm.mem_of_lookup h hlookup ▸ mem_cons_self)
    exact Or.inl ⟨data₀, (hm.lookup_other hne hg).trans hlookup, Subset.refl _, rfl⟩

section

variable (hlive : ∀ g ∈ merged, ∃ data, finder.groups.lookup g = some data)
include hlive

theorem Merged.origin :
    Origin finder finder' := by
  have hsubset : ∀ {g data₀}, g ∈ merged → finder.groups.lookup g = some data₀ →
      data₀.orders ⊆ data.orders :=
    fun hg hlookup order' ho => (hm.mem_orders order').mpr (Or.inr ⟨_, hg, _, hlookup, ho⟩)
  intro g data' r hlookup hr
  rcases hm.lookup_cases hlookup with ⟨-, rfl⟩ | ⟨-, -, hold⟩
  · rcases (hm.mem_conflictingGroupIds r).mp hr with ⟨hmem, -⟩ | ⟨g', hmem, data₀, hlookup₀, hr⟩
    · obtain ⟨data₀, hlookup₀⟩ := hlive r hmem
      exact ⟨r, data₀, hlookup₀, hsubset hmem hlookup₀, Or.inl rfl⟩
    · exact ⟨g', data₀, hlookup₀, hsubset hmem hlookup₀, Or.inr hr⟩
  · exact ⟨g, data', hold, Subset.refl _, Or.inr hr⟩

/-- An id that is not live and not new does not come back. -/
theorem Merged.lookup_retired
    (h : finder.groups.lookup r = none ∧ r < finder.groupCounter) :
    finder'.groups.lookup r = none ∧ r < finder'.groupCounter := by
  have hmem : r ∉ merged := by
    intro hmem
    obtain ⟨data₀, hlookup⟩ := hlive r hmem
    cases h.1.symm.trans hlookup
  have hne : r ≠ groupId := by
    rintro rfl
    rcases hm.id_cases with heq | heq
    · exact hmem (heq ▸ mem_cons_self)
    · exact absurd h.2 (heq ▸ lt_irrefl _)
  exact ⟨(hm.lookup_other hne hmem).trans h.1, h.2.trans_le hm.counter_le⟩

end

end

section

variable (h : Inv orders finder)
  (hm : Merged (finder.noteOrder order.id) order merged finder' groupId data)
include h hm

section

variable (hlive : ∀ g ∈ merged, ∃ data, finder.groups.lookup g = some data)
include hlive

/-- The ids of a group after the step that were live before, or retired. -/
theorem Inv.retired_merged
    (hlookup : finder'.groups.lookup g = some data') (hr : r ∈ data'.conflictingGroupIds) :
    finder'.groups.lookup r = none ∧ r < finder'.groupCounter := by
  rcases hm.lookup_cases hlookup with ⟨-, rfl⟩ | ⟨-, -, hold⟩
  · rcases (hm.mem_conflictingGroupIds r).mp hr with ⟨hmem, hne⟩ | ⟨g', -, data₀, hlookup₀, hr⟩
    · obtain ⟨data₀, hlookup₀⟩ := hlive r hmem
      refine ⟨?_, (h.lt_counter hlookup₀).trans_le hm.counter_le⟩
      rw [hm.lookup, if_neg hne, if_pos hmem]
    · exact hm.lookup_retired hlive (h.retired hlookup₀ hr)
  · exact hm.lookup_retired hlive (h.retired hold hr)

/-- An id of the merged group is not one of another group. -/
theorem Inv.notMem_of_merged
    (hg : g ∉ merged) (hlookup : finder.groups.lookup g = some data')
    (hr : r ∈ data.conflictingGroupIds) : r ∉ data'.conflictingGroupIds := by
  intro hr'
  rcases (hm.mem_conflictingGroupIds r).mp hr with ⟨hmem, -⟩ | ⟨g', hmem, data₀, hlookup₀, hr⟩
  · obtain ⟨data₀, hlookup₀⟩ := hlive r hmem
    cases (h.retired hlookup hr').1.symm.trans hlookup₀
  · exact hg (h.disjoint hlookup hlookup₀ hr' hr ▸ hmem)

end

theorem Inv.merge (hmerged : ∀ {g}, g ∈ merged ↔
      ∃ data, finder.groups.lookup g = some data ∧ Touches Conflicts order (orderSet data))
    (hnew : order.id ∉ finder.orders) (htrace : order.usedStateTrace ≠ none)
    (hfresh : ∀ {g data}, finder.groups.lookup g = some data → order ∉ data.orders) :
    Inv (orders ++ [order]) finder' := by
  have hlive : ∀ g ∈ merged, ∃ data, finder.groups.lookup g = some data := by
    intro g hg
    obtain ⟨data, hlookup, -⟩ := hmerged.mp hg
    exact ⟨data, hlookup⟩
  have hnewId : ∀ order' ∈ orders, order'.id ≠ order.id :=
    fun order' hmem heq => hnew ((h.ids _).mpr ⟨order', hmem, heq⟩)
  have hids : ∀ id, id ∈ finder'.orders ↔ ∃ order' ∈ orders ++ [order], order'.id = id := by
    intro id
    rw [hm.orders_eq]
    exact mem_noteOrder h.ids id
  have hcomponents : IsComponents Conflicts (distinctOrders (orders ++ [order])) finder'.blocks := by
    rw [distinctOrders_new hnewId htrace, hm.blocks_eq (h.toSound.noteOrder _) hmerged]
    exact h.components.insert fun hmem => hnewId order (mem_of_mem_distinctOrders hmem) rfl
  refine ⟨hm.sound (h.toSound.noteOrder _) hfresh, hids, hcomponents, h.retired_merged hm hlive, ?_⟩
  intro g data₁ g' data₂ r hlookup hlookup' hr hr'
  rcases hm.lookup_cases hlookup with ⟨rfl, rfl⟩ | ⟨-, hg, hold⟩
  · rcases hm.lookup_cases hlookup' with ⟨rfl, -⟩ | ⟨-, hg', hold'⟩
    · rfl
    · exact absurd hr' (h.notMem_of_merged hm hlive hg' hold' hr)
  · rcases hm.lookup_cases hlookup' with ⟨rfl, rfl⟩ | ⟨-, hg', hold'⟩
    · exact absurd hr (h.notMem_of_merged hm hlive hg hold hr')
    · exact h.disjoint hold hold' hr hr'

end

end Step

/-- Every order is added, whatever the groups are. -/
theorem Inv.addOrder (h : Inv orders finder) (order : SimulatedOrder) :
    ∃ finder', finder.addOrder order = some finder' ∧ Inv (orders ++ [order]) finder' ∧
      Grows finder finder' ∧ Origin finder finder' := by
  by_cases hnew : order.id ∈ finder.orders
  · have hnodes := distinctOrders_known (Or.inl ((h.ids _).mp hnew))
    have hnoted := h.noteOrder hnodes
    have heq : finder.noteOrder order.id = finder := by
      simp only [ConflictFinder.noteOrder, Finset.insert_eq_of_mem hnew]
    exact ⟨finder, if_pos hnew, heq ▸ hnoted, .refl _, .refl _⟩
  rcases htrace : order.usedStateTrace with _ | usedState
  · exact ⟨_, addOrder_of_none hnew htrace, h.noteOrder (distinctOrders_known (Or.inr htrace)),
      Grows.refl finder, Origin.refl finder⟩
  have hfresh : ∀ {g data}, finder.groups.lookup g = some data → order ∉ data.orders := by
    intro g data hlookup hmem
    exact hnew ((h.ids _).mpr ⟨order, mem_of_mem_distinctOrders (h.mem_nodes hlookup hmem), rfl⟩)
  obtain ⟨finder', groupId, data, hadd, hm⟩ := h.toSound.exists_merged hnew htrace hfresh
  refine ⟨finder', hadd, h.merge hm (h.mem_merged htrace) hnew (by simp [htrace]) hfresh,
    hm.grows (h.toSound.noteOrder _), hm.origin fun g hg => ?_⟩
  obtain ⟨data, hlookup, -⟩ := (h.mem_merged htrace).mp hg
  exact ⟨data, hlookup⟩

end ConflictFinder

end Parallel
