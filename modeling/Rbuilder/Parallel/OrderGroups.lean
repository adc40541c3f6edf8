/-
  The groups after any batches of orders.

  `Reached orders finder` is the state after `orders`. However the orders are batched, they are
  added one after the other, so that all facts about a state are facts about the orders. The
  groups are the components of the conflict graph, and `conflictingGroupIds` of a group are the
  ids of the groups that went into it.
-/
import Rbuilder.Parallel.History

namespace Parallel

open Components (components)
open List

namespace ConflictFinder

variable {finder finder' : ConflictFinder} {orders earlier later : List SimulatedOrder}

/-! ## Runs -/

/-- The state after batches of orders. -/
def addBatches (finder : ConflictFinder) (batches : List (List SimulatedOrder)) :
    Option ConflictFinder :=
  batches.foldlM addOrders finder

/-- The state after the orders. -/
def Reached (orders : List SimulatedOrder) (finder : ConflictFinder) : Prop :=
  new.addOrders orders = some finder

theorem addOrders_append (finder : ConflictFinder) (orders orders' : List SimulatedOrder) :
    finder.addOrders (orders ++ orders') =
      (finder.addOrders orders).bind fun finder => finder.addOrders orders' :=
  foldlM_append

theorem addBatches_eq (finder : ConflictFinder) (batches : List (List SimulatedOrder)) :
    finder.addBatches batches = finder.addOrders batches.flatten := by
  induction batches generalizing finder with
  | nil => rfl
  | cons batch batches ih =>
    rw [flatten_cons, addOrders_append]
    exact Option.bind_congr fun finder' _ => ih finder'

theorem Inv.addOrders (h : Inv orders finder) (added : List SimulatedOrder) :
    ∃ finder', finder.addOrders added = some finder' ∧ Inv (orders ++ added) finder' ∧
      Grows finder finder' := by
  induction added generalizing orders finder with
  | nil => exact ⟨finder, rfl, by rwa [append_nil], .refl finder⟩
  | cons order added ih =>
    obtain ⟨finder₁, hadd, h₁, hgrows₁, -⟩ := h.addOrder order
    obtain ⟨finder', hrun, h', hgrows⟩ := ih h₁
    refine ⟨finder', ?_, ?_, hgrows₁.trans hgrows⟩
    · unfold ConflictFinder.addOrders
      rw [foldlM_cons, hadd]
      exact hrun
    · rwa [append_assoc] at h'

/-- Adding orders never panics. -/
theorem exists_reached (orders : List SimulatedOrder) : ∃ finder, Reached orders finder := by
  obtain ⟨finder, hrun, -, -⟩ := inv_new.addOrders orders
  exact ⟨finder, hrun⟩

theorem Reached.eq (h : Reached orders finder) (h' : Reached orders finder') : finder = finder' :=
  Option.some.inj (h.symm.trans h')

theorem Reached.inv (h : Reached orders finder) : Inv orders finder := by
  obtain ⟨finder', hrun, hinv, -⟩ := inv_new.addOrders orders
  rw [h.eq hrun]
  exact hinv

theorem Reached.addOrders (h : Reached earlier finder)
    (hadd : finder.addOrders later = some finder') : Reached (earlier ++ later) finder' := by
  unfold Reached
  rw [addOrders_append, h]
  exact hadd

theorem Reached.grows (h : Reached earlier finder) (h' : Reached (earlier ++ later) finder') :
    Grows finder finder' := by
  obtain ⟨finder₁, hadd, -, hgrows⟩ := h.inv.addOrders later
  rw [h'.eq (h.addOrders hadd)]
  exact hgrows

/-! ## The groups that were absorbed -/

/-- An id that was live at some time, with orders that are now in `data`. -/
def Absorbed (orders : List SimulatedOrder) (r : Nat) (data : GroupData) : Prop :=
  ∃ earlier later finder data₀, orders = earlier ++ later ∧ Reached earlier finder ∧
    finder.groups.lookup r = some data₀ ∧ data₀.orders ⊆ data.orders

variable {g r : Nat} {data : GroupData} {group group' : ConflictGroup}

theorem Reached.absorbed (h : Reached orders finder)
    (hlookup : finder.groups.lookup g = some data) (hr : r ∈ data.conflictingGroupIds) :
    Absorbed orders r data := by
  induction orders using reverseRecOn generalizing finder g data with
  | nil =>
    cases h
    cases hlookup
  | append_singleton orders order ih =>
    obtain ⟨finder₀, h₀⟩ := exists_reached orders
    obtain ⟨finder₁, hadd, -, -, horigin⟩ := h₀.inv.addOrder order
    have h₁ : Reached (orders ++ [order]) finder₁ := by
      refine h₀.addOrders ?_
      unfold ConflictFinder.addOrders
      rw [foldlM_cons, hadd]
      rfl
    obtain rfl := h.eq h₁
    obtain ⟨g', data', hlookup', hsubset, rfl | hr'⟩ := horigin hlookup hr
    · exact ⟨orders, [order], finder₀, data', rfl, h₀, hlookup', hsubset⟩
    obtain ⟨earlier, later, finder₂, data₂, heq, h₂, hlookup₂, hsubset₂⟩ := ih h₀ hlookup' hr'
    refine ⟨earlier, later ++ [order], finder₂, data₂, ?_, h₂, hlookup₂,
      Subset.trans hsubset₂ hsubset⟩
    rw [heq, append_assoc]

theorem Reached.mem_conflictingGroupIds (h : Reached orders finder)
    (hlookup : finder.groups.lookup g = some data) :
    r ∈ data.conflictingGroupIds ↔ finder.groups.lookup r = none ∧ Absorbed orders r data := by
  refine ⟨fun hr => ⟨(h.inv.retired hlookup hr).1, h.absorbed hlookup hr⟩, ?_⟩
  rintro ⟨hnone, earlier, later, finder₀, data₀, rfl, h₀, hlookup₀, hsubset⟩
  rcases h₀.grows h hlookup₀ with ⟨data', hlookup', -⟩ | ⟨g', data', hlookup', hr, hsubset', -⟩
  · cases hnone.symm.trans hlookup'
  -- the group that has the id has its orders, so it is this one
  obtain ⟨order, ho⟩ := exists_mem_of_ne_nil _ (h₀.inv.describes hlookup₀).nonempty
  obtain rfl := h.inv.unique hlookup' hlookup (hsubset' ho) (hsubset ho)
  cases hlookup.symm.trans hlookup'
  exact hr

/-! ## The groups as they are handed out -/

theorem mem_getOrderGroups :
    group ∈ finder.getOrderGroups ↔ ∃ data, finder.groups.lookup group.id = some data ∧
      group.orders = data.orders ∧ group.conflictingGroupIds = data.conflictingGroupIds := by
  unfold getOrderGroups
  rw [mem_map]
  constructor
  · rintro ⟨⟨g, data⟩, hmem, rfl⟩
    exact ⟨data, AList.mem_lookup_iff.mpr ((mem_insertionSort _).mp hmem), rfl, rfl⟩
  rintro ⟨data, hlookup, horders, hids⟩
  refine ⟨⟨group.id, data⟩, (mem_insertionSort _).mpr (AList.mem_lookup_iff.mp hlookup), ?_⟩
  cases group
  cases horders
  cases hids
  rfl

theorem nodup_getOrderGroups (finder : ConflictFinder) :
    (finder.getOrderGroups.map ConflictGroup.id).Nodup := by
  have hids : finder.getOrderGroups.map ConflictGroup.id =
      (finder.groups.entries.insertionSort fun a b => a.1 ≤ b.1).map Sigma.fst := by
    unfold getOrderGroups
    rw [map_map]
    rfl
  rw [hids]
  exact ((perm_insertionSort ..).map _).nodup_iff.mpr finder.groups.keys_nodup

/-- The order sets of the groups. -/
def partition (finder : ConflictFinder) : Set (Set SimulatedOrder) :=
  {block | ∃ group ∈ finder.getOrderGroups, block = {order | order ∈ group.orders}}

theorem partition_eq_blocks (finder : ConflictFinder) : finder.partition = finder.blocks := by
  ext block
  constructor
  · rintro ⟨group, hgroup, rfl⟩
    obtain ⟨data, hlookup, horders, -⟩ := mem_getOrderGroups.mp hgroup
    exact ⟨group.id, data, hlookup, by rw [horders]; rfl⟩
  · rintro ⟨g, data, hlookup, rfl⟩
    exact ⟨⟨g, data.orders, data.conflictingGroupIds⟩, mem_getOrderGroups.mpr ⟨data, hlookup, rfl, rfl⟩,
      rfl⟩

theorem Reached.partition_eq (h : Reached orders finder) :
    finder.partition = components Conflicts (distinctOrders orders) := by
  rw [partition_eq_blocks]
  exact h.inv.components.eq_components

/-- No order is listed twice. -/
theorem Reached.nodup_orders (h : Reached orders finder) :
    (finder.getOrderGroups.flatMap ConflictGroup.orders).Nodup := by
  refine nodup_flatMap.mpr ⟨fun group hgroup => ?_, ?_⟩
  · obtain ⟨data, hlookup, horders, -⟩ := mem_getOrderGroups.mp hgroup
    rw [horders]
    exact (h.inv.describes hlookup).nodup
  have hne : finder.getOrderGroups.Pairwise fun group group' => group.id ≠ group'.id :=
    pairwise_map.mp (nodup_getOrderGroups finder)
  refine hne.imp_of_mem fun hgroup hgroup' hne order ho ho' => hne ?_
  obtain ⟨data, hlookup, horders, -⟩ := mem_getOrderGroups.mp hgroup
  obtain ⟨data', hlookup', horders', -⟩ := mem_getOrderGroups.mp hgroup'
  exact h.inv.unique hlookup hlookup' (horders ▸ ho) (horders' ▸ ho')

/-- The index lists the groups that have an order with the access. -/
theorem Reached.mem_groupsAt (h : Reached orders finder) (access : Access) (g : Nat) :
    g ∈ finder.groupsAt access ↔
      ∃ group ∈ finder.getOrderGroups, group.id = g ∧ ∃ order ∈ group.orders, order.Has access := by
  rw [h.inv.lists.mem]
  constructor
  · rintro ⟨data, hlookup, hhas⟩
    exact ⟨⟨g, data.orders, data.conflictingGroupIds⟩, mem_getOrderGroups.mpr ⟨data, hlookup, rfl, rfl⟩,
      rfl, ((h.inv.describes hlookup).has access).mp hhas⟩
  · rintro ⟨group, hgroup, rfl, hhas⟩
    obtain ⟨data, hlookup, horders, -⟩ := mem_getOrderGroups.mp hgroup
    exact ⟨data, hlookup, ((h.inv.describes hlookup).has access).mpr (horders ▸ hhas)⟩

theorem lookup_eq_none_iff (finder : ConflictFinder) (r : Nat) :
    finder.groups.lookup r = none ↔ ∀ group ∈ finder.getOrderGroups, group.id ≠ r := by
  constructor
  · rintro hnone group hgroup rfl
    obtain ⟨data, hlookup, -⟩ := mem_getOrderGroups.mp hgroup
    cases hnone.symm.trans hlookup
  intro hall
  by_contra hsome
  obtain ⟨data, hlookup⟩ := Option.ne_none_iff_exists'.mp hsome
  exact hall ⟨r, data.orders, data.conflictingGroupIds⟩
    (mem_getOrderGroups.mpr ⟨data, hlookup, rfl, rfl⟩) rfl

theorem Reached.mem_conflictingGroupIds_group (h : Reached orders finder)
    (hgroup : group ∈ finder.getOrderGroups) (r : Nat) :
    r ∈ group.conflictingGroupIds ↔ (∀ live ∈ finder.getOrderGroups, live.id ≠ r) ∧
      ∃ earlier later finder₀ old, orders = earlier ++ later ∧ Reached earlier finder₀ ∧
        old ∈ finder₀.getOrderGroups ∧ old.id = r ∧ old.orders ⊆ group.orders := by
  obtain ⟨data, hlookup, horders, hids⟩ := mem_getOrderGroups.mp hgroup
  rw [hids, horders, h.mem_conflictingGroupIds hlookup, lookup_eq_none_iff]
  refine and_congr_right fun _ => ⟨?_, ?_⟩
  · rintro ⟨earlier, later, finder₀, data₀, heq, h₀, hlookup₀, hsubset⟩
    exact ⟨earlier, later, finder₀, ⟨r, data₀.orders, data₀.conflictingGroupIds⟩, heq, h₀,
      mem_getOrderGroups.mpr ⟨data₀, hlookup₀, rfl, rfl⟩, rfl, hsubset⟩
  · rintro ⟨earlier, later, finder₀, old, heq, h₀, hold, rfl, hsubset⟩
    obtain ⟨data₀, hlookup₀, horders₀, -⟩ := mem_getOrderGroups.mp hold
    exact ⟨earlier, later, finder₀, data₀, heq, h₀, hlookup₀, horders₀ ▸ hsubset⟩

theorem Reached.disjoint_conflictingGroupIds (h : Reached orders finder)
    (hgroup : group ∈ finder.getOrderGroups) (hgroup' : group' ∈ finder.getOrderGroups)
    (hr : r ∈ group.conflictingGroupIds) (hr' : r ∈ group'.conflictingGroupIds) : group = group' := by
  obtain ⟨data, hlookup, -, hids⟩ := mem_getOrderGroups.mp hgroup
  obtain ⟨data', hlookup', -, hids'⟩ := mem_getOrderGroups.mp hgroup'
  exact inj_on_of_nodup_map (nodup_getOrderGroups finder) hgroup hgroup'
    (h.inv.disjoint hlookup hlookup' (hids ▸ hr) (hids' ▸ hr'))

end ConflictFinder

/-- If an id stands for one order, then the orders are distinct whatever their sequence is. -/
theorem distinctOrders_perm {orders orders' : List SimulatedOrder} (hperm : orders'.Perm orders)
    (hid : ∀ order ∈ orders, ∀ order' ∈ orders, order.id = order'.id → order = order') :
    distinctOrders orders' = distinctOrders orders := by
  have hfind : ∀ {l : List SimulatedOrder},
      (∀ order ∈ l, ∀ order' ∈ l, order.id = order'.id → order = order') → ∀ order,
      l.find? (fun order' => order'.id = order.id) = some order ↔ order ∈ l := by
    intro l hl order
    refine ⟨mem_of_find?_eq_some, fun hmem => ?_⟩
    obtain ⟨order', hfind⟩ : ∃ order', l.find? (fun order' => order'.id = order.id) = some order' :=
      Option.isSome_iff_exists.mp (find?_isSome.mpr ⟨order, hmem, by simp⟩)
    have hsame : order'.id = order.id := by simpa using find?_some hfind
    rwa [hl order' (mem_of_find?_eq_some hfind) order hmem hsame] at hfind
  ext order
  refine and_congr_right fun _ => ?_
  rw [hfind hid, hfind fun a ha b hb => hid a (hperm.mem_iff.mp ha) b (hperm.mem_iff.mp hb)]
  exact hperm.mem_iff

/-- Batches are added without a panic. The order sets of the groups are the components of the
    conflict graph, which depend neither on the sequence nor on the batches. The index lists the
    groups of every key once, and a group has the ids of the groups that went into it. -/
theorem order_groups_are_components (batches : List (List SimulatedOrder)) :
    ∃ finder, ConflictFinder.new.addBatches batches = some finder ∧
      finder.partition = components Conflicts (distinctOrders batches.flatten) ∧
      (finder.getOrderGroups.map ConflictGroup.id).Nodup ∧
      (finder.getOrderGroups.flatMap ConflictGroup.orders).Nodup ∧
      (∀ batches' finder', ConflictFinder.new.addBatches batches' = some finder' →
        distinctOrders batches'.flatten = distinctOrders batches.flatten ∨
          batches'.flatten.Perm batches.flatten ∧ (∀ order ∈ batches.flatten,
            ∀ order' ∈ batches.flatten, order.id = order'.id → order = order') →
        finder'.partition = finder.partition) ∧
      (∀ access, (finder.groupsAt access).Nodup ∧ ∀ g, g ∈ finder.groupsAt access ↔
        ∃ group ∈ finder.getOrderGroups, group.id = g ∧ ∃ order ∈ group.orders, order.Has access) ∧
      (∀ group ∈ finder.getOrderGroups, ∀ r, r ∈ group.conflictingGroupIds ↔
        (∀ live ∈ finder.getOrderGroups, live.id ≠ r) ∧
          ∃ earlier later finder₀ old, batches.flatten = earlier ++ later ∧
            ConflictFinder.new.addOrders earlier = some finder₀ ∧ old ∈ finder₀.getOrderGroups ∧
            old.id = r ∧ old.orders ⊆ group.orders) ∧
      (∀ group ∈ finder.getOrderGroups, ∀ group' ∈ finder.getOrderGroups,
        ∀ r ∈ group.conflictingGroupIds, r ∈ group'.conflictingGroupIds → group = group') := by
  obtain ⟨finder, h⟩ := ConflictFinder.exists_reached batches.flatten
  refine ⟨finder, (ConflictFinder.addBatches_eq _ _).trans h, h.partition_eq,
    ConflictFinder.nodup_getOrderGroups finder, h.nodup_orders, ?_,
    fun access => ⟨h.inv.lists.nodup access, h.mem_groupsAt access⟩,
    fun group hgroup => h.mem_conflictingGroupIds_group hgroup,
    fun group hgroup group' hgroup' r => h.disjoint_conflictingGroupIds hgroup hgroup'⟩
  intro batches' finder' hrun hsame
  have h' : ConflictFinder.Reached batches'.flatten finder' :=
    (ConflictFinder.addBatches_eq _ _).symm.trans hrun
  have hdistinct : distinctOrders batches'.flatten = distinctOrders batches.flatten := by
    rcases hsame with hdistinct | ⟨hperm, hid⟩
    · exact hdistinct
    · exact distinctOrders_perm hperm hid
  rw [h'.partition_eq, h.partition_eq, hdistinct]

end Parallel
