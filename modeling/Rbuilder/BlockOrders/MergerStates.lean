/-
  The states that mergers can get into.

  Sinks and mergers are made, mergers are called and cloned, in any order. In every such
  state the managers of a merger are its own, and send to its sink; the ids of their orders
  are known to the merger; and what a manager has sorted it has a kickback for. The ids of a
  merger may lead to managers of another one.
-/
import Rbuilder.BlockOrders.Mergers

namespace BlockOrders.Merging

open SparseMpt
open Building (OrderId)
open Function AList PlainMerger ShareBundleMerger SortKey List MultiBackrunManager Option Merger

/-! ## Managers -/

namespace MultiBackrunManager

variable {manager : MultiBackrunManager}

/-- The sorted orders are those with kickbacks. -/
def Consistent (manager : MultiBackrunManager) : Prop :=
  ∀ key : SortKey, manager.orderKickbacks.lookup key.orderId = some key.userKickback ↔
    ∃ entry ∈ manager.sortedOrders.entries, entry.1 = key

theorem Consistent.hasId_iff (h : manager.Consistent) (id : OrderId) :
    manager.HasId id ↔ ∃ userKickback, manager.orderKickbacks.lookup id = some userKickback := by
  constructor
  · rintro ⟨entry, hentry, rfl⟩
    exact ⟨entry.1.userKickback, (h entry.1).mpr ⟨entry, hentry, rfl⟩⟩
  · rintro ⟨userKickback, hlookup⟩
    obtain ⟨entry, hentry, hkey⟩ := (h ⟨id, userKickback⟩).mp hlookup
    exact ⟨entry, hentry, congrArg orderId hkey⟩

theorem regenerateMultiOrder_fields (keccak : Bytes → B256) (manager : MultiBackrunManager) :
    (manager.regenerateMultiOrder keccak).1.sortedOrders = manager.sortedOrders ∧
      (manager.regenerateMultiOrder keccak).1.orderKickbacks = manager.orderKickbacks ∧
      (manager.regenerateMultiOrder keccak).1.orderSink = manager.orderSink := by
  unfold regenerateMultiOrder
  by_cases hempty : manager.sortedOrders.entries.isEmpty
  · rw [if_pos hempty]
    exact ⟨rfl, rfl, rfl⟩
  rw [if_neg hempty]
  cases manager.mergeOrders keccak with
  | none | some merged => exact ⟨rfl, rfl, rfl⟩

variable {id : OrderId} {userKickback : Nat}

theorem hasId_insertOrder {keccak : Bytes → B256} {order : BrokenDownShareBundle}
    (h : (manager.insertOrder keccak order).1.HasId id) :
    id = order.simOrder.id ∨ manager.HasId id := by
  unfold insertOrder at h
  by_cases hid : order.simOrder.id ∈ manager.orderKickbacks
  · rw [if_pos hid] at h
    exact Or.inr h
  rw [if_neg hid] at h
  obtain ⟨entry, hentry, rfl⟩ := h
  rw [(regenerateMultiOrder_fields keccak _).1] at hentry
  rcases SortedMap.mem_of_mem_insertEntry hentry with rfl | hentry
  · exact Or.inl rfl
  · exact Or.inr ⟨entry, hentry, rfl⟩

theorem consistent_insertOrder (keccak : Bytes → B256) (h : manager.Consistent)
    (order : BrokenDownShareBundle) : (manager.insertOrder keccak order).1.Consistent := by
  unfold insertOrder
  by_cases hid : order.simOrder.id ∈ manager.orderKickbacks
  · rw [if_pos hid]
    exact h
  rw [if_neg hid]
  obtain ⟨hsorted, hkickbacks, -⟩ := regenerateMultiOrder_fields keccak { manager with
    orderKickbacks := manager.orderKickbacks.insert order.simOrder.id order.userKickback
    sortedOrders := manager.sortedOrders.insert (SortKey.new order) order }
  have hnone := lookup_eq_none.mpr hid
  have hnew : ∀ entry ∈ manager.sortedOrders.entries, entry.1.orderId ≠ order.simOrder.id := by
    intro entry hentry heq
    obtain ⟨userKickback, hlookup⟩ := (h.hasId_iff _).mp ⟨entry, hentry, heq⟩
    rw [hnone] at hlookup
    cases hlookup
  intro key
  rw [hsorted, hkickbacks]
  have hperm : (manager.sortedOrders.insert (SortKey.new order) order).entries.Perm
      ((SortKey.new order, order) :: manager.sortedOrders.entries) :=
    SortedMap.perm_insert order fun entry hentry hkey =>
      hnew entry hentry (congrArg orderId hkey)
  simp only [hperm.mem_iff, mem_cons, exists_eq_or_imp]
  by_cases heq : key.orderId = order.simOrder.id
  · have hold : ¬∃ entry ∈ manager.sortedOrders.entries, entry.1 = key :=
      fun ⟨entry, hentry, hkey⟩ => hnew entry hentry (hkey ▸ heq)
    rw [or_iff_left hold, heq, lookup_insert, some.injEq]
    exact ⟨fun hkick => congr (congrArg SortKey.mk heq.symm) hkick,
      fun hkey => congrArg userKickback hkey⟩
  · have hkey : SortKey.new order ≠ key := fun hkey => heq (congrArg orderId hkey).symm
    rw [lookup_insert_ne heq, or_iff_right hkey]
    exact h key

/-- The manager without the order, before it regenerates. -/
def without (manager : MultiBackrunManager) (key : SortKey) : MultiBackrunManager :=
  { manager with
    orderKickbacks := manager.orderKickbacks.erase key.orderId
    sortedOrders := (manager.sortedOrders.remove key).2 }

theorem consistent_without (h : manager.Consistent) {key : SortKey}
    (hlookup : manager.orderKickbacks.lookup key.orderId = some key.userKickback) :
    (manager.without key).Consistent := by
  intro key'
  change (manager.orderKickbacks.erase key.orderId).lookup key'.orderId = some key'.userKickback ↔
    ∃ entry ∈ manager.sortedOrders.entries.filter fun entry => entry.1 ≠ key, entry.1 = key'
  simp only [mem_filter, decide_eq_true_eq]
  by_cases heq : key'.orderId = key.orderId
  · rw [heq, lookup_erase]
    refine iff_of_false (by simp) ?_
    -- an order with the id has the kickback, so it is the one that is removed
    rintro ⟨entry, ⟨hmem, hne⟩, rfl⟩
    have hkickback := (h entry.1).mpr ⟨entry, hmem, rfl⟩
    rw [heq, hlookup, some.injEq] at hkickback
    exact hne (congr (congrArg SortKey.mk heq) hkickback.symm)
  rw [lookup_erase_ne heq, h key']
  refine exists_congr fun entry => and_congr_left fun hkey => ?_
  have hne : entry.1 ≠ key := fun hkey' => heq (congrArg orderId (hkey.symm.trans hkey'))
  exact (and_iff_left hne).symm

section

variable (keccak : Bytes → B256)
include keccak

theorem removeOrder_eq_without (hlookup : manager.orderKickbacks.lookup id = some userKickback) :
    (manager.removeOrder keccak id).2 = (manager.without ⟨id, userKickback⟩, []) ∨
      (manager.removeOrder keccak id).2 =
        (manager.without ⟨id, userKickback⟩).regenerateMultiOrder keccak := by
  rcases hremove : manager.sortedOrders.remove ⟨id, userKickback⟩ with ⟨order, sortedOrders⟩
  have hwithout : manager.without ⟨id, userKickback⟩ =
      { manager with orderKickbacks := manager.orderKickbacks.erase id, sortedOrders } := by
    unfold without
    rw [hremove]
  rw [hwithout]
  cases order with
  | none => exact Or.inl (congrArg Prod.snd (removeOrder_of_missing keccak hlookup hremove))
  | some order => exact Or.inr (congrArg Prod.snd (removeOrder_of_some keccak hlookup hremove))

/-- A removal leaves the fields of the manager without the order. -/
theorem removeOrder_fields (hlookup : manager.orderKickbacks.lookup id = some userKickback) :
    (manager.removeOrder keccak id).2.1.sortedOrders =
        (manager.without ⟨id, userKickback⟩).sortedOrders ∧
      (manager.removeOrder keccak id).2.1.orderKickbacks = manager.orderKickbacks.erase id ∧
      (manager.removeOrder keccak id).2.1.orderSink = manager.orderSink := by
  rcases removeOrder_eq_without keccak hlookup with heq | heq
  · rw [heq]
    exact ⟨rfl, rfl, rfl⟩
  · rw [heq]
    exact regenerateMultiOrder_fields keccak _

theorem consistent_removeOrder (h : manager.Consistent) (id : OrderId) :
    (manager.removeOrder keccak id).2.1.Consistent := by
  cases hlookup : manager.orderKickbacks.lookup id with
  | none =>
    rw [removeOrder_of_none keccak hlookup]
    exact h
  | some userKickback =>
    obtain ⟨hsorted, hkickbacks, -⟩ := removeOrder_fields keccak hlookup
    have hwithout : (manager.without ⟨id, userKickback⟩).Consistent := consistent_without h hlookup
    unfold Consistent
    rw [hsorted, hkickbacks]
    exact hwithout

/-- A removal adds no order, and the sink stays. -/
theorem hasId_removeOrder (manager : MultiBackrunManager) (id : OrderId) :
    (manager.removeOrder keccak id).2.1.orderSink = manager.orderSink ∧
      ∀ id', (manager.removeOrder keccak id).2.1.HasId id' → manager.HasId id' := by
  cases hlookup : manager.orderKickbacks.lookup id with
  | none =>
    rw [removeOrder_of_none keccak hlookup]
    exact ⟨rfl, fun _ hid => hid⟩
  | some userKickback =>
    obtain ⟨hsorted, -, hsink⟩ := removeOrder_fields keccak hlookup
    refine ⟨hsink, ?_⟩
    rintro id' ⟨entry, hentry, hid⟩
    rw [hsorted] at hentry
    exact ⟨entry, (mem_filter.mp hentry).1, hid⟩

/-- The removal of an order is seen. -/
theorem removeOrder_ne (hlookup : manager.orderKickbacks.lookup id = some userKickback) :
    (manager.removeOrder keccak id).2.1 ≠ manager := by
  obtain ⟨-, hkickbacks, -⟩ := removeOrder_fields keccak hlookup
  intro heq
  rw [heq] at hkickbacks
  rw [hkickbacks, lookup_erase] at hlookup
  cases hlookup

end

end MultiBackrunManager

/-! ## Plain mergers -/

theorem not_hasId_new (hash : B256) (sink : Nat) (id : OrderId) : ¬(new hash sink).HasId id :=
  fun ⟨_, hentry, _⟩ => absurd hentry not_mem_nil

variable {hash : B256} {id id' : OrderId} {manager : MultiBackrunManager} {w w' : World}
  {m : Merger} {sink i pointer j : Nat} {ms : List Merger}

theorem PlainMerger.hasId_group {m : PlainMerger}
    (h : (m.group hash).HasId id) : ∃ manager, m.groups hash = some manager ∧ manager.HasId id := by
  unfold group at h
  cases hgroup : m.groups hash with
  | none =>
    rw [hgroup] at h
    exact absurd h (not_hasId_new hash 0 id)
  | some manager =>
    rw [hgroup] at h
    exact ⟨manager, rfl, h⟩

variable {keccak : Bytes → B256} {order : SimulatedOrder} {k : Option Address}
  {part : ShareBundleMerger} {m' c : Merger} {env : Env}

/-- An order that a manager has after the insertion was there before, or is the one. -/
theorem PlainMerger.hasId_insertOrder {m : PlainMerger}
    (hgroup : (m.insertOrder keccak order).1.groups hash = some manager)
    (hid : manager.HasId id) : (id = order.id ∧ breakDownBundle keccak order ≠ none) ∨
      ∃ manager₀, m.groups hash = some manager₀ ∧ manager₀.HasId id := by
  cases hbroken : breakDownBundle keccak order with
  | none =>
    simp only [insertOrder, hbroken] at hgroup
    exact Or.inr ⟨manager, hgroup, hid⟩
  | some b =>
    simp only [insertOrder, hbroken, setRoute, setGroup] at hgroup
    by_cases hhash : hash = b.userBundleHash
    · subst hhash
      rw [update_self] at hgroup
      cases hgroup
      rcases hasId_insertOrder hid with hid | hid
      · rw [(breakDownBundle_eq_some hbroken).1] at hid
        exact Or.inl ⟨hid, some_ne_none _⟩
      · exact Or.inr (hasId_group hid)
    · rw [update_of_ne hhash] at hgroup
      exact Or.inr ⟨manager, hgroup, hid⟩

theorem PlainMerger.hasId_removeOrder {m : PlainMerger}
    (hgroup : (m.removeOrder keccak id').1.groups hash = some manager) (hid : manager.HasId id) :
    ∃ manager₀, m.groups hash = some manager₀ ∧ manager₀.HasId id := by
  unfold removeOrder at hgroup
  cases hroute : m.routes id' with
  | none =>
    rw [hroute] at hgroup
    exact ⟨manager, hgroup, hid⟩
  | some hash' =>
    rw [hroute] at hgroup
    by_cases hhash : hash = hash'
    · subst hhash
      have heq := (update_self ..).symm.trans hgroup
      cases heq
      exact hasId_group ((hasId_removeOrder keccak _ id').2 id hid)
    · exact ⟨manager, (update_of_ne hhash ..).symm.trans hgroup, hid⟩

/-! ## One merger -/

/-- The managers of the mergers, as they are in the world. -/
def snapshot (w : World) (parts : Parts) (k : Option Address) : PlainMerger where
  groups hash := (parts k).bind fun m =>
    (m.multiBackrunManagers.lookup hash).bind fun pointer => w.managers[pointer]?

structure Sane (w : World) (m : Merger) : Prop where
  sink_lt : m.orderSink < w.sinks.length
  sink_eq : ∀ {k part}, m.parts k = some part → part.orderSink = m.orderSink
  cell : ∀ {k part hash pointer}, m.parts k = some part →
    part.multiBackrunManagers.lookup hash = some pointer →
    ∃ manager, w.managers[pointer]? = some manager ∧ manager.orderSink = m.orderSink
  own : ∀ {k part hash k' part' hash' pointer}, m.parts k = some part →
    part.multiBackrunManagers.lookup hash = some pointer → m.parts k' = some part' →
    part'.multiBackrunManagers.lookup hash' = some pointer → k = k' ∧ hash = hash'
  /-- The orders in the managers can be removed. -/
  listed : ∀ {k part hash pointer manager id}, m.parts k = some part →
    part.multiBackrunManagers.lookup hash = some pointer →
    w.managers[pointer]? = some manager → manager.HasId id →
    part.orderId2MultiBackrunManagers.lookup id ≠ none
  /-- An id does not lead to a manager of another signer. -/
  route_own : ∀ {k part id pointer}, m.parts k = some part →
    part.orderId2MultiBackrunManagers.lookup id = some pointer → Owns m.parts pointer →
    ∃ hash, part.multiBackrunManagers.lookup hash = some pointer
  route_lt : ∀ {k part id pointer}, m.parts k = some part →
    part.orderId2MultiBackrunManagers.lookup id = some pointer → pointer < w.managers.length

theorem Merger.exists_part (m : Merger) :
    ∃ part, m.parts none = some part ∧ part.orderSink = m.orderSink := by
  cases m with
  | single m => exact ⟨m, only_eq_some_iff.mpr ⟨rfl, rfl⟩, rfl⟩
  | multi m =>
    refine ⟨m.fallbackMerger, ?_, rfl⟩
    exact update_self none (some m.fallbackMerger) (signerParts m.signersMergers.entries)

def World.Consistent (w : World) : Prop := ∀ manager ∈ w.managers, manager.Consistent

theorem consistent_new (hash : B256) (sink : Nat) :
    (MultiBackrunManager.new hash sink).Consistent := by
  intro key
  simp [MultiBackrunManager.new, SortedMap.empty, lookup_empty]

theorem World.Consistent.store (h : w.Consistent) (pointer : Nat)
    (hmanager : manager.Consistent) (calls : List SinkCall) :
    (w.store pointer manager calls).Consistent := by
  intro manager' hmem
  rcases mem_or_eq_of_mem_set hmem with hmem | rfl
  · exact h manager' hmem
  · exact hmanager

theorem World.Consistent.alloc (h : w.Consistent)
    (hmanager : manager.Consistent) : (w.alloc manager).Consistent := by
  intro manager' hmem
  rcases mem_append.mp hmem with hmem | hmem
  · exact h manager' hmem
  · rw [mem_singleton.mp hmem]
    exact hmanager

theorem World.Consistent.extends (h : w.Consistent) (hext : w.Extends w') : w'.Consistent := by
  intro manager hmem
  obtain ⟨manager₀, hmem₀, hkickbacks, hsorted⟩ := hext.orders manager hmem
  unfold MultiBackrunManager.Consistent
  rw [hkickbacks, hsorted]
  exact h manager₀ hmem₀

/-! ## Insertions -/

section Insert

variable {env : Env} {w : World} {m : ShareBundleMerger} {order : SimulatedOrder}

theorem handler_spec (w : World) (m : ShareBundleMerger) (hash : B256) :
    (m.handler w hash).2.2.multiBackrunManagers.lookup hash = some (m.handler w hash).1 ∧
      (∀ {hash' pointer}, m.multiBackrunManagers.lookup hash' = some pointer →
        (m.handler w hash).2.2.multiBackrunManagers.lookup hash' = some pointer) ∧
      (w.Consistent → (m.handler w hash).2.1.Consistent) ∧
      (m.handler w hash).2.1.sinks = w.sinks := by
  unfold handler
  cases hlookup : m.multiBackrunManagers.lookup hash with
  | none =>
    exact ⟨lookup_insert _, fun hlookup' => lookup_insert_of_new hlookup hlookup',
      fun hw => hw.alloc (consistent_new _ _), rfl⟩
  | some pointer => exact ⟨hlookup, fun hlookup' => hlookup', fun hw => hw, rfl⟩

theorem lookup_managers_insertOrder (hlookup : m.multiBackrunManagers.lookup hash = some pointer) :
    (m.insertOrder env w order).2.multiBackrunManagers.lookup hash = some pointer := by
  cases hbroken : breakDownBundle env.keccak256 order with
  | none => rw [insertOrder_of_none hbroken, hlookup]
  | some brokenDown =>
    rw [insertOrder_snd hbroken]
    exact (handler_spec w m brokenDown.userBundleHash).2.1 hlookup

/-- The id of an order that is broken down leads to a manager of the merger. -/
theorem route_insertOrder {brokenDown : BrokenDownShareBundle}
    (hbroken : breakDownBundle env.keccak256 order = some brokenDown) :
    ∃ hash pointer, (m.insertOrder env w order).2.multiBackrunManagers.lookup hash = some pointer ∧
      (m.insertOrder env w order).2.orderId2MultiBackrunManagers.lookup order.id = some pointer := by
  rw [insertOrder_snd hbroken]
  exact ⟨brokenDown.userBundleHash, _, (handler_spec w m brokenDown.userBundleHash).1,
    lookup_insert _⟩

theorem lookup_ne_none_insertOrder (hid : m.orderId2MultiBackrunManagers.lookup id ≠ none ∨
      id = order.id ∧ breakDownBundle env.keccak256 order ≠ none) :
    (m.insertOrder env w order).2.orderId2MultiBackrunManagers.lookup id ≠ none := by
  by_cases hcond : id = order.id → breakDownBundle env.keccak256 order = none
  · rw [lookup_insertOrder hcond]
    exact hid.resolve_right fun hnew => hnew.2 (hcond hnew.1)
  push Not at hcond
  obtain ⟨rfl, hne⟩ := hcond
  obtain ⟨brokenDown, hbroken⟩ := ne_none_iff_exists'.mp hne
  obtain ⟨hash, pointer, -, hroute⟩ := route_insertOrder hbroken
  rw [hroute]
  exact some_ne_none _

theorem consistent_insertOrder (hw : w.Consistent) : (m.insertOrder env w order).1.Consistent := by
  cases hbroken : breakDownBundle env.keccak256 order with
  | none =>
    rw [insertOrder_of_none hbroken]
    exact hw
  | some brokenDown =>
    obtain ⟨-, -, hhandler, -⟩ := handler_spec w m brokenDown.userBundleHash
    rcases hfound : m.handler w brokenDown.userBundleHash with ⟨pointer, w', m'⟩
    rw [hfound] at hhandler
    cases hcell : w'.managers[pointer]? with
    | none =>
      simp only [ShareBundleMerger.insertOrder, hbroken, hfound, hcell]
      exact hhandler hw
    | some manager =>
      rw [insertOrder_of_some hbroken hfound hcell]
      have hmanager := hhandler hw manager (mem_of_getElem? hcell)
      exact (hhandler hw).store pointer
        (MultiBackrunManager.consistent_insertOrder env.keccak256 hmanager _) _

end Insert

section Sane

variable {w w' : World} {m : Merger}

theorem Sane.represents (h : Sane w m) : Represents w m.parts m.orderSink (snapshot w m.parts) where
  sink_eq := h.sink_eq
  group := by
    intro k part hash pointer hk hlookup
    obtain ⟨manager, hcell, hsink⟩ := h.cell hk hlookup
    refine ⟨manager, ?_, ?_⟩
    · simp only [snapshot, hk, bind_some, hlookup, hcell]
    · rw [hcell, ← hsink]
      rfl
  absent := by
    intro k part hash hk hlookup
    simp only [snapshot, hk, bind_some, hlookup, bind_none]
  own := h.own
  route := by
    intro k part id hash hk hroute
    cases hroute

/-- The managers of the merger kept their sinks and got no orders. -/
theorem Sane.transfer (h : Sane w m) (hsinks : w.sinks.length ≤ w'.sinks.length)
    (hlen : w.managers.length ≤ w'.managers.length)
    (hcells : ∀ {pointer manager}, Owns m.parts pointer → w.managers[pointer]? = some manager →
      ∃ manager', w'.managers[pointer]? = some manager' ∧ manager'.orderSink = manager.orderSink ∧
        ∀ id, manager'.HasId id → manager.HasId id) : Sane w' m where
  __ := h
  sink_lt := h.sink_lt.trans_le hsinks
  cell := by
    intro k part hash pointer hk hlookup
    obtain ⟨manager, hcell, hsink⟩ := h.cell hk hlookup
    obtain ⟨manager', hcell', hsink', -⟩ := hcells ⟨k, part, hash, hk, hlookup⟩ hcell
    exact ⟨manager', hcell', hsink'.trans hsink⟩
  listed := by
    intro k part hash pointer manager' id hk hlookup hcell' hid
    obtain ⟨manager, hcell, -⟩ := h.cell hk hlookup
    obtain ⟨manager'', hcell'', -, hids⟩ := hcells ⟨k, part, hash, hk, hlookup⟩ hcell
    cases hcell'.symm.trans hcell''
    exact h.listed hk hlookup hcell (hids id hid)
  route_lt hk hlookup := (h.route_lt hk hlookup).trans_le hlen

variable {k : Option Address} {part : ShareBundleMerger}

theorem snapshot_groups (hk : m.parts k = some part) :
    (snapshot w m.parts k).groups hash = some manager ↔
      ∃ pointer, part.multiBackrunManagers.lookup hash = some pointer ∧
        w.managers[pointer]? = some manager := by
  simp only [snapshot, hk, bind_some, bind_eq_some_iff]

theorem Sane.insertOrder (h : Sane w m) (hk : m.parts k = some part)
    (hparts : m'.parts = update m.parts k (some (part.insertOrder env w order).2)) :
    Sane (part.insertOrder env w order).1 m' := by
  obtain ⟨hrep, hstep⟩ := h.represents.insertOrder hk env order
  rw [← hparts] at hrep hstep
  have hsink : m'.orderSink = m.orderSink := by
    obtain ⟨part', hpart', hsink⟩ := m'.exists_part
    exact hsink.symm.trans (hrep.sink_eq hpart')
  have hroutes : ∀ {k' part'}, m'.parts k' = some part' → ∃ part₀, m.parts k' = some part₀ ∧
      (∀ {hash pointer}, part₀.multiBackrunManagers.lookup hash = some pointer →
        part'.multiBackrunManagers.lookup hash = some pointer) ∧
      ∀ {id pointer}, part'.orderId2MultiBackrunManagers.lookup id = some pointer →
        part₀.orderId2MultiBackrunManagers.lookup id = some pointer ∨
          ∃ hash, part'.multiBackrunManagers.lookup hash = some pointer := by
    intro k' part' hk'
    rw [hparts] at hk'
    rcases update_eq_some_iff.mp hk' with ⟨rfl, rfl⟩ | ⟨-, hk'⟩
    · refine ⟨part, hk, lookup_managers_insertOrder, fun {id pointer} hid => ?_⟩
      by_cases hcond : id = order.id → breakDownBundle env.keccak256 order = none
      · exact Or.inl ((lookup_insertOrder hcond).symm.trans hid)
      push Not at hcond
      obtain ⟨rfl, hne⟩ := hcond
      obtain ⟨brokenDown, hbroken⟩ := ne_none_iff_exists'.mp hne
      obtain ⟨hash, pointer', hlookup, hroute⟩ := route_insertOrder hbroken
      cases hroute.symm.trans hid
      exact Or.inr ⟨hash, hlookup⟩
    · exact ⟨part', hk', fun hlookup => hlookup, Or.inl⟩
  refine ⟨?_, fun hk' => (hrep.sink_eq hk').trans hsink.symm, ?_, hrep.own, ?_, ?_, ?_⟩
  · rw [hsink, hstep.sinks, length_modify]
    exact h.sink_lt
  · intro k' part' hash pointer hk' hlookup
    obtain ⟨manager, -, hcell⟩ := hrep.group hk' hlookup
    exact ⟨_, hcell, hsink.symm⟩
  · intro k' part' hash pointer manager id hk' hlookup hcell hid
    obtain ⟨manager', hgroup, hcell'⟩ := hrep.group hk' hlookup
    cases hcell.symm.trans hcell'
    rw [hparts] at hk'
    rcases update_eq_some_iff.mp hk' with ⟨rfl, rfl⟩ | ⟨hne, hk'⟩
    · rw [update_self] at hgroup
      rcases hasId_insertOrder hgroup hid with hnew | ⟨manager₀, hgroup₀, hid₀⟩
      · exact lookup_ne_none_insertOrder (Or.inr hnew)
      · obtain ⟨pointer', hlookup', hcell''⟩ := (snapshot_groups hk).mp hgroup₀
        exact lookup_ne_none_insertOrder (Or.inl (h.listed hk hlookup' hcell'' hid₀))
    · rw [update_of_ne hne] at hgroup
      obtain ⟨pointer', hlookup', hcell''⟩ := (snapshot_groups hk').mp hgroup
      exact h.listed hk' hlookup' hcell'' hid
  · intro k' part' id pointer hk' hid hown
    obtain ⟨part₀, hk₀, hgrows, hcases⟩ := hroutes hk'
    rcases hcases hid with hid | hown'
    · rcases hstep.fresh pointer hown with hown | hle
      · obtain ⟨hash, hlookup⟩ := h.route_own hk₀ hid hown
        exact ⟨hash, hgrows hlookup⟩
      · exact absurd (h.route_lt hk₀ hid) (not_lt.mpr hle)
    · exact hown'
  · intro k' part' id pointer hk' hid
    obtain ⟨part₀, hk₀, -, hcases⟩ := hroutes hk'
    rcases hcases hid with hid | ⟨hash, hlookup⟩
    · exact (h.route_lt hk₀ hid).trans_le hstep.length_le
    · exact hrep.lt_length ⟨k', part', hash, hk', hlookup⟩

end Sane

/-! ## Removals -/

/-- A removal may change the managers of any merger, but only by removing. -/
theorem removeOrder_cells (hw : w.Consistent) (env : Env) (m : ShareBundleMerger) (id : OrderId) :
    (m.removeOrder env w id).2.Consistent ∧
      (m.removeOrder env w id).2.sinks.length = w.sinks.length ∧
      (m.removeOrder env w id).2.managers.length = w.managers.length ∧
      ∀ {pointer : Nat} {manager : MultiBackrunManager}, w.managers[pointer]? = some manager →
        ∃ manager' : MultiBackrunManager, (m.removeOrder env w id).2.managers[pointer]? = some manager' ∧
          manager'.orderSink = manager.orderSink ∧ ∀ id, manager'.HasId id → manager.HasId id := by
  cases hid : m.orderId2MultiBackrunManagers.lookup id with
  | none =>
    rw [removeOrder_of_none hid]
    refine ⟨hw, length_modify .., rfl, fun hcell => ⟨_, hcell, rfl, fun _ hid => hid⟩⟩
  | some pointer =>
    cases hcell : w.managers[pointer]? with
    | none =>
      have hsame : (m.removeOrder env w id).2 = w := by
        simp only [ShareBundleMerger.removeOrder, hid, hcell]
      rw [hsame]
      exact ⟨hw, rfl, rfl, fun hcell' => ⟨_, hcell', rfl, fun _ hid => hid⟩⟩
    | some manager =>
      rw [removeOrder_of_some hid hcell]
      have hconsistent := consistent_removeOrder env.keccak256
        (hw manager (mem_of_getElem? hcell)) id
      obtain ⟨hsink, hids⟩ := hasId_removeOrder env.keccak256 manager id
      refine ⟨hw.store pointer hconsistent _, length_modify .., length_set,
        fun {pointer' manager'} hcell' => ?_⟩
      by_cases heq : pointer = pointer'
      · subst heq
        cases hcell.symm.trans hcell'
        exact ⟨_, getElem?_set_self (List.getElem?_eq_some_iff.mp hcell).1, hsink, hids⟩
      · exact ⟨manager', (getElem?_set_ne heq).trans hcell', rfl, fun _ hid => hid⟩

theorem Sane.removeOrder (h : Sane w m) (hw : w.Consistent) (env : Env)
    (part : ShareBundleMerger) (id : OrderId) : Sane (part.removeOrder env w id).2 m := by
  obtain ⟨-, hsinks, hlen, hcells⟩ := removeOrder_cells hw env part id
  exact h.transfer hsinks.ge hlen.ge fun _ hcell => hcells hcell

/-! ## New mergers and clones -/

theorem sane_new (hsink : sink < w.sinks.length)
    (hparts : ∀ {k part}, m.parts k = some part → part = .new sink) : Sane w m := by
  have hnone : ∀ {k part hash pointer}, m.parts k = some part →
      part.multiBackrunManagers.lookup hash ≠ some pointer := by
    intro k part hash pointer hk hlookup
    rw [hparts hk] at hlookup
    cases hlookup
  have hroute : ∀ {k part id pointer}, m.parts k = some part →
      part.orderId2MultiBackrunManagers.lookup id ≠ some pointer := by
    intro k part id pointer hk hlookup
    rw [hparts hk] at hlookup
    cases hlookup
  obtain ⟨part, hpart, hsinkEq⟩ := m.exists_part
  rw [hparts hpart] at hsinkEq
  refine ⟨hsinkEq ▸ hsink, fun hk => ?_, ?_, ?_, ?_, ?_, ?_⟩
  · rw [hparts hk]
    exact hsinkEq
  · exact fun hk hlookup => absurd hlookup (hnone hk)
  · exact fun hk hlookup => absurd hlookup (hnone hk)
  · exact fun hk hlookup => absurd hlookup (hnone hk)
  · exact fun hk hlookup => absurd hlookup (hroute hk)
  · exact fun hk hlookup => absurd hlookup (hroute hk)

theorem Sane.valid (h : Sane w m) (hk : m.parts k = some part) : part.Valid w :=
  fun hlookup => h.represents.lt_length ⟨k, part, _, hk, hlookup⟩

theorem Sane.extends (h : Sane w m) (hext : w.Extends w') : Sane w' m :=
  h.transfer (congrArg length hext.sinks).ge hext.length_le fun _ hcell =>
    ⟨_, hext.getElem?_eq_some hcell, rfl, fun _ hid => hid⟩

/-- The references of the clone are new cells. -/
theorem CloneOf.le_of_owns {parts copies : Parts}
    (h : CloneOf w parts sink w' copies) (hown : Owns copies pointer) :
    w.managers.length ≤ pointer := by
  obtain ⟨k, c, hash, hk, hlookup⟩ := hown
  obtain ⟨_, _, hcopy⟩ := h.part hk
  obtain ⟨_, _, _, _, _, hle⟩ := hcopy.manager hlookup
  exact hle

/-- The plain mergers at the clone describe it. -/
theorem CloneOf.represents (hclone : CloneOf w m.parts sink w' c.parts) :
    Represents w' c.parts sink (snapshot w m.parts) where
  sink_eq := by
    intro k part hk
    obtain ⟨_, _, hcopied⟩ := hclone.part hk
    exact hcopied.sink_eq
  group := by
    intro k part hash pointer' hk hlookup
    obtain ⟨part₀, hk₀, hcopied⟩ := hclone.part hk
    obtain ⟨pointer, manager, hmem, hcell, hcopy, -⟩ := hcopied.manager hlookup
    exact ⟨manager, (snapshot_groups hk₀).mpr ⟨pointer, (mem_entries_iff ..).mp hmem, hcell⟩, hcopy⟩
  absent := by
    intro k part hash hk hlookup
    obtain ⟨part₀, hk₀, hcopied⟩ := hclone.part hk
    refine eq_none_iff_forall_ne_some.mpr fun manager hgroup => ?_
    obtain ⟨pointer, hpointer, -⟩ := (snapshot_groups hk₀).mp hgroup
    exact hcopied.present ((mem_entries_iff _ ⟨hash, pointer⟩).mpr hpointer) hlookup
  own := by
    intro k part hash k' part' hash' pointer hk hlookup hk' hlookup'
    have heq := hclone.own hk hlookup hk' hlookup'
    subst heq
    cases hk.symm.trans hk'
    obtain ⟨_, _, hcopied⟩ := hclone.part hk
    exact ⟨rfl, hcopied.own hlookup hlookup'⟩
  route := by
    intro k part id hash hk hroute
    cases hroute

theorem CloneOf.sane
    (hclone : CloneOf w m.parts sink w' c.parts) (hsink : sink < w.sinks.length) : Sane w' c := by
  have hrep := hclone.represents
  obtain ⟨part, hpart, hsinkEq⟩ := c.exists_part
  have hsink' : c.orderSink = sink := hsinkEq.symm.trans (hrep.sink_eq hpart)
  -- the ids lead to the managers of the other merger
  have hroute : ∀ {k part id pointer}, c.parts k = some part →
      part.orderId2MultiBackrunManagers.lookup id = some pointer → pointer < w.managers.length := by
    intro k part id pointer hk hid
    obtain ⟨_, _, hcopy⟩ := hclone.part hk
    obtain ⟨_, _, -, hcell, -⟩ := hcopy.route hid
    exact (List.getElem?_eq_some_iff.mp hcell).1
  refine ⟨?_, fun hk => (hrep.sink_eq hk).trans hsink'.symm, ?_, hrep.own, ?_, ?_, ?_⟩
  · rw [hsink', hclone.world.sinks]
    exact hsink
  · intro k c' hash pointer hk hlookup
    obtain ⟨_, -, hcell⟩ := hrep.group hk hlookup
    exact ⟨_, hcell, hsink'.symm⟩
  · intro k c' hash pointer manager' id hk hlookup hcell' hid
    obtain ⟨m', hm', hcopy⟩ := hclone.part hk
    obtain ⟨pointer₀, manager, hmem, hcell, hcopy', _⟩ := hcopy.manager hlookup
    cases hcell'.symm.trans hcopy'
    exact hcopy.routed hmem hcell hid
  · exact fun hk hid hown => absurd (hroute hk hid) (not_lt.mpr (hclone.le_of_owns hown))
  · exact fun hk hid => (hroute hk hid).trans_le hclone.world.length_le

/-! ## All mergers -/

structure SaneWorld (w : World) (ms : List Merger) : Prop where
  consistent : w.Consistent
  sane : ∀ {i : Nat} {m : Merger}, ms[i]? = some m → Sane w m
  disjoint : ∀ {i j : Nat} {m m' : Merger} {pointer : Nat}, ms[i]? = some m → ms[j]? = some m' →
    Owns m.parts pointer → Owns m'.parts pointer → i = j

/-- Another merger with cells of its own. -/
theorem SaneWorld.append (h : SaneWorld w ms)
    (hext : w.Extends w') (hm : Sane w' m)
    (hfresh : ∀ {pointer}, Owns m.parts pointer → w.managers.length ≤ pointer) :
    SaneWorld w' (ms ++ [m]) := by
  have hcases : ∀ {i m'}, (ms ++ [m])[i]? = some m' →
      ms[i]? = some m' ∨ (i = ms.length ∧ m' = m) := by
    intro i m' hi
    rw [getElem?_append, getElem?_singleton] at hi
    split_ifs at hi with hlt hzero
    · exact Or.inl hi
    · exact Or.inr ⟨by omega, (some.inj hi).symm⟩
  have hbelow : ∀ {i : Nat} {m' : Merger} {pointer : Nat}, ms[i]? = some m' → Owns m'.parts pointer →
      pointer < w.managers.length := fun hi hown => (h.sane hi).represents.lt_length hown
  refine ⟨h.consistent.extends hext, fun hi => ?_, fun {i j m₁ m₂ pointer} hi hj hown₁ hown₂ => ?_⟩
  · rcases hcases hi with hi | ⟨-, rfl⟩
    · exact (h.sane hi).extends hext
    · exact hm
  rcases hcases hi with hold₁ | ⟨rfl, rfl⟩
  · rcases hcases hj with hold₂ | ⟨rfl, rfl⟩
    · exact h.disjoint hold₁ hold₂ hown₁ hown₂
    · exact absurd (hbelow hold₁ hown₁) (not_lt.mpr (hfresh hown₂))
  · rcases hcases hj with hold₂ | ⟨rfl, -⟩
    · exact absurd (hbelow hold₂ hown₂) (not_lt.mpr (hfresh hown₁))
    · rfl

theorem getElem?_set_cases
    (h : (ms.set i m)[j]? = some m') : (j = i ∧ m' = m) ∨ (j ≠ i ∧ ms[j]? = some m') := by
  rw [getElem?_set] at h
  split_ifs at h with heq hlt
  · exact Or.inl ⟨heq.symm, (some.inj h).symm⟩
  · exact Or.inr ⟨Ne.symm heq, h⟩

theorem SaneWorld.insertOrder (h : SaneWorld w ms)
    (hi : ms[i]? = some m) (hk : m.parts k = some part)
    (hparts : m'.parts = update m.parts k (some (part.insertOrder env w order).2)) :
    SaneWorld (part.insertOrder env w order).1 (ms.set i m') := by
  have hm := h.sane hi
  have hm' := hm.insertOrder hk hparts
  obtain ⟨hrep, hstep⟩ := hm.represents.insertOrder hk env order
  rw [← hparts] at hrep hstep
  -- what the merger refers to now does not belong to another one
  have hothers : ∀ {j : Nat} {other : Merger} {pointer : Nat}, j ≠ i → ms[j]? = some other →
      Owns other.parts pointer → ¬Owns m'.parts pointer := by
    intro j other pointer hne hj hother hown
    rcases hstep.fresh pointer hown with hown | hle
    · exact hne (h.disjoint hj hi hother hown)
    · exact absurd ((h.sane hj).represents.lt_length hother) (not_lt.mpr hle)
  refine ⟨consistent_insertOrder h.consistent, fun hj => ?_,
    fun {j₁ j₂ m₁ m₂ pointer} hj₁ hj₂ hown₁ hown₂ => ?_⟩
  · rcases getElem?_set_cases hj with ⟨rfl, rfl⟩ | ⟨hne, hj⟩
    · exact hm'
    · refine (h.sane hj).transfer ?_ hstep.length_le fun hown hcell => ?_
      · rw [hstep.sinks, length_modify]
      · exact ⟨_, (hstep.kept _ (hothers hne hj hown)).trans hcell, rfl, fun _ hid => hid⟩
  rcases getElem?_set_cases hj₁ with ⟨rfl, rfl⟩ | ⟨hne₁, hold₁⟩
  · rcases getElem?_set_cases hj₂ with ⟨rfl, -⟩ | ⟨hne₂, hold₂⟩
    · rfl
    · exact absurd hown₁ (hothers hne₂ hold₂ hown₂)
  · rcases getElem?_set_cases hj₂ with ⟨rfl, rfl⟩ | ⟨hne₂, hold₂⟩
    · exact absurd hown₂ (hothers hne₁ hold₁ hown₁)
    · exact h.disjoint hold₁ hold₂ hown₁ hown₂

theorem SaneWorld.removeOrder (h : SaneWorld w ms) (env : Env)
    (part : ShareBundleMerger) (id : OrderId) : SaneWorld (part.removeOrder env w id).2 ms where
  consistent := (removeOrder_cells h.consistent env part id).1
  sane hi := (h.sane hi).removeOrder h.consistent env part id
  disjoint := h.disjoint

theorem SaneWorld.call (h : SaneWorld w ms) (hi : ms[i]? = some m) (env : Env) (c : SinkCall) :
    SaneWorld (call env (w, m) c).1 (ms.set i (call env (w, m) c).2) := by
  have hset : ms.set i m = ms := by
    obtain ⟨hlt, rfl⟩ := List.getElem?_eq_some_iff.mp hi
    exact set_getElem_self hlt
  cases c with
  | insertOrder order =>
    obtain ⟨part, hk, hworld, hparts, -⟩ := call_insertOrder env w m order
    rw [hworld]
    exact h.insertOrder hi hk hparts
  | removeOrder id =>
    cases hslot : m.slotFor id with
    | none =>
      rw [call_removeOrder_none env w hslot, hset]
      exact h
    | some k =>
      obtain ⟨part, -, hcall⟩ := call_removeOrder_some env w hslot
      rw [hcall, hset]
      exact h.removeOrder env part id

theorem SaneWorld.clone (h : SaneWorld w ms)
    (hi : ms[i]? = some m) (hashOrder : HashOrder) (hsink : sink < w.sinks.length) :
    SaneWorld (m.cloneWithSink hashOrder w sink).1 (ms ++ [(m.cloneWithSink hashOrder w sink).2]) := by
  obtain ⟨hclone, -⟩ := cloneOf_cloneWithSink hashOrder (h.sane hi).valid sink
  exact h.append hclone.world (hclone.sane hsink) hclone.le_of_owns

theorem SaneWorld.new (h : SaneWorld w ms) (hsink : sink < w.sinks.length)
    (hparts : ∀ {k part}, m.parts k = some part → part = .new sink) : SaneWorld w (ms ++ [m]) := by
  refine h.append (.refl w) (sane_new hsink hparts) fun {pointer} hown => ?_
  obtain ⟨k, part, hash, hk, hlookup⟩ := hown
  rw [hparts hk] at hlookup
  cases hlookup

/-- All mergers of the signers are new. -/
theorem lookup_foldl_new (signers : List Address) (sink : Nat)
    {mergers : AList fun _ : Address => ShareBundleMerger}
    (h : ∀ {signer merger}, mergers.lookup signer = some merger → merger = .new sink) :
    ∀ {signer merger},
      (signers.foldl (fun mergers signer => mergers.insert signer (.new sink)) mergers).lookup
        signer = some merger → merger = .new sink := by
  induction signers generalizing mergers with
  | nil => exact h
  | cons first signers ih =>
    refine ih fun {signer merger} hlookup => ?_
    obtain ⟨-, rfl⟩ | ⟨-, hlookup⟩ := lookup_insert_eq_some hlookup
    · rfl
    · exact h hlookup

/-- Sinks and mergers are made, and mergers are called and cloned. -/
inductive Reachable (env : Env) : World → List Merger → Prop
  | start : Reachable env {} []
  | newSink {w : World} {ms : List Merger} : Reachable env w ms → Reachable env w.newSink ms
  | newMerger {w : World} {ms : List Merger} {sink : Nat} : Reachable env w ms →
      sink < w.sinks.length → Reachable env w (ms ++ [.single (.new sink)])
  | newMultiMerger {w : World} {ms : List Merger} {sink : Nat} (signers : List Address) :
      Reachable env w ms → sink < w.sinks.length →
      Reachable env w (ms ++ [.multi (.new signers sink)])
  | call {w : World} {ms : List Merger} {i : Nat} {m : Merger} (c : SinkCall) :
      Reachable env w ms → ms[i]? = some m →
      Reachable env (call env (w, m) c).1 (ms.set i (call env (w, m) c).2)
  | clone {w : World} {ms : List Merger} {i : Nat} {m : Merger} {sink : Nat} (hashOrder : HashOrder) :
      Reachable env w ms → ms[i]? = some m → sink < w.sinks.length →
      Reachable env (m.cloneWithSink hashOrder w sink).1 (ms ++ [(m.cloneWithSink hashOrder w sink).2])

theorem Reachable.saneWorld (h : Reachable env w ms) : SaneWorld w ms := by
  induction h with
  | start =>
    refine ⟨?_, ?_, ?_⟩
    · exact fun _ hmem => absurd hmem not_mem_nil
    · exact fun hi => absurd hi (by simp)
    · exact fun hi => absurd hi (by simp)
  | newSink _ ih =>
    refine ⟨ih.consistent, fun hi => ?_, ih.disjoint⟩
    refine (ih.sane hi).transfer ?_ (Nat.le_refl _) fun _ hcell => ⟨_, hcell, rfl, fun _ hid => hid⟩
    exact (length_append).ge.trans' (Nat.le_add_right ..)
  | newMerger _ hsink ih => exact ih.new hsink fun hk => (only_eq_some_iff.mp hk).2
  | newMultiMerger signers _ hsink ih =>
    refine ih.new hsink fun {k part} hk => ?_
    cases k with
    | none => exact (some.inj hk).symm
    | some signer =>
      exact lookup_foldl_new signers _ (fun hlookup => by cases hlookup) hk
  | call c _ hi ih => exact ih.call hi env c
  | clone hashOrder _ hi hsink ih => exact ih.clone hi hashOrder hsink

end BlockOrders.Merging
