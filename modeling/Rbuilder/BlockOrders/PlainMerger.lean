/-
  Mergers without references.

  A `PlainMerger` holds its managers by value, and for an id the hash of the user's bundle.
  A group of mergers in a `World` represents plain ones if no two of their references are the
  same, and each id that has a hash leads to the manager of that hash. Then insertions, and
  removals of ids that have a hash or lead nowhere, do the same on both sides, and nothing
  else in the world changes.
-/
import Rbuilder.BlockOrders.ShareBundleMerger

namespace BlockOrders.Merging

open SparseMpt
open Building (OrderId)
open Function ShareBundleMerger List AList

/-! ## The sink of a manager -/

namespace MultiBackrunManager

variable (keccak : Bytes → B256)

variable (manager : MultiBackrunManager)

theorem regenerateMultiOrder_cloneWithSink (sink : Nat) :
    (manager.cloneWithSink sink).regenerateMultiOrder keccak =
      ((manager.regenerateMultiOrder keccak).1.cloneWithSink sink,
        (manager.regenerateMultiOrder keccak).2) := by
  unfold regenerateMultiOrder
  have hmerge : (manager.cloneWithSink sink).mergeOrders keccak =
    manager.mergeOrders keccak := rfl
  rw [hmerge]
  by_cases hempty : manager.sortedOrders.entries.isEmpty
  · rw [if_pos hempty, if_pos (show (manager.cloneWithSink sink).sortedOrders.entries.isEmpty from
      hempty)]
    rfl
  rw [if_neg hempty, if_neg (show ¬(manager.cloneWithSink sink).sortedOrders.entries.isEmpty from
    hempty)]
  cases manager.mergeOrders keccak with
  | none | some mergedOrder => rfl

/-- The calls do not depend on which sink they go to. -/
theorem insertOrder_cloneWithSink (sink : Nat)
    (order : BrokenDownShareBundle) :
    (manager.cloneWithSink sink).insertOrder keccak order =
      ((manager.insertOrder keccak order).1.cloneWithSink sink,
        (manager.insertOrder keccak order).2) := by
  unfold insertOrder
  by_cases hid : order.simOrder.id ∈ manager.orderKickbacks
  · rw [if_pos hid, if_pos (show _ ∈ (manager.cloneWithSink sink).orderKickbacks from hid)]
  rw [if_neg hid, if_neg (show _ ∉ (manager.cloneWithSink sink).orderKickbacks from hid)]
  exact regenerateMultiOrder_cloneWithSink keccak { manager with
    orderKickbacks := manager.orderKickbacks.insert order.simOrder.id order.userKickback
    sortedOrders := manager.sortedOrders.insert (SortKey.new order) order } sink

variable {manager : MultiBackrunManager} {id : OrderId}

theorem removeOrder_of_none (hid : manager.orderKickbacks.lookup id = none) :
    manager.removeOrder keccak id = (none, manager, []) := by
  unfold removeOrder
  rw [hid]

variable {userKickback : Nat} {sortedOrders : SortedMap SortKey BrokenDownShareBundle}

theorem removeOrder_of_some {order : BrokenDownShareBundle}
    (hid : manager.orderKickbacks.lookup id = some userKickback)
    (hremove : manager.sortedOrders.remove ⟨id, userKickback⟩ = (some order, sortedOrders)) :
    manager.removeOrder keccak id = (some order.simOrder, regenerateMultiOrder keccak
      { manager with orderKickbacks := manager.orderKickbacks.erase id, sortedOrders }) := by
  simp only [removeOrder, hid, hremove]

/-- `sorted order not found`. -/
theorem removeOrder_of_missing (hid : manager.orderKickbacks.lookup id = some userKickback)
    (hremove : manager.sortedOrders.remove ⟨id, userKickback⟩ = (none, sortedOrders)) :
    manager.removeOrder keccak id = (none,
      { manager with orderKickbacks := manager.orderKickbacks.erase id, sortedOrders }, []) := by
  simp only [removeOrder, hid, hremove]

theorem removeOrder_cloneWithSink (sink : Nat) (id : OrderId) :
    (manager.cloneWithSink sink).removeOrder keccak id =
      ((manager.removeOrder keccak id).1, (manager.removeOrder keccak id).2.1.cloneWithSink sink,
        (manager.removeOrder keccak id).2.2) := by
  cases hid : manager.orderKickbacks.lookup id with
  | none =>
    rw [removeOrder_of_none keccak hid]
    exact removeOrder_of_none keccak hid
  | some userKickback =>
    rcases hremove : manager.sortedOrders.remove ⟨id, userKickback⟩ with ⟨order, sortedOrders⟩
    cases order with
    | none =>
      rw [removeOrder_of_missing keccak hid hremove]
      exact removeOrder_of_missing keccak hid hremove
    | some order =>
      have hid' : (manager.cloneWithSink sink).orderKickbacks.lookup id = some userKickback := hid
      have hregenerate := regenerateMultiOrder_cloneWithSink keccak
        { manager with orderKickbacks := manager.orderKickbacks.erase id, sortedOrders } sink
      rw [removeOrder_of_some keccak hid hremove, removeOrder_of_some keccak hid' hremove]
      exact congrArg (Prod.mk (some order.simOrder)) hregenerate

end MultiBackrunManager

/-! ## Plain mergers -/

structure PlainMerger where
  groups : B256 → Option MultiBackrunManager := fun _ => none
  routes : OrderId → Option B256 := fun _ => none

namespace PlainMerger

/-- The manager of a hash, or a new one. -/
def group (m : PlainMerger) (userBundleHash : B256) : MultiBackrunManager :=
  (m.groups userBundleHash).getD (.new userBundleHash 0)

def setGroup (m : PlainMerger) (userBundleHash : B256) (manager : MultiBackrunManager) :
    PlainMerger :=
  { m with groups := Function.update m.groups userBundleHash (some manager) }

theorem group_setGroup (m : PlainMerger) (hash : B256) (manager : MultiBackrunManager)
    (hash' : B256) :
    (m.setGroup hash manager).group hash' = if hash' = hash then manager else m.group hash' := by
  by_cases heq : hash' = hash
  · simp [group, setGroup, heq]
  · simp [group, setGroup, heq]

def setRoute (m : PlainMerger) (id : OrderId) (userBundleHash : B256) : PlainMerger :=
  { m with routes := Function.update m.routes id (some userBundleHash) }

def insertOrder (keccak : Bytes → B256) (m : PlainMerger) (order : SimulatedOrder) :
    PlainMerger × List SinkCall :=
  match breakDownBundle keccak order with
  | none => (m, [.insertOrder order])
  | some brokenDown =>
    let (manager, calls) := (m.group brokenDown.userBundleHash).insertOrder keccak brokenDown
    ((m.setGroup brokenDown.userBundleHash manager).setRoute order.id brokenDown.userBundleHash,
      calls)

def removeOrder (keccak : Bytes → B256) (m : PlainMerger) (id : OrderId) :
    PlainMerger × List SinkCall :=
  match m.routes id with
  | none => (m, [.removeOrder id])
  | some userBundleHash =>
    let (_, manager, calls) := (m.group userBundleHash).removeOrder keccak id
    (m.setGroup userBundleHash manager, calls)

end PlainMerger

/-! ## Mergers that own their managers -/

/-- The mergers of the signers, and at `none` the one for all others. -/
abbrev Parts := Option Address → Option ShareBundleMerger

/-- The mergers refer to the manager by a hash. -/
def Owns (parts : Parts) (pointer : Nat) : Prop :=
  ∃ k m hash, parts k = some m ∧ m.multiBackrunManagers.lookup hash = some pointer

structure Represents (w : World) (parts : Parts) (sink : Nat) (plain : Option Address → PlainMerger) :
    Prop where
  sink_eq : ∀ {k m}, parts k = some m → m.orderSink = sink
  group : ∀ {k m hash pointer}, parts k = some m →
    m.multiBackrunManagers.lookup hash = some pointer →
    ∃ manager, (plain k).groups hash = some manager ∧
      w.managers[pointer]? = some (manager.cloneWithSink sink)
  absent : ∀ {k m hash}, parts k = some m → m.multiBackrunManagers.lookup hash = none →
    (plain k).groups hash = none
  own : ∀ {k m hash k' m' hash' pointer}, parts k = some m →
    m.multiBackrunManagers.lookup hash = some pointer → parts k' = some m' →
    m'.multiBackrunManagers.lookup hash' = some pointer → k = k' ∧ hash = hash'
  route : ∀ {k m id hash}, parts k = some m → (plain k).routes id = some hash →
    ∃ pointer, m.multiBackrunManagers.lookup hash = some pointer ∧
      m.orderId2MultiBackrunManagers.lookup id = some pointer

/-- Calls were made to the sink, and only managers of the mergers may have changed. -/
structure Stepped (w : World) (parts : Parts) (sink : Nat) (w' : World) (parts' : Parts)
    (calls : List SinkCall) : Prop where
  sinks : w'.sinks = w.sinks.modify sink (· ++ calls)
  kept : ∀ pointer, ¬Owns parts' pointer → w'.managers[pointer]? = w.managers[pointer]?
  grows : ∀ pointer, Owns parts pointer → Owns parts' pointer
  fresh : ∀ pointer, Owns parts' pointer → Owns parts pointer ∨ w.managers.length ≤ pointer
  length_le : w.managers.length ≤ w'.managers.length

variable {α : Type}

theorem modify_append_nil (l : List (List α)) (i : Nat) : l.modify i (· ++ []) = l := by
  have hid : (fun x : List α => x ++ []) = id := funext append_nil
  rw [hid, modify_id]

theorem modify_append_append (l : List (List α)) (i : Nat) (xs ys : List α) :
    (l.modify i (· ++ xs)).modify i (· ++ ys) = l.modify i (· ++ (xs ++ ys)) := by
  rw [modify_modify_eq]
  congr 1
  funext x
  exact append_assoc x xs ys

theorem Stepped.refl (w : World) (parts : Parts) (sink : Nat) : Stepped w parts sink w parts [] where
  sinks := (modify_append_nil w.sinks sink).symm
  kept _ _ := rfl
  grows _ h := h
  fresh _ h := Or.inl h
  length_le := Nat.le_refl _

theorem Stepped.trans {w w' w'' : World} {parts parts' parts'' : Parts} {sink : Nat}
    {calls calls' : List SinkCall} (h : Stepped w parts sink w' parts' calls)
    (h' : Stepped w' parts' sink w'' parts'' calls') :
    Stepped w parts sink w'' parts'' (calls ++ calls') where
  sinks := by rw [h'.sinks, h.sinks, modify_append_append]
  kept := by
    intro pointer hown
    rw [h'.kept pointer hown, h.kept pointer fun hown' => hown (h'.grows pointer hown')]
  grows pointer hown := h'.grows pointer (h.grows pointer hown)
  fresh := by
    intro pointer hown
    rcases h'.fresh pointer hown with hown' | hlen
    · exact h.fresh pointer hown'
    · exact Or.inr (h.length_le.trans hlen)
  length_le := h.length_le.trans h'.length_le

/-! ## The steps of a represented merger -/

section Steps

variable {w : World} {parts : Parts} {sink : Nat} {plain : Option Address → PlainMerger}
  {k : Option Address} {m : ShareBundleMerger}

theorem update_eq_some_iff {k' : Option Address} {m' : ShareBundleMerger} :
    update parts k (some m) k' = some m' ↔ (k' = k ∧ m' = m) ∨ (k' ≠ k ∧ parts k' = some m') := by
  by_cases heq : k' = k
  · subst heq
    simp [eq_comm]
  · simp [heq]

/-- A merger by itself. -/
def only (m : ShareBundleMerger) : Parts := Function.update (fun _ => none) none (some m)

variable {m' : ShareBundleMerger} {brokenDown : BrokenDownShareBundle}
  {manager : MultiBackrunManager} {keccak : Bytes → B256}

theorem only_eq_some_iff {m : ShareBundleMerger} {k : Option Address} :
    only m k = some m' ↔ k = none ∧ m' = m := by
  unfold only
  rw [update_eq_some_iff]
  simp

theorem update_only (m m' : ShareBundleMerger) :
    update (only m) none (some m') = only m' := update_idem ..

theorem groups_setGroup (plain : Option Address → PlainMerger) (k : Option Address) (hash : B256)
    (manager : MultiBackrunManager) (k' : Option Address) (hash' : B256) :
    (update plain k ((plain k).setGroup hash manager) k').groups hash' =
      if k' = k ∧ hash' = hash then some manager else (plain k').groups hash' := by
  by_cases heq : k' = k
  · subst heq
    simp [PlainMerger.setGroup, update_apply]
  · rw [update_of_ne heq, if_neg fun hand => heq hand.1]

theorem routes_setGroup (plain : Option Address → PlainMerger) (k : Option Address) (hash : B256)
    (manager : MultiBackrunManager) (k' : Option Address) :
    (update plain k ((plain k).setGroup hash manager) k').routes = (plain k').routes := by
  by_cases heq : k' = k
  · rw [heq, update_self]
    rfl
  · rw [update_of_ne heq]

theorem Represents.send (h : Represents w parts sink plain) (calls : List SinkCall) :
    Represents (w.send sink calls) parts sink plain :=
  { h with group := h.group }

theorem Stepped.send (w : World) (parts : Parts) (sink : Nat) (calls : List SinkCall) :
    Stepped w parts sink (w.send sink calls) parts calls where
  sinks := rfl
  kept _ _ := rfl
  grows _ hown := hown
  fresh _ hown := Or.inl hown
  length_le := Nat.le_refl _

variable {pointer : Nat} {hash : B256} {env : Env} {order : SimulatedOrder} {id : OrderId}

section

variable (h : Represents w parts sink plain)
include h

theorem Represents.lt_length (hown : Owns parts pointer) : pointer < w.managers.length := by
  obtain ⟨k, m, hash, hk, hlookup⟩ := hown
  obtain ⟨manager, -, hcell⟩ := h.group hk hlookup
  exact (List.getElem?_eq_some_iff.mp hcell).1

section

variable (hk : parts k = some m)
include hk

/-- A manager of the mergers is replaced. -/
theorem Represents.store
    (hlookup : m.multiBackrunManagers.lookup hash = some pointer)
    (manager : MultiBackrunManager) (calls : List SinkCall) :
    Represents (w.store pointer (manager.cloneWithSink sink) calls) parts sink
        (update plain k ((plain k).setGroup hash manager)) ∧
      Stepped w parts sink (w.store pointer (manager.cloneWithSink sink) calls) parts calls := by
  have hlen := h.lt_length ⟨k, m, hash, hk, hlookup⟩
  refine ⟨⟨h.sink_eq, ?_, ?_, h.own, ?_⟩, ⟨rfl, ?_, fun _ hown => hown, fun _ hown => Or.inl hown, ?_⟩⟩
  · intro k' m' hash' pointer' hk' hlookup'
    rw [groups_setGroup]
    change ∃ manager', _ ∧ (w.managers.set pointer _)[pointer']? = _
    by_cases hsame : k' = k ∧ hash' = hash
    · obtain ⟨rfl, rfl⟩ := hsame
      cases hk.symm.trans hk'
      cases hlookup.symm.trans hlookup'
      exact ⟨manager, if_pos ⟨rfl, rfl⟩, getElem?_set_self hlen⟩
    obtain ⟨manager', hgroup, hcell⟩ := h.group hk' hlookup'
    refine ⟨manager', (if_neg hsame).trans hgroup, ?_⟩
    -- another manager is in another cell
    have hne : pointer ≠ pointer' := by
      intro heq
      exact hsame (h.own hk' hlookup' hk (heq ▸ hlookup))
    rw [getElem?_set_ne hne, hcell]
  · intro k' m' hash' hk' hlookup'
    have hne : ¬(k' = k ∧ hash' = hash) := by
      rintro ⟨rfl, rfl⟩
      cases hk.symm.trans hk'
      rw [hlookup] at hlookup'
      cases hlookup'
    rw [groups_setGroup, if_neg hne]
    exact h.absent hk' hlookup'
  · intro k' m' id hash' hk' hroute
    rw [routes_setGroup] at hroute
    exact h.route hk' hroute
  · intro pointer' hown
    have hne : pointer ≠ pointer' := fun heq => hown (heq ▸ ⟨k, m, hash, hk, hlookup⟩)
    exact getElem?_set_ne hne
  · exact (length_set).ge

/-- An id gets a hash, and leads to the manager of the hash. -/
theorem Represents.setRoute
    (hlookup : m.multiBackrunManagers.lookup hash = some pointer) (id : OrderId) :
    Represents w (update parts k (some (m.setRoute id pointer))) sink
        (update plain k ((plain k).setRoute id hash)) ∧
      Stepped w parts sink w (update parts k (some (m.setRoute id pointer))) [] := by
  -- the references by hash are the same
  have hparts : ∀ {k' m''}, update parts k (some (m.setRoute id pointer)) k' = some m'' →
      ∃ m₀, parts k' = some m₀ ∧ m''.multiBackrunManagers = m₀.multiBackrunManagers ∧
        m''.orderSink = m₀.orderSink := by
    intro k' m'' hk'
    rcases update_eq_some_iff.mp hk' with ⟨rfl, rfl⟩ | ⟨-, hk'⟩
    · exact ⟨m, hk, rfl, rfl⟩
    · exact ⟨m'', hk', rfl, rfl⟩
  have hgroups : ∀ k', (update plain k ((plain k).setRoute id hash) k').groups = (plain k').groups := by
    intro k'
    by_cases heq : k' = k
    · rw [heq, update_self]
      rfl
    · rw [update_of_ne heq]
  refine ⟨⟨?_, ?_, ?_, ?_, ?_⟩, ⟨(modify_append_nil w.sinks sink).symm, fun _ _ => rfl, ?_, ?_,
    Nat.le_refl _⟩⟩
  · intro k' m'' hk'
    obtain ⟨m₀, hm₀, -, hsink⟩ := hparts hk'
    exact hsink.trans (h.sink_eq hm₀)
  · intro k' m'' hash' pointer' hk' hlookup'
    obtain ⟨m₀, hm₀, hmap, -⟩ := hparts hk'
    rw [hgroups k']
    exact h.group hm₀ (hmap ▸ hlookup')
  · intro k' m'' hash' hk' hlookup'
    obtain ⟨m₀, hm₀, hmap, -⟩ := hparts hk'
    rw [hgroups k']
    exact h.absent hm₀ (hmap ▸ hlookup')
  · intro k₁ m₁ hash₁ k₂ m₂ hash₂ pointer' hk₁ hlookup₁ hk₂ hlookup₂
    obtain ⟨m₀₁, hm₁, hmap₁, -⟩ := hparts hk₁
    obtain ⟨m₀₂, hm₂, hmap₂, -⟩ := hparts hk₂
    exact h.own hm₁ (hmap₁ ▸ hlookup₁) hm₂ (hmap₂ ▸ hlookup₂)
  · intro k' m'' id' hash' hk' hroute
    rcases update_eq_some_iff.mp hk' with ⟨rfl, rfl⟩ | ⟨hne, hk'⟩
    · rw [update_self] at hroute
      by_cases hid : id' = id
      · subst hid
        change update (plain k').routes id' (some hash) id' = some hash' at hroute
        rw [update_self] at hroute
        cases hroute
        exact ⟨pointer, hlookup, lookup_insert _⟩
      · obtain ⟨pointer', hpointer, hid'⟩ := h.route hk ((update_of_ne hid ..).symm.trans hroute)
        exact ⟨pointer', hpointer, (lookup_insert_ne hid).trans hid'⟩
    · rw [update_of_ne hne] at hroute
      exact h.route hk' hroute
  · rintro pointer' ⟨k', m₀, hash', hk', hpointer⟩
    by_cases heq : k' = k
    · subst heq
      cases hk.symm.trans hk'
      exact ⟨k', m.setRoute id pointer, hash', update_self .., hpointer⟩
    · exact ⟨k', m₀, hash', (update_of_ne heq ..).trans hk', hpointer⟩
  · rintro pointer' ⟨k', m'', hash', hk', hpointer⟩
    obtain ⟨m₀, hm₀, hmap, -⟩ := hparts hk'
    exact Or.inl ⟨k', m₀, hash', hm₀, hmap ▸ hpointer⟩

/-- A merger gets a manager for a new hash. -/
theorem Represents.alloc
    (hnew : m.multiBackrunManagers.lookup hash = none) :
    let m' := { m with
      multiBackrunManagers := m.multiBackrunManagers.insert hash w.managers.length }
    Represents (w.alloc (.new hash m.orderSink)) (update parts k (some m')) sink
        (update plain k ((plain k).setGroup hash (.new hash 0))) ∧
      Stepped w parts sink (w.alloc (.new hash m.orderSink)) (update parts k (some m')) [] := by
  intro m'
  have hsink : m.orderSink = sink := h.sink_eq hk
  -- a reference of the new mergers is the new cell, for the hash, or one of the old ones
  have hcases : ∀ {k' m'' hash' pointer}, update parts k (some m') k' = some m'' →
      m''.multiBackrunManagers.lookup hash' = some pointer →
      (k' = k ∧ hash' = hash ∧ pointer = w.managers.length) ∨
        (¬(k' = k ∧ hash' = hash) ∧ ∃ m₀, parts k' = some m₀ ∧
          m₀.multiBackrunManagers.lookup hash' = some pointer) := by
    intro k' m'' hash' pointer hk' hpointer
    rcases update_eq_some_iff.mp hk' with ⟨rfl, rfl⟩ | ⟨hne, hk'⟩
    · rcases lookup_insert_eq_some hpointer with ⟨hhash, heq⟩ | ⟨hhash, hpointer⟩
      · exact Or.inl ⟨rfl, hhash, heq⟩
      · exact Or.inr ⟨fun hand => hhash hand.2, m, hk, hpointer⟩
    · exact Or.inr ⟨fun hand => hne hand.1, m'', hk', hpointer⟩
  have hlt : ∀ {k' m₀ hash' pointer}, parts k' = some m₀ →
      m₀.multiBackrunManagers.lookup hash' = some pointer → pointer < w.managers.length :=
    fun hk' hpointer => h.lt_length ⟨_, _, _, hk', hpointer⟩
  refine ⟨⟨?_, ?_, ?_, ?_, ?_⟩, ⟨(modify_append_nil w.sinks sink).symm, ?_, ?_, ?_, ?_⟩⟩
  · intro k' m'' hk'
    rcases update_eq_some_iff.mp hk' with ⟨rfl, rfl⟩ | ⟨-, hk'⟩
    · exact hsink
    · exact h.sink_eq hk'
  · intro k' m'' hash' pointer hk' hpointer
    rw [groups_setGroup]
    change ∃ manager, _ ∧ (w.managers ++ [_])[pointer]? = _
    rcases hcases hk' hpointer with ⟨rfl, rfl, rfl⟩ | ⟨hne, m₀, hm₀, hpointer₀⟩
    · refine ⟨.new hash' 0, if_pos ⟨rfl, rfl⟩, ?_⟩
      rw [getElem?_concat_length, hsink]
      rfl
    · obtain ⟨manager, hgroup, hcell⟩ := h.group hm₀ hpointer₀
      refine ⟨manager, (if_neg hne).trans hgroup, ?_⟩
      rw [getElem?_append_left (hlt hm₀ hpointer₀), hcell]
  · intro k' m'' hash' hk' hlookup'
    rcases update_eq_some_iff.mp hk' with ⟨rfl, rfl⟩ | ⟨hne, hk'⟩
    · have hhash : hash' ≠ hash := by
        rintro rfl
        rw [lookup_insert] at hlookup'
        cases hlookup'
      rw [groups_setGroup, if_neg fun hand => hhash hand.2]
      exact h.absent hk ((lookup_insert_ne hhash).symm.trans hlookup')
    · rw [groups_setGroup, if_neg fun hand => hne hand.1]
      exact h.absent hk' hlookup'
  · intro k₁ m₁ hash₁ k₂ m₂ hash₂ pointer hk₁ hlookup₁ hk₂ hlookup₂
    rcases hcases hk₁ hlookup₁ with ⟨rfl, rfl, rfl⟩ | ⟨-, m₀₁, hm₁, hpointer₁⟩
    · rcases hcases hk₂ hlookup₂ with ⟨rfl, rfl, -⟩ | ⟨-, m₀₂, hm₂, hpointer₂⟩
      · exact ⟨rfl, rfl⟩
      · exact absurd (hlt hm₂ hpointer₂) (lt_irrefl _)
    · rcases hcases hk₂ hlookup₂ with ⟨rfl, rfl, rfl⟩ | ⟨-, m₀₂, hm₂, hpointer₂⟩
      · exact absurd (hlt hm₁ hpointer₁) (lt_irrefl _)
      · exact h.own hm₁ hpointer₁ hm₂ hpointer₂
  · intro k' m'' id hash' hk' hroute
    rw [routes_setGroup] at hroute
    rcases update_eq_some_iff.mp hk' with ⟨rfl, rfl⟩ | ⟨hne, hk'⟩
    · obtain ⟨pointer, hpointer, hid⟩ := h.route hk hroute
      exact ⟨pointer, lookup_insert_of_new hnew hpointer, hid⟩
    · exact h.route hk' hroute
  · intro pointer hown
    have hne : pointer ≠ w.managers.length :=
      fun heq => hown ⟨k, m', hash, update_self .., heq ▸ lookup_insert _⟩
    change (w.managers ++ [_])[pointer]? = _
    rcases Nat.lt_or_gt_of_ne hne with hlt' | hgt
    · exact getElem?_append_left hlt'
    have hlen : (w.managers ++ [MultiBackrunManager.new hash m.orderSink]).length ≤ pointer := by
      rw [length_append]
      exact hgt
    rw [getElem?_eq_none hlen, getElem?_eq_none hgt.le]
  · rintro pointer ⟨k', m₀, hash', hk', hpointer⟩
    by_cases heq : k' = k
    · subst heq
      cases hk.symm.trans hk'
      exact ⟨k', m', hash', update_self .., lookup_insert_of_new hnew hpointer⟩
    · exact ⟨k', m₀, hash', (update_of_ne heq ..).trans hk', hpointer⟩
  · rintro pointer ⟨k', m'', hash', hk', hpointer⟩
    rcases hcases hk' hpointer with ⟨-, -, rfl⟩ | ⟨-, m₀, hm₀, hpointer₀⟩
    · exact Or.inr (Nat.le_refl _)
    · exact Or.inl ⟨k', m₀, hash', hm₀, hpointer₀⟩
  · change w.managers.length ≤ (w.managers ++ [_]).length
    rw [length_append]
    exact Nat.le_add_right ..

/-- The manager of the hash is found, or made. -/
theorem Represents.handler
    (hash : B256) :
    let found := m.handler w hash
    Represents found.2.1 (update parts k (some found.2.2)) sink
        (update plain k ((plain k).setGroup hash ((plain k).group hash))) ∧
      Stepped w parts sink found.2.1 (update parts k (some found.2.2)) [] ∧
      found.2.2.multiBackrunManagers.lookup hash = some found.1 := by
  unfold ShareBundleMerger.handler PlainMerger.group
  cases hlookup : m.multiBackrunManagers.lookup hash with
  | none =>
    obtain ⟨hrep, hstep⟩ := h.alloc hk hlookup
    rw [h.absent hk hlookup]
    exact ⟨hrep, hstep, lookup_insert _⟩
  | some pointer =>
    obtain ⟨manager, hgroup, -⟩ := h.group hk hlookup
    have hsame : (plain k).setGroup hash manager = plain k := by
      unfold PlainMerger.setGroup
      rw [← hgroup, update_eq_self]
    have hparts : update parts k (some m) = parts := by
      rw [← hk, update_eq_self]
    change Represents w (update parts k (some m)) sink _ ∧
      Stepped w parts sink w (update parts k (some m)) [] ∧ _
    rw [hgroup, Option.getD_some, hsame, update_eq_self, hparts]
    exact ⟨h, .refl w parts sink, hlookup⟩

end

end

theorem insertOrder_of_none (hbroken : breakDownBundle env.keccak256 order = none) :
    m.insertOrder env w order = (w.send m.orderSink [.insertOrder order], m) := by
  unfold insertOrder
  rw [hbroken]

theorem insertOrder_of_some {w' : World}
    (hbroken : breakDownBundle env.keccak256 order = some brokenDown)
    (hfound : m.handler w brokenDown.userBundleHash = (pointer, w', m'))
    (hcell : w'.managers[pointer]? = some manager) :
    m.insertOrder env w order =
      (w'.store pointer (manager.insertOrder env.keccak256 brokenDown).1
        (manager.insertOrder env.keccak256 brokenDown).2, m'.setRoute order.id pointer) := by
  simp only [insertOrder, hbroken, hfound, hcell]

theorem Represents.insertOrder (h : Represents w parts sink plain) (hk : parts k = some m)
    (env : Env) (order : SimulatedOrder) :
    Represents (m.insertOrder env w order).1
        (update parts k (some (m.insertOrder env w order).2)) sink
        (update plain k ((plain k).insertOrder env.keccak256 order).1) ∧
      Stepped w parts sink (m.insertOrder env w order).1
        (update parts k (some (m.insertOrder env w order).2))
        ((plain k).insertOrder env.keccak256 order).2 := by
  cases hbroken : breakDownBundle env.keccak256 order with
  | none =>
    have hparts : update parts k (some m) = parts := by
      rw [← hk, update_eq_self]
    have hplain : (plain k).insertOrder env.keccak256 order = (plain k, [.insertOrder order]) := by
      unfold PlainMerger.insertOrder
      rw [hbroken]
    rw [insertOrder_of_none hbroken, hplain, hparts, update_eq_self, h.sink_eq hk]
    exact ⟨h.send _, .send w parts sink _⟩
  | some brokenDown =>
    have hhandler := h.handler hk brokenDown.userBundleHash
    rcases hfound : m.handler w brokenDown.userBundleHash with ⟨pointer, w₁, m₁⟩
    rw [hfound] at hhandler
    obtain ⟨hrep₁, hstep₁, hlookup₁⟩ := hhandler
    have hroute := hrep₁.setRoute (update_self ..) hlookup₁ order.id
    rw [update_idem, update_idem, update_self] at hroute
    obtain ⟨hrep₂, hstep₂⟩ := hroute
    obtain ⟨manager, hgroup, hcell⟩ := hrep₂.group (update_self ..) hlookup₁
    have hmanager : (plain k).group brokenDown.userBundleHash = manager := by
      simpa only [PlainMerger.setRoute, PlainMerger.setGroup, update_self,
        Option.some.injEq] using hgroup
    obtain ⟨hrep₃, hstep₃⟩ := hrep₂.store (update_self ..) hlookup₁
      (manager.insertOrder env.keccak256 brokenDown).1 (manager.insertOrder env.keccak256 brokenDown).2
    rw [update_idem, update_self] at hrep₃
    have hplain : (plain k).insertOrder env.keccak256 order =
        ((((plain k).setGroup brokenDown.userBundleHash manager).setRoute order.id
          brokenDown.userBundleHash).setGroup brokenDown.userBundleHash
            (manager.insertOrder env.keccak256 brokenDown).1,
          (manager.insertOrder env.keccak256 brokenDown).2) := by
      simp only [PlainMerger.insertOrder, hbroken, hmanager, PlainMerger.setGroup,
        PlainMerger.setRoute, update_idem]
    rw [insertOrder_of_some hbroken hfound hcell, MultiBackrunManager.insertOrder_cloneWithSink,
      hplain]
    rw [hmanager] at hrep₃
    exact ⟨hrep₃, (hstep₁.trans hstep₂).trans hstep₃⟩

theorem removeOrder_of_none (hid : m.orderId2MultiBackrunManagers.lookup id = none) :
    (m.removeOrder env w id).2 = w.send m.orderSink [.removeOrder id] := by
  simp only [removeOrder, hid]

theorem removeOrder_of_some (hid : m.orderId2MultiBackrunManagers.lookup id = some pointer)
    (hcell : w.managers[pointer]? = some manager) :
    (m.removeOrder env w id).2 = w.store pointer (manager.removeOrder env.keccak256 id).2.1
      (manager.removeOrder env.keccak256 id).2.2 := by
  simp only [removeOrder, hid, hcell]

theorem handler_routes (w : World) (m : ShareBundleMerger) (hash : B256) :
    (m.handler w hash).2.2.orderId2MultiBackrunManagers = m.orderId2MultiBackrunManagers := by
  unfold handler
  cases m.multiBackrunManagers.lookup hash with
  | none | some pointer => rfl

/-- The merger after the insertion of an order that is broken down. -/
theorem insertOrder_snd (hbroken : breakDownBundle env.keccak256 order = some brokenDown) :
    (m.insertOrder env w order).2 =
      (m.handler w brokenDown.userBundleHash).2.2.setRoute order.id
        (m.handler w brokenDown.userBundleHash).1 := by
  simp only [insertOrder, hbroken]
  split <;> rfl

/-- An insertion concerns the id of the order only, if it is broken down. -/
theorem lookup_insertOrder (h : id = order.id → breakDownBundle env.keccak256 order = none) :
    (m.insertOrder env w order).2.orderId2MultiBackrunManagers.lookup id =
      m.orderId2MultiBackrunManagers.lookup id := by
  cases hbroken : breakDownBundle env.keccak256 order with
  | none => rw [insertOrder_of_none hbroken]
  | some brokenDown =>
    have hid : id ≠ order.id := by
      intro heq
      rw [h heq] at hbroken
      cases hbroken
    rw [insertOrder_snd hbroken, ← handler_routes w m brokenDown.userBundleHash]
    exact lookup_insert_ne hid

theorem PlainMerger.routes_insertOrder (m : PlainMerger) (order : SimulatedOrder) (id : OrderId) :
    (m.insertOrder keccak order).1.routes id =
      if id = order.id ∧ (breakDownBundle keccak order).isSome then
        (breakDownBundle keccak order).map BrokenDownShareBundle.userBundleHash
      else m.routes id := by
  cases hbroken : breakDownBundle keccak order with
  | none => simp [PlainMerger.insertOrder, hbroken]
  | some brokenDown =>
    by_cases hid : id = order.id
    · simp [PlainMerger.insertOrder, hbroken, PlainMerger.setRoute, hid]
    · simp [PlainMerger.insertOrder, hbroken, PlainMerger.setRoute, PlainMerger.setGroup, hid]

theorem PlainMerger.routes_removeOrder (m : PlainMerger) (id : OrderId) :
    (m.removeOrder keccak id).1.routes = m.routes := by
  unfold PlainMerger.removeOrder
  cases m.routes id with
  | none | some hash => rfl

/-- An id is removed that has a hash, or leads nowhere. -/
theorem Represents.removeOrder (h : Represents w parts sink plain) (hk : parts k = some m)
    (env : Env)
    (hid : (plain k).routes id = none → m.orderId2MultiBackrunManagers.lookup id = none) :
    Represents (m.removeOrder env w id).2 parts sink
        (update plain k ((plain k).removeOrder env.keccak256 id).1) ∧
      Stepped w parts sink (m.removeOrder env w id).2 parts
        ((plain k).removeOrder env.keccak256 id).2 := by
  cases hroute : (plain k).routes id with
  | none =>
    have hplain : (plain k).removeOrder env.keccak256 id = (plain k, [.removeOrder id]) := by
      simp only [PlainMerger.removeOrder, hroute]
    rw [removeOrder_of_none (hid hroute), hplain, update_eq_self, h.sink_eq hk]
    exact ⟨h.send _, .send w parts sink _⟩
  | some hash =>
    obtain ⟨pointer, hpointer, hid'⟩ := h.route hk hroute
    obtain ⟨manager, hgroup, hcell⟩ := h.group hk hpointer
    have hplain : (plain k).removeOrder env.keccak256 id =
        ((plain k).setGroup hash (manager.removeOrder env.keccak256 id).2.1,
          (manager.removeOrder env.keccak256 id).2.2) := by
      simp only [PlainMerger.removeOrder, hroute, PlainMerger.group, hgroup, Option.getD_some]
    rw [removeOrder_of_some hid' hcell, MultiBackrunManager.removeOrder_cloneWithSink, hplain]
    exact h.store hk hpointer ..

end Steps

end BlockOrders.Merging
