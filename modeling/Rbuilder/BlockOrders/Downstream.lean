/-
  Orders that are live, and what is expected downstream of a merger.

  Of the live orders those that cannot be broken down are expected as they are, and for each
  hash of a user's bundle one merged bundle. A sink removes an order by its id: where two
  orders that it got have the same id, what is left is known as far as they agree. `view` is
  what of an order is looked at.
-/
import Rbuilder.BlockOrders.MergedBundle
import Mathlib.Data.Finset.Basic
import Mathlib.Algebra.Order.Group.Multiset

namespace BlockOrders.Merging

open SparseMpt
open Building (OrderId)
open List

/-! ## Live orders -/

namespace SinkCall

def id : SinkCall → OrderId
  | insertOrder order => order.id
  | removeOrder id => id

def isInsert : SinkCall → Bool
  | insertOrder _ => true
  | removeOrder _ => false

def order? : SinkCall → Option SimulatedOrder
  | insertOrder order => some order
  | removeOrder _ => none

end SinkCall

/-- The calls for the id, `true` for an insertion. -/
def kindsOf (id : OrderId) (calls : List SinkCall) : List Bool :=
  (calls.filter fun c => c.id = id).map SinkCall.isInsert

/-- All orders that were inserted. -/
def inserted (calls : List SinkCall) : List SimulatedOrder := calls.filterMap SinkCall.order?

def liveStep (live : List SimulatedOrder) : SinkCall → List SimulatedOrder
  | .insertOrder order => order :: live
  | .removeOrder id => live.eraseP fun o => o.id = id

/-- Insertions minus removals. -/
def liveAfter (calls : List SinkCall) : List SimulatedOrder := calls.foldl liveStep []

theorem liveAfter_append (calls more : List SinkCall) :
    liveAfter (calls ++ more) = more.foldl liveStep (liveAfter calls) := foldl_append

variable {order : SimulatedOrder}

theorem mem_inserted_of_mem_liveAfter {calls : List SinkCall}
    (h : order ∈ liveAfter calls) : order ∈ inserted calls := by
  induction calls using reverseRecOn with
  | nil => cases h
  | append_singleton calls c ih =>
    rw [liveAfter_append] at h
    unfold inserted at ih ⊢
    rw [filterMap_append]
    cases c with
    | insertOrder o =>
      rcases mem_cons.mp h with rfl | h
      · exact mem_append_right _ (mem_singleton.mpr rfl)
      · exact mem_append_left _ (ih h)
    | removeOrder id => exact mem_append_left _ (ih (mem_of_mem_eraseP h))

theorem perm_eraseP {live : List SimulatedOrder} {id : OrderId}
    (hnodup : (live.map SimulatedOrder.id).Nodup) (horder : order ∈ live) (hid : order.id = id) :
    live.Perm (order :: live.eraseP fun o => o.id = id) := by
  obtain ⟨found, before, after, -, hfound, hlive, herase⟩ :=
    exists_of_eraseP (p := fun o : SimulatedOrder => decide (o.id = id)) horder (by simpa using hid)
  have hmem : found ∈ live := hlive ▸ mem_append_right _ mem_cons_self
  have heq : found = order :=
    inj_on_of_nodup_map hnodup hmem horder ((of_decide_eq_true hfound).trans hid.symm)
  rw [herase, hlive, heq]
  exact perm_middle

/-! ## What is expected downstream -/

section Expected

variable (keccak : Bytes → B256)

/-- The orders of the hash. -/
def ordersOf (hash : B256) (live : List SimulatedOrder) : List BrokenDownShareBundle :=
  (live.filterMap (breakDownBundle keccak)).filter fun b => b.userBundleHash = hash

def hashesOf (live : List SimulatedOrder) : Finset B256 :=
  ((live.filterMap (breakDownBundle keccak)).map BrokenDownShareBundle.userBundleHash).toFinset

def rejected (live : List SimulatedOrder) : List SimulatedOrder :=
  live.filter fun o => (breakDownBundle keccak o).isNone

variable {order : SimulatedOrder} {live' : List SimulatedOrder}

theorem ordersOf_cons_none (h : breakDownBundle keccak order = none)
    (hash : B256) (live : List SimulatedOrder) :
    ordersOf keccak hash (order :: live) = ordersOf keccak hash live := by
  unfold ordersOf
  rw [filterMap_cons_none h]

theorem ordersOf_cons_some {b : BrokenDownShareBundle}
    (h : breakDownBundle keccak order = some b) (hash : B256) (live : List SimulatedOrder) :
    ordersOf keccak hash (order :: live) =
      if b.userBundleHash = hash then b :: ordersOf keccak hash live
      else ordersOf keccak hash live := by
  unfold ordersOf
  rw [filterMap_cons_some h, filter_cons]
  simp only [decide_eq_true_eq]

variable {keccak} {live : List SimulatedOrder}

theorem ordersOf_perm (h : live.Perm live') (hash : B256) :
    (ordersOf keccak hash live).Perm (ordersOf keccak hash live') :=
  (h.filterMap _).filter _

theorem mem_hashesOf {hash : B256} :
    hash ∈ hashesOf keccak live ↔ ordersOf keccak hash live ≠ [] := by
  unfold hashesOf ordersOf
  rw [mem_toFinset, mem_map, ne_eq, filter_eq_nil_iff]
  push Not
  simp only [decide_eq_true_eq]

theorem hashesOf_perm (h : live.Perm live') : hashesOf keccak live = hashesOf keccak live' := by
  ext hash
  rw [mem_hashesOf, mem_hashesOf, not_iff_not]
  have hperm : (ordersOf keccak hash live).Perm (ordersOf keccak hash live') := ordersOf_perm h hash
  exact ⟨fun hnil => (hnil ▸ hperm).symm.eq_nil, fun hnil => (hnil ▸ hperm).eq_nil⟩

theorem mergeable_ordersOf (h : (live.map SimulatedOrder.id).Nodup)
    (hash : B256) : Mergeable (ordersOf keccak hash live) where
  sbundle := by
    intro b hb
    obtain ⟨order, -, hbroken⟩ := mem_filterMap.mp (mem_filter.mp hb).1
    obtain ⟨rfl, hsbundle⟩ := breakDownBundle_eq_some hbroken
    exact hsbundle
  nodup := by
    refine pairwise_map.mpr (Pairwise.filter _ (pairwise_filterMap.mpr ?_))
    refine (pairwise_map.mp h).imp fun {a a'} hne b hb b' hb' => ?_
    rw [(breakDownBundle_eq_some hb).1, (breakDownBundle_eq_some hb').1]
    exact hne

end Expected

/-! ## The downstream orders as a multiset -/

section Downstream

variable {α : Type} {keccak : Bytes → B256} {view : SimulatedOrder → α}

/-- What is seen of the orders. -/
def viewed (view : SimulatedOrder → α) (orders : List SimulatedOrder) : Multiset (Option α) :=
  Multiset.map (fun o => some (view o)) orders

theorem viewed_cons (order : SimulatedOrder) (orders : List SimulatedOrder) :
    viewed view (order :: orders) = viewed view orders + {some (view order)} := by
  unfold viewed
  rw [← Multiset.cons_coe, Multiset.map_cons, ← Multiset.singleton_add, add_comm]

theorem viewed_perm {orders orders' : List SimulatedOrder} (h : orders.Perm orders') :
    viewed view orders = viewed view orders' := by
  unfold viewed
  rw [Multiset.coe_eq_coe.mpr h]

def expected (keccak : Bytes → B256) (view : SimulatedOrder → α) (live : List SimulatedOrder) :
    Multiset (Option α) :=
  viewed view (rejected keccak live) +
    (hashesOf keccak live).val.map fun hash => (mergeOf keccak (ordersOf keccak hash live)).map view

/-- What is expected for all other hashes. -/
def expectedBut (keccak : Bytes → B256) (view : SimulatedOrder → α) (hash : B256)
    (live : List SimulatedOrder) : Multiset (Option α) :=
  viewed view (rejected keccak live) +
    ((hashesOf keccak live).erase hash).val.map fun hash =>
      (mergeOf keccak (ordersOf keccak hash live)).map view

variable {live live' : List SimulatedOrder} {order : SimulatedOrder}

theorem expected_eq (h : (live.map SimulatedOrder.id).Nodup) (hash : B256) :
    expected keccak view live = expectedBut keccak view hash live +
      viewed view (mergeOf keccak (ordersOf keccak hash live)).toList := by
  unfold expected expectedBut
  rw [add_assoc]
  congr 1
  by_cases hmem : hash ∈ hashesOf keccak live
  · obtain ⟨merged, hmerged, -⟩ :=
      mergedFrom_mergeOf keccak (mergeable_ordersOf h hash) (mem_hashesOf.mp hmem)
    have hval : (hashesOf keccak live).val = hash ::ₘ ((hashesOf keccak live).erase hash).val := by
      exact (Multiset.cons_erase (Finset.mem_val.mpr hmem)).symm
    conv_lhs => rw [hval]
    rw [Multiset.map_cons, hmerged, ← Multiset.singleton_add, add_comm]
    rfl
  · have hnil : ordersOf keccak hash live = [] := not_not.mp fun hne => hmem (mem_hashesOf.mpr hne)
    rw [Finset.erase_eq_of_notMem hmem, hnil]
    exact (add_zero _).symm

variable {b : BrokenDownShareBundle} {β : Type} {rest : Multiset (Option (OrderId × α))}

/-- An order changes nothing for other hashes. -/
theorem expectedBut_cons
    (h : breakDownBundle keccak order = some b) (live : List SimulatedOrder) :
    expectedBut keccak view b.userBundleHash (order :: live) =
      expectedBut keccak view b.userBundleHash live := by
  unfold expectedBut
  rw [rejected, filter_cons_of_neg (by simp [h]), ← rejected]
  congr 1
  have hhashes : hashesOf keccak (order :: live) =
      insert b.userBundleHash (hashesOf keccak live) := by
    unfold hashesOf
    rw [filterMap_cons_some h, map_cons, toFinset_cons]
  rw [hhashes, Finset.erase_insert_eq_erase]
  refine Multiset.map_congr rfl fun hash hhash => ?_
  have hne : b.userBundleHash ≠ hash := (Finset.mem_erase.mp (Finset.mem_val.mp hhash)).1.symm
  rw [ordersOf_cons_some keccak h, if_neg hne]

theorem expected_cons_none (h : breakDownBundle keccak order = none)
    (live : List SimulatedOrder) :
    expected keccak view (order :: live) = expected keccak view live + {some (view order)} := by
  have hrejected : rejected keccak (order :: live) = order :: rejected keccak live := by
    unfold rejected
    rw [filter_cons_of_pos (by simp [h])]
  have hhashes : hashesOf keccak (order :: live) = hashesOf keccak live := by
    unfold hashesOf
    rw [filterMap_cons_none h]
  unfold expected
  rw [hrejected, hhashes, viewed_cons, add_right_comm]
  simp only [ordersOf_cons_none keccak h]

theorem expected_perm (h : (live.map SimulatedOrder.id).Nodup)
    (hperm : live.Perm live') : expected keccak view live = expected keccak view live' := by
  have hrejected : (rejected keccak live).Perm (rejected keccak live') := hperm.filter _
  unfold expected
  rw [viewed_perm hrejected, hashesOf_perm hperm]
  congr 1
  refine Multiset.map_congr rfl fun hash _ => ?_
  rw [mergeOf_perm keccak (mergeable_ordersOf h hash) (ordersOf_perm hperm hash)]

theorem map_viewed (f : α → β) (orders : List SimulatedOrder) :
    Multiset.map (Option.map f) (viewed view orders) = viewed (fun o => f (view o)) orders :=
  Multiset.map_map ..

theorem map_expected (f : α → β) (live : List SimulatedOrder) :
    Multiset.map (Option.map f) (expected keccak view live) =
      expected keccak (fun o => f (view o)) live := by
  unfold expected
  rw [Multiset.map_add, map_viewed, Multiset.map_map]
  congr 1
  exact Multiset.map_congr rfl fun hash _ => Option.map_map ..

/-- The id, and what is looked at. -/
def tag (view : SimulatedOrder → α) (order : SimulatedOrder) : OrderId × α := (order.id, view order)

/-- Orders with the same id look the same. -/
def SameView (view : SimulatedOrder → α) (orders : List SimulatedOrder) : Prop :=
  ∀ a ∈ orders, ∀ b ∈ orders, a.id = b.id → view a = view b

theorem map_eraseP (hsame : SameView view live)
    (h : viewed (tag view) live = rest + {some (tag view order)}) :
    viewed (tag view) (live.eraseP fun o => o.id = order.id) = rest := by
  have hmem : some (tag view order) ∈ viewed (tag view) live := by
    rw [h]
    exact Multiset.mem_add.mpr (Or.inr (Multiset.mem_singleton_self _))
  obtain ⟨found, hfound, htag⟩ := Multiset.mem_map.mp hmem
  have hid : found.id = order.id := congrArg Prod.fst (Option.some.inj htag)
  obtain ⟨erased, before, after, -, herased, hlive, herase⟩ :=
    exists_of_eraseP (p := fun o : SimulatedOrder => decide (o.id = order.id))
      (Multiset.mem_coe.mp hfound) (by simpa using hid)
  -- another order of the id may be the one that goes, but it looks the same
  have herasedId : erased.id = order.id := of_decide_eq_true herased
  have herasedMem : erased ∈ live := hlive ▸ mem_append_right _ mem_cons_self
  have hview : view erased = view found :=
    hsame erased herasedMem found (Multiset.mem_coe.mp hfound) (herasedId.trans hid.symm)
  have htagErased : some (tag view erased) = some (tag view order) := by
    rw [← htag]
    exact congrArg some (Prod.ext (herasedId.trans hid.symm) hview)
  have hperm : live.Perm (erased :: live.eraseP fun o => o.id = order.id) := by
    rw [herase, hlive]
    exact perm_middle
  rw [viewed_perm hperm, viewed_cons, htagErased] at h
  exact add_right_cancel h

theorem map_liveAfter_resend {sent : List SinkCall} (hsame : SameView view (inserted sent))
    {last next : Option SimulatedOrder}
    (h : viewed (tag view) (liveAfter sent) = rest + viewed (tag view) last.toList) :
    viewed (tag view) (liveAfter (sent ++ MultiBackrunManager.resend last next)) =
      rest + viewed (tag view) next.toList := by
  have hlive : SameView view (liveAfter sent) := fun a ha b hb =>
    hsame a (mem_inserted_of_mem_liveAfter ha) b (mem_inserted_of_mem_liveAfter hb)
  have hremoved : viewed (tag view) (((last.map SimulatedOrder.id).toList.map
      SinkCall.removeOrder).foldl liveStep (liveAfter sent)) = rest := by
    cases last with
    | none => exact h.trans (add_zero _)
    | some last => exact map_eraseP hlive h
  unfold MultiBackrunManager.resend
  rw [← append_assoc, liveAfter_append, liveAfter_append]
  cases next with
  | none => exact hremoved.trans (add_zero _).symm
  | some next =>
    change viewed (tag view) (next :: _) = _
    rw [viewed_cons, hremoved]
    rfl

end Downstream

end BlockOrders.Merging
