/-
  The bundle that a manager merges from its orders.

  What is sent depends only on which orders the manager holds: they are sorted by their
  keys, and the last merged bundle is taken back before the next one is sent.
-/
import Rbuilder.BlockOrders.PlainMerger

namespace BlockOrders.Merging

open SparseMpt
open Building (OrderId ShareBundleInner ShareBundleBody)
open SortKey List

/-! ## Merged bundles -/

/-- `item` is the bundle of the order, which may be skipped and names the order. -/
def IsItem (b : BrokenDownShareBundle) (item : ShareBundleBody) : Prop :=
  ∃ sbundle body refund refundConfig canSkip originalOrderId,
    b.simOrder.order = .shareBundle sbundle ∧
    sbundle.innerBundle = .mk body refund refundConfig canSkip originalOrderId ∧
    item = .bundle (.mk body refund refundConfig true (some b.simOrder.id))

/-- A bundle merged from the orders: the highest kickback first, and orders of the same
    kickback by their ids. The rest is taken from the first order. -/
def MergedFrom (keccak : Bytes → B256) (orders : List BrokenDownShareBundle)
    (merged : SimulatedOrder) : Prop :=
  ∃ (sorted : List BrokenDownShareBundle) (items : List ShareBundleBody)
      (first : BrokenDownShareBundle) (sbundle : ShareBundle),
    sorted.Perm orders ∧
    sorted.Pairwise (fun a b => b.userKickback < a.userKickback ∨
      a.userKickback = b.userKickback ∧ a.simOrder.id < b.simOrder.id) ∧
    List.Forall₂ IsItem sorted items ∧
    sorted.head? = some first ∧ first.simOrder.order = .shareBundle sbundle ∧
    merged.order = .shareBundle (.new keccak sbundle.block sbundle.maxBlock
      (.mk items [] [] false none) sbundle.signer none (sorted.map fun b => b.simOrder.order)) ∧
    merged.simValue = first.simOrder.simValue

/-- The values of `sorted_orders`, when these are the orders. -/
def sortOrders (orders : List BrokenDownShareBundle) : List BrokenDownShareBundle :=
  orders.insertionSort fun a b => SortKey.new a ≤ SortKey.new b

def mergeOf (keccak : Bytes → B256) (orders : List BrokenDownShareBundle) : Option SimulatedOrder :=
  mergeValues keccak (sortOrders orders)

/-- Broken down share bundles with different ids. -/
structure Mergeable (orders : List BrokenDownShareBundle) : Prop where
  sbundle : ∀ b ∈ orders, ∃ sbundle, b.simOrder.order = .shareBundle sbundle
  nodup : (orders.map fun b => b.simOrder.id).Nodup

variable {orders orders' rest : List BrokenDownShareBundle} {b first : BrokenDownShareBundle}
  {sbundle : ShareBundle}

theorem Mergeable.perm (h : Mergeable orders)
    (hperm : orders.Perm orders') : Mergeable orders' where
  sbundle b hb := h.sbundle b (hperm.mem_iff.mpr hb)
  nodup := (hperm.map _).nodup_iff.mp h.nodup

theorem Mergeable.tail (h : Mergeable (b :: orders)) : Mergeable orders where
  sbundle b' hb' := h.sbundle b' (mem_cons_of_mem _ hb')
  nodup := (nodup_cons.mp h.nodup).2

theorem Mergeable.head_ne
    (h : Mergeable (b :: orders)) : ∀ b' ∈ orders, b'.simOrder.id ≠ b.simOrder.id := by
  intro b' hb' heq
  exact (nodup_cons.mp h.nodup).1 (mem_map.mpr ⟨b', hb', heq⟩)

theorem perm_sortOrders (orders : List BrokenDownShareBundle) : (sortOrders orders).Perm orders :=
  perm_insertionSort _ orders

theorem Mergeable.sorted (h : Mergeable orders) :
    (sortOrders orders).Pairwise fun a b => new a < new b := by
  have hle : (sortOrders orders).Pairwise fun a b => new a ≤ new b :=
    pairwise_insertionSort _ orders
  have hne : (sortOrders orders).Pairwise fun a b => a.simOrder.id ≠ b.simOrder.id :=
    pairwise_map.mp (h.perm (perm_sortOrders orders).symm).nodup
  refine (hle.and hne).imp fun {a b} hab => lt_of_le_of_ne hab.1 fun heq => hab.2 ?_
  exact congrArg orderId heq

variable (keccak : Bytes → B256)

theorem mergeOf_perm
    (h : Mergeable orders) (hperm : orders.Perm orders') :
    mergeOf keccak orders = mergeOf keccak orders' := by
  unfold mergeOf
  have hsorted : (sortOrders orders).Perm (sortOrders orders') :=
    (perm_sortOrders orders).trans (hperm.trans (perm_sortOrders orders').symm)
  rw [Perm.eq_of_pairwise (fun a b _ _ hab hba => absurd hab (lt_asymm hba)) h.sorted
    (h.perm hperm).sorted hsorted]

theorem sbundle_of_order
    (h : b.simOrder.order = .shareBundle sbundle) : b.sbundle = some sbundle := by
  unfold BrokenDownShareBundle.sbundle
  rw [h]

theorem isItem_skippable (h : b.simOrder.order = .shareBundle sbundle) :
    IsItem b (skippable sbundle.innerBundle b.simOrder.id) := by
  rcases hinner : sbundle.innerBundle with ⟨body, refund, refundConfig, canSkip, originalOrderId⟩
  exact ⟨sbundle, body, refund, refundConfig, canSkip, originalOrderId, h, hinner, rfl⟩

theorem forall₂_mergedBody (h : ∀ b ∈ orders, ∃ sbundle, b.simOrder.order = .shareBundle sbundle) :
    Forall₂ IsItem orders (mergedBody orders) ∧
      originalOrders orders = orders.map fun b => b.simOrder.order := by
  induction orders with
  | nil => exact ⟨Forall₂.nil, rfl⟩
  | cons b orders ih =>
    obtain ⟨sbundle, hsbundle⟩ := h b mem_cons_self
    obtain ⟨hitems, horiginal⟩ := ih fun b' hb' => h b' (mem_cons_of_mem _ hb')
    constructor
    · have hbody : mergedBody (b :: orders) =
          skippable sbundle.innerBundle b.simOrder.id :: mergedBody orders := by
        unfold mergedBody
        rw [filterMap_cons_some (by rw [sbundle_of_order hsbundle]; rfl)]
      rw [hbody]
      exact Forall₂.cons (isItem_skippable hsbundle) hitems
    · unfold originalOrders at horiginal ⊢
      rw [filterMap_cons_some (by rw [sbundle_of_order hsbundle]; rfl), horiginal]
      rfl

theorem mergeValues_cons
    (h : first.simOrder.order = .shareBundle sbundle) :
    mergeValues keccak (first :: rest) = some
      ⟨.shareBundle (.new keccak sbundle.block sbundle.maxBlock
          (.mk (mergedBody (first :: rest)) [] [] false none) sbundle.signer none
          (originalOrders (first :: rest))),
        first.simOrder.simValue⟩ := by
  simp only [mergeValues, head?_cons, sbundle_of_order h]

/-- Orders that can be merged have a merged bundle, if there are any. -/
theorem mergedFrom_mergeOf (h : Mergeable orders) (hne : orders ≠ []) :
    ∃ merged, mergeOf keccak orders = some merged ∧ MergedFrom keccak orders merged := by
  have hperm := perm_sortOrders orders
  have hsbundles := (h.perm hperm.symm).sbundle
  obtain ⟨hitems, horiginal⟩ := forall₂_mergedBody hsbundles
  have hsorted : (sortOrders orders).Pairwise fun a b => b.userKickback < a.userKickback ∨
      a.userKickback = b.userKickback ∧ a.simOrder.id < b.simOrder.id :=
    h.sorted.imp fun hlt => (lt_iff ..).mp hlt
  unfold mergeOf
  cases hsort : sortOrders orders with
  | nil => exact absurd (hsort ▸ hperm).symm.eq_nil hne
  | cons first rest =>
    rw [hsort] at hperm hsbundles hitems horiginal hsorted
    obtain ⟨sbundle, hsbundle⟩ := hsbundles first mem_cons_self
    refine ⟨_, mergeValues_cons keccak hsbundle, first :: rest, mergedBody (first :: rest), first,
      sbundle, hperm, hsorted, hitems, rfl, hsbundle, ?_, rfl⟩
    rw [horiginal]

/-! ## The orders of a manager -/

/-- The manager holds the orders, and their merged bundle is the last one it sent. -/
structure MultiBackrunManager.Holds (keccak : Bytes → B256) (manager : MultiBackrunManager)
    (orders : List BrokenDownShareBundle) : Prop where
  entries : manager.sortedOrders.entries.Perm (orders.map fun b => (SortKey.new b, b))
  kickbacks : ∀ id kickback, manager.orderKickbacks.lookup id = some kickback ↔
    ∃ b ∈ orders, b.simOrder.id = id ∧ b.userKickback = kickback
  last : manager.lastMultiOrderId = (mergeOf keccak orders).map SimulatedOrder.id

namespace MultiBackrunManager

variable {keccak : Bytes → B256} {manager : MultiBackrunManager}
  {orders : List BrokenDownShareBundle}

theorem holds_new (hash : B256) (sink : Nat) : (new hash sink).Holds keccak [] where
  entries := Perm.refl _
  kickbacks id kickback := by simp [new, AList.lookup_empty]
  last := rfl

theorem Holds.perm {orders' : List BrokenDownShareBundle} (h : manager.Holds keccak orders)
    (hmergeable : Mergeable orders) (hperm : orders.Perm orders') :
    manager.Holds keccak orders' where
  entries := h.entries.trans (hperm.map _)
  kickbacks id kickback := by
    rw [h.kickbacks]
    exact exists_congr fun b => and_congr_left' hperm.mem_iff
  last := h.last.trans (congrArg _ (mergeOf_perm keccak hmergeable hperm))

section

variable (hmergeable : Mergeable orders)
  (hentries : manager.sortedOrders.entries.Perm (orders.map fun b => (SortKey.new b, b)))
include hmergeable hentries

/-- The orders are merged in the order of the keys. -/
theorem values_eq : manager.sortedOrders.values = sortOrders orders := by
  have hperm := (perm_sortOrders orders).symm.map fun b => (SortKey.new b, b)
  have hsorted : ((sortOrders orders).map fun b => (SortKey.new b, b)).Pairwise
      fun a b => a.1 < b.1 := pairwise_map.mpr hmergeable.sorted
  unfold SortedMap.values
  rw [SortedMap.entries_eq_of_perm (hentries.trans hperm) hsorted, map_map]
  exact map_id _

/-- The last bundle is taken back, and the new one is sent. -/
theorem regenerateMultiOrder_eq :
    manager.regenerateMultiOrder keccak =
      ({ manager with lastMultiOrderId := (mergeOf keccak orders).map SimulatedOrder.id },
        manager.lastMultiOrderId.toList.map SinkCall.removeOrder ++
          (mergeOf keccak orders).toList.map SinkCall.insertOrder) := by
  have hmerge : manager.mergeOrders keccak = mergeOf keccak orders := by
    unfold mergeOrders mergeOf
    rw [values_eq hmergeable hentries]
  unfold regenerateMultiOrder
  by_cases hempty : orders = []
  · subst hempty
    have hnil : manager.sortedOrders.entries.isEmpty := by
      rw [hentries.eq_nil]
      rfl
    rw [if_pos hnil, show mergeOf keccak [] = none from rfl]
    simp
  have hne : ¬manager.sortedOrders.entries.isEmpty := by
    intro hnil
    rw [isEmpty_iff.mp hnil] at hentries
    exact hempty (map_eq_nil_iff.mp hentries.symm.eq_nil)
  obtain ⟨merged, hmerged, -⟩ := mergedFrom_mergeOf keccak hmergeable hempty
  rw [if_neg hne, hmerge, hmerged]
  rfl

end

/-- What `regenerateMultiOrder` sends when one merged bundle takes the place of another. -/
def resend (last next : Option SimulatedOrder) : List SinkCall :=
  (last.map SimulatedOrder.id).toList.map SinkCall.removeOrder ++ next.toList.map SinkCall.insertOrder

/-- The kickbacks and the sorted orders are those of the orders; then the manager regenerates. -/
theorem holds_regenerateMultiOrder (hmergeable : Mergeable orders)
    (hentries : manager.sortedOrders.entries.Perm (orders.map fun b => (SortKey.new b, b)))
    (hkickbacks : ∀ id kickback, manager.orderKickbacks.lookup id = some kickback ↔
      ∃ b ∈ orders, b.simOrder.id = id ∧ b.userKickback = kickback)
    {last : Option SimulatedOrder}
    (hlast : manager.lastMultiOrderId = last.map SimulatedOrder.id) :
    (manager.regenerateMultiOrder keccak).1.Holds keccak orders ∧
      (manager.regenerateMultiOrder keccak).2 = resend last (mergeOf keccak orders) := by
  rw [regenerateMultiOrder_eq hmergeable hentries]
  refine ⟨⟨hentries, hkickbacks, rfl⟩, ?_⟩
  unfold resend
  rw [hlast]

theorem Holds.insertOrder (h : manager.Holds keccak orders)
    (hmergeable : Mergeable (b :: orders)) :
    (manager.insertOrder keccak b).1.Holds keccak (b :: orders) ∧
      (manager.insertOrder keccak b).2 =
        resend (mergeOf keccak orders) (mergeOf keccak (b :: orders)) := by
  have hnew := hmergeable.head_ne
  have hid : b.simOrder.id ∉ manager.orderKickbacks := by
    intro hmem
    obtain ⟨kickback, hlookup⟩ := AList.exists_lookup hmem
    obtain ⟨b', hb', heq, -⟩ := (h.kickbacks ..).mp hlookup
    exact hnew b' hb' heq
  unfold MultiBackrunManager.insertOrder
  rw [if_neg hid]
  apply holds_regenerateMultiOrder hmergeable
  · refine (SortedMap.perm_insert b fun entry hentry hkey => ?_).trans (h.entries.cons _)
    obtain ⟨b', hb', rfl⟩ := mem_map.mp (h.entries.mem_iff.mp hentry)
    exact hnew b' hb' (congrArg orderId hkey)
  · intro id kickback
    simp only [mem_cons, exists_eq_or_imp]
    by_cases heq : id = b.simOrder.id
    · subst heq
      have hnone : ¬∃ b' ∈ orders, b'.simOrder.id = b.simOrder.id ∧ b'.userKickback = kickback :=
        fun ⟨b', hb', hid', _⟩ => hnew b' hb' hid'
      rw [AList.lookup_insert, Option.some.injEq, or_iff_left hnone]
      exact (and_iff_right rfl).symm
    · rw [AList.lookup_insert_ne heq, h.kickbacks]
      simp [Ne.symm heq]
  · exact h.last

theorem Holds.removeOrder (h : manager.Holds keccak (b :: orders))
    (hmergeable : Mergeable (b :: orders)) :
    (manager.removeOrder keccak b.simOrder.id).2.1.Holds keccak orders ∧
      (manager.removeOrder keccak b.simOrder.id).2.2 =
        resend (mergeOf keccak (b :: orders)) (mergeOf keccak orders) := by
  have hlookup : manager.orderKickbacks.lookup b.simOrder.id = some b.userKickback :=
    (h.kickbacks ..).mpr ⟨b, mem_cons_self, rfl, rfl⟩
  have hmem : (SortKey.new b, b) ∈ manager.sortedOrders.entries :=
    h.entries.mem_iff.mpr mem_cons_self
  obtain ⟨hfound, hperm⟩ := SortedMap.remove_of_mem hmem
  rcases hremove : manager.sortedOrders.remove (SortKey.new b) with ⟨order, sortedOrders⟩
  rw [hremove] at hfound hperm
  cases hfound
  rw [removeOrder_of_some keccak hlookup hremove]
  apply holds_regenerateMultiOrder hmergeable.tail
  · exact Perm.cons_inv (hperm.symm.trans h.entries)
  · intro id kickback
    by_cases heq : id = b.simOrder.id
    · subst heq
      have hnone : ¬∃ b' ∈ orders, b'.simOrder.id = b.simOrder.id ∧ b'.userKickback = kickback :=
        fun ⟨b', hb', hid', _⟩ => hmergeable.head_ne b' hb' hid'
      exact iff_of_false (by simp) hnone
    · rw [AList.lookup_erase_ne heq, h.kickbacks]
      simp [Ne.symm heq]
  · exact h.last

end MultiBackrunManager

end BlockOrders.Merging
