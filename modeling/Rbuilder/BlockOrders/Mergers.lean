/-
  Mergers of both kinds, and the states that they can get into.

  A call goes to one of the mergers of the signers (a `slot`), or to none. In every state
  that can be reached each merger owns its managers, and the ids in them lead somewhere.
-/
import Rbuilder.BlockOrders.MergerCopy

namespace BlockOrders.Merging

open SparseMpt
open Building (OrderId)
open Function MultiShareBundleMerger Option AList

inductive Merger where
  | single (merger : ShareBundleMerger)
  | multi (merger : MultiShareBundleMerger)

namespace Merger

def call (env : Env) (state : World × Merger) (c : SinkCall) : World × Merger :=
  match state.2 with
  | single m =>
    ((ShareBundleMerger.call env (state.1, m) c).1, single (ShareBundleMerger.call env (state.1, m) c).2)
  | multi m =>
    match c with
    | .insertOrder order =>
      ((m.insertOrder env state.1 order).1, multi (m.insertOrder env state.1 order).2)
    | .removeOrder id => ((m.removeOrder env state.1 id).2, multi m)

def cloneWithSink (hashOrder : HashOrder) (w : World) (m : Merger) (orderSink : Nat) :
    World × Merger :=
  match m with
  | single m =>
    ((m.cloneWithSink hashOrder w orderSink).1, single (m.cloneWithSink hashOrder w orderSink).2)
  | multi m =>
    ((m.cloneWithSink hashOrder w orderSink).1, multi (m.cloneWithSink hashOrder w orderSink).2)

def orderSink : Merger → Nat
  | single m => m.orderSink
  | multi m => m.fallbackMerger.orderSink

/-! ## Where a call goes -/

def parts : Merger → Parts
  | single m => only m
  | multi m => Function.update (signerParts m.signersMergers.entries) none (some m.fallbackMerger)

/-- The slot of the orders of a signer. -/
def slotOf : Merger → Option Address → Option Address
  | single _, _ => none
  | multi _, none => none
  | multi m, some signer => if signer ∈ m.signersMergers then some signer else none

/-- The slot from which an order is removed. -/
def slotFor : Merger → OrderId → Option (Option Address)
  | single _, _ => some none
  | multi m, id => (m.insertedOrdersSigners.lookup id).map (multi m).slotOf

section

variable (m : MultiShareBundleMerger)
include m

theorem parts_some (signer : Address) :
    (multi m).parts (some signer) = m.signersMergers.lookup signer := by
  have hne : some signer ≠ none := some_ne_none signer
  exact update_of_ne hne (some m.fallbackMerger) (signerParts m.signersMergers.entries)

theorem parts_slotOf (signer : Option Address) :
    (multi m).parts ((multi m).slotOf signer) = some (m.getMerger signer) := by
  unfold parts slotOf getMerger
  cases signer with
  | none => exact update_self ..
  | some signer =>
    by_cases hmem : signer ∈ m.signersMergers
    · obtain ⟨merger, hlookup⟩ := exists_lookup hmem
      simp only [if_pos hmem, hlookup, getD_some]
      exact (parts_some m signer).trans hlookup
    · simp only [if_neg hmem, lookup_eq_none.mpr hmem, getD_none]
      exact update_self ..

section

variable (signer : Option Address) (merger : ShareBundleMerger)

theorem parts_setMerger :
    (multi (m.setMerger signer merger)).parts =
      update (multi m).parts ((multi m).slotOf signer) (some merger) := by
  unfold parts slotOf setMerger
  cases signer with
  | none => exact (update_idem ..).symm
  | some signer =>
    by_cases hmem : signer ∈ m.signersMergers
    · simp only [if_pos hmem]
      rw [signerParts_insert, update_comm (by simp)]
    · simp only [if_neg hmem]
      exact (update_idem ..).symm

theorem slotOf_setMerger : (multi (m.setMerger signer merger)).slotOf = (multi m).slotOf := by
  funext signer'
  cases signer' with
  | none => rfl
  | some signer' =>
    cases signer with
    | none => rfl
    | some signer =>
      unfold setMerger
      by_cases hmem : signer ∈ m.signersMergers
      · have hiff : signer' ∈ m.signersMergers.insert signer merger ↔ signer' ∈ m.signersMergers := by
          rw [mem_insert]
          exact or_iff_right_of_imp fun heq => heq ▸ hmem
        simp only [slotOf, if_pos hmem, hiff]
      · simp only [slotOf, if_neg hmem]

theorem insertedOrdersSigners_setMerger :
    (m.setMerger signer merger).insertedOrdersSigners = m.insertedOrdersSigners := by
  cases signer with
  | none => rfl
  | some signer =>
    unfold setMerger
    by_cases hmem : signer ∈ m.signersMergers
    · simp only [if_pos hmem]
    · simp only [if_neg hmem]

end

end

variable {w : World} {m : Merger}

theorem call_insertOrder (env : Env) (w : World) (m : Merger) (order : SimulatedOrder) :
    ∃ part, m.parts (m.slotOf order.order.signer) = some part ∧
      (call env (w, m) (.insertOrder order)).1 = (part.insertOrder env w order).1 ∧
      (call env (w, m) (.insertOrder order)).2.parts =
        update m.parts (m.slotOf order.order.signer) (some (part.insertOrder env w order).2) ∧
      (call env (w, m) (.insertOrder order)).2.slotOf = m.slotOf ∧
      (call env (w, m) (.insertOrder order)).2.slotFor =
        update m.slotFor order.id (some (m.slotOf order.order.signer)) := by
  cases m with
  | single m =>
    refine ⟨m, only_eq_some_iff.mpr ⟨rfl, rfl⟩, rfl, (update_only m _).symm, rfl, ?_⟩
    exact (update_eq_self (f := fun _ : OrderId => some (none : Option Address)) order.id).symm
  | multi m =>
    let inserted := m.insertedOrdersSigners.insert order.id order.order.signer
    let noted := { m with insertedOrdersSigners := inserted }
    let merger := ((m.getMerger order.order.signer).insertOrder env w order).2
    have hnoted : (multi noted).slotOf = (multi m).slotOf := by
      funext signer
      cases signer with
      | none | some signer => rfl
    have hcall : (call env (w, multi m) (.insertOrder order)).2 =
        multi (noted.setMerger order.order.signer merger) := rfl
    rw [hcall]
    refine ⟨m.getMerger order.order.signer, parts_slotOf m _, rfl, ?_, ?_, ?_⟩
    · rw [parts_setMerger, hnoted]
      rfl
    · rw [slotOf_setMerger, hnoted]
    funext id
    change (lookup id (noted.setMerger order.order.signer merger).insertedOrdersSigners).map
      (multi (noted.setMerger order.order.signer merger)).slotOf = _
    rw [insertedOrdersSigners_setMerger, slotOf_setMerger, hnoted]
    rw [lookup_insert_eq_ite, update_apply]
    split_ifs <;> rfl

theorem call_removeOrder_none (env : Env) (w : World) {id : OrderId} (h : m.slotFor id = none) :
    call env (w, m) (.removeOrder id) = (w, m) := by
  cases m with
  | single m => cases h
  | multi m =>
    have hlookup : m.insertedOrdersSigners.lookup id = none := map_eq_none_iff.mp h
    simp only [call, removeOrder, hlookup]

theorem call_removeOrder_some (env : Env) (w : World) {id : OrderId} {k : Option Address}
    (h : m.slotFor id = some k) :
    ∃ part, m.parts k = some part ∧
      call env (w, m) (.removeOrder id) = ((part.removeOrder env w id).2, m) := by
  cases m with
  | single m =>
    cases h
    exact ⟨m, only_eq_some_iff.mpr ⟨rfl, rfl⟩, rfl⟩
  | multi m =>
    obtain ⟨signer, hlookup, rfl⟩ := map_eq_some_iff.mp h
    refine ⟨m.getMerger signer, parts_slotOf m signer, ?_⟩
    simp only [call, removeOrder, hlookup]

/-! ## Clones -/

theorem signerParts_perm {signers signers' : List (Sigma fun _ : Address => ShareBundleMerger)}
    (hkeys : signers.NodupKeys) (hperm : signers.Perm signers') :
    signerParts signers = signerParts signers' := by
  funext k
  cases k with
  | none => rfl
  | some signer => exact List.perm_dlookup signer hkeys hperm

theorem slotOf_eq_of_parts {m m' : MultiShareBundleMerger}
    (h : ∀ k, (signerParts m.signersMergers.entries k).isSome ↔
      (signerParts m'.signersMergers.entries k).isSome) :
    (multi m).slotOf = (multi m').slotOf := by
  funext signer
  cases signer with
  | none => rfl
  | some signer =>
    have hmem : signer ∈ m.signersMergers ↔ signer ∈ m'.signersMergers :=
      lookup_isSome.symm.trans ((h (some signer)).trans lookup_isSome)
    simp only [slotOf, hmem]

theorem cloneOf_cloneWithSink (hashOrder : HashOrder)
    (hvalid : ∀ {k part}, m.parts k = some part → part.Valid w) (sink : Nat) :
    CloneOf w m.parts sink (m.cloneWithSink hashOrder w sink).1
      (m.cloneWithSink hashOrder w sink).2.parts ∧
      (m.cloneWithSink hashOrder w sink).2.slotOf = m.slotOf ∧
      (m.cloneWithSink hashOrder w sink).2.slotFor = m.slotFor := by
  cases m with
  | single m =>
    have hm : m.Valid w := hvalid (only_eq_some_iff.mpr ⟨rfl, rfl⟩)
    refine ⟨?_, rfl, rfl⟩
    exact (cloneOf_nil w sink).add hashOrder none hm fun hk => by cases hk
  | multi m =>
    have hperm := hashOrder.perm m.signersMergers.entries
    have hkeys : (hashOrder.order m.signersMergers.entries).NodupKeys :=
      (List.perm_nodupKeys hperm).mpr m.signersMergers.nodupKeys
    have hparts : ∀ {signer merger}, m.signersMergers.lookup signer = some merger → merger.Valid w :=
      fun hlookup => hvalid ((parts_some m _).trans hlookup)
    have hsigners := cloneOf_signers hashOrder sink hkeys fun entry hentry =>
      hparts (mem_lookup_iff.mpr (hperm.mem_iff.mp hentry))
    rw [signerParts_perm hkeys hperm] at hsigners
    have hslots : (multi (m.cloneWithSink hashOrder w sink).2).slotOf = (multi m).slotOf := by
      refine slotOf_eq_of_parts fun k => ?_
      simp only [isSome_iff_exists]
      constructor
      · rintro ⟨c, hc⟩
        obtain ⟨merger, hmerger, -⟩ := hsigners.part hc
        exact ⟨merger, hmerger⟩
      · rintro ⟨merger, hmerger⟩
        exact hsigners.present hmerger
    refine ⟨?_, hslots, ?_⟩
    · refine hsigners.add hashOrder none (hvalid (update_self ..)) fun {k part} hk => ?_
      cases k with
      | none => cases hk
      | some signer => exact hparts hk
    · funext id
      exact congrArg (fun slotOf => (m.insertedOrdersSigners.lookup id).map slotOf) hslots

end Merger

end BlockOrders.Merging
