/-
  Share bundles that can be merged, from `block_orders/share_bundle_merger.rs` and
  `rbuilder-primitives/src/lib.rs`.

  A share bundle that only has transactions of a user, or a bundle of the user followed by
  backruns, is broken down into what the merger needs: the hash of the user's bundle and
  the kickback to the user. Sums of kickbacks wrap, as `U256` does.
-/
import Rbuilder.OrderInput.Replacement
import Rbuilder.SortedMap
import Mathlib.Data.Prod.Lex
import Mathlib.Data.List.Lex

namespace Building.OrderId

def fixedBytes : OrderId → SparseMpt.B256
  | tx hash | shareBundle hash => hash
  | bundle uuid => uuid ++ (Vector.replicate 16 0 : Vector UInt8 16)

def rank : OrderId → Nat
  | tx _ => 1
  | bundle _ => 2
  | shareBundle _ => 3

/-- What ids are compared by. -/
def comparedBy (id : OrderId) : List Nat ×ₗ Nat :=
  toLex (id.fixedBytes.toList.map UInt8.toNat, id.rank)

theorem fixedBytes_of_comparedBy {a b : OrderId} (h : a.comparedBy = b.comparedBy) :
    a.fixedBytes = b.fixedBytes := by
  have hbytes := congrArg (fun k => (ofLex k).1) h
  refine Vector.toList_inj.mp (List.map_injective_iff.mpr ?_ hbytes)
  exact fun x y hxy => UInt8.toNat_inj.mp hxy

/-- The bytes of a bundle's id are in the first half, so nothing is lost by the filling. -/
theorem comparedBy_injective : Function.Injective comparedBy := by
  intro a b h
  have hbytes := fixedBytes_of_comparedBy h
  have hrank : a.rank = b.rank := congrArg (fun k => (ofLex k).2) h
  -- ids of two kinds differ in their rank
  cases a <;> cases b <;> try cases hrank
  · exact congrArg tx hbytes
  · exact congrArg bundle (Vector.append_inj_left hbytes)
  · exact congrArg shareBundle hbytes

instance : LinearOrder OrderId := LinearOrder.lift' comparedBy comparedBy_injective

end Building.OrderId

namespace BlockOrders.Merging

open SparseMpt
open Building (OrderId ShareBundleInner ShareBundleBody SimValue)
open OrderInput (BundleReplacementData ShareBundleReplacementData)

/-! ## Orders -/

mutual

inductive Order where
  | bundle (uuid : Vector UInt8 16) (replacementData : Option BundleReplacementData)
      (signer : Option Address) (bundle : Building.Bundle)
  | tx (tx : Building.Tx)
  | shareBundle (bundle : ShareBundle)

/-- `originalOrders` are the orders that a merged bundle was made of. -/
inductive ShareBundle where
  | mk (hash : B256) (block maxBlock : UInt64) (innerBundle : ShareBundleInner)
      (signer : Option Address) (replacementData : Option ShareBundleReplacementData)
      (originalOrders : List Order)

end

namespace ShareBundle

def hash : ShareBundle → B256
  | mk hash _ _ _ _ _ _ => hash

def block : ShareBundle → UInt64
  | mk _ block _ _ _ _ _ => block

def maxBlock : ShareBundle → UInt64
  | mk _ _ maxBlock _ _ _ _ => maxBlock

def innerBundle : ShareBundle → ShareBundleInner
  | mk _ _ _ innerBundle _ _ _ => innerBundle

def signer : ShareBundle → Option Address
  | mk _ _ _ _ signer _ _ => signer

end ShareBundle

def Order.id : Order → OrderId
  | bundle uuid _ _ _ => .bundle uuid
  | tx t => .tx t.hash
  | shareBundle b => .shareBundle b.hash

def Order.signer : Order → Option Address
  | bundle _ _ signer _ => signer
  | tx _ => none
  | shareBundle b => b.signer

structure SimulatedOrder where
  order : Order
  simValue : SimValue

def SimulatedOrder.id (o : SimulatedOrder) : OrderId := o.order.id

/-! ## Hashes -/

/-- The hash of one item is the hash of the bundle; several hashes are hashed again. -/
def joinHashes (keccak : Bytes → B256) : List B256 → B256
  | [hash] => hash
  | hashes => keccak (hashes.flatMap Vector.toList)

mutual

/-- `ShareBundleInner::hash_slow`. -/
def hashSlow (keccak : Bytes → B256) : ShareBundleInner → B256
  | .mk body _ _ _ _ => joinHashes keccak (bodyHashes keccak body)

def bodyHashes (keccak : Bytes → B256) : List ShareBundleBody → List B256
  | [] => []
  | .tx sbundleTx :: body => sbundleTx.tx.hash :: bodyHashes keccak body
  | .bundle inner :: body => hashSlow keccak inner :: bodyHashes keccak body

end

def ShareBundle.new (keccak : Bytes → B256) (block maxBlock : UInt64)
    (innerBundle : ShareBundleInner) (signer : Option Address)
    (replacementData : Option ShareBundleReplacementData) (originalOrders : List Order) :
    ShareBundle :=
  .mk (hashSlow keccak innerBundle) block maxBlock innerBundle signer replacementData originalOrders

/-! ## Bundles broken down -/

structure BrokenDownShareBundle where
  simOrder : SimulatedOrder
  userBundleHash : B256
  userKickback : Nat

/-- There is one for all that `breakDownBundle` makes. -/
def BrokenDownShareBundle.sbundle (b : BrokenDownShareBundle) : Option ShareBundle :=
  match b.simOrder.order with
  | .shareBundle sbundle => some sbundle
  | _ => none

structure SortKey where
  orderId : OrderId
  userKickback : Nat

namespace SortKey

def new (order : BrokenDownShareBundle) : SortKey := ⟨order.simOrder.id, order.userKickback⟩

/-- Higher kickbacks first. -/
def comparedBy (key : SortKey) : Natᵒᵈ ×ₗ OrderId :=
  toLex (OrderDual.toDual key.userKickback, key.orderId)

theorem comparedBy_injective : Function.Injective comparedBy := by
  intro a b h
  have hid : a.orderId = b.orderId := congrArg (fun k => (ofLex k).2) h
  have hkickback : a.userKickback = b.userKickback := congrArg (fun k => (ofLex k).1) h
  exact congr (congrArg mk hid) hkickback

instance : LinearOrder SortKey := LinearOrder.lift' comparedBy comparedBy_injective

theorem lt_iff (a b : SortKey) :
    a < b ↔ b.userKickback < a.userKickback ∨
      a.userKickback = b.userKickback ∧ a.orderId < b.orderId := by
  change comparedBy a < comparedBy b ↔ _
  rw [Prod.Lex.lt_iff]
  rfl

end SortKey

/-- Only transactions, and no refund. -/
def breakDownUserTxBundle (sbundle : ShareBundle) (simOrder : SimulatedOrder) :
    Option BrokenDownShareBundle :=
  if sbundle.innerBundle.body.any (fun | .bundle _ => true | .tx _ => false) then none
  else if !sbundle.innerBundle.refund.isEmpty then none
  else some ⟨simOrder, sbundle.hash, 0⟩

def userBundleIndex : Nat := 0

def checkAndGetUserBundleHashFromBackrun (keccak : Bytes → B256) (sbundle : ShareBundle) :
    Option B256 :=
  match sbundle.innerBundle.body[userBundleIndex]? with
  | some (.bundle inner) => if !inner.refund.isEmpty then none else some (hashSlow keccak inner)
  | some (.tx _) => none
  | none => none

/-- One refund, for the bundle of the user. -/
def checkRefundsFromBackrunOk (sbundle : ShareBundle) : Bool :=
  match sbundle.innerBundle.refund with
  | [refund] => refund.bodyIdx == userBundleIndex
  | _ => false

def breakDownBackrunBundle (keccak : Bytes → B256) (sbundle : ShareBundle)
    (simOrder : SimulatedOrder) : Option BrokenDownShareBundle :=
  match checkAndGetUserBundleHashFromBackrun keccak sbundle with
  | none => none
  | some userBundleHash =>
    if !checkRefundsFromBackrunOk sbundle then none
    else
      let userKickback := simOrder.simValue.paidKickbacks.foldl
        (fun userKickback kickback => (userKickback + kickback.2) % 2 ^ 256) 0
      some ⟨simOrder, userBundleHash, userKickback⟩

def breakDownBundle (keccak : Bytes → B256) (order : SimulatedOrder) :
    Option BrokenDownShareBundle :=
  match order.order with
  | .shareBundle sbundle =>
    match sbundle.innerBundle.body.head? with
    | none => none
    | some (.tx _) => breakDownUserTxBundle sbundle order
    | some (.bundle _) => breakDownBackrunBundle keccak sbundle order
  | _ => none

theorem breakDownBundle_eq_some {keccak : Bytes → B256} {order : SimulatedOrder}
    {b : BrokenDownShareBundle} (h : breakDownBundle keccak order = some b) :
    b.simOrder = order ∧ ∃ sbundle, order.order = .shareBundle sbundle := by
  unfold breakDownBundle at h
  split at h
  · rename_i sbundle hsbundle
    refine ⟨?_, sbundle, hsbundle⟩
    split at h
    · cases h
    · unfold breakDownUserTxBundle at h
      split_ifs at h
      cases h
      rfl
    unfold breakDownBackrunBundle at h
    split at h
    · cases h
    · split_ifs at h
      cases h
      rfl
  · cases h

end BlockOrders.Merging
