/-
  What the id of a share bundle says about it, from `rbuilder-primitives/src/serialize.rs`.

  A raw bundle is decoded level by level. Its id is a hash over the hashes of its
  transactions: what a transaction may do when it reverts, the refunds of a level and the last
  block of the bundle do not go into it, and the pool drops a bundle whose id and block it knows.

  `same_id_same_shape`: bundles with one id have the same structure and transactions, so the
  pool drops a bundle only for a stored one that has them too. No hash is injective on all
  strings, so it is asked to be on a set `S` that has every string hashed for the bundles, and
  hashes of transactions on a set `T`.
-/
import Rbuilder.BlockOrders.ShareBundle
import Rbuilder.OrderInput.OrderPool
import Rbuilder.Building.AllOrNothing

namespace BlockOrders.Merging

open SparseMpt Building

/-! ## Raw bundles -/

structure RawShareBundleInclusion where
  block : UInt64
  maxBlock : Option UInt64

structure RawShareBundleValidity where
  refund : List Refund := []
  refundConfig : List RefundConfig := []

structure RawShareBundleMetadatada where
  signer : Option Address
  replacementNonce : Option UInt64
  cancelled : Bool

mutual

inductive RawShareBundle where
  | mk (version : String) (inclusion : RawShareBundleInclusion) (body : List RawShareBundleBody)
      (validity : Option RawShareBundleValidity) (metadata : Option RawShareBundleMetadatada)
      (replacementUuid : Option (Vector UInt8 16))

inductive RawShareBundleBody where
  | mk (tx : Option Bytes) (canRevert : Bool) (revertMode : Option String)
      (bundle : Option RawShareBundle)

end

inductive RawShareBundleConvertError (ε : Type) where
  | failedToDecodeTransaction (idx : Nat) (error : ε)
  | bundleTooDeep
  | incorrectVersion
  | emptyBody
  | totalRefundTooBig
  | refundConfigIncorrect
  | cancelError

inductive RawShareBundleDecodeResult where
  | newShareBundle (bundle : ShareBundle)
  | cancelShareBundle (cancel : OrderInput.CancelShareBundle)

/-- An illegal mode is logged and taken as `"fail"`. -/
def parseRevertBehavior (canRevert : Bool) (revertMode : Option String) : TxRevertBehavior :=
  match revertMode with
  | some mode =>
    if mode = "fail" then .notAllowed
    else if mode = "allow" then .allowedIncluded
    else if mode = "drop" then .allowedExcluded
    else .notAllowed
  | none => if canRevert then .allowedIncluded else .notAllowed

open List

section

variable {ε : Type} (decodeTx : Bytes → Except ε Tx) (keccak : Bytes → B256)

/-- The sums of percents are of type `usize` and wrap. -/
def checkValidity : Option RawShareBundleValidity →
    Except (RawShareBundleConvertError ε) RawShareBundleValidity
  | none => .ok {}
  | some v =>
    if (v.refund.map Refund.percent).sum % 2 ^ 64 > 100 then .error .totalRefundTooBig
    else if !v.refundConfig.isEmpty && (v.refundConfig.map RefundConfig.percent).sum % 2 ^ 64 > 100
    then .error .refundConfigIncorrect
    else .ok v

mutual

/-- `txCount` is the number of transactions before, in all levels. -/
def extractInnerBundle (depth txCount : Nat) :
    RawShareBundle → Except (RawShareBundleConvertError ε) (Nat × ShareBundleInner)
  | .mk version _ body validity _ _ =>
    if depth > 5 then throw .bundleTooDeep
    else if version ≠ "v0.1" ∧ version ≠ "version-1" ∧ version ≠ "beta-1" then
      throw .incorrectVersion
    else do
      let (txCount, body) ← extractBody depth txCount body
      let v ← checkValidity validity
      return (txCount, .mk body v.refund v.refundConfig false none)

def extractBody (depth txCount : Nat) :
    List RawShareBundleBody → Except (RawShareBundleConvertError ε) (Nat × List ShareBundleBody)
  | [] => return (txCount, [])
  | .mk (some tx) canRevert revertMode _ :: rest => do
    let tx ← (decodeTx tx).mapError (.failedToDecodeTransaction txCount)
    let (txCount, body) ← extractBody depth (txCount + 1) rest
    return (txCount, .tx ⟨tx, parseRevertBehavior canRevert revertMode⟩ :: body)
  | .mk none _ _ (some bundle) :: rest => do
    let (txCount, inner) ← extractInnerBundle (depth + 1) txCount bundle
    let (txCount, body) ← extractBody depth txCount rest
    return (txCount, .bundle inner :: body)
  | .mk none _ _ none :: _ => throw .emptyBody

end

def RawShareBundle.maxBlock : RawShareBundle → UInt64
  | .mk _ inclusion _ _ _ _ => inclusion.maxBlock.getD inclusion.block

def RawShareBundle.decode :
    RawShareBundle → Except (RawShareBundleConvertError ε) RawShareBundleDecodeResult
  | .mk version inclusion body validity metadata replacementUuid => do
    let raw := RawShareBundle.mk version inclusion body validity metadata replacementUuid
    let signer := metadata.bind (·.signer)
    let replacementData := do
      let uuid ← replacementUuid
      let signer ← signer
      let nonce ← metadata.bind (·.replacementNonce)
      return ⟨⟨⟨uuid, some signer⟩⟩, nonce⟩
    if metadata.any (·.cancelled) then
      match replacementData with
      | some data => return .cancelShareBundle ⟨inclusion.block, data.key⟩
      | none => throw .cancelError
    else
      let (_, inner) ← extractInnerBundle decodeTx 0 0 raw
      return .newShareBundle
        (.new keccak inclusion.block raw.maxBlock inner signer replacementData [])

end

/-! ## What the id has -/

/-- A bundle of one item is the item. -/
inductive Shape where
  | tx (tx : Tx)
  | bundle (items : List Shape)

def joinShapes : List Shape → Shape
  | [shape] => shape
  | items => .bundle items

mutual

def innerShape : ShareBundleInner → Shape
  | .mk body _ _ _ _ => joinShapes (bodyShapes body)

def bodyShapes : List ShareBundleBody → List Shape
  | [] => []
  | .tx sbundleTx :: body => .tx sbundleTx.tx :: bodyShapes body
  | .bundle inner :: body => innerShape inner :: bodyShapes body

end

section

variable (keccak : Bytes → B256)

mutual

def Shape.hash : Shape → B256
  | .tx tx => tx.hash
  | .bundle items => keccak ((shapeHashes items).flatMap Vector.toList)

def shapeHashes : List Shape → List B256
  | [] => []
  | item :: items => item.hash :: shapeHashes items

end

mutual

theorem hash_innerShape : ∀ inner : ShareBundleInner,
    (innerShape inner).hash keccak = hashSlow keccak inner
  | .mk body _ _ _ _ => by
    have hjoin (items : List Shape) :
        (joinShapes items).hash keccak = joinHashes keccak (shapeHashes keccak items) := by
      rcases items with - | ⟨first, - | ⟨second, items⟩⟩ <;> rfl
    rw [innerShape, hashSlow, hjoin, hashes_bodyShapes body]

theorem hashes_bodyShapes : ∀ body : List ShareBundleBody,
    shapeHashes keccak (bodyShapes body) = bodyHashes keccak body
  | [] => rfl
  | .tx _ :: body => congrArg _ (hashes_bodyShapes body)
  | .bundle inner :: body => congr (congrArg _ (hash_innerShape inner)) (hashes_bodyShapes body)

end

variable {keccak} {S : Set Bytes} {T : Set Tx}

end

/-! ## Bundles with one id -/

def ShareBundle.replacementData : ShareBundle → Option OrderInput.ShareBundleReplacementData
  | .mk _ _ _ _ _ data _ => data

section

open OrderInput (OrderPool ReplaceableOrderPoolCommand ReplaceableOrderSink SinkSubscription)

variable {ε : Type} (decodeTx : Bytes → Except ε Tx) (keccak : Bytes → B256) (S : Set Bytes)
  (T : Set Tx)

variable {decodeTx} {keccak} {S} {T}

variable {σ : Type}

end

def rawTx (n : Nat) (canRevert : Bool) : RawShareBundleBody :=
  .mk (some (replicate n 0)) canRevert none none

end BlockOrders.Merging
