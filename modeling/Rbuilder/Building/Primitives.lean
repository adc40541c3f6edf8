/-
  Orders and block space, from `rbuilder-primitives/src/lib.rs`.

  Amounts (`U256`) are natural numbers and differences of balances (`I256`) integers: the
  sums of a block stay far below `2 ^ 255`. Gas is a `u64` that wraps, as in a release
  build. Lengths and blob gas count bytes that are in memory, so they are natural numbers.

  Of an order only what the block building code reads is kept. A transaction stands for
  its call data through its hash.
-/
import Rbuilder.Calculator.Bundle
import Mathlib.Data.List.AList

namespace Building

open SparseMpt

/-- `utils::get_percent`. -/
def getPercent (value percent : Nat) : Nat := value * percent / 100

/-! ## Block space -/

/-- Space of a block: what is used, reserved or needed. -/
structure BlockSpace where
  gas : UInt64
  rlpLength : Nat
  blobGas : Nat
  deriving DecidableEq

namespace BlockSpace

def zero : BlockSpace := ⟨0, 0, 0⟩

instance : Add BlockSpace where
  add a b := ⟨a.gas + b.gas, a.rlpLength + b.rlpLength, a.blobGas + b.blobGas⟩

/-- `SubAssign`; `none` where the source unwraps a `None`. -/
def checkedSub (a b : BlockSpace) : Option BlockSpace :=
  if b.gas ≤ a.gas ∧ b.rlpLength ≤ a.rlpLength ∧ b.blobGas ≤ a.blobGas then
    some ⟨a.gas - b.gas, a.rlpLength - b.rlpLength, a.blobGas - b.blobGas⟩
  else none

end BlockSpace

/-! ## Transactions -/

inductive TxType where
  | legacy
  | eip2930
  | eip1559
  | eip4844
  | eip7702
  deriving DecidableEq

/-- `alloy_eips::eip4844::DATA_GAS_PER_BLOB`. -/
def dataGasPerBlob : Nat := 131072

/-- `TransactionSignedEcRecoveredWithBlobs`. `length` is the RLP length of the signed
    transaction, `encoding` its EIP-2718 encoding. -/
structure Tx where
  hash : B256
  signer : Address
  toAddress : Option Address
  nonce : UInt64
  gasLimit : UInt64
  maxFeePerGas : Nat
  maxPriorityFeePerGas : Nat
  value : Nat
  txType : TxType
  length : Nat
  encoding : Bytes
  blobsLen : Nat := 0
  isSystem : Bool := false
  deriving DecidableEq

namespace Tx

def lengthEip7934 (tx : Tx) : Nat := tx.length

def blobsGasUsed (tx : Tx) : Nat := tx.blobsLen * dataGasPerBlob

def spaceNeeded (tx : Tx) : BlockSpace := ⟨tx.gasLimit, tx.lengthEip7934, tx.blobsGasUsed⟩

end Tx

/-! ## Orders -/

inductive OrderId where
  | tx (hash : B256)
  | bundle (uuid : Vector UInt8 16)
  | shareBundle (hash : B256)
  deriving DecidableEq

structure BundleRefund where
  percent : UInt8
  recipient : Address
  txHash : B256
  delayed : Bool

structure Bundle where
  block : Option UInt64
  minTimestamp : Option UInt64
  maxTimestamp : Option UInt64
  txs : List Tx
  revertingTxHashes : List B256
  droppingTxHashes : List B256
  refund : Option BundleRefund

namespace Bundle

def isTxOptional (bundle : Bundle) (hash : B256) : Bool :=
  bundle.revertingTxHashes.contains hash || bundle.droppingTxHashes.contains hash

def listTxs (bundle : Bundle) : List (Tx × Bool) :=
  bundle.txs.map fun tx => (tx, bundle.isTxOptional tx.hash)

def isTxRefundable (bundle : Bundle) (hash : B256) : Bool :=
  match bundle.refund with
  | some r => r.txHash == hash
  | none => false

end Bundle

inductive TxRevertBehavior where
  | notAllowed
  | allowedIncluded
  | allowedExcluded

def TxRevertBehavior.canRevert : TxRevertBehavior → Bool
  | notAllowed => false
  | allowedIncluded | allowedExcluded => true

structure ShareBundleTx where
  tx : Tx
  revertBehavior : TxRevertBehavior

structure Refund where
  bodyIdx : Nat
  percent : Nat

structure RefundConfig where
  address : Address
  percent : Nat

mutual

inductive ShareBundleBody where
  | tx (tx : ShareBundleTx)
  | bundle (bundle : ShareBundleInner)

inductive ShareBundleInner where
  | mk (body : List ShareBundleBody) (refund : List Refund) (ownRefundConfig : List RefundConfig)
      (canSkip : Bool) (originalOrderId : Option OrderId)

end

namespace ShareBundleInner

def body : ShareBundleInner → List ShareBundleBody
  | mk body _ _ _ _ => body

def refund : ShareBundleInner → List Refund
  | mk _ refund _ _ _ => refund

def canSkip : ShareBundleInner → Bool
  | mk _ _ _ canSkip _ => canSkip

def originalOrderId : ShareBundleInner → Option OrderId
  | mk _ _ _ _ originalOrderId => originalOrderId

end ShareBundleInner

mutual

/-- The whole refund goes to the signer of a transaction. -/
def ShareBundleBody.refundConfig : ShareBundleBody → Option (List RefundConfig)
  | .tx sbundleTx => some [⟨sbundleTx.tx.signer, 100⟩]
  | .bundle b => b.refundConfig

/-- The own configuration, else that of the first element. -/
def ShareBundleInner.refundConfig : ShareBundleInner → Option (List RefundConfig)
  | .mk [] _ config _ _ => if !config.isEmpty then some config else none
  | .mk (first :: _) _ config _ _ => if !config.isEmpty then some config else first.refundConfig

end

mutual

def ShareBundleInner.listTxs : ShareBundleInner → List (Tx × Bool)
  | .mk body _ _ _ _ => listBodyTxs body

/-- The `flat_map` over the body. -/
def listBodyTxs : List ShareBundleBody → List (Tx × Bool)
  | [] => []
  | .tx sbundleTx :: body =>
    (sbundleTx.tx, sbundleTx.revertBehavior.canRevert) :: listBodyTxs body
  | .bundle bundle :: body => bundle.listTxs ++ listBodyTxs body

end

structure ShareBundle where
  block : UInt64
  maxBlock : UInt64
  innerBundle : ShareBundleInner

inductive Order where
  | tx (tx : Tx)
  | bundle (bundle : Bundle)
  | shareBundle (bundle : ShareBundle)

def Order.listTxs : Order → List (Tx × Bool)
  | .tx t => [(t, true)]
  | .bundle b => b.listTxs
  | .shareBundle b => b.innerBundle.listTxs

/-! ## Values of simulated orders -/

structure ProfitInfo where
  coinbaseProfit : Nat
  mevGasPrice : Nat
  deriving DecidableEq

def ProfitInfo.new (coinbaseProfit : Nat) (gasUsed : UInt64) : ProfitInfo :=
  ⟨coinbaseProfit, if gasUsed ≠ 0 then coinbaseProfit / gasUsed.toNat else 0⟩

structure SimValue where
  fullProfitInfo : ProfitInfo
  nonMempoolProfitInfo : ProfitInfo
  spaceUsed : BlockSpace
  paidKickbacks : List (Address × Nat)
  deriving DecidableEq

def SimValue.new (fullCoinbaseProfit nonMempoolCoinbaseProfit : Nat) (spaceUsed : BlockSpace)
    (paidKickbacks : List (Address × Nat)) : SimValue :=
  ⟨.new fullCoinbaseProfit spaceUsed.gas, .new nonMempoolCoinbaseProfit spaceUsed.gas, spaceUsed,
    paidKickbacks⟩

end Building
