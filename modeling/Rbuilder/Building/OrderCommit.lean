/-
  `PartialBlockFork` of `building/order_commit.rs`: committing transactions, bundles,
  share bundles and orders to a state that can be rolled back.

  A function that returns `Result<Result<T, E>, CriticalCommitOrderError>` is a computation
  over the fork: `Ok(Err(e))` is a reported error, `Err(c)` a critical one. The tracers and
  the used-state traces are left out: nothing here reads them.
-/
import Rbuilder.Building.PayoutTx
import Rbuilder.HashMap
import Mathlib.Data.List.Sort

namespace Building

open SparseMpt Rollback

/-! ## Results and errors -/

structure Receipt where
  txType : TxType
  success : Bool
  cumulativeGasUsed : UInt64
  logs : List Log
  deriving DecidableEq

structure TransactionExecutionInfo where
  tx : Tx
  receipt : Receipt
  spaceUsed : BlockSpace
  /-- Coinbase balance after the transaction minus before. -/
  coinbaseProfit : Int
  deriving DecidableEq

structure TransactionOk where
  execResult : EvmResult
  cumulativeSpaceUsed : BlockSpace
  txInfo : TransactionExecutionInfo
  /-- The signer with its nonce after the transaction. -/
  nonceUpdated : Address × UInt64

def TransactionOk.spaceUsed (ok : TransactionOk) : BlockSpace := ok.txInfo.spaceUsed

inductive TransactionErr where
  | invalidTransaction (err : InvalidTransaction)
  | blocklist
  | gasLeft
  | blobGasLeft
  | blockSpaceLeft
  deriving DecidableEq

structure DelayedKickback where
  recipient : Address
  payoutValue : Nat
  payoutTxFee : Nat
  payoutTxSpaceNeeded : BlockSpace
  shouldPayInBlock : Bool
  deriving DecidableEq

structure BundleOk where
  spaceUsed : BlockSpace := .zero
  cumulativeSpaceUsed : BlockSpace
  txInfos : List TransactionExecutionInfo := []
  noncesUpdated : List (Address × UInt64) := []
  paidKickbacks : List (Address × Nat) := []
  delayedKickback : Option DelayedKickback := none
  originalOrderIds : List OrderId := []

def BundleOk.spaceState (ok : BundleOk) (reservedBlockSpace : BlockSpace) :
    BlockBuildingSpaceState :=
  ⟨ok.cumulativeSpaceUsed, reservedBlockSpace⟩

inductive BundleErr where
  | invalidTransaction (hash : B256) (err : TransactionErr)
  | transactionReverted (hash : B256)
  | emptyBundle
  | targetBlockIncorrect (block targetBlock targetMaxBlock : UInt64)
  | notEnoughRefundForGas (recipient : Address) (refundableValue neededValue : Nat)
  | failedToCommitPayoutTx (recipient : Address) (gasLimit : UInt64) (value : Nat)
      (err : Option TransactionErr)
  | estimatePayoutGas (err : EstimatePayoutGasErr)
  | payoutTx (err : Secp256k1Error)
  | incorrectRefundableElement (idx : Nat)
  | incorrectTimestamp (min max block : UInt64)
  deriving DecidableEq

structure OrderOk where
  coinbaseProfit : Nat
  spaceUsed : BlockSpace
  cumulativeSpaceUsed : BlockSpace
  txInfos : List TransactionExecutionInfo
  originalOrderIds : List OrderId
  noncesUpdated : List (Address × UInt64)
  paidKickbacks : List (Address × Nat)
  delayedKickback : Option DelayedKickback

inductive OrderErr where
  | transaction (err : TransactionErr)
  | bundle (err : BundleErr)
  | negativeProfit (loss : Nat)
  deriving DecidableEq

structure ReservedPayout where
  spaceLimit : BlockSpace
  txValue : Nat
  totalRefundableValue : Nat
  baseFee : Nat

structure ShareBundleCommitResult where
  bundleOk : BundleOk
  coinbaseDiffBeforePayouts : Nat
  totalPayoutsPromissed : Nat
  payoutsPromissed : AList fun _ : Address => ReservedPayout

abbrev Refunds := AList fun _ : Address => Nat

/-- The entries of refunds, in the order they are paid. -/
abbrev Payouts := List (Sigma fun _ : Address => Nat)

/-- `*entry(address).or_default() += value`. -/
def Refunds.add (refunds : Refunds) (address : Address) (value : Nat) : Refunds :=
  refunds.insert address ((refunds.lookup address).getD 0 + value)

def updateNonceList : List (Address × UInt64) → Address × UInt64 → List (Address × UInt64)
  | [], newUpdate => [newUpdate]
  | (addr, nonce) :: rest, newUpdate =>
    if addr = newUpdate.1 then (addr, newUpdate.2) :: rest
    else (addr, nonce) :: updateNonceList rest newUpdate

def updateNonceListWithUpdates (noncesUpdated newUpdates : List (Address × UInt64)) :
    List (Address × UInt64) :=
  newUpdates.foldl updateNonceList noncesUpdated

def BundleOk.accumulateTxExecution (ok : BundleOk) (transactionOk : TransactionOk) : BundleOk :=
  { ok with
    spaceUsed := ok.spaceUsed + transactionOk.spaceUsed
    cumulativeSpaceUsed := transactionOk.cumulativeSpaceUsed
    txInfos := ok.txInfos ++ [transactionOk.txInfo]
    noncesUpdated := updateNonceList ok.noncesUpdated transactionOk.nonceUpdated }

/-! ## Transactions -/

/-- A computation of `PartialBlockFork`. -/
abbrev ForkExec (δ E α : Type) := Exec (Fork δ) CriticalCommitOrderError E α

def canFitTx (ctx : BlockBuildingContext) (spaceNeeded : BlockSpace) (blobGasNeeded : Nat)
    (spaceState : BlockBuildingSpaceState) : Except TransactionErr Unit :=
  let totalConsumedSpace := spaceState.totalConsumedSpace
  if spaceNeeded.rlpLength + totalConsumedSpace.rlpLength > maxRlpBlockSize then
    .error .blockSpaceLeft
  else if spaceNeeded.gas + totalConsumedSpace.gas > ctx.gasAvailable then .error .gasLeft
  else if blobGasNeeded + spaceState.blobGasUsed > ctx.maxBlobGasPerBlock then .error .blobGasLeft
  else .ok ()

/-- The signer or the destination is in the blocklist. -/
def isBlocked (blocklist : List Address) (tx : Tx) : Bool :=
  blocklist.contains tx.signer || tx.toAddress.any blocklist.contains

variable {δ E : Type} (evm : Evm δ) (ctx : BlockBuildingContext)

def coinbaseBalance : ForkExec δ E Nat := do
  let fork ← .getState
  .orAbort ((evm.balance fork.state ctx.beneficiary).mapError .reth)

/-- `I256::try_from(self.coinbase_balance()?)?`. -/
def signedCoinbaseBalance : ForkExec δ E Int := do
  let balance ← coinbaseBalance evm ctx
  if balance < 2 ^ 255 then pure balance else .abort .bigIntConversionError

/-- `commit` and `merge_transitions` of the database. -/
def mergeTransition (transition : δ) : ForkExec δ E Unit := fun fork =>
  (.ok (), fork.push transition)

def executeEvm (tx : Tx) : ForkExec δ TransactionErr (ResultAndState δ) := do
  let fork ← .getState
  match evm.transact fork.state tx with
  | .ok res =>
    if res.accessed.any ctx.blocklist.contains then .fail .blocklist else pure res
  | .error (.transaction err) => .fail (.invalidTransaction err)
  | .error err => .abort (.evm err)

def commitTx (tx : Tx) (spaceState : BlockBuildingSpaceState) :
    ForkExec δ TransactionErr TransactionOk := do
  .ofExcept (canFitTx ctx tx.spaceNeeded tx.blobsGasUsed spaceState)
  let coinbaseBalanceBefore ← signedCoinbaseBalance evm ctx
  if isBlocked ctx.blocklist tx then .fail .blocklist
  else
    let res ← executeEvm evm ctx tx
    mergeTransition res.state
    let spaceUsed : BlockSpace := ⟨res.result.gasUsed, tx.length, tx.blobsGasUsed⟩
    let spaceState := spaceState.useSpace spaceUsed
    let receipt : Receipt :=
      { txType := tx.txType, success := res.result.isSuccess,
        cumulativeGasUsed := spaceState.gasUsed, logs := res.result.logs }
    let coinbaseBalanceAfter ← signedCoinbaseBalance evm ctx
    pure
      { execResult := res.result, cumulativeSpaceUsed := spaceState.spaceUsed,
        txInfo := { tx, receipt, spaceUsed,
                    coinbaseProfit := coinbaseBalanceAfter - coinbaseBalanceBefore },
        nonceUpdated := (tx.signer, tx.nonce + 1) }

/-! ## Payouts -/

def estimateRefundPayoutTx (recipient : Address) (refundableValue : Nat) (spaceUsed : BlockSpace) :
    ForkExec δ BundleErr ReservedPayout := do
  let fork ← .getState
  let spaceLimit ← .ofExcept
    ((estimatePayoutGasLimit evm ctx recipient fork.state spaceUsed).mapError .estimatePayoutGas)
  let baseFee := ctx.basefee.toNat * spaceLimit.gas.toNat
  if baseFee > refundableValue then
    .fail (.notEnoughRefundForGas recipient refundableValue baseFee)
  else
    pure { spaceLimit, txValue := refundableValue - baseFee, baseFee,
           totalRefundableValue := refundableValue }

/-- Commit a payout; on success it is added to the result. -/
def insertRefundPayoutTx (payout : ReservedPayout) (recipient : Address)
    (reservedBlockSpace : BlockSpace) (insertResult : BundleOk) :
    ForkExec δ BundleErr BundleOk := do
  let fork ← .getState
  let nonce ← .orAbort ((evm.nonce fork.state ctx.builderSigner.address).mapError .reth)
  let payoutTx ← .ofExcept
    ((createPayoutTx ctx nonce recipient payout.spaceLimit.gas payout.txValue).mapError .payoutTx)
  match ← (commitTx evm ctx payoutTx (insertResult.spaceState reservedBlockSpace)).attempt with
  | .ok res =>
    if !res.txInfo.receipt.success then
      .fail (.failedToCommitPayoutTx recipient payout.spaceLimit.gas payout.txValue none)
    else
      let insertResult := insertResult.accumulateTxExecution res
      pure { insertResult with
        paidKickbacks := insertResult.paidKickbacks ++ [(recipient, payout.txValue)] }
  | .error err =>
    .fail (.failedToCommitPayoutTx recipient payout.spaceLimit.gas payout.txValue (some err))

/-! ## Bundles -/

/-- The loop of `commit_bundle_no_rollback` over the transactions; the result so far and
    the profit that can be refunded. -/
def commitBundleTxs (bundle : Bundle) (reservedBlockSpace : BlockSpace) (allowTxSkip : Bool) :
    List Tx → BundleOk → Nat → ForkExec δ BundleErr (BundleOk × Nat)
  | [], insert, refundableProfit => pure (insert, refundableProfit)
  | tx :: txs, insert, refundableProfit => do
    let rollbackPoint ← Fork.rollbackPoint
    match ← (commitTx evm ctx tx (insert.spaceState reservedBlockSpace)).attempt with
    | .ok res =>
      if !res.txInfo.receipt.success && bundle.droppingTxHashes.contains tx.hash then
        Fork.rollback rollbackPoint
        commitBundleTxs bundle reservedBlockSpace allowTxSkip txs insert refundableProfit
      else if !res.txInfo.receipt.success && !bundle.revertingTxHashes.contains tx.hash then
        .fail (.transactionReverted tx.hash)
      else
        let refundableProfit :=
          if 0 < res.txInfo.coinbaseProfit && bundle.isTxRefundable tx.hash then
            refundableProfit + res.txInfo.coinbaseProfit.natAbs
          else refundableProfit
        commitBundleTxs bundle reservedBlockSpace allowTxSkip txs
          (insert.accumulateTxExecution res) refundableProfit
    | .error err =>
      if (allowTxSkip && bundle.revertingTxHashes.contains tx.hash) ||
          bundle.droppingTxHashes.contains tx.hash then
        commitBundleTxs bundle reservedBlockSpace allowTxSkip txs insert refundableProfit
      else .fail (.invalidTransaction tx.hash err)

/-- The `'refund` block of `commit_bundle_no_rollback`: the refund is left to the refund
    pipeline, combined with the refunds of the block, or paid at once. -/
def commitBundleRefund (refundsCfg : BundleRefund) (reservedBlockSpace : BlockSpace)
    (combinedRefunds : Refunds) (insert : BundleOk) (refundableProfit : Nat) :
    ForkExec δ BundleErr BundleOk := do
  let refundableValue := getPercent refundableProfit refundsCfg.percent.toNat
  let later (shouldPayInBlock : Bool) : DelayedKickback :=
    { recipient := refundsCfg.recipient, payoutValue := refundableValue, payoutTxFee := 0,
      payoutTxSpaceNeeded := .zero, shouldPayInBlock }
  if refundsCfg.delayed then
    pure { insert with delayedKickback := some (later false) }
  else if (combinedRefunds.lookup refundsCfg.recipient).isSome then
    pure { insert with delayedKickback := some (later true) }
  else
    let payout ← estimateRefundPayoutTx evm ctx refundsCfg.recipient refundableValue
      insert.cumulativeSpaceUsed
    let spaceState := insert.spaceState reservedBlockSpace
    if payout.spaceLimit.gas = baseTxGas ∧ canFitTx ctx payout.spaceLimit 0 spaceState = .ok () then
      let combined : DelayedKickback :=
        { recipient := refundsCfg.recipient, payoutValue := payout.txValue,
          payoutTxFee := payout.baseFee, payoutTxSpaceNeeded := payout.spaceLimit,
          shouldPayInBlock := true }
      pure { insert with delayedKickback := some combined }
    else
      insertRefundPayoutTx evm ctx payout refundsCfg.recipient spaceState.reservedBlockSpace insert

def commitBundleNoRollback (bundle : Bundle) (spaceState : BlockBuildingSpaceState)
    (allowTxSkip : Bool) (combinedRefunds : Refunds) : ForkExec δ BundleErr BundleOk := do
  let (insert, refundableProfit) ←
    commitBundleTxs evm ctx bundle spaceState.reservedBlockSpace allowTxSkip bundle.txs
      { cumulativeSpaceUsed := spaceState.spaceUsed } 0
  if insert.spaceUsed.gas = 0 then .fail .emptyBundle
  else
    match bundle.refund with
    | none => pure insert
    | some refundsCfg =>
      commitBundleRefund evm ctx refundsCfg spaceState.reservedBlockSpace combinedRefunds insert
        refundableProfit

/-- Block and timestamp are checked, errors are rolled back. -/
def commitBundle (bundle : Bundle) (spaceState : BlockBuildingSpaceState) (allowTxSkip : Bool)
    (combinedRefunds : Refunds) : ForkExec δ BundleErr BundleOk :=
  let minTs := bundle.minTimestamp.getD 0
  let maxTs := bundle.maxTimestamp.getD 0xFFFFFFFFFFFFFFFF
  if bundle.block.getD ctx.blockNumber ≠ ctx.blockNumber then
    .fail (.targetBlockIncorrect ctx.blockNumber (bundle.block.getD ctx.blockNumber)
      (bundle.block.getD ctx.blockNumber))
  else if ¬ (minTs ≤ ctx.timestamp ∧ ctx.timestamp ≤ maxTs) then
    .fail (.incorrectTimestamp minTs maxTs ctx.timestamp)
  else
    Fork.executeWithRollback
      (commitBundleNoRollback evm ctx bundle spaceState allowTxSkip combinedRefunds)

/-! ## Share bundles -/

/-- What the loop over the body of a share bundle has so far. -/
structure ShareBundleProgress where
  insert : BundleOk
  refundableProfit : Nat := 0
  innerPayouts : Refunds := ∅

/-- `refund.iter().map(|r| (r.body_idx, r.percent)).collect::<HashMap<_, _>>()`. -/
def refundableElements (refund : List Refund) : AList fun _ : Nat => Nat :=
  refund.foldl (fun elements r => elements.insert r.bodyIdx r.percent) ∅

/-- One transaction of the body, in the element `idx`. -/
def commitShareBundleTx (sbundleTx : ShareBundleTx) (isRefundable : Bool)
    (reservedBlockSpace : BlockSpace) (allowTxSkip : Bool) (progress : ShareBundleProgress) :
    ForkExec δ BundleErr ShareBundleProgress := do
  let rollbackPoint ← Fork.rollbackPoint
  let tx := sbundleTx.tx
  let included (res : TransactionOk) : ShareBundleProgress :=
    { progress with
      refundableProfit :=
        if 0 < res.txInfo.coinbaseProfit && !isRefundable then
          progress.refundableProfit + res.txInfo.coinbaseProfit.natAbs
        else progress.refundableProfit
      insert := progress.insert.accumulateTxExecution res }
  match ← (commitTx evm ctx tx (progress.insert.spaceState reservedBlockSpace)).attempt with
  | .ok res =>
    if res.txInfo.receipt.success then pure (included res)
    else
      match sbundleTx.revertBehavior with
      | .notAllowed => .fail (.transactionReverted tx.hash)
      | .allowedIncluded => pure (included res)
      | .allowedExcluded =>
        Fork.rollback rollbackPoint
        pure progress
  | .error err =>
    if allowTxSkip && sbundleTx.revertBehavior.canRevert then pure progress
    else .fail (.invalidTransaction tx.hash err)

/-- Take in the result of an inner bundle. -/
def ShareBundleProgress.addInner (order : HashOrder) (progress : ShareBundleProgress)
    (isRefundable : Bool) (originalOrderId : Option OrderId) (res : ShareBundleCommitResult) :
    ShareBundleProgress :=
  let insert := progress.insert
  let executedId := if !res.bundleOk.txInfos.isEmpty then originalOrderId.toList else []
  { insert :=
      { insert with
        originalOrderIds := insert.originalOrderIds ++ executedId ++ res.bundleOk.originalOrderIds
        spaceUsed := insert.spaceUsed + res.bundleOk.spaceUsed
        cumulativeSpaceUsed := res.bundleOk.cumulativeSpaceUsed
        txInfos := insert.txInfos ++ res.bundleOk.txInfos
        noncesUpdated :=
          updateNonceListWithUpdates insert.noncesUpdated res.bundleOk.noncesUpdated }
    refundableProfit :=
      if res.coinbaseDiffBeforePayouts > res.totalPayoutsPromissed && !isRefundable then
        progress.refundableProfit + (res.coinbaseDiffBeforePayouts - res.totalPayoutsPromissed)
      else progress.refundableProfit
    innerPayouts := (order.order res.payoutsPromissed.entries).foldl
      (fun payouts e => payouts.add e.1 e.2.totalRefundableValue) progress.innerPayouts }

/-- Divide the refundable profit among the refunded elements of the body. -/
def addRefunds (body : List ShareBundleBody) (refundableProfit : Nat) :
    List (Sigma fun _ : Nat => Nat) → Refunds → Except BundleErr Refunds
  | [], payouts => .ok payouts
  | ⟨idx, percent⟩ :: elements, payouts =>
    match body[idx]?.bind ShareBundleBody.refundConfig with
    | none => .error (.incorrectRefundableElement idx)
    | some refundConfig =>
      let totalValue := getPercent refundableProfit percent
      addRefunds body refundableProfit elements
        (refundConfig.foldl (fun p c => p.add c.address (getPercent totalValue c.percent)) payouts)

/-- Estimate the payouts one after the other. -/
def promisePayouts (cumulativeSpaceUsed : BlockSpace) :
    Payouts → (AList fun _ : Address => ReservedPayout) →
      ForkExec δ BundleErr (AList fun _ : Address => ReservedPayout)
  | [], promised => pure promised
  | ⟨recipient, refundableValue⟩ :: payouts, promised => do
    let payout ← estimateRefundPayoutTx evm ctx recipient refundableValue cumulativeSpaceUsed
    promisePayouts cumulativeSpaceUsed payouts (promised.insert recipient payout)

/-- What `commit_share_bundle_inner_no_rollback` does after the loop over the body. -/
def finishShareBundle (order : HashOrder) (body : List ShareBundleBody)
    (elements : AList fun _ : Nat => Nat) (coinbaseBalanceBefore : Nat)
    (progress : ShareBundleProgress) : ForkExec δ BundleErr ShareBundleCommitResult := do
  let insert := progress.insert
  let innerPayouts ← .ofExcept
    (addRefunds body progress.refundableProfit (order.order elements.entries) progress.innerPayouts)
  let promised ←
    promisePayouts evm ctx insert.cumulativeSpaceUsed (order.order innerPayouts.entries) ∅
  let fork ← .getState
  let diff := match evm.balance fork.state ctx.beneficiary with
    | .ok balance => balance - coinbaseBalanceBefore
    | .error _ => 0
  pure
    { bundleOk := insert, coinbaseDiffBeforePayouts := diff,
      totalPayoutsPromissed := (promised.entries.map fun e => e.2.totalRefundableValue).sum,
      payoutsPromissed := promised }

mutual

/-- `commit_share_bundle_inner_no_rollback` with its errors rolled back. -/
def commitShareBundleInner (order : HashOrder) (allowTxSkip : Bool) :
    ShareBundleInner → BlockBuildingSpaceState → ForkExec δ BundleErr ShareBundleCommitResult
  | .mk body refund _ _ _, spaceState => Fork.executeWithRollback do
    let coinbaseBalanceBefore ← coinbaseBalance evm ctx
    let elements := refundableElements refund
    let progress ← commitShareBundleBody order allowTxSkip elements spaceState.reservedBlockSpace
      body 0 { insert := { cumulativeSpaceUsed := spaceState.spaceUsed } }
    finishShareBundle evm ctx order body elements coinbaseBalanceBefore progress

/-- The loop over the body, from the element `idx` on. -/
def commitShareBundleBody (order : HashOrder) (allowTxSkip : Bool)
    (elements : AList fun _ : Nat => Nat) (reservedBlockSpace : BlockSpace) :
    List ShareBundleBody → Nat → ShareBundleProgress → ForkExec δ BundleErr ShareBundleProgress
  | [], _, progress => pure progress
  | .tx sbundleTx :: body, idx, progress => do
    let progress ← commitShareBundleTx evm ctx sbundleTx (elements.lookup idx).isSome
      reservedBlockSpace allowTxSkip progress
    commitShareBundleBody order allowTxSkip elements reservedBlockSpace body (idx + 1) progress
  | .bundle inner :: body, idx, progress => do
    let spaceState := progress.insert.spaceState reservedBlockSpace
    match ← (commitShareBundleInner order allowTxSkip inner spaceState).attempt with
    | .ok res =>
      commitShareBundleBody order allowTxSkip elements reservedBlockSpace body (idx + 1)
        (progress.addInner order (elements.lookup idx).isSome inner.originalOrderId res)
    | .error err =>
      if inner.canSkip then
        commitShareBundleBody order allowTxSkip elements reservedBlockSpace body (idx + 1) progress
      else .fail err

end

/-- Pay the kickbacks, in the order of the recipients. -/
def payKickbacks (reservedBlockSpace : BlockSpace) :
    List (Sigma fun _ : Address => ReservedPayout) → BundleOk → ForkExec δ BundleErr BundleOk
  | [], insert => pure insert
  | ⟨recipient, payout⟩ :: payouts, insert => do
    let insert ← insertRefundPayoutTx evm ctx payout recipient reservedBlockSpace insert
    payKickbacks reservedBlockSpace payouts insert

def commitShareBundleNoRollback (order : HashOrder) (bundle : ShareBundle)
    (spaceState : BlockBuildingSpaceState) (allowTxSkip : Bool) :
    ForkExec δ BundleErr BundleOk := do
  let res ← commitShareBundleInner evm ctx order allowTxSkip bundle.innerBundle spaceState
  let payouts := (order.order res.payoutsPromissed.entries).insertionSort
    fun a b => a.1.toList ≤ b.1.toList
  payKickbacks evm ctx spaceState.reservedBlockSpace payouts res.bundleOk

/-- The block is checked, errors are rolled back. -/
def commitShareBundle (order : HashOrder) (bundle : ShareBundle)
    (spaceState : BlockBuildingSpaceState) (allowTxSkip : Bool) : ForkExec δ BundleErr BundleOk :=
  if ¬ (bundle.block ≤ ctx.blockNumber ∧ ctx.blockNumber ≤ bundle.maxBlock) then
    .fail (.targetBlockIncorrect ctx.blockNumber bundle.block bundle.maxBlock)
  else
    Fork.executeWithRollback (commitShareBundleNoRollback evm ctx order bundle spaceState allowTxSkip)

/-! ## Orders -/

/-- The profit after the refunds that are left for later; a loss is an error. -/
def coinbaseProfitWhenRefunds (initialBalance delayedRefundCost : Nat) :
    ForkExec δ OrderErr Nat := do
  let coinbaseBalanceAfter ← coinbaseBalance evm ctx
  let minBalance := initialBalance + delayedRefundCost
  if coinbaseBalanceAfter ≥ minBalance then pure (coinbaseBalanceAfter - minBalance)
  else .fail (.negativeProfit (minBalance - coinbaseBalanceAfter))

def bundleToOrderResult (ok : BundleOk) (coinbaseBalanceBefore : Nat) :
    ForkExec δ OrderErr OrderOk := do
  let delayedRefundCost := (ok.delayedKickback.map fun r => r.payoutValue + r.payoutTxFee).getD 0
  let coinbaseProfit ← coinbaseProfitWhenRefunds evm ctx coinbaseBalanceBefore delayedRefundCost
  pure
    { coinbaseProfit, spaceUsed := ok.spaceUsed, cumulativeSpaceUsed := ok.cumulativeSpaceUsed,
      txInfos := ok.txInfos, originalOrderIds := ok.originalOrderIds,
      noncesUpdated := ok.noncesUpdated, paidKickbacks := ok.paidKickbacks,
      delayedKickback := ok.delayedKickback }

/-- A transaction that lowers the coinbase balance is an error, unless it is a system
    transaction: that one counts as no profit. -/
def txToOrderResult (tx : Tx) (ok : TransactionOk) : ForkExec δ OrderErr OrderOk :=
  let result (coinbaseProfit : Nat) : OrderOk :=
    { coinbaseProfit, spaceUsed := ok.spaceUsed, cumulativeSpaceUsed := ok.cumulativeSpaceUsed,
      txInfos := [ok.txInfo], originalOrderIds := [], noncesUpdated := [ok.nonceUpdated],
      paidKickbacks := [], delayedKickback := none }
  if 0 ≤ ok.txInfo.coinbaseProfit then pure (result ok.txInfo.coinbaseProfit.natAbs)
  else if tx.isSystem then pure (result 0)
  else .fail (.negativeProfit ok.txInfo.coinbaseProfit.natAbs)

def commitOrderNoRollback (hashOrder : HashOrder) (spaceState : BlockBuildingSpaceState)
    (allowTxSkip : Bool) (combinedRefunds : Refunds) : Order → ForkExec δ OrderErr OrderOk
  | .tx tx => do
    let ok ← (commitTx evm ctx tx spaceState).mapErr .transaction
    txToOrderResult tx ok
  | .bundle bundle => do
    let coinbaseBalanceBefore ← coinbaseBalance evm ctx
    let ok ← (commitBundle evm ctx bundle spaceState allowTxSkip combinedRefunds).mapErr .bundle
    bundleToOrderResult evm ctx ok coinbaseBalanceBefore
  | .shareBundle bundle => do
    let coinbaseBalanceBefore ← coinbaseBalance evm ctx
    let ok ← (commitShareBundle evm ctx hashOrder bundle spaceState allowTxSkip).mapErr .bundle
    bundleToOrderResult evm ctx ok coinbaseBalanceBefore

def commitOrder (hashOrder : HashOrder) (order : Order) (spaceState : BlockBuildingSpaceState)
    (allowTxSkip : Bool) (combinedRefunds : Refunds) : ForkExec δ OrderErr OrderOk :=
  Fork.executeWithRollback
    (commitOrderNoRollback evm ctx hashOrder spaceState allowTxSkip combinedRefunds order)

end Building
