/-
  `PartialBlock` of `building/mod.rs`: a block that is being filled.

  Its methods change the block and the state it is built on, so they are computations over
  both (`BuildState`). An order is committed on a fork of the state; what it used, earned
  and owes is then added to the block. The refunds that are owed and the proposer's payout
  are paid at the end.
-/
import Rbuilder.Building.OrderCommit

namespace Building

open SparseMpt Rollback

structure PartialBlock where
  /-- Passed on as `allow_tx_skip`. -/
  discardTxs : Bool
  spaceState : BlockBuildingSpaceState := .zero
  coinbaseProfit : Nat := 0
  executedTxInfos : List TransactionExecutionInfo := []
  /-- Refunds to be paid at the end of the block. -/
  combinedRefunds : Refunds := ∅
  /-- What the refund pipeline will pay. -/
  delayedRefund : Nat := 0

structure ExecutionResult where
  coinbaseProfit : Nat
  inplaceSim : SimValue
  spaceUsed : BlockSpace
  order : Order
  txInfos : List TransactionExecutionInfo
  originalOrderIds : List OrderId
  noncesUpdated : List (Address × UInt64)
  paidKickbacks : List (Address × Nat)
  delayedKickback : Option DelayedKickback

inductive ExecutionError where
  | orderError (err : OrderErr)
  | lowerInsertedValue (before inplace : SimValue)
  deriving DecidableEq

/-- A block with the state it is built on. -/
structure BuildState (δ : Type) where
  partialBlock : PartialBlock
  blockState : BlockState δ

/-- Run a computation on a fresh fork of the state. -/
def onFork {δ E α : Type} (m : ForkExec δ E α) :
    Exec (BuildState δ) CriticalCommitOrderError E α := fun b =>
  let (out, fork) := m ⟨b.blockState, 0⟩
  (out, { b with blockState := fork.state })

def modifyBlock {δ C E : Type} (f : PartialBlock → PartialBlock) : Exec (BuildState δ) C E Unit :=
  fun b => (.ok (), { b with partialBlock := f b.partialBlock })

/-! ## Committing an order -/

/-- For a bundle the profit of the transactions that were seen in the mempool does not
    count. -/
def nonMempoolCoinbaseProfit (ctx : BlockBuildingContext) (ok : OrderOk) : Order → Nat
  | .tx _ => ok.coinbaseProfit
  | _ =>
    let mempool := ok.txInfos.filter fun info => ctx.mempoolTxs.contains info.tx.hash
    let mempoolCoinbaseProfit := (mempool.map fun info => info.coinbaseProfit).sum
    if 0 < mempoolCoinbaseProfit then ok.coinbaseProfit - mempoolCoinbaseProfit.natAbs
    else ok.coinbaseProfit

def createSimValue (ctx : BlockBuildingContext) (order : Order) (ok : OrderOk) : SimValue :=
  .new ok.coinbaseProfit (nonMempoolCoinbaseProfit ctx ok order) ok.spaceUsed ok.paidKickbacks

section

variable {δ : Type} (evm : Evm δ) (ctx : BlockBuildingContext)

/-- The part of `commit_order_inner` on the fork: what the filter rejects is rolled back. -/
def tryOrder (hashOrder : HashOrder) (order : Order)
    (resultFilter : SimValue → Except ExecutionError Unit) (block : PartialBlock) :
    ForkExec δ ExecutionError (OrderOk × SimValue) := do
  let rollback ← Fork.rollbackPoint
  let ok ← (commitOrder evm ctx hashOrder order block.spaceState block.discardTxs
    block.combinedRefunds).mapErr .orderError
  let inplaceSim := createSimValue ctx order ok
  match resultFilter inplaceSim with
  | .ok () => pure (ok, inplaceSim)
  | .error err =>
    Fork.rollback rollback
    .fail err

/-- Add what an order used and earned, and what is owed for it. -/
def PartialBlock.addOrder (block : PartialBlock) (ok : OrderOk) : PartialBlock :=
  let block := { block with
    spaceState := block.spaceState.useSpace ok.spaceUsed
    coinbaseProfit := block.coinbaseProfit + ok.coinbaseProfit
    executedTxInfos := block.executedTxInfos ++ ok.txInfos }
  match ok.delayedKickback with
  | none => block
  | some kickback =>
    if kickback.shouldPayInBlock then
      { block with
        spaceState := block.spaceState.reserveBlockSpace kickback.payoutTxSpaceNeeded
        combinedRefunds := block.combinedRefunds.add kickback.recipient kickback.payoutValue }
    else { block with delayedRefund := block.delayedRefund + kickback.payoutValue }

/-- `PartialBlock::commit_order`. -/
def PartialBlock.commitOrder (hashOrder : HashOrder) (order : Order)
    (resultFilter : SimValue → Except ExecutionError Unit) :
    Exec (BuildState δ) CriticalCommitOrderError ExecutionError ExecutionResult := do
  let b ← .getState
  let (ok, inplaceSim) ← onFork (tryOrder evm ctx hashOrder order resultFilter b.partialBlock)
  modifyBlock fun block => block.addOrder ok
  pure
    { coinbaseProfit := ok.coinbaseProfit, inplaceSim, spaceUsed := ok.spaceUsed, order,
      txInfos := ok.txInfos, originalOrderIds := ok.originalOrderIds,
      noncesUpdated := ok.noncesUpdated, paidKickbacks := ok.paidKickbacks,
      delayedKickback := ok.delayedKickback }

/-! ## Refunds and the proposer's payout -/

inductive InsertPayoutTxErr where
  | criticalCommitError (err : CriticalCommitOrderError)
  | profitTooLow
  | combinedRefundTxReverted
  | payoutTxReverted
  | signerError (err : Secp256k1Error)
  | txErr (err : TransactionErr)
  deriving DecidableEq

/-- A computation over a block where critical errors are reported like others. -/
abbrev BuildExec (δ E α : Type) := Exec (BuildState δ) Empty E α

/-- The profit without the base fee of the payout and the price of the block. -/
def PartialBlock.getProposerPayoutTxValue (block : PartialBlock) (gasLimit : UInt64) :
    Except InsertPayoutTxErr Nat :=
  let fee := gasLimit.toNat * ctx.basefee.toNat
  if fee ≤ block.coinbaseProfit ∧ ctx.mevBlockerPrice ≤ block.coinbaseProfit - fee then
    .ok (block.coinbaseProfit - fee - ctx.mevBlockerPrice)
  else .error .profitTooLow

/-- Undo records of one finalization. -/
structure FinalizeRevertStateCurrentIteration where
  lastTxBlockSpace : BlockSpace := .zero
  stateReverts : Nat := 0
  deriving DecidableEq

/-- Commit a payout that must succeed and add it to the block. -/
def commitPayout (reverted : InsertPayoutTxErr) (tx : Tx) :
    BuildExec δ InsertPayoutTxErr BlockSpace := do
  let b ← .getState
  let ok ← (onFork (commitTx evm ctx tx b.partialBlock.spaceState)).report .txErr
    .criticalCommitError
  if !ok.txInfo.receipt.success then .fail reverted
  else
    modifyBlock fun block => { block with
      spaceState := block.spaceState.useSpace ok.spaceUsed
      executedTxInfos := block.executedTxInfos ++ [ok.txInfo] }
    pure ok.spaceUsed

/-- The loop over the combined refunds; the next nonce. A recipient that has code by now is
    skipped. -/
def payCombinedRefunds : Payouts → UInt64 →
    BuildExec δ InsertPayoutTxErr UInt64
  | [], nonce => pure nonce
  | ⟨recipient, amount⟩ :: refunds, nonce => do
    let b ← .getState
    let codeHash ← .ofExcept ((evm.codeHash b.blockState recipient).mapError fun e =>
      .criticalCommitError (.reth e))
    if codeHash ≠ emptyCodeHash then payCombinedRefunds refunds nonce
    else
      let refundTx ← .ofExcept
        ((createPayoutTx ctx nonce recipient baseTxGas amount).mapError .signerError)
      let _ ← commitPayout evm ctx .combinedRefundTxReverted refundTx
      payCombinedRefunds refunds (nonce + 1)

def PartialBlock.insertRefundsAndProposerPayoutTx (hashOrder : HashOrder) (gasLimit : UInt64)
    (value : Nat) (adjustFinalizedBlock : Bool) (revertState : FinalizeRevertStateCurrentIteration) :
    BuildExec δ InsertPayoutTxErr FinalizeRevertStateCurrentIteration := do
  modifyBlock fun block => { block with spaceState := block.spaceState.freeReservedBlockSpace }
  let b ← .getState
  let nonce ← .ofExcept ((evm.nonce b.blockState ctx.builderSigner.address).mapError fun e =>
    .criticalCommitError (.reth e))
  let nonce ←
    if adjustFinalizedBlock then pure nonce
    else payCombinedRefunds evm ctx (hashOrder.order b.partialBlock.combinedRefunds.entries) nonce
  let tx ← .ofExcept
    ((createPayoutTx ctx nonce ctx.suggestedFeeRecipient gasLimit value).mapError .signerError)
  let spaceUsed ← commitPayout evm ctx .payoutTxReverted tx
  pure { lastTxBlockSpace := spaceUsed, stateReverts := revertState.stateReverts + 1 }

/-- Take the payout out again, and what was merged with it and after it. -/
def PartialBlock.adjustFinalizeBlockRevertToPrefinalizedState {E : Type}
    (revertState : FinalizeRevertStateCurrentIteration) : BuildExec δ E Unit := do
  let b ← .getState
  let spaceState ← .unwrap (b.partialBlock.spaceState.freeUsedState revertState.lastTxBlockSpace)
  .setState
    { partialBlock := { b.partialBlock with
        spaceState, executedTxInfos := b.partialBlock.executedTxInfos.dropLast }
      blockState := b.blockState.revert revertState.stateReverts }

/-! ## Before and after the transactions -/

inductive BlockExecutionError where
  | validation
  | other
  deriving DecidableEq

/-- The parts of the protocol that run before and after the transactions, from `reth`. -/
structure BlockProtocol (δ : Type) where
  /-- The system calls at the start of a block. -/
  preBlockCall : BlockState δ → Except BlockExecutionError δ
  /-- The EIP-6110 deposits. -/
  parseDepositsFromReceipts : List Receipt → Except BlockExecutionError Bytes
  /-- The system calls at the end of a block, with the requests they collect. -/
  applyPostExecutionChanges : BlockState δ → Except BlockExecutionError (List Bytes × δ)
  noChanges : δ
  /-- Balance increments on top of changes that are not merged yet. -/
  incrementBalances : BlockState δ → δ → Payouts →
    Except BlockExecutionError δ
  requestsHash : List Bytes → B256
  calculateWithdrawalsRoot : List Withdrawal → B256

/-- `BLOCK_HEADER_RLP_OVERHEAD`. -/
def blockHeaderRlpOverhead : Nat := 1024

variable (protocol : BlockProtocol δ)

/-- The space of the withdrawals and the header is used from the start. -/
def PartialBlock.preBlockCall : BuildExec δ BlockExecutionError Unit := do
  modifyBlock fun block => { block with
    spaceState := block.spaceState.useSpace ⟨0, ctx.withdrawalsLength + blockHeaderRlpOverhead, 0⟩ }
  let b ← .getState
  let changes ← .ofExcept (protocol.preBlockCall b.blockState)
  .setState { b with blockState := b.blockState.push changes }

/-- `eip6110::DEPOSIT_REQUEST_TYPE`. -/
def depositRequestType : UInt8 := 0

/-- The requests, and the changes of the state that go with them. -/
def collectRequests (b : BuildState δ) : Except BlockExecutionError (Option (List Bytes) × δ) :=
  if ctx.isPrague then do
    let deposits ← protocol.parseDepositsFromReceipts
      (b.partialBlock.executedTxInfos.map (·.receipt))
    let (requests, changes) ← protocol.applyPostExecutionChanges b.blockState
    let depositRequest := if deposits.isEmpty then [] else [depositRequestType :: deposits]
    return (some (depositRequest ++ requests), changes)
  else .ok (none, protocol.noChanges)

/-- The wei that the withdrawals pay to each address. -/
def balanceIncrements (withdrawals : List Withdrawal) : Refunds :=
  withdrawals.foldl (fun increments w =>
    if 0 < w.amount then increments.add w.address w.amountWei else increments) ∅

/-- The requests and the withdrawals root, with the changes to be merged. -/
def requestChanges (hashOrder : HashOrder) (b : BuildState δ) :
    Except BlockExecutionError ((Option (List Bytes) × Option B256) × δ) := do
  let (requests, changes) ← collectRequests ctx protocol b
  if ctx.isShanghai then
    let changes ← protocol.incrementBalances b.blockState changes
      (hashOrder.order (balanceIncrements ctx.withdrawals).entries)
    return ((requests, some (protocol.calculateWithdrawalsRoot ctx.withdrawals)), changes)
  else return ((requests, none), changes)

/-- Changes are merged into the state of a block. -/
def BuildState.merged (b : BuildState δ) (changes : δ) : BuildState δ :=
  { b with blockState := b.blockState.push changes }

/-- The requests and the withdrawals root; the changes are merged as one. -/
def PartialBlock.processRequests (hashOrder : HashOrder) :
    BuildExec δ BlockExecutionError (Option (List Bytes) × Option B256) := do
  let b ← .getState
  let (result, changes) ← .ofExcept (requestChanges ctx protocol hashOrder b)
  .setState (b.merged changes)
  pure result

end

end Building
