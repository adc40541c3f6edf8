/-
  `BlockBuildingHelperFromProvider` of `building/builders/block_building_helper.rs`.

  A helper is filled by `commit_order`. `finalize_block` appends the constraint
  transactions that are missing, pays the refunds and the proposer and seals the block;
  `adjust_finalized_block` takes the payout back and seals the block with another one.

  Statistics, timings and the cancellation token are left out.
-/
import Rbuilder.Building.Finalize

namespace Building

open SparseMpt Rollback

/-! ## The trace of a built block -/

structure BuiltBlockTrace where
  includedOrders : List ExecutionResult := []
  bidValue : Nat := 0
  subsidy : Int := 0
  /-- Coinbase balance delta before the payout. -/
  coinbaseReward : Nat := 0
  trueBidValue : Nat := 0
  mevBlockerPrice : Nat := 0
  seenCompetitionBid : Option Nat := none
  appendedConstraintTxs : List B256 := []

inductive BuiltBlockTraceError where
  | blockedAddress
  /-- The source gives the id of the order. -/
  | bundleTxReverted (order : Order) (txHash : B256)

/-- Whether each transaction can revert: somewhere in the order it may. -/
def revertibleTxs : List (Tx × Bool) → (AList fun _ : B256 => Bool) → AList fun _ : B256 => Bool
  | [], txs => txs
  | (tx, canRevert) :: rest, txs =>
    match txs.lookup tx.hash with
    | none => revertibleTxs rest (txs.insert tx.hash canRevert)
    | some stored =>
      if !stored && canRevert then revertibleTxs rest (txs.insert tx.hash canRevert)
      else revertibleTxs rest txs

def verifyOrderConsistency (blocklist : List Address) (res : ExecutionResult) :
    Except BuiltBlockTraceError Unit :=
  if res.txInfos.any fun info => isBlocked blocklist info.tx then .error .blockedAddress
  else
    let bundleTxs := revertibleTxs res.order.listTxs ∅
    match res.txInfos.find? fun info =>
        !info.receipt.success && bundleTxs.lookup info.tx.hash == some false with
    | some info => .error (.bundleTxReverted res.order info.tx.hash)
    | none => .ok ()

def BuiltBlockTrace.verifyBundleConsistency (trace : BuiltBlockTrace) (blocklist : List Address) :
    Except BuiltBlockTraceError Unit :=
  trace.includedOrders.forM (verifyOrderConsistency blocklist)

/-! ## The helper -/

structure BlockBuildingHelper (δ : Type) where
  feeRecipientBalanceStart : Nat
  /-- `block_state` and `partial_block`. -/
  build : BuildState δ
  payoutTxGas : UInt64
  builtBlockTrace : BuiltBlockTrace := {}
  finalizeAdjustmentState : Option FinalizeAdjustmentState := none

inductive HistoricalBlockError where
  | providerError (err : ProviderError)
  | missingHash (missingHashBlock latestBlock : UInt64)
  deriving DecidableEq

inductive BlockBuildingHelperError where
  | providerError (err : ProviderError)
  | unableToEstimatePayoutGas (err : EstimatePayoutGasErr)
  | preBlockCallFailed
  | insertPayoutTxErr (err : InsertPayoutTxErr)
  | bundleConsistencyCheckFailed (err : BuiltBlockTraceError)
  | finalizeError (err : FinalizeError)
  | historicalBlockError (err : HistoricalBlockError)
  | blockFinalizedIncorrectly

structure Block where
  trace : BuiltBlockTrace
  sealedBlock : SealedBlock
  executionRequests : List Bytes

/-- How constraint transactions are read and errors are written. -/
structure ConstraintEnv where
  /-- `RawTx::decode` without blob data, with the text of its error. -/
  decode : Bytes → Except String Tx
  debugCriticalError : CriticalCommitOrderError → String

abbrev HelperExec (δ α : Type) := Exec (BlockBuildingHelper δ) Empty BlockBuildingHelperError α

section

variable {δ η : Type} (evm : Evm δ) (ctx : BlockBuildingContext) (raw : ConstraintEnv)
  (env : SealEnv δ η)

namespace BlockBuildingHelper

def onBuild {C E α : Type} (m : Exec (BuildState δ) C E α) : Exec (BlockBuildingHelper δ) C E α :=
  m.zoom build fun b helper => { helper with build := b }

def modifyTrace {C E : Type} (f : BuiltBlockTrace → BuiltBlockTrace) :
    Exec (BlockBuildingHelper δ) C E Unit := fun helper =>
  (.ok (), { helper with builtBlockTrace := f helper.builtBlockTrace })

/-- `new_with_execution_tracer`, when the check of the historical block hashes gave `health`. -/
def new (health : Except HistoricalBlockError Unit) (discardTxs : Bool) :
    Except BlockBuildingHelperError (BlockBuildingHelper δ) := do
  health.mapError .historicalBlockError
  let feeRecipientBalanceStart ← (evm.balance {} ctx.suggestedFeeRecipient).mapError .providerError
  match PartialBlock.preBlockCall ctx env.protocol ⟨{ discardTxs }, {}⟩ with
  | (.ok (), b) =>
    let payoutTxSpace ← (estimatePayoutGasLimit evm ctx ctx.suggestedFeeRecipient b.blockState
      .zero).mapError .unableToEstimatePayoutGas
    let partialBlock := { b.partialBlock with
      spaceState := b.partialBlock.spaceState.reserveBlockSpace payoutTxSpace }
    return { feeRecipientBalanceStart, build := { b with partialBlock },
             payoutTxGas := payoutTxSpace.gas }
  | _ => throw .preBlockCallFailed

/-- Forwards to the block and updates the trace. -/
def commitOrder (hashOrder : HashOrder) (order : Order)
    (resultFilter : SimValue → Except ExecutionError Unit) :
    Exec (BlockBuildingHelper δ) CriticalCommitOrderError ExecutionError ExecutionResult := do
  let res ← onBuild (PartialBlock.commitOrder evm ctx hashOrder order resultFilter)
  modifyTrace fun trace => { trace with includedOrders := trace.includedOrders ++ [res] }
  pure res

def trueBlockValue (helper : BlockBuildingHelper δ) : Except BlockBuildingHelperError Nat :=
  (helper.build.partialBlock.getProposerPayoutTxValue ctx helper.payoutTxGas).mapError
    .insertPayoutTxErr

/-! ### Constraint transactions -/

def decodeConstraintTx (rawTx : Bytes) : Except BlockBuildingHelperError Tx :=
  (raw.decode rawTx).mapError fun e =>
    .providerError (.databaseOther s!"Failed to decode constraint transaction: {e}")

def computeConstraintTxHash (rawTx : Bytes) : Except BlockBuildingHelperError B256 :=
  (decodeConstraintTx raw rawTx).map (·.hash)

/-- What an executed constraint transaction used and earned is added to the block. A loss
    is added as well (`unsigned_abs`). -/
def addConstraintTx (block : PartialBlock) (ok : TransactionOk) : PartialBlock :=
  { block with
    spaceState := block.spaceState.useSpace ok.spaceUsed
    coinbaseProfit := block.coinbaseProfit + ok.txInfo.coinbaseProfit.natAbs
    executedTxInfos := block.executedTxInfos ++ [ok.txInfo] }

/-- Whether the transaction was appended to the block. -/
def executeConstraintTransaction (rawTx : Bytes) : HelperExec δ Bool := do
  let tx ← .ofExcept (decodeConstraintTx raw rawTx)
  let helper ← .getState
  let res ← onBuild <|
    (onFork (commitTx evm ctx tx helper.build.partialBlock.spaceState)).attempt.report id fun err =>
      let text := raw.debugCriticalError err
      .providerError (.databaseOther s!"Critical error executing constraint transaction: {text}")
  match res with
  | .ok ok =>
    onBuild (modifyBlock fun block => addConstraintTx block ok)
    pure true
  | .error _ => pure false

/-- Whether a constraint transaction is among the hashes; one that cannot be decoded is not. -/
def isIncluded (executed : List B256) (rawTx : Bytes) : Bool :=
  match computeConstraintTxHash raw rawTx with
  | .ok hash => executed.contains hash
  | .error _ => false

/-- The hash of the last transaction is tracked. -/
def trackLastTx : HelperExec δ Unit := do
  let helper ← .getState
  match helper.build.partialBlock.executedTxInfos.getLast? with
  | some last => modifyTrace fun trace => { trace with
      appendedConstraintTxs := trace.appendedConstraintTxs ++ [last.tx.hash] }
  | none => pure ()

/-- The loop over the transactions of the constraints; `executed` are the hashes of the
    transactions that were in the block before it. -/
def appendConstraintTxs (executed : List B256) : List Bytes → HelperExec δ Unit
  | [] => pure ()
  | rawTx :: rest =>
    if isIncluded raw executed rawTx then appendConstraintTxs executed rest
    else do
      if ← executeConstraintTransaction evm ctx raw rawTx then trackLastTx
      appendConstraintTxs executed rest

def insertConstraintTransactions : HelperExec δ Unit := do
  if ctx.constraints.isEmpty then return
  let helper ← .getState
  appendConstraintTxs evm ctx raw (helper.build.partialBlock.executedTxInfos.map (·.tx.hash))
    ctx.constraints.flatten

/-! ### Finalization -/

section

variable (hashOrder : HashOrder) (payoutTxValue : Nat) (subsidy : Int)

def finalizeBlockExecution (adjustFinalizedBlock : Bool)
    (revertState : FinalizeRevertStateCurrentIteration) :
    HelperExec δ FinalizeRevertStateCurrentIteration := do
  let helper ← .getState
  modifyTrace fun trace =>
    { trace with coinbaseReward := helper.build.partialBlock.coinbaseProfit }
  insertConstraintTransactions evm ctx raw
  let revertState ← onBuild <|
    (PartialBlock.insertRefundsAndProposerPayoutTx evm ctx hashOrder helper.payoutTxGas
      payoutTxValue adjustFinalizedBlock revertState).mapErr .insertPayoutTxErr
  let helper ← .getState
  let trueBidValue ← .ofExcept (helper.trueBlockValue ctx)
  let feeRecipientBalanceAfter ← .ofExcept
    ((evm.balance helper.build.blockState ctx.suggestedFeeRecipient).mapError .providerError)
  let feeRecipientBalanceDiff := feeRecipientBalanceAfter - helper.feeRecipientBalanceStart
  modifyTrace fun trace => { trace with
    bidValue := max payoutTxValue feeRecipientBalanceDiff
    subsidy, trueBidValue, mevBlockerPrice := ctx.mevBlockerPrice }
  pure revertState

/-- What `finalize_block` and `adjust_finalized_block` do before the block is sealed. -/
def prepareFinalize (adjustFinalizedBlock : Bool) : HelperExec δ FinalizeAdjustmentState := do
  let helper ← .getState
  if adjustFinalizedBlock ≠ helper.finalizeAdjustmentState.isSome then
    .fail .blockFinalizedIncorrectly
  else
    let adjustmentState := helper.finalizeAdjustmentState.getD {}
    .setState { helper with finalizeAdjustmentState := none }
    if adjustFinalizedBlock then
      onBuild (PartialBlock.adjustFinalizeBlockRevertToPrefinalizedState adjustmentState.revertState)
    let revertState ← finalizeBlockExecution evm ctx raw hashOrder payoutTxValue subsidy
      adjustFinalizedBlock {}
    if !adjustFinalizedBlock then
      let helper ← .getState
      .ofExcept ((helper.builtBlockTrace.verifyBundleConsistency ctx.blocklist).mapError
        .bundleConsistencyCheckFailed)
    pure { adjustmentState with revertState }

/-- The state of a finalization: the helper and the caches of the thread. -/
abbrev FinalizeState (δ η : Type) := BlockBuildingHelper δ × ThreadBlockBuildingContext η

def finalizeBlockImpl (seenCompetitionBid : Option Nat) (adjustFinalizedBlock : Bool) :
    Exec (FinalizeState δ η) Empty BlockBuildingHelperError Block := do
  let adjustmentState ← (prepareFinalize evm ctx raw hashOrder payoutTxValue subsidy
    adjustFinalizedBlock).zoom Prod.fst fun helper s => (helper, s.2)
  let (finalized, adjustmentState) ←
    ((PartialBlock.finalize ctx env hashOrder adjustFinalizedBlock adjustmentState).mapErr
      .finalizeError).zoom (fun s => (s.1.build, s.2)) fun r s => ({ s.1 with build := r.1 }, r.2)
  let (helper, localCtx) ← .getState
  let trace := { helper.builtBlockTrace with seenCompetitionBid }
  .setState ({ helper with
    builtBlockTrace := trace, finalizeAdjustmentState := some adjustmentState }, localCtx)
  pure { trace, sealedBlock := finalized.sealedBlock,
         executionRequests := finalized.executionRequests }

def finalizeBlock (seenCompetitionBid : Option Nat) :
    Exec (FinalizeState δ η) Empty BlockBuildingHelperError Block :=
  finalizeBlockImpl evm ctx raw env hashOrder payoutTxValue subsidy seenCompetitionBid false

def adjustFinalizedBlock (seenCompetitionBid : Option Nat) :
    Exec (FinalizeState δ η) Empty BlockBuildingHelperError Block :=
  finalizeBlockImpl evm ctx raw env hashOrder payoutTxValue subsidy seenCompetitionBid true

end

end BlockBuildingHelper

end

end Building
