/-
  Sealing a block (`PartialBlock::finalize` of `building/mod.rs`).

  The requests and withdrawals are processed, then the roots are computed and the header is
  filled. A block that was sealed before is sealed again with another payout: the root
  hasher is told which accounts changed in this sealing or the one before.

  Blob sidecars, bid adjustments and the parts of the header that are copied from the
  attributes are left out.
-/
import Rbuilder.Building.Receipts

namespace Building

open SparseMpt Rollback

inductive RootHashError where
  | wrongDatabaseTrie
  | verification
  | other
  deriving DecidableEq

inductive FinalizeError where
  | rootHash (err : RootHashError)
  | blockExecution (err : BlockExecutionError)
  deriving DecidableEq

/-- The root hasher, with the caches `η` that it keeps in the context of a thread. -/
structure RootHasher (δ η : Type) where
  /-- The root of a state. Where accounts are listed, only they have changed since the
      call before. -/
  stateRoot : BlockState δ → List Address → η → Except RootHashError B256 × η
  /-- The state proofs of the bid adjustments go through the same caches. -/
  accountProofs : BlockState δ → η → η

structure ThreadBlockBuildingContext (η : Type) where
  bloomCache : ReceiptsDataCache := {}
  txRootCache : TransactionRootCache := {}
  rootHashCalculator : η

/-- What sealing takes from the libraries and the node. -/
structure SealEnv (δ η : Type) where
  protocol : BlockProtocol δ
  encoders : Encoders
  rootHasher : RootHasher δ η
  /-- The accounts in the revert record of a transition. -/
  revertedAccounts : δ → List Address

structure FinalizeCachePreviousIteration where
  accountChangedPreviousIteration : List Address := []

structure FinalizeAdjustmentState where
  revertState : FinalizeRevertStateCurrentIteration := {}
  previousFinalizeData : FinalizeCachePreviousIteration := {}

structure Header where
  beneficiary : Address
  stateRoot : B256
  transactionsRoot : B256
  receiptsRoot : B256
  withdrawalsRoot : Option B256
  logsBloom : Bloom
  timestamp : UInt64
  baseFeePerGas : UInt64
  number : UInt64
  gasLimit : UInt64
  gasUsed : UInt64
  blobGasUsed : Option Nat
  excessBlobGas : Option UInt64
  requestsHash : Option B256

structure SealedBlock where
  header : Header
  transactions : List Tx
  withdrawals : Option (List Withdrawal)

structure FinalizeResult where
  sealedBlock : SealedBlock
  executionRequests : List Bytes

/-- `Vec::dedup`: of equal neighbours one is kept. -/
def dedupAddresses : List Address → List Address
  | a :: b :: rest => if a = b then dedupAddresses (b :: rest) else a :: dedupAddresses (b :: rest)
  | rest => rest

def sortDedupAddresses (addresses : List Address) : List Address :=
  dedupAddresses (addresses.insertionSort fun a b => a.toList ≤ b.toList)

section

variable {δ η : Type} (ctx : BlockBuildingContext) (env : SealEnv δ η)

/-- The accounts changed by the last transitions. -/
def getChangesForLastReverts (state : BlockState δ) (numReverts : Nat) : List Address :=
  sortDedupAddresses ((state.entries.take numReverts).flatMap env.revertedAccounts)

/-- The accounts the root hasher is told about. -/
def incrementalChange (adjustFinalizeBlock : Bool) (previous current : List Address) :
    List Address :=
  if adjustFinalizeBlock then sortDedupAddresses (previous ++ current) else []

def sealHeader (block : PartialBlock) (stateRoot transactionsRoot : B256) (receipts : ReceiptsData)
    (withdrawalsRoot requestsHash : Option B256) : Header where
  beneficiary := ctx.beneficiary
  stateRoot
  transactionsRoot
  receiptsRoot := receipts.receiptsRoot
  withdrawalsRoot
  logsBloom := receipts.logsBloom
  timestamp := ctx.timestamp
  baseFeePerGas := ctx.basefee
  number := ctx.blockNumber
  gasLimit := ctx.gasLimit
  gasUsed := block.spaceState.gasUsed
  blobGasUsed := if ctx.isCancun then some block.spaceState.blobGasUsed else none
  excessBlobGas := if ctx.isCancun then ctx.excessBlobGas else none
  requestsHash

/-- The state of a sealing: the block that is built and the caches of the thread. -/
abbrev SealState (δ η : Type) := BuildState δ × ThreadBlockBuildingContext η

def PartialBlock.finalize (hashOrder : HashOrder) (adjustFinalizeBlock : Bool)
    (adjustmentState : FinalizeAdjustmentState) :
    Exec (SealState δ η) Empty FinalizeError (FinalizeResult × FinalizeAdjustmentState) := do
  let (requests, withdrawalsRoot) ←
    ((PartialBlock.processRequests ctx env.protocol hashOrder).mapErr .blockExecution).zoom
      Prod.fst fun b s => (b, s.2)
  let (b, localCtx) ← .getState
  let infos := b.partialBlock.executedTxInfos
  let revertState := { adjustmentState.revertState with
    stateReverts := adjustmentState.revertState.stateReverts + 1 }
  let (bloomCache, receipts) ← .unwrap (calculateReceiptsData env.encoders localCtx.bloomCache
    infos ctx.fasterFinalize adjustFinalizeBlock)
  let lastChanges := getChangesForLastReverts env b.blockState revertState.stateReverts
  let (root, rootHashCalculator) := env.rootHasher.stateRoot b.blockState
    (incrementalChange adjustFinalizeBlock
      adjustmentState.previousFinalizeData.accountChangedPreviousIteration lastChanges)
    localCtx.rootHashCalculator
  .setState (b, { localCtx with bloomCache, rootHashCalculator })
  let stateRoot ← .ofExcept (root.mapError .rootHash)
  let (txRootCache, transactionsRoot, _) ← .unwrap (calculateTxRootAndPlaceholderProof env.encoders
    localCtx.txRootCache infos ctx.fasterFinalize adjustFinalizeBlock)
  .setState (b,
    { bloomCache, txRootCache
      rootHashCalculator := env.rootHasher.accountProofs b.blockState rootHashCalculator })
  let header := sealHeader ctx b.partialBlock stateRoot transactionsRoot receipts withdrawalsRoot
    (requests.map env.protocol.requestsHash)
  let sealedBlock :=
    { header, transactions := infos.map (·.tx)
      withdrawals := if ctx.isShanghai then some ctx.withdrawals else none : SealedBlock }
  pure ({ sealedBlock, executionRequests := requests.getD [] },
    { revertState, previousFinalizeData := ⟨lastChanges⟩ })

end

end Building
