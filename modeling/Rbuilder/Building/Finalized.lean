/-
  What a finalization that returned has done.

  Each lemma takes one function of the finalization apart: it returned exactly if its parts
  did, one after the other.
-/
import Rbuilder.Building.Calls

namespace Building

open SparseMpt Rollback PartialBlock List

variable {δ η : Type} {evm : Evm δ} {ctx : BlockBuildingContext} {raw : ConstraintEnv}
  {env : SealEnv δ η}

/-! ## Refunds and the proposer's payout -/

section Payout

variable {b b' : BuildState δ} {hashOrder : HashOrder} {payoutTxGas : UInt64} {value : Nat}

/-- The space that was reserved is free. -/
def BuildState.freed (b : BuildState δ) : BuildState δ :=
  { b with partialBlock := { b.partialBlock with
      spaceState := b.partialBlock.spaceState.freeReservedBlockSpace } }

/-- The refunds that were paid, from the nonce and the block of the first to those after
    the last. -/
inductive RefundRun (evm : Evm δ) (ctx : BlockBuildingContext) :
    Payouts → UInt64 → BuildState δ → UInt64 → BuildState δ → Prop
  | nil {nonce : UInt64} {b : BuildState δ} : RefundRun evm ctx [] nonce b nonce b
  | skipped {recipient : Address} {amount : Nat} {entries : Payouts}
      {nonce nonce' : UInt64} {b b' : BuildState δ}
      (h : RefundRun evm ctx entries nonce b nonce' b') :
      RefundRun evm ctx (⟨recipient, amount⟩ :: entries) nonce b nonce' b'
  | paid {recipient : Address} {amount : Nat} {entries : Payouts}
      {nonce nonce' : UInt64} {tx : Tx} {info : TransactionExecutionInfo} {b b₁ b' : BuildState δ}
      (hcode : evm.codeHash b.blockState recipient = .ok emptyCodeHash)
      (htx : createPayoutTx ctx nonce recipient baseTxGas amount = .ok tx)
      (hpaid : Paid evm ctx tx b info b₁)
      (h : RefundRun evm ctx entries (nonce + 1) b₁ nonce' b') :
      RefundRun evm ctx (⟨recipient, amount⟩ :: entries) nonce b nonce' b'

theorem payCombinedRefunds_ok {entries : Payouts} {nonce nonce' : UInt64}
    (h : payCombinedRefunds evm ctx entries nonce b = (.ok nonce', b')) :
    RefundRun evm ctx entries nonce b nonce' b' := by
  induction entries generalizing nonce b with
  | nil =>
    obtain ⟨rfl, rfl⟩ := Exec.pure_eq_ok.mp h
    exact .nil
  | cons entry entries ih =>
    simp only [payCombinedRefunds, Exec.bind_eq_ok, Exec.getState_eq_ok, Exec.ofExcept_eq_ok,
      mapError_eq_ok] at h
    obtain ⟨_, _, ⟨rfl, rfl⟩, codeHash, _, ⟨hcode, rfl⟩, h⟩ := h
    split at h
    · exact .skipped (ih h)
    rename_i hempty
    simp only [Exec.bind_eq_ok, Exec.ofExcept_eq_ok, mapError_eq_ok] at h
    obtain ⟨tx, _, ⟨htx, rfl⟩, _, b₁, hpay, h⟩ := h
    obtain ⟨info, -, hpaid⟩ := (commitPayout_holds ..).of_ok hpay
    rw [not_not.mp hempty] at hcode
    exact .paid hcode htx hpaid (ih h)

/-- The refunds are paid, if it is not an adjustment, and then the proposer. -/
theorem insertRefundsAndProposerPayoutTx_ok {adjust : Bool}
    {revertState revertState' : FinalizeRevertStateCurrentIteration}
    (h : insertRefundsAndProposerPayoutTx evm ctx hashOrder payoutTxGas value adjust
      revertState b = (.ok revertState', b')) :
    ∃ nonce nonce' b₁ tx info, RefundRun evm ctx (if adjust then [] else
        hashOrder.order b.partialBlock.combinedRefunds.entries) nonce b.freed nonce' b₁ ∧
      createPayoutTx ctx nonce' ctx.suggestedFeeRecipient payoutTxGas value = .ok tx ∧
      Paid evm ctx tx b₁ info b' ∧ revertState'.lastTxBlockSpace = info.spaceUsed := by
  unfold insertRefundsAndProposerPayoutTx at h
  cases adjust with
  | true =>
    simp [mapError_eq_ok] at h
    obtain ⟨nonce, -, tx, htx, space, hpay, rfl⟩ := h
    obtain ⟨info, rfl, hpaid⟩ := (commitPayout_holds ..).of_ok hpay
    exact ⟨nonce, nonce, b.freed, tx, info, .nil, htx, hpaid, rfl⟩
  | false =>
    simp [mapError_eq_ok] at h
    obtain ⟨nonce, -, nonce', b₁, hrefunds, tx, htx, space, hpay, rfl⟩ := h
    obtain ⟨info, rfl, hpaid⟩ := (commitPayout_holds ..).of_ok hpay
    exact ⟨nonce, nonce', b₁, tx, info, payCombinedRefunds_ok hrefunds, htx, hpaid, rfl⟩

end Payout

section Infos

variable {b b' : BuildState δ} {hashOrder : HashOrder} {payoutTxGas : UInt64} {value : Nat}

/-- What the refunds add to the block. -/
theorem RefundRun.infos {entries : Payouts} {nonce nonce' : UInt64}
    (h : RefundRun evm ctx entries nonce b nonce' b') :
    ∃ infos, b'.partialBlock.executedTxInfos = b.partialBlock.executedTxInfos ++ infos ∧
      ∀ info ∈ infos, IsCreated ctx info.tx := by
  induction h with
  | nil => exact ⟨[], (append_nil _).symm, forall_mem_nil _⟩
  | skipped _ ih => exact ih
  | @paid recipient amount _ nonce _ tx info b b₁ _ _ htx hpaid _ ih =>
    obtain ⟨infos, hinfos, hcreated⟩ := ih
    refine ⟨info :: infos, ?_, forall_mem_cons.mpr ⟨⟨_, _, _, _, hpaid.tx ▸ htx⟩, hcreated⟩⟩
    rw [hinfos, hpaid.block, append_assoc, singleton_append]

/-- What the refunds and the proposer's payout add to the block; the payout is the last
    transaction. -/
theorem insertRefundsAndProposerPayoutTx_infos {adjust : Bool}
    {revertState revertState' : FinalizeRevertStateCurrentIteration}
    (h : insertRefundsAndProposerPayoutTx evm ctx hashOrder payoutTxGas value adjust
      revertState b = (.ok revertState', b')) :
    ∃ infos info, b'.partialBlock.executedTxInfos =
        b.partialBlock.executedTxInfos ++ infos ++ [info] ∧
      ∀ i ∈ infos ++ [info], IsCreated ctx i.tx := by
  obtain ⟨_, _, _, _, info, hrun, htx, hpaid, -⟩ := insertRefundsAndProposerPayoutTx_ok h
  obtain ⟨infos, hinfos, hpayouts⟩ := hrun.infos
  refine ⟨infos, info, ?_, forall_mem_append.mpr ⟨hpayouts, ?_⟩⟩
  · rw [hpaid.block, hinfos]
    rfl
  · exact forall_mem_singleton.mpr ⟨_, _, _, _, hpaid.tx ▸ htx⟩

/-! However the payouts end, the block has only grown. -/

variable {base : List TransactionExecutionInfo}

theorem commitPayout_grows (reverted : InsertPayoutTxErr) (tx : Tx)
    (h : base <+: b.partialBlock.executedTxInfos) :
    (commitPayout evm ctx reverted tx).Ends b fun b' =>
      base <+: b'.partialBlock.executedTxInfos := by
  refine .getState_bind ?_
  refine .bind (.report (onFork_ends fun _ => h)) fun ok b₁ hfork => ?_
  have hgrown : base <+: b₁.partialBlock.executedTxInfos := by
    obtain ⟨f, -, rfl⟩ := onFork_eq_ok.mp (Exec.report_eq_ok.mp hfork)
    exact h
  split
  · exact .fail hgrown
  · exact hgrown.trans (prefix_append ..)

theorem payCombinedRefunds_grows (entries : Payouts) (nonce : UInt64)
    (h : base <+: b.partialBlock.executedTxInfos) :
    (payCombinedRefunds evm ctx entries nonce).Ends b fun b' =>
      base <+: b'.partialBlock.executedTxInfos := by
  induction entries generalizing nonce b with
  | nil => exact .pure h
  | cons entry entries ih =>
    refine .getState_bind ?_
    refine .ofExcept_bind h fun codeHash _ => ?_
    split
    · exact ih nonce h
    · refine .ofExcept_bind h fun tx _ => ?_
      refine .bind (commitPayout_grows _ tx h) fun _ b₁ hpay => ?_
      exact ih _ ((commitPayout_grows _ tx h).of_eq hpay)

theorem insertRefundsAndProposerPayoutTx_grows (adjust : Bool)
    (revertState : FinalizeRevertStateCurrentIteration)
    (h : base <+: b.partialBlock.executedTxInfos) :
    (insertRefundsAndProposerPayoutTx evm ctx hashOrder payoutTxGas value adjust
      revertState).Ends b fun b' => base <+: b'.partialBlock.executedTxInfos := by
  refine .bind (by exact h) fun _ b₁ hfree => ?_
  obtain rfl := modifyBlock_eq_ok.mp hfree
  refine .getState_bind ?_
  refine .ofExcept_bind h fun nonce _ => ?_
  have hrest : ∀ nonce (b₁ : BuildState δ), base <+: b₁.partialBlock.executedTxInfos →
      (Exec.ofExcept ((createPayoutTx ctx nonce ctx.suggestedFeeRecipient payoutTxGas value).mapError
          .signerError) >>= fun tx => commitPayout evm ctx .payoutTxReverted tx >>= fun spaceUsed =>
          pure (⟨spaceUsed, revertState.stateReverts + 1⟩ :
            FinalizeRevertStateCurrentIteration)).Ends b₁
        fun b' => base <+: b'.partialBlock.executedTxInfos := by
    intro nonce b₁ hgrown
    refine .ofExcept_bind hgrown fun tx _ => ?_
    refine .bind (commitPayout_grows _ tx hgrown) fun _ b₂ hpay => ?_
    exact .pure ((commitPayout_grows _ tx hgrown).of_eq hpay)
  cases adjust with
  | true => exact hrest nonce _ h
  | false =>
    have hfreed : base <+: b.freed.partialBlock.executedTxInfos := h
    refine .bind (payCombinedRefunds_grows _ nonce hfreed) fun nonce' b₁ hpaid => ?_
    exact hrest nonce' b₁ ((payCombinedRefunds_grows _ nonce hfreed).of_eq hpaid)

end Infos

/-! ## Sealing -/

section Seal

variable {b b' : BuildState δ} {hashOrder : HashOrder}

theorem processRequests_eq_ok {protocol : BlockProtocol δ}
    {r : Option (List Bytes) × Option B256} :
    processRequests ctx protocol hashOrder b = (.ok r, b') ↔
      ∃ changes, requestChanges ctx protocol hashOrder b = .ok (r, changes) ∧
        b.merged changes = b' := by
  unfold processRequests
  simp only [Exec.bind_eq_ok, Exec.getState_eq_ok, Exec.ofExcept_eq_ok, Exec.setState_eq_ok,
    Exec.pure_eq_ok]
  constructor
  · rintro ⟨_, _, ⟨rfl, rfl⟩, ⟨_, changes⟩, _, ⟨hchanges, rfl⟩, _, _, rfl, rfl, rfl⟩
    exact ⟨changes, hchanges, rfl⟩
  · rintro ⟨changes, hchanges, rfl⟩
    exact ⟨_, _, ⟨rfl, rfl⟩, ⟨r, changes⟩, _, ⟨hchanges, rfl⟩, (), _, rfl, rfl, rfl⟩

/-- What sealing computes. -/
structure SealedParts (δ η : Type) where
  requests : Option (List Bytes)
  withdrawalsRoot : Option B256
  changes : δ
  bloomCache : ReceiptsDataCache
  receipts : ReceiptsData
  stateRoot : B256
  rootHashCalculator : η
  txRootCache : TransactionRootCache
  transactionsRoot : B256
  transactionProof : List Bytes

namespace SealedParts

variable (parts : SealedParts δ η)

/-- The undo records that sealing leaves behind. -/
def adjustmentState (env : SealEnv δ η) (before : FinalizeAdjustmentState) (b : BuildState δ) :
    FinalizeAdjustmentState :=
  let revertState := { before.revertState with stateReverts := before.revertState.stateReverts + 1 }
  { revertState
    previousFinalizeData :=
      ⟨getChangesForLastReverts env (b.merged parts.changes).blockState revertState.stateReverts⟩ }

/-- How the parts are computed, from the block, the caches of the thread and the records of
    the sealing before. -/
structure Of (ctx : BlockBuildingContext) (env : SealEnv δ η) (hashOrder : HashOrder) (adjust : Bool)
    (before : FinalizeAdjustmentState) (b : BuildState δ) (localCtx : ThreadBlockBuildingContext η) :
    Prop where
  requests : requestChanges ctx env.protocol hashOrder b =
    .ok ((parts.requests, parts.withdrawalsRoot), parts.changes)
  receipts : calculateReceiptsData env.encoders localCtx.bloomCache b.partialBlock.executedTxInfos
    ctx.fasterFinalize adjust = some (parts.bloomCache, parts.receipts)
  stateRoot : env.rootHasher.stateRoot (b.merged parts.changes).blockState
    (incrementalChange adjust before.previousFinalizeData.accountChangedPreviousIteration
      (parts.adjustmentState env before b).previousFinalizeData.accountChangedPreviousIteration)
    localCtx.rootHashCalculator = (.ok parts.stateRoot, parts.rootHashCalculator)
  transactions : calculateTxRootAndPlaceholderProof env.encoders localCtx.txRootCache
    b.partialBlock.executedTxInfos ctx.fasterFinalize adjust =
      some (parts.txRootCache, parts.transactionsRoot, parts.transactionProof)

def sealedBlock (ctx : BlockBuildingContext) (env : SealEnv δ η) (b : BuildState δ) : SealedBlock where
  header := sealHeader ctx b.partialBlock parts.stateRoot parts.transactionsRoot parts.receipts
    parts.withdrawalsRoot (parts.requests.map env.protocol.requestsHash)
  transactions := b.partialBlock.executedTxInfos.map (·.tx)
  withdrawals := if ctx.isShanghai then some ctx.withdrawals else none

def result (ctx : BlockBuildingContext) (env : SealEnv δ η) (b : BuildState δ) : FinalizeResult where
  sealedBlock := parts.sealedBlock ctx env b
  executionRequests := parts.requests.getD []

/-- The caches of the thread after sealing. -/
def localCtx (env : SealEnv δ η) (b : BuildState δ) : ThreadBlockBuildingContext η where
  bloomCache := parts.bloomCache
  txRootCache := parts.txRootCache
  rootHashCalculator :=
    env.rootHasher.accountProofs (b.merged parts.changes).blockState parts.rootHashCalculator

end SealedParts

theorem finalize_eq_ok {adjust : Bool} {before : FinalizeAdjustmentState}
    {localCtx : ThreadBlockBuildingContext η} {out : FinalizeResult × FinalizeAdjustmentState}
    {s' : SealState δ η} :
    finalize ctx env hashOrder adjust before (b, localCtx) = (.ok out, s') ↔
      ∃ parts : SealedParts δ η, parts.Of ctx env hashOrder adjust before b localCtx ∧
        (parts.result ctx env b, parts.adjustmentState env before b) = out ∧
        (b.merged parts.changes, parts.localCtx env b) = s' := by
  unfold finalize
  simp only [Exec.bind_eq_ok, Exec.zoom_eq_ok, Exec.mapErr_eq_ok, processRequests_eq_ok,
    Exec.getState_eq_ok, Exec.unwrap_eq_ok, Exec.setState_eq_ok, Exec.ofExcept_eq_ok,
    mapError_eq_ok, Exec.pure_eq_ok]
  constructor
  · rintro ⟨⟨requests, withdrawalsRoot⟩, _, ⟨_, ⟨changes, hchanges, rfl⟩, rfl⟩, _, _, ⟨rfl, rfl⟩,
      ⟨bloomCache, receipts⟩, _, ⟨hreceipts, rfl⟩, _, _, rfl, stateRoot, _, ⟨hroot, rfl⟩,
      ⟨txRootCache, transactionsRoot, proof⟩, _, ⟨htxs, rfl⟩, _, _, rfl, rfl, rfl⟩
    refine ⟨⟨requests, withdrawalsRoot, changes, bloomCache, receipts, stateRoot, _, txRootCache,
      transactionsRoot, proof⟩, ⟨hchanges, hreceipts, Prod.ext hroot rfl, htxs⟩, rfl, rfl⟩
  rintro ⟨parts, hparts, rfl, rfl⟩
  have hroot := congrArg Prod.fst hparts.stateRoot
  have hcalculator := congrArg Prod.snd hparts.stateRoot
  refine ⟨(parts.requests, parts.withdrawalsRoot), _, ⟨_, ⟨parts.changes, hparts.requests, rfl⟩,
    rfl⟩, _, _, ⟨rfl, rfl⟩, (parts.bloomCache, parts.receipts), _, ⟨hparts.receipts, rfl⟩, (), _,
    rfl, parts.stateRoot, _, ⟨hroot, rfl⟩, (parts.txRootCache, parts.transactionsRoot,
    parts.transactionProof), _, ⟨hparts.transactions, rfl⟩, (), _, rfl, rfl, ?_⟩
  exact congrArg (fun calculator => (b.merged parts.changes,
    (⟨parts.bloomCache, parts.txRootCache, env.rootHasher.accountProofs
      (b.merged parts.changes).blockState calculator⟩ : ThreadBlockBuildingContext η))) hcalculator

/-- However sealing ends, the transactions are the same. -/
theorem finalize_partialBlock (adjust : Bool) (before : FinalizeAdjustmentState)
    (localCtx : ThreadBlockBuildingContext η) :
    (finalize ctx env hashOrder adjust before).Ends (b, localCtx) fun s =>
      s.1.partialBlock = b.partialBlock := by
  have hrequests : (processRequests ctx env.protocol hashOrder).Ends b fun b' =>
      b'.partialBlock = b.partialBlock := by
    refine .getState_bind ?_
    refine .ofExcept_bind rfl fun _ _ => ?_
    exact rfl
  refine .bind (.zoom (.mapErr hrequests)) fun r s hcall => ?_
  obtain ⟨b₁, hb₁, rfl⟩ := Exec.zoom_eq_ok.mp hcall
  have hsame : b₁.partialBlock = b.partialBlock := hrequests.of_eq (Exec.mapErr_eq_ok.mp hb₁)
  refine .getState_bind ?_
  refine .unwrap_bind hsame fun _ _ => ?_
  refine .setState_bind ?_
  refine .ofExcept_bind hsame fun _ _ => ?_
  refine .unwrap_bind hsame fun _ _ => ?_
  exact hsame

end Seal

/-! ## The helper -/

namespace BlockBuildingHelper

variable {helper helper' : BlockBuildingHelper δ} {hashOrder : HashOrder} {value : Nat}
  {subsidy : Int} {adjust : Bool}

/-- The coinbase reward is traced. -/
def withReward (helper : BlockBuildingHelper δ) : BlockBuildingHelper δ :=
  { helper with builtBlockTrace := { helper.builtBlockTrace with
      coinbaseReward := helper.build.partialBlock.coinbaseProfit } }

/-- The bid is traced. -/
def withBid (ctx : BlockBuildingContext) (helper : BlockBuildingHelper δ) (value : Nat)
    (subsidy : Int) (trueBidValue feeRecipientBalance : Nat) : BlockBuildingHelper δ :=
  { helper with builtBlockTrace := { helper.builtBlockTrace with
      bidValue := max value (feeRecipientBalance - helper.feeRecipientBalanceStart)
      subsidy, trueBidValue, mevBlockerPrice := ctx.mevBlockerPrice } }

theorem finalizeBlockExecution_eq_ok
    {revertState revertState' : FinalizeRevertStateCurrentIteration} :
    finalizeBlockExecution evm ctx raw hashOrder value subsidy adjust revertState helper =
        (.ok revertState', helper') ↔
      ∃ helper₁, insertConstraintTransactions evm ctx raw helper.withReward = (.ok (), helper₁) ∧
        ∃ b, insertRefundsAndProposerPayoutTx evm ctx hashOrder helper.payoutTxGas value
            adjust revertState helper₁.build = (.ok revertState', b) ∧
          ∃ trueBidValue, trueBlockValue ctx { helper₁ with build := b } = .ok trueBidValue ∧
            ∃ balance, evm.balance b.blockState ctx.suggestedFeeRecipient = .ok balance ∧
              ({ helper₁ with build := b } : BlockBuildingHelper δ).withBid ctx value subsidy
                trueBidValue balance = helper' := by
  unfold finalizeBlockExecution
  simp [onBuild_eq_ok, mapError_eq_ok, withReward, withBid, Unique.exists_iff]

variable {adjustmentState : FinalizeAdjustmentState}

theorem prepareFinalize_eq_ok :
    prepareFinalize evm ctx raw hashOrder value subsidy false helper =
        (.ok adjustmentState, helper') ↔
      helper.finalizeAdjustmentState = none ∧
        ∃ revertState, finalizeBlockExecution evm ctx raw hashOrder value subsidy false {} helper =
            (.ok revertState, helper') ∧
          helper'.builtBlockTrace.verifyBundleConsistency ctx.blocklist = .ok () ∧
          ({ revertState } : FinalizeAdjustmentState) = adjustmentState := by
  unfold prepareFinalize
  cases hstate : helper.finalizeAdjustmentState with
  | some state => simp [hstate]
  | none =>
    have hsame : { helper with finalizeAdjustmentState := none } = helper := by rw [← hstate]
    simp [hstate, hsame, mapError_eq_ok, Unique.exists_iff]

/-- The helper with the payout of the sealing before taken back. -/
def reverted (helper : BlockBuildingHelper δ) (revertState : FinalizeRevertStateCurrentIteration)
    (spaceState : BlockBuildingSpaceState) : BlockBuildingHelper δ :=
  { helper with
    build :=
      { partialBlock := { helper.build.partialBlock with
          spaceState
          executedTxInfos := helper.build.partialBlock.executedTxInfos.dropLast }
        blockState := helper.build.blockState.revert revertState.stateReverts }
    finalizeAdjustmentState := none }

theorem prepareAdjust_eq_ok :
    prepareFinalize evm ctx raw hashOrder value subsidy true helper =
        (.ok adjustmentState, helper') ↔
      ∃ state, helper.finalizeAdjustmentState = some state ∧
        ∃ spaceState, helper.build.partialBlock.spaceState.freeUsedState
            state.revertState.lastTxBlockSpace = some spaceState ∧
          ∃ revertState, finalizeBlockExecution evm ctx raw hashOrder value subsidy true {}
              (helper.reverted state.revertState spaceState) = (.ok revertState, helper') ∧
            { state with revertState } = adjustmentState := by
  unfold prepareFinalize
  cases hstate : helper.finalizeAdjustmentState with
  | none => simp [hstate]
  | some state =>
    simp [hstate, onBuild_eq_ok, adjustFinalizeBlockRevertToPrefinalizedState, reverted]

/-- The helper after its block was sealed. -/
def sealed (helper : BlockBuildingHelper δ) (env : SealEnv δ η) (before : FinalizeAdjustmentState)
    (parts : SealedParts δ η) (seenCompetitionBid : Option Nat) : BlockBuildingHelper δ :=
  { helper with
    build := helper.build.merged parts.changes
    builtBlockTrace := { helper.builtBlockTrace with seenCompetitionBid }
    finalizeAdjustmentState := some (parts.adjustmentState env before helper.build) }

theorem finalizeBlockImpl_eq_ok {seenCompetitionBid : Option Nat}
    {localCtx : ThreadBlockBuildingContext η} {block : Block} {s' : FinalizeState δ η} :
    finalizeBlockImpl evm ctx raw env hashOrder value subsidy seenCompetitionBid adjust
        (helper, localCtx) = (.ok block, s') ↔
      ∃ before helper₁, prepareFinalize evm ctx raw hashOrder value subsidy adjust helper =
          (.ok before, helper₁) ∧
        ∃ parts : SealedParts δ η, parts.Of ctx env hashOrder adjust before helper₁.build localCtx ∧
          (⟨(helper₁.sealed env before parts seenCompetitionBid).builtBlockTrace,
            parts.sealedBlock ctx env helper₁.build, parts.requests.getD []⟩ : Block) = block ∧
          (helper₁.sealed env before parts seenCompetitionBid, parts.localCtx env helper₁.build) =
            s' := by
  unfold finalizeBlockImpl
  simp [finalize_eq_ok, sealed, SealedParts.result]

end BlockBuildingHelper

end Building
