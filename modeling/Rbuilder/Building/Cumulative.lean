/-
  Receipts and the space of a block.

  The cumulative gas of each receipt is the gas of the transactions up to it, and the space
  used is the overhead of the header with that of all transactions (`Accumulated`). Every
  transaction is added with the space it used, whoever adds it; an adjustment takes the
  payout out again, with the space that was recorded for it. The record is that of the last
  transaction as long as nothing is added between the finalization and its adjustment.
-/
import Rbuilder.Building.Inclusion

namespace Building

open SparseMpt Rollback PartialBlock BlockBuildingHelper List

variable {δ η : Type} {evm : Evm δ} {ctx : BlockBuildingContext} {raw : ConstraintEnv}
  {env : SealEnv δ η}

/-! ## Lists of transactions -/

/-- The space that transactions used, in the arithmetic of the space state. -/
def spaceSum (infos : List TransactionExecutionInfo) : BlockSpace :=
  infos.foldl (fun sum info => sum + info.spaceUsed) .zero

theorem spaceSum_concat (infos : List TransactionExecutionInfo) (info : TransactionExecutionInfo) :
    spaceSum (infos ++ [info]) = spaceSum infos + info.spaceUsed := by
  rw [spaceSum, foldl_append]
  rfl

/-- From `overhead` the transactions lead to `used`, and each receipt has the gas up to it. -/
structure Accumulated (overhead : BlockSpace) (infos : List TransactionExecutionInfo)
    (used : BlockSpace) : Prop where
  receipts : ∀ i info, infos[i]? = some info →
    info.receipt.cumulativeGasUsed = (overhead + spaceSum (infos.take (i + 1))).gas
  space : used = overhead + spaceSum infos

section Accumulated

variable {overhead used used' reserved : BlockSpace} {infos infos' : List TransactionExecutionInfo}
  {info : TransactionExecutionInfo}

theorem Accumulated.snoc (h : Accumulated overhead infos used)
    (hinfo : info.receipt.cumulativeGasUsed = (used + info.spaceUsed).gas) :
    Accumulated overhead (infos ++ [info]) (used + info.spaceUsed) := by
  have hspace : used + info.spaceUsed = overhead + spaceSum (infos ++ [info]) := by
    rw [spaceSum_concat, ← BlockSpace.add_assoc, h.space]
  refine ⟨fun i info' hi => ?_, hspace⟩
  by_cases hlt : i < infos.length
  · rw [getElem?_append_left hlt] at hi
    rw [take_append_of_le_length (Nat.succ_le_of_lt hlt)]
    exact h.receipts i info' hi
  rw [getElem?_append_right (Nat.le_of_not_lt hlt), getElem?_singleton] at hi
  split at hi
  · cases hi
    have hi' : i = infos.length := by omega
    rw [hinfo, hspace, hi', take_of_length_le (by simp)]
  · cases hi

/-- The last transaction is taken out with the space it used. -/
theorem Accumulated.pop (h : Accumulated overhead (infos ++ [info]) used)
    (hfree : used.checkedSub info.spaceUsed = some used') : Accumulated overhead infos used' := by
  have hspace := h.space
  rw [spaceSum_concat, ← BlockSpace.add_assoc] at hspace
  refine ⟨fun i info' hi => ?_, ?_⟩
  · have hlt : i < infos.length := (List.getElem?_eq_some_iff.mp hi).1
    have hreceipt := h.receipts i info' (by rw [getElem?_append_left hlt, hi])
    rwa [take_append_of_le_length (Nat.succ_le_of_lt hlt)] at hreceipt
  unfold BlockSpace.checkedSub at hfree
  split at hfree
  · cases hfree
    rw [hspace]
    exact BlockSpace.ext (UInt64.add_sub_cancel ..) (Nat.add_sub_cancel ..) (Nat.add_sub_cancel ..)
  · cases hfree

variable {s s' : BlockState δ}

theorem Executed.accumulated
    (hexec : Executed evm ctx reserved used s infos' used' s') (h : Accumulated overhead infos used) :
    Accumulated overhead (infos ++ infos') used' := by
  induction hexec with
  | nil => rwa [append_nil]
  | snoc _ hc ih =>
    rw [← append_assoc]
    exact ih.snoc hc.cumulative

/-- The last receipt has the gas of the whole block. -/
theorem Accumulated.last (h : Accumulated overhead (infos ++ [info]) used) :
    info.receipt.cumulativeGasUsed = used.gas := by
  rw [h.receipts infos.length info (by simp), h.space, take_of_length_le (by simp)]

end Accumulated

/-! ## Calls -/

/-- The receipts and the space of a block with this overhead. -/
def PartialBlock.Consistent (overhead : BlockSpace) (block : PartialBlock) : Prop :=
  Accumulated overhead block.executedTxInfos block.spaceState.spaceUsed

section Calls

variable {overhead : BlockSpace} {b b' : BuildState δ}

theorem addOrder_spaceUsed (block : PartialBlock) (ok : OrderOk) :
    (block.addOrder ok).spaceState.spaceUsed = block.spaceState.spaceUsed + ok.spaceUsed := by
  unfold addOrder
  cases ok.delayedKickback with
  | none => rfl
  | some kickback =>
    dsimp only
    split <;> rfl

theorem OrderAdded.consistent {order : Order} {r : ExecutionResult}
    (h : OrderAdded evm ctx order b r b') (hb : b.partialBlock.Consistent overhead) :
    b'.partialBlock.Consistent overhead := by
  obtain ⟨-, ok, -, -, hblock, n, hdone⟩ := h
  rw [Consistent, hblock, addOrder_executedTxInfos, addOrder_spaceUsed, hdone.ran.space]
  exact hdone.ran.executed.accumulated hb

theorem Paid.consistent {tx : Tx} {info : TransactionExecutionInfo} (h : Paid evm ctx tx b info b')
    (hb : b.partialBlock.Consistent overhead) : b'.partialBlock.Consistent overhead := by
  rw [Consistent, h.block]
  exact hb.snoc h.committed.cumulative

theorem RefundRun.consistent {entries : Payouts} {nonce nonce' : UInt64}
    (h : RefundRun evm ctx entries nonce b nonce' b') (hb : b.partialBlock.Consistent overhead) :
    b'.partialBlock.Consistent overhead := by
  induction h with
  | nil => exact hb
  | skipped _ ih => exact ih hb
  | paid _ _ hpaid _ ih => exact ih (hpaid.consistent hb)

/-- The payout is the last transaction, with the space that is recorded for it. -/
def LastIsRecorded (revertState : FinalizeRevertStateCurrentIteration) (b : BuildState δ) : Prop :=
  ∃ infos info, b.partialBlock.executedTxInfos = infos ++ [info] ∧
    revertState.lastTxBlockSpace = info.spaceUsed

theorem insertRefundsAndProposerPayoutTx_consistent {hashOrder : HashOrder} {gas : UInt64}
    {value : Nat} {adjust : Bool} {revertState revertState' : FinalizeRevertStateCurrentIteration}
    (hcall : insertRefundsAndProposerPayoutTx evm ctx hashOrder gas value adjust
      revertState b = (.ok revertState', b')) (hb : b.partialBlock.Consistent overhead) :
    b'.partialBlock.Consistent overhead ∧ LastIsRecorded revertState' b' := by
  obtain ⟨_, _, _, _, info, hrun, -, hpaid, hspace⟩ := insertRefundsAndProposerPayoutTx_ok hcall
  exact ⟨hpaid.consistent (hrun.consistent hb), _, info, by rw [hpaid.block], hspace⟩

end Calls

namespace BlockBuildingHelper

variable {overhead : BlockSpace} {helper helper' : BlockBuildingHelper δ}

theorem ConstraintRun.consistent {executed : List B256} {raws : List Bytes}
    (h : ConstraintRun evm ctx raw executed helper raws helper')
    (hb : helper.build.partialBlock.Consistent overhead) :
    helper'.build.partialBlock.Consistent overhead := by
  induction h with
  | nil => exact hb
  | skipped _ _ _ ih | rejected _ _ _ _ ih => exact ih hb
  | appended _ _ htry _ ih =>
    obtain ⟨-, hc, -⟩ := (commitTx_holds ..).of_ok htry
    exact ih (hb.snoc hc.cumulative)

variable {hashOrder : HashOrder} {value : Nat} {subsidy : Int} {adjust : Bool}

theorem finalizeBlockExecution_consistent
    {revertState revertState' : FinalizeRevertStateCurrentIteration}
    (hcall : finalizeBlockExecution evm ctx raw hashOrder value subsidy adjust revertState helper =
      (.ok revertState', helper')) (hb : helper.build.partialBlock.Consistent overhead) :
    helper'.build.partialBlock.Consistent overhead ∧ LastIsRecorded revertState' helper'.build := by
  obtain ⟨inserted, hinsert, b, hpay, _, -, _, -, rfl⟩ := finalizeBlockExecution_eq_ok.mp hcall
  have hinserted := (insertConstraintTransactions_ok hinsert).consistent hb
  exact insertRefundsAndProposerPayoutTx_consistent hpay hinserted

/-- Where a finalization is recorded, it is that of the last transaction. -/
def Settled (helper : BlockBuildingHelper δ) : Prop :=
  ∀ state, helper.finalizeAdjustmentState = some state →
    LastIsRecorded state.revertState helper.build

theorem prepareFinalize_consistent {state : FinalizeAdjustmentState}
    (hcall : prepareFinalize evm ctx raw hashOrder value subsidy adjust helper =
      (.ok state, helper')) (hb : helper.build.partialBlock.Consistent overhead)
    (hsettled : adjust = true → helper.Settled) :
    helper'.build.partialBlock.Consistent overhead ∧ LastIsRecorded state.revertState helper'.build := by
  cases adjust with
  | false =>
    obtain ⟨-, revertState, hexec, -, rfl⟩ := prepareFinalize_eq_ok.mp hcall
    exact finalizeBlockExecution_consistent hexec hb
  | true =>
    obtain ⟨before, hsome, spaceState, hspace, revertState, hexec, rfl⟩ :=
      prepareAdjust_eq_ok.mp hcall
    obtain ⟨infos, info, hinfos, hrecorded⟩ := hsettled rfl before hsome
    refine finalizeBlockExecution_consistent hexec ?_
    obtain ⟨used, hused, rfl⟩ := Option.map_eq_some_iff.mp hspace
    rw [hrecorded] at hused
    change Accumulated overhead helper.build.partialBlock.executedTxInfos.dropLast used
    rw [Consistent, hinfos] at hb
    rw [hinfos, dropLast_concat]
    exact hb.pop hused

/-- A finalization that returned: the block is consistent, the payout is recorded, and the gas
    of the header is that of the last receipt. -/
theorem finalizeBlockImpl_consistent {seenCompetitionBid : Option Nat}
    {localCtx : ThreadBlockBuildingContext η} {block : Block} {st : FinalizeState δ η}
    (hcall : finalizeBlockImpl evm ctx raw env hashOrder value subsidy seenCompetitionBid adjust
      (helper, localCtx) = (.ok block, st)) (hb : helper.build.partialBlock.Consistent overhead)
    (hsettled : adjust = true → helper.Settled) :
    st.1.build.partialBlock.Consistent overhead ∧ st.1.Settled ∧
      ∃ last, st.1.build.partialBlock.executedTxInfos.getLast? = some last ∧
        block.sealedBlock.header.gasUsed = last.receipt.cumulativeGasUsed := by
  obtain ⟨before, helper₁, hprepare, parts, -, rfl, rfl⟩ := finalizeBlockImpl_eq_ok.mp hcall
  obtain ⟨hconsistent, hrecorded⟩ := prepareFinalize_consistent hprepare hb hsettled
  refine ⟨hconsistent, ?_, ?_⟩
  · intro state hstate
    cases hstate
    exact hrecorded
  obtain ⟨infos, info, hinfos, -⟩ := hrecorded
  refine ⟨info, ?_, ?_⟩
  · change helper₁.build.partialBlock.executedTxInfos.getLast? = _
    rw [hinfos, getLast?_concat]
  · rw [Consistent, hinfos] at hconsistent
    exact hconsistent.last.symm

end BlockBuildingHelper

/-! ## Runs -/

/-- Calls that returned `Ok`: orders that are included or rejected, insertions of constraint
    transactions, finalizations and adjustments. The flag says that nothing was added since
    the last finalization; only then it may be adjusted. -/
inductive OkRun (evm : Evm δ) (ctx : BlockBuildingContext) (raw : ConstraintEnv) (env : SealEnv δ η)
    (start : FinalizeState δ η) :
    Bool → FinalizeState δ η → Prop
  | nil : OkRun evm ctx raw env start false start
  | included {settled : Bool} {helper helper' : BlockBuildingHelper δ}
      {localCtx : ThreadBlockBuildingContext η}
      (h : OkRun evm ctx raw env start settled (helper, localCtx)) {hashOrder : HashOrder}
      {order : Order} {resultFilter : SimValue → Except ExecutionError Unit} {r : ExecutionResult}
      (hcall : BlockBuildingHelper.commitOrder evm ctx hashOrder order resultFilter helper =
        (.ok r, helper')) : OkRun evm ctx raw env start false (helper', localCtx)
  | rejected {settled : Bool} {helper helper' : BlockBuildingHelper δ}
      {localCtx : ThreadBlockBuildingContext η}
      (h : OkRun evm ctx raw env start settled (helper, localCtx)) {hashOrder : HashOrder}
      {order : Order} {resultFilter : SimValue → Except ExecutionError Unit} {e : ExecutionError}
      (hcall : BlockBuildingHelper.commitOrder evm ctx hashOrder order resultFilter helper =
        (.err e, helper')) : OkRun evm ctx raw env start settled (helper', localCtx)
  | inserted {settled : Bool} {helper helper' : BlockBuildingHelper δ}
      {localCtx : ThreadBlockBuildingContext η}
      (h : OkRun evm ctx raw env start settled (helper, localCtx))
      (hcall : insertConstraintTransactions evm ctx raw helper =
        (.ok (), helper')) : OkRun evm ctx raw env start false (helper', localCtx)
  | finalized {settled : Bool} {st st' : FinalizeState δ η}
      (h : OkRun evm ctx raw env start settled st) {hashOrder : HashOrder} {value : Nat}
      {subsidy : Int} {seenCompetitionBid : Option Nat} {block : Block}
      (hcall : finalizeBlock evm ctx raw env hashOrder value subsidy
        seenCompetitionBid st = (.ok block, st')) : OkRun evm ctx raw env start true st'
  | adjusted {st st' : FinalizeState δ η}
      (h : OkRun evm ctx raw env start true st) {hashOrder : HashOrder} {value : Nat}
      {subsidy : Int} {seenCompetitionBid : Option Nat} {block : Block}
      (hcall : adjustFinalizedBlock evm ctx raw env hashOrder value subsidy
        seenCompetitionBid st = (.ok block, st')) : OkRun evm ctx raw env start true st'

/-- The space of the header and the withdrawals. -/
def blockOverhead (ctx : BlockBuildingContext) : BlockSpace :=
  ⟨0, ctx.withdrawalsLength + blockHeaderRlpOverhead, 0⟩

section Runs

variable {start st : FinalizeState δ η} {settled : Bool} {overhead : BlockSpace}

theorem OkRun.consistent (h : OkRun evm ctx raw env start settled st)
    (hstart : start.1.build.partialBlock.Consistent overhead) :
    st.1.build.partialBlock.Consistent overhead ∧ (settled = true → st.1.Settled) := by
  induction h with
  | nil => exact ⟨hstart, fun hfalse => by cases hfalse⟩
  | included _ hcall ih =>
    obtain ⟨b, hblock, rfl⟩ := commitOrder_eq_ok.mp hcall
    obtain ⟨hadded, -⟩ := (PartialBlock.commitOrder_holds ..).of_ok hblock
    exact ⟨hadded.consistent ih.1, fun hfalse => by cases hfalse⟩
  | rejected _ hcall ih =>
    obtain ⟨-, rfl⟩ := commitOrder_eq_err.mp hcall
    exact ih
  | inserted _ hcall ih =>
    have hloop := insertConstraintTransactions_ok hcall
    exact ⟨hloop.consistent ih.1, fun hfalse => by cases hfalse⟩
  | finalized _ hcall ih =>
    obtain ⟨hconsistent, hsettled, -⟩ := finalizeBlockImpl_consistent hcall ih.1
      fun hfalse => by cases hfalse
    exact ⟨hconsistent, fun _ => hsettled⟩
  | adjusted _ hcall ih =>
    obtain ⟨hconsistent, hsettled, -⟩ := finalizeBlockImpl_consistent hcall ih.1 fun _ => ih.2 rfl
    exact ⟨hconsistent, fun _ => hsettled⟩

end Runs

/-- At every point of every run of calls that returned `Ok`, where nothing is added between a
    finalization and its adjustment: each receipt has the gas of the transactions up to it,
    the space used is that of all transactions and the overhead, and the gas of a sealed
    header is that of the last receipt. -/
theorem receipts_consistent_with_block {health : Except HistoricalBlockError Unit}
    {discardTxs : Bool} {start : BlockBuildingHelper δ}
    (hnew : new evm ctx env health discardTxs = .ok start)
    {localCtx : ThreadBlockBuildingContext η} {settled : Bool}
    {st : FinalizeState δ η}
    (hrun : OkRun evm ctx raw env (start, localCtx) settled st) :
    (∀ i info, st.1.build.partialBlock.executedTxInfos[i]? = some info →
        info.receipt.cumulativeGasUsed =
          (spaceSum (st.1.build.partialBlock.executedTxInfos.take (i + 1))).gas) ∧
      st.1.build.partialBlock.spaceState.spaceUsed =
        blockOverhead ctx + spaceSum st.1.build.partialBlock.executedTxInfos ∧
      ∀ (hashOrder : HashOrder) (value : Nat) (subsidy : Int) (seenCompetitionBid : Option Nat)
        (adjust : Bool) (block : Block) (st' : FinalizeState δ η),
        (adjust = true → settled = true) →
        finalizeBlockImpl evm ctx raw env hashOrder value subsidy
          seenCompetitionBid adjust st = (.ok block, st') →
        ∃ last, st'.1.build.partialBlock.executedTxInfos.getLast? = some last ∧
          block.sealedBlock.header.gasUsed = last.receipt.cumulativeGasUsed := by
  obtain ⟨payout, hisNew⟩ := new_spec hnew
  have hstart : start.build.partialBlock.Consistent (blockOverhead ctx) := by
    rw [hisNew.block]
    exact ⟨fun i info hi => (by cases hi), (BlockSpace.add_zero _).symm⟩
  obtain ⟨hconsistent, hsettled⟩ := hrun.consistent hstart
  refine ⟨fun i info hi => ?_, hconsistent.space, ?_⟩
  · rw [hconsistent.receipts i info hi]
    exact UInt64.zero_add _
  · intro hashOrder value subsidy seenCompetitionBid adjust block st' hadjust hcall
    exact (finalizeBlockImpl_consistent hcall hconsistent
      fun htrue => hsettled (hadjust htrue)).2.2

/-! ### Examples -/

/-- `finalize_block` or `adjust_finalized_block` with a payout of `value`. -/
def sealTipped (adjust : Bool) (value : Nat) :
    Exec (FinalizeState Accounts Unit) Empty BlockBuildingHelperError Block :=
  finalizeBlockImpl exampleEvm exampleCtx plainRaw exampleEnv insertionOrder value
    0 none adjust

def commitExample (tx : Tx) :=
  BlockBuildingHelper.commitOrder exampleEvm exampleCtx insertionOrder (.tx tx) fun _ => .ok ()

/-- The state after an order and a finalization. -/
def finalizedOnce (start : BlockBuildingHelper Accounts) :
    FinalizeState Accounts Unit :=
  (sealTipped false 1000 ((commitExample tippingTx start).2, ⟨{}, {}, ()⟩)).2

/-- An order, a finalization and an adjustment. -/
theorem receipts_consistent_with_block_adjusted :
    ∃ start, new exampleEvm exampleCtx exampleEnv (.ok ()) true = .ok start ∧
      (sealTipped true 2000 (finalizedOnce start)).1.isOk = true ∧
      (sealTipped true 2000 (finalizedOnce start)).2.1.build.partialBlock.spaceState.spaceUsed =
        blockOverhead exampleCtx + spaceSum
          (sealTipped true 2000 (finalizedOnce start)).2.1.build.partialBlock.executedTxInfos := by
  obtain ⟨start, hnew, hincluded, hsealed, hadjusted⟩ : ∃ start,
      new exampleEvm exampleCtx exampleEnv (.ok ()) true = .ok start ∧
        (commitExample tippingTx start).1.isOk = true ∧
        (sealTipped false 1000 ((commitExample tippingTx start).2, ⟨{}, {}, ()⟩)).1.isOk = true ∧
        (sealTipped true 2000 (finalizedOnce start)).1.isOk = true :=
    ⟨_, rfl, by decide +kernel, by decide +kernel, by decide +kernel⟩
  obtain ⟨r, hcommit⟩ := Outcome.exists_of_isOk hincluded
  obtain ⟨block, hfinal⟩ := Outcome.exists_of_isOk hsealed
  obtain ⟨block', hadjust⟩ := Outcome.exists_of_isOk hadjusted
  have hrun : OkRun exampleEvm exampleCtx plainRaw exampleEnv (start, ⟨{}, {}, ()⟩) true
      (sealTipped true 2000 (finalizedOnce start)).2 :=
    .adjusted (.finalized (.included .nil hcommit) hfinal) hadjust
  exact ⟨start, hnew, hadjusted, (receipts_consistent_with_block hnew hrun).2.1⟩

/-- An order that is included after the finalization is taken out in the place of the payout,
    with the space of the payout. -/
theorem order_between_finalization_and_adjustment :
    ∃ start, new exampleEvm exampleCtx exampleEnv (.ok ()) true = .ok start ∧
      (commitExample tippingTx start).1.isOk = true ∧
      (sealTipped false 1000 ((commitExample tippingTx start).2, ⟨{}, {}, ()⟩)).1.isOk = true ∧
      (commitExample (userTx 1 shop 5) (finalizedOnce start).1).1.isOk = true ∧
      (sealTipped true 2000 ((commitExample (userTx 1 shop 5) (finalizedOnce start).1).2,
        (finalizedOnce start).2)).1.isOk = true ∧
      (sealTipped true 2000 ((commitExample (userTx 1 shop 5) (finalizedOnce start).1).2,
          (finalizedOnce start).2)).2.1.build.partialBlock.spaceState.spaceUsed ≠
        blockOverhead exampleCtx + spaceSum
          (sealTipped true 2000 ((commitExample (userTx 1 shop 5) (finalizedOnce start).1).2,
            (finalizedOnce start).2)).2.1.build.partialBlock.executedTxInfos :=
  ⟨_, rfl, by decide +kernel, by decide +kernel, by decide +kernel, by decide +kernel,
    by decide +kernel⟩

end Building
