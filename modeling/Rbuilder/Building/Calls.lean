/-
  What the calls on a `BlockBuildingHelper` do.

  `commit_order` adds an order or changes nothing. Of the constraint transactions each is
  in the block already, is rejected by `commit_tx`, or is executed and added
  (`ConstraintRun`). Runs of `commit_order` calls are defined here, with and without
  critical errors.
-/
import Rbuilder.Building.Helper
import Rbuilder.Building.AllOrNothing

namespace Building

open SparseMpt Rollback BlockBuildingHelper

variable {δ : Type} {evm : Evm δ} {ctx : BlockBuildingContext} {raw : ConstraintEnv}

section Block

variable {C E α : Type} {b b' : BuildState δ} {m : ForkExec δ E α} {f : PartialBlock → PartialBlock}

@[simp]
theorem onFork_eq_ok {a : α} :
    onFork m b = (.ok a, b') ↔
      ∃ f, m ⟨b.blockState, 0⟩ = (.ok a, f) ∧ { b with blockState := f.state } = b' := by
  unfold onFork
  generalize m ⟨b.blockState, 0⟩ = out
  obtain ⟨_ | _ | _ | _, _⟩ := out <;> simp [and_assoc]

variable {e : E}

@[simp]
theorem onFork_eq_err :
    onFork m b = (.err e, b') ↔
      ∃ f, m ⟨b.blockState, 0⟩ = (.err e, f) ∧ { b with blockState := f.state } = b' := by
  unfold onFork
  generalize m ⟨b.blockState, 0⟩ = out
  obtain ⟨_ | _ | _ | _, _⟩ := out <;> simp [and_assoc]

/-- The block itself is not touched on a fork, even by a critical error. -/
theorem onFork_ends {P : BuildState δ → Prop}
    (h : ∀ s, P { b with blockState := s }) : (onFork m).Ends b P :=
  h _

@[simp]
theorem modifyBlock_eq_ok {u : Unit} :
    (modifyBlock f : Exec (BuildState δ) C E Unit) b = (.ok u, b') ↔
      { b with partialBlock := f b.partialBlock } = b' := by
  simp [modifyBlock]

@[simp]
theorem modifyBlock_ne_err : (modifyBlock f : Exec (BuildState δ) C E Unit) b ≠ (.err e, b') := by
  simp [modifyBlock]

theorem modifyBlock_holds {Q : Unit → BuildState δ → Prop}
    {R : E → BuildState δ → Prop} (h : Q () { b with partialBlock := f b.partialBlock }) :
    (modifyBlock f : Exec (BuildState δ) C E Unit).Holds b Q R :=
  h

end Block

theorem executeEvm_rejected (tx : Tx) (f : Fork δ) :
    (executeEvm evm ctx tx).Holds f (fun _ _ => True) fun e _ =>
      e = .blocklist ∨ ∃ err, e = .invalidTransaction err := by
  refine .bind (.getState ?_)
  rcases evm.transact f.state tx with (err | _ | _ | _) | res
  · exact .fail (.inr ⟨err, rfl⟩)
  · exact .abort
  · exact .abort
  · exact .abort
  dsimp only
  split
  · exact .fail (.inl rfl)
  · exact .pure trivial

/-- A transaction is rejected for lack of space only by the check before it is executed. -/
theorem commitTx_rejected (tx : Tx) (spaceState : BlockBuildingSpaceState) (f : Fork δ) :
    (commitTx evm ctx tx spaceState).Holds f (fun _ _ => True) fun e _ =>
      canFitTx ctx tx.spaceNeeded tx.blobsGasUsed spaceState = .error e ∨
        e = .blocklist ∨ ∃ err, e = .invalidTransaction err := by
  refine .bind (.ofExcept (fun _ _ => ?_) fun _ hfit => .inl hfit)
  refine .bind (signedCoinbaseBalance_holds fun before _ => ?_)
  split
  · exact .fail (.inr (.inl rfl))
  · refine .bind ((executeEvm_rejected tx f).mono (fun res f' _ => ?_) fun _ _ h => .inr h)
    refine .bind (?_ : Exec.Holds (mergeTransition res.state) f' ..)
    exact .bind (signedCoinbaseBalance_holds fun after _ => .pure trivial)

/-- A payout was executed with success and added to the block. -/
structure Paid (evm : Evm δ) (ctx : BlockBuildingContext) (tx : Tx) (b : BuildState δ)
    (info : TransactionExecutionInfo) (b' : BuildState δ) : Prop where
  tx : info.tx = tx
  success : info.receipt.success = true
  committed : Committed evm ctx b.partialBlock.spaceState b.blockState info b'.blockState
  block : b'.partialBlock = { b.partialBlock with
    spaceState := b.partialBlock.spaceState.useSpace info.spaceUsed
    executedTxInfos := b.partialBlock.executedTxInfos ++ [info] }

/-- A payout is paid, or it is rejected as a transaction, fails or reverts. -/
theorem commitPayout_holds (reverted : InsertPayoutTxErr) (tx : Tx) (b : BuildState δ) :
    (commitPayout evm ctx reverted tx).Holds b
      (fun space b' => ∃ info, space = info.spaceUsed ∧ Paid evm ctx tx b info b')
      fun e _ => e = reverted ∨ (∃ c, e = .criticalCommitError c) ∨
        ∃ err, e = .txErr err ∧
          (canFitTx ctx tx.spaceNeeded tx.blobsGasUsed b.partialBlock.spaceState = .error err ∨
            err = .blocklist ∨ ∃ invalid, err = .invalidTransaction invalid) := by
  refine .bind (.getState (.bind (.report (onFork_holds
    (((commitTx_holds ..).and (commitTx_rejected ..)).mono ?_ ?_)) ?_)))
  · rintro ok f ⟨⟨htx, hc, -⟩, -⟩
    split
    · exact .fail (.inl rfl)
    · rename_i hsuccess
      have hsuccess : ok.txInfo.receipt.success = true := by simpa using hsuccess
      exact .bind (modifyBlock_holds (.pure ⟨ok.txInfo, rfl, htx, hsuccess, hc, rfl⟩))
  · rintro err f ⟨-, hrejected⟩
    exact .inr (.inr ⟨err, rfl, hrejected⟩)
  · intro c b'
    exact .inr (.inl ⟨c, rfl⟩)

namespace BlockBuildingHelper

section

variable {helper helper' start : BlockBuildingHelper δ} {C E α : Type} {u : Unit}
  {executed : List B256} {raws raws' : List Bytes} {rawTx : Bytes} {e : BlockBuildingHelperError}
  {f : BuiltBlockTrace → BuiltBlockTrace}

variable {m : Exec (BuildState δ) C E α}

@[simp]
theorem onBuild_eq_ok {a : α} :
    onBuild m helper = (.ok a, helper') ↔
      ∃ b, m helper.build = (.ok a, b) ∧ { helper with build := b } = helper' :=
  Exec.zoom_eq_ok

@[simp]
theorem onBuild_eq_err {e : E} :
    onBuild m helper = (.err e, helper') ↔
      ∃ b, m helper.build = (.err e, b) ∧ { helper with build := b } = helper' :=
  Exec.zoom_eq_err

@[simp]
theorem modifyTrace_eq_ok :
    (modifyTrace f : Exec (BlockBuildingHelper δ) C E Unit) helper = (.ok u, helper') ↔
      { helper with builtBlockTrace := f helper.builtBlockTrace } = helper' := by
  simp [modifyTrace]

@[simp]
theorem modifyTrace_ne_err {e : E} :
    (modifyTrace f : Exec (BlockBuildingHelper δ) C E Unit) helper ≠ (.err e, helper') := by
  simp [modifyTrace]

/-- The helper after an order was included. -/
def withOrder (helper : BlockBuildingHelper δ) (b : BuildState δ) (r : ExecutionResult) :
    BlockBuildingHelper δ :=
  { helper with
    build := b
    builtBlockTrace := { helper.builtBlockTrace with
      includedOrders := helper.builtBlockTrace.includedOrders ++ [r] } }

variable {hashOrder : HashOrder} {order : Order}
  {resultFilter : SimValue → Except ExecutionError Unit}

@[simp]
theorem commitOrder_eq_ok {r : ExecutionResult} :
    commitOrder evm ctx hashOrder order resultFilter helper = (.ok r, helper') ↔
      ∃ b, PartialBlock.commitOrder evm ctx hashOrder order resultFilter helper.build = (.ok r, b) ∧
        helper.withOrder b r = helper' := by
  simp [commitOrder, withOrder]

/-- An order that is not included leaves the helper as it was. -/
@[simp]
theorem commitOrder_eq_err {e : ExecutionError} :
    commitOrder evm ctx hashOrder order resultFilter helper = (.err e, helper') ↔
      PartialBlock.commitOrder evm ctx hashOrder order resultFilter helper.build =
        (.err e, helper.build) ∧ helper = helper' := by
  simp only [commitOrder, Exec.bind_eq_err, onBuild_eq_err, modifyTrace_ne_err, Exec.pure_ne_err,
    and_false, exists_false, or_false]
  constructor
  · rintro ⟨b, hcall, rfl⟩
    have hsame := (PartialBlock.commitOrder_holds ..).of_err hcall
    subst hsame
    exact ⟨hcall, rfl⟩
  · rintro ⟨hcall, rfl⟩
    exact ⟨_, hcall, rfl⟩

/-! ## Constraint transactions -/

/-- The helper after a constraint transaction was executed. -/
def withConstraintTx (helper : BlockBuildingHelper δ) (ok : TransactionOk) (state : BlockState δ) :
    BlockBuildingHelper δ :=
  { helper with
    build := ⟨addConstraintTx helper.build.partialBlock ok, state⟩
    builtBlockTrace := { helper.builtBlockTrace with
      appendedConstraintTxs := helper.builtBlockTrace.appendedConstraintTxs ++ [ok.txInfo.tx.hash] } }

/-- `commit_tx` on the block of a helper. -/
def tryTx (evm : Evm δ) (ctx : BlockBuildingContext) (helper : BlockBuildingHelper δ) (tx : Tx) :
    Outcome CriticalCommitOrderError TransactionErr TransactionOk × Fork δ :=
  commitTx evm ctx tx helper.build.partialBlock.spaceState ⟨helper.build.blockState, 0⟩

/-- The loop over constraint transactions: from `helper` they lead to `helper'`. -/
inductive ConstraintRun (evm : Evm δ) (ctx : BlockBuildingContext) (raw : ConstraintEnv)
    (executed : List B256) : BlockBuildingHelper δ → List Bytes → BlockBuildingHelper δ → Prop
  | nil {helper : BlockBuildingHelper δ} : ConstraintRun evm ctx raw executed helper [] helper
  | skipped {helper helper' : BlockBuildingHelper δ} {rawTx : Bytes} {rest : List Bytes} {tx : Tx}
      (hdecode : raw.decode rawTx = .ok tx) (hmem : tx.hash ∈ executed)
      (h : ConstraintRun evm ctx raw executed helper rest helper') :
      ConstraintRun evm ctx raw executed helper (rawTx :: rest) helper'
  | rejected {helper helper' : BlockBuildingHelper δ} {rawTx : Bytes} {rest : List Bytes} {tx : Tx}
      {e : TransactionErr} {f : Fork δ} (hdecode : raw.decode rawTx = .ok tx)
      (hmem : tx.hash ∉ executed) (htry : helper.tryTx evm ctx tx = (.err e, f))
      (h : ConstraintRun evm ctx raw executed helper rest helper') :
      ConstraintRun evm ctx raw executed helper (rawTx :: rest) helper'
  | appended {helper helper' : BlockBuildingHelper δ} {rawTx : Bytes} {rest : List Bytes} {tx : Tx}
      {ok : TransactionOk} {f : Fork δ} (hdecode : raw.decode rawTx = .ok tx)
      (hmem : tx.hash ∉ executed) (htry : helper.tryTx evm ctx tx = (.ok ok, f))
      (h : ConstraintRun evm ctx raw executed (helper.withConstraintTx ok f.state) rest helper') :
      ConstraintRun evm ctx raw executed helper (rawTx :: rest) helper'

/-- Only the block and the list of appended transactions change. -/
theorem ConstraintRun.frame (h : ConstraintRun evm ctx raw executed helper raws helper') :
    helper' = { helper with
      build := helper'.build
      builtBlockTrace := { helper.builtBlockTrace with
        appendedConstraintTxs := helper'.builtBlockTrace.appendedConstraintTxs } } := by
  induction h with
  | nil => rfl
  | skipped _ _ _ ih | rejected _ _ _ _ ih | appended _ _ _ _ ih => exact ih

theorem decodeConstraintTx_eq_ok {tx : Tx} :
    decodeConstraintTx raw rawTx = .ok tx ↔ raw.decode rawTx = .ok tx := by
  unfold decodeConstraintTx
  cases raw.decode rawTx with
  | ok tx | error e => simp [Except.mapError]

/-- A rejected transaction leaves the helper as it was. -/
theorem executeConstraintTransaction_eq_ok {appended : Bool} :
    executeConstraintTransaction evm ctx raw rawTx helper = (.ok appended, helper') ↔
      ∃ tx, raw.decode rawTx = .ok tx ∧
        ((∃ ok f, helper.tryTx evm ctx tx = (.ok ok, f) ∧ appended = true ∧ helper' =
            { helper with build := ⟨addConstraintTx helper.build.partialBlock ok, f.state⟩ }) ∨
          ∃ e f, helper.tryTx evm ctx tx = (.err e, f) ∧ appended = false ∧ helper' = helper) := by
  unfold executeConstraintTransaction
  simp only [Exec.bind_eq_ok, Exec.ofExcept_eq_ok, decodeConstraintTx_eq_ok, and_assoc,
    exists_and_left, exists_eq_left']
  refine exists_congr fun tx => and_congr_right fun _ => ?_
  rcases htry : helper.tryTx evm ctx tx with ⟨ok | e | _ | _, f⟩ <;> unfold tryTx at htry
  · simp [Exec.attempt_eq_ok, htry]
    exact fun _ => eq_comm
  · obtain rfl : f = ⟨helper.build.blockState, 0⟩ := (commitTx_holds ..).of_err htry
    simp [Exec.attempt_eq_ok, htry]
    exact fun _ => eq_comm
  · simp [Exec.attempt_eq_ok, htry]
  · simp [Exec.attempt_eq_ok, htry]

theorem isIncluded_iff :
    isIncluded raw executed rawTx = true ↔ ∃ tx, raw.decode rawTx = .ok tx ∧ tx.hash ∈ executed := by
  unfold isIncluded computeConstraintTxHash decodeConstraintTx
  cases raw.decode rawTx with
  | ok tx | error e => simp [Except.mapError, Except.map]

/-- An executed transaction is the last one of the block, so its hash is tracked. -/
theorem trackLastTx_eq_ok {ok : TransactionOk} {state : BlockState δ} :
    trackLastTx { helper with build := ⟨addConstraintTx helper.build.partialBlock ok, state⟩ } =
      (.ok u, helper') ↔ helper.withConstraintTx ok state = helper' := by
  simp [trackLastTx, addConstraintTx, withConstraintTx]

theorem appendConstraintTxs_eq_ok :
    appendConstraintTxs evm ctx raw executed raws helper = (.ok u, helper') ↔
      ConstraintRun evm ctx raw executed helper raws helper' := by
  constructor
  · intro h
    induction raws generalizing helper with
    | nil =>
      obtain ⟨-, rfl⟩ := Exec.pure_eq_ok.mp h
      exact .nil
    | cons rawTx rest ih =>
      unfold appendConstraintTxs at h
      split at h
      · rename_i hincluded
        obtain ⟨tx, hdecode, hmem⟩ := isIncluded_iff.mp hincluded
        exact .skipped hdecode hmem (ih h)
      rename_i hincluded
      have hmem : ∀ tx, raw.decode rawTx = .ok tx → tx.hash ∉ executed := fun tx hdecode hin =>
        hincluded (isIncluded_iff.mpr ⟨tx, hdecode, hin⟩)
      obtain ⟨appended, helper₁, hexec, hrest⟩ := Exec.bind_eq_ok.mp h
      obtain ⟨tx, hdecode, hcase⟩ := executeConstraintTransaction_eq_ok.mp hexec
      obtain ⟨ok, f, htry, rfl, rfl⟩ | ⟨e, f, htry, rfl, rfl⟩ := hcase
      · obtain ⟨_, _, htrack, hrest⟩ := Exec.bind_eq_ok.mp hrest
        obtain rfl := trackLastTx_eq_ok.mp htrack
        exact .appended hdecode (hmem tx hdecode) htry (ih hrest)
      · exact .rejected hdecode (hmem tx hdecode) htry (ih hrest)
  · intro h
    have hnotIncluded : ∀ {rawTx tx}, raw.decode rawTx = .ok tx → tx.hash ∉ executed →
        ¬ isIncluded raw executed rawTx = true := by
      intro rawTx tx hdecode hmem hincluded
      obtain ⟨tx', hdecode', hin⟩ := isIncluded_iff.mp hincluded
      cases hdecode.symm.trans hdecode'
      exact hmem hin
    induction h with
    | nil => rfl
    | skipped hdecode hmem _ ih =>
      rw [appendConstraintTxs, if_pos (isIncluded_iff.mpr ⟨_, hdecode, hmem⟩)]
      exact ih
    | rejected hdecode hmem htry _ ih =>
      rw [appendConstraintTxs, if_neg (hnotIncluded hdecode hmem)]
      exact Exec.bind_eq_ok.mpr ⟨false, _, executeConstraintTransaction_eq_ok.mpr
        ⟨_, hdecode, .inr ⟨_, _, htry, rfl, rfl⟩⟩, ih⟩
    | appended hdecode hmem htry _ ih =>
      rw [appendConstraintTxs, if_neg (hnotIncluded hdecode hmem)]
      exact Exec.bind_eq_ok.mpr ⟨true, _, executeConstraintTransaction_eq_ok.mpr
        ⟨_, hdecode, .inl ⟨_, _, htry, rfl, rfl⟩⟩, Exec.bind_eq_ok.mpr
        ⟨(), _, trackLastTx_eq_ok.mpr rfl, ih⟩⟩

/-- The loop over two lists is the loop over the first and then over the second. -/
theorem appendConstraintTxs_append :
    appendConstraintTxs evm ctx raw executed (raws ++ raws') helper = (.ok (), helper') ↔
      ∃ helper₁, appendConstraintTxs evm ctx raw executed raws helper = (.ok (), helper₁) ∧
        appendConstraintTxs evm ctx raw executed raws' helper₁ = (.ok (), helper') := by
  induction raws generalizing helper with
  | nil => simp [appendConstraintTxs]
  | cons rawTx rest ih =>
    simp only [List.cons_append, appendConstraintTxs]
    split
    · exact ih
    · simp only [Exec.bind_eq_ok, Bool.exists_bool, Bool.false_eq_true, if_true, if_false, ih]
      grind

/-- The hashes of the transactions in the block. -/
def executedHashes (helper : BlockBuildingHelper δ) : List B256 :=
  helper.build.partialBlock.executedTxInfos.map (·.tx.hash)

theorem insertConstraintTransactions_ok
    (h : insertConstraintTransactions evm ctx raw helper = (.ok u, helper')) :
    ConstraintRun evm ctx raw helper.executedHashes helper ctx.constraints.flatten helper' := by
  unfold insertConstraintTransactions at h
  split at h
  · rename_i hempty
    obtain ⟨-, rfl⟩ := Exec.pure_eq_ok.mp h
    rw [List.isEmpty_iff.mp hempty]
    exact .nil
  · simp only [Exec.bind_eq_ok, Exec.getState_eq_ok] at h
    obtain ⟨_, _, ⟨rfl, rfl⟩, h⟩ := h
    exact appendConstraintTxs_eq_ok.mp h

/-! Inserting constraint transactions fails only where one cannot be decoded or executing it
    is a critical error. -/

theorem executeConstraintTransaction_err
    (h : executeConstraintTransaction evm ctx raw rawTx helper = (.err e, helper')) :
    ∃ err, e = .providerError err := by
  unfold executeConstraintTransaction at h
  simp [Exec.report_eq_err] at h
  obtain ⟨hdecode, -⟩ | ⟨tx, -, ⟨b, ⟨c, -, rfl⟩, -⟩ | ⟨res, b, -, h⟩⟩ := h
  · obtain ⟨text, -, rfl⟩ := exists_of_mapError_eq_error hdecode
    exact ⟨_, rfl⟩
  · exact ⟨_, rfl⟩
  · cases res <;> simp at h

theorem trackLastTx_ne_err : trackLastTx helper ≠ (.err e, helper') := by
  cases hlast : helper.build.partialBlock.executedTxInfos.getLast? <;> simp [trackLastTx, hlast]

theorem appendConstraintTxs_err
    (h : appendConstraintTxs evm ctx raw executed raws helper = (.err e, helper')) :
    ∃ err, e = .providerError err := by
  induction raws generalizing helper with
  | nil => simp [appendConstraintTxs] at h
  | cons rawTx rest ih =>
    unfold appendConstraintTxs at h
    split at h
    · exact ih h
    obtain hexec | ⟨appended, _, -, h⟩ := Exec.bind_eq_err.mp h
    · exact executeConstraintTransaction_err hexec
    cases appended with
    | false => exact ih h
    | true =>
      obtain htrack | ⟨_, _, -, h⟩ := Exec.bind_eq_err.mp h
      · exact (trackLastTx_ne_err htrack).elim
      · exact ih h

theorem insertConstraintTransactions_err
    (h : insertConstraintTransactions evm ctx raw helper = (.err e, helper')) :
    ∃ err, e = .providerError err := by
  unfold insertConstraintTransactions at h
  split at h
  · simp at h
  · simp only [Exec.bind_eq_err, Exec.getState_ne_err, Exec.getState_eq_ok, false_or] at h
    obtain ⟨_, _, ⟨rfl, rfl⟩, h⟩ := h
    exact appendConstraintTxs_err h

/-! However the loop ends: the state may have changed, the block and the trace are those of
    the transactions that were executed. -/

section Ends

variable {P Q : BlockBuildingHelper δ → Prop}

theorem executeConstraintTransaction_stops (rawTx : Bytes)
    (h : ∀ state, Q { helper with build := { helper.build with blockState := state } }) :
    (executeConstraintTransaction evm ctx raw rawTx).Stops helper Q := by
  refine .bind (.of_ends (.ofExcept (h _))) fun tx _ hdecode => ?_
  obtain ⟨-, rfl⟩ := Exec.ofExcept_eq_ok.mp hdecode
  refine .bind (.of_ends (.getState (h _))) fun _ _ hget => ?_
  obtain ⟨rfl, rfl⟩ := Exec.getState_eq_ok.mp hget
  refine .bind (.of_ends (.zoom (.report (.attempt (onFork_ends h))))) fun res helper₁ _ => ?_
  cases res with
  | ok ok => exact .of_eq_ok (Exec.bind_eq_ok.mpr ⟨(), _, rfl, rfl⟩)
  | error e => exact .of_eq_ok rfl

/-- What every executed transaction keeps holds until the loop ends. -/
theorem appendConstraintTxs_ends (raws : List Bytes)
    (hstep : ∀ helper rawTx tx ok f, P helper → raw.decode rawTx = .ok tx → tx.hash ∉ executed →
      helper.tryTx evm ctx tx = (.ok ok, f) → P (helper.withConstraintTx ok f.state))
    (hend : ∀ helper state, P helper →
      Q { helper with build := { helper.build with blockState := state } })
    (h : P helper) : (appendConstraintTxs evm ctx raw executed raws).Ends helper Q := by
  induction raws generalizing helper with
  | nil => exact hend helper _ h
  | cons rawTx rest ih =>
    unfold appendConstraintTxs
    split
    · exact ih h
    rename_i hincluded
    refine (executeConstraintTransaction_stops rawTx fun s => hend helper s h).ends_bind ?_
    intro appended helper₁ hexec
    obtain ⟨tx, hdecode, hcase⟩ := executeConstraintTransaction_eq_ok.mp hexec
    have hmem : tx.hash ∉ executed := fun hin =>
      hincluded (isIncluded_iff.mpr ⟨tx, hdecode, hin⟩)
    obtain ⟨ok, f, htry, rfl, rfl⟩ | ⟨e, f, htry, rfl, rfl⟩ := hcase
    · have hnext := hstep helper rawTx tx ok f h hdecode hmem htry
      refine Exec.Stops.ends_bind (.of_eq_ok (a := ()) (trackLastTx_eq_ok.mpr rfl)) fun _ _ htrack => ?_
      obtain rfl := trackLastTx_eq_ok.mp htrack
      exact ih hnext
    · exact ih h

end Ends

/-! ## A new helper -/

/-- A new helper has used the space of the header and reserved that of the payout. -/
structure IsNew (evm : Evm δ) (ctx : BlockBuildingContext) (discardTxs : Bool) (payout : BlockSpace)
    (start : BlockBuildingHelper δ) : Prop where
  estimate : estimatePayoutGasLimit evm ctx ctx.suggestedFeeRecipient start.build.blockState .zero =
    .ok payout
  payoutTxGas : start.payoutTxGas = payout.gas
  block : start.build.partialBlock =
    { discardTxs, spaceState := ⟨⟨0, ctx.withdrawalsLength + blockHeaderRlpOverhead, 0⟩, payout⟩ }
  trace : start.builtBlockTrace = {}
  notFinalized : start.finalizeAdjustmentState = none

theorem new_spec {η : Type} {env : SealEnv δ η} {health : Except HistoricalBlockError Unit}
    {discardTxs : Bool} (h : new evm ctx env health discardTxs = .ok start) :
    ∃ payout, IsNew evm ctx discardTxs payout start := by
  obtain ⟨_, -, h⟩ := exists_of_bind_eq_ok h
  obtain ⟨balance, -, h⟩ := exists_of_bind_eq_ok h
  cases hpre : PartialBlock.preBlockCall ctx env.protocol ⟨{ discardTxs }, {}⟩ with
  | mk out b =>
    rw [hpre] at h
    cases out with
    | ok u =>
      simp only [PartialBlock.preBlockCall, Exec.bind_eq_ok, modifyBlock_eq_ok,
        Exec.getState_eq_ok, Exec.ofExcept_eq_ok, Exec.setState_eq_ok] at hpre
      obtain ⟨_, _, rfl, _, _, ⟨rfl, rfl⟩, changes, _, ⟨-, rfl⟩, rfl⟩ := hpre
      obtain ⟨payout, hpayout, h⟩ := exists_of_bind_eq_ok h
      cases h
      refine ⟨payout, mapError_eq_ok.mp hpayout, rfl, ?_, rfl, rfl⟩
      simp [BlockBuildingSpaceState.reserveBlockSpace, BlockBuildingSpaceState.useSpace,
        BlockBuildingSpaceState.zero]
    | _ => cases h

end

end BlockBuildingHelper

/-! ## Runs of `commit_order` -/

/-- `commit_order` calls one after the other, whatever they end with. -/
inductive OrderCalls (evm : Evm δ) (ctx : BlockBuildingContext) (start : BlockBuildingHelper δ) :
    BlockBuildingHelper δ → Prop
  | nil : OrderCalls evm ctx start start
  | call {helper : BlockBuildingHelper δ} (h : OrderCalls evm ctx start helper)
      (hashOrder : HashOrder) (order : Order)
      (resultFilter : SimValue → Except ExecutionError Unit) :
      OrderCalls evm ctx start
        (BlockBuildingHelper.commitOrder evm ctx hashOrder order resultFilter helper).2

/-- `commit_order` calls one after the other, with the results of those that were included.
    A critical error ends the run. -/
inductive OrderRun (evm : Evm δ) (ctx : BlockBuildingContext) (start : BlockBuildingHelper δ) :
    List ExecutionResult → BlockBuildingHelper δ → Prop
  | nil : OrderRun evm ctx start [] start
  | included {rs : List ExecutionResult} {helper helper' : BlockBuildingHelper δ}
      (h : OrderRun evm ctx start rs helper) {hashOrder : HashOrder} {order : Order}
      {resultFilter : SimValue → Except ExecutionError Unit} {r : ExecutionResult}
      (hcall : BlockBuildingHelper.commitOrder evm ctx hashOrder order resultFilter helper =
        (.ok r, helper')) : OrderRun evm ctx start (rs ++ [r]) helper'
  | rejected {rs : List ExecutionResult} {helper helper' : BlockBuildingHelper δ}
      (h : OrderRun evm ctx start rs helper) {hashOrder : HashOrder} {order : Order}
      {resultFilter : SimValue → Except ExecutionError Unit} {e : ExecutionError}
      (hcall : BlockBuildingHelper.commitOrder evm ctx hashOrder order resultFilter helper =
        (.err e, helper')) : OrderRun evm ctx start rs helper'

/-- On the block it is a run of the block; the trace lists what was included. -/
theorem OrderRun.commitRun {start helper : BlockBuildingHelper δ} {rs : List ExecutionResult}
    (h : OrderRun evm ctx start rs helper) :
    CommitRun evm ctx start.build rs helper.build ∧
      helper = { start with
        build := helper.build
        builtBlockTrace := { start.builtBlockTrace with
          includedOrders := start.builtBlockTrace.includedOrders ++ rs } } := by
  induction h with
  | nil => exact ⟨.nil, by simp⟩
  | included _ hcall ih =>
    obtain ⟨b, hblock, rfl⟩ := commitOrder_eq_ok.mp hcall
    refine ⟨.included ih.1 hblock, ?_⟩
    rw [ih.2]
    simp [withOrder]
  | rejected _ hcall ih =>
    obtain ⟨-, rfl⟩ := commitOrder_eq_err.mp hcall
    exact ih

/-! ## Rebuilding a block -/

/-- An order that passes a filter is included in the same way without it. -/
theorem PartialBlock.commitOrder_unfiltered {hashOrder : HashOrder} {order : Order}
    {resultFilter : SimValue → Except ExecutionError Unit} {b b' : BuildState δ}
    {r : ExecutionResult} (h : commitOrder evm ctx hashOrder order resultFilter b = (.ok r, b')) :
    commitOrder evm ctx hashOrder order (fun _ => .ok ()) b = (.ok r, b') := by
  simp only [commitOrder, tryOrder, Exec.bind_eq_ok, onFork_eq_ok] at h ⊢
  obtain ⟨b₀, b₁, hget, out, b₂, ⟨f, ⟨p, f₁, hp, ok, f₂, hok, hfilter⟩, rfl⟩, hrest⟩ := h
  refine ⟨b₀, b₁, hget, out, _, ⟨f, ⟨p, f₁, hp, ok, f₂, hok, ?_⟩, rfl⟩, hrest⟩
  cases hpass : resultFilter (createSimValue ctx order ok) <;> simp_all

variable (evm ctx) in
/-- Commit orders that all have to be included. -/
def BlockBuildingHelper.rebuild (start : BlockBuildingHelper δ) (calls : List (HashOrder × Order)) :
    Option (BlockBuildingHelper δ) :=
  calls.foldlM (fun helper call =>
    match commitOrder evm ctx call.1 call.2 (fun _ => .ok ()) helper with
    | (.ok _, helper) => some helper
    | _ => none) start

/-- The orders of the trace alone, committed in turn and without filters, make the same block:
    what was rejected in between leaves nothing. -/
theorem block_rebuilt_from_trace {start helper : BlockBuildingHelper δ} {rs : List ExecutionResult}
    (h : OrderRun evm ctx start rs helper) :
    ∃ calls, start.rebuild evm ctx calls = some helper ∧
      helper.builtBlockTrace.includedOrders.map (·.order) =
        start.builtBlockTrace.includedOrders.map (·.order) ++ calls.map (·.2) := by
  induction h with
  | nil => exact ⟨[], rfl, by simp⟩
  | @included _ helper _ _ hashOrder order _ r hcall ih =>
    obtain ⟨calls, hcalls, htrace⟩ := ih
    obtain ⟨b, hblock, rfl⟩ := commitOrder_eq_ok.mp hcall
    have horder := ((PartialBlock.commitOrder_holds ..).of_ok hblock).1.1
    have hagain := commitOrder_eq_ok.mpr
      ⟨b, PartialBlock.commitOrder_unfiltered hblock, rfl⟩
    refine ⟨calls ++ [(hashOrder, order)], ?_, ?_⟩
    · unfold rebuild at hcalls ⊢
      rw [List.foldlM_append, hcalls]
      simp [hagain]
    · simp [withOrder, htrace, horder]
  | rejected _ hcall ih =>
    obtain ⟨-, rfl⟩ := commitOrder_eq_err.mp hcall
    exact ih

theorem block_rebuilt_from_trace_dropped :
    let commit := BlockBuildingHelper.commitOrder exampleEvm exampleCtx insertionOrder
      droppingBundle fun _ => .ok ()
    let start := ⟨0, emptyBuild, 0, {}, none⟩
    ∃ calls, start.rebuild exampleEvm exampleCtx calls = some (commit (commit start).2).2 ∧
      (commit (commit start).2).2.builtBlockTrace.includedOrders.map (·.order) =
        calls.map (·.2) := by
  intro commit start
  obtain ⟨r, hcall⟩ := Outcome.exists_of_isOk (show (commit start).1.isOk by decide +kernel)
  obtain ⟨e, hagain⟩ :=
    Outcome.exists_of_isErr (show (commit (commit start).2).1.isErr by decide +kernel)
  exact block_rebuilt_from_trace (.rejected (.included .nil hcall) hagain)

end Building
