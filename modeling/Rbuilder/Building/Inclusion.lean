/-
  Which constraint transactions are proven.

  The proof observer makes a proof for each hash in `appended_constraint_txs`. Along every
  run of calls, however they end, these hashes are distinct and in the block (`Tracked`);
  a transaction is not appended twice, since its nonce is spent once it was executed. A
  constraint transaction that an order brought into the block is skipped by the insertion
  and never listed, so every constraint transaction of a sealed block is listed exactly if
  none was in the block before.
-/
import Rbuilder.Building.ConstraintTxs

namespace Building

open SparseMpt Rollback List BlockBuildingHelper

variable {δ η : Type} {evm : Evm δ} {ctx : BlockBuildingContext} {raw : ConstraintEnv}
  {env : SealEnv δ η}

/-- What is assumed of nonces: a constraint transaction is executed with the nonce of its signer,
    which is spent by it, and the nonce of a signer does not go back. -/
structure NonceLaws (evm : Evm δ) (raw : ConstraintEnv) : Prop where
  required : ∀ s rawTx tx res, raw.decode rawTx = .ok tx → evm.transact s tx = .ok res →
    evm.nonce s tx.signer = .ok tx.nonce
  spent : ∀ s rawTx tx res, raw.decode rawTx = .ok tx → evm.transact s tx = .ok res →
    ∃ n, evm.nonce (s.push res.state) tx.signer = .ok n ∧ tx.nonce < n
  grows : ∀ s rawTx tx tx' res n, raw.decode rawTx = .ok tx → evm.transact s tx' = .ok res →
    evm.nonce s tx.signer = .ok n → ∃ n', evm.nonce (s.push res.state) tx.signer = .ok n' ∧ n ≤ n'

/-- What is assumed of hashes: they tell transactions apart. -/
structure HashLaws (raw : ConstraintEnv) : Prop where
  decoded : ∀ rawTx rawTx' tx tx', raw.decode rawTx = .ok tx → raw.decode rawTx' = .ok tx' →
    tx.hash = tx'.hash → tx.signer = tx'.signer ∧ tx.nonce = tx'.nonce

/-- Calls of `commit_order`, `finalize_block` and `adjust_finalized_block`, whatever they end
    with. -/
inductive HelperCalls (evm : Evm δ) (ctx : BlockBuildingContext) (raw : ConstraintEnv)
    (env : SealEnv δ η) (start : FinalizeState δ η) :
    FinalizeState δ η → Prop
  | nil : HelperCalls evm ctx raw env start start
  | commitOrder {st : FinalizeState δ η}
      (h : HelperCalls evm ctx raw env start st) (hashOrder : HashOrder) (order : Order)
      (resultFilter : SimValue → Except ExecutionError Unit) :
      HelperCalls evm ctx raw env start
        ((BlockBuildingHelper.commitOrder evm ctx hashOrder order resultFilter st.1).2, st.2)
  | finalize {st : FinalizeState δ η}
      (h : HelperCalls evm ctx raw env start st) (hashOrder : HashOrder) (value : Nat)
      (subsidy : Int) (seenCompetitionBid : Option Nat) (adjust : Bool) :
      HelperCalls evm ctx raw env start
        (finalizeBlockImpl evm ctx raw env hashOrder value subsidy
          seenCompetitionBid adjust st).2

namespace BlockBuildingHelper

variable {helper helper' : BlockBuildingHelper δ} {executed : List B256} {raws : List Bytes}

/-- The hashes for which proofs are made. -/
def appended (helper : BlockBuildingHelper δ) : List B256 :=
  helper.builtBlockTrace.appendedConstraintTxs

/-- The appended transactions are distinct and in the block; they stay in it when the last
    transaction is taken out again. -/
structure Tracked (helper : BlockBuildingHelper δ) : Prop where
  nodup : helper.appended.Nodup
  listed : helper.appended ⊆ helper.executedHashes
  kept : helper.finalizeAdjustmentState.isSome = true →
    helper.appended ⊆ helper.build.partialBlock.executedTxInfos.dropLast.map (·.tx.hash)

/-- The signer of any transaction with this hash has spent its nonce. -/
def Spent (evm : Evm δ) (raw : ConstraintEnv) (s : BlockState δ) (hash : B256) : Prop :=
  ∀ rawTx tx, raw.decode rawTx = .ok tx → tx.hash = hash →
    ∃ n, evm.nonce s tx.signer = .ok n ∧ tx.nonce < n

/-- The invariant of the loop over the constraint transactions. -/
structure Appending (evm : Evm δ) (raw : ConstraintEnv) (executed : List B256)
    (helper : BlockBuildingHelper δ) : Prop where
  nodup : helper.appended.Nodup
  listed : helper.appended ⊆ helper.executedHashes
  notFinalized : helper.finalizeAdjustmentState = none
  spent : ∀ hash ∈ helper.appended, hash ∈ executed ∨ Spent evm raw helper.build.blockState hash

variable {s : BlockState δ} {tx : Tx} {res : ResultAndState δ} {rawTx : Bytes}

theorem Spent.push (laws : NonceLaws evm raw) {hash : B256}
    (h : Spent evm raw s hash) (hres : evm.transact s tx = .ok res) :
    Spent evm raw (s.push res.state) hash := by
  intro rawTx tx' hdecode hhash
  obtain ⟨n, hn, hlt⟩ := h rawTx tx' hdecode hhash
  obtain ⟨n', hn', hle⟩ := laws.grows _ _ _ _ _ _ hdecode hres hn
  exact ⟨n', hn', UInt64.lt_of_lt_of_le hlt hle⟩

/-- A transaction whose nonce is spent is not executed. -/
theorem Spent.not_transact (laws : NonceLaws evm raw)
    (h : Spent evm raw s tx.hash) (hdecode : raw.decode rawTx = .ok tx) :
    evm.transact s tx ≠ .ok res := by
  intro hres
  obtain ⟨n, hn, hlt⟩ := h rawTx tx hdecode rfl
  cases hn.symm.trans (laws.required _ _ _ _ hdecode hres)
  exact absurd hlt (UInt64.lt_irrefl _)

/-- An executed transaction has spent its nonce. -/
theorem spent_of_transact (laws : NonceLaws evm raw) (hashes : HashLaws raw)
    (hdecode : raw.decode rawTx = .ok tx)
    (hres : evm.transact s tx = .ok res) : Spent evm raw (s.push res.state) tx.hash := by
  intro rawTx' tx' hdecode' hhash
  obtain ⟨hsigner, hnonce⟩ := hashes.decoded _ _ _ _ hdecode' hdecode hhash
  obtain ⟨n, hspent, hlt⟩ := laws.spent _ _ _ _ hdecode hres
  exact ⟨n, hsigner ▸ hspent, hnonce ▸ hlt⟩

theorem Appending.withConstraintTx (laws : NonceLaws evm raw) (hashes : HashLaws raw)
    (h : helper.Appending evm raw executed) {ok : TransactionOk}
    {f : Fork δ} (hdecode : raw.decode rawTx = .ok tx) (hmem : tx.hash ∉ executed)
    (htry : helper.tryTx evm ctx tx = (.ok ok, f)) :
    (helper.withConstraintTx ok f.state).Appending evm raw executed := by
  obtain ⟨rfl, hc, -⟩ := (commitTx_holds ..).of_ok htry
  obtain ⟨res, hres, hpush, -⟩ := hc.executed
  have happended : (helper.withConstraintTx ok f.state).appended =
      helper.appended ++ [ok.txInfo.tx.hash] := rfl
  have hhashes : (helper.withConstraintTx ok f.state).executedHashes =
      helper.executedHashes ++ [ok.txInfo.tx.hash] := map_append
  have hfresh : ok.txInfo.tx.hash ∉ helper.appended := by
    intro hin
    obtain hexecuted | hspent := h.spent _ hin
    · exact hmem hexecuted
    · exact hspent.not_transact laws hdecode hres
  refine ⟨?_, ?_, h.notFinalized, ?_⟩
  · exact nodup_append.mpr ⟨h.nodup, nodup_singleton _, fun a ha b hb => by
      rw [mem_singleton.mp hb]
      exact fun heq => hfresh (heq ▸ ha)⟩
  · rw [happended, hhashes]
    exact append_subset.mpr ⟨fun a ha => mem_append_left _ (h.listed ha), subset_append_right ..⟩
  intro hash hin
  rw [hpush]
  obtain hin | hin := mem_append.mp hin
  · exact (h.spent hash hin).imp_right fun hspent => hspent.push laws hres
  · rw [mem_singleton.mp hin]
    exact .inr (spent_of_transact laws hashes hdecode hres)

/-! ## However a call ends -/

/-- Tracked and not finalized. -/
structure Open (helper : BlockBuildingHelper δ) : Prop where
  nodup : helper.appended.Nodup
  listed : helper.appended ⊆ helper.executedHashes
  notFinalized : helper.finalizeAdjustmentState = none

theorem Open.tracked (h : helper.Open) : helper.Tracked :=
  ⟨h.nodup, h.listed, fun hsome => by
    rw [h.notFinalized] at hsome
    cases hsome⟩

/-- The block may grow. -/
theorem Open.grow (h : helper.Open) {b : BuildState δ}
    (hb : helper.build.partialBlock.executedTxInfos <+: b.partialBlock.executedTxInfos) :
    ({ helper with build := b } : BlockBuildingHelper δ).Open :=
  ⟨h.nodup, fun _ ha => (hb.map _).subset (h.listed ha), h.notFinalized⟩

theorem insertConstraintTransactions_open (laws : NonceLaws evm raw) (hashes : HashLaws raw)
    (h : helper.Open) : (insertConstraintTransactions evm ctx raw).Ends helper Open := by
  unfold insertConstraintTransactions
  split
  · exact .pure h
  refine appendConstraintTxs_ends (P := Appending evm raw helper.executedHashes) _ ?_ ?_ ?_
  · intro helper rawTx tx ok f h hdecode hmem htry
    exact h.withConstraintTx laws hashes hdecode hmem htry
  · intro helper state h
    exact { h with }
  · exact ⟨h.nodup, h.listed, h.notFinalized, fun hash hin => .inl (h.listed hin)⟩

variable {hashOrder : HashOrder} {value : Nat} {subsidy : Int} {seenCompetitionBid : Option Nat}

theorem finalizeBlockExecution_open (laws : NonceLaws evm raw) (hashes : HashLaws raw) (adjust : Bool)
    (revertState : FinalizeRevertStateCurrentIteration) (h : helper.Open) :
    (finalizeBlockExecution evm ctx raw hashOrder value subsidy adjust revertState).Ends helper
      Open := by
  refine .getState_bind ?_
  have hreward : helper.withReward.Open := { h with }
  refine .bind (by exact hreward) fun _ _ htrace => ?_
  obtain rfl := modifyTrace_eq_ok.mp htrace
  have hinsert : (insertConstraintTransactions evm ctx raw).Ends helper.withReward Open :=
    insertConstraintTransactions_open laws hashes hreward
  refine .bind hinsert fun _ helper₁ hcall => ?_
  have hopen : helper₁.Open := hinsert.of_eq hcall
  have hpayouts : (PartialBlock.insertRefundsAndProposerPayoutTx evm ctx hashOrder
      helper.payoutTxGas value adjust revertState).Ends helper₁.build fun b =>
        ({ helper₁ with build := b } : BlockBuildingHelper δ).Open :=
    (insertRefundsAndProposerPayoutTx_grows adjust revertState (prefix_refl _)).mono
      fun _ hb => hopen.grow hb
  refine .bind (.zoom (.mapErr hpayouts)) fun rs helper₂ hpay => ?_
  have hopen₂ : helper₂.Open := by
    obtain ⟨b, hb, rfl⟩ := onBuild_eq_ok.mp hpay
    exact hpayouts.of_eq (Exec.mapErr_eq_ok.mp hb)
  refine .ofExcept_bind hopen₂ fun _ _ => ?_
  refine .ofExcept_bind hopen₂ fun _ _ => ?_
  exact ⟨hopen₂.nodup, hopen₂.listed, hopen₂.notFinalized⟩

theorem Tracked.taken (h : helper.Tracked) :
    ({ helper with finalizeAdjustmentState := none } : BlockBuildingHelper δ).Open :=
  ⟨h.nodup, h.listed, rfl⟩

theorem prepareFinalize_tracked (laws : NonceLaws evm raw) (hashes : HashLaws raw) (adjust : Bool)
    (h : helper.Tracked) :
    (prepareFinalize evm ctx raw hashOrder value subsidy adjust).Ends helper Tracked := by
  have hexec : ∀ helper : BlockBuildingHelper δ, helper.Open →
      (finalizeBlockExecution evm ctx raw hashOrder value subsidy adjust {}).Ends helper Open :=
    fun helper h => finalizeBlockExecution_open laws hashes adjust {} h
  refine .getState_bind ?_
  split
  · exact .fail h
  rename_i hstate
  refine .setState_bind ?_
  cases adjust with
  | false =>
    refine .bind ((hexec _ h.taken).mono fun _ h => h.tracked) fun rs helper₁ hcall => ?_
    have htracked := ((hexec _ h.taken).of_eq hcall).tracked
    refine .ofExcept_bind htracked fun _ _ => ?_
    exact .pure htracked
  | true =>
    -- the last transaction may be taken out where a finalization recorded it
    have hopen (revertState) (spaceState) : (helper.reverted revertState spaceState).Open :=
      ⟨h.nodup, h.kept (not_not.mp hstate).symm, rfl⟩
    refine Exec.Stops.ends_bind (.of_ends (.zoom (.bind (.getState h.taken.tracked) ?_))) ?_
    · intro b _ hget
      obtain ⟨rfl, rfl⟩ := Exec.getState_eq_ok.mp hget
      refine .unwrap_bind h.taken.tracked fun spaceState _ => ?_
      exact (hopen _ spaceState).tracked
    intro _ helper₁ hrevert
    simp only [onBuild_eq_ok, PartialBlock.adjustFinalizeBlockRevertToPrefinalizedState,
      Exec.bind_eq_ok, Exec.getState_eq_ok, Exec.unwrap_eq_ok, Exec.setState_eq_ok] at hrevert
    obtain ⟨_, ⟨_, _, ⟨rfl, rfl⟩, spaceState, _, ⟨-, rfl⟩, rfl⟩, rfl⟩ := hrevert
    refine .bind ((hexec _ (hopen _ spaceState)).mono fun _ h => h.tracked) fun rs helper₂ hcall => ?_
    exact .pure ((hexec _ (hopen _ spaceState)).of_eq hcall).tracked

/-- The transactions before the insertion: an adjustment has taken the payout out. -/
def infosBefore (adjust : Bool) (helper : BlockBuildingHelper δ) : List TransactionExecutionInfo :=
  if adjust then helper.build.partialBlock.executedTxInfos.dropLast
  else helper.build.partialBlock.executedTxInfos

/-- The transactions of a finalization that returned: those before, the constraint
    transactions that were inserted, and the payouts of the builder. -/
structure Inserted (evm : Evm δ) (ctx : BlockBuildingContext) (raw : ConstraintEnv) (adjust : Bool)
    (helper base inserted : BlockBuildingHelper δ) (payouts : List TransactionExecutionInfo)
    (payout : TransactionExecutionInfo) (helper' : BlockBuildingHelper δ) : Prop where
  adjustable : helper.finalizeAdjustmentState.isSome = adjust
  before : base.build.partialBlock.executedTxInfos = helper.infosBefore adjust
  tracked : base.appended = helper.appended
  notFinalized : base.finalizeAdjustmentState = none
  insert : insertConstraintTransactions evm ctx raw base = (.ok (), inserted)
  created : ∀ info ∈ payouts ++ [payout], IsCreated ctx info.tx
  infos : helper'.build.partialBlock.executedTxInfos =
    inserted.build.partialBlock.executedTxInfos ++ payouts ++ [payout]
  appended : helper'.appended = inserted.appended

variable {adjust : Bool} {localCtx : ThreadBlockBuildingContext η} {st start : FinalizeState δ η}

theorem finalizeBlockExecution_inserted
    {revertState revertState' : FinalizeRevertStateCurrentIteration}
    (h : finalizeBlockExecution evm ctx raw hashOrder value subsidy adjust revertState helper =
      (.ok revertState', helper')) :
    ∃ inserted payouts payout, insertConstraintTransactions evm ctx raw helper.withReward =
        (.ok (), inserted) ∧
      (∀ info ∈ payouts ++ [payout], IsCreated ctx info.tx) ∧
      helper'.build.partialBlock.executedTxInfos =
        inserted.build.partialBlock.executedTxInfos ++ payouts ++ [payout] ∧
      helper'.appended = inserted.appended := by
  obtain ⟨inserted, hinsert, b, hpay, _, -, _, -, rfl⟩ := finalizeBlockExecution_eq_ok.mp h
  obtain ⟨payouts, payout, hinfos, hcreated⟩ := insertRefundsAndProposerPayoutTx_infos hpay
  exact ⟨inserted, payouts, payout, hinsert, hcreated, hinfos, rfl⟩

theorem finalizeBlockImpl_inserted {block : Block}
    (h : finalizeBlockImpl evm ctx raw env hashOrder value subsidy seenCompetitionBid adjust
      (helper, localCtx) = (.ok block, st)) :
    ∃ base inserted payouts payout,
      Inserted evm ctx raw adjust helper base inserted payouts payout st.1 ∧
      block.sealedBlock.transactions = st.1.build.partialBlock.executedTxInfos.map (·.tx) ∧
      block.trace.appendedConstraintTxs = st.1.appended := by
  obtain ⟨before, helper₁, hprepare, parts, -, rfl, rfl⟩ := finalizeBlockImpl_eq_ok.mp h
  cases adjust with
  | false =>
    obtain ⟨hnone, revertState, hexec, -, -⟩ := prepareFinalize_eq_ok.mp hprepare
    obtain ⟨inserted, payouts, payout, hinsert, hpayouts, hinfos, happended⟩ :=
      finalizeBlockExecution_inserted hexec
    exact ⟨helper.withReward, inserted, payouts, payout, ⟨by rw [hnone]; rfl, rfl, rfl, hnone,
      hinsert, hpayouts, hinfos, happended⟩, rfl, rfl⟩
  | true =>
    obtain ⟨state, hsome, spaceState, -, revertState, hexec, -⟩ := prepareAdjust_eq_ok.mp hprepare
    obtain ⟨inserted, payouts, payout, hinsert, hpayouts, hinfos, happended⟩ :=
      finalizeBlockExecution_inserted hexec
    exact ⟨(helper.reverted state.revertState spaceState).withReward, inserted, payouts, payout,
      ⟨by rw [hsome]; rfl, rfl, rfl, rfl, hinsert, hpayouts, hinfos, happended⟩, rfl, rfl⟩

section Inserted

variable {adjust : Bool} {base inserted : BlockBuildingHelper δ}
  {payouts : List TransactionExecutionInfo} {payout : TransactionExecutionInfo}

theorem Inserted.open_base (h : Inserted evm ctx raw adjust helper base inserted payouts payout helper')
    (htracked : helper.Tracked) : base.Open := by
  refine ⟨h.tracked ▸ htracked.nodup, ?_, h.notFinalized⟩
  rw [h.tracked, executedHashes, h.before, infosBefore]
  cases adjust with
  | false => exact htracked.listed
  | true => exact htracked.kept h.adjustable

/-- The payout is the last transaction, so the appended ones stay when it is taken out. -/
theorem Inserted.keeps_tracked (laws : NonceLaws evm raw) (hashes : HashLaws raw)
    (h : Inserted evm ctx raw adjust helper base inserted payouts payout helper')
    (htracked : helper.Tracked) : helper'.Tracked := by
  have hopen : inserted.Open :=
    (insertConstraintTransactions_open laws hashes (h.open_base htracked)).of_eq h.insert
  have hkept : inserted.appended ⊆
      (inserted.build.partialBlock.executedTxInfos ++ payouts).map (·.tx.hash) := by
    rw [map_append]
    exact fun a ha => mem_append_left _ (hopen.listed ha)
  refine ⟨h.appended ▸ hopen.nodup, ?_, fun _ => ?_⟩
  · rw [h.appended, executedHashes, h.infos, map_append]
    exact fun a ha => mem_append_left _ (hkept ha)
  · rw [h.appended, h.infos, dropLast_concat]
    exact hkept

end Inserted

/-- However `finalize_block` or `adjust_finalized_block` ends. -/
theorem finalizeBlockImpl_tracked (laws : NonceLaws evm raw) (hashes : HashLaws raw) (adjust : Bool)
    (h : helper.Tracked) :
    (finalizeBlockImpl evm ctx raw env hashOrder value subsidy seenCompetitionBid adjust).Ends
      (helper, localCtx) fun st => st.1.Tracked := by
  refine .of_stops (fun block st hcall => ?_) ?_
  · obtain ⟨base, inserted, payouts, payout, hinserted, -, -⟩ := finalizeBlockImpl_inserted hcall
    exact hinserted.keeps_tracked laws hashes h
  have hprepare : (prepareFinalize evm ctx raw hashOrder value subsidy adjust).Ends helper Tracked :=
    prepareFinalize_tracked laws hashes adjust h
  refine .bind (.of_ends (.zoom hprepare)) fun before s hprepared => ?_
  obtain ⟨helper₁, hcall, rfl⟩ := Exec.zoom_eq_ok.mp hprepared
  have htracked := hprepare.of_eq hcall
  have hsame : ∀ s : SealState δ η, s.1.partialBlock = helper₁.build.partialBlock →
      ({ helper₁ with build := s.1 } : BlockBuildingHelper δ).Tracked := by
    intro s hs
    refine ⟨htracked.nodup, ?_, ?_⟩
    · rw [executedHashes, hs]
      exact htracked.listed
    · rw [hs]
      exact htracked.kept
  refine .bind (.of_ends (.zoom (.mapErr
    ((finalize_partialBlock adjust before localCtx).mono hsame)))) fun out s hsealed => ?_
  exact .of_eq_ok rfl

theorem dropLast_grows {α : Type} {l l' : List α} (h : l <+: l') : l.dropLast <+: l'.dropLast := by
  obtain ⟨rest, rfl⟩ := h
  rw [dropLast_append]
  split
  · exact prefix_refl _
  · exact ( dropLast_prefix l).trans (prefix_append ..)

/-- The block may grow, whatever the state. -/
theorem Tracked.grow (h : helper.Tracked)
    (hinfos : helper.build.partialBlock.executedTxInfos <+: helper'.build.partialBlock.executedTxInfos)
    (happended : helper'.appended = helper.appended)
    (hstate : helper'.finalizeAdjustmentState = helper.finalizeAdjustmentState) :
    helper'.Tracked := by
  refine ⟨happended ▸ h.nodup, ?_, fun hsome => ?_⟩
  · rw [happended]
    exact fun a ha => (hinfos.map _).subset (h.listed ha)
  · rw [happended]
    exact fun a ha => ((dropLast_grows hinfos).map _).subset (h.kept (hstate ▸ hsome) ha)

theorem commitOrder_tracked (hashOrder : HashOrder) (order : Order)
    (resultFilter : SimValue → Except ExecutionError Unit) (h : helper.Tracked) :
    (commitOrder evm ctx hashOrder order resultFilter).Ends helper Tracked := by
  refine .of_stops (fun r helper' hcall => ?_) ?_
  · obtain ⟨b, hblock, rfl⟩ := commitOrder_eq_ok.mp hcall
    obtain ⟨hinfos, -⟩ := ((PartialBlock.commitOrder_holds ..).of_ok hblock).1.replay
    refine h.grow ?_ rfl rfl
    change _ <+: b.partialBlock.executedTxInfos
    rw [hinfos]
    exact prefix_append ..
  refine .bind (.zoom (.bind (.of_ends (.getState (by exact h))) ?_)) fun _ _ _ => .of_eq_ok rfl
  intro _ _ hget
  obtain ⟨rfl, rfl⟩ := Exec.getState_eq_ok.mp hget
  refine .bind (.of_ends (onFork_ends fun state => ?_)) fun _ _ _ => .of_eq_ok rfl
  exact h.grow (prefix_refl _) rfl rfl

theorem tracked_of_calls (laws : NonceLaws evm raw) (hashes : HashLaws raw)
    (h : HelperCalls evm ctx raw env start st) (hstart : start.1.Tracked) : st.1.Tracked := by
  induction h with
  | nil => exact hstart
  | commitOrder _ hashOrder order resultFilter ih =>
    exact commitOrder_tracked hashOrder order resultFilter ih
  | finalize _ hashOrder value subsidy seenCompetitionBid adjust ih =>
    exact finalizeBlockImpl_tracked laws hashes adjust ih

/-! ## Sealed blocks -/

/-- What an insertion that returned has added: transactions that were not in the block, each
    with its hash. -/
theorem ConstraintRun.added (h : ConstraintRun evm ctx raw executed helper raws helper') :
    ∃ infos, helper'.build.partialBlock.executedTxInfos =
        helper.build.partialBlock.executedTxInfos ++ infos ∧
      helper'.appended = helper.appended ++ infos.map (·.tx.hash) ∧
      ∀ info ∈ infos, info.tx.hash ∉ executed := by
  induction h with
  | nil => exact ⟨[], (append_nil _).symm, (append_nil _).symm, by simp⟩
  | skipped _ _ _ ih | rejected _ _ _ _ ih => exact ih
  | @appended helper _ _ _ tx ok f _ hmem htry _ ih =>
    obtain ⟨rfl, -⟩ := (commitTx_holds ..).of_ok htry
    obtain ⟨infos, hinfos, happended, hfresh⟩ := ih
    refine ⟨ok.txInfo :: infos, ?_, ?_, ?_⟩
    · rw [hinfos]
      change helper.build.partialBlock.executedTxInfos ++ [ok.txInfo] ++ infos = _
      rw [append_assoc, singleton_append]
    · rw [happended]
      change helper.appended ++ [ok.txInfo.tx.hash] ++ _ = _
      rw [append_assoc, singleton_append, map_cons]
    intro info hinfo
    obtain rfl | hinfo := mem_cons.mp hinfo
    · exact hmem
    · exact hfresh info hinfo

end BlockBuildingHelper

/-- Every constraint transaction in the sealed block is listed exactly once for a proof, and
    what is listed is in the block. -/
def AllProven (ctx : BlockBuildingContext) (raw : ConstraintEnv) (block : Block) : Prop :=
  (∀ rawTx ∈ ctx.constraints.flatten, ∀ tx, raw.decode rawTx = .ok tx →
    tx.hash ∈ block.sealedBlock.transactions.map (·.hash) →
      block.trace.appendedConstraintTxs.count tx.hash = 1) ∧
  block.trace.appendedConstraintTxs ⊆ block.sealedBlock.transactions.map (·.hash)

/-- Every constraint transaction that is in the block before the insertion was appended by
    an insertion. -/
def OnlyAppended (ctx : BlockBuildingContext) (raw : ConstraintEnv) (adjust : Bool)
    (helper : BlockBuildingHelper δ) : Prop :=
  ∀ rawTx ∈ ctx.constraints.flatten, ∀ tx, raw.decode rawTx = .ok tx →
    tx.hash ∈ (helper.infosBefore adjust).map (·.tx.hash) → tx.hash ∈ helper.appended

/-- After every run of calls from a new helper, however they ended: when a finalization
    returns, all constraint transactions of its block are proven exactly if those that were
    in the block before were appended, where no payout of the builder has the hash of a
    constraint transaction. -/
theorem constraint_txs_proven_iff (laws : NonceLaws evm raw) (hashes : HashLaws raw)
    (hpayouts : ∀ rawTx ∈ ctx.constraints.flatten, ∀ tx, raw.decode rawTx = .ok tx →
      ∀ payout, IsCreated ctx payout → payout.hash ≠ tx.hash)
    {health : Except HistoricalBlockError Unit} {discardTxs : Bool} {start : BlockBuildingHelper δ}
    (hnew : BlockBuildingHelper.new evm ctx env health discardTxs = .ok start)
    {localCtx : ThreadBlockBuildingContext η} {st st' : FinalizeState δ η}
    (hcalls : HelperCalls evm ctx raw env (start, localCtx) st) {hashOrder : HashOrder} {value : Nat}
    {subsidy : Int} {seenCompetitionBid : Option Nat} {adjust : Bool} {block : Block}
    (hcall : finalizeBlockImpl evm ctx raw env hashOrder value subsidy
      seenCompetitionBid adjust st = (.ok block, st')) :
    AllProven ctx raw block ↔ OnlyAppended ctx raw adjust st.1 := by
  obtain ⟨payout, hisNew⟩ := new_spec hnew
  have hstart : start.Tracked := by
    have hnone : start.appended = [] := congrArg (·.appendedConstraintTxs) hisNew.trace
    refine ⟨by rw [hnone]; exact .nil, by rw [hnone]; exact nil_subset _, fun _ => ?_⟩
    rw [hnone]
    exact nil_subset _
  have htracked : st.1.Tracked := tracked_of_calls laws hashes hcalls hstart
  obtain ⟨base, inserted, payouts, payout, hins, htxs, htrace⟩ :=
    finalizeBlockImpl_inserted hcall
  have hafter := hins.keeps_tracked laws hashes htracked
  obtain ⟨added, hinfos, happended, hfresh⟩ :=
    (insertConstraintTransactions_ok hins.insert).added
  have hhashes : block.sealedBlock.transactions.map (·.hash) = st'.1.executedHashes := by
    rw [htxs, map_map]
    rfl
  have hbase : base.executedHashes = (st.1.infosBefore adjust).map (·.tx.hash) := by
    rw [executedHashes, hins.before]
  have hlist : st'.1.executedHashes = base.executedHashes ++ added.map (·.tx.hash) ++
      (payouts ++ [payout]).map (·.tx.hash) := by
    simp only [executedHashes, hins.infos, hinfos, map_append,
      append_assoc]
  have hall : st'.1.appended = st.1.appended ++ added.map (·.tx.hash) := by
    rw [hins.appended, happended, hins.tracked]
  rw [AllProven, hhashes, htrace]
  constructor
  · rintro ⟨hproven, -⟩ rawTx hmem tx hdecode hin
    have hcount := hproven rawTx hmem tx hdecode (by
      rw [hlist, hbase]
      exact mem_append_left _ (mem_append_left _ hin))
    have hlisted : tx.hash ∈ st'.1.appended := count_pos_iff.mp (by omega)
    rw [hall] at hlisted
    obtain hlisted | hlisted := mem_append.mp hlisted
    · exact hlisted
    · obtain ⟨info, hinfo, heq⟩ := mem_map.mp hlisted
      exact (hfresh info hinfo (by rw [heq, hbase]; exact hin)).elim
  intro honly
  refine ⟨fun rawTx hmem tx hdecode hin => ?_, hafter.listed⟩
  refine count_eq_one_of_mem hafter.nodup ?_
  rw [hall]
  rw [hlist] at hin
  obtain hin | hin := mem_append.mp hin
  · obtain hin | hin := mem_append.mp hin
    · exact mem_append_left _ (honly rawTx hmem tx hdecode (hbase ▸ hin))
    · exact mem_append_right _ hin
  · obtain ⟨info, hinfo, heq⟩ := mem_map.mp hin
    exact (hpayouts rawTx hmem tx hdecode info.tx (hins.created info hinfo) heq).elim

/-! ### Examples -/

/-- The nonce of an account after `changes`. -/
def nonceAfter (read : Address → Option AccountInfo) (changes : Accounts) (a : Address) : UInt64 :=
  (((changes.lookup a).orElse fun _ => read a).map (·.nonce)).getD 0

theorem nonceAfter_credit (read : Address → Option AccountInfo) (changes : Accounts) (a b : Address)
    (amount : Nat) :
    nonceAfter read (credit read changes a amount) b = nonceAfter read changes b := by
  unfold nonceAfter
  rw [lookup_credit]
  split
  · rename_i h
    subst h
    generalize (changes.lookup b).orElse (fun _ => read b) = acc
    cases acc with
    | none | some acc => rfl
  · rfl

/-- The nonce of the signer grows by one, the others stay. -/
theorem nonceAfter_transfer {read : Address → Option AccountInfo} {tx : Tx}
    {res : ResultAndState Accounts} (h : transfer ctx read tx = .ok res) :
    nonceAfter read [] tx.signer = tx.nonce ∧ tx.nonce < tx.nonce + 1 ∧
      ∀ a, nonceAfter read res.state a =
        if a = tx.signer then tx.nonce + 1 else nonceAfter read [] a := by
  obtain ⟨sender, recipient, value, htransfer⟩ := transfer_ok h
  refine ⟨?_, ?_, fun a => ?_⟩
  · rw [← htransfer.nonce, ← htransfer.account, nonceAfter]
    cases read tx.signer <;> rfl
  · have hne : tx.nonce.toNat ≠ 0xFFFFFFFFFFFFFFFF :=
      fun h => htransfer.notLast (UInt64.toNat_inj.mp h)
    have hsize := tx.nonce.toNat_lt
    rw [UInt64.lt_iff_toNat_lt, UInt64.toNat_add]
    change _ < (tx.nonce.toNat + 1) % 2 ^ 64
    omega
  · rw [htransfer.state, nonceAfter_credit, nonceAfter_credit, ← htransfer.nonce]
    unfold nonceAfter
    by_cases ha : a = tx.signer
    · subst ha
      simp
    · simp [lookup_cons, ha, beq_eq_false_iff_ne.mpr ha]

theorem transferEvm_nonceLaws (ctx : BlockBuildingContext) (base : Accounts) (raw : ConstraintEnv) :
    NonceLaws (transferEvm ctx base) raw := by
  have hread (s changes a) : (transferEvm ctx base).nonce (s.push changes) a =
      .ok (nonceAfter (readAccount base s) changes a) := by
    simp only [transferEvm, Evm.nonce, Except.map, readAccount_push]
    rfl
  refine ⟨fun s _ tx res _ hres => ?_, fun s _ tx res _ hres => ?_, ?_⟩
  · exact congrArg Except.ok (nonceAfter_transfer hres).1
  · obtain ⟨-, hlt, hafter⟩ := nonceAfter_transfer hres
    exact ⟨_, hread .., by rwa [hafter, if_pos rfl]⟩
  · intro s _ tx tx' res n _ hres hn
    obtain ⟨hsigner, hlt, hafter⟩ := nonceAfter_transfer hres
    obtain rfl : nonceAfter (readAccount base s) [] tx.signer = n := Except.ok.inj hn
    refine ⟨_, hread .., ?_⟩
    rw [hafter]
    split
    · next ha =>
      rw [ha, hsigner]
      exact UInt64.le_of_lt hlt
    · exact UInt64.le_refl _

/-- A payment with a tip of 100 for each unit of gas. -/
def tippingTx : Tx := { userTx 0 shop 5 with maxFeePerGas := 120, maxPriorityFeePerGas := 100 }

theorem singleRaw_hashLaws (tx : Tx) : HashLaws (singleRaw tx) where
  decoded := by
    have hdecode : ∀ rawTx tx', (singleRaw tx).decode rawTx = .ok tx' → tx' = tx := by
      intro rawTx tx' h
      simp only [singleRaw] at h
      split at h
      · cases h
        rfl
      · cases h
    intro rawTx rawTx' tx₁ tx₂ h₁ h₂ _
    rw [hdecode _ _ h₁, hdecode _ _ h₂]
    exact ⟨rfl, rfl⟩

/-- The payouts of the example builder have other hashes. -/
theorem tippingTx_not_created : ∀ rawTx ∈ constrainedCtx.constraints.flatten, ∀ tx,
    (singleRaw tippingTx).decode rawTx = .ok tx →
      ∀ payout, IsCreated constrainedCtx payout → payout.hash ≠ tx.hash := by
  rintro rawTx - tx hdecode payout ⟨nonce, recipient, gas, value, hcreate⟩ heq
  have htx : tx = tippingTx := by
    simp only [singleRaw] at hdecode
    split at hdecode
    · cases hdecode
      rfl
    · cases hdecode
  cases hcreate
  have hfirst := congrArg (fun hash : B256 => hash[0]) heq
  rw [htx] at hfirst
  simp [tippingTx, userTx] at hfirst

def finalizeInclusion : Exec (FinalizeState Accounts Unit) Empty
    BlockBuildingHelperError Block :=
  finalizeBlockImpl inclusionEvm constrainedCtx (singleRaw tippingTx) exampleEnv
    insertionOrder 1000000 0 none false

/-- Without orders the constraint transaction is appended and proven. -/
theorem constraint_txs_proven_iff_appended :
    ∃ start block st, BlockBuildingHelper.new inclusionEvm constrainedCtx exampleEnv (.ok ()) true =
        .ok start ∧
      finalizeInclusion (start, ⟨{}, {}, ()⟩) = (.ok block, st) ∧
      st.1.appended = [tippingTx.hash] ∧ AllProven constrainedCtx (singleRaw tippingTx) block := by
  obtain ⟨start, hnew, hsealed, happended, hinfos⟩ : ∃ start,
      BlockBuildingHelper.new inclusionEvm constrainedCtx exampleEnv (.ok ()) true = .ok start ∧
        (finalizeInclusion (start, ⟨{}, {}, ()⟩)).1.isOk = true ∧
        (finalizeInclusion (start, ⟨{}, {}, ()⟩)).2.1.appended = [tippingTx.hash] ∧
        (start.infosBefore false).map (·.tx.hash) = [] :=
    ⟨_, rfl, by decide +kernel, by decide +kernel, by decide +kernel⟩
  obtain ⟨block, hcall⟩ := Outcome.exists_of_isOk hsealed
  have hiff := constraint_txs_proven_iff (transferEvm_nonceLaws constrainedCtx exampleAccounts _)
    (singleRaw_hashLaws tippingTx) tippingTx_not_created hnew .nil hcall
  refine ⟨start, block, _, hnew, hcall, happended, hiff.mpr ?_⟩
  intro rawTx _ tx _ hin
  rw [hinfos] at hin
  exact (not_mem_nil hin).elim

def commitTipping :=
  BlockBuildingHelper.commitOrder inclusionEvm constrainedCtx insertionOrder (.tx tippingTx)
    fun _ => .ok ()

/-- As an order the constraint transaction is in the sealed block and has no proof. -/
theorem constraint_tx_of_order_not_proven :
    ∃ start block st, BlockBuildingHelper.new inclusionEvm constrainedCtx exampleEnv (.ok ()) true =
        .ok start ∧
      finalizeInclusion ((commitTipping start).2, ⟨{}, {}, ()⟩) = (.ok block, st) ∧
      [1] ∈ constrainedCtx.constraints.flatten ∧
      (singleRaw tippingTx).decode [1] = .ok tippingTx ∧
      tippingTx.hash ∈ block.sealedBlock.transactions.map (·.hash) ∧
      block.trace.appendedConstraintTxs = [] ∧
      ¬ AllProven constrainedCtx (singleRaw tippingTx) block := by
  obtain ⟨start, hnew, hsealed, happended, hlisted⟩ : ∃ start,
      BlockBuildingHelper.new inclusionEvm constrainedCtx exampleEnv (.ok ()) true = .ok start ∧
        (finalizeInclusion ((commitTipping start).2, ⟨{}, {}, ()⟩)).1.isOk = true ∧
        (finalizeInclusion ((commitTipping start).2, ⟨{}, {}, ()⟩)).2.1.appended = [] ∧
        tippingTx.hash ∈
          (finalizeInclusion ((commitTipping start).2, ⟨{}, {}, ()⟩)).2.1.executedHashes :=
    ⟨_, rfl, by decide +kernel, by decide +kernel, by decide +kernel⟩
  obtain ⟨block, hcall⟩ := Outcome.exists_of_isOk hsealed
  obtain ⟨_, _, _, _, -, htxs, htrace⟩ := finalizeBlockImpl_inserted hcall
  have hin : tippingTx.hash ∈ block.sealedBlock.transactions.map (·.hash) := by
    rw [htxs, map_map]
    exact hlisted
  rw [happended] at htrace
  refine ⟨start, block, _, hnew, hcall, by decide, rfl, hin, htrace, fun hproven => ?_⟩
  have hcount := hproven.1 [1] (by decide) tippingTx rfl hin
  rw [htrace] at hcount
  cases hcount

end Building
