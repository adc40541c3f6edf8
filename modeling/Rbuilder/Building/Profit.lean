/-
  The accounts of the builder.

  What the coinbase gains with each order is the profit that the block counts, what is owed
  for a kickback and the fee to pay it with; a system transaction may take something away
  (`OrderAdded.accounted`). Along a run these add up (`CommitRun.accounted`), with exactly
  one fee for each recipient of a combined refund. The refunds and the proposer's payout
  cost at most what was put aside for them and the value that is paid, so the builder is
  left with what it had before, the price of the block and the refunds that are paid later.
-/
import Rbuilder.Building.Finalized
import Rbuilder.Building.Space

namespace Building

open SparseMpt Rollback BlockBuildingHelper PartialBlock List Option Nat

variable {δ η : Type} {evm : Evm δ} {ctx : BlockBuildingContext} {raw : ConstraintEnv}

/-! ## Combined refunds -/

section Total

variable {α : Type}

/-- The sum of the values in a map. -/
def totalOf (entries : List (Sigma fun _ : α => Nat)) : Nat := (entries.map (·.2)).sum

theorem totalOf_cons (entry : Sigma fun _ : α => Nat) (entries : List (Sigma fun _ : α => Nat)) :
    totalOf (entry :: entries) = entry.2 + totalOf entries := by
  simp [totalOf]

theorem totalOf_perm {entries entries' : List (Sigma fun _ : α => Nat)}
    (h : entries.Perm entries') : totalOf entries = totalOf entries' :=
  (h.map _).sum_nat

variable [DecidableEq α]

theorem totalOf_insert (m : AList fun _ : α => Nat) (a : α) (v : Nat) :
    totalOf (m.insert a ((m.lookup a).getD 0 + v)).entries = totalOf m.entries + v := by
  cases h : m.lookup a with
  | none =>
    rw [AList.entries_insert_of_notMem (AList.lookup_eq_none.mp h), totalOf_cons]
    simp [add_comm]
  | some w =>
    have hperm : totalOf m.entries = w + totalOf (m.erase a).entries :=
      totalOf_perm (AList.entries_perm_erase h)
    change w + v + totalOf (m.erase a).entries = _
    omega

end Total

theorem totalOf_add (refunds : Refunds) (recipient : Address) (value : Nat) :
    totalOf (refunds.add recipient value).entries = totalOf refunds.entries + value :=
  totalOf_insert ..

/-! ## Orders -/

/-- The fee that is put aside for a kickback. -/
def kickbackFee (kickback : Option DelayedKickback) : Nat := (kickback.map (·.payoutTxFee)).getD 0

/-- The fees put aside for the kickbacks of included orders. -/
def kickbackFees (rs : List ExecutionResult) : Nat :=
  (rs.map fun r => kickbackFee r.delayedKickback).sum

/-- What the system transactions among included orders took from the coinbase. -/
def systemLosses (rs : List ExecutionResult) : Nat :=
  (rs.map fun r => systemLoss r.order r.txInfos).sum

/-- What the block says the coinbase has gained: its profit and the refunds. -/
def PartialBlock.gained (block : PartialBlock) : Nat :=
  block.coinbaseProfit + totalOf block.combinedRefunds.entries + block.delayedRefund

/-- The fee of a refund. -/
def refundFee (ctx : BlockBuildingContext) : Nat := ctx.basefee.toNat * baseTxGas.toNat

theorem gained_addOrder (block : PartialBlock) (ok : OrderOk) :
    (block.addOrder ok).gained + kickbackFee ok.delayedKickback =
      block.gained + ok.coinbaseProfit + owedFor ok.delayedKickback := by
  unfold addOrder gained kickbackFee owedFor
  cases ok.delayedKickback with
  | none =>
    simp only [map_none, getD_none]
    omega
  | some kickback =>
    simp only [map_some, getD_some]
    split
    · dsimp only
      rw [totalOf_add]
      omega
    · dsimp only
      omega

/-- A fee is put aside for a recipient that is new. -/
theorem kickbackFee_addOrder {block : PartialBlock} {ok : OrderOk} {reserved cumulative : BlockSpace}
    (hk : KickbackOk ctx reserved block.combinedRefunds cumulative ok.delayedKickback) :
    kickbackFee ok.delayedKickback + refundFee ctx * block.combinedRefunds.keys.length =
      refundFee ctx * (block.addOrder ok).combinedRefunds.keys.length := by
  unfold addOrder kickbackFee
  generalize ok.delayedKickback = kickback at hk
  cases hk with
  | none => exact zero_add _
  | pipeline k hpay hfee =>
    simp only [hpay, hfee, Bool.false_eq_true, if_false, map_some, getD_some, zero_add]
  | known k hpay hmem hfee _ =>
    simp only [hpay, hfee, if_true, map_some, getD_some, zero_add, length_keys_add, if_pos hmem]
  | fresh k hpay hmem hfee _ _ =>
    simp only [hpay, hfee, if_true, map_some, getD_some, length_keys_add,
      if_neg hmem, mul_succ, refundFee]
    omega

/-- From `b` to `b'` the coinbase gained what the block counts and the fees put aside,
    without the losses of system transactions. -/
structure Accounted (evm : Evm δ) (ctx : BlockBuildingContext) (b : BuildState δ)
    (rs : List ExecutionResult) (b' : BuildState δ) : Prop where
  balance : ∀ before, evm.balance b.blockState ctx.beneficiary = .ok before →
    ∃ now, evm.balance b'.blockState ctx.beneficiary = .ok now ∧
      now + b.partialBlock.gained + systemLosses rs =
        before + b'.partialBlock.gained + kickbackFees rs
  fees : kickbackFees rs + refundFee ctx * b.partialBlock.combinedRefunds.keys.length =
    refundFee ctx * b'.partialBlock.combinedRefunds.keys.length

variable {b b' : BuildState δ}

theorem OrderAdded.accounted {order : Order} {r : ExecutionResult}
    (h : OrderAdded evm ctx order b r b') : Accounted evm ctx b [r] b' := by
  obtain ⟨rfl, ok, hinfos, hkickback, hblock, n, hdone⟩ := h
  have hgained := gained_addOrder b.partialBlock ok
  refine ⟨fun before hbefore => ?_, ?_⟩
  · obtain ⟨before', after, hbefore', hafter, hbalance⟩ := hdone.balance
    obtain rfl : before = before' := Except.ok.inj (hbefore.symm.trans hbefore')
    refine ⟨after, hafter, ?_⟩
    simp only [systemLosses, kickbackFees, map_singleton, sum_singleton, hinfos, hkickback, hblock]
    omega
  · simp only [kickbackFees, map_singleton, sum_singleton, hkickback, hblock]
    exact kickbackFee_addOrder hdone.kickback

theorem CommitRun.accounted {rs : List ExecutionResult}
    (h : CommitRun evm ctx b rs b') : Accounted evm ctx b rs b' := by
  induction h with
  | nil => exact ⟨fun before hbefore => ⟨before, hbefore, rfl⟩, zero_add _⟩
  | @included rs b' b'' _ _ _ _ r hcall ih =>
    have hadded := ((PartialBlock.commitOrder_holds ..).of_ok hcall).1.accounted
    have hfees : kickbackFees (rs ++ [r]) = kickbackFees rs + kickbackFees [r] := by
      simp [kickbackFees]
    have hlosses : systemLosses (rs ++ [r]) = systemLosses rs + systemLosses [r] := by
      simp [systemLosses]
    refine ⟨fun before hbefore => ?_, ?_⟩
    · obtain ⟨mid, hmid, hfirst⟩ := ih.balance before hbefore
      obtain ⟨now, hnow, hsecond⟩ := hadded.balance mid hmid
      refine ⟨now, hnow, ?_⟩
      omega
    · have hfirst := ih.fees
      have hsecond := hadded.fees
      omega
  | rejected _ hcall ih =>
    have hsame := (PartialBlock.commitOrder_holds ..).of_err hcall
    rwa [hsame]

/-! ## Payouts -/

/-- What is assumed of the EVM: no transaction uses more than its gas limit, and a payout of the
    coinbase costs it at most the value and the base fee. -/
structure PayoutLaws (evm : Evm δ) (ctx : BlockBuildingContext) : Prop where
  gasUsed : ∀ s tx res, evm.transact s tx = .ok res → res.result.gasUsed ≤ tx.gasLimit
  cost : ∀ s tx res before after, IsCreated ctx tx → tx.signer = ctx.beneficiary →
    evm.transact s tx = .ok res → evm.balance s ctx.beneficiary = .ok before →
    evm.balance (s.push res.state) ctx.beneficiary = .ok after →
    before ≤ after + tx.value + ctx.basefee.toNat * res.result.gasUsed.toNat

section Payouts

variable {b b' : BuildState δ} {nonce gas nonce' : UInt64} {recipient : Address}
  {value before : Nat}

section

variable (laws : PayoutLaws evm ctx) (hsigner : ctx.builderSigner.address = ctx.beneficiary)
include laws hsigner

/-- A payout costs at most its value and the base fee of its gas limit. -/
theorem Paid.cost {tx : Tx} {info : TransactionExecutionInfo}
    (htx : createPayoutTx ctx nonce recipient gas value = .ok tx) (hpaid : Paid evm ctx tx b info b')
    (hbefore : evm.balance b.blockState ctx.beneficiary = .ok before) :
    ∃ after, evm.balance b'.blockState ctx.beneficiary = .ok after ∧
      before ≤ after + value + ctx.basefee.toNat * gas.toNat := by
  have hpayout := createPayoutTx_spec htx
  obtain ⟨res, hres, hpush, -⟩ := hpaid.committed.executed
  obtain ⟨_, after, -, hafter, -⟩ := hpaid.committed.profit
  rw [hpaid.tx] at hres
  have hcost := laws.cost _ _ _ _ _ ⟨_, _, _, _, htx⟩ (hpayout.signer.trans hsigner) hres hbefore
    (hpush ▸ hafter)
  have hused := UInt64.le_iff_toNat_le.mp (laws.gasUsed _ _ _ hres)
  rw [hpayout.gasLimit] at hused
  have hfee := mul_le_mul_left ctx.basefee.toNat hused
  rw [hpayout.value] at hcost
  exact ⟨after, hafter, by omega⟩

/-- The refunds cost at most their sum and one fee for each. -/
theorem RefundRun.cost {entries : Payouts}
    (h : RefundRun evm ctx entries nonce b nonce' b')
    (hbefore : evm.balance b.blockState ctx.beneficiary = .ok before) :
    ∃ after, evm.balance b'.blockState ctx.beneficiary = .ok after ∧
      before ≤ after + totalOf entries + refundFee ctx * entries.length := by
  induction h generalizing before with
  | nil => exact ⟨before, hbefore, le_add_right _ _⟩
  | skipped _ ih =>
    obtain ⟨after, hafter, hle⟩ := ih hbefore
    refine ⟨after, hafter, ?_⟩
    rw [totalOf_cons, length_cons, mul_succ]
    omega
  | paid _ htx hpaid _ ih =>
    obtain ⟨mid, hmid, hpay⟩ := hpaid.cost laws hsigner htx hbefore
    obtain ⟨after, hafter, hle⟩ := ih hmid
    refine ⟨after, hafter, ?_⟩
    rw [totalOf_cons, length_cons, mul_succ]
    simp only [refundFee] at hle ⊢
    omega

/-- The refunds and the proposer's payout cost at most what the refunds are, one fee for
    each, the value that is paid and the fee of the payout. -/
theorem insertRefundsAndProposerPayoutTx_cost {hashOrder : HashOrder}
    {revertState revertState' : FinalizeRevertStateCurrentIteration}
    (hcall : insertRefundsAndProposerPayoutTx evm ctx hashOrder gas value false
      revertState b = (.ok revertState', b'))
    (hbefore : evm.balance b.blockState ctx.beneficiary = .ok before) :
    ∃ after, evm.balance b'.blockState ctx.beneficiary = .ok after ∧
      before ≤ after + totalOf b.partialBlock.combinedRefunds.entries +
        refundFee ctx * b.partialBlock.combinedRefunds.keys.length + value +
        ctx.basefee.toNat * gas.toNat := by
  obtain ⟨nonce, nonce', b₁, tx, info, hrun, htx, hpaid, -⟩ := insertRefundsAndProposerPayoutTx_ok hcall
  obtain ⟨mid, hmid, hfirst⟩ := hrun.cost laws hsigner hbefore
  obtain ⟨after, hafter, hsecond⟩ := hpaid.cost laws hsigner htx hmid
  have hperm := hashOrder.perm b.partialBlock.combinedRefunds.entries
  have hlength : (hashOrder.order b.partialBlock.combinedRefunds.entries).length =
      b.partialBlock.combinedRefunds.keys.length := by
    rw [hperm.length_eq]
    exact (length_map _).symm
  rw [if_neg Bool.false_ne_true, totalOf_perm hperm, hlength] at hfirst
  exact ⟨after, hafter, by omega⟩

end

end Payouts

/-! ## Finalization -/

section Finalization

variable {env : SealEnv δ η} {start helper : BlockBuildingHelper δ} {before value trueValue : Nat}

/-- What the first finalization of a block without constraints costs the builder, before the
    requests and the withdrawals are merged. -/
theorem finalizeBlock_cost (laws : PayoutLaws evm ctx)
    (hsigner : ctx.builderSigner.address = ctx.beneficiary) (hnone : ctx.constraints = [])
    {hashOrder : HashOrder} {subsidy : Int} {seenCompetitionBid : Option Nat}
    {localCtx : ThreadBlockBuildingContext η} {block : Block} {st : FinalizeState δ η}
    (hcall : finalizeBlock evm ctx raw env hashOrder value subsidy
      seenCompetitionBid (helper, localCtx) = (.ok block, st))
    (hbefore : evm.balance helper.build.blockState ctx.beneficiary = .ok before) :
    ∃ after, evm.balance (st.1.build.blockState.revert 1) ctx.beneficiary = .ok after ∧
      before ≤ after + totalOf helper.build.partialBlock.combinedRefunds.entries +
        refundFee ctx * helper.build.partialBlock.combinedRefunds.keys.length + value +
        ctx.basefee.toNat * helper.payoutTxGas.toNat := by
  obtain ⟨adjustment, helper₁, hprepare, parts, -, -, rfl⟩ := finalizeBlockImpl_eq_ok.mp hcall
  obtain ⟨-, revertState, hexec, -, -⟩ := prepareFinalize_eq_ok.mp hprepare
  obtain ⟨helper₂, hinsert, b, hpay, _, -, _, -, rfl⟩ := finalizeBlockExecution_eq_ok.mp hexec
  have hrun := insertConstraintTransactions_ok hinsert
  rw [hnone, flatten_nil] at hrun
  cases hrun
  exact insertRefundsAndProposerPayoutTx_cost laws hsigner hpay hbefore

theorem trueBlockValue_eq_ok (h : helper.trueBlockValue ctx = .ok trueValue) :
    trueValue + ctx.mevBlockerPrice + ctx.basefee.toNat * helper.payoutTxGas.toNat =
      helper.build.partialBlock.coinbaseProfit := by
  unfold trueBlockValue getProposerPayoutTxValue at h
  rw [mapError_eq_ok, mul_comm helper.payoutTxGas.toNat] at h
  dsimp only at h
  split at h
  · cases h
    omega
  · cases h

/-- Along every run from a new helper the coinbase gains what the block counts; and a first
    finalization that pays at most the true block value leaves the builder with what it had,
    the price of the block and the refunds that are paid later, without the losses of system
    transactions. -/
theorem builder_never_pays_more_than_earned (raw : ConstraintEnv) (laws : PayoutLaws evm ctx)
    (hsigner : ctx.builderSigner.address = ctx.beneficiary) (hnone : ctx.constraints = [])
    {health : Except HistoricalBlockError Unit} {discardTxs : Bool} {rs : List ExecutionResult}
    (hnew : BlockBuildingHelper.new evm ctx env health discardTxs = .ok start)
    (hrun : OrderRun evm ctx start rs helper)
    (hbefore : evm.balance start.build.blockState ctx.beneficiary = .ok before) :
    ∃ now, evm.balance helper.build.blockState ctx.beneficiary = .ok now ∧
      (now : Int) - before = helper.build.partialBlock.coinbaseProfit +
        totalOf helper.build.partialBlock.combinedRefunds.entries + kickbackFees rs +
        helper.build.partialBlock.delayedRefund - systemLosses rs ∧
      ∀ (hashOrder : HashOrder) (value : Nat) (subsidy : Int) (seenCompetitionBid : Option Nat)
        (localCtx : ThreadBlockBuildingContext η) (trueValue : Nat) (block : Block)
        (st : FinalizeState δ η),
        helper.trueBlockValue ctx = .ok trueValue → value ≤ trueValue →
        finalizeBlock evm ctx raw env hashOrder value subsidy seenCompetitionBid
          (helper, localCtx) = (.ok block, st) →
        ∃ after, evm.balance (st.1.build.blockState.revert 1) ctx.beneficiary = .ok after ∧
          (before : Int) + ctx.mevBlockerPrice + helper.build.partialBlock.delayedRefund -
            systemLosses rs ≤ after := by
  obtain ⟨payout, hisNew⟩ := new_spec hnew
  have haccounted := hrun.commitRun.1.accounted
  obtain ⟨now, hnow, hbalance⟩ := haccounted.balance before hbefore
  have hfees := haccounted.fees
  rw [hisNew.block] at hbalance hfees
  -- a new block has gained nothing and owes no refunds
  change now + 0 + systemLosses rs = _ at hbalance
  change kickbackFees rs + 0 = _ at hfees
  simp only [PartialBlock.gained] at hbalance
  refine ⟨now, hnow, by omega, ?_⟩
  intro hashOrder value subsidy seenCompetitionBid localCtx trueValue block st htrue hle hcall
  obtain ⟨after, hafter, hcost⟩ := finalizeBlock_cost laws hsigner hnone hcall hnow
  have hprofit := trueBlockValue_eq_ok htrue
  exact ⟨after, hafter, by omega⟩

end Finalization

/-! ### Example -/

theorem readAccount_push (base : Accounts) (s : BlockState Accounts) (changes : Accounts) (a : Address) :
    readAccount base (s.push changes) a =
      (changes.lookup a).orElse fun _ => readAccount base s a := by
  rw [readAccount, Journal.push, flatten_cons, append_assoc, lookup_append]
  cases changes.lookup a <;> rfl

variable (read : Address → Option AccountInfo)

theorem lookup_credit (changes : Accounts) (a b : Address)
    (amount : Nat) :
    (credit read changes a amount).lookup b = if b = a then
      some { ((changes.lookup a).orElse fun _ => read a).getD ⟨0, 0, emptyCodeHash⟩ with
        balance := .ofNat 256 ((((changes.lookup a).orElse fun _ => read a).getD
          ⟨0, 0, emptyCodeHash⟩).balance.toNat + amount) }
    else changes.lookup b := by
  rw [credit, lookup_cons]
  split
  · rename_i h
    rw [if_pos (beq_iff_eq.mp h)]
  · rename_i h
    rw [if_neg (beq_eq_false_iff_ne.mp h)]

/-- What the sender of a transfer has that pays no tip and is the coinbase. -/
theorem lookup_credit_sender (a recipient : Address)
    (paid : AccountInfo) (value : Nat) :
    ∃ acc, (credit read (credit read [(a, paid)] recipient value) a 0).lookup a = some acc ∧
      acc.balance.toNat =
        if a = recipient then (paid.balance.toNat + value) % 2 ^ 256 else paid.balance.toNat := by
  refine ⟨_, by rw [lookup_credit, if_pos rfl], ?_⟩
  rw [lookup_credit]
  split
  · rename_i h
    subst h
    simp
  · simp

theorem transferEvm_payoutLaws (ctx : BlockBuildingContext) (base : Accounts) :
    PayoutLaws (transferEvm ctx base) ctx where
  gasUsed _ _ _ hres := by
    obtain ⟨_, _, _, htransfer⟩ := transfer_ok hres
    exact htransfer.gasUsed ▸ htransfer.gas
  cost s tx res before after hcreated hsigner hres hbefore hafter := by
    obtain ⟨_, _, _, _, hcreate⟩ := hcreated
    obtain ⟨sender, recipient, value, htransfer⟩ := transfer_ok hres
    obtain ⟨acc, hacc, hbalance⟩ := lookup_credit_sender (readAccount base s) ctx.beneficiary
      recipient { sender with
        nonce := sender.nonce + 1
        balance := .ofNat 256
          (sender.balance.toNat - baseTxGas.toNat * ctx.basefee.toNat - value) } value
    have hstate := htransfer.state
    simp only [(createPayoutTx_spec hcreate).maxPriorityFeePerGas, zero_min, mul_zero, add_zero,
      hsigner] at hstate
    have hafter' : acc.balance.toNat = after := by
      simpa [Evm.balance, transferEvm, Except.map, readAccount_push, hstate, hacc] using hafter
    have hbefore' : sender.balance.toNat = before := by
      rw [← htransfer.account, hsigner]
      simp only [Evm.balance, transferEvm, Except.map, Except.ok.injEq] at hbefore
      rw [← hbefore]
      cases readAccount base s ctx.beneficiary <;> rfl
    have hle := htransfer.arrives
    have hfunds := htransfer.funds
    rw [htransfer.gasUsed, ← hafter', hbalance, mul_comm ctx.basefee.toNat, BitVec.toNat_ofNat]
    split <;> omega

/-- A payment with a tip of 100 for each unit of gas, half of which is refunded to the shop. -/
def refundingBundle : Order :=
  let tx := { userTx 0 shop 5 with maxFeePerGas := 120, maxPriorityFeePerGas := 100 }
  .bundle
    { block := some 7, minTimestamp := none, maxTimestamp := none, txs := [tx],
      revertingTxHashes := [], droppingTxHashes := [],
      refund := some ⟨50, shop, tx.hash, false⟩ }

def commitRefunding :=
  BlockBuildingHelper.commitOrder exampleEvm exampleCtx insertionOrder refundingBundle
    fun _ => .ok ()

/-- The first finalization with a payout of `value`. -/
def finalizeExample (value : Nat) : Exec (FinalizeState Accounts Unit) Empty
    BlockBuildingHelperError Block :=
  finalizeBlock exampleEvm exampleCtx plainRaw exampleEnv insertionOrder value 0
    none

/-- The builder earns 2100000, of which 1050000 are for the refund and its fee; it pays
    840000 to the proposer and the fee of the payout, and is left with what it had. -/
theorem builder_never_pays_more_than_earned_refunding :
    ∃ start r helper block st after,
      BlockBuildingHelper.new exampleEvm exampleCtx exampleEnv (.ok ()) true = .ok start ∧
      commitRefunding start = (.ok r, helper) ∧
      helper.trueBlockValue exampleCtx = .ok 840000 ∧
      finalizeExample 840000 (helper, ⟨{}, {}, ()⟩) = (.ok block, st) ∧
      exampleEvm.balance (st.1.build.blockState.revert 1) builder = .ok after ∧
      (1000000000 : Int) ≤ after := by
  obtain ⟨start, hnew, hincluded, hvalue, hsealed, hbefore⟩ : ∃ start,
      BlockBuildingHelper.new exampleEvm exampleCtx exampleEnv (.ok ()) true = .ok start ∧
        (commitRefunding start).1.isOk = true ∧
        (commitRefunding start).2.build.partialBlock.getProposerPayoutTxValue exampleCtx
          (commitRefunding start).2.payoutTxGas = .ok 840000 ∧
        (finalizeExample 840000 ((commitRefunding start).2, ⟨{}, {}, ()⟩)).1.isOk = true ∧
        exampleEvm.balance start.build.blockState builder = .ok 1000000000 :=
    ⟨_, rfl, by decide +kernel, by decide +kernel, by decide +kernel, by decide +kernel⟩
  obtain ⟨r, hcall⟩ := Outcome.exists_of_isOk hincluded
  obtain ⟨block, hfinal⟩ := Outcome.exists_of_isOk hsealed
  have hrun : OrderRun exampleEvm exampleCtx start [r] (commitRefunding start).2 :=
    .included .nil hcall
  obtain ⟨now, -, -, hpaid⟩ := builder_never_pays_more_than_earned plainRaw
    (transferEvm_payoutLaws exampleCtx exampleAccounts) rfl rfl hnew hrun hbefore
  have htrue : (commitRefunding start).2.trueBlockValue exampleCtx = .ok 840000 :=
    mapError_eq_ok.mpr hvalue
  obtain ⟨after, hafter, hle⟩ := hpaid insertionOrder 840000 0 none ⟨{}, {}, ()⟩ 840000 block _
    htrue (Nat.le_refl _) hfinal
  refine ⟨start, r, _, block, _, after, hnew, hcall, htrue, hfinal, hafter, ?_⟩
  obtain ⟨b, hadd, -⟩ := commitOrder_eq_ok.mp hcall
  have horder : r.order = refundingBundle := ((PartialBlock.commitOrder_holds _ _ _ _).of_ok hadd).1.1
  have hloss : systemLosses [r] = 0 := by
    rw [systemLosses, List.map_singleton, List.sum_singleton, horder]
    rfl
  omega

end Building
