/-
  The check of the trace.

  Every order that is included lands as `Lands` says, so the check of the trace at the end
  accepts every block.
-/
import Rbuilder.Building.Finalized
import Rbuilder.Building.Space

namespace Building

open SparseMpt Rollback List BlockBuildingHelper

variable {δ : Type} {evm : Evm δ} {ctx : BlockBuildingContext}
  {landed infos : List TransactionExecutionInfo} {blocklist : List Address}

/-! ## The check of the trace -/

/-- What can revert once stays so. -/
theorem revertibleTxs_of_lookup {hash : B256} (list : List (Tx × Bool))
    {txs : AList fun _ : B256 => Bool} (h : txs.lookup hash = some true) :
    (revertibleTxs list txs).lookup hash = some true := by
  induction list generalizing txs with
  | nil => exact h
  | cons entry list ih =>
    obtain ⟨tx, canRevert⟩ := entry
    rw [revertibleTxs]
    by_cases hhash : tx.hash = hash
    · rw [hhash, h]
      exact ih h
    have hinsert : (txs.insert tx.hash canRevert).lookup hash = some true := by
      rw [AList.lookup_insert_ne (Ne.symm hhash), h]
    split
    · exact ih hinsert
    · split
      · exact ih hinsert
      · exact ih h

/-- A transaction that may revert somewhere in the list can revert. -/
theorem revertibleTxs_of_mem {tx : Tx} {list : List (Tx × Bool)} (hmem : (tx, true) ∈ list)
    (txs : AList fun _ : B256 => Bool) :
    (revertibleTxs list txs).lookup tx.hash = some true := by
  induction list generalizing txs with
  | nil => exact (not_mem_nil hmem).elim
  | cons entry list ih =>
    rw [revertibleTxs]
    obtain heq | hmem := mem_cons.mp hmem
    · cases heq
      have hinsert := revertibleTxs_of_lookup list (AList.lookup_insert (a := tx.hash) (b := true) txs)
      split
      · exact hinsert
      rename_i stored hstored
      cases stored with
      | false => exact hinsert
      | true => exact revertibleTxs_of_lookup list hstored
    split
    · exact ih hmem _
    · split
      · exact ih hmem _
      · exact ih hmem _

/-- An order that landed without blocked addresses passes the check. -/
theorem Lands.verified {r : ExecutionResult} (h : Lands ctx r.order r.txInfos)
    (hallowed : ∀ info ∈ r.txInfos, isBlocked blocklist info.tx = false) :
    verifyOrderConsistency blocklist r = .ok () := by
  obtain ⟨landed, payouts, hinfos, hlanded, hpayouts⟩ := h
  have hblocked : ¬ r.txInfos.any (fun info => isBlocked blocklist info.tx) = true := by
    intro hany
    obtain ⟨info, hmem, hinfo⟩ := any_eq_true.mp hany
    rw [hallowed info hmem] at hinfo
    cases hinfo
  have hfind : r.txInfos.find? (fun info => !info.receipt.success &&
      (revertibleTxs r.order.listTxs ∅).lookup info.tx.hash == some false) = none := by
    refine find?_eq_none.mpr fun info hmem hfound => ?_
    simp only [Bool.and_eq_true, Bool.not_eq_true', beq_iff_eq] at hfound
    obtain hmem | hmem := mem_append.mp (hinfos ▸ hmem)
    · have hlookup := revertibleTxs_of_mem (hlanded.reverted hmem hfound.1) ∅
      rw [hfound.2] at hlookup
      cases hlookup
    · have hfailed := hfound.1
      rw [(hpayouts info hmem).2] at hfailed
      cases hfailed
  rw [verifyOrderConsistency, if_neg hblocked]
  dsimp only
  rw [hfind]

theorem verifyBundleConsistency_ok {trace : BuiltBlockTrace}
    (h : ∀ r ∈ trace.includedOrders, verifyOrderConsistency blocklist r = .ok ()) :
    trace.verifyBundleConsistency blocklist = .ok () := by
  unfold BuiltBlockTrace.verifyBundleConsistency
  generalize trace.includedOrders = orders at h
  induction orders with
  | nil => rfl
  | cons r orders ih =>
    rw [List.forM, h r List.mem_cons_self]
    exact ih fun r' hr' => h r' (List.mem_cons_of_mem _ hr')

/-! ## Runs -/

theorem Executed.allowed {reserved used used' : BlockSpace} {s s' : BlockState δ}
    (h : Executed evm ctx reserved used s infos used' s') :
    ∀ info ∈ infos, isBlocked ctx.blocklist info.tx = false := by
  induction h with
  | nil => exact fun _ hmem => (not_mem_nil hmem).elim
  | snoc _ hc ih =>
    intro info hmem
    obtain hmem | hmem := mem_append.mp hmem
    · exact ih info hmem
    · exact mem_singleton.mp hmem ▸ hc.allowed

theorem CommitRun.lands {b b' : BuildState δ} {rs : List ExecutionResult}
    (h : CommitRun evm ctx b rs b') :
    ∀ r ∈ rs, Lands ctx r.order r.txInfos ∧
      ∀ info ∈ r.txInfos, isBlocked ctx.blocklist info.tx = false := by
  induction h with
  | nil => exact fun _ hmem => (not_mem_nil hmem).elim
  | included _ hcall ih =>
    intro r' hmem
    obtain hmem | hmem := mem_append.mp hmem
    · exact ih r' hmem
    obtain rfl := mem_singleton.mp hmem
    obtain ⟨⟨horder, ok, hinfos, -, -, n, hdone⟩, hlands⟩ :=
      (PartialBlock.commitOrder_holds ..).of_ok hcall
    refine ⟨horder ▸ hlands, ?_⟩
    rw [hinfos]
    exact hdone.ran.executed.allowed
  | rejected _ _ ih => exact ih

/-- What a bundle promises: transactions that are not optional landed and succeeded, and
    none that is to be dropped landed reverted. -/
structure CleanBundle (bundle : Bundle) (landed : List TransactionExecutionInfo) : Prop where
  required : (bundle.txs.filter fun tx => !bundle.isTxOptional tx.hash).Sublist (landed.map (·.tx))
  succeeded : ∀ info ∈ landed, bundle.isTxOptional info.tx.hash = false → info.receipt.success = true
  dropped : ∀ info ∈ landed, info.tx.hash ∈ bundle.droppingTxHashes → info.receipt.success = true

theorem BundleLanded.clean {bundle : Bundle}
    (h : BundleLanded bundle bundle.txs landed) : CleanBundle bundle landed where
  required := h.required
  succeeded info hmem hrequired := by
    by_contra hfailed
    have hreverting := (h.reverted info hmem (Bool.eq_false_iff.mpr hfailed)).1
    rw [Bundle.isTxOptional, contains_iff_mem.mpr hreverting] at hrequired
    cases hrequired
  dropped info hmem hdropping := by
    by_contra hfailed
    exact (h.reverted info hmem (Bool.eq_false_iff.mpr hfailed)).2 hdropping

/-- After every run of `commit_order` calls on a new helper: the block is the orders one after
    the other, none of its transactions is of a blocked address, and the check of the trace
    accepts it. Each order landed as a part of its list of transactions in their order, and
    then payouts. A share bundle landed without its optional transactions and the bundles
    that may be skipped, and reverted only where it is allowed to be included. -/
theorem orders_land_cleanly {η : Type} {env : SealEnv δ η} {health : Except HistoricalBlockError Unit}
    {discardTxs : Bool} {start helper : BlockBuildingHelper δ} {rs : List ExecutionResult}
    (hnew : new evm ctx env health discardTxs = .ok start)
    (hrun : OrderRun evm ctx start rs helper) :
    helper.builtBlockTrace.includedOrders = rs ∧
      helper.build.partialBlock.executedTxInfos = rs.flatMap (·.txInfos) ∧
      (∀ info ∈ helper.build.partialBlock.executedTxInfos,
        isBlocked ctx.blocklist info.tx = false) ∧
      helper.builtBlockTrace.verifyBundleConsistency ctx.blocklist = .ok () ∧
      ∀ r ∈ rs, ∃ landed payouts, r.txInfos = landed ++ payouts ∧
        (landed.map (·.tx)).Sublist (r.order.listTxs.map Prod.fst) ∧
        (∀ info ∈ payouts, IsCreated ctx info.tx ∧ info.receipt.success = true) ∧
        (∀ bundle, r.order = .bundle bundle → CleanBundle bundle landed) ∧
        ∀ bundle, r.order = .shareBundle bundle → ShareLanded bundle.innerBundle.body landed := by
  obtain ⟨payout, hisNew⟩ := new_spec hnew
  obtain ⟨hcommits, hframe⟩ := hrun.commitRun
  have hincluded : helper.builtBlockTrace.includedOrders = rs := by
    rw [hframe, hisNew.trace]
    rfl
  have hinfos : helper.build.partialBlock.executedTxInfos = rs.flatMap (·.txInfos) := by
    rw [hcommits.replay.1, hisNew.block]
    rfl
  have hlands := hcommits.lands
  refine ⟨hincluded, hinfos, ?_, ?_, ?_⟩
  · intro info hmem
    rw [hinfos] at hmem
    obtain ⟨r, hr, hmem⟩ := List.mem_flatMap.mp hmem
    exact (hlands r hr).2 info hmem
  · refine verifyBundleConsistency_ok fun r hr => ?_
    rw [hincluded] at hr
    exact (hlands r hr).1.verified (hlands r hr).2
  intro r hr
  obtain ⟨⟨landed, payouts, htxs, hlanded, hpayouts⟩, -⟩ := hlands r hr
  refine ⟨landed, payouts, htxs, hlanded.sublist, hpayouts, ?_, ?_⟩
  · intro bundle horder
    rw [horder] at hlanded
    exact BundleLanded.clean hlanded
  · intro bundle horder
    rw [horder] at hlanded
    exact hlanded

/-! ### Example -/

/-- A payment to the vault that may revert, an inner bundle with one that may not, which can
    be skipped, and a payment. -/
def nestedShareBundle : Order :=
  .shareBundle
    { block := 7, maxBlock := 8
      innerBundle := .mk
        [.tx ⟨userTx 0 vault 5, .allowedIncluded⟩,
          .bundle (.mk [.tx ⟨userTx 1 vault 5, .notAllowed⟩] [] [] true none),
          .tx ⟨userTx 1 shop 6, .notAllowed⟩] [] [] false none }

def commitNested :=
  BlockBuildingHelper.commitOrder exampleEvm exampleCtx insertionOrder nestedShareBundle
    fun _ => .ok ()

/-- The first payment lands reverted, the inner bundle is skipped. -/
theorem orders_land_cleanly_nested :
    ∃ start r, new exampleEvm exampleCtx exampleEnv (.ok ()) true = .ok start ∧
      commitNested start = (.ok r, (commitNested start).2) ∧
      r.txInfos.map (fun info => (info.tx, info.receipt.success)) =
        [(userTx 0 vault 5, false), (userTx 1 shop 6, true)] ∧
      (commitNested start).2.builtBlockTrace.verifyBundleConsistency exampleCtx.blocklist =
        .ok () := by
  obtain ⟨start, hnew, hincluded, hlanded⟩ : ∃ start,
      new exampleEvm exampleCtx exampleEnv (.ok ()) true = .ok start ∧
        (commitNested start).1.isOk = true ∧
        (commitNested start).2.build.partialBlock.executedTxInfos.map
          (fun info => (info.tx, info.receipt.success)) =
          [(userTx 0 vault 5, false), (userTx 1 shop 6, true)] :=
    ⟨_, rfl, by decide +kernel, by decide +kernel⟩
  obtain ⟨r, hcall⟩ := Outcome.exists_of_isOk hincluded
  have hrun : OrderRun exampleEvm exampleCtx start [r] (commitNested start).2 := .included .nil hcall
  obtain ⟨-, hinfos, -, hverified, -⟩ := orders_land_cleanly hnew hrun
  refine ⟨start, r, hnew, hcall, ?_, hverified⟩
  rw [hinfos, List.flatMap_singleton] at hlanded
  exact hlanded

end Building
