/-
  Which transactions of an order land.

  `BundleLanded` and `ShareLanded` say what a bundle and the body of a share bundle leave in
  the block: the transactions in their order, without optional ones, each with success or
  with the permission to revert. A share bundle that may be skipped is left out as a whole.
  After them come payouts of the builder (`Pays`).
-/
import Rbuilder.Building.OrderCommit

namespace Building

open SparseMpt List

variable {ctx : BlockBuildingContext}

/-- What the transactions of a bundle leave in the block. -/
inductive BundleLanded (bundle : Bundle) : List Tx → List TransactionExecutionInfo → Prop
  | nil : BundleLanded bundle [] []
  | skipped {tx : Tx} {txs : List Tx} {infos : List TransactionExecutionInfo}
      (hoptional : bundle.isTxOptional tx.hash = true) (h : BundleLanded bundle txs infos) :
      BundleLanded bundle (tx :: txs) infos
  | landed {tx : Tx} {txs : List Tx} {info : TransactionExecutionInfo}
      {infos : List TransactionExecutionInfo} (htx : info.tx = tx)
      (hreverted : info.receipt.success = false →
        tx.hash ∈ bundle.revertingTxHashes ∧ tx.hash ∉ bundle.droppingTxHashes)
      (h : BundleLanded bundle txs infos) : BundleLanded bundle (tx :: txs) (info :: infos)

/-- What the body of a share bundle leaves in the block. -/
inductive ShareLanded : List ShareBundleBody → List TransactionExecutionInfo → Prop
  | nil : ShareLanded [] []
  | txSkipped {sbundleTx : ShareBundleTx} {body : List ShareBundleBody}
      {infos : List TransactionExecutionInfo}
      (hoptional : sbundleTx.revertBehavior.canRevert = true) (h : ShareLanded body infos) :
      ShareLanded (.tx sbundleTx :: body) infos
  | txLanded {sbundleTx : ShareBundleTx} {body : List ShareBundleBody}
      {info : TransactionExecutionInfo} {infos : List TransactionExecutionInfo}
      (htx : info.tx = sbundleTx.tx)
      (hreverted : info.receipt.success = false → sbundleTx.revertBehavior = .allowedIncluded)
      (h : ShareLanded body infos) : ShareLanded (.tx sbundleTx :: body) (info :: infos)
  | bundleSkipped {inner : ShareBundleInner} {body : List ShareBundleBody}
      {infos : List TransactionExecutionInfo} (hskip : inner.canSkip = true)
      (h : ShareLanded body infos) : ShareLanded (.bundle inner :: body) infos
  | bundleLanded {inner : ShareBundleInner} {body : List ShareBundleBody}
      {landed infos : List TransactionExecutionInfo} (hinner : ShareLanded inner.body landed)
      (h : ShareLanded body infos) : ShareLanded (.bundle inner :: body) (landed ++ infos)

/-- What an order leaves in the block, without payouts. -/
def OrderLanded : Order → List TransactionExecutionInfo → Prop
  | .tx tx, landed => ∃ info, landed = [info] ∧ info.tx = tx
  | .bundle bundle, landed => BundleLanded bundle bundle.txs landed
  | .shareBundle bundle, landed => ShareLanded bundle.innerBundle.body landed

/-- A transaction that the builder makes to pay. -/
def IsCreated (ctx : BlockBuildingContext) (tx : Tx) : Prop :=
  ∃ nonce recipient gas value, createPayoutTx ctx nonce recipient gas value = .ok tx

/-- A payout of the builder that succeeded. -/
def IsPayout (ctx : BlockBuildingContext) (info : TransactionExecutionInfo) : Prop :=
  IsCreated ctx info.tx ∧ info.receipt.success = true

/-- The transactions of an included order: its own, and then payouts. -/
def Lands (ctx : BlockBuildingContext) (order : Order) (infos : List TransactionExecutionInfo) : Prop :=
  ∃ landed payouts, infos = landed ++ payouts ∧ OrderLanded order landed ∧
    ∀ info ∈ payouts, IsPayout ctx info

/-! ## What follows -/

section BundleLanded

variable {bundle : Bundle} {txs : List Tx} {infos : List TransactionExecutionInfo}

section

variable (h : BundleLanded bundle txs infos)
include h

theorem BundleLanded.sublist : (infos.map (·.tx)).Sublist txs := by
  induction h with
  | nil => exact .slnil
  | skipped _ _ ih => exact ih.cons _
  | landed htx _ _ ih => exact htx ▸ ih.cons_cons _

/-- The transactions that are not optional have landed. -/
theorem BundleLanded.required :
    (txs.filter fun tx => !bundle.isTxOptional tx.hash).Sublist (infos.map (·.tx)) := by
  induction h with
  | nil => exact .slnil
  | skipped hoptional _ ih =>
    rw [filter_cons_of_neg (by simp [hoptional])]
    exact ih
  | @landed tx _ info _ htx _ _ ih =>
    rw [map_cons, htx]
    cases hoptional : bundle.isTxOptional tx.hash with
    | true =>
      rw [filter_cons_of_neg (by simp [hoptional])]
      exact ih.cons _
    | false =>
      rw [filter_cons_of_pos (by simp [hoptional])]
      exact ih.cons_cons _

/-- What reverted may revert and is not to be dropped. -/
theorem BundleLanded.reverted :
    ∀ info ∈ infos, info.receipt.success = false →
      info.tx.hash ∈ bundle.revertingTxHashes ∧ info.tx.hash ∉ bundle.droppingTxHashes := by
  induction h with
  | nil => exact fun _ hmem => (not_mem_nil hmem).elim
  | skipped _ _ ih => exact ih
  | landed htx hreverted _ ih =>
    intro info hmem hfailed
    obtain rfl | hmem := mem_cons.mp hmem
    · rw [htx]
      exact hreverted hfailed
    · exact ih info hmem hfailed

end

end BundleLanded

section ShareLanded

variable {body body' : List ShareBundleBody} {infos : List TransactionExecutionInfo}

theorem listBodyTxs_bundle (inner : ShareBundleInner) (body : List ShareBundleBody) :
    listBodyTxs (.bundle inner :: body) = listBodyTxs inner.body ++ listBodyTxs body := by
  cases inner
  rfl

theorem ShareLanded.sublist (h : ShareLanded body infos) :
    (infos.map (·.tx)).Sublist ((listBodyTxs body).map Prod.fst) := by
  induction h with
  | nil => exact .slnil
  | txSkipped _ _ ih => exact ih.cons _
  | txLanded htx _ _ ih =>
    rw [map_cons, listBodyTxs, map_cons, htx]
    exact ih.cons_cons _
  | bundleSkipped _ _ ih =>
    rw [listBodyTxs_bundle, map_append]
    exact sublist_append_of_sublist_right ih
  | bundleLanded _ _ ihInner ih =>
    rw [listBodyTxs_bundle, map_append, map_append]
    exact ihInner.append ih

/-- What reverted may revert somewhere in the list. -/
theorem ShareLanded.reverted (h : ShareLanded body infos) :
    ∀ info ∈ infos, info.receipt.success = false → (info.tx, true) ∈ listBodyTxs body := by
  induction h with
  | nil => exact fun _ hmem => (not_mem_nil hmem).elim
  | txSkipped _ _ ih => exact fun info hmem hfailed => mem_cons_of_mem _ (ih info hmem hfailed)
  | txLanded htx hreverted _ ih =>
    intro info hmem hfailed
    obtain rfl | hmem := mem_cons.mp hmem
    · rw [listBodyTxs, htx, hreverted hfailed]
      exact mem_cons_self
    · exact mem_cons_of_mem _ (ih info hmem hfailed)
  | bundleSkipped _ _ ih =>
    intro info hmem hfailed
    exact mem_append_right _ (ih info hmem hfailed)
  | bundleLanded _ _ ihInner ih =>
    intro info hmem hfailed
    rw [listBodyTxs_bundle]
    obtain hmem | hmem := mem_append.mp hmem
    · exact mem_append_left _ (ihInner info hmem hfailed)
    · exact mem_append_right _ (ih info hmem hfailed)

/-- Two parts of a body, one after the other. -/
theorem ShareLanded.append {infos' : List TransactionExecutionInfo}
    (h : ShareLanded body infos) (h' : ShareLanded body' infos') :
    ShareLanded (body ++ body') (infos ++ infos') := by
  induction h with
  | nil => exact h'
  | txSkipped hoptional _ ih => exact .txSkipped hoptional ih
  | txLanded htx hreverted _ ih => exact .txLanded htx hreverted ih
  | bundleSkipped hskip _ ih => exact .bundleSkipped hskip ih
  | bundleLanded hinner _ _ ih =>
    rw [append_assoc]
    exact .bundleLanded hinner ih

end ShareLanded

variable {order : Order} {landed infos : List TransactionExecutionInfo}

theorem OrderLanded.sublist
    (h : OrderLanded order landed) : (landed.map (·.tx)).Sublist (order.listTxs.map Prod.fst) := by
  cases order with
  | tx tx =>
    obtain ⟨info, rfl, htx⟩ := h
    rw [map_singleton, htx]
    exact .refl _
  | bundle bundle =>
    have hsub := BundleLanded.sublist h
    rwa [Order.listTxs, Bundle.listTxs, map_map, show Prod.fst ∘ (fun tx : Tx =>
      (tx, bundle.isTxOptional tx.hash)) = id from rfl, map_id]
  | shareBundle bundle =>
    have hsub := ShareLanded.sublist h
    obtain ⟨block, maxBlock, ⟨body, refund, config, canSkip, id⟩⟩ := bundle
    exact hsub

/-- What reverted may revert somewhere in the list of the order. -/
theorem OrderLanded.reverted
    (h : OrderLanded order landed) {info : TransactionExecutionInfo} (hmem : info ∈ landed)
    (hfailed : info.receipt.success = false) : (info.tx, true) ∈ order.listTxs := by
  cases order with
  | tx tx =>
    obtain ⟨landedInfo, rfl, htx⟩ := h
    obtain rfl := mem_singleton.mp hmem
    exact htx ▸ mem_singleton.mpr rfl
  | bundle bundle =>
    have hreverting := (BundleLanded.reverted h info hmem hfailed).1
    have htx : info.tx ∈ bundle.txs := (BundleLanded.sublist h).subset (mem_map_of_mem hmem)
    have hoptional : bundle.isTxOptional info.tx.hash = true := by
      rw [Bundle.isTxOptional, Bool.or_eq_true]
      exact .inl (contains_iff_mem.mpr hreverting)
    exact mem_map.mpr ⟨info.tx, htx, by rw [hoptional]⟩
  | shareBundle bundle =>
    have hrev := ShareLanded.reverted h info hmem hfailed
    obtain ⟨block, maxBlock, ⟨body, refund, config, canSkip, id⟩⟩ := bundle
    exact hrev

/-! ## What is added to a result -/

section Adds

/-- The transactions of `insert` and then `landed`. -/
def BundleOk.Adds (insert : BundleOk) (landed : List TransactionExecutionInfo) (ok : BundleOk) : Prop :=
  ok.txInfos = insert.txInfos ++ landed

/-- What a loop over the transactions of a bundle adds. -/
def BundleOk.AddsTxs (bundle : Bundle) (txs : List Tx) (insert ok : BundleOk) : Prop :=
  ∃ landed, BundleLanded bundle txs landed ∧ insert.Adds landed ok

/-- What a loop over a part of a body adds. -/
def BundleOk.AddsBody (body : List ShareBundleBody) (insert ok : BundleOk) : Prop :=
  ∃ landed, ShareLanded body landed ∧ insert.Adds landed ok

/-- Payouts are added. -/
def BundleOk.Pays (ctx : BlockBuildingContext) (insert ok : BundleOk) : Prop :=
  ∃ payouts, (∀ info ∈ payouts, IsPayout ctx info) ∧ insert.Adds payouts ok

variable {insert next ok : BundleOk}

theorem BundleOk.Adds.trans {landed' : List TransactionExecutionInfo} (h : insert.Adds landed next)
    (h' : next.Adds landed' ok) : insert.Adds (landed ++ landed') ok := by
  rw [Adds, h', h, append_assoc]

theorem BundleOk.AddsTxs.skip {bundle : Bundle} {tx : Tx} {txs : List Tx}
    (h : insert.AddsTxs bundle txs ok) (hoptional : bundle.isTxOptional tx.hash = true) :
    insert.AddsTxs bundle (tx :: txs) ok := by
  obtain ⟨landed, hlanded, hadds⟩ := h
  exact ⟨landed, .skipped hoptional hlanded, hadds⟩

theorem BundleOk.AddsBody.trans {body body' : List ShareBundleBody} (h : AddsBody body insert next)
    (h' : AddsBody body' next ok) : AddsBody (body ++ body') insert ok := by
  obtain ⟨landed, hlanded, hadds⟩ := h
  obtain ⟨landed', hlanded', hadds'⟩ := h'
  exact ⟨landed ++ landed', hlanded.append hlanded', hadds.trans hadds'⟩

theorem BundleOk.Pays.refl : insert.Pays ctx insert :=
  ⟨[], fun _ hmem => (not_mem_nil hmem).elim, (append_nil _).symm⟩

theorem BundleOk.Pays.trans (h : insert.Pays ctx next) (h' : next.Pays ctx ok) :
    insert.Pays ctx ok := by
  obtain ⟨payouts, hpayouts, hadds⟩ := h
  obtain ⟨payouts', hpayouts', hadds'⟩ := h'
  exact ⟨payouts ++ payouts', forall_mem_append.mpr ⟨hpayouts, hpayouts'⟩, hadds.trans hadds'⟩

/-- An order that has landed, with the payouts after it. -/
theorem OrderLanded.lands (h : OrderLanded order insert.txInfos) (hpays : insert.Pays ctx ok) :
    Lands ctx order ok.txInfos := by
  obtain ⟨payouts, hpayouts, hadds⟩ := hpays
  exact ⟨insert.txInfos, payouts, hadds, h, hpayouts⟩

end Adds

end Building
