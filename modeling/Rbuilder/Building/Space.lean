/-
  Block space.

  `Fits`: what is used and what is reserved is within the gas, the length and the blob gas
  of the block. Every transaction is checked against both, so along all calls they fit
  together. What is reserved is one payout for the proposer and one for each recipient of a
  combined refund (`SpaceKept`); when it is released at the end, exactly these payouts
  follow, and each of them finds the space it needs.

  The check adds gas limits modulo `2 ^ 64`. The EVM rejects gas limits above that of the
  block, so nothing wraps around as long as the gas limit of the block and the gas that is
  available add up to less.
-/
import Rbuilder.Building.Calls
import Rbuilder.HashMap

namespace Building

open SparseMpt Rollback InsertPayoutTxErr BlockBuildingHelper UInt64 Nat

variable {δ : Type} {evm : Evm δ} {ctx : BlockBuildingContext}

/-- What is assumed of the EVM and of signed payouts. -/
structure SpaceLaws (evm : Evm δ) (ctx : BlockBuildingContext) : Prop where
  gasLimit : ∀ s tx res, evm.transact s tx = .ok res → tx.gasLimit ≤ ctx.gasLimit
  gasUsed : ∀ s tx res, evm.transact s tx = .ok res → res.result.gasUsed ≤ tx.gasLimit
  payoutLength : ∀ nonce recipient gasLimit value tx space,
    createPayoutTx ctx nonce recipient gasLimit value = .ok tx →
    estimatePayoutTxSpace ctx = .ok space → tx.length ≤ space.rlpLength

/-- Used and reserved space are within the block. -/
structure Fits (ctx : BlockBuildingContext) (st : BlockBuildingSpaceState) : Prop where
  gas : st.spaceUsed.gas.toNat + st.reservedBlockSpace.gas.toNat ≤ ctx.gasAvailable.toNat
  rlpLength : st.spaceUsed.rlpLength + st.reservedBlockSpace.rlpLength ≤ maxRlpBlockSize
  blobGas : st.spaceUsed.blobGas ≤ ctx.maxBlobGasPerBlock

/-- Two gas limits within the block do not wrap around. -/
def NoWrap (ctx : BlockBuildingContext) : Prop :=
  ctx.gasAvailable ≤ ctx.gasLimit ∧ ctx.gasLimit.toNat < 2 ^ 63

section Fits

variable {st : BlockBuildingSpaceState} {needed reserved used used' : BlockSpace}
  {blobGasNeeded : Nat}

theorem gas_add (a b : BlockSpace) : (a + b).gas = a.gas + b.gas := rfl

theorem rlpLength_add (a b : BlockSpace) : (a + b).rlpLength = a.rlpLength + b.rlpLength := rfl

/-- Without wrap-around the check is the one on numbers. -/
theorem canFitTx_iff (h : Fits ctx st)
    (hgas : needed.gas.toNat + ctx.gasAvailable.toNat < 2 ^ 64) :
    canFitTx ctx needed blobGasNeeded st = .ok () ↔
      needed.gas.toNat + (st.spaceUsed.gas.toNat + st.reservedBlockSpace.gas.toNat) ≤
        ctx.gasAvailable.toNat ∧
      needed.rlpLength + (st.spaceUsed.rlpLength + st.reservedBlockSpace.rlpLength) ≤
        maxRlpBlockSize ∧
      blobGasNeeded + st.spaceUsed.blobGas ≤ ctx.maxBlobGasPerBlock := by
  have htotal : (needed.gas + st.totalConsumedSpace.gas).toNat =
      needed.gas.toNat + (st.spaceUsed.gas.toNat + st.reservedBlockSpace.gas.toNat) := by
    have hfit := h.gas
    rw [BlockBuildingSpaceState.totalConsumedSpace, gas_add, UInt64.toNat_add, UInt64.toNat_add]
    omega
  simp only [canFitTx, gt_iff_lt, lt_iff_toNat_lt, htotal, BlockBuildingSpaceState.blobGasUsed]
  rw [BlockBuildingSpaceState.totalConsumedSpace, rlpLength_add]
  split
  · simp only [reduceCtorEq, false_iff]
    omega
  split
  · simp only [reduceCtorEq, false_iff]
    omega
  split
  · simp only [reduceCtorEq, false_iff]
    omega
  · simp only [true_iff]
    omega

variable {s s' : BlockState δ}

/-- A committed transaction fits with what is reserved. -/
theorem Committed.fits_useSpace (laws : SpaceLaws evm ctx) (hwrap : NoWrap ctx)
    {info : TransactionExecutionInfo} (h : Fits ctx st)
    (hc : Committed evm ctx st s info s') : Fits ctx (st.useSpace info.spaceUsed) := by
  obtain ⟨res, hres, -, -, hspace⟩ := hc.executed
  have hlimit := le_iff_toNat_le.mp (laws.gasLimit _ _ _ hres)
  have hused := le_iff_toNat_le.mp (laws.gasUsed _ _ _ hres)
  have hwrap' := le_iff_toNat_le.mp hwrap.1
  have hlt := hwrap.2
  have hneeded : info.tx.spaceNeeded.gas.toNat + ctx.gasAvailable.toNat < 2 ^ 64 := by
    change info.tx.gasLimit.toNat + _ < _
    omega
  obtain ⟨hgas, hlength, hblob⟩ := (canFitTx_iff h hneeded).mp hc.fits
  change info.tx.gasLimit.toNat + _ ≤ _ at hgas
  change info.tx.length + _ ≤ _ at hlength
  rw [hspace]
  refine ⟨?_, ?_, ?_⟩
  · change (st.spaceUsed.gas + res.result.gasUsed).toNat + st.reservedBlockSpace.gas.toNat ≤ _
    rw [UInt64.toNat_add]
    omega
  · change st.spaceUsed.rlpLength + info.tx.length + st.reservedBlockSpace.rlpLength ≤ _
    omega
  · change st.spaceUsed.blobGas + info.tx.blobsGasUsed ≤ _
    omega

theorem Executed.fits (laws : SpaceLaws evm ctx) (hwrap : NoWrap ctx)
    {infos : List TransactionExecutionInfo}
    (h : Executed evm ctx reserved used s infos used' s') (hfits : Fits ctx ⟨used, reserved⟩) :
    Fits ctx ⟨used', reserved⟩ := by
  induction h with
  | nil => exact hfits
  | snoc _ hc ih => exact hc.fits_useSpace laws hwrap ih

end Fits

/-! ## What is reserved -/

/-- Everything fits, and there is a reservation for the payout of the proposer and for each
    of the combined refunds. -/
structure SpaceKept (ctx : BlockBuildingContext) (payoutTxGas : UInt64)
    (st : BlockBuildingSpaceState) (refunds : Nat) : Prop where
  fits : Fits ctx st
  gas : st.reservedBlockSpace.gas.toNat = payoutTxGas.toNat + baseTxGas.toNat * refunds
  rlpLength : ∃ space, estimatePayoutTxSpace ctx = .ok space ∧
    st.reservedBlockSpace.rlpLength = space.rlpLength * (refunds + 1)

/-- A map grows by the keys that are new. -/
theorem length_keys_add (refunds : Refunds) (recipient : Address) (value : Nat) :
    (refunds.add recipient value).keys.length =
      if recipient ∈ refunds then refunds.keys.length else refunds.keys.length + 1 :=
  AList.length_keys_insert ..

section Kept

variable {payoutTxGas : UInt64} {st : BlockBuildingSpaceState} {refunds : Nat}
  {a b used space : BlockSpace}

theorem SpaceKept.useSpace (h : SpaceKept ctx payoutTxGas st refunds)
    (hfits : Fits ctx (st.useSpace used)) : SpaceKept ctx payoutTxGas (st.useSpace used) refunds :=
  ⟨hfits, h.gas, h.rlpLength⟩

/-- A payout that fits is reserved for one more refund. -/
theorem SpaceKept.reserve (hwrap : NoWrap ctx) (h : SpaceKept ctx payoutTxGas st refunds)
    (hspace : estimatePayoutTxSpace ctx = .ok space) (hcan : canFitTx ctx space 0 st = .ok ()) :
    SpaceKept ctx payoutTxGas (st.reserveBlockSpace space) (refunds + 1) := by
  have hwrap' := le_iff_toNat_le.mp hwrap.1
  have hlt := hwrap.2
  have hbase : baseTxGas.toNat = 21000 := rfl
  have hgas : space.gas.toNat = 21000 := by rw [(estimatePayoutTxSpace_spec hspace).1]; rfl
  have hneeded : space.gas.toNat + ctx.gasAvailable.toNat < 2 ^ 64 := by omega
  obtain ⟨hcanGas, hcanLength, -⟩ := (canFitTx_iff h.fits hneeded).mp hcan
  have hsum : (st.reservedBlockSpace.gas + space.gas).toNat =
      st.reservedBlockSpace.gas.toNat + space.gas.toNat := by
    rw [UInt64.toNat_add]
    omega
  obtain ⟨space', hspace', hlength⟩ := h.rlpLength
  obtain rfl := Except.ok.inj (hspace.symm.trans hspace')
  refine ⟨⟨?_, ?_, h.fits.blobGas⟩, ?_, space, hspace, ?_⟩
  · change st.spaceUsed.gas.toNat + (st.reservedBlockSpace.gas + space.gas).toNat ≤ _
    omega
  · change st.spaceUsed.rlpLength + (st.reservedBlockSpace.rlpLength + space.rlpLength) ≤ _
    omega
  · change (st.reservedBlockSpace.gas + space.gas).toNat = _
    rw [hsum, h.gas, hbase]
    omega
  · change st.reservedBlockSpace.rlpLength + space.rlpLength = _
    rw [hlength]
    ring

/-- The block of a helper with this gas for the payout. -/
def PartialBlock.SpaceKept (ctx : BlockBuildingContext) (payoutTxGas : UInt64)
    (block : PartialBlock) : Prop :=
  Building.SpaceKept ctx payoutTxGas block.spaceState block.combinedRefunds.keys.length

/-- An order uses space that was left, and reserves space for a new recipient. -/
theorem PartialBlock.SpaceKept.addOrder (laws : SpaceLaws evm ctx) (hwrap : NoWrap ctx)
    {block : PartialBlock} (h : block.SpaceKept ctx payoutTxGas) {order : Order} {f f' : Fork δ}
    {ok : OrderOk}
    (hdone : OrderDone evm ctx block.spaceState block.combinedRefunds order f ok f') :
    (block.addOrder ok).SpaceKept ctx payoutTxGas := by
  have hused : block.spaceState.useSpace ok.spaceUsed =
      ⟨ok.cumulativeSpaceUsed, block.spaceState.reservedBlockSpace⟩ := by
    rw [BlockBuildingSpaceState.useSpace, hdone.ran.space]
  have hkept := h.useSpace (hused ▸ hdone.ran.executed.fits laws hwrap h.fits)
  have hk := hdone.kickback
  unfold PartialBlock.addOrder PartialBlock.SpaceKept
  generalize ok.delayedKickback = kickback at hk
  cases hk with
  | none => exact hkept
  | pipeline k hpay _ =>
    simp only [hpay, Bool.false_eq_true, if_false]
    exact hkept
  | known k hpay hmem _ hspace =>
    simp only [hpay, if_true, hspace, BlockBuildingSpaceState.reserveBlockSpace,
      BlockSpace.add_zero, length_keys_add, if_pos hmem]
    exact hkept
  | fresh k hpay hmem _ hspace hcan =>
    simp only [hpay, if_true, length_keys_add, if_neg hmem]
    exact hkept.reserve hwrap hspace (hused ▸ hcan)

end Kept

/-! ## Calls -/

section Calls

variable {raw : ConstraintEnv} {payoutTxGas : UInt64}

/-- Whatever `commit_order` ends with, what is reserved is kept. -/
theorem commitOrder_spaceKept (laws : SpaceLaws evm ctx) (hwrap : NoWrap ctx)
    (hashOrder : HashOrder) (order : Order) (resultFilter : SimValue → Except ExecutionError Unit)
    {b : BuildState δ} (h : b.partialBlock.SpaceKept ctx payoutTxGas) :
    (PartialBlock.commitOrder evm ctx hashOrder order resultFilter).Ends b fun b' =>
      b'.partialBlock.SpaceKept ctx payoutTxGas := by
  refine .getState_bind ?_
  refine .bind (onFork_ends fun _ => h) ?_
  rintro ⟨ok, sim⟩ b' hfork
  obtain ⟨f, htry, rfl⟩ := onFork_eq_ok.mp hfork
  obtain ⟨hdone, -⟩ := (tryOrder_holds ..).of_ok htry
  exact h.addOrder laws hwrap hdone

/-- The block of a helper keeps its space, with the gas of its payout. -/
def BlockBuildingHelper.SpaceKept (ctx : BlockBuildingContext) (helper : BlockBuildingHelper δ) :
    Prop :=
  helper.build.partialBlock.SpaceKept ctx helper.payoutTxGas

variable {helper start : BlockBuildingHelper δ}

theorem OrderCalls.spaceKept (laws : SpaceLaws evm ctx) (hwrap : NoWrap ctx)
    (h : start.SpaceKept ctx)
    (hcalls : OrderCalls evm ctx start helper) : helper.SpaceKept ctx := by
  induction hcalls with
  | nil => exact h
  | call _ hashOrder order resultFilter ih =>
    have hkept := commitOrder_spaceKept laws hwrap hashOrder order resultFilter ih
    refine Exec.Ends.bind (P := fun h : BlockBuildingHelper δ => h.SpaceKept ctx) hkept ?_
    intro r helper' hcall
    obtain ⟨b, hblock, rfl⟩ := onBuild_eq_ok.mp hcall
    exact hkept.of_eq hblock

/-- Whatever the loop over the constraint transactions ends with, what is reserved is kept. -/
theorem appendConstraintTxs_spaceKept (laws : SpaceLaws evm ctx) (hwrap : NoWrap ctx)
    (executed : List B256) (raws : List Bytes) (h : helper.SpaceKept ctx) :
    (appendConstraintTxs evm ctx raw executed raws).Ends helper
      fun helper' => helper'.SpaceKept ctx := by
  refine appendConstraintTxs_ends raws ?_ (fun _ _ h => h) h
  intro helper rawTx tx ok f h _ _ htry
  -- an executed constraint transaction fits with what is reserved
  obtain ⟨-, hc, -⟩ := (commitTx_holds ..).of_ok htry
  exact h.useSpace (hc.fits_useSpace laws hwrap h.fits)

end Calls

/-! ## The payouts at the end -/

/-- The proposer's payout and `refunds` refunds have space after `used`. -/
structure PayoutsFit (ctx : BlockBuildingContext) (payoutTxGas : UInt64) (refunds : Nat)
    (used : BlockSpace) : Prop where
  gas : used.gas.toNat + payoutTxGas.toNat + baseTxGas.toNat * refunds ≤ ctx.gasAvailable.toNat
  rlpLength : ∃ space, estimatePayoutTxSpace ctx = .ok space ∧
    used.rlpLength + space.rlpLength * (refunds + 1) ≤ maxRlpBlockSize
  blobGas : used.blobGas ≤ ctx.maxBlobGasPerBlock

/-- A payout was rejected for lack of space. -/
def InsertPayoutTxErr.IsSpace (e : InsertPayoutTxErr) : Prop :=
  e = .txErr .gasLeft ∨ e = .txErr .blockSpaceLeft

section Payouts

variable {payoutTxGas : UInt64} {refunds : Nat} {b b' : BuildState δ} {tx : Tx}
  {used space : BlockSpace}

/-- A payout that fits is not rejected for lack of space. -/
theorem commitPayout_not_isSpace {reverted : InsertPayoutTxErr} (hreverted : ¬ reverted.IsSpace)
    (hfit : canFitTx ctx tx.spaceNeeded tx.blobsGasUsed b.partialBlock.spaceState = .ok ()) :
    (commitPayout evm ctx reverted tx).Holds b
      (fun space b' => ∃ info, space = info.spaceUsed ∧ Paid evm ctx tx b info b')
      fun e _ => ¬ e.IsSpace := by
  refine (commitPayout_holds reverted tx b).mono (fun _ _ h => h) ?_
  rintro e b' (rfl | ⟨c, rfl⟩ | ⟨err, rfl, hfull | rfl | ⟨invalid, rfl⟩⟩)
  · exact hreverted
  · simp [IsSpace]
  · rw [hfit] at hfull
    cases hfull
  · simp [IsSpace]
  · simp [IsSpace]

theorem PayoutsFit.mono {n : Nat} (h : PayoutsFit ctx payoutTxGas refunds used)
    (hn : n ≤ refunds) : PayoutsFit ctx payoutTxGas n used := by
  obtain ⟨space, hspace, hlength⟩ := h.rlpLength
  have hgas := h.gas
  have hbase : baseTxGas.toNat * n ≤ baseTxGas.toNat * refunds := mul_le_mul_left _ hn
  have hmul : space.rlpLength * (n + 1) ≤ space.rlpLength * (refunds + 1) :=
    mul_le_mul_left _ (by omega)
  exact ⟨by omega, ⟨space, hspace, by omega⟩, h.blobGas⟩

theorem PayoutsFit.fits (h : PayoutsFit ctx payoutTxGas refunds used) : Fits ctx ⟨used, .zero⟩ := by
  have hgas := h.gas
  obtain ⟨space, -, hlength⟩ := h.rlpLength
  refine ⟨?_, ?_, h.blobGas⟩
  · change used.gas.toNat + 0 ≤ _
    omega
  · change used.rlpLength + 0 ≤ _
    omega

/-- What is reserved is enough for the payouts. -/
theorem SpaceKept.payoutsFit {st : BlockBuildingSpaceState}
    (h : SpaceKept ctx payoutTxGas st refunds) : PayoutsFit ctx payoutTxGas refunds st.spaceUsed := by
  have hgas := h.fits.gas
  have hfits := h.fits.rlpLength
  obtain ⟨space, hspace, hlength⟩ := h.rlpLength
  rw [h.gas] at hgas
  rw [hlength] at hfits
  exact ⟨by omega, ⟨space, hspace, hfits⟩, h.fits.blobGas⟩

variable {nonce gas : UInt64} {recipient : Address} {value : Nat}

section

variable (laws : SpaceLaws evm ctx)
include laws

/-- A payout with the gas limit `gas`, when there is that much gas and one length. -/
theorem canFitTx_payout (hwrap : NoWrap ctx)
    (htx : createPayoutTx ctx nonce recipient gas value = .ok tx) (hfits : Fits ctx ⟨used, .zero⟩)
    (hgas : gas.toNat + used.gas.toNat ≤ ctx.gasAvailable.toNat)
    (hspace : estimatePayoutTxSpace ctx = .ok space)
    (hlength : space.rlpLength + used.rlpLength ≤ maxRlpBlockSize) :
    canFitTx ctx tx.spaceNeeded tx.blobsGasUsed ⟨used, .zero⟩ = .ok () := by
  have hpayout := createPayoutTx_spec htx
  have hlen := laws.payoutLength _ _ _ _ _ _ htx hspace
  have hwrap' := le_iff_toNat_le.mp hwrap.1
  have hlt := hwrap.2
  have hlimit : tx.spaceNeeded.gas = gas := hpayout.gasLimit
  have hblob : tx.blobsGasUsed = 0 := by rw [Tx.blobsGasUsed, hpayout.blobsLen, Nat.zero_mul]
  refine (canFitTx_iff hfits (by rw [hlimit]; omega)).mpr ⟨?_, ?_, ?_⟩
  · rw [hlimit]
    exact hgas
  · change tx.length + (used.rlpLength + 0) ≤ _
    omega
  · rw [hblob, zero_add]
    exact hfits.blobGas

/-- A refund that was paid leaves space for the others. -/
theorem PayoutsFit.paid {info : TransactionExecutionInfo}
    (h : PayoutsFit ctx payoutTxGas (refunds + 1) used)
    (htx : createPayoutTx ctx nonce recipient baseTxGas value = .ok tx)
    (hpaid : Paid evm ctx tx b info b') :
    PayoutsFit ctx payoutTxGas refunds (used + info.spaceUsed) := by
  have hpayout := createPayoutTx_spec htx
  obtain ⟨res, hres, -, -, hused⟩ := hpaid.committed.executed
  rw [hpaid.tx] at hres hused
  have hlimit := le_iff_toNat_le.mp (laws.gasUsed _ _ _ hres)
  rw [hpayout.gasLimit] at hlimit
  obtain ⟨space, hspace, hlength⟩ := h.rlpLength
  have hlen := laws.payoutLength _ _ _ _ _ _ htx hspace
  have hgas := h.gas
  have hblob := h.blobGas
  have hbase : baseTxGas.toNat * (refunds + 1) = baseTxGas.toNat * refunds + baseTxGas.toNat :=
    mul_succ ..
  have hmul : space.rlpLength * (refunds + 1 + 1) =
      space.rlpLength * (refunds + 1) + space.rlpLength := mul_succ ..
  rw [hused]
  refine ⟨?_, ⟨space, hspace, ?_⟩, ?_⟩
  · change (used.gas + res.result.gasUsed).toNat + _ + _ ≤ _
    rw [UInt64.toNat_add]
    omega
  · change used.rlpLength + tx.length + _ ≤ _
    omega
  · change used.blobGas + tx.blobsLen * dataGasPerBlob ≤ _
    rw [hpayout.blobsLen, Nat.zero_mul]
    exact hblob

/-- The refunds are not rejected for lack of space, and the proposer's payout fits after
    them. -/
theorem payCombinedRefunds_fit (hwrap : NoWrap ctx)
    (entries : Payouts) (nonce : UInt64)
    (hst : b.partialBlock.spaceState = ⟨used, .zero⟩)
    (h : PayoutsFit ctx payoutTxGas entries.length used) :
    (payCombinedRefunds evm ctx entries nonce).Holds b
      (fun _ b' => ∃ used', b'.partialBlock.spaceState = ⟨used', .zero⟩ ∧
        PayoutsFit ctx payoutTxGas 0 used')
      fun e _ => ¬ e.IsSpace := by
  induction entries generalizing nonce b used with
  | nil => exact .pure ⟨used, hst, h⟩
  | cons entry entries ih =>
    refine .bind (.getState (.bind (.ofExcept (fun codeHash _ => ?_) fun e he => ?_)))
    · split
      · exact ih nonce hst (h.mono (le_succ _))
      refine .bind (.ofExcept (fun refundTx htx => ?_) fun e he => ?_)
      · have htx' := mapError_eq_ok.mp htx
        obtain ⟨space, hspace, hlength⟩ := h.rlpLength
        have hgas := h.gas
        have hbase : baseTxGas.toNat * (entries.length + 1) =
            baseTxGas.toNat * entries.length + baseTxGas.toNat := mul_succ ..
        have hmul : space.rlpLength * (entries.length + 1 + 1) =
            space.rlpLength * (entries.length + 1) + space.rlpLength := mul_succ ..
        rw [List.length_cons] at hgas hlength
        have hfit := canFitTx_payout laws hwrap htx' h.fits (by omega) hspace (by omega)
        refine .bind ((commitPayout_not_isSpace (by simp [IsSpace]) (hst ▸ hfit)).imp ?_)
        rintro _ b' ⟨info, -, hpaid⟩
        refine ih _ ?_ (h.paid laws htx' hpaid)
        rw [hpaid.block, hst]
        rfl
      · obtain ⟨_, -, rfl⟩ := exists_of_mapError_eq_error he
        simp [IsSpace]
    · obtain ⟨_, -, rfl⟩ := exists_of_mapError_eq_error he
      simp [IsSpace]

/-- In the first finalization neither the refunds nor the proposer's payout are rejected for
    lack of space. -/
theorem insertRefundsAndProposerPayoutTx_fit (hwrap : NoWrap ctx)
    (hashOrder : HashOrder) (value : Nat) (revertState : FinalizeRevertStateCurrentIteration)
    (h : b.partialBlock.SpaceKept ctx payoutTxGas) :
    (PartialBlock.insertRefundsAndProposerPayoutTx evm ctx hashOrder payoutTxGas value false
      revertState).Holds b (fun _ _ => True) fun e _ => ¬ e.IsSpace := by
  have hfit := h.payoutsFit
  refine .bind (modifyBlock_holds (.bind (.getState (.bind (.ofExcept (fun nonce _ => ?_) ?_)))))
  · have hlen : (hashOrder.order b.partialBlock.combinedRefunds.entries).length =
        b.partialBlock.combinedRefunds.keys.length := by
      rw [(hashOrder.perm _).length_eq]
      exact (List.length_map _).symm
    rw [← hlen] at hfit
    refine .bind ((payCombinedRefunds_fit laws hwrap _ nonce rfl hfit).imp ?_)
    rintro nonce b' ⟨used, hst, hfit⟩
    refine .bind (.ofExcept (fun tx htx => ?_) fun e he => ?_)
    · have htx' := mapError_eq_ok.mp htx
      obtain ⟨space, hspace, hlength⟩ := hfit.rlpLength
      have hgas := hfit.gas
      have hcan := canFitTx_payout laws hwrap htx' hfit.fits (by omega) hspace (by omega)
      refine .bind ((commitPayout_not_isSpace (by simp [IsSpace])
        (hst ▸ hcan)).imp (fun _ _ _ => .pure trivial))
    · obtain ⟨_, -, rfl⟩ := exists_of_mapError_eq_error he
      simp [IsSpace]
  · intro e he
    obtain ⟨_, -, rfl⟩ := exists_of_mapError_eq_error he
    simp [IsSpace]

end

end Payouts

/-! ## Whole runs -/

section Runs

variable {η : Type} {env : SealEnv δ η} {raw : ConstraintEnv}
  {start helper helper' : BlockBuildingHelper δ}

theorem spaceKept_of_isNew {discardTxs : Bool} {payout : BlockSpace}
    (h : IsNew evm ctx discardTxs payout start)
    (hfits : Fits ctx start.build.partialBlock.spaceState) : start.SpaceKept ctx := by
  obtain ⟨default, hdefault, hlength, -⟩ := estimatePayoutGasLimit_spec h.estimate
  refine ⟨hfits, ?_, default, hdefault, ?_⟩
  · rw [h.block, h.payoutTxGas]
    rfl
  · rw [h.block]
    change payout.rlpLength = default.rlpLength * (0 + 1)
    rw [hlength, Nat.zero_add, Nat.mul_one]

theorem insertConstraintTransactions_spaceKept (laws : SpaceLaws evm ctx) (hwrap : NoWrap ctx)
    (h : helper.SpaceKept ctx) :
    (insertConstraintTransactions evm ctx raw).Ends helper
      fun helper' => helper'.SpaceKept ctx := by
  unfold insertConstraintTransactions
  split
  · exact .pure h
  · exact appendConstraintTxs_spaceKept laws hwrap _ _ h

variable {hashOrder : HashOrder} {value : Nat} {subsidy : Int} {e : InsertPayoutTxErr}

/-- Before the block is sealed, only the payouts are rejected as payouts. -/
theorem finalizeBlockExecution_not_isSpace (laws : SpaceLaws evm ctx) (hwrap : NoWrap ctx)
    (h : helper.SpaceKept ctx) {revertState : FinalizeRevertStateCurrentIteration}
    (hcall : finalizeBlockExecution evm ctx raw hashOrder value subsidy false
      revertState helper = (.err (.insertPayoutTxErr e), helper')) : ¬ e.IsSpace := by
  simp only [finalizeBlockExecution, Exec.bind_eq_err, Exec.getState_ne_err,
    Exec.getState_eq_ok, modifyTrace_ne_err,
    modifyTrace_eq_ok, onBuild_eq_err,
    onBuild_eq_ok, Exec.mapErr_eq_err, Exec.mapErr_eq_ok, Exec.ofExcept_eq_err,
    Exec.ofExcept_eq_ok, Exec.pure_ne_err, false_or, and_false, exists_false, or_false,
    BlockBuildingHelperError.insertPayoutTxErr.injEq] at hcall
  obtain ⟨_, _, ⟨rfl, rfl⟩, _, _, rfl, hcall⟩ := hcall
  obtain hins | ⟨_, helper₁, hins, hcall⟩ := hcall
  · obtain ⟨err, herr⟩ := insertConstraintTransactions_err hins
    cases herr
  have hkept : helper₁.SpaceKept ctx :=
    (insertConstraintTransactions_spaceKept laws hwrap (by exact h)).of_eq hins
  have hgas : helper₁.payoutTxGas = helper.payoutTxGas := by
    rw [(insertConstraintTransactions_ok hins).frame]
  obtain ⟨b, ⟨e', hpay, rfl⟩, -⟩ | ⟨_, _, -, _, helper₂, ⟨rfl, rfl⟩, hcall⟩ := hcall
  · rw [BlockBuildingHelper.SpaceKept, hgas] at hkept
    exact (insertRefundsAndProposerPayoutTx_fit laws hwrap _ _ _ hkept).of_err hpay
  obtain ⟨hvalue, -⟩ | ⟨_, _, -, hbalance, -⟩ := hcall
  · obtain ⟨e', hvalue, he⟩ := exists_of_mapError_eq_error hvalue
    cases he
    unfold PartialBlock.getProposerPayoutTxValue at hvalue
    dsimp only at hvalue
    split at hvalue
    · cases hvalue
    · cases hvalue
      simp [InsertPayoutTxErr.IsSpace]
  · obtain ⟨_, -, he⟩ := exists_of_mapError_eq_error hbalance
    cases he

/-- No payout of the first finalization is rejected for lack of space. -/
theorem finalizeBlock_not_isSpace (laws : SpaceLaws evm ctx) (hwrap : NoWrap ctx)
    (h : helper.SpaceKept ctx)
    {seenCompetitionBid : Option Nat} {localCtx : ThreadBlockBuildingContext η}
    {st : FinalizeState δ η} (hcall : finalizeBlock evm ctx raw env hashOrder value subsidy
      seenCompetitionBid (helper, localCtx) = (.err (.insertPayoutTxErr e), st)) : ¬ e.IsSpace := by
  simp only [finalizeBlock, finalizeBlockImpl,
    Exec.bind_eq_err, Exec.zoom_eq_err, Exec.zoom_eq_ok, Exec.mapErr_eq_err, Exec.mapErr_eq_ok,
    Exec.getState_ne_err, Exec.getState_eq_ok, Exec.setState_ne_err, Exec.pure_ne_err, reduceCtorEq,
    and_false, false_and, exists_false, or_false] at hcall
  obtain ⟨helper', hprepare, -⟩ := hcall
  simp only [prepareFinalize, Exec.bind_eq_err, Exec.getState_ne_err,
    Exec.getState_eq_ok, false_or] at hprepare
  obtain ⟨_, _, ⟨rfl, rfl⟩, hprepare⟩ := hprepare
  split at hprepare
  · simp at hprepare
  simp only [Exec.bind_eq_err, Exec.setState_ne_err, Exec.setState_eq_ok, Bool.false_eq_true,
    if_false, Bool.not_false, if_true, Exec.getState_ne_err, Exec.getState_eq_ok,
    Exec.ofExcept_eq_err, Exec.pure_ne_err, and_false, exists_false, false_or, or_false] at hprepare
  obtain ⟨_, _, rfl, hexec | ⟨_, _, -, _, _, -, hverify, -⟩⟩ := hprepare
  · exact finalizeBlockExecution_not_isSpace laws hwrap (by exact h) hexec
  · obtain ⟨_, -, he⟩ := exists_of_mapError_eq_error hverify
    cases he

/-- From a new helper whose reservation fits, used and reserved space fit after every run of
    `commit_order` calls, whatever they end with, and at every point of the insertion of
    constraint transactions; and no payout of the first finalization lacks space. -/
theorem block_space_never_oversold (raw : ConstraintEnv) (laws : SpaceLaws evm ctx)
    (hwrap : NoWrap ctx) {health : Except HistoricalBlockError Unit} {discardTxs : Bool}
    (hnew : BlockBuildingHelper.new evm ctx env health discardTxs = .ok start)
    (hfits : Fits ctx start.build.partialBlock.spaceState)
    (hcalls : OrderCalls evm ctx start helper) :
    Fits ctx helper.build.partialBlock.spaceState ∧
      (∀ raws, raws <+: ctx.constraints.flatten →
        (appendConstraintTxs evm ctx raw helper.executedHashes raws).Ends helper
          fun helper' => Fits ctx helper'.build.partialBlock.spaceState) ∧
      (insertConstraintTransactions evm ctx raw).Ends helper
        (fun helper' => Fits ctx helper'.build.partialBlock.spaceState) ∧
      ∀ (hashOrder : HashOrder) (value : Nat) (subsidy : Int) (seenCompetitionBid : Option Nat)
        (localCtx : ThreadBlockBuildingContext η) (err : TransactionErr)
        (st : FinalizeState δ η),
        finalizeBlock evm ctx raw env hashOrder value subsidy seenCompetitionBid
          (helper, localCtx) = (.err (.insertPayoutTxErr (.txErr err)), st) →
        err ≠ .gasLeft ∧ err ≠ .blockSpaceLeft := by
  obtain ⟨payout, hisNew⟩ := new_spec hnew
  have hkept := hcalls.spaceKept laws hwrap (spaceKept_of_isNew hisNew hfits)
  refine ⟨hkept.fits, fun raws _ => ?_, ?_, ?_⟩
  · exact SpaceKept.fits (appendConstraintTxs_spaceKept laws hwrap _ raws hkept)
  · exact SpaceKept.fits (insertConstraintTransactions_spaceKept laws hwrap hkept)
  · intro hashOrder value subsidy seenCompetitionBid localCtx err st hcall
    have hspace := finalizeBlock_not_isSpace laws hwrap hkept hcall
    refine ⟨fun he => hspace (.inl (by rw [he])), fun he => hspace (.inr (by rw [he]))⟩

end Runs

/-! ### Examples -/

/-- Nothing happens before and after the transactions. -/
def plainProtocol {δ : Type} (noChanges : δ) : BlockProtocol δ where
  preBlockCall _ := .ok noChanges
  parseDepositsFromReceipts _ := .ok []
  applyPostExecutionChanges _ := .ok ([], noChanges)
  noChanges := noChanges
  incrementBalances _ changes _ := .ok changes
  requestsHash _ := B256.zero
  calculateWithdrawalsRoot _ := B256.zero

def plainEncoders : Encoders where
  keccak256 _ := B256.zero
  logBloom _ := 0
  encodeReceipt receipt _ := indexKey receipt.cumulativeGasUsed.toNat
  hashBuilder _ _ := (B256.zero, [])
  schedule := .inOrder

/-- Every state has the same root. -/
def plainEnv {δ : Type} (noChanges : δ) (revertedAccounts : δ → List Address) : SealEnv δ Unit where
  protocol := plainProtocol noChanges
  encoders := plainEncoders
  rootHasher := ⟨fun _ _ _ => (.ok B256.zero, ()), fun _ _ => ()⟩
  revertedAccounts := revertedAccounts

def plainRaw : ConstraintEnv where
  decode _ := .error "not a transaction"
  debugCriticalError _ := "critical"

variable {length : Nat}

/-- A signer whose payouts have all the same length. -/
theorem payoutLength_of_length
    (h : ∀ tx signed, ctx.builderSigner.sign tx = .ok signed → signed.length = length)
    (nonce : UInt64) (recipient : Address) (gasLimit : UInt64) (value : Nat) (tx : Tx)
    (space : BlockSpace) (htx : createPayoutTx ctx nonce recipient gasLimit value = .ok tx)
    (hspace : estimatePayoutTxSpace ctx = .ok space) : tx.length ≤ space.rlpLength := by
  have hlength : ∀ nonce recipient gasLimit value tx,
      createPayoutTx ctx nonce recipient gasLimit value = .ok tx → tx.length = length := by
    intro nonce recipient gasLimit value tx htx
    unfold createPayoutTx Signer.signTx at htx
    cases hsign : ctx.builderSigner.sign _ with
    | error e =>
      rw [hsign] at htx
      cases htx
    | ok signed =>
      rw [hsign] at htx
      cases htx
      exact h _ _ hsign
  unfold estimatePayoutTxSpace at hspace
  cases hsample : createPayoutTx ctx 0 (Vector.replicate 20 0) (maxTxGasLimit ctx) 0 with
  | error e =>
    rw [hsample] at hspace
    cases hspace
  | ok sample =>
    rw [hsample] at hspace
    cases hspace
    change tx.length ≤ sample.length + 32 * 4
    rw [hlength _ _ _ _ _ htx, hlength _ _ _ _ _ hsample]
    omega

/-- An executed transfer, of which `value` arrives. -/
structure Transferred (ctx : BlockBuildingContext) (read : Address → Option AccountInfo) (tx : Tx)
    (res : ResultAndState Accounts) (sender : AccountInfo) (recipient : Address) (value : Nat) :
    Prop where
  account : (read tx.signer).getD ⟨0, 0, emptyCodeHash⟩ = sender
  limit : tx.gasLimit ≤ ctx.gasLimit
  nonce : sender.nonce = tx.nonce
  notLast : tx.nonce ≠ 0xFFFFFFFFFFFFFFFF
  gas : baseTxGas ≤ tx.gasLimit
  funds : tx.value ≤ sender.balance.toNat
  arrives : value ≤ tx.value
  gasUsed : res.result.gasUsed = baseTxGas
  state : res.state =
    let tip := min tx.maxPriorityFeePerGas (tx.maxFeePerGas - ctx.basefee.toNat)
    let paid : AccountInfo := { sender with
      nonce := sender.nonce + 1
      balance := .ofNat 256
        (sender.balance.toNat - baseTxGas.toNat * (ctx.basefee.toNat + tip) - value) }
    credit read (credit read [(tx.signer, paid)] recipient value) ctx.beneficiary
      (baseTxGas.toNat * tip)

theorem transfer_ok {read : Address → Option AccountInfo} {tx : Tx} {res : ResultAndState Accounts}
    (h : transfer ctx read tx = .ok res) :
    ∃ sender recipient value, Transferred ctx read tx res sender recipient value := by
  unfold transfer at h
  cases hto : tx.toAddress with
  | none =>
    rw [hto] at h
    cases h
  | some recipient =>
    rw [hto] at h
    dsimp only at h
    split_ifs at h with hlimit hlow hhigh hother hcode <;> cases h
    all_goals
      simp only [not_or, UInt64.not_lt, not_lt] at hlimit hlow hhigh hother
      obtain ⟨hlast, hgas, -, hfunds⟩ := hother
      refine ⟨_, recipient, _, rfl, hlimit, UInt64.le_antisymm hhigh hlow, hlast, hgas, ?_, ?_,
        rfl, rfl⟩
      · omega
      · omega

theorem transferEvm_spaceLaws (base : Accounts)
    (h : ∀ tx signed, ctx.builderSigner.sign tx = .ok signed → signed.length = length) :
    SpaceLaws (transferEvm ctx base) ctx where
  gasLimit _ _ _ hres := by
    obtain ⟨_, _, _, htransfer⟩ := transfer_ok hres
    exact htransfer.limit
  gasUsed _ _ _ hres := by
    obtain ⟨_, _, _, htransfer⟩ := transfer_ok hres
    exact htransfer.gasUsed ▸ htransfer.gas
  payoutLength := payoutLength_of_length h

def exampleEnv : SealEnv Accounts Unit := plainEnv [] fun changes => changes.map Prod.fst

/-- The constraint transaction `tx`. -/
def singleRaw (tx : Tx) : ConstraintEnv where
  decode rawTx := if rawTx = [1] then .ok tx else .error "not a transaction"
  debugCriticalError _ := "critical"

/-- The context with one constraint transaction. -/
def constrainedCtx : BlockBuildingContext := { exampleCtx with constraints := [[[1]]] }

def inclusionEvm : Evm Accounts := transferEvm constrainedCtx exampleAccounts

/-- A bundle of which one transaction is dropped, then a constraint transaction. -/
theorem block_space_never_oversold_dropping :
    ∃ start, BlockBuildingHelper.new inclusionEvm constrainedCtx exampleEnv (.ok ()) true =
        .ok start ∧
      let raw := singleRaw (userTx 2 shop 5)
      let helper := (BlockBuildingHelper.commitOrder inclusionEvm constrainedCtx insertionOrder
        droppingBundle (fun _ => .ok ()) start).2
      Fits constrainedCtx helper.build.partialBlock.spaceState ∧
      (insertConstraintTransactions inclusionEvm constrainedCtx raw).Ends helper
        (fun helper' => Fits constrainedCtx helper'.build.partialBlock.spaceState) ∧
      ∀ value localCtx st, finalizeBlock inclusionEvm constrainedCtx raw exampleEnv insertionOrder
        value 0 none (helper, localCtx) ≠ (.err (.insertPayoutTxErr (.txErr .gasLeft)), st) := by
  obtain ⟨start, hnew, hst⟩ : ∃ start,
      BlockBuildingHelper.new inclusionEvm constrainedCtx exampleEnv (.ok ()) true = .ok start ∧
        start.build.partialBlock.spaceState = ⟨⟨0, 1025, 0⟩, ⟨21000, 246, 0⟩⟩ :=
    ⟨_, rfl, by decide +kernel⟩
  have hlaws : SpaceLaws inclusionEvm constrainedCtx :=
    transferEvm_spaceLaws exampleAccounts fun tx signed hsign => by cases hsign; rfl
  have hwrap : NoWrap constrainedCtx := ⟨by decide, by decide⟩
  have hfits : Fits constrainedCtx start.build.partialBlock.spaceState := by
    rw [hst]
    exact ⟨by decide, by decide, by decide⟩
  obtain ⟨hcommitted, -, hinserted, hpayout⟩ := block_space_never_oversold
    (singleRaw (userTx 2 shop 5)) hlaws hwrap hnew hfits (.call .nil _ _ _)
  exact ⟨start, hnew, hcommitted, hinserted, fun value localCtx st hcall =>
    (hpayout _ _ _ _ _ _ _ hcall).1 rfl⟩

/-! With a gas limit close to `2 ^ 64` the check wraps around. -/

/-- A transaction uses the gas that its value says. -/
def meteredEvm (ctx : BlockBuildingContext) : Evm Unit where
  basic _ _ := .ok none
  transact _ tx :=
    if tx.gasLimit ≤ ctx.gasLimit then
      .ok ⟨.success (min tx.gasLimit (.ofNat tx.value)) 0 [], (), []⟩
    else .error (.transaction .callerGasLimitMoreThanBlock)
  transactFunded _ _ _ _ := .error .header

/-- The gas limit is `2 ^ 64 - 10000`. -/
def hugeCtx : BlockBuildingContext :=
  { exampleCtx with gasLimit := 18446744073709541616, gasAvailable := 18446744073709541616 }

/-- A transaction with the gas limit `2 ^ 63`. -/
def meteredTx (gasUsed : Nat) : Tx :=
  { userTx 0 shop gasUsed with gasLimit := 9223372036854775808 }

def commitMetered (gasUsed : Nat) :=
  BlockBuildingHelper.commitOrder (meteredEvm hugeCtx) hugeCtx insertionOrder
    (.tx (meteredTx gasUsed)) fun _ => .ok ()

theorem meteredEvm_spaceLaws : SpaceLaws (meteredEvm hugeCtx) hugeCtx where
  gasLimit s tx res hres := by
    simp only [meteredEvm] at hres
    split at hres
    · assumption
    · cases hres
  gasUsed s tx res hres := by
    simp only [meteredEvm] at hres
    split at hres
    · cases hres
      exact Std.min_le_left
    · cases hres
  payoutLength := payoutLength_of_length fun tx signed hsign => by cases hsign; rfl

/-- Two transactions with the gas limit `2 ^ 63` pass the check and use more than there is. -/
theorem block_space_wraps_around :
    SpaceLaws (meteredEvm hugeCtx) hugeCtx ∧
      ∃ start, BlockBuildingHelper.new (meteredEvm hugeCtx) hugeCtx (plainEnv () fun _ => [])
          (.ok ()) true = .ok start ∧
        Fits hugeCtx start.build.partialBlock.spaceState ∧
        ∃ helper, OrderCalls (meteredEvm hugeCtx) hugeCtx start helper ∧
          ¬ Fits hugeCtx helper.build.partialBlock.spaceState := by
  refine ⟨meteredEvm_spaceLaws, _, rfl, ⟨by decide +kernel, by decide +kernel, by decide +kernel⟩,
    (commitMetered 9223372036854745808 (commitMetered 9223372036854775808 _).2).2,
    .call (.call .nil _ _ _) _ _ _, fun hfits => ?_⟩
  exact absurd hfits.gas (by decide +kernel)

end Building
