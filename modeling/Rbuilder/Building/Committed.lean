/-
  What the commit functions do.

  `Committed`: one transaction was executed on the state it met and its transition merged.
  `Executed`: a list of transactions was, one after the other, within the space left. Every
  commit function either returns with the state advanced by exactly the transactions it
  lists (`Ran`), or reports an error on a fork from which the point it started at can be
  reached. The specifications below say this for each of them, from single transactions up
  to orders; a function that rolls back its errors reports them on the fork it was given.
-/
import Rbuilder.Building.Landing
import Rbuilder.Building.PartialBlock

namespace Building

open SparseMpt Rollback List

namespace BlockSpace

@[ext] theorem ext {a b : BlockSpace} (hg : a.gas = b.gas) (hr : a.rlpLength = b.rlpLength)
    (hb : a.blobGas = b.blobGas) : a = b := by
  cases a
  simp_all

theorem add_assoc (a b c : BlockSpace) : a + b + c = a + (b + c) :=
  ext (UInt64.add_assoc ..) (Nat.add_assoc ..) (Nat.add_assoc ..)

@[simp] theorem add_zero (a : BlockSpace) : a + zero = a :=
  ext (UInt64.add_zero _) rfl rfl

@[simp] theorem zero_add (a : BlockSpace) : zero + a = a :=
  ext (UInt64.zero_add _) (Nat.zero_add _) (Nat.zero_add _)

end BlockSpace

variable {δ E : Type} {evm : Evm δ} {ctx : BlockBuildingContext}

/-! ## Executed transactions -/

/-- A transaction was executed on `s` and its transition merged. -/
structure Committed (evm : Evm δ) (ctx : BlockBuildingContext) (spaceState : BlockBuildingSpaceState)
    (s : BlockState δ) (info : TransactionExecutionInfo) (s' : BlockState δ) : Prop where
  fits : canFitTx ctx info.tx.spaceNeeded info.tx.blobsGasUsed spaceState = .ok ()
  allowed : isBlocked ctx.blocklist info.tx = false
  executed : ∃ res, evm.transact s info.tx = .ok res ∧ s' = s.push res.state ∧
    info.receipt.success = res.result.isSuccess ∧
    info.spaceUsed = ⟨res.result.gasUsed, info.tx.length, info.tx.blobsGasUsed⟩
  cumulative : info.receipt.cumulativeGasUsed = (spaceState.useSpace info.spaceUsed).gasUsed
  profit : ∃ before after : Nat, evm.balance s ctx.beneficiary = .ok before ∧
    evm.balance s' ctx.beneficiary = .ok after ∧ info.coinbaseProfit = after - before

/-- From `used` space and the state `s` the transactions lead to `used'` and `s'`. -/
inductive Executed (evm : Evm δ) (ctx : BlockBuildingContext) (reserved used : BlockSpace)
    (s : BlockState δ) : List TransactionExecutionInfo → BlockSpace → BlockState δ → Prop
  | nil : Executed evm ctx reserved used s [] used s
  | snoc {infos : List TransactionExecutionInfo} {used' : BlockSpace} {s' s'' : BlockState δ}
      {info : TransactionExecutionInfo} (h : Executed evm ctx reserved used s infos used' s')
      (hc : Committed evm ctx ⟨used', reserved⟩ s' info s'') :
      Executed evm ctx reserved used s (infos ++ [info]) (used' + info.spaceUsed) s''

section Executed

variable {reserved used used' used'' : BlockSpace} {s s' s'' : BlockState δ}
  {infos infos' : List TransactionExecutionInfo}

theorem Executed.append (h : Executed evm ctx reserved used s infos used' s')
    (h' : Executed evm ctx reserved used' s' infos' used'' s'') :
    Executed evm ctx reserved used s (infos ++ infos') used'' s'' := by
  induction h' with
  | nil => rwa [append_nil]
  | snoc _ hc ih =>
    rw [← append_assoc]
    exact ih.snoc hc

theorem replay_append (txs txs' : List Tx) (s : BlockState δ) :
    evm.replay s (txs ++ txs') = (evm.replay s txs).bind fun s' => evm.replay s' txs' := by
  induction txs generalizing s with
  | nil => rfl
  | cons tx txs ih =>
    rw [cons_append, Evm.replay, Evm.replay]
    cases evm.transact s tx with
    | ok res => exact ih _
    | error e => rfl

/-- The state is that of replaying the transactions. -/
theorem Executed.replay (h : Executed evm ctx reserved used s infos used' s') :
    evm.replay s (infos.map (·.tx)) = some s' := by
  induction h with
  | nil => rfl
  | snoc _ hc ih =>
    obtain ⟨res, hres, hpush, -⟩ := hc.executed
    rw [map_append, replay_append, ih, Option.bind_some, map_singleton, Evm.replay, hres, hpush]
    rfl

theorem Executed.entries (h : Executed evm ctx reserved used s infos used' s') :
    ∃ ds : List δ, s'.entries = ds ++ s.entries ∧ ds.length = infos.length := by
  induction h with
  | nil => exact ⟨[], rfl, rfl⟩
  | snoc _ hc ih =>
    obtain ⟨ds, hds, hlen⟩ := ih
    obtain ⟨res, -, hpush, -⟩ := hc.executed
    refine ⟨res.state :: ds, ?_, ?_⟩
    · rw [hpush, Journal.push, hds, cons_append]
    · rw [length_cons, hlen, length_append, length_singleton]

end Executed

/-- From the fork `f` and `used` space the transactions were executed and counted; they
    used `spaceUsed`, and `cumulative` with what was used before. -/
structure Ran (evm : Evm δ) (ctx : BlockBuildingContext) (reserved used : BlockSpace) (f : Fork δ)
    (infos : List TransactionExecutionInfo) (spaceUsed cumulative : BlockSpace) (f' : Fork δ) :
    Prop where
  executed : Executed evm ctx reserved used f.state infos cumulative f'.state
  counted : f'.rollbacks = f.rollbacks + infos.length
  space : used + spaceUsed = cumulative

section Ran

variable {reserved used : BlockSpace} {f f' : Fork δ}

theorem Ran.nil : Ran evm ctx reserved used f [] .zero used f :=
  ⟨.nil, rfl, BlockSpace.add_zero used⟩

variable {infos infos' : List TransactionExecutionInfo} {spaceUsed cumulative : BlockSpace}

theorem Ran.extends
    (h : Ran evm ctx reserved used f infos spaceUsed cumulative f') : f.Extends f' := by
  obtain ⟨ds, hds, hlen⟩ := h.executed.entries
  exact ⟨ds, hds, by rw [h.counted, hlen]⟩

theorem Committed.extends {spaceState : BlockBuildingSpaceState} {info : TransactionExecutionInfo}
    (h : Committed evm ctx spaceState f.state info f'.state)
    (hcount : f'.rollbacks = f.rollbacks + 1) : f.Extends f' := by
  obtain ⟨res, -, hpush, -⟩ := h.executed
  exact ⟨[res.state], by rw [hpush]; rfl, hcount⟩

theorem Ran.append {spaceUsed' cumulative' : BlockSpace} {f'' : Fork δ}
    (h : Ran evm ctx reserved used f infos spaceUsed cumulative f')
    (h' : Ran evm ctx reserved cumulative f' infos' spaceUsed' cumulative' f'') :
    Ran evm ctx reserved used f (infos ++ infos') (spaceUsed + spaceUsed') cumulative' f'' where
  executed := h.executed.append h'.executed
  counted := by rw [h'.counted, h.counted, length_append, Nat.add_assoc]
  space := by rw [← BlockSpace.add_assoc, h.space, h'.space]

end Ran

/-! ## Reading the state -/

variable {ε ε' α : Type} {f f' f'' : Fork δ} {tx : Tx} {recipient : Address}
  {space spaceUsed reserved used : BlockSpace} {g : ε → ε'} {x : Except ε α}

theorem mapError_eq_ok {a : α} : x.mapError g = .ok a ↔ x = .ok a := by
  cases x with
  | ok b | error e => simp [Except.mapError]

theorem exists_of_mapError_eq_error {e : ε'}
    (h : x.mapError g = .error e) : ∃ d, x = .error d ∧ g d = e := by
  cases x with
  | ok b => cases h
  | error d => exact ⟨d, rfl, Except.error.inj h⟩

theorem exists_of_bind_eq_ok {β : Type} {k : α → Except ε β} {b : β}
    (h : x >>= k = .ok b) : ∃ a, x = .ok a ∧ k a = .ok b := by
  cases x with
  | ok a => exact ⟨a, rfl, h⟩
  | error e => cases h

section Reads

variable {f : Fork δ} {R : E → Fork δ → Prop}

theorem coinbaseBalance_holds {Q : Nat → Fork δ → Prop}
    (h : ∀ balance, evm.balance f.state ctx.beneficiary = .ok balance → Q balance f) :
    (coinbaseBalance evm ctx : ForkExec δ E Nat).Holds f Q R := by
  refine .bind (.getState (.orAbort ?_))
  intro balance hb
  exact h balance (mapError_eq_ok.mp hb)

theorem signedCoinbaseBalance_holds {Q : Int → Fork δ → Prop}
    (h : ∀ balance : Nat, evm.balance f.state ctx.beneficiary = .ok balance → Q balance f) :
    (signedCoinbaseBalance evm ctx : ForkExec δ E Int).Holds f Q R := by
  refine .bind (coinbaseBalance_holds fun balance hb => ?_)
  by_cases hlt : balance < 2 ^ 255
  · rw [if_pos hlt]
    exact .pure (h balance hb)
  · rw [if_neg hlt]
    exact .abort

end Reads

/-! ## Transactions -/

theorem executeEvm_holds {Q : ResultAndState δ → Fork δ → Prop}
    (h : ∀ res, evm.transact f.state tx = .ok res → Q res f) :
    (executeEvm evm ctx tx).Holds f Q fun _ f' => f' = f := by
  refine .bind (.getState ?_)
  rcases ht : evm.transact f.state tx with err | res
  · rcases err with err | _ | _ | _
    · exact .fail rfl
    all_goals exact .abort
  dsimp only
  by_cases hblocked : res.accessed.any ctx.blocklist.contains
  · rw [if_pos hblocked]
    exact .fail rfl
  · rw [if_neg hblocked]
    exact .pure (h res ht)

/-- A transaction is merged and counted, or the fork is as it was. -/
theorem commitTx_holds (tx : Tx) (spaceState : BlockBuildingSpaceState) (f : Fork δ) :
    (commitTx evm ctx tx spaceState).Holds f
      (fun ok f' => ok.txInfo.tx = tx ∧
        Committed evm ctx spaceState f.state ok.txInfo f'.state ∧
        ok.cumulativeSpaceUsed = spaceState.spaceUsed + ok.spaceUsed ∧
        f'.rollbacks = f.rollbacks + 1)
      fun _ f' => f' = f := by
  refine .bind (.ofExcept (fun _ hfit => ?_) fun _ _ => rfl)
  refine .bind (signedCoinbaseBalance_holds fun before hbefore => ?_)
  split
  · exact .fail rfl
  rename_i hallowed
  refine .bind (executeEvm_holds fun res hres => ?_)
  refine .bind (?_ : Exec.Holds (mergeTransition res.state) f ..)
  refine .bind (signedCoinbaseBalance_holds fun after hafter => .pure ?_)
  refine ⟨rfl, ⟨hfit, Bool.eq_false_iff.mpr hallowed, ⟨res, hres, rfl, rfl, rfl⟩, rfl, ?_⟩, rfl, rfl⟩
  exact ⟨before, after, hbefore, hafter, rfl⟩

/-! ## Payouts -/

/-- A payout of the builder, without a priority fee. -/
structure IsPayoutTx (ctx : BlockBuildingContext) (nonce : UInt64) (recipient : Address)
    (gasLimit : UInt64) (value : Nat) (tx : Tx) : Prop where
  signer : tx.signer = ctx.builderSigner.address
  nonce : tx.nonce = nonce
  toAddress : tx.toAddress = some recipient
  gasLimit : tx.gasLimit = gasLimit
  value : tx.value = value
  maxFeePerGas : tx.maxFeePerGas = ctx.basefee.toNat
  maxPriorityFeePerGas : tx.maxPriorityFeePerGas = 0
  blobsLen : tx.blobsLen = 0

theorem createPayoutTx_spec {nonce gasLimit : UInt64} {value : Nat}
    (h : createPayoutTx ctx nonce recipient gasLimit value = .ok tx) :
    IsPayoutTx ctx nonce recipient gasLimit value tx := by
  unfold createPayoutTx Signer.signTx at h
  generalize ctx.builderSigner.sign _ = signed at h
  cases signed with
  | error e => cases h
  | ok signed =>
    cases h
    exact ⟨rfl, rfl, rfl, rfl, rfl, rfl, rfl, rfl⟩

theorem estimatePayoutTxSpace_spec (h : estimatePayoutTxSpace ctx = .ok space) :
    space.gas = baseTxGas ∧ space.blobGas = 0 := by
  unfold estimatePayoutTxSpace at h
  cases hc : createPayoutTx ctx 0 (Vector.replicate 20 0) (maxTxGasLimit ctx) 0 with
  | error e =>
    rw [hc] at h
    cases h
  | ok tx =>
    rw [hc] at h
    cases h
    exact ⟨rfl, rfl⟩

/-- An estimate has the length that is reserved for every payout. -/
theorem estimatePayoutGasLimit_spec {s : BlockState δ}
    (h : estimatePayoutGasLimit evm ctx recipient s spaceUsed = .ok space) :
    ∃ default, estimatePayoutTxSpace ctx = .ok default ∧ space.rlpLength = default.rlpLength ∧
      space.blobGas = 0 := by
  obtain ⟨default, hdefault, h⟩ := exists_of_bind_eq_ok h
  refine ⟨default, mapError_eq_ok.mp hdefault, ?_⟩
  obtain ⟨codeHash, -, h⟩ := exists_of_bind_eq_ok h
  split at h
  · cases h
    exact ⟨rfl, (estimatePayoutTxSpace_spec (mapError_eq_ok.mp hdefault)).2⟩
  obtain ⟨gas, -, h⟩ := exists_of_bind_eq_ok h
  cases h
  exact ⟨rfl, rfl⟩

section

variable {f : Fork δ} {R : BundleErr → Fork δ → Prop}

theorem estimateRefundPayoutTx_holds {refundableValue : Nat} {Q : ReservedPayout → Fork δ → Prop}
    (h : ∀ payout, estimatePayoutGasLimit evm ctx recipient f.state spaceUsed =
        .ok payout.spaceLimit → payout.baseFee = ctx.basefee.toNat * payout.spaceLimit.gas.toNat →
      Q payout f) (hR : ∀ e, R e f) :
    (estimateRefundPayoutTx evm ctx recipient refundableValue spaceUsed).Holds f Q R := by
  refine .bind (.getState (.bind (.ofExcept (fun spaceLimit hlimit => ?_) fun e _ => hR e)))
  dsimp only
  split
  · exact .fail (hR _)
  · exact .pure (h _ (mapError_eq_ok.mp hlimit) rfl)

end

/-- A result after one more transaction. -/
theorem Ran.accumulate {insert : BundleOk} {ok : TransactionOk}
    (h : Ran evm ctx reserved used f insert.txInfos insert.spaceUsed insert.cumulativeSpaceUsed f')
    (hc : Committed evm ctx (insert.spaceState reserved) f'.state ok.txInfo f''.state)
    (hspace : ok.cumulativeSpaceUsed = (insert.spaceState reserved).spaceUsed + ok.spaceUsed)
    (hcount : f''.rollbacks = f'.rollbacks + 1) :
    Ran evm ctx reserved used f (insert.accumulateTxExecution ok).txInfos
      (insert.accumulateTxExecution ok).spaceUsed
      (insert.accumulateTxExecution ok).cumulativeSpaceUsed f'' where
  executed := by
    have hexec := h.executed.snoc hc
    rwa [← show ok.cumulativeSpaceUsed = insert.cumulativeSpaceUsed + ok.txInfo.spaceUsed from
      hspace] at hexec
  counted := by
    rw [hcount, h.counted, BundleOk.accumulateTxExecution, length_append,
      length_singleton, Nat.add_assoc]
  space := by
    change used + (insert.spaceUsed + ok.spaceUsed) = ok.cumulativeSpaceUsed
    rw [← BlockSpace.add_assoc, h.space, hspace]
    rfl

section

variable {reserved used : BlockSpace} {f f' : Fork δ} {insert : BundleOk}

/-- A payout is one more transaction; a failed one leaves a fork to roll back. -/
theorem insertRefundPayoutTx_holds (payout : ReservedPayout) (recipient : Address)
    (h : Ran evm ctx reserved used f insert.txInfos insert.spaceUsed insert.cumulativeSpaceUsed f') :
    (insertRefundPayoutTx evm ctx payout recipient reserved insert).Holds f'
      (fun ok f'' => Ran evm ctx reserved used f ok.txInfos ok.spaceUsed ok.cumulativeSpaceUsed f'' ∧
        ok.delayedKickback = insert.delayedKickback ∧ insert.Pays ctx ok)
      fun _ f'' => f.Extends f'' := by
  have hext := h.extends
  refine .bind (.getState (.bind (.orAbort fun nonce _ => ?_)))
  refine .bind (.ofExcept (fun payoutTx hcreate => ?_) fun _ _ => hext)
  refine .bind (.attempt ((commitTx_holds ..).mono ?_ ?_))
  · rintro ok f'' ⟨htx, hc, hspace, hcount⟩
    have hran := h.accumulate hc hspace hcount
    have hcreated : IsCreated ctx ok.txInfo.tx := ⟨_, _, _, _, htx ▸ mapError_eq_ok.mp hcreate⟩
    dsimp only
    split
    · exact .fail hran.extends
    rename_i hsuccess
    refine .pure ⟨hran, rfl, [ok.txInfo], fun info hmem => ?_, rfl⟩
    obtain rfl := mem_singleton.mp hmem
    exact ⟨hcreated, by simpa using hsuccess⟩
  · rintro err f'' rfl
    exact .fail hext

end

/-! ## Bundles -/

/-- `insert` is the result of what ran since the fork `f`. -/
abbrev BundleOk.Since (evm : Evm δ) (ctx : BlockBuildingContext) (reserved used : BlockSpace)
    (f : Fork δ) (insert : BundleOk) (f' : Fork δ) : Prop :=
  Ran evm ctx reserved used f insert.txInfos insert.spaceUsed insert.cumulativeSpaceUsed f'

section Bundle

variable {reserved used : BlockSpace} {f : Fork δ}

/-- A transaction that is dropped is rolled back at once, so the result of the loop lists
    what the state holds. -/
theorem commitBundleTxs_holds (bundle : Bundle) (allowTxSkip : Bool) (txs : List Tx)
    (insert : BundleOk) (refundableProfit : Nat) (f' : Fork δ)
    (h : insert.Since evm ctx reserved used f f') :
    (commitBundleTxs evm ctx bundle reserved allowTxSkip txs insert refundableProfit).Holds f'
      (fun out f'' => out.1.Since evm ctx reserved used f f'' ∧
        out.1.delayedKickback = insert.delayedKickback ∧ insert.AddsTxs bundle txs out.1)
      fun _ f'' => f.Extends f'' := by
  induction txs generalizing insert refundableProfit f' with
  | nil => exact .pure ⟨h, rfl, [], .nil, (append_nil _).symm⟩
  | cons tx txs ih =>
    refine .bind (?_ : Exec.Holds Fork.rollbackPoint f' ..)
    refine .bind (.attempt ((commitTx_holds ..).mono ?_ ?_))
    · rintro ok f'' ⟨htx, hc, hspace, hcount⟩
      have hran := h.accumulate hc hspace hcount
      dsimp only
      split
      · rename_i hdropped
        rw [Bool.and_eq_true] at hdropped
        have hoptional : bundle.isTxOptional tx.hash = true := by
          rw [Bundle.isTxOptional, hdropped.2, Bool.or_true]
        refine .bind (Fork.rollback_holds (hc.extends hcount) ((ih insert refundableProfit f'
          h).imp ?_))
        rintro out f₁ ⟨hran, hk, hadds⟩
        exact ⟨hran, hk, hadds.skip hoptional⟩
      rename_i hkept
      split
      · exact .fail hran.extends
      rename_i hallowed
      refine (ih _ _ f'' hran).imp ?_
      rintro out f₁ ⟨hran', hk, landed, hlanded, hadds⟩
      refine ⟨hran', hk, ok.txInfo :: landed, .landed htx ?_ hlanded, ?_⟩
      · intro hfailed
        simpa [hfailed] using And.intro hallowed hkept
      · rw [BundleOk.Adds, hadds]
        exact append_assoc ..
    rintro err f'' rfl
    dsimp only
    split
    · rename_i hskipped
      have hoptional : bundle.isTxOptional tx.hash = true := by
        simp only [Bool.or_eq_true, Bool.and_eq_true] at hskipped
        rw [Bundle.isTxOptional, Bool.or_eq_true]
        exact hskipped.imp And.right id
      refine (ih insert refundableProfit f'' h).imp ?_
      rintro out f₁ ⟨hran, hk, hadds⟩
      exact ⟨hran, hk, hadds.skip hoptional⟩
    · exact .fail h.extends

/-- What a bundle leaves to be paid later: nothing; to the refund pipeline; to a recipient
    of a combined refund; or to a new one, for whose payout there is space. -/
inductive KickbackOk (ctx : BlockBuildingContext) (reserved : BlockSpace) (refunds : Refunds)
    (cumulative : BlockSpace) : Option DelayedKickback → Prop
  | none : KickbackOk ctx reserved refunds cumulative none
  | pipeline (k : DelayedKickback) (hpay : k.shouldPayInBlock = false) (hfee : k.payoutTxFee = 0) :
      KickbackOk ctx reserved refunds cumulative (some k)
  | known (k : DelayedKickback) (hpay : k.shouldPayInBlock = true) (hmem : k.recipient ∈ refunds)
      (hfee : k.payoutTxFee = 0) (hspace : k.payoutTxSpaceNeeded = .zero) :
      KickbackOk ctx reserved refunds cumulative (some k)
  | fresh (k : DelayedKickback) (hpay : k.shouldPayInBlock = true) (hmem : k.recipient ∉ refunds)
      (hfee : k.payoutTxFee = ctx.basefee.toNat * baseTxGas.toNat)
      (hspace : estimatePayoutTxSpace ctx = .ok k.payoutTxSpaceNeeded)
      (hfits : canFitTx ctx k.payoutTxSpaceNeeded 0 ⟨cumulative, reserved⟩ = .ok ()) :
      KickbackOk ctx reserved refunds cumulative (some k)

theorem commitBundleRefund_holds (refundsCfg : BundleRefund) (refunds : Refunds)
    (insert : BundleOk) (refundableProfit : Nat) (f' : Fork δ)
    (h : insert.Since evm ctx reserved used f f') (hnone : insert.delayedKickback = none) :
    (commitBundleRefund evm ctx refundsCfg reserved refunds insert refundableProfit).Holds f'
      (fun ok f'' => ok.Since evm ctx reserved used f f'' ∧
        KickbackOk ctx reserved refunds ok.cumulativeSpaceUsed ok.delayedKickback ∧
        insert.Pays ctx ok)
      fun _ f'' => f.Extends f'' := by
  unfold commitBundleRefund
  dsimp only
  split
  · exact .pure ⟨h, .pipeline _ rfl rfl, .refl⟩
  split
  · rename_i hmem
    exact .pure ⟨h, .known _ rfl (AList.lookup_isSome.mp hmem) rfl rfl, .refl⟩
  rename_i hmem
  refine .bind (estimateRefundPayoutTx_holds ?_ fun _ => h.extends)
  intro payout hlimit hfee
  split
  · rename_i hsmall
    obtain ⟨default, hdefault, hlen, hblob⟩ := estimatePayoutGasLimit_spec hlimit
    have hspec := estimatePayoutTxSpace_spec hdefault
    have heq : payout.spaceLimit = default :=
      BlockSpace.ext (hsmall.1.trans hspec.1.symm) hlen (hblob.trans hspec.2.symm)
    refine .pure ⟨h, .fresh _ rfl (fun hm => hmem (AList.lookup_isSome.mpr hm)) ?_ ?_ hsmall.2,
      .refl⟩
    · rw [hfee, hsmall.1]
    · rw [hdefault, heq]
  refine (insertRefundPayoutTx_holds payout refundsCfg.recipient h).imp ?_
  rintro ok f'' ⟨hok, hk, hpays⟩
  rw [hk, hnone]
  exact ⟨hok, .none, hpays⟩

theorem commitBundle_holds (bundle : Bundle) (spaceState : BlockBuildingSpaceState)
    (allowTxSkip : Bool) (refunds : Refunds) (f : Fork δ) :
    (commitBundle evm ctx bundle spaceState allowTxSkip refunds).Holds f
      (fun ok f' => ok.Since evm ctx spaceState.reservedBlockSpace spaceState.spaceUsed f f' ∧
        KickbackOk ctx spaceState.reservedBlockSpace refunds ok.cumulativeSpaceUsed
          ok.delayedKickback ∧ Lands ctx (.bundle bundle) ok.txInfos)
      fun _ f' => f' = f := by
  unfold commitBundle
  dsimp only
  split
  · exact .fail rfl
  split
  · exact .fail rfl
  refine Fork.executeWithRollback_holds (.bind ((commitBundleTxs_holds bundle allowTxSkip
    bundle.txs _ 0 f .nil).imp ?_))
  rintro ⟨insert, refundableProfit⟩ f' ⟨hok, hnone, landed, hlanded, hadds⟩
  dsimp only at hok hnone ⊢
  split
  · exact .fail hok.extends
  have hlanded : OrderLanded (.bundle bundle) insert.txInfos := hadds ▸ hlanded
  split
  · exact .pure ⟨hok, hnone ▸ .none, hlanded.lands .refl⟩
  · refine (commitBundleRefund_holds _ refunds insert refundableProfit f' hok hnone).imp ?_
    exact fun ok f'' ⟨hran, hk, hpays⟩ => ⟨hran, hk, hlanded.lands hpays⟩

end Bundle

/-! ## Share bundles -/

section ShareBundle

variable {reserved used : BlockSpace} {f f' f'' : Fork δ}

/-- What the loop over a body has so far is the result of what ran since the fork `f`. -/
def ShareBundleProgress.Since (evm : Evm δ) (ctx : BlockBuildingContext)
    (reserved used : BlockSpace) (f : Fork δ) (progress : ShareBundleProgress) (f' : Fork δ) : Prop :=
  progress.insert.Since evm ctx reserved used f f' ∧ progress.insert.delayedKickback = none

variable {progress : ShareBundleProgress}

theorem commitShareBundleTx_holds (sbundleTx : ShareBundleTx) (isRefundable allowTxSkip : Bool)
    (h : progress.Since evm ctx reserved used f f') :
    (commitShareBundleTx evm ctx sbundleTx isRefundable reserved allowTxSkip progress).Holds f'
      (fun progress' f'' => progress'.Since evm ctx reserved used f f'' ∧
        progress.insert.AddsBody [.tx sbundleTx] progress'.insert)
      fun _ f'' => f.Extends f'' := by
  have hskip (hoptional : sbundleTx.revertBehavior.canRevert = true) :
      progress.insert.AddsBody [.tx sbundleTx] progress.insert :=
    ⟨[], .txSkipped hoptional .nil, (append_nil _).symm⟩
  refine .bind (?_ : Exec.Holds Fork.rollbackPoint f' ..)
  refine .bind (.attempt ((commitTx_holds ..).mono ?_ ?_))
  · rintro ok f'' ⟨htx, hc, hspace, hcount⟩
    have hran := h.1.accumulate hc hspace hcount
    dsimp only
    split
    · rename_i hsuccess
      refine .pure ⟨⟨hran, h.2⟩, [ok.txInfo], .txLanded htx (fun hfailed => ?_) .nil, rfl⟩
      rw [hsuccess] at hfailed
      cases hfailed
    split
    · exact .fail hran.extends
    · rename_i hbehavior
      exact .pure ⟨⟨hran, h.2⟩, [ok.txInfo], .txLanded htx (fun _ => hbehavior) .nil, rfl⟩
    · rename_i hbehavior
      exact .bind (Fork.rollback_holds (hc.extends hcount)
        (.pure ⟨h, hskip (by rw [hbehavior]; rfl)⟩))
  rintro err f'' rfl
  dsimp only
  split
  · rename_i hoptional
    exact .pure ⟨h, hskip (Bool.and_eq_true _ _ ▸ hoptional).2⟩
  · exact .fail h.1.extends

theorem ShareBundleProgress.Since.addInner
    (h : progress.Since evm ctx reserved used f f') {res : ShareBundleCommitResult}
    (hres : res.bundleOk.Since evm ctx reserved progress.insert.cumulativeSpaceUsed f' f'')
    (order : HashOrder) (isRefundable : Bool) (id : Option OrderId) :
    (progress.addInner order isRefundable id res).Since evm ctx reserved used f f'' :=
  ⟨h.1.append hres, h.2⟩

/-- Estimates change nothing. -/
theorem promisePayouts_holds (cumulative : BlockSpace) (payouts : Payouts)
    (promised : AList fun _ : Address => ReservedPayout) (f : Fork δ) :
    (promisePayouts evm ctx cumulative payouts promised).Holds f (fun _ f' => f' = f)
      fun _ f' => f' = f := by
  induction payouts generalizing promised with
  | nil => exact .pure rfl
  | cons payout payouts ih =>
    exact .bind (estimateRefundPayoutTx_holds (fun _ _ _ => ih _) fun _ => rfl)

theorem finishShareBundle_holds (order : HashOrder) (body : List ShareBundleBody)
    (elements : AList fun _ : Nat => Nat) (balance : Nat)
    (h : progress.Since evm ctx reserved used f f') :
    (finishShareBundle evm ctx order body elements balance progress).Holds f'
      (fun res f'' => res.bundleOk = progress.insert ∧ f'' = f')
      fun _ f'' => f.Extends f'' := by
  refine .bind (.ofExcept (fun innerPayouts _ => ?_) fun _ _ => h.1.extends)
  refine .bind ((promisePayouts_holds _ _ _ f').mono ?_ ?_)
  · rintro promised f'' rfl
    exact .bind (.getState (.pure ⟨rfl, rfl⟩))
  · rintro e f'' rfl
    exact h.1.extends

mutual

/-- An inner bundle is committed as a whole or not at all. -/
theorem commitShareBundleInner_holds (order : HashOrder) (allowTxSkip : Bool) :
    (bundle : ShareBundleInner) → (spaceState : BlockBuildingSpaceState) → (f : Fork δ) →
    (commitShareBundleInner evm ctx order allowTxSkip bundle spaceState).Holds f
      (fun res f' => res.bundleOk.Since evm ctx spaceState.reservedBlockSpace spaceState.spaceUsed f
          f' ∧ res.bundleOk.delayedKickback = none ∧ ShareLanded bundle.body res.bundleOk.txInfos)
      fun _ f' => f' = f
  | .mk body refund config canSkip id, spaceState, f => by
    unfold commitShareBundleInner
    refine Fork.executeWithRollback_holds (.bind (coinbaseBalance_holds fun balance _ => ?_))
    refine .bind ((commitShareBundleBody_holds order allowTxSkip (refundableElements refund) body 0
      ⟨.nil, rfl⟩).imp ?_)
    rintro progress f' ⟨hprogress, landed, hlanded, hadds⟩
    refine (finishShareBundle_holds order body _ balance hprogress).imp ?_
    rintro res f'' ⟨hres, rfl⟩
    rw [hres]
    exact ⟨hprogress.1, hprogress.2, hadds ▸ hlanded⟩

/-- The loop over the body, whose inner bundles are committed in the same way. -/
theorem commitShareBundleBody_holds (order : HashOrder) (allowTxSkip : Bool)
    (elements : AList fun _ : Nat => Nat) {reserved used : BlockSpace} {f f' : Fork δ} :
    (body : List ShareBundleBody) → (idx : Nat) → {progress : ShareBundleProgress} →
    progress.Since evm ctx reserved used f f' →
    (commitShareBundleBody evm ctx order allowTxSkip elements reserved body idx progress).Holds f'
      (fun progress' f'' => progress'.Since evm ctx reserved used f f'' ∧
        progress.insert.AddsBody body progress'.insert)
      fun _ f'' => f.Extends f''
  | [], _, _, h => .pure ⟨h, [], .nil, (append_nil _).symm⟩
  | .tx sbundleTx :: body, idx, _, h => by
    unfold commitShareBundleBody
    refine .bind ((commitShareBundleTx_holds sbundleTx _ allowTxSkip h).imp ?_)
    rintro progress f'' ⟨hprogress, hfirst⟩
    refine (commitShareBundleBody_holds order allowTxSkip elements body (idx + 1) hprogress).imp ?_
    exact fun _ _ ⟨hrest, hadds⟩ => ⟨hrest, hfirst.trans hadds⟩
  | .bundle inner :: body, idx, progress, h => by
    unfold commitShareBundleBody
    refine .bind (.attempt ((commitShareBundleInner_holds order allowTxSkip inner
      (progress.insert.spaceState reserved) f').mono ?_ ?_))
    · rintro res f'' ⟨hres, -, hinner⟩
      refine (commitShareBundleBody_holds order allowTxSkip elements body (idx + 1)
        (h.addInner hres order ..)).imp ?_
      rintro progress' f₁ ⟨hrest, landed, hlanded, hadds⟩
      refine ⟨hrest, _, .bundleLanded hinner hlanded, ?_⟩
      rw [BundleOk.Adds, hadds]
      exact append_assoc ..
    rintro err f'' rfl
    dsimp only
    split
    · rename_i hskip
      refine (commitShareBundleBody_holds order allowTxSkip elements body (idx + 1) h).imp ?_
      rintro progress' f₁ ⟨hrest, landed, hlanded, hadds⟩
      exact ⟨hrest, landed, .bundleSkipped hskip hlanded, hadds⟩
    · exact .fail h.1.extends

end

theorem payKickbacks_holds (payouts : List (Sigma fun _ : Address => ReservedPayout))
    (insert : BundleOk) (f' : Fork δ) (h : insert.Since evm ctx reserved used f f')
    (hnone : insert.delayedKickback = none) :
    (payKickbacks evm ctx reserved payouts insert).Holds f'
      (fun ok f'' => ok.Since evm ctx reserved used f f'' ∧ ok.delayedKickback = none ∧
        insert.Pays ctx ok)
      fun _ f'' => f.Extends f'' := by
  induction payouts generalizing insert f' with
  | nil => exact .pure ⟨h, hnone, .refl⟩
  | cons payout payouts ih =>
    refine .bind ((insertRefundPayoutTx_holds payout.2 payout.1 h).imp ?_)
    rintro next f'' ⟨hnext, hk, hpays⟩
    refine (ih next f'' hnext (hk.trans hnone)).imp ?_
    exact fun ok f₁ ⟨hok, hk', hpays'⟩ => ⟨hok, hk', hpays.trans hpays'⟩

theorem commitShareBundle_holds (order : HashOrder) (bundle : ShareBundle)
    (spaceState : BlockBuildingSpaceState) (allowTxSkip : Bool) (f : Fork δ) :
    (commitShareBundle evm ctx order bundle spaceState allowTxSkip).Holds f
      (fun ok f' => ok.Since evm ctx spaceState.reservedBlockSpace spaceState.spaceUsed f f' ∧
        ok.delayedKickback = none ∧ Lands ctx (.shareBundle bundle) ok.txInfos)
      fun _ f' => f' = f := by
  unfold commitShareBundle
  split
  · exact .fail rfl
  refine Fork.executeWithRollback_holds (.bind ((commitShareBundleInner_holds order allowTxSkip
    bundle.innerBundle spaceState f).mono ?_ ?_))
  · rintro res f' ⟨hres, hnone, hlanded⟩
    have hlanded : OrderLanded (.shareBundle bundle) res.bundleOk.txInfos := hlanded
    refine (payKickbacks_holds _ res.bundleOk f' hres hnone).imp ?_
    exact fun ok f'' ⟨hran, hk, hpays⟩ => ⟨hran, hk, hlanded.lands hpays⟩
  · rintro e f' rfl
    exact .refl f'

end ShareBundle

/-! ## Orders -/

/-- What is owed for a kickback that is paid later. -/
def owedFor (kickback : Option DelayedKickback) : Nat :=
  (kickback.map fun r => r.payoutValue + r.payoutTxFee).getD 0

/-- What an order that is a system transaction takes from the coinbase. -/
def systemLoss : Order → List TransactionExecutionInfo → Nat
  | .tx tx, infos =>
    if tx.isSystem then (infos.map fun info => (-info.coinbaseProfit).toNat).sum else 0
  | _, _ => 0

/-- An order was committed: its transactions ran, what is left to be paid fits, and the
    coinbase has the profit and what is owed. -/
structure OrderDone (evm : Evm δ) (ctx : BlockBuildingContext) (spaceState : BlockBuildingSpaceState)
    (refunds : Refunds) (order : Order) (f : Fork δ) (ok : OrderOk) (f' : Fork δ) : Prop where
  ran : Ran evm ctx spaceState.reservedBlockSpace spaceState.spaceUsed f ok.txInfos ok.spaceUsed
    ok.cumulativeSpaceUsed f'
  kickback : KickbackOk ctx spaceState.reservedBlockSpace refunds ok.cumulativeSpaceUsed
    ok.delayedKickback
  balance : ∃ before after : Nat, evm.balance f.state ctx.beneficiary = .ok before ∧
    evm.balance f'.state ctx.beneficiary = .ok after ∧
    (after : Int) = before + ok.coinbaseProfit + owedFor ok.delayedKickback -
      systemLoss order ok.txInfos

section Order

variable {f f' : Fork δ} {spaceState : BlockBuildingSpaceState} {refunds : Refunds}

theorem txToOrderResult_holds {ok : TransactionOk} (htx : ok.txInfo.tx = tx)
    (hc : Committed evm ctx spaceState f.state ok.txInfo f'.state)
    (hspace : ok.cumulativeSpaceUsed = spaceState.spaceUsed + ok.spaceUsed)
    (hcount : f'.rollbacks = f.rollbacks + 1) :
    (txToOrderResult tx ok : ForkExec δ OrderErr OrderOk).Holds f'
      (fun ok f'' => OrderDone evm ctx spaceState refunds (.tx tx) f ok f'' ∧
        Lands ctx (.tx tx) ok.txInfos)
      fun _ f'' => f.Extends f'' := by
  have hran : Ran evm ctx spaceState.reservedBlockSpace spaceState.spaceUsed f [ok.txInfo]
      ok.spaceUsed ok.cumulativeSpaceUsed f' :=
    ⟨hspace ▸ .snoc .nil hc, hcount, hspace.symm⟩
  have hlands : Lands ctx (.tx tx) [ok.txInfo] :=
    ⟨_, [], rfl, ⟨_, rfl, htx⟩, fun _ hmem => (not_mem_nil hmem).elim⟩
  obtain ⟨before, after, hbefore, hafter, hprofit⟩ := hc.profit
  unfold txToOrderResult
  split
  · refine .pure ⟨⟨hran, .none, before, after, hbefore, hafter, ?_⟩, hlands⟩
    simp only [owedFor, systemLoss, Option.map_none, Option.getD_none, map_singleton, sum_singleton]
    split <;> omega
  split
  · rename_i hsystem
    refine .pure ⟨⟨hran, .none, before, after, hbefore, hafter, ?_⟩, hlands⟩
    simp only [owedFor, systemLoss, Option.map_none, Option.getD_none, map_singleton,
      sum_singleton, if_pos hsystem]
    omega
  · exact .fail hran.extends

/-- The profit of a bundle is what the coinbase gained without what is owed. -/
theorem bundleToOrderResult_holds {order : Order} {ok : BundleOk} {before : Nat}
    (horder : ∀ infos, systemLoss order infos = 0)
    (hbefore : evm.balance f.state ctx.beneficiary = .ok before)
    (hran : ok.Since evm ctx spaceState.reservedBlockSpace spaceState.spaceUsed f f')
    (hk : KickbackOk ctx spaceState.reservedBlockSpace refunds ok.cumulativeSpaceUsed
      ok.delayedKickback) (hlands : Lands ctx order ok.txInfos) :
    (bundleToOrderResult evm ctx ok before).Holds f'
      (fun ok f'' => OrderDone evm ctx spaceState refunds order f ok f'' ∧ Lands ctx order ok.txInfos)
      fun _ f'' => f.Extends f'' := by
  refine .bind (.bind (coinbaseBalance_holds fun after hafter => ?_))
  dsimp only
  split
  · rename_i hge
    refine .pure (.pure ⟨⟨hran, hk, before, after, hbefore, hafter, ?_⟩, hlands⟩)
    rw [horder]
    change before + owedFor ok.delayedKickback ≤ after at hge
    change (after : Int) = before + ((after - (before + owedFor ok.delayedKickback) : Nat) : Int) +
      owedFor ok.delayedKickback - (0 : Nat)
    omega
  · exact .fail hran.extends

/-- An order is committed as a whole or not at all. -/
theorem commitOrder_holds (hashOrder : HashOrder) (order : Order)
    (spaceState : BlockBuildingSpaceState) (allowTxSkip : Bool) (refunds : Refunds) (f : Fork δ) :
    (commitOrder evm ctx hashOrder order spaceState allowTxSkip refunds).Holds f
      (fun ok f' => OrderDone evm ctx spaceState refunds order f ok f' ∧ Lands ctx order ok.txInfos)
      fun _ f' => f' = f := by
  refine Fork.executeWithRollback_holds ?_
  cases order with
  | tx tx =>
    refine .bind (.mapErr ((commitTx_holds tx spaceState f).mono ?_ ?_))
    · rintro ok f' ⟨htx, hc, hspace, hcount⟩
      exact txToOrderResult_holds htx hc hspace hcount
    · rintro e f' rfl
      exact .refl f'
  | bundle bundle =>
    refine .bind (coinbaseBalance_holds fun before hbefore => ?_)
    refine .bind (.mapErr ((commitBundle_holds bundle spaceState allowTxSkip refunds f).mono ?_ ?_))
    · rintro ok f' ⟨hran, hk, hlands⟩
      exact bundleToOrderResult_holds (fun _ => rfl) hbefore hran hk hlands
    · rintro e f' rfl
      exact .refl f'
  | shareBundle bundle =>
    refine .bind (coinbaseBalance_holds fun before hbefore => ?_)
    refine .bind (.mapErr ((commitShareBundle_holds hashOrder bundle spaceState allowTxSkip
      f).mono ?_ ?_))
    · rintro ok f' ⟨hran, hnone, hlands⟩
      exact bundleToOrderResult_holds (fun _ => rfl) hbefore hran (hnone ▸ .none) hlands
    · rintro e f' rfl
      exact .refl f'

end Order

/-! ## Orders on a block -/

theorem onFork_holds {m : ForkExec δ E α} {b : BuildState δ}
    {Q : α → BuildState δ → Prop} {R : E → BuildState δ → Prop}
    (h : m.Holds ⟨b.blockState, 0⟩ (fun a f => Q a { b with blockState := f.state })
      fun e f => R e { b with blockState := f.state }) : (onFork m).Holds b Q R := by
  unfold Exec.Holds onFork at *
  generalize m ⟨b.blockState, 0⟩ = out at h ⊢
  obtain ⟨_ | _ | _ | _, _⟩ := out
  all_goals exact h

/-- The block takes in an order that was committed to the state. -/
def OrderAdded (evm : Evm δ) (ctx : BlockBuildingContext) (order : Order) (b : BuildState δ)
    (r : ExecutionResult) (b' : BuildState δ) : Prop :=
  r.order = order ∧ ∃ ok : OrderOk, r.txInfos = ok.txInfos ∧
    r.delayedKickback = ok.delayedKickback ∧
    b'.partialBlock = b.partialBlock.addOrder ok ∧
    ∃ n, OrderDone evm ctx b.partialBlock.spaceState b.partialBlock.combinedRefunds order
      ⟨b.blockState, 0⟩ ok ⟨b'.blockState, n⟩

/-- What the filter rejects is rolled back. -/
theorem tryOrder_holds (hashOrder : HashOrder) (order : Order)
    (resultFilter : SimValue → Except ExecutionError Unit) (block : PartialBlock) (f : Fork δ) :
    (tryOrder evm ctx hashOrder order resultFilter block).Holds f
      (fun out f' => OrderDone evm ctx block.spaceState block.combinedRefunds order f out.1 f' ∧
        Lands ctx order out.1.txInfos)
      fun _ f' => f' = f := by
  refine .bind (?_ : Exec.Holds Fork.rollbackPoint f ..)
  refine .bind (.mapErr ((commitOrder_holds hashOrder order block.spaceState block.discardTxs
    block.combinedRefunds f).imp ?_))
  intro ok f' hdone
  dsimp only
  split
  · exact .pure hdone
  · exact .bind (Fork.rollback_holds hdone.1.ran.extends (.fail rfl))

/-- `PartialBlock::commit_order` adds the order or changes nothing. -/
theorem PartialBlock.commitOrder_holds (hashOrder : HashOrder) (order : Order)
    (resultFilter : SimValue → Except ExecutionError Unit) (b : BuildState δ) :
    (PartialBlock.commitOrder evm ctx hashOrder order resultFilter).Holds b
      (fun r b' => OrderAdded evm ctx order b r b' ∧ Lands ctx order r.txInfos)
      fun _ b' => b' = b := by
  refine .bind (.getState (.bind (onFork_holds ((tryOrder_holds hashOrder order resultFilter
    b.partialBlock ⟨b.blockState, 0⟩).mono ?_ ?_))))
  · rintro ⟨ok, sim⟩ f' ⟨hdone, hlands⟩
    exact ⟨⟨rfl, ok, rfl, rfl, rfl, f'.rollbacks, hdone⟩, hlands⟩
  · rintro e f' rfl
    rfl

end Building
