/-
  Constraint transactions: their profit and their gas.

  The loop over the constraint transactions tries those that are not in the block. What it
  tries and where is `Tried`. `unsigned_abs` counts a transaction that takes from the
  coinbase as one that gives to it, so the profit of the block is sound exactly if no
  executed constraint transaction lowers the balance of the coinbase. The gas reserved for
  the constraints is taken from what every transaction is checked against, the constraint
  transactions included; they lack gas unless the orders leave it a second time.
-/
import Rbuilder.Building.Profit

namespace Building

open SparseMpt Rollback BlockBuildingHelper List

variable {δ η : Type} {evm : Evm δ} {ctx : BlockBuildingContext} {raw : ConstraintEnv}

namespace BlockBuildingHelper

variable {helper helper' reached next : BlockBuildingHelper δ} {executed : List B256}
  {raws : List Bytes}

/-- The loop over `raws` comes to `tx`, which is not in the block, with the helper `reached`. -/
def TriedOf (evm : Evm δ) (ctx : BlockBuildingContext) (raw : ConstraintEnv) (executed : List B256)
    (helper : BlockBuildingHelper δ) (raws : List Bytes) (reached : BlockBuildingHelper δ) (tx : Tx) :
    Prop :=
  ∃ done rawTx rest, raws = done ++ rawTx :: rest ∧
    appendConstraintTxs evm ctx raw executed done helper = (.ok (), reached) ∧
    raw.decode rawTx = .ok tx ∧ tx.hash ∉ executed

/-- `insert_constraint_transactions` tries `tx` with the helper `reached`. -/
def Tried (evm : Evm δ) (ctx : BlockBuildingContext) (raw : ConstraintEnv)
    (helper reached : BlockBuildingHelper δ) (tx : Tx) : Prop :=
  TriedOf evm ctx raw helper.executedHashes helper ctx.constraints.flatten reached tx

section Tried

variable {rawTx : Bytes} {tx : Tx} {P : BlockBuildingHelper δ → Tx → Prop}

theorem not_triedOf_nil : ¬ TriedOf evm ctx raw executed helper [] reached tx := by
  rintro ⟨done, rawTx, rest, happ, -⟩
  simp at happ

/-- What is tried of a list: its head, if that is not in the block, and what the loop tries
    after it. -/
theorem forall_triedOf_cons (hdecode : raw.decode rawTx = .ok tx)
    (hnext : appendConstraintTxs evm ctx raw executed [rawTx] helper = (.ok (), next)) :
    (∀ reached tx, TriedOf evm ctx raw executed helper (rawTx :: raws) reached tx → P reached tx) ↔
      (tx.hash ∉ executed → P helper tx) ∧
        ∀ reached tx, TriedOf evm ctx raw executed next raws reached tx → P reached tx := by
  have hstep : ∀ done reached,
      appendConstraintTxs evm ctx raw executed (rawTx :: done) helper = (.ok (), reached) ↔
        appendConstraintTxs evm ctx raw executed done next = (.ok (), reached) := by
    intro done reached
    rw [← singleton_append, appendConstraintTxs_append, hnext]
    simp
  constructor
  · intro h
    refine ⟨fun hmem => h helper tx ⟨[], rawTx, raws, rfl, rfl, hdecode, hmem⟩, ?_⟩
    rintro reached tx' ⟨done, rawTx', rest, rfl, hdone, hdecode', hmem⟩
    exact h reached tx' ⟨rawTx :: done, rawTx', rest, rfl, (hstep ..).mpr hdone, hdecode', hmem⟩
  rintro ⟨hhead, htail⟩ reached tx' ⟨done, rawTx', rest, happ, hdone, hdecode', hmem⟩
  cases done with
  | nil =>
    obtain ⟨rfl, rfl⟩ := cons.inj happ
    cases hdecode.symm.trans hdecode'
    obtain ⟨-, rfl⟩ := Exec.pure_eq_ok.mp hdone
    exact hhead hmem
  | cons head done =>
    obtain ⟨rfl, rfl⟩ := cons.inj happ
    exact htail reached tx' ⟨done, rawTx', rest, rfl, (hstep ..).mp hdone, hdecode', hmem⟩

end Tried

/-! ## Profit -/

end BlockBuildingHelper

/-- Executing `tx` on `s` takes something from the coinbase. -/
def LowersCoinbase (evm : Evm δ) (ctx : BlockBuildingContext) (s : BlockState δ) (tx : Tx) : Prop :=
  ∃ res before after, evm.transact s tx = .ok res ∧ evm.balance s ctx.beneficiary = .ok before ∧
    evm.balance (s.push res.state) ctx.beneficiary = .ok after ∧ after < before

theorem Committed.lowersCoinbase_iff {spaceState : BlockBuildingSpaceState} {s s' : BlockState δ}
    {info : TransactionExecutionInfo} (h : Committed evm ctx spaceState s info s') :
    LowersCoinbase evm ctx s info.tx ↔ info.coinbaseProfit < 0 := by
  obtain ⟨res, hres, rfl, -⟩ := h.executed
  obtain ⟨before, after, hbefore, hafter, hprofit⟩ := h.profit
  constructor
  · rintro ⟨res', before', after', hres', hbefore', hafter', hlt⟩
    cases hres.symm.trans hres'
    cases hbefore.symm.trans hbefore'
    cases hafter.symm.trans hafter'
    omega
  · intro hneg
    exact ⟨res, before, after, hres, hbefore, hafter, by omega⟩

namespace BlockBuildingHelper

section Profit

variable {helper helper' : BlockBuildingHelper δ} {executed : List B256} {raws : List Bytes}

/-- Where `tx` is executed, it takes nothing from the coinbase. -/
def KeepsCoinbaseAt (evm : Evm δ) (ctx : BlockBuildingContext) (reached : BlockBuildingHelper δ)
    (tx : Tx) : Prop :=
  ∀ ok f, reached.tryTx evm ctx tx = (.ok ok, f) → ¬ LowersCoinbase evm ctx reached.build.blockState tx

/-- No constraint transaction that is executed takes anything from the coinbase. -/
def KeepsCoinbase (evm : Evm δ) (ctx : BlockBuildingContext) (raw : ConstraintEnv)
    (helper : BlockBuildingHelper δ) : Prop :=
  ∀ reached tx, Tried evm ctx raw helper reached tx → KeepsCoinbaseAt evm ctx reached tx

variable {tx : Tx} {f : Fork δ} {before : Nat}

/-- An executed transaction counts twice what it takes from the coinbase as profit. -/
theorem withConstraintTx_profit {ok : TransactionOk} (htry : helper.tryTx evm ctx tx = (.ok ok, f))
    (hbefore : evm.balance helper.build.blockState ctx.beneficiary = .ok before) :
    ∃ now surplus : Nat, evm.balance f.state ctx.beneficiary = .ok now ∧
      (helper.withConstraintTx ok f.state).build.partialBlock.coinbaseProfit + before =
        helper.build.partialBlock.coinbaseProfit + now + surplus ∧
      (surplus = 0 ↔ KeepsCoinbaseAt evm ctx helper tx) := by
  obtain ⟨rfl, hc, -⟩ := (commitTx_holds ..).of_ok htry
  obtain ⟨before', now, hbefore', hnow, hprofit⟩ := hc.profit
  cases hbefore.symm.trans hbefore'
  have hlowers := hc.lowersCoinbase_iff
  refine ⟨now, 2 * (before - now), hnow, ?_, ?_⟩
  · change helper.build.partialBlock.coinbaseProfit + ok.txInfo.coinbaseProfit.natAbs + before = _
    omega
  constructor
  · intro hzero ok' f' _ hlow
    have hneg := hlowers.mp hlow
    omega
  · intro hkeeps
    have hpos := mt hlowers.mpr (hkeeps ok f htry)
    omega

/-- What the loop adds to the profit, beyond what the coinbase gains. -/
theorem ConstraintRun.profit (h : ConstraintRun evm ctx raw executed helper raws helper')
    (hbefore : evm.balance helper.build.blockState ctx.beneficiary = .ok before) :
    ∃ now surplus : Nat, evm.balance helper'.build.blockState ctx.beneficiary = .ok now ∧
      helper'.build.partialBlock.coinbaseProfit + before =
        helper.build.partialBlock.coinbaseProfit + now + surplus ∧
      (surplus = 0 ↔ ∀ reached tx, TriedOf evm ctx raw executed helper raws reached tx →
        KeepsCoinbaseAt evm ctx reached tx) := by
  induction h generalizing before with
  | nil =>
    refine ⟨before, 0, hbefore, rfl, ?_⟩
    simp [not_triedOf_nil]
  | skipped hdecode hmem _ ih =>
    obtain ⟨now, surplus, hnow, hprofit, hiff⟩ := ih hbefore
    refine ⟨now, surplus, hnow, hprofit, ?_⟩
    rw [forall_triedOf_cons hdecode (appendConstraintTxs_eq_ok.mpr (.skipped hdecode hmem .nil)),
      hiff]
    exact ⟨fun htail => ⟨fun hnot => (hnot hmem).elim, htail⟩, And.right⟩
  | rejected hdecode hmem htry _ ih =>
    obtain ⟨now, surplus, hnow, hprofit, hiff⟩ := ih hbefore
    refine ⟨now, surplus, hnow, hprofit, ?_⟩
    rw [forall_triedOf_cons hdecode
      (appendConstraintTxs_eq_ok.mpr (.rejected hdecode hmem htry .nil)), hiff]
    refine ⟨fun htail => ⟨fun _ ok f' htry' => ?_, htail⟩, And.right⟩
    cases htry.symm.trans htry'
  | appended hdecode hmem htry _ ih =>
    obtain ⟨mid, first, hmid, hfirst, hiff⟩ := withConstraintTx_profit htry hbefore
    obtain ⟨now, second, hnow, hsecond, hiff'⟩ := ih hmid
    refine ⟨now, first + second, hnow, by omega, ?_⟩
    rw [forall_triedOf_cons hdecode
      (appendConstraintTxs_eq_ok.mpr (.appended hdecode hmem htry .nil)), ← hiff', Nat.add_eq_zero_iff,
      hiff]
    exact ⟨fun h => ⟨fun _ => h.1, h.2⟩, fun h => ⟨h.1 hmem, h.2⟩⟩

/-- What is owed stays as it was. -/
theorem ConstraintRun.owed (h : ConstraintRun evm ctx raw executed helper raws helper') :
    helper'.build.partialBlock.combinedRefunds = helper.build.partialBlock.combinedRefunds ∧
      helper'.build.partialBlock.delayedRefund = helper.build.partialBlock.delayedRefund := by
  induction h with
  | nil => exact ⟨rfl, rfl⟩
  | skipped _ _ _ ih | rejected _ _ _ _ ih | appended _ _ _ _ ih => exact ih

end Profit

end BlockBuildingHelper

/-- The profit of the block is at most what the coinbase gained from `before` to `now`, without
    what is owed for refunds and their fees, and with what system transactions took. -/
def ProfitSound (before now fees losses : Nat) (block : PartialBlock) : Prop :=
  (block.coinbaseProfit : Int) ≤ now - before -
    (totalOf block.combinedRefunds.entries + fees + block.delayedRefund : Nat) + losses

instance (before now fees losses : Nat) (block : PartialBlock) :
    Decidable (ProfitSound before now fees losses block) :=
  inferInstanceAs (Decidable (_ ≤ _))

section

variable {env : SealEnv δ η} {start helper helper' : BlockBuildingHelper δ} {before : Nat}

/-- After every run of orders, inserting the constraint transactions keeps the profit sound
    exactly if none of those that are executed takes anything from the coinbase; then the
    true block value is what the builder can pay. -/
theorem constraints_keep_profit_iff {health : Except HistoricalBlockError Unit} {discardTxs : Bool}
    {rs : List ExecutionResult}
    (hnew : BlockBuildingHelper.new evm ctx env health discardTxs = .ok start)
    (hrun : OrderRun evm ctx start rs helper)
    (hbefore : evm.balance start.build.blockState ctx.beneficiary = .ok before)
    (hinsert : insertConstraintTransactions evm ctx raw helper =
      (.ok (), helper')) :
    ∃ now, evm.balance helper'.build.blockState ctx.beneficiary = .ok now ∧
      (ProfitSound before now (kickbackFees rs) (systemLosses rs) helper'.build.partialBlock ↔
        helper.KeepsCoinbase evm ctx raw) ∧
      (helper.KeepsCoinbase evm ctx raw → ∀ trueValue, helper'.trueBlockValue ctx = .ok trueValue →
        (trueValue + ctx.mevBlockerPrice + ctx.basefee.toNat * helper'.payoutTxGas.toNat : Int) ≤
          now - before - (totalOf helper'.build.partialBlock.combinedRefunds.entries +
            kickbackFees rs + helper'.build.partialBlock.delayedRefund : Nat) + systemLosses rs) := by
  obtain ⟨payout, hisNew⟩ := new_spec hnew
  obtain ⟨mid, hmid, hbalance⟩ := hrun.commitRun.1.accounted.balance before hbefore
  rw [hisNew.block] at hbalance
  change mid + 0 + systemLosses rs = _ at hbalance
  have hloop := insertConstraintTransactions_ok hinsert
  obtain ⟨now, surplus, hnow, hprofit, hiff⟩ := hloop.profit hmid
  obtain ⟨hrefunds, hdelayed⟩ := hloop.owed
  have hsound : ProfitSound before now (kickbackFees rs) (systemLosses rs)
      helper'.build.partialBlock ↔ surplus = 0 := by
    simp only [PartialBlock.gained] at hbalance
    rw [ProfitSound, hrefunds, hdelayed]
    omega
  refine ⟨now, hnow, hsound.trans hiff, fun hkeeps trueValue htrue => ?_⟩
  have hle := hsound.mpr (hiff.mpr hkeeps)
  have hvalue := trueBlockValue_eq_ok htrue
  rw [ProfitSound] at hle
  omega

end

/-! ## Gas -/

def addConstraintGas (raw : ConstraintEnv) (total : UInt64) (rawTx : Bytes) : UInt64 :=
  match raw.decode rawTx with
  | .ok tx => total + tx.spaceNeeded.gas
  | .error _ => total

def calculateConstraintGasReservation (raw : ConstraintEnv) (constraints : List (List Bytes)) :
    UInt64 :=
  constraints.foldl (fun total rawTxs => rawTxs.foldl (addConstraintGas raw) total) 0

/-- The gas limits of the transactions that can be decoded. -/
def decodableGas (raw : ConstraintEnv) (raws : List Bytes) : Nat :=
  (raws.map fun rawTx => ((raw.decode rawTx).toOption.map (·.gasLimit.toNat)).getD 0).sum

section Gas

variable {raws : List Bytes} {rawTx : Bytes} {tx : Tx}

theorem decodableGas_cons (h : raw.decode rawTx = .ok tx) :
    decodableGas raw (rawTx :: raws) = tx.gasLimit.toNat + decodableGas raw raws := by
  simp [decodableGas, h, Except.toOption]

theorem toNat_foldl_addConstraintGas (raws : List Bytes) (total : UInt64) :
    (raws.foldl (addConstraintGas raw) total).toNat =
      (total.toNat + decodableGas raw raws) % 2 ^ 64 := by
  induction raws generalizing total with
  | nil => exact (Nat.mod_eq_of_lt total.toNat_lt).symm
  | cons rawTx raws ih =>
    rw [foldl_cons, ih, addConstraintGas]
    cases hdecode : raw.decode rawTx with
    | ok tx =>
      have hsum : (total + tx.spaceNeeded.gas).toNat =
          (total.toNat + tx.gasLimit.toNat) % 2 ^ 64 := UInt64.toNat_add ..
      rw [hsum, decodableGas_cons hdecode, Nat.mod_add_mod, Nat.add_assoc]
    | error e => simp [decodableGas, hdecode, Except.toOption]

/-- The reservation is the sum of the gas limits, as a machine word. -/
theorem toNat_calculateConstraintGasReservation (raw : ConstraintEnv)
    (constraints : List (List Bytes)) :
    (calculateConstraintGasReservation raw constraints).toNat =
      decodableGas raw constraints.flatten % 2 ^ 64 := by
  have hfold : calculateConstraintGasReservation raw constraints =
      constraints.flatten.foldl (addConstraintGas raw) 0 := foldl_flatten.symm
  rw [hfold, toNat_foldl_addConstraintGas, UInt64.toNat_zero, Nat.zero_add]

theorem toNat_gasAvailable (next : NextBlock) (signer : Signer) (blocklist : List Address)
    (fasterFinalize : Bool) (mevBlockerPrice : Nat) (constraints : List (List Bytes)) :
    (BlockBuildingContext.fromAttributes next signer blocklist fasterFinalize mevBlockerPrice
      constraints (calculateConstraintGasReservation raw constraints)).gasAvailable.toNat =
        next.gasLimit.toNat - decodableGas raw constraints.flatten % 2 ^ 64 := by
  change (UInt64.ofNat (next.gasLimit.toNat - _)).toNat = _
  rw [toNat_calculateConstraintGasReservation, UInt64.toNat_ofNat_of_lt'
    (Nat.lt_of_le_of_lt (Nat.sub_le ..) next.gasLimit.toNat_lt)]

/-- The gas left to the building algorithms is what the gas limits of the constraint
    transactions leave exactly if their sum is a machine word, or wraps to one that takes the
    whole block. -/
theorem constraint_gas_reserved_iff (raw : ConstraintEnv) (next : NextBlock) (signer : Signer)
    (blocklist : List Address) (fasterFinalize : Bool) (mevBlockerPrice : Nat)
    (constraints : List (List Bytes)) :
    (BlockBuildingContext.fromAttributes next signer blocklist fasterFinalize mevBlockerPrice
        constraints (calculateConstraintGasReservation raw constraints)).gasAvailable.toNat =
      next.gasLimit.toNat - min next.gasLimit.toNat (decodableGas raw constraints.flatten) ↔
    decodableGas raw constraints.flatten < 2 ^ 64 ∨
      next.gasLimit.toNat ≤ decodableGas raw constraints.flatten % 2 ^ 64 := by
  rw [toNat_gasAvailable]
  omega

variable {reached helper helper' : BlockBuildingHelper δ}

/-- A transaction lacks gas exactly if it passes the check of its length and not that of
    its gas. -/
theorem BlockBuildingHelper.tryTx_gasLeft_iff :
    (∃ f, reached.tryTx evm ctx tx = (.err .gasLeft, f)) ↔
      tx.length + reached.build.partialBlock.spaceState.totalConsumedSpace.rlpLength ≤
          maxRlpBlockSize ∧
        ctx.gasAvailable <
          tx.gasLimit + reached.build.partialBlock.spaceState.totalConsumedSpace.gas := by
  have hcan : canFitTx ctx tx.spaceNeeded tx.blobsGasUsed reached.build.partialBlock.spaceState =
      .error .gasLeft ↔
      tx.length + reached.build.partialBlock.spaceState.totalConsumedSpace.rlpLength ≤
          maxRlpBlockSize ∧
        ctx.gasAvailable <
          tx.gasLimit + reached.build.partialBlock.spaceState.totalConsumedSpace.gas := by
    change (if maxRlpBlockSize < tx.length + _ then _ else
      if ctx.gasAvailable < tx.gasLimit + _ then _ else _) = _ ↔ _
    split
    · exact ⟨fun h => (by cases h), fun h => by omega⟩
    split
    · rename_i hgas
      exact ⟨fun _ => ⟨by omega, hgas⟩, fun _ => rfl⟩
    · rename_i hgas
      refine ⟨fun h => ?_, fun h => (hgas h.2).elim⟩
      split at h <;> cases h
  rw [← hcan]
  constructor
  · rintro ⟨f, htry⟩
    obtain hfit | hblocked | ⟨err, herr⟩ := (commitTx_rejected ..).of_err htry
    · exact hfit
    · cases hblocked
    · cases herr
  intro hfit
  have hcheck : (Exec.ofExcept (canFitTx ctx tx.spaceNeeded tx.blobsGasUsed
      reached.build.partialBlock.spaceState) : ForkExec δ TransactionErr Unit)
      ⟨reached.build.blockState, 0⟩ = (.err .gasLeft, ⟨reached.build.blockState, 0⟩) :=
    Exec.ofExcept_eq_err.mpr ⟨hfit, rfl⟩
  exact ⟨_, Exec.bind_eq_err.mpr (.inl hcheck)⟩

/-- The constraint transactions that are not in the block yet. -/
def pendingTxs (raw : ConstraintEnv) (executed : List B256) (raws : List Bytes) : List Tx :=
  raws.filterMap fun rawTx => (raw.decode rawTx).toOption.filter fun tx => !executed.contains tx.hash

def pendingGas (raw : ConstraintEnv) (executed : List B256) (raws : List Bytes) : Nat :=
  ((pendingTxs raw executed raws).map fun tx => tx.gasLimit.toNat).sum

variable {executed : List B256}

theorem pendingGas_append (raws raws' : List Bytes) :
    pendingGas raw executed (raws ++ raws') =
      pendingGas raw executed raws + pendingGas raw executed raws' := by
  simp [pendingGas, pendingTxs]

theorem pendingGas_cons (h : raw.decode rawTx = .ok tx) :
    pendingGas raw executed (rawTx :: raws) =
      (if tx.hash ∈ executed then 0 else tx.gasLimit.toNat) + pendingGas raw executed raws := by
  unfold pendingGas pendingTxs
  rw [filterMap_cons, h]
  split_ifs with hmem
  · simp [Except.toOption, Option.filter, hmem]
  · simp [Except.toOption, Option.filter, hmem]

/-- Beside the gas that is used and reserved for payouts, the block has room for the constraint
    transactions that are not in it yet and once more for all of them: what every transaction is
    checked against is less than the gas limit by `reserved`. -/
def BlockBuildingHelper.HasGasFor (helper : BlockBuildingHelper δ) (raw : ConstraintEnv)
    (raws : List Bytes) (gasLimit : UInt64) (reserved : Nat) : Prop :=
  helper.build.partialBlock.spaceState.spaceUsed.gas.toNat +
    helper.build.partialBlock.spaceState.reservedBlockSpace.gas.toNat +
      pendingGas raw helper.executedHashes raws + reserved ≤ gasLimit.toNat

instance (helper : BlockBuildingHelper δ) (raws : List Bytes) (gasLimit : UInt64) (reserved : Nat) :
    Decidable (helper.HasGasFor raw raws gasLimit reserved) :=
  inferInstanceAs (Decidable (_ ≤ _))

/-- The loop uses at most the gas limits of the transactions it tries. -/
theorem BlockBuildingHelper.ConstraintRun.gas
    (hused : ∀ s tx res, evm.transact s tx = .ok res → res.result.gasUsed ≤ tx.gasLimit)
    (h : ConstraintRun evm ctx raw executed helper raws helper')
    (hlt : helper.build.partialBlock.spaceState.spaceUsed.gas.toNat + pendingGas raw executed raws <
      2 ^ 64) :
    helper'.build.partialBlock.spaceState.reservedBlockSpace =
        helper.build.partialBlock.spaceState.reservedBlockSpace ∧
      helper'.build.partialBlock.spaceState.spaceUsed.gas.toNat ≤
        helper.build.partialBlock.spaceState.spaceUsed.gas.toNat + pendingGas raw executed raws := by
  induction h with
  | nil => exact ⟨rfl, Nat.le_add_right ..⟩
  | skipped hdecode hmem _ ih =>
    rw [pendingGas_cons hdecode, if_pos hmem, Nat.zero_add] at hlt ⊢
    exact ih hlt
  | rejected hdecode hmem _ _ ih =>
    rw [pendingGas_cons hdecode, if_neg hmem] at hlt ⊢
    obtain ⟨hreserved, hle⟩ := ih (by omega)
    exact ⟨hreserved, by omega⟩
  | @appended helper _ _ _ _ ok f hdecode hmem htry _ ih =>
    rw [pendingGas_cons hdecode, if_neg hmem] at hlt ⊢
    obtain ⟨rfl, hc, -⟩ := (commitTx_holds ..).of_ok htry
    obtain ⟨res, hres, -, -, hspace⟩ := hc.executed
    have hgas := UInt64.le_iff_toNat_le.mp (hused _ _ _ hres)
    have hnext : (helper.withConstraintTx ok f.state).build.partialBlock.spaceState.spaceUsed.gas.toNat
        ≤ helper.build.partialBlock.spaceState.spaceUsed.gas.toNat + ok.txInfo.tx.gasLimit.toNat := by
      change (helper.build.partialBlock.spaceState.spaceUsed.gas + ok.txInfo.spaceUsed.gas).toNat ≤ _
      rw [hspace, UInt64.toNat_add]
      change (_ + res.result.gasUsed.toNat) % _ ≤ _
      omega
    obtain ⟨hreserved, hle⟩ := ih (by omega)
    exact ⟨hreserved, by omega⟩

/-- The loop passes over transactions that are in the block. -/
theorem BlockBuildingHelper.constraintRun_of_executed
    (h : ∀ rawTx ∈ raws, ∃ tx, raw.decode rawTx = .ok tx ∧ tx.hash ∈ executed) :
    ConstraintRun evm ctx raw executed helper raws helper := by
  induction raws with
  | nil => exact .nil
  | cons rawTx raws ih =>
    obtain ⟨tx, hdecode, hmem⟩ := h rawTx mem_cons_self
    exact .skipped hdecode hmem (ih fun rawTx hraw => h rawTx (mem_cons_of_mem _ hraw))

/-- With a context from payload attributes, whatever orders the helper was given: if there is
    room for the constraint transactions, none that is tried lacks gas; and where one of them is
    not in the block yet, it has its gas only then, if its length fits. -/
theorem constraints_have_gas_of_room (evm : Evm δ) {next : NextBlock} (signer : Signer)
    (blocklist : List Address) (fasterFinalize : Bool) (mevBlockerPrice : Nat)
    {constraints : List (List Bytes)}
    (hsum : decodableGas raw constraints.flatten ≤ next.gasLimit.toNat)
    (hctx : ctx = .fromAttributes next signer blocklist fasterFinalize mevBlockerPrice constraints
      (calculateConstraintGasReservation raw constraints))
    (hused : ∀ s tx res, evm.transact s tx = .ok res → res.result.gasUsed ≤ tx.gasLimit)
    (helper : BlockBuildingHelper δ) :
    let room := helper.HasGasFor raw constraints.flatten next.gasLimit
      (decodableGas raw constraints.flatten)
    let haveGas := ∀ reached tx, helper.Tried evm ctx raw reached tx →
      ∀ f, reached.tryTx evm ctx tx ≠ (.err .gasLeft, f)
    (room → haveGas) ∧
    ∀ tx, pendingTxs raw helper.executedHashes constraints.flatten = [tx] →
      (∀ rawTx ∈ constraints.flatten, (raw.decode rawTx).isOk) →
      tx.length + helper.build.partialBlock.spaceState.totalConsumedSpace.rlpLength ≤
        maxRlpBlockSize →
      helper.build.partialBlock.spaceState.spaceUsed.gas.toNat +
        helper.build.partialBlock.spaceState.reservedBlockSpace.gas.toNat + tx.gasLimit.toNat < 2 ^ 64 →
      (haveGas ↔ room) := by
  intro room haveGas
  have hlt := next.gasLimit.toNat_lt
  have havailable : ctx.gasAvailable.toNat + decodableGas raw constraints.flatten =
      next.gasLimit.toNat := by
    rw [hctx, toNat_gasAvailable]
    omega
  have hroom : room → haveGas := by
    rintro hroom reached tx ⟨done, rawTx, rest, hsplit, hdone, hdecode, hmem⟩ f htry
    have hraws : constraints.flatten = done ++ rawTx :: rest := by rw [← hsplit, hctx]; rfl
    have hpending : pendingGas raw helper.executedHashes constraints.flatten =
        pendingGas raw helper.executedHashes done +
          (tx.gasLimit.toNat + pendingGas raw helper.executedHashes rest) := by
      rw [hraws, pendingGas_append, pendingGas_cons hdecode, if_neg hmem]
    simp only [room, HasGasFor, hpending] at hroom
    obtain ⟨hreserved, hle⟩ :=
      (appendConstraintTxs_eq_ok.mp hdone).gas hused (by omega)
    obtain ⟨-, hlacks⟩ := tryTx_gasLeft_iff.mp ⟨f, htry⟩
    change _ < tx.gasLimit + (reached.build.partialBlock.spaceState.spaceUsed.gas +
      reached.build.partialBlock.spaceState.reservedBlockSpace.gas) at hlacks
    rw [UInt64.lt_iff_toNat_lt, UInt64.toNat_add, UInt64.toNat_add, hreserved] at hlacks
    omega
  refine ⟨hroom, fun tx hone hdecodes hlength hword => ⟨fun hall => ?_, hroom⟩⟩
  obtain ⟨done, rawTx, rest, hsplit, hdone, hhead, -⟩ := filterMap_eq_cons_iff.mp hone
  obtain ⟨htx, hmem⟩ := Option.filter_eq_some_iff.mp hhead
  have hexecuted : ∀ rawTx ∈ done, ∃ tx, raw.decode rawTx = .ok tx ∧
      tx.hash ∈ helper.executedHashes := by
    intro rawTx hraw
    have hnone := hdone rawTx hraw
    have hok := hdecodes rawTx (by rw [hsplit]; exact mem_append_left _ hraw)
    cases hdecode : raw.decode rawTx with
    | error e => simp [hdecode, Except.isOk, Except.toBool] at hok
    | ok tx => exact ⟨tx, rfl, by simpa [hdecode, Except.toOption, Option.filter] using hnone⟩
  have htried : helper.Tried evm ctx raw helper tx := by
    refine ⟨done, rawTx, rest, by rw [← hsplit, hctx]; rfl, ?_, ?_, by simpa using hmem⟩
    · exact appendConstraintTxs_eq_ok.mpr
        (constraintRun_of_executed hexecuted)
    · cases hdecode : raw.decode rawTx with
      | error e => simp [hdecode, Except.toOption] at htx
      | ok tx' => simpa [hdecode, Except.toOption] using htx
  have hgas := mt tryTx_gasLeft_iff.mpr (not_exists.mpr (hall helper tx htried))
  have hfits := UInt64.le_iff_toNat_le.mp (UInt64.not_lt.mp (not_and.mp hgas hlength))
  change (tx.gasLimit + (helper.build.partialBlock.spaceState.spaceUsed.gas +
    helper.build.partialBlock.spaceState.reservedBlockSpace.gas)).toNat ≤ _ at hfits
  rw [UInt64.toNat_add, UInt64.toNat_add] at hfits
  have hpending : pendingGas raw helper.executedHashes constraints.flatten = tx.gasLimit.toNat := by
    rw [pendingGas, hone]
    rfl
  simp only [room, HasGasFor, hpending]
  omega

end Gas

/-! ### Examples -/

/-- A payment of the builder, without a tip. -/
def builderTx : Tx :=
  { userTx 0 shop 500000 with signer := builder, maxFeePerGas := 10, maxPriorityFeePerGas := 0 }

def insertExample (tx : Tx) : HelperExec Accounts Unit :=
  insertConstraintTransactions exampleEvm constrainedCtx (singleRaw tx)

/-- The profit of a user's transaction is its tip. -/
theorem constraints_keep_profit_iff_user :
    ∃ start, BlockBuildingHelper.new exampleEvm constrainedCtx exampleEnv (.ok ()) true = .ok start ∧
      (insertExample (userTx 0 shop 5) start).2.build.partialBlock.coinbaseProfit = 42000 ∧
      start.KeepsCoinbase exampleEvm constrainedCtx (singleRaw (userTx 0 shop 5)) := by
  obtain ⟨start, hnew, hinserted, hbefore, hprofit, hnow, hsound⟩ : ∃ start,
      BlockBuildingHelper.new exampleEvm constrainedCtx exampleEnv (.ok ()) true = .ok start ∧
        (insertExample (userTx 0 shop 5) start).1.isOk = true ∧
        exampleEvm.balance start.build.blockState builder = .ok 1000000000 ∧
        (insertExample (userTx 0 shop 5) start).2.build.partialBlock.coinbaseProfit = 42000 ∧
        exampleEvm.balance (insertExample (userTx 0 shop 5) start).2.build.blockState builder =
          .ok 1000042000 ∧
        ProfitSound 1000000000 1000042000 0 0
          (insertExample (userTx 0 shop 5) start).2.build.partialBlock :=
    ⟨_, rfl, by decide +kernel, by decide +kernel, by decide +kernel, by decide +kernel,
      by decide +kernel⟩
  obtain ⟨u, hinsert⟩ := Outcome.exists_of_isOk hinserted
  obtain ⟨now, hnow', hiff, -⟩ := constraints_keep_profit_iff hnew .nil hbefore hinsert
  cases hnow.symm.trans hnow'
  exact ⟨start, hnew, hprofit, hiff.mp hsound⟩

/-- The builder's own payment of 500000 and its fee of 210000 count as profit. -/
theorem constraint_loss_counts_as_profit :
    ∃ start helper', BlockBuildingHelper.new exampleEvm constrainedCtx exampleEnv (.ok ()) true =
        .ok start ∧
      OrderRun exampleEvm constrainedCtx start [] start ∧
      insertExample builderTx start = (.ok (), helper') ∧
      exampleEvm.balance start.build.blockState builder = .ok 1000000000 ∧
      exampleEvm.balance helper'.build.blockState builder = .ok 999290000 ∧
      helper'.build.partialBlock.coinbaseProfit = 710000 ∧
      ¬ ProfitSound 1000000000 999290000 (kickbackFees []) (systemLosses [])
        helper'.build.partialBlock := by
  obtain ⟨start, hnew, hinserted, hrest⟩ : ∃ start,
      BlockBuildingHelper.new exampleEvm constrainedCtx exampleEnv (.ok ()) true = .ok start ∧
        (insertExample builderTx start).1.isOk = true ∧
        exampleEvm.balance start.build.blockState builder = .ok 1000000000 ∧
        exampleEvm.balance (insertExample builderTx start).2.build.blockState builder =
          .ok 999290000 ∧
        (insertExample builderTx start).2.build.partialBlock.coinbaseProfit = 710000 ∧
        ¬ ProfitSound 1000000000 999290000 (kickbackFees []) (systemLosses [])
          (insertExample builderTx start).2.build.partialBlock :=
    ⟨_, rfl, by decide +kernel, by decide +kernel, by decide +kernel, by decide +kernel,
      by decide +kernel⟩
  obtain ⟨u, hinsert⟩ := Outcome.exists_of_isOk hinserted
  exact ⟨start, _, hnew, .nil, hinsert, hrest⟩

/-- A block with the gas limit `gasLimit`. -/
def exampleNext (gasLimit : UInt64) : NextBlock where
  basefee := 10
  gasLimit := gasLimit
  txGasLimitCap := none
  chainId := 1
  maxBlobGasPerBlock := 1179648
  blockNumber := 7
  timestamp := 84
  suggestedFeeRecipient := proposer
  withdrawals := []
  withdrawalsLength := 1
  isShanghai := true
  isCancun := true
  isPrague := false
  isOsaka := false
  excessBlobGas := some 0

/-- A context from payload attributes, with gas reserved for the constraint transaction of the
    user. -/
def reservingCtx (gasLimit : UInt64) : BlockBuildingContext :=
  .fromAttributes (exampleNext gasLimit) exampleSigner [] false 0 [[[1]]]
    (calculateConstraintGasReservation (singleRaw (userTx 1 shop 5)) [[[1]]])

def reservingEvm (gasLimit : UInt64) : Evm Accounts :=
  transferEvm (reservingCtx gasLimit) exampleAccounts

/-- Two constraint transactions that take half a machine word of gas each reserve nothing. -/
theorem constraint_gas_wraps :
    let raw := singleRaw { userTx 1 shop 5 with gasLimit := 0x8000000000000000 }
    decodableGas raw [[1], [1]] = 2 ^ 64 ∧
      (BlockBuildingContext.fromAttributes (exampleNext 30000000) exampleSigner [] false 0
        [[[1], [1]]] (calculateConstraintGasReservation raw [[[1], [1]]])).gasAvailable = 30000000 := by
  decide +kernel

/-- A transaction of the user that needs 25000 gas. -/
def smallTx : Order := .tx { userTx 0 shop 5 with gasLimit := 25000 }

def commitSmall (gasLimit : UInt64) :=
  BlockBuildingHelper.commitOrder (reservingEvm gasLimit) (reservingCtx gasLimit) insertionOrder
    smallTx fun _ => .ok ()

/-- After an order that used 21000 gas, the constraint transaction has its gas in a block of
    30000000 and not in one of 100000. -/
theorem constraints_have_gas_of_room_committed :
    let raw := singleRaw (userTx 1 shop 5)
    let haveGas := fun gasLimit (helper : BlockBuildingHelper Accounts) =>
      ∀ reached tx, helper.Tried (reservingEvm gasLimit) (reservingCtx gasLimit) raw reached tx →
        ∀ f, reached.tryTx (reservingEvm gasLimit) (reservingCtx gasLimit) tx ≠ (.err .gasLeft, f)
    ∃ large small,
      BlockBuildingHelper.new (reservingEvm 30000000) (reservingCtx 30000000) exampleEnv (.ok ())
        true = .ok large ∧
      BlockBuildingHelper.new (reservingEvm 100000) (reservingCtx 100000) exampleEnv (.ok ())
        true = .ok small ∧
      (commitSmall 30000000 large).2.build.partialBlock.spaceState.gasUsed = 21000 ∧
      haveGas 30000000 (commitSmall 30000000 large).2 ∧
        ¬ haveGas 100000 (commitSmall 100000 small).2 := by
  have hgas (gasLimit : UInt64) (hsum : decodableGas (singleRaw (userTx 1 shop 5)) [[1]] ≤
      (exampleNext gasLimit).gasLimit.toNat) :=
    @constraints_have_gas_of_room Accounts (reservingCtx gasLimit) _ (reservingEvm gasLimit)
      (exampleNext gasLimit) exampleSigner [] false 0 [[[1]]] hsum rfl
      (transferEvm_payoutLaws (reservingCtx gasLimit) exampleAccounts).gasUsed
  refine ⟨_, _, rfl, rfl, by decide +kernel,
    (hgas 30000000 (by decide +kernel) _).1 (by decide +kernel), ?_⟩
  refine mt ((hgas 100000 (by decide +kernel) _).2 (userTx 1 shop 5) ?_ ?_ ?_ ?_).mp ?_
  all_goals decide +kernel

/-- In a block of 100000, of which 50000 are reserved for the constraint transaction and 21000
    are used, it is rejected for lack of gas. -/
theorem constraint_lacks_reserved_gas :
    decodableGas (singleRaw (userTx 1 shop 5)) [[1]] = 50000 ∧
      ∃ start rs helper f,
        BlockBuildingHelper.new (reservingEvm 100000) (reservingCtx 100000) exampleEnv (.ok ()) true =
          .ok start ∧
        OrderRun (reservingEvm 100000) (reservingCtx 100000) start rs helper ∧
        helper.build.partialBlock.spaceState.gasUsed = 21000 ∧
        helper.Tried (reservingEvm 100000) (reservingCtx 100000) (singleRaw (userTx 1 shop 5)) helper
          (userTx 1 shop 5) ∧
        helper.tryTx (reservingEvm 100000) (reservingCtx 100000) (userTx 1 shop 5) =
          (.err .gasLeft, f) := by
  refine ⟨by decide +kernel, ?_⟩
  obtain ⟨start, hnew, hincluded, hgas, hmem, hlacks⟩ : ∃ start,
      BlockBuildingHelper.new (reservingEvm 100000) (reservingCtx 100000) exampleEnv (.ok ()) true =
        .ok start ∧
      (commitSmall 100000 start).1.isOk = true ∧
      (commitSmall 100000 start).2.build.partialBlock.spaceState.gasUsed = 21000 ∧
      (userTx 1 shop 5).hash ∉ (commitSmall 100000 start).2.executedHashes ∧
      (110 + (commitSmall 100000 start).2.build.partialBlock.spaceState.totalConsumedSpace.rlpLength ≤
          maxRlpBlockSize ∧
        (reservingCtx 100000).gasAvailable <
          50000 + (commitSmall 100000 start).2.build.partialBlock.spaceState.totalConsumedSpace.gas) :=
    ⟨_, rfl, by decide +kernel, by decide +kernel, by decide +kernel, by decide +kernel⟩
  obtain ⟨r, hcall⟩ := Outcome.exists_of_isOk hincluded
  obtain ⟨f, htry⟩ : ∃ f, (commitSmall 100000 start).2.tryTx (reservingEvm 100000) (reservingCtx 100000)
      (userTx 1 shop 5) = (.err .gasLeft, f) := tryTx_gasLeft_iff.mpr hlacks
  exact ⟨start, [r], _, f, hnew, .included .nil hcall, hgas,
    ⟨[], [1], [], rfl, rfl, rfl, hmem⟩, htry⟩

end Building
