/-
  The gas limit of a payout to a recipient with code.

  The search starts from two test payouts: one with all the gas that is left, which must
  succeed, and one with the gas that it took. If the second one fails, it halves the gap
  between a limit that fails and one that succeeds. A test payout that ends in an error ends
  the search. `payout_gas_limit_found` says that the limit returned is one of those tried, and
  the least where more gas never hurts. This is for limits up to `2 ^ 63`: above, the sum of
  two limits wraps around and the search may go on for ever (`search_never_ends_at_wide_limits`).

  What is left is counted from the limit of a transaction, not from that of the block
  (`gasLeft`). Where transactions have a cap, gas that the block still has is not tried
  (`payout_estimated_iff`).
-/
import Rbuilder.Building.AllOrNothing

namespace Building

open SparseMpt UInt64

section

variable {test : TestPayout} {left right most : UInt64}

/-! ## The search -/

variable (test) in
/-- The test payout is executed, and succeeds. -/
def Succeeds (gas : UInt64) : Prop := ∃ used, test gas = .ok (some used)

variable (test) in
/-- A gas limit that the search between `left` and `right` tries. -/
inductive Searched : UInt64 → UInt64 → UInt64 → Prop
  | middle {left right : UInt64} :
      ¬(gasMiddle left right = left ∨ gasMiddle left right = right) →
      Searched left right (gasMiddle left right)
  | lower {left right gas : UInt64} : Succeeds test (gasMiddle left right) →
      Searched left (gasMiddle left right) gas → Searched left right gas
  | upper {left right gas : UInt64} : test (gasMiddle left right) = .ok none →
      Searched (gasMiddle left right) right gas → Searched left right gas

theorem toNat_gasMiddle (hlt : left < right) (hwide : right.toNat ≤ 2 ^ 63) :
    (gasMiddle left right).toNat = (left.toNat + right.toNat) / 2 := by
  have hlt := UInt64.lt_iff_toNat_lt.mp hlt
  rw [gasMiddle, UInt64.toNat_div, UInt64.toNat_add, Nat.mod_eq_of_lt (by omega)]
  rfl

/-- The middle lies between, unless the search stops. -/
theorem lt_gasMiddle (hlt : left < right) (hwide : right.toNat ≤ 2 ^ 63)
    (hgo : ¬(gasMiddle left right = left ∨ gasMiddle left right = right)) :
    left < gasMiddle left right ∧ gasMiddle left right < right := by
  have hmid := toNat_gasMiddle hlt hwide
  have hlt := UInt64.lt_iff_toNat_lt.mp hlt
  rw [← UInt64.toNat_inj, ← UInt64.toNat_inj] at hgo
  rw [lt_iff_toNat_lt, lt_iff_toNat_lt]
  omega

/-- Between a limit that fails and one that succeeds the search ends: with the error of a limit
    in between, or with a limit that succeeds, where one less fails. -/
theorem searchGasLimit_spec {turns : Nat} (hleft : test left = .ok none)
    (hright : Succeeds test right) (hlt : left < right) (hwide : right.toNat ≤ 2 ^ 63)
    (hturns : right.toNat < left.toNat + turns) :
    (∃ e gas, searchGasLimit test turns left right = some (.error e) ∧
      test gas = .error e ∧ left < gas ∧ gas < right) ∨
    ∃ gas, searchGasLimit test turns left right = some (.ok gas) ∧
      Succeeds test gas ∧ gas ≤ right ∧ (gas = right ∨ Searched test left right gas) ∧
      ∃ below, test below = .ok none ∧ gas.toNat = below.toNat + 1 := by
  induction turns generalizing left right with
  | zero => exact absurd hturns (lt_asymm hlt)
  | succ turns ih =>
    have hmid := toNat_gasMiddle hlt hwide
    rw [searchGasLimit]
    split_ifs with hstop
    · have hlt := UInt64.lt_iff_toNat_lt.mp hlt
      refine .inr ⟨right, rfl, hright, UInt64.le_refl _, .inl rfl, left, hleft, ?_⟩
      obtain heq | heq := hstop <;> rw [heq] at hmid <;> omega
    obtain ⟨hlower, hupper⟩ := lt_gasMiddle hlt hwide hstop
    have hlower' := lt_iff_toNat_lt.mp hlower
    have hupper' := lt_iff_toNat_lt.mp hupper
    rcases htest : test (gasMiddle left right) with e | _ | used
    · exact .inl ⟨e, _, rfl, htest, hlower, hupper⟩
    · obtain ⟨e, gas, hend, herr, hl, hr⟩ | ⟨gas, hend, hok, hle, htried, hbelow⟩ :=
        ih htest hright hupper hwide (by omega)
      · exact .inl ⟨e, gas, hend, herr, UInt64.lt_trans hlower hl, hr⟩
      · exact .inr ⟨gas, hend, hok, hle, htried.imp_right (.upper htest), hbelow⟩
    · obtain ⟨e, gas, hend, herr, hl, hr⟩ | ⟨gas, hend, hok, hle, htried, hbelow⟩ :=
        ih hleft ⟨used, htest⟩ hlower (by omega) (by omega)
      · exact .inl ⟨e, gas, hend, herr, hl, UInt64.lt_trans hr hupper⟩
      refine .inr ⟨gas, hend, hok, UInt64.le_trans hle (UInt64.le_of_lt hupper), .inr ?_, hbelow⟩
      obtain rfl | htried := htried
      · exact .middle hstop
      · exact .lower ⟨used, htest⟩ htried

/-! ## The estimate -/

variable (test) in
/-- No test payout takes more gas than its limit. -/
def TakesAtMost : Prop := ∀ gas used, test gas = .ok (some used) → used ≤ gas

variable (test) in
/-- A payout that succeeds is also executed with a limit between the gas it took and its own. -/
def ExecutesBetween : Prop :=
  ∀ gas used, test gas = .ok (some used) →
    ∀ between, used ≤ between → between ≤ gas → ∃ res, test between = .ok res

variable (test most) in
/-- The gas limits of the test payouts that are executed, when `most` is left. -/
def TestExecuted (gas : UInt64) : Prop :=
  gas = most ∨ ∃ estimation, test most = .ok (some estimation) ∧
    (gas = estimation ∨ test estimation = .ok none ∧ Searched test estimation most gas)

/-- Where the gas that was taken is not enough as a limit, the search decides. -/
theorem estimateWithCode_searches {estimation : UInt64} (hfirst : test most = .ok (some estimation))
    (hsecond : test estimation = .ok none) : estimateWithCode test most =
      (searchGasLimit test searchTurns estimation most).elim (.error .searchNeverEnds)
        (·.mapError .payoutTxErr) := by
  simp only [estimateWithCode, hfirst, hsecond]
  cases searchGasLimit test searchTurns estimation most <;> rfl

/-- The call returns: with an error, or with a limit that was found. -/
theorem estimateWithCode_spec (htakes : TakesAtMost test) (hwide : most.toNat ≤ 2 ^ 63) :
    (∃ e, estimateWithCode test most = .error e ∧ e ≠ .searchNeverEnds ∧
      (ExecutesBetween test → ¬ Succeeds test most)) ∨
    ∃ estimation gas, test most = .ok (some estimation) ∧
      estimateWithCode test most = .ok gas ∧ Succeeds test gas ∧ gas ≤ most ∧
      TestExecuted test most gas ∧
      (gas = estimation ∨ ∃ below, test below = .ok none ∧ gas.toNat = below.toNat + 1) := by
  rcases hfirst : test most with e | _ | estimation
  · refine .inl ⟨.payoutTxErr e, by simp only [estimateWithCode, hfirst], nofun, fun _ ⟨_, hok⟩ => ?_⟩
    cases hfirst.symm.trans hok
  · refine .inl ⟨.failedToEstimate, by simp only [estimateWithCode, hfirst], nofun, fun _ ⟨_, hok⟩ => ?_⟩
    cases hfirst.symm.trans hok
  have hle := htakes _ _ hfirst
  rcases hsecond : test estimation with e | _ | used
  · refine .inl ⟨.payoutTxErr e, by simp only [estimateWithCode, hfirst, hsecond], nofun, ?_⟩
    intro hruns _
    obtain ⟨res, hres⟩ := hruns _ _ hfirst _ (UInt64.le_refl _) hle
    cases hsecond.symm.trans hres
  · have hlt : estimation < most := by
      refine UInt64.lt_of_le_of_ne hle ?_
      rintro rfl
      cases hfirst.symm.trans hsecond
    have hturns : most.toNat < estimation.toNat + searchTurns := by
      unfold searchTurns
      omega
    rw [estimateWithCode_searches hfirst hsecond]
    obtain ⟨e, gas, hend, herr, hl, hr⟩ | ⟨gas, hend, hok, hmost, htried, hbelow⟩ :=
      searchGasLimit_spec hsecond ⟨_, hfirst⟩ hlt hwide hturns
    · rw [hend]
      refine .inl ⟨_, rfl, nofun, fun hruns _ => ?_⟩
      obtain ⟨res, hres⟩ := hruns _ _ hfirst gas (UInt64.le_of_lt hl) (UInt64.le_of_lt hr)
      cases herr.symm.trans hres
    · rw [hend]
      refine .inr ⟨_, gas, rfl, rfl, hok, hmost, ?_, .inr hbelow⟩
      exact htried.imp_right fun hsearched => ⟨_, hfirst, .inr ⟨hsecond, hsearched⟩⟩
  · refine .inr ⟨_, estimation, rfl, by simp only [estimateWithCode, hfirst, hsecond], ⟨used, hsecond⟩,
      hle, .inr ⟨_, hfirst, .inl rfl⟩, .inl rfl⟩

end

section

variable {δ : Type} {evm : Evm δ} {ctx : BlockBuildingContext} {recipient : Address}
  {s : BlockState δ} {spaceUsed : BlockSpace}

variable (evm recipient s) in
def HasCode : Prop := ∃ codeHash, evm.codeHash s recipient = .ok codeHash ∧ codeHash ≠ emptyCodeHash

variable (ctx spaceUsed) in
/-- The gas that a transaction may still take in the block. -/
def availableGas : Nat := min (maxTxGasLimit ctx).toNat (ctx.gasLimit.toNat - spaceUsed.gas.toNat)

variable (ctx spaceUsed) in
theorem toNat_gasLeft :
    (gasLeft ctx spaceUsed).toNat = (maxTxGasLimit ctx).toNat - spaceUsed.gas.toNat := by
  unfold gasLeft
  split_ifs with hle
  · exact UInt64.toNat_sub_of_le _ _ hle
  · rw [UInt64.not_le, UInt64.lt_iff_toNat_lt] at hle
    rw [UInt64.toNat_zero]
    omega

/-- The space has the gas that is found, and the length of every payout. -/
theorem estimatePayoutGasLimit_eq (hcode : HasCode evm recipient s) :
    estimatePayoutGasLimit evm ctx recipient s spaceUsed =
      ((estimatePayoutTxSpace ctx).mapError fun _ => .failedToEstimate).bind fun default =>
        (estimateWithCode (insertTestPayoutTx evm ctx recipient s) (gasLeft ctx spaceUsed)).map
          (⟨·, default.rlpLength, 0⟩) := by
  obtain ⟨codeHash, hcode, hne⟩ := hcode
  simp only [estimatePayoutGasLimit, hcode, hne, Except.mapError, bind, Except.bind, if_false]
  rfl

/-- For every recipient with code and every state: the call returns, and a limit that it returns
    was tried and succeeded. If more gas never makes a payout fail, and none succeeds with less
    than the first estimation, no smaller limit succeeds. -/
theorem payout_gas_limit_found (hcode : HasCode evm recipient s)
    (htakes : TakesAtMost (insertTestPayoutTx evm ctx recipient s))
    (hwide : (gasLeft ctx spaceUsed).toNat ≤ 2 ^ 63) :
    let test := insertTestPayoutTx evm ctx recipient s
    estimatePayoutGasLimit evm ctx recipient s spaceUsed ≠ .error .searchNeverEnds ∧
      ∀ space, estimatePayoutGasLimit evm ctx recipient s spaceUsed = .ok space →
        TestExecuted test (gasLeft ctx spaceUsed) space.gas ∧ Succeeds test space.gas ∧
        ((∀ a b, a ≤ b → b ≤ gasLeft ctx spaceUsed → Succeeds test a → Succeeds test b) →
          (∀ estimation, test (gasLeft ctx spaceUsed) = .ok (some estimation) →
            ∀ gas < estimation, ¬ Succeeds test gas) →
          ∀ gas < space.gas, ¬ Succeeds test gas) := by
  intro test
  rw [estimatePayoutGasLimit_eq hcode]
  rcases estimatePayoutTxSpace ctx with e | default
  · exact ⟨nofun, nofun⟩
  obtain ⟨e, herr, hends, -⟩ | ⟨estimation, found, hfirst, hfound, hsucceeds, hmost, htried, hleast⟩ :=
    estimateWithCode_spec htakes hwide
  · rw [herr]
    exact ⟨fun heq => hends (Except.error.inj heq), nofun⟩
  rw [hfound]
  refine ⟨nofun, ?_⟩
  rintro _ ⟨⟩
  refine ⟨htried, hsucceeds, fun hmono hfloor gas hlt => ?_⟩
  obtain rfl | ⟨below, hbelow, hnext⟩ := hleast
  · exact hfloor found hfirst gas hlt
  -- a limit that succeeds would make the one before the limit found succeed
  have hlt : gas.toNat < found.toNat := lt_iff_toNat_lt.mp hlt
  have hmost := le_iff_toNat_le.mp hmost
  have hle : gas ≤ below := le_iff_toNat_le.mpr (by omega)
  have hbelowMost : below ≤ gasLeft ctx spaceUsed := le_iff_toNat_le.mpr (by omega)
  intro hgas
  obtain ⟨used, hused⟩ := hmono gas below hle hbelowMost hgas
  cases hbelow.symm.trans hused

/-- Where a payout succeeds with every limit from `g` up to the gas that is available, it is
    estimated exactly if transactions have no cap, nothing is used yet, or it also succeeds
    with what is used taken from the cap. -/
theorem payout_estimated_iff (hcode : HasCode evm recipient s)
    (htakes : TakesAtMost (insertTestPayoutTx evm ctx recipient s))
    (hruns : ExecutesBetween (insertTestPayoutTx evm ctx recipient s))
    (hsigns : ∃ default, estimatePayoutTxSpace ctx = .ok default)
    (hcap : maxTxGasLimit ctx ≤ ctx.gasLimit) (hwide : ctx.gasLimit.toNat ≤ 2 ^ 63) {g : UInt64}
    (hroom : g.toNat ≤ availableGas ctx spaceUsed)
    (hall : ∀ gas, g ≤ gas → gas.toNat ≤ availableGas ctx spaceUsed →
      Succeeds (insertTestPayoutTx evm ctx recipient s) gas) :
    (∃ space, estimatePayoutGasLimit evm ctx recipient s spaceUsed = .ok space ∧
        space.gas.toNat ≤ availableGas ctx spaceUsed) ↔
      ctx.txGasLimitCap = none ∨ spaceUsed.gas = 0 ∨
        Succeeds (insertTestPayoutTx evm ctx recipient s) (gasLeft ctx spaceUsed) := by
  have hleft := toNat_gasLeft ctx spaceUsed
  have hcap := le_iff_toNat_le.mp hcap
  have hfirst : (ctx.txGasLimitCap = none ∨ spaceUsed.gas = 0 ∨
      Succeeds (insertTestPayoutTx evm ctx recipient s) (gasLeft ctx spaceUsed)) ↔
        Succeeds (insertTestPayoutTx evm ctx recipient s) (gasLeft ctx spaceUsed) := by
    refine ⟨fun hcond => ?_, fun hsome => .inr (.inr hsome)⟩
    have hsame (heq : (gasLeft ctx spaceUsed).toNat = availableGas ctx spaceUsed) :=
      hall _ (le_iff_toNat_le.mpr (hroom.trans heq.ge)) heq.le
    obtain hnone | hzero | hsome := hcond
    · have hmax : maxTxGasLimit ctx = ctx.gasLimit := by rw [maxTxGasLimit, hnone, Option.getD_none]
      refine hsame ?_
      rw [hleft, availableGas, hmax]
      omega
    · refine hsame ?_
      rw [hleft, availableGas, hzero, UInt64.toNat_zero]
      omega
    · exact hsome
  obtain ⟨default, hdefault⟩ := hsigns
  rw [hfirst, estimatePayoutGasLimit_eq hcode, hdefault]
  obtain ⟨e, herr, -, hfails⟩ | ⟨estimation, gas, hsome, hgas, -, hle, -, -⟩ :=
    estimateWithCode_spec htakes (hleft.le.trans (by omega))
  · rw [herr]
    exact iff_of_false (fun ⟨_, hspace, _⟩ => by cases hspace) (hfails hruns)
  have hle := le_iff_toNat_le.mp hle
  rw [hgas]
  refine iff_of_true ⟨_, rfl, ?_⟩ ⟨estimation, hsome⟩
  change gas.toNat ≤ _
  unfold availableGas
  omega

end

/-! ### Examples -/

/-- Payments to the vault succeed from `needed` on and take `used`. Below the gas of a plain
    transfer they are not executed. -/
def callEvm (needed used : UInt64) : Evm Accounts :=
  { exampleEvm with
    transactFunded := fun _ _ _ tx =>
      if tx.gasLimit < baseTxGas then .error (.transaction .other)
      else .ok (if needed ≤ tx.gasLimit then .success used 0 [] else .halt tx.gasLimit) }

def limitCtx (gasLimit : UInt64) (cap : Option UInt64) : BlockBuildingContext :=
  { exampleCtx with gasLimit, txGasLimitCap := cap }

/-- A block of 60000000 in which a transaction takes at most 16777216. -/
def cappedCtx : BlockBuildingContext := limitCtx 60000000 (some 16777216)

def callTest (needed used gas : UInt64) : Except PayoutTxErr (Option UInt64) :=
  if gas < baseTxGas then .error (.evmError (.transaction .other))
  else .ok (if needed ≤ gas then some used else none)

section

variable {needed used : UInt64}

theorem insertTestPayoutTx_call (gasLimit : UInt64) (cap : Option UInt64) :
    insertTestPayoutTx (callEvm needed used) (limitCtx gasLimit cap) vault {} =
      callTest needed used := by
  funext gas
  by_cases hbase : gas < baseTxGas <;> by_cases hgas : needed ≤ gas <;>
    simp [insertTestPayoutTx, callTest, callEvm, exampleEvm, transferEvm, Evm.nonce, createPayoutTx,
      Signer.signTx, limitCtx, exampleCtx, exampleSigner, Except.mapError, Except.map, bind,
      Except.bind, pure, Except.pure, hgas, hbase]

theorem succeeds_call_iff (hneeded : baseTxGas ≤ needed) {gas : UInt64} :
    Succeeds (callTest needed used) gas ↔ needed ≤ gas := by
  unfold Succeeds callTest
  by_cases hgas : needed ≤ gas
  · simp [UInt64.not_lt.mpr (UInt64.le_trans hneeded hgas), hgas]
  · by_cases hbase : gas < baseTxGas <;> simp [hbase, hgas]

theorem takesAtMost_call (hused : used ≤ needed) : TakesAtMost (callTest needed used) := by
  intro gas took h
  unfold callTest at h
  split_ifs at h with hbase hgas
  · cases h
    exact UInt64.le_trans hused hgas
  · cases h

theorem executesBetween_call (hused : baseTxGas ≤ used) : ExecutesBetween (callTest needed used) := by
  intro gas took h between hle _
  unfold callTest at h
  split_ifs at h with hbase hgas
  · cases h
    exact ⟨_, if_neg (UInt64.not_lt.mpr (UInt64.le_trans hused hle))⟩
  · cases h

end

theorem payout_gas_limit_found_vault :
    (∃ length, estimatePayoutGasLimit (callEvm 30000 25000) cappedCtx vault {} .zero =
      .ok ⟨30000, length, 0⟩) ∧
    ∀ gas < 30000, ¬ Succeeds (insertTestPayoutTx (callEvm 30000 25000) cappedCtx vault {}) gas := by
  have hspace : estimatePayoutGasLimit (callEvm 30000 25000) cappedCtx vault {} .zero =
      .ok ⟨30000, 246, 0⟩ := by decide +kernel
  have hcall : insertTestPayoutTx (callEvm 30000 25000) cappedCtx vault {} = callTest 30000 25000 :=
    insertTestPayoutTx_call _ _
  have hleast := ((payout_gas_limit_found ⟨_, rfl, by decide⟩
    (hcall ▸ takesAtMost_call (by decide)) (by decide)).2 _ hspace).2.2
  rw [hcall] at hleast ⊢
  refine ⟨⟨_, hspace⟩, hleast (fun a b hle _ ha => ?_) fun estimation h gas hlt => ?_⟩
  · rw [succeeds_call_iff (by decide)] at ha ⊢
    exact UInt64.le_trans ha hle
  · cases h
    rw [succeeds_call_iff (by decide), UInt64.not_le]
    exact UInt64.lt_trans hlt (by decide)

/-- With 20000000 of the block used, a payment that would succeed is not estimated: the first
    test payout has no gas, and the EVM refuses it. -/
theorem payout_refused_below_cap :
    (∀ gas, 30000 ≤ gas →
      Succeeds (insertTestPayoutTx (callEvm 30000 25000) cappedCtx vault {}) gas) ∧
      availableGas cappedCtx ⟨20000000, 0, 0⟩ = 16777216 ∧
      estimatePayoutGasLimit (callEvm 30000 25000) cappedCtx vault {} ⟨20000000, 0, 0⟩ =
        .error (.payoutTxErr (.evmError (.transaction .other))) := by
  refine ⟨fun gas hgas => ?_, by decide, by decide⟩
  rw [cappedCtx, insertTestPayoutTx_call]
  exact (succeeds_call_iff (by decide)).mpr hgas

theorem payout_estimated_iff_vault : ∃ space,
    estimatePayoutGasLimit (callEvm 30000 25000) cappedCtx vault {} ⟨10000000, 0, 0⟩ = .ok space ∧
      space.gas.toNat ≤ 16777216 := by
  have hcall : insertTestPayoutTx (callEvm 30000 25000) cappedCtx vault {} = callTest 30000 25000 :=
    insertTestPayoutTx_call _ _
  have hiff := @payout_estimated_iff _ _ _ _ _ ⟨10000000, 0, 0⟩ ⟨_, rfl, by decide⟩
    (hcall ▸ takesAtMost_call (by decide)) (hcall ▸ executesBetween_call (by decide)) ⟨_, rfl⟩
    (by decide) (by decide) 30000 (by decide)
    fun gas hgas _ => hcall ▸ (succeeds_call_iff (by decide)).mpr hgas
  exact hiff.mpr (.inr (.inr (hcall ▸ (succeeds_call_iff (by decide)).mpr (by decide))))

/-! A limit of three quarters of the words: from a limit that is too low the middle jumps
    between an eighth and a half of them. -/

def wideLimit : UInt64 := 0xc000000000000000

def halfLimit : UInt64 := 0x8000000000000000

theorem searchGasLimit_wide (turns : Nat) {left : UInt64} (hlow : 2 ^ 60 ≤ left.toNat)
    (hhigh : left.toNat ≤ 2 ^ 63) (hgap : left.toNat < 2 ^ 62 ∨ 13 * 2 ^ 59 ≤ left.toNat) :
    searchGasLimit (callTest wideLimit halfLimit) turns left wideLimit = none := by
  have hwide : wideLimit.toNat = 3 * 2 ^ 62 := by decide
  induction turns generalizing left with
  | zero => rfl
  | succ turns ih =>
    have hmid : (gasMiddle left wideLimit).toNat = (left.toNat + 3 * 2 ^ 62) % 2 ^ 64 / 2 := by
      rw [gasMiddle, UInt64.toNat_div, UInt64.toNat_add, hwide]
      rfl
    have hgo : ¬(gasMiddle left wideLimit = left ∨ gasMiddle left wideLimit = wideLimit) := by
      rw [← UInt64.toNat_inj, ← UInt64.toNat_inj, hmid, hwide]
      omega
    have hneeded : ¬ wideLimit ≤ gasMiddle left wideLimit := by
      rw [le_iff_toNat_le, hwide]
      omega
    have hbase : ¬ gasMiddle left wideLimit < baseTxGas := by
      rw [lt_iff_toNat_lt, show baseTxGas.toNat = 21000 by decide]
      omega
    rw [searchGasLimit, if_neg hgo, callTest, if_neg hbase, if_neg hneeded]
    exact ih (by omega) (by omega) (by omega)

/-- Where the sums of limits wrap around, the search goes on for ever. -/
theorem search_never_ends_at_wide_limits :
    HasCode (callEvm wideLimit halfLimit) vault {} ∧
      TakesAtMost (insertTestPayoutTx (callEvm wideLimit halfLimit) (limitCtx wideLimit none) vault {}) ∧
      estimatePayoutGasLimit (callEvm wideLimit halfLimit) (limitCtx wideLimit none) vault {} .zero =
        .error .searchNeverEnds := by
  have hcode : HasCode (callEvm wideLimit halfLimit) vault {} := ⟨_, rfl, by decide⟩
  have hsearch := @searchGasLimit_wide searchTurns halfLimit (by decide) (by decide) (by decide)
  have hestimate := @estimateWithCode_searches (callTest wideLimit halfLimit) wideLimit halfLimit
    (by decide) (by decide)
  rw [hsearch] at hestimate
  rw [estimatePayoutGasLimit_eq hcode, insertTestPayoutTx_call,
    show gasLeft (limitCtx wideLimit none) .zero = wideLimit by decide, hestimate]
  exact ⟨hcode, takesAtMost_call (by decide), rfl⟩

end Building
