/-
  Payout transactions: `building/payout_tx.rs`.

  A payout is a plain transfer signed by the builder that pays the base fee and no
  priority fee. A recipient without code needs `BASE_TX_GAS`; for one with code the gas
  limit is found by executing test payouts, which change nothing.
-/
import Rbuilder.Building.Context

namespace Building

open SparseMpt

def createPayoutTx (ctx : BlockBuildingContext) (nonce : UInt64) (recipient : Address)
    (gasLimit : UInt64) (value : Nat) : Except Secp256k1Error Tx :=
  ctx.builderSigner.signTx
    { chainId := ctx.chainId, nonce, gasLimit, maxFeePerGas := ctx.basefee.toNat,
      maxPriorityFeePerGas := 0, toAddress := recipient, value }

inductive PayoutTxErr where
  | reth (err : ProviderError)
  | signError (err : Secp256k1Error)
  | evmError (err : EvmError)
  deriving DecidableEq

/-- `searchNeverEnds` is no error of the source: the call does not return. -/
inductive EstimatePayoutGasErr where
  | reth (err : ProviderError)
  | payoutTxErr (err : PayoutTxErr)
  | failedToEstimate
  | searchNeverEnds
  deriving DecidableEq

section

variable {δ : Type} (evm : Evm δ) (ctx : BlockBuildingContext)

/-- The value of a test payout. -/
def testPayoutValue : Nat := 10 ^ 18

/-- The gas a test payout takes, or nothing when it does not succeed. The builder's balance
    is raised for it by double its cost. -/
def insertTestPayoutTx (recipient : Address) (s : BlockState δ) (gasLimit : UInt64) :
    Except PayoutTxErr (Option UInt64) := do
  let nonce ← (evm.nonce s ctx.builderSigner.address).mapError .reth
  let tx ← (createPayoutTx ctx nonce recipient gasLimit testPayoutValue).mapError .signError
  let _ ← (evm.basic s ctx.builderSigner.address).mapError .reth
  let gasFee := ctx.basefee.toNat * gasLimit.toNat
  let funds := (testPayoutValue + gasFee) * 2
  match ← (evm.transactFunded s ctx.builderSigner.address funds tx).mapError .evmError with
  | .success gasUsed gasRefunded _ => return some (gasUsed + gasRefunded)
  | _ => return none

def maxTxGasLimit : UInt64 := ctx.txGasLimitCap.getD ctx.gasLimit

/-- The space of a payout to a recipient without code. Its length leaves room for the
    fields that are zero here. -/
def estimatePayoutTxSpace : Except Secp256k1Error BlockSpace :=
  (createPayoutTx ctx 0 (Vector.replicate 20 0) (maxTxGasLimit ctx) 0).map fun tx =>
    ⟨baseTxGas, tx.length + 32 * 4, 0⟩

/-- In machine words: the sum of two limits may wrap around. -/
def gasMiddle (left right : UInt64) : UInt64 := (left + right) / 2

/-- What a test payout with a gas limit gives, see `insertTestPayoutTx`. -/
abbrev TestPayout := UInt64 → Except PayoutTxErr (Option UInt64)

/-- Binary search between a gas limit that is too low and one that is enough, for at most
    `turns` turns; `none` if it goes on. -/
def searchGasLimit (test : TestPayout) :
    Nat → UInt64 → UInt64 → Option (Except PayoutTxErr UInt64)
  | 0, _, _ => none
  | turns + 1, left, right =>
    let mid := gasMiddle left right
    if mid = left ∨ mid = right then some (.ok right)
    else
      match test mid with
      | .error e => some (.error e)
      | .ok (some _) => searchGasLimit test turns left mid
      | .ok none => searchGasLimit test turns mid right

/-- A search that ends meets no pair of limits twice. -/
@[irreducible] def searchTurns : Nat := 2 ^ 128

/-- The part of `estimate_payout_gas_limit` for a recipient with code. -/
def estimateWithCode (test : TestPayout) (gasLeft : UInt64) : Except EstimatePayoutGasErr UInt64 :=
  match test gasLeft with
  | .error e => .error (.payoutTxErr e)
  | .ok none => .error .failedToEstimate
  | .ok (some estimation) =>
    match test estimation with
    | .error e => .error (.payoutTxErr e)
    | .ok (some _) => .ok estimation
    | .ok none =>
      match searchGasLimit test searchTurns estimation gasLeft with
      | none => .error .searchNeverEnds
      | some gas => gas.mapError .payoutTxErr

/-- The gas of the first test payout. -/
def gasLeft (spaceUsed : BlockSpace) : UInt64 :=
  if spaceUsed.gas ≤ maxTxGasLimit ctx then maxTxGasLimit ctx - spaceUsed.gas else 0

/-- The space a payout needs, when `spaceUsed` of the block is used. -/
def estimatePayoutGasLimit (recipient : Address) (s : BlockState δ) (spaceUsed : BlockSpace) :
    Except EstimatePayoutGasErr BlockSpace := do
  let default ← (estimatePayoutTxSpace ctx).mapError fun _ => .failedToEstimate
  let codeHash ← (evm.codeHash s recipient).mapError .reth
  if codeHash = emptyCodeHash then return default
  let gas ← estimateWithCode (insertTestPayoutTx evm ctx recipient s) (gasLeft ctx spaceUsed)
  return ⟨gas, default.rlpLength, 0⟩

end

end Building
