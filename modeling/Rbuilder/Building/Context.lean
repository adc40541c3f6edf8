/-
  What block building runs on: the EVM, the state and the `BlockBuildingContext`.

  The EVM and the state provider are parameters (`Evm`). A `BlockState` is the journal of
  the transitions merged into the bundle state of `revm`; `BundleState::revert` undoes the
  last of them. What an account holds and what a transaction does are functions of that
  journal, so the caches of reads and of executions are left out.
-/
import Rbuilder.Building.Primitives
import Rbuilder.Rollback.Journal

namespace Building

open SparseMpt Rollback

/-! ## Errors of the EVM and the provider -/

inductive ProviderError where
  | databaseOther (msg : String)
  | other
  deriving DecidableEq

/-- `revm`'s `InvalidTransaction`. -/
inductive InvalidTransaction where
  | nonceTooHigh (tx state : UInt64)
  | nonceTooLow (tx state : UInt64)
  | callerGasLimitMoreThanBlock
  | other
  deriving DecidableEq

inductive EvmError where
  | transaction (err : InvalidTransaction)
  | header
  | database (err : ProviderError)
  | custom (msg : String)
  deriving DecidableEq

inductive CriticalCommitOrderError where
  | reth (err : ProviderError)
  | evm (err : EvmError)
  | bigIntConversionError
  deriving DecidableEq

/-! ## The EVM -/

structure Log where
  address : Address
  topics : List B256
  data : Bytes
  deriving DecidableEq

/-- `revm`'s `ExecutionResult`. -/
inductive EvmResult where
  | success (gasUsed gasRefunded : UInt64) (logs : List Log)
  | revert (gasUsed : UInt64)
  | halt (gasUsed : UInt64)
  deriving DecidableEq

namespace EvmResult

def gasUsed : EvmResult → UInt64
  | success gasUsed _ _ | revert gasUsed | halt gasUsed => gasUsed

def isSuccess : EvmResult → Bool
  | success .. => true
  | _ => false

def logs : EvmResult → List Log
  | success _ _ logs => logs
  | _ => []

end EvmResult

/-- What a transaction does: its result, the transition of the state, and the accounts
    that the inspector saw it access. -/
structure ResultAndState (δ : Type) where
  result : EvmResult
  state : δ
  accessed : List Address

/-- The EVM on top of a state provider, for transitions `δ`. -/
structure Evm (δ : Type) where
  /-- An account of the state. -/
  basic : Journal δ → Address → Except ProviderError (Option AccountInfo)
  /-- Execute a transaction, changing nothing. -/
  transact : Journal δ → Tx → Except EvmError (ResultAndState δ)
  /-- Execute a transaction after the balance of an account was raised. -/
  transactFunded : Journal δ → Address → Nat → Tx → Except EvmError EvmResult

abbrev BlockState (δ : Type) := Journal δ

namespace Evm

variable {δ : Type} (evm : Evm δ) (s : BlockState δ) (a : Address)

def balance : Except ProviderError Nat :=
  (evm.basic s a).map fun acc => (acc.map fun acc => acc.balance.toNat).getD 0

def nonce : Except ProviderError UInt64 :=
  (evm.basic s a).map fun acc => (acc.map fun acc => acc.nonce).getD 0

def codeHash : Except ProviderError B256 :=
  (evm.basic s a).map fun acc => (acc.map fun acc => acc.codeHash).getD emptyCodeHash

/-- The state after the transactions, one after the other. -/
def replay : BlockState δ → List Tx → Option (BlockState δ)
  | s, [] => some s
  | s, tx :: txs =>
    match evm.transact s tx with
    | .ok res => replay (s.push res.state) txs
    | .error _ => none

end Evm

/-! ## The context -/

/-- An EIP-1559 transaction to be signed. -/
structure TxEip1559 where
  chainId : UInt64
  nonce : UInt64
  gasLimit : UInt64
  maxFeePerGas : Nat
  maxPriorityFeePerGas : Nat
  toAddress : Address
  value : Nat

/-- What signing adds. -/
structure Signature where
  hash : B256
  length : Nat
  encoding : Bytes

inductive Secp256k1Error where
  | failed
  deriving DecidableEq

structure Signer where
  address : Address
  sign : TxEip1559 → Except Secp256k1Error Signature

def Signer.signTx (signer : Signer) (tx : TxEip1559) : Except Secp256k1Error Tx :=
  (signer.sign tx).map fun signed =>
    { hash := signed.hash, signer := signer.address, toAddress := some tx.toAddress,
      nonce := tx.nonce, gasLimit := tx.gasLimit, maxFeePerGas := tx.maxFeePerGas,
      maxPriorityFeePerGas := tx.maxPriorityFeePerGas, value := tx.value, txType := .eip1559,
      length := signed.length, encoding := signed.encoding }

structure Withdrawal where
  address : Address
  amount : UInt64

def Withdrawal.amountWei (w : Withdrawal) : Nat := w.amount.toNat * 10 ^ 9

/-- `BlockBuildingContext` with the parts of its environment, chain specification and
    attributes that are read. -/
structure BlockBuildingContext where
  beneficiary : Address
  basefee : UInt64
  gasLimit : UInt64
  txGasLimitCap : Option UInt64
  chainId : UInt64
  builderSigner : Signer
  blocklist : List Address
  maxBlobGasPerBlock : Nat
  /-- Gas the building algorithms may use: less than the limit where constraints need gas. -/
  gasAvailable : UInt64
  blockNumber : UInt64
  timestamp : UInt64
  suggestedFeeRecipient : Address
  withdrawals : List Withdrawal
  /-- RLP length of the withdrawals. -/
  withdrawalsLength : Nat
  mevBlockerPrice : Nat
  /-- Hashes of the transactions seen in the mempool. -/
  mempoolTxs : List B256
  /-- The raw transactions of each constraint. -/
  constraints : List (List Bytes)
  fasterFinalize : Bool
  isShanghai : Bool
  isCancun : Bool
  isPrague : Bool
  isOsaka : Bool
  excessBlobGas : Option UInt64

/-- What `reth` and the chain specification give for the block after the parent. -/
structure NextBlock where
  basefee : UInt64
  gasLimit : UInt64
  txGasLimitCap : Option UInt64
  chainId : UInt64
  maxBlobGasPerBlock : Nat
  blockNumber : UInt64
  timestamp : UInt64
  suggestedFeeRecipient : Address
  withdrawals : List Withdrawal
  withdrawalsLength : Nat
  isShanghai : Bool
  isCancun : Bool
  isPrague : Bool
  isOsaka : Bool
  excessBlobGas : Option UInt64

/-- The beneficiary is the builder, and constraints take their gas from the algorithms. -/
def BlockBuildingContext.fromAttributes (next : NextBlock) (signer : Signer)
    (blocklist : List Address) (fasterFinalize : Bool) (mevBlockerPrice : Nat)
    (constraints : List (List Bytes)) (constraintReservedGas : UInt64) : BlockBuildingContext where
  beneficiary := signer.address
  basefee := next.basefee
  gasLimit := next.gasLimit
  txGasLimitCap := next.txGasLimitCap
  chainId := next.chainId
  builderSigner := signer
  blocklist := blocklist
  maxBlobGasPerBlock := next.maxBlobGasPerBlock
  -- `gas_limit.saturating_sub(constraint_reserved_gas)`
  gasAvailable := .ofNat (next.gasLimit.toNat - constraintReservedGas.toNat)
  blockNumber := next.blockNumber
  timestamp := next.timestamp
  suggestedFeeRecipient := next.suggestedFeeRecipient
  withdrawals := next.withdrawals
  withdrawalsLength := next.withdrawalsLength
  mevBlockerPrice := mevBlockerPrice
  mempoolTxs := []
  constraints := constraints
  fasterFinalize := fasterFinalize
  isShanghai := next.isShanghai
  isCancun := next.isCancun
  isPrague := next.isPrague
  isOsaka := next.isOsaka
  excessBlobGas := next.excessBlobGas

/-- `reth`'s `MAX_RLP_BLOCK_SIZE` (EIP-7934). -/
def maxRlpBlockSize : Nat := 8388608

/-- `utils::constants::BASE_TX_GAS`. -/
def baseTxGas : UInt64 := 21000

/-! ## Space state -/

structure BlockBuildingSpaceState where
  spaceUsed : BlockSpace
  reservedBlockSpace : BlockSpace
  deriving DecidableEq

namespace BlockBuildingSpaceState

variable (st : BlockBuildingSpaceState)

def zero : BlockBuildingSpaceState := ⟨.zero, .zero⟩

def freeReservedBlockSpace : BlockBuildingSpaceState := { st with reservedBlockSpace := .zero }

def totalConsumedSpace : BlockSpace := st.spaceUsed + st.reservedBlockSpace

def gasUsed : UInt64 := st.spaceUsed.gas

def blobGasUsed : Nat := st.spaceUsed.blobGas

def reserveBlockSpace (space : BlockSpace) : BlockBuildingSpaceState :=
  { st with reservedBlockSpace := st.reservedBlockSpace + space }

def useSpace (space : BlockSpace) : BlockBuildingSpaceState :=
  { st with spaceUsed := st.spaceUsed + space }

/-- `none` where the source panics. -/
def freeUsedState (space : BlockSpace) : Option BlockBuildingSpaceState :=
  (st.spaceUsed.checkedSub space).map fun spaceUsed => { st with spaceUsed }

end BlockBuildingSpaceState

end Building
