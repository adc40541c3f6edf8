/-
  Committing an order is all or nothing.

  A run of `commit_order` calls keeps the block and the state together: the state is the
  one the run started from with the listed transactions replayed on it. A call that
  reports an error leaves both as they were, however deep in a bundle it failed and
  whatever was executed before; so does a call whose result the filter rejects.
-/
import Rbuilder.Building.Committed

namespace Building

open SparseMpt Rollback List

variable {δ : Type} {evm : Evm δ} {ctx : BlockBuildingContext}

/-- `commit_order` calls one after the other, with the results of those that were included.
    A critical error ends the run. -/
inductive CommitRun (evm : Evm δ) (ctx : BlockBuildingContext) (b : BuildState δ) :
    List ExecutionResult → BuildState δ → Prop
  | nil : CommitRun evm ctx b [] b
  | included {rs : List ExecutionResult} {b' b'' : BuildState δ} (h : CommitRun evm ctx b rs b')
      {hashOrder : HashOrder} {order : Order}
      {resultFilter : SimValue → Except ExecutionError Unit} {r : ExecutionResult}
      (hcall : PartialBlock.commitOrder evm ctx hashOrder order resultFilter b' = (.ok r, b'')) :
      CommitRun evm ctx b (rs ++ [r]) b''
  | rejected {rs : List ExecutionResult} {b' b'' : BuildState δ} (h : CommitRun evm ctx b rs b')
      {hashOrder : HashOrder} {order : Order}
      {resultFilter : SimValue → Except ExecutionError Unit} {e : ExecutionError}
      (hcall : PartialBlock.commitOrder evm ctx hashOrder order resultFilter b' = (.err e, b'')) :
      CommitRun evm ctx b rs b''

theorem addOrder_executedTxInfos (block : PartialBlock) (ok : OrderOk) :
    (block.addOrder ok).executedTxInfos = block.executedTxInfos ++ ok.txInfos := by
  unfold PartialBlock.addOrder
  split
  · rfl
  · split <;> rfl

variable {b b' : BuildState δ}

/-- The state after an order is that of replaying its transactions. -/
theorem OrderAdded.replay {order : Order} {r : ExecutionResult}
    (h : OrderAdded evm ctx order b r b') :
    b'.partialBlock.executedTxInfos = b.partialBlock.executedTxInfos ++ r.txInfos ∧
      evm.replay b.blockState (r.txInfos.map (·.tx)) = some b'.blockState := by
  obtain ⟨-, ok, hinfos, -, hblock, n, hdone⟩ := h
  rw [hblock, addOrder_executedTxInfos, hinfos]
  exact ⟨rfl, hdone.ran.executed.replay⟩

/-- Along a run the state holds exactly the transactions of the block. -/
theorem CommitRun.replay {rs : List ExecutionResult}
    (h : CommitRun evm ctx b rs b') :
    b'.partialBlock.executedTxInfos = b.partialBlock.executedTxInfos ++ rs.flatMap (·.txInfos) ∧
      evm.replay b.blockState ((rs.flatMap (·.txInfos)).map (·.tx)) = some b'.blockState := by
  induction h with
  | nil => exact ⟨(append_nil _).symm, rfl⟩
  | included _ hcall ih =>
    have hadded := ((PartialBlock.commitOrder_holds ..).of_ok hcall).1.replay
    rw [flatMap_append, flatMap_singleton, map_append, replay_append, ih.2]
    refine ⟨?_, hadded.2⟩
    rw [hadded.1, ih.1, append_assoc]
  | rejected _ hcall ih =>
    have hsame := (PartialBlock.commitOrder_holds ..).of_err hcall
    rwa [hsame]

/-- After every run, a call of `commit_order` adds the transactions it returns, to the
    block and to the state, or changes neither; and no rollback goes wrong. -/
theorem commit_order_all_or_nothing {rs : List ExecutionResult}
    (hrun : CommitRun evm ctx b rs b') (hashOrder : HashOrder) (order : Order)
    (resultFilter : SimValue → Except ExecutionError Unit) :
    evm.replay b.blockState ((rs.flatMap (·.txInfos)).map (·.tx)) = some b'.blockState ∧
      (PartialBlock.commitOrder evm ctx hashOrder order resultFilter).Holds b'
        (fun r b'' =>
          b''.partialBlock.executedTxInfos = b'.partialBlock.executedTxInfos ++ r.txInfos ∧
          evm.replay b'.blockState (r.txInfos.map (·.tx)) = some b''.blockState)
        fun _ b'' => b'' = b' :=
  ⟨hrun.replay.2, (PartialBlock.commitOrder_holds hashOrder order resultFilter b').mono
    (fun _ _ h => h.1.replay) fun _ _ h => h⟩

/-! ### Plain transfers

  An EVM without contracts: an account with code reverts every call. -/

/-- The changed accounts, the latest change first. -/
abbrev Accounts := List (Address × AccountInfo)

def readAccount (base : Accounts) (s : Journal Accounts) (a : Address) : Option AccountInfo :=
  (s.entries.flatten ++ base).lookup a

/-- Add to the balance of an account, on top of `changes`. -/
def credit (read : Address → Option AccountInfo) (changes : Accounts) (a : Address) (amount : Nat) :
    Accounts :=
  let acc := ((changes.lookup a).orElse fun _ => read a).getD ⟨0, 0, emptyCodeHash⟩
  (a, { acc with balance := .ofNat 256 (acc.balance.toNat + amount) }) :: changes

/-- Execute a transfer over the accounts that `read` gives. -/
def transfer (ctx : BlockBuildingContext) (read : Address → Option AccountInfo) (tx : Tx) :
    Except EvmError (ResultAndState Accounts) :=
  let sender := (read tx.signer).getD ⟨0, 0, emptyCodeHash⟩
  match tx.toAddress with
  | none => .error (.transaction .other)
  | some recipient =>
    if ctx.gasLimit < tx.gasLimit then .error (.transaction .callerGasLimitMoreThanBlock)
    else if sender.nonce < tx.nonce then .error (.transaction (.nonceTooHigh tx.nonce sender.nonce))
    else if tx.nonce < sender.nonce then .error (.transaction (.nonceTooLow tx.nonce sender.nonce))
    else if tx.nonce = 0xFFFFFFFFFFFFFFFF ∨ tx.gasLimit < baseTxGas ∨
        tx.maxFeePerGas < ctx.basefee.toNat ∨
        sender.balance.toNat < tx.gasLimit.toNat * tx.maxFeePerGas + tx.value then
      .error (.transaction .other)
    else
      let tip := min tx.maxPriorityFeePerGas (tx.maxFeePerGas - ctx.basefee.toNat)
      let fee := baseTxGas.toNat * (ctx.basefee.toNat + tip)
      let hasCode := (read recipient).any fun acc => acc.codeHash != emptyCodeHash
      let value := if hasCode then 0 else tx.value
      let paid : AccountInfo := { sender with
        nonce := sender.nonce + 1, balance := .ofNat 256 (sender.balance.toNat - fee - value) }
      let changes := credit read [(tx.signer, paid)] recipient value
      let changes := credit read changes ctx.beneficiary (baseTxGas.toNat * tip)
      .ok
        { result := if hasCode then .revert baseTxGas else .success baseTxGas 0 []
          state := changes
          accessed := [tx.signer, recipient] }

def transferEvm (ctx : BlockBuildingContext) (base : Accounts) : Evm Accounts where
  basic s a := .ok (readAccount base s a)
  transact s tx := transfer ctx (readAccount base s) tx
  transactFunded s a amount tx :=
    let funded := credit (readAccount base s) [] a amount
    (transfer ctx (fun b => (funded.lookup b).orElse fun _ => readAccount base s b) tx).map
      (·.result)

/-- The address that ends in `n`. -/
def addressOf (n : UInt8) : Address := (Vector.replicate 20 0).set 19 n

def builder : Address := addressOf 1

def user : Address := addressOf 2

def shop : Address := addressOf 3

/-- An account with code. -/
def vault : Address := addressOf 4

def proposer : Address := addressOf 5

def exampleSigner : Signer where
  address := builder
  sign tx := .ok ⟨(Vector.replicate 32 0).set 31 tx.nonce.toUInt8, 118, []⟩

def exampleCtx : BlockBuildingContext where
  beneficiary := builder
  basefee := 10
  gasLimit := 30000000
  txGasLimitCap := none
  chainId := 1
  builderSigner := exampleSigner
  blocklist := []
  maxBlobGasPerBlock := 1179648
  gasAvailable := 30000000
  blockNumber := 7
  timestamp := 84
  suggestedFeeRecipient := proposer
  withdrawals := []
  withdrawalsLength := 1
  mevBlockerPrice := 0
  mempoolTxs := []
  constraints := []
  fasterFinalize := false
  isShanghai := true
  isCancun := true
  isPrague := false
  isOsaka := false
  excessBlobGas := some 0

def exampleAccounts : Accounts :=
  [(builder, ⟨1000000000, 0, emptyCodeHash⟩), (user, ⟨1000000000, 0, emptyCodeHash⟩),
    (vault, ⟨0, 1, SparseMpt.B256.zero⟩)]

def exampleEvm : Evm Accounts := transferEvm exampleCtx exampleAccounts

/-- A payment of the user, with a tip of 2 for each unit of gas. -/
def userTx (nonce : UInt64) (recipient : Address) (value : Nat) : Tx where
  hash := ((Vector.replicate 32 1).set 31 nonce.toUInt8).set 30 recipient[19]
  signer := user
  toAddress := some recipient
  nonce := nonce
  gasLimit := 50000
  maxFeePerGas := 20
  maxPriorityFeePerGas := 2
  value := value
  txType := .eip1559
  length := 110
  encoding := []

/-- The last byte of each half of 64 bytes, and their number. -/
def sampleHash (bytes : Bytes) : B256 :=
  ((Vector.replicate 32 bytes.length.toUInt8).set 0 (bytes.getD 31 0)).set 1 (bytes.getD 63 0)

def insertionOrder : HashOrder where
  order := id
  perm _ := .refl _

def emptyBuild : BuildState Accounts := ⟨{ discardTxs := true }, {}⟩

/-- The payment to the vault reverts and may be dropped. -/
def droppingBundle : Order :=
  .bundle
    { block := some 7, minTimestamp := none, maxTimestamp := none,
      txs := [userTx 0 shop 5, userTx 1 vault 5, userTx 1 shop 6], revertingTxHashes := [],
      droppingTxHashes := [(userTx 1 vault 5).hash], refund := none }

def commitDropping :=
  PartialBlock.commitOrder exampleEvm exampleCtx insertionOrder droppingBundle fun _ => .ok ()

/-- The bundle is included without the payment that reverts; a second time it is an error
    that changes nothing. -/
theorem commit_order_all_or_nothing_dropped :
    ∃ r b e, CommitRun exampleEvm exampleCtx emptyBuild [r] b ∧
      r.txInfos.map (·.tx) = [userTx 0 shop 5, userTx 1 shop 6] ∧
      exampleEvm.replay {} [userTx 0 shop 5, userTx 1 shop 6] = some b.blockState ∧
      commitDropping b = (.err e, b) := by
  obtain ⟨r, hcall⟩ :=
    Outcome.exists_of_isOk (show (commitDropping emptyBuild).1.isOk by decide +kernel)
  have hrun : CommitRun exampleEvm exampleCtx emptyBuild [r] _ := .included .nil hcall
  obtain ⟨hreplay, hnext⟩ :=
    commit_order_all_or_nothing hrun insertionOrder droppingBundle fun _ => .ok ()
  have htxs : r.txInfos.map (·.tx) = [userTx 0 shop 5, userTx 1 shop 6] := by
    have hinfos : r.txInfos = (commitDropping emptyBuild).2.partialBlock.executedTxInfos := by
      rw [hrun.replay.1, flatMap_singleton]
      rfl
    rw [hinfos]
    decide +kernel
  obtain ⟨e, hagain⟩ := Outcome.exists_of_isErr
    (show (commitDropping (commitDropping emptyBuild).2).1.isErr by decide +kernel)
  refine ⟨r, _, e, hrun, htxs, ?_, ?_⟩
  · rw [← htxs]
    rwa [flatMap_singleton] at hreplay
  · have hsame := hnext.of_err hagain
    rwa [hsame] at hagain

end Building
