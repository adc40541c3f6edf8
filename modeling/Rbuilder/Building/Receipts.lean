/-
  The receipts root and the transactions root (`utils/receipts.rs`).

  Both are roots of a trie from the RLP of an index to an encoded item. With
  `faster_finalize` the trie is kept: sealing a block again with another payout inserts
  only the last item, and the blooms of all receipts but the last are kept as well.

  A panic is `none`.
-/
import Rbuilder.Building.PartialBlock
import Rbuilder.SparseMpt.ProofStore

namespace Building

open SparseMpt

/-- `alloy_primitives::Bloom`. -/
abbrev Bloom := BitVec 2048

/-- Hashing and encoding, from the libraries. -/
structure Encoders where
  keccak256 : Bytes → B256
  /-- `Bloom::accrue_log` on the empty filter. -/
  logBloom : Log → Bloom
  /-- `ReceiptWithBloom::encode_2718`. -/
  encodeReceipt : Receipt → Bloom → Bytes
  /-- `HashBuilder` of `alloy_trie`: the root of the leaves and the proof of a key. -/
  hashBuilder : List (Nibbles × Bytes) → Nibbles → B256 × List Bytes
  schedule : HashSchedule

abbrev LogBlooms := AList fun _ : Log => Bloom

structure ReceiptsDataCache where
  logs : LogBlooms := ∅
  trie : Trie := {}
  blockLogsBloomWithoutLastTx : Bloom := 0
  receiptsBloomWithoutLastTx : List Bloom := []

structure ReceiptsData where
  receiptsRoot : B256
  logsBloom : Bloom
  /-- Without the last transaction. -/
  prePaymentLogsBloom : Bloom
  placeholderReceiptProof : List Bytes

variable (enc : Encoders)

/-! ## Blooms -/

/-- The bloom of a log, remembered from the first time it is computed. -/
def cachedLogBloom (logs : LogBlooms) (log : Log) : LogBlooms × Bloom :=
  match logs.lookup log with
  | some bloom => (logs, bloom)
  | none => (logs.insert log (enc.logBloom log), enc.logBloom log)

/-- The loop over the logs of a receipt. -/
def receiptBloom : LogBlooms → Bloom → List Log → LogBlooms × Bloom
  | logs, bloom, [] => (logs, bloom)
  | logs, bloom, log :: rest =>
    let (logs, logBloom) := cachedLogBloom enc logs log
    receiptBloom logs (bloom ||| logBloom) rest

/-- The loop over the receipts: their blooms and the bloom of them all. -/
def receiptsBlooms : LogBlooms → List TransactionExecutionInfo → LogBlooms × List Bloom × Bloom
  | logs, [] => (logs, [], 0)
  | logs, info :: infos =>
    let (logs, bloom) := receiptBloom enc logs 0 info.receipt.logs
    let (logs, blooms, blockBloom) := receiptsBlooms logs infos
    (logs, bloom :: blooms, bloom ||| blockBloom)

/-! ## Roots -/

/-- The trie key of an index. -/
def indexKey (idx : Nat) : Bytes := encodeUint idx

/-- Insert the items at the indices from `idx` on. -/
def insertItems : Trie → Nat → List Bytes → Option Trie
  | trie, _, [] => some trie
  | trie, idx, item :: items =>
    match trie.insert (indexKey idx) item with
    | (trie, .ok _) => insertItems trie (idx + 1) items
    | (_, .error _) => none

/-- The root of the items and the proof of the last one, with the trie that is kept. -/
def rootAndPlaceholderProofWithCache (trie : Trie) (items : List Bytes)
    (adjustFinalizedBlock : Bool) : Option (Trie × B256 × List Bytes) := do
  let last ← items.getLast?
  let targetIdx := items.length - 1
  let trie ←
    if adjustFinalizedBlock then insertItems trie targetIdx [last]
    else insertItems trie.clearEmpty 0 items
  let (trie, root) := trie.rootHash enc.keccak256 (!adjustFinalizedBlock) enc.schedule.order {}
  let root ← root.toOption
  let proof ← (trie.getProofNibblesKey {} (unpack (indexKey targetIdx))).toOption
  return (trie, root, proof.proof.map (·.2))

/-- `alloy_trie::root::adjust_index_for_rlp`: the order of the indices by their RLP. -/
def adjustIndexForRlp (i len : Nat) : Nat :=
  if 0x7f < i then i
  else if i = 0x7f ∨ i + 1 = len then 0
  else i + 1

def orderedTrieRootAndProof (items : List Bytes) (proofIndex : Nat) : Option (B256 × List Bytes) := do
  let leaves ← (List.range items.length).mapM fun i => do
    let index := adjustIndexForRlp i items.length
    let item ← items[index]?
    return (unpack (indexKey index), item)
  return enc.hashBuilder leaves (unpack (indexKey proofIndex))

/-! ## Receipts -/

def calculateReceiptsRootAndPlaceholderProofWithCache (cache : ReceiptsDataCache)
    (receipts : List (Receipt × Bloom)) (adjustFinalizedBlock : Bool) :
    Option (ReceiptsDataCache × B256 × List Bytes) := do
  let (trie, root, proof) ← rootAndPlaceholderProofWithCache enc cache.trie
    (receipts.map fun r => enc.encodeReceipt r.1 r.2) adjustFinalizedBlock
  return ({ cache with trie }, root, proof)

def calculateReceiptsRootAndPlaceholderProofWithAlloy (receipts : List (Receipt × Bloom)) :
    Option (B256 × List Bytes) :=
  if receipts.isEmpty then none
  else orderedTrieRootAndProof enc (receipts.map fun r => enc.encodeReceipt r.1 r.2)
    (receipts.length - 1)

/-- The blooms of the receipts before the last: kept ones, or computed and kept. -/
def bloomsWithoutLastTx (cache : ReceiptsDataCache) (infos : List TransactionExecutionInfo)
    (adjustFinalizedBlocks : Bool) : ReceiptsDataCache :=
  if adjustFinalizedBlocks then cache
  else
    let (logs, blooms, blockBloom) := receiptsBlooms enc cache.logs infos.dropLast
    { cache with
      logs, blockLogsBloomWithoutLastTx := blockBloom, receiptsBloomWithoutLastTx := blooms }

def calculateReceiptsData (cache : ReceiptsDataCache) (infos : List TransactionExecutionInfo)
    (fastFinalize adjustFinalizedBlocks : Bool) : Option (ReceiptsDataCache × ReceiptsData) := do
  let last ← infos.getLast?
  let cache := bloomsWithoutLastTx enc cache infos adjustFinalizedBlocks
  let prePaymentLogsBloom := cache.blockLogsBloomWithoutLastTx
  let (logs, lastBloom) := receiptBloom enc cache.logs 0 last.receipt.logs
  let cache := { cache with logs }
  let receiptsBlooms := cache.receiptsBloomWithoutLastTx ++ [lastBloom]
  let receiptsWithBlooms := (infos.map (·.receipt)).zip receiptsBlooms
  let (cache, receiptsRoot, placeholderReceiptProof) ←
    if fastFinalize then
      calculateReceiptsRootAndPlaceholderProofWithCache enc cache receiptsWithBlooms
        adjustFinalizedBlocks
    else
      (calculateReceiptsRootAndPlaceholderProofWithAlloy enc receiptsWithBlooms).map (cache, ·)
  return (cache,
    { receiptsRoot, logsBloom := prePaymentLogsBloom ||| lastBloom, prePaymentLogsBloom,
      placeholderReceiptProof })

/-! ## Transactions -/

structure TransactionRootCache where
  trie : Trie := {}

def calculateTxRootAndPlaceholderProofWithCache (cache : TransactionRootCache)
    (infos : List TransactionExecutionInfo) (adjustFinalizedBlock : Bool) :
    Option (TransactionRootCache × B256 × List Bytes) := do
  let (trie, root, proof) ← rootAndPlaceholderProofWithCache enc cache.trie
    (infos.map (·.tx.encoding)) adjustFinalizedBlock
  return ({ trie }, root, proof)

def calculateTxRootAndPlaceholderProofWithAlloy (infos : List TransactionExecutionInfo) :
    Option (B256 × List Bytes) :=
  if infos.isEmpty then none
  else orderedTrieRootAndProof enc (infos.map (·.tx.encoding)) (infos.length - 1)

def calculateTxRootAndPlaceholderProof (cache : TransactionRootCache)
    (infos : List TransactionExecutionInfo) (fasterFinalize prefinalized : Bool) :
    Option (TransactionRootCache × B256 × List Bytes) :=
  if fasterFinalize then calculateTxRootAndPlaceholderProofWithCache enc cache infos prefinalized
  else (calculateTxRootAndPlaceholderProofWithAlloy enc infos).map (cache, ·)

end Building
