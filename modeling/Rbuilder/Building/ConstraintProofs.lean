/-
  Inclusion proofs of constraint transactions (`constraint_proofs.rs`,
  `constraint_proof_observer.rs`).

  After a block is submitted, its transactions are decoded from the payload and put into a
  trie of the library `eth_trie`, and the proofs of the appended constraint transactions are
  stored. The trie has the RLP of a transaction as its value, which is the network encoding:
  around a typed transaction there is the header of a string. The header of the block has
  the root of the EIP-2718 encodings, so the two roots are equal where every transaction is
  a legacy one.
-/
import Rbuilder.Building.Roots
import Rbuilder.SparseMpt.PartialTrie
import Rbuilder.Building.AllOrNothing

namespace Building

open SparseMpt.ProofStore (Decodes)
open List SparseMpt Patricia

/-! ## The library -/

/-- `eth_trie::EthTrie<MemoryDB>`. -/
structure EthTrie (τ ε : Type) where
  new : τ
  insert : Bytes → Bytes → τ → Except ε τ
  rootHash : τ → Except ε B256 × τ
  getProof : Bytes → τ → Except ε (List Bytes) × τ
  verifyProof : B256 → Bytes → List Bytes → Except ε (Option Bytes)

/-- What the library does: a trie holds a map, its root is the reference root, and the proof of
    a key verifies to the value of the key. -/
structure EthTrie.Laws {τ ε : Type} (eth : EthTrie τ ε) (keccak : Bytes → B256)
    (holds : τ → MptMap → Prop) : Prop where
  new : holds eth.new ∅
  insert : ∀ {t m key value}, holds t m → value ≠ [] → PrefixFree {k | k ∈ m.insert (unpack key) value} →
    ∃ t', eth.insert key value t = .ok t' ∧ holds t' (m.insert (unpack key) value)
  rootHash : ∀ {t m}, holds t m → ∃ t', eth.rootHash t = (.ok (mptRoot keccak m), t') ∧ holds t' m
  getProof : ∀ {t m key value}, holds t m → m.lookup (unpack key) = some value →
    ∃ proof t', eth.getProof key t = (.ok proof, t') ∧ holds t' m ∧
      eth.verifyProof (mptRoot keccak m) key proof = .ok (some value)

/-! ## The trie of the transactions -/

inductive ConstraintProofError (ε : Type) where
  | trieError (err : ε)
  | txNotFound (txIndex : Nat)
  | txHashNotFound (txHash : B256)
  | invalidProof

/-- `TransactionSigned`: what a transaction in a payload is decoded to. -/
structure TransactionSigned where
  hash : B256
  txType : TxType
  /-- `encode_2718`. -/
  encoding : Bytes

/-- `alloy_rlp::Encodable`, the network encoding: a typed transaction is a string. -/
def TransactionSigned.rlp (tx : TransactionSigned) : Bytes :=
  match tx.txType with
  | .legacy => tx.encoding
  | _ => encodeHeader false tx.encoding.length ++ tx.encoding

structure TransactionTrieBuilder (τ : Type) where
  trie : τ
  transactions : List B256

namespace TransactionTrieBuilder

variable {τ ε : Type} (eth : EthTrie τ ε)

/-- The loop of `build`, from the index `idx` on. -/
def addTransactions (builder : TransactionTrieBuilder τ) :
    Nat → List TransactionSigned → Except (ConstraintProofError ε) (TransactionTrieBuilder τ)
  | _, [] => .ok builder
  | idx, tx :: txs => do
    let trie ← (eth.insert (encodeUint idx) tx.rlp builder.trie).mapError .trieError
    addTransactions ⟨trie, builder.transactions ++ [tx.hash]⟩ (idx + 1) txs

def build (transactions : List TransactionSigned) :
    Except (ConstraintProofError ε) (TransactionTrieBuilder τ) :=
  addTransactions eth ⟨eth.new, []⟩ 0 transactions

def root (builder : TransactionTrieBuilder τ) :
    Except (ConstraintProofError ε) B256 × TransactionTrieBuilder τ :=
  let (root, trie) := eth.rootHash builder.trie
  (root.mapError .trieError, { builder with trie })

def getProof (txIndex : Nat) (builder : TransactionTrieBuilder τ) :
    Except (ConstraintProofError ε) (List Bytes) × TransactionTrieBuilder τ :=
  if builder.transactions.length ≤ txIndex then (.error (.txNotFound txIndex), builder)
  else
    let (proof, trie) := eth.getProof (encodeUint txIndex) builder.trie
    (proof.mapError .trieError, { builder with trie })

def findTxIndex (txHash : B256) (builder : TransactionTrieBuilder τ) :
    Except (ConstraintProofError ε) Nat :=
  match builder.transactions.findIdx? (· == txHash) with
  | some txIndex => .ok txIndex
  | none => .error (.txHashNotFound txHash)

end TransactionTrieBuilder

/-! ## The observer -/

structure ConstraintProof where
  txHash : B256
  txIndex : Nat
  proof : List Bytes
  transactionsRoot : B256
  blockNumber : UInt64
  slot : UInt64

inductive ProofGenerationError (ε : Type) where
  /-- `Failed to decode transaction: {e}`. -/
  | decode (err : String)
  /-- `No transactions in execution payload`. -/
  | noTransactions
  | constraintProof (err : ConstraintProofError ε)

section Observer

variable {τ ε : Type} (eth : EthTrie τ ε)

def extractTransactions (decode2718 : Bytes → Except String TransactionSigned)
    (txBytesList : List Bytes) : Except (ProofGenerationError ε) (List TransactionSigned) := do
  let transactions ← txBytesList.mapM fun txBytes => (decode2718 txBytes).mapError .decode
  if transactions.isEmpty then .error .noTransactions else return transactions

def generateSingleProof (txHash transactionsRoot : B256) (blockNumber slot : UInt64)
    (builder : TransactionTrieBuilder τ) :
    Except (ConstraintProofError ε) ConstraintProof × TransactionTrieBuilder τ :=
  match builder.findTxIndex txHash with
  | .error err => (.error err, builder)
  | .ok txIndex =>
    match builder.getProof eth txIndex with
    | (.error err, builder) => (.error err, builder)
    | (.ok proof, builder) =>
      (.ok { txHash, txIndex, proof, transactionsRoot, blockNumber, slot }, builder)

/-- The loop over the constraint transactions: the proofs that are stored. -/
def storeProofs (transactionsRoot : B256) (blockNumber slot : UInt64) :
    List B256 → TransactionTrieBuilder τ → List ConstraintProof
  | [], _ => []
  | txHash :: rest, builder =>
    match generateSingleProof eth txHash transactionsRoot blockNumber slot builder with
    | (.ok proof, builder) => proof :: storeProofs transactionsRoot blockNumber slot rest builder
    | (.error _, builder) => storeProofs transactionsRoot blockNumber slot rest builder

/-- The root that is computed from the payload, and the proofs that are stored. -/
def generateAndLogConstraintProofs (decode2718 : Bytes → Except String TransactionSigned)
    (txBytesList : List Bytes) (constraintTxHashes : List B256) (blockNumber slot : UInt64) :
    Except (ProofGenerationError ε) (B256 × List ConstraintProof) := do
  let transactions ← extractTransactions decode2718 txBytesList
  let builder ← (TransactionTrieBuilder.build eth transactions).mapError .constraintProof
  let (root, builder) := builder.root eth
  let transactionsRoot ← root.mapError .constraintProof
  return (transactionsRoot,
    storeProofs eth transactionsRoot blockNumber slot constraintTxHashes builder)

end Observer

/-! ## The root in the header -/

/-- Calls for the transactions root with one cache, a first one and then adjustments: the
    items that the cache keeps, the transactions of the last call, and its root. -/
inductive TxRoots (enc : Encoders) (fasterFinalize : Bool) :
    (Nat → Option Bytes) → TransactionRootCache → List TransactionExecutionInfo → B256 → Prop
  | finalized {cache cache' : TransactionRootCache} {infos : List TransactionExecutionInfo}
      {root : B256} {proof : List Bytes} (hlen : infos.length ≤ 2 ^ 64)
      (hcall : calculateTxRootAndPlaceholderProof enc cache infos fasterFinalize false =
        some (cache', root, proof)) :
      TxRoots enc fasterFinalize (fun i => (infos.map (·.tx.encoding))[i]?) cache' infos root
  | adjusted {kept : Nat → Option Bytes} {cache cache' : TransactionRootCache}
      {infos₀ infos : List TransactionExecutionInfo} {root₀ root : B256} {proof : List Bytes}
      (h : TxRoots enc fasterFinalize kept cache infos₀ root₀) (hlen : infos.length ≤ 2 ^ 64)
      (hcall : calculateTxRootAndPlaceholderProof enc cache infos fasterFinalize true =
        some (cache', root, proof)) :
      TxRoots enc fasterFinalize
        (Function.update kept (infos.length - 1) (infos.map (·.tx.encoding)).getLast?) cache' infos root

/-- The items whose root is in the header. -/
def headerItems (fasterFinalize : Bool) (kept : Nat → Option Bytes)
    (infos : List TransactionExecutionInfo) : Nat → Option Bytes :=
  if fasterFinalize then kept else fun i => (infos.map (·.tx.encoding))[i]?

section Header

variable {enc : Encoders} {fasterFinalize : Bool} {cache cache' : TransactionRootCache}
  {infos : List TransactionExecutionInfo} {root : B256} {kept : Nat → Option Bytes}

/-- One call: the root is that of the items in the header. -/
theorem calculateTxRoot_indexed (law : HashBuilderLaw enc) (kept : Nat → Option Bytes)
    (hlen : infos.length ≤ 2 ^ 64) {adjust : Bool} {proof : List Bytes}
    (hcall : calculateTxRootAndPlaceholderProof enc cache infos fasterFinalize adjust =
      some (cache', root, proof))
    (hkeeps : fasterFinalize = true → adjust = true → TrieKeeps enc cache.trie kept) :
    (fasterFinalize = true →
        TrieKeeps enc cache'.trie (keptAfter adjust kept (infos.map (·.tx.encoding)))) ∧
      ∃ m, Indexed m (headerItems fasterFinalize
          (keptAfter adjust kept (infos.map (·.tx.encoding))) infos) ∧
        root = mptRoot enc.keccak256 m := by
  have hlen : (infos.map (·.tx.encoding)).length ≤ 2 ^ 64 := by rwa [length_map]
  cases fasterFinalize with
  | true =>
    obtain ⟨⟨trie', root', proof'⟩, hcached, hres⟩ := Option.bind_eq_some_iff.mp hcall
    cases hres
    obtain ⟨hkept, hroot⟩ := rootAndPlaceholderProof_indexed hlen hcached (hkeeps rfl)
    exact ⟨fun _ => hkept, hroot⟩
  | false =>
    refine ⟨fun hfalse => (by cases hfalse), ?_⟩
    obtain ⟨⟨root', proof'⟩, halloy, hres⟩ := Option.map_eq_some_iff.mp hcall
    cases hres
    unfold calculateTxRootAndPlaceholderProofWithAlloy at halloy
    split at halloy
    · cases halloy
    · exact orderedTrieRootAndProof_indexed law hlen halloy

theorem TxRoots.indexed (law : HashBuilderLaw enc)
    (h : TxRoots enc fasterFinalize kept cache infos root) :
    (fasterFinalize = true → TrieKeeps enc cache.trie kept) ∧
      ∃ m, Indexed m (headerItems fasterFinalize kept infos) ∧ root = mptRoot enc.keccak256 m := by
  induction h with
  | finalized hlen hcall =>
    exact calculateTxRoot_indexed law (fun _ => none) hlen hcall fun _ hfalse => (by cases hfalse)
  | @adjusted kept _ _ _ infos _ _ _ _ hlen hcall ih =>
    have hnext := calculateTxRoot_indexed law kept hlen hcall fun hfaster _ => ih.1 hfaster
    rwa [keptAfter, if_pos rfl, length_map] at hnext

end Header

/-! ## Encodings -/

/-- EIP-2718: a legacy transaction is an RLP list, a typed one starts with its type. -/
def IsEncoding (txType : TxType) (encoding : Bytes) : Prop :=
  encoding.length < 2 ^ 64 ∧ ∃ b rest, encoding = b :: rest ∧
    if txType = .legacy then 0xc0 ≤ b.toNat else b.toNat < 0x80

/-- The first byte of the header of a string is between those of types and lists. -/
theorem encodeHeader_string {len : Nat} (h : len < 2 ^ 64) :
    ∃ b rest, encodeHeader false len = b :: rest ∧ 0x80 ≤ b.toNat ∧ b.toNat < 0xc0 := by
  by_cases hshort : len < 56
  · refine ⟨_, [], if_pos hshort, ?_⟩
    rw [if_neg Bool.false_ne_true, toNat_stringCode hshort]
    omega
  refine ⟨_, _, if_neg hshort, ?_⟩
  have hbytes := length_toBeBytes_le h
  rw [if_neg Bool.false_ne_true, UInt8.toNat_ofNat']
  omega

section Encodings

variable {tx : TransactionSigned}

theorem TransactionSigned.rlp_of_legacy (h : tx.txType = .legacy) : tx.rlp = tx.encoding := by
  rw [rlp, h]

theorem TransactionSigned.rlp_of_typed (h : tx.txType ≠ .legacy) :
    tx.rlp = encodeHeader false tx.encoding.length ++ tx.encoding := by
  unfold rlp
  cases htype : tx.txType with
  | legacy => exact absurd htype h
  | eip2930 | eip1559 | eip4844 | eip7702 => rfl

theorem TransactionSigned.rlp_ne_nil (h : IsEncoding tx.txType tx.encoding) : tx.rlp ≠ [] := by
  obtain ⟨-, b, rest, henc, -⟩ := h
  by_cases hlegacy : tx.txType = .legacy
  · rw [rlp_of_legacy hlegacy, henc]
    exact cons_ne_nil _ _
  · rw [rlp_of_typed hlegacy, henc]
    exact append_ne_nil_of_right_ne_nil _ (cons_ne_nil _ _)

/-- The RLP of a typed transaction is no encoding of any transaction. -/
theorem TransactionSigned.legacy_of_rlp_eq (h : IsEncoding tx.txType tx.encoding) {txType : TxType}
    {encoding : Bytes} (h' : IsEncoding txType encoding) (heq : tx.rlp = encoding) :
    tx.txType = .legacy := by
  by_contra htyped
  obtain ⟨-, b', rest', henc', hb'⟩ := h'
  obtain ⟨b, rest, hheader, hge, hlt⟩ := encodeHeader_string h.1
  rw [rlp_of_typed htyped, hheader, henc', cons_append] at heq
  obtain ⟨rfl, -⟩ := cons.inj heq
  split at hb'
  · omega
  · omega

end Encodings

/-! ## What the observer does -/

section Observed

variable {τ ε : Type} {eth : EthTrie τ ε} {keccak : Bytes → B256} {holds : τ → MptMap → Prop}

namespace TransactionTrieBuilder

/-- The trie has the RLP of the transactions at their indices. -/
def Built (holds : τ → MptMap → Prop) (kept : Nat → Option Bytes) (hashes : List B256)
    (builder : TransactionTrieBuilder τ) : Prop :=
  (∃ m, holds builder.trie m ∧ Indexed m kept) ∧ builder.transactions = hashes

variable {builder : TransactionTrieBuilder τ}

theorem addTransactions_built (laws : eth.Laws keccak holds) {kept : Nat → Option Bytes}
    {hashes : List B256} {idx : Nat} {txs : List TransactionSigned}
    (henc : ∀ tx ∈ txs, IsEncoding tx.txType tx.encoding) (hlen : idx + txs.length ≤ 2 ^ 64)
    (h : Built holds kept hashes builder) :
    ∃ builder', addTransactions eth builder idx txs = .ok builder' ∧
      Built holds (overwrite kept idx (txs.map (·.rlp))) (hashes ++ txs.map (·.hash)) builder' := by
  induction txs generalizing idx kept hashes builder with
  | nil =>
    refine ⟨builder, rfl, ?_⟩
    rw [map_nil, map_nil, append_nil]
    exact h
  | cons tx txs ih =>
    obtain ⟨⟨m, hholds, hindexed⟩, hhashes⟩ := h
    rw [length_cons] at hlen
    have hnext := hindexed.insert (show idx < 2 ^ 64 by omega) tx.rlp
    obtain ⟨trie, hinsert, hholds'⟩ := laws.insert hholds
      (TransactionSigned.rlp_ne_nil (henc tx mem_cons_self)) hnext.prefixFree
    obtain ⟨builder', hrest, hbuilt⟩ := ih (fun t ht => henc t (mem_cons_of_mem _ ht))
      (show idx + 1 + txs.length ≤ 2 ^ 64 by omega)
      (⟨⟨_, hholds', hnext⟩, rfl⟩ : Built holds _ _ ⟨trie, builder.transactions ++ [tx.hash]⟩)
    refine ⟨builder', ?_, ?_⟩
    · have hinsert : eth.insert (encodeUint idx) tx.rlp builder.trie = .ok trie := hinsert
      rw [addTransactions, hinsert]
      exact hrest
    · rw [hhashes, append_assoc] at hbuilt
      exact hbuilt

theorem findTxIndex_eq_ok {txHash : B256} {idx : Nat}
    (h : (builder.findTxIndex txHash : Except (ConstraintProofError ε) Nat) = .ok idx) :
    builder.transactions[idx]? = some txHash := by
  unfold findTxIndex at h
  cases hfind : builder.transactions.findIdx? (· == txHash) with
  | none =>
    rw [hfind] at h
    cases h
  | some found =>
    rw [hfind] at h
    cases h
    obtain ⟨hlt, heq, -⟩ := findIdx?_eq_some_iff_getElem.mp hfind
    rw [getElem?_eq_getElem hlt, beq_iff_eq.mp heq]

end TransactionTrieBuilder

variable {txs : List TransactionSigned}

/-- Each proof that is stored verifies to the RLP of the transaction. -/
theorem storeProofs_verify (laws : eth.Laws keccak holds) (hlen : txs.length ≤ 2 ^ 64)
    {root transactionsRoot : B256} {blockNumber slot : UInt64} (txHashes : List B256)
    {builder : TransactionTrieBuilder τ}
    (h : ∃ m, holds builder.trie m ∧ Indexed m (fun i => (txs.map (·.rlp))[i]?) ∧
      root = mptRoot keccak m)
    (hhashes : builder.transactions = txs.map (·.hash)) :
    ∀ p ∈ storeProofs eth transactionsRoot blockNumber slot txHashes builder,
      ∃ tx, txs[p.txIndex]? = some tx ∧ tx.hash = p.txHash ∧
        eth.verifyProof root (encodeUint p.txIndex) p.proof = .ok (some tx.rlp) := by
  induction txHashes generalizing builder with
  | nil => exact fun _ hmem => (not_mem_nil hmem).elim
  | cons txHash rest ih =>
    intro p hmem
    unfold storeProofs generateSingleProof at hmem
    cases hfind : (builder.findTxIndex txHash : Except (ConstraintProofError ε) Nat) with
    | error err =>
      rw [hfind] at hmem
      exact ih h hhashes p hmem
    | ok idx =>
      rw [hfind] at hmem
      obtain ⟨m, hholds, hindexed, hroot⟩ := h
      -- the transaction at the index, and its item
      have hat := TransactionTrieBuilder.findTxIndex_eq_ok hfind
      rw [hhashes, getElem?_map] at hat
      obtain ⟨tx, htx, hhash⟩ := Option.map_eq_some_iff.mp hat
      obtain ⟨hlt, -⟩ := List.getElem?_eq_some_iff.mp htx
      have hlookup : m.lookup (unpack (encodeUint idx)) = some tx.rlp := by
        have hitem := hindexed.items idx (Nat.lt_of_lt_of_le hlt hlen)
        rw [getElem?_map, htx] at hitem
        exact hitem
      obtain ⟨proof, trie, hproof, hholds', hverify⟩ := laws.getProof hholds hlookup
      have hnot : ¬ builder.transactions.length ≤ idx := by
        rw [hhashes, length_map]
        omega
      dsimp only at hmem
      rw [TransactionTrieBuilder.getProof, if_neg hnot, hproof] at hmem
      obtain rfl | hmem := mem_cons.mp hmem
      · exact ⟨tx, htx, hhash, by rw [hroot]; exact hverify⟩
      · exact ih (by exact ⟨m, hholds', hindexed, hroot⟩) (by exact hhashes) p hmem

/-- The observer computes the root of the RLP of the transactions. -/
theorem generateAndLogConstraintProofs_ok (laws : eth.Laws keccak holds) (hne : txs ≠ [])
    (hlen : txs.length ≤ 2 ^ 64) (henc : ∀ tx ∈ txs, IsEncoding tx.txType tx.encoding)
    {decode2718 : Bytes → Except String TransactionSigned}
    (hdecode : ∀ tx ∈ txs, decode2718 tx.encoding = .ok tx) (txHashes : List B256)
    (blockNumber slot : UInt64) :
    ∃ m proofs, Indexed m (fun i => (txs.map (·.rlp))[i]?) ∧
      generateAndLogConstraintProofs eth decode2718 (txs.map (·.encoding)) txHashes blockNumber slot =
        .ok (mptRoot keccak m, proofs) ∧
      ∀ p ∈ proofs, ∃ tx, txs[p.txIndex]? = some tx ∧ tx.hash = p.txHash ∧
        eth.verifyProof (mptRoot keccak m) (encodeUint p.txIndex) p.proof = .ok (some tx.rlp) := by
  have hextract : (extractTransactions decode2718 (txs.map (·.encoding)) :
      Except (ProofGenerationError ε) _) = .ok txs := by
    have hmapM : ((txs.map (·.encoding)).mapM fun txBytes =>
        (decode2718 txBytes).mapError (ProofGenerationError.decode (ε := ε))) = .ok (txs.map id) :=
      mapM_map_eq_pure fun tx htx => by rw [hdecode tx htx]; rfl
    rw [extractTransactions, hmapM, map_id]
    have hempty : txs.isEmpty = false := by simpa using hne
    change (if txs.isEmpty then _ else _) = _
    rw [if_neg (by rw [hempty]; exact Bool.false_ne_true)]
    rfl
  obtain ⟨builder, hbuild, ⟨m, hholds, hindexed⟩, hhashes⟩ :=
    TransactionTrieBuilder.addTransactions_built laws henc (by omega : 0 + txs.length ≤ 2 ^ 64)
      (⟨⟨∅, laws.new, indexed_empty⟩, rfl⟩ : TransactionTrieBuilder.Built holds _ [] ⟨eth.new, []⟩)
  rw [overwrite_none] at hindexed
  obtain ⟨trie, hroot, hholds'⟩ := laws.rootHash hholds
  have hbuild : TransactionTrieBuilder.build eth txs = .ok builder := hbuild
  refine ⟨m, storeProofs eth (mptRoot keccak m) blockNumber slot txHashes
    { builder with trie }, hindexed, ?_, ?_⟩
  · rw [generateAndLogConstraintProofs, hextract]
    simp only [hbuild, Except.mapError, bind, Except.bind, TransactionTrieBuilder.root, hroot]
    rfl
  · exact storeProofs_verify laws hlen txHashes ⟨m, hholds', hindexed, rfl⟩ hhashes

end Observed

/-! ## The header and the proofs -/

/-- What a payload has of a transaction. -/
def Tx.signed (tx : Tx) : TransactionSigned := ⟨tx.hash, tx.txType, tx.encoding⟩

/-- The observer computes the root of the header, and each proof that it stores verifies
    against it to the encoding of the transaction. -/
def ProofsOpenHeader {τ ε : Type} (eth : EthTrie τ ε)
    (decode2718 : Bytes → Except String TransactionSigned) (infos : List TransactionExecutionInfo)
    (txHashes : List B256) (blockNumber slot : UInt64) (headerRoot : B256) : Prop :=
  ∃ proofs, generateAndLogConstraintProofs eth decode2718 (infos.map (·.tx.encoding)) txHashes
      blockNumber slot = .ok (headerRoot, proofs) ∧
    ∀ p ∈ proofs, ∃ info, infos[p.txIndex]? = some info ∧ info.tx.hash = p.txHash ∧
      eth.verifyProof headerRoot (encodeUint p.txIndex) p.proof = .ok (some info.tx.encoding)

/-- Nodes of the tries of two lists of items can be read back, and `keccak256` tells them
    apart. -/
def Binding (keccak : Bytes → B256) (decode : Bytes → Option AlloyTrieNode)
    (items items' : Nat → Option Bytes) : Prop :=
  ∀ m m', Indexed m items → Indexed m' items' →
    Decodes (nodeCodec keccak) (ofMap m) decode ∧
      Decodes (nodeCodec keccak) (ofMap m') decode ∧
      Separates keccak (ofMap m) (ofMap m')

section OpenHeader

variable {τ ε : Type} {eth : EthTrie τ ε} {enc : Encoders} {holds : τ → MptMap → Prop}
  {fasterFinalize : Bool} {kept : Nat → Option Bytes} {cache : TransactionRootCache}
  {infos : List TransactionExecutionInfo} {root : B256}

theorem TxRoots.ne_nil (h : TxRoots enc fasterFinalize kept cache infos root) :
    infos ≠ [] ∧ infos.length ≤ 2 ^ 64 := by
  have hne {cache cache' : TransactionRootCache} {infos : List TransactionExecutionInfo}
      {root : B256} {proof : List Bytes} {adjust : Bool}
      (hcall : calculateTxRootAndPlaceholderProof enc cache infos fasterFinalize adjust =
        some (cache', root, proof)) : infos ≠ [] := by
    rintro rfl
    cases fasterFinalize with
    | true | false => cases hcall
  cases h with
  | finalized hlen hcall | adjusted _ hlen hcall => exact ⟨hne hcall, hlen⟩

/-- The proofs open the header exactly where every transaction is a legacy one and the header
    has the root of these transactions. -/
theorem constraint_proofs_open_header_iff (laws : eth.Laws enc.keccak256 holds)
    (builderLaw : HashBuilderLaw enc) (hroots : TxRoots enc fasterFinalize kept cache infos root)
    (henc : ∀ info ∈ infos, IsEncoding info.tx.txType info.tx.encoding)
    (hkept : ∀ i encoding, kept i = some encoding → ∃ txType, IsEncoding txType encoding)
    {decode2718 : Bytes → Except String TransactionSigned}
    (hdecode : ∀ info ∈ infos, decode2718 info.tx.encoding = .ok info.tx.signed)
    {decode : Bytes → Option AlloyTrieNode}
    (hbinding : Binding enc.keccak256 decode (headerItems fasterFinalize kept infos)
      fun i => (infos.map (·.tx.signed.rlp))[i]?)
    (txHashes : List B256) (blockNumber slot : UInt64) :
    ProofsOpenHeader eth decode2718 infos txHashes blockNumber slot root ↔
      (∀ info ∈ infos, info.tx.txType = .legacy) ∧
        ∀ i < 2 ^ 64, headerItems fasterFinalize kept infos i = (infos.map (·.tx.encoding))[i]? := by
  obtain ⟨m, hindexed, hroot⟩ := (hroots.indexed builderLaw).2
  obtain ⟨hne, hlen⟩ := hroots.ne_nil
  have hitems : (infos.map (·.tx.signed)).map (·.encoding) = infos.map (·.tx.encoding) := by
    rw [map_map]
    rfl
  have hrlps : (infos.map (·.tx.signed)).map (·.rlp) = infos.map (·.tx.signed.rlp) := by
    rw [map_map]
    rfl
  have hplain (hlegacy : ∀ info ∈ infos, info.tx.txType = .legacy) :
      infos.map (·.tx.signed.rlp) = infos.map (·.tx.encoding) :=
    map_congr_left fun info hmem => TransactionSigned.rlp_of_legacy (hlegacy info hmem)
  obtain ⟨m', proofs, hindexed', hobserved, hverify⟩ := generateAndLogConstraintProofs_ok laws
    (show infos.map (·.tx.signed) ≠ [] by simpa using hne) (by simpa using hlen)
    (forall_mem_map.mpr henc) (forall_mem_map.mpr hdecode) txHashes blockNumber slot
  rw [hitems] at hobserved
  rw [hrlps] at hindexed'
  obtain ⟨hdec, hdec', hsep⟩ := hbinding m m' hindexed hindexed'
  constructor
  · -- equal roots are roots of the same items, and no RLP of a typed transaction is one
    rintro ⟨proofs', hproofs, -⟩
    have hroots : mptRoot enc.keccak256 m' = root :=
      congrArg Prod.fst (Except.ok.inj (hobserved.symm.trans hproofs))
    have hsame (i : Nat) (hi : i < 2 ^ 64) :
        headerItems fasterFinalize kept infos i = (infos.map (·.tx.signed.rlp))[i]? := by
      rw [← hindexed.items i hi, ← hindexed'.items i hi]
      exact lookup_eq_of_mptRoot_eq hindexed.prefixFree hindexed'.prefixFree hdec hdec'
        hsep (hroot.symm.trans hroots.symm) _
    have hlegacy : ∀ info ∈ infos, info.tx.txType = .legacy := by
      intro info hmem
      obtain ⟨i, hi⟩ := mem_iff_getElem?.mp hmem
      obtain ⟨hlt, -⟩ := List.getElem?_eq_some_iff.mp hi
      have hitem := hsame i (Nat.lt_of_lt_of_le hlt hlen)
      rw [getElem?_map, hi, Option.map_some] at hitem
      have hencoding : ∃ txType, IsEncoding txType info.tx.signed.rlp := by
        unfold headerItems at hitem
        cases fasterFinalize with
        | true => exact hkept i _ hitem
        | false =>
          rw [if_neg Bool.false_ne_true, getElem?_map, hi, Option.map_some] at hitem
          exact ⟨info.tx.txType, Option.some.inj hitem ▸ henc info hmem⟩
      obtain ⟨txType, hencoding⟩ := hencoding
      exact TransactionSigned.legacy_of_rlp_eq (henc info hmem) hencoding rfl
    exact ⟨hlegacy, fun i hi => by rw [hsame i hi, hplain hlegacy]⟩
  · rintro ⟨hlegacy, hheader⟩
    rw [hplain hlegacy] at hindexed'
    have hitems : Indexed m fun i => (infos.map (·.tx.encoding))[i]? :=
      ⟨hindexed.keys, fun i hi => by rw [hindexed.items i hi, hheader i hi]⟩
    have hsame : mptRoot enc.keccak256 m' = root := by
      rw [hroot, Trie.mptRoot_congr hindexed'.prefixFree (hindexed'.lookup_eq hitems)]
    rw [hsame] at hobserved hverify
    refine ⟨proofs, hobserved, fun p hp => ?_⟩
    obtain ⟨tx, htx, hhash, hvalue⟩ := hverify p hp
    rw [getElem?_map] at htx
    obtain ⟨info, hinfo, rfl⟩ := Option.map_eq_some_iff.mp htx
    refine ⟨info, hinfo, hhash, ?_⟩
    rw [hvalue, TransactionSigned.rlp_of_legacy (hlegacy info (mem_of_getElem? hinfo))]
    rfl

end OpenHeader

/-! ### Examples

  A library that keeps a map. A proof lists the entries, and is verified by their root. -/

def listEntries (m : MptMap) : List Bytes :=
  m.entries.flatMap fun e => [e.1.map (·.val.toUInt8), e.2]

def readEntries : List Bytes → MptMap
  | key :: value :: rest => (readEntries rest).insert (key.map fun b => Fin.ofNat 16 b.toNat) value
  | _ => ∅

theorem lookup_readEntries (m : MptMap) (k : Nibbles) :
    (readEntries (listEntries m)).lookup k = m.lookup k := by
  have hnibble : ∀ i : SparseMpt.Nibble, Fin.ofNat 16 i.val.toUInt8.toNat = i := by decide
  unfold listEntries AList.lookup
  induction m.entries with
  | nil => rfl
  | cons e entries ih =>
    have hkey : (e.1.map (·.val.toUInt8)).map (fun b => Fin.ofNat 16 b.toNat) = e.1 := by
      rw [map_map]
      exact (map_congr_left fun i _ => hnibble i).trans (map_id _)
    change (AList.insert _ _ _).lookup k = _
    rw [AList.lookup_insert_eq_ite, hkey]
    split_ifs with hk
    · rw [hk, dlookup_cons_eq]
    · rw [dlookup_cons_ne _ _ hk]
      exact ih

def mapLibrary (keccak : Bytes → B256) : EthTrie MptMap Unit where
  new := ∅
  insert key value m := .ok (m.insert (unpack key) value)
  rootHash m := (.ok (mptRoot keccak m), m)
  getProof _ m := (.ok (listEntries m), m)
  verifyProof root key proof :=
    if mptRoot keccak (readEntries proof) = root then .ok ((readEntries proof).lookup (unpack key))
    else .error ()

theorem mapLibrary_laws (keccak : Bytes → B256) :
    (mapLibrary keccak).Laws keccak fun t m => t = m ∧ PrefixFree {k | k ∈ m} where
  new := ⟨rfl, fun k hk => absurd hk (AList.notMem_empty k)⟩
  insert := by
    rintro t m key value ⟨rfl, -⟩ - hfree
    exact ⟨_, rfl, rfl, hfree⟩
  rootHash := by
    rintro t m ⟨rfl, hfree⟩
    exact ⟨t, rfl, rfl, hfree⟩
  getProof := by
    rintro t m key value ⟨rfl, hfree⟩ hlookup
    refine ⟨_, t, rfl, ⟨rfl, hfree⟩, ?_⟩
    have hroot : mptRoot keccak (readEntries (listEntries t)) = mptRoot keccak t :=
      (Trie.mptRoot_congr hfree fun k => (lookup_readEntries t k).symm).symm
    exact (if_pos hroot).trans (by rw [lookup_readEntries, hlookup])

def leavesMap (leaves : List (Nibbles × Bytes)) : MptMap :=
  (leaves.map fun leaf => (⟨leaf.1, leaf.2⟩ : Sigma fun _ : Nibbles => Bytes)).toAList

def mapEncoders : Encoders where
  keccak256 := emptyRootKeccak
  logBloom _ := 0
  encodeReceipt _ _ := []
  hashBuilder leaves _ := (mptRoot emptyRootKeccak (leavesMap leaves), [])
  schedule := .inOrder

theorem mapEncoders_hashBuilderLaw : HashBuilderLaw mapEncoders := by
  intro leaves target m hordered hfree hleaves
  change mptRoot emptyRootKeccak (leavesMap leaves) = mptRoot emptyRootKeccak m
  refine (Trie.mptRoot_congr hfree fun k => ?_).symm
  have hnodup : (leaves.map fun leaf =>
      (⟨leaf.1, leaf.2⟩ : Sigma fun _ : Nibbles => Bytes)).NodupKeys := by
    rw [nodupKeys_iff_pairwise, pairwise_map]
    refine hordered.imp fun {a b} hlt heq => ?_
    have heq : a.1 = b.1 := heq
    rw [heq] at hlt
    exact lt_irrefl _ hlt
  rw [leavesMap, AList.lookup_to_alist]
  ext v
  rw [← Option.mem_def (b := dlookup k _), mem_dlookup_iff hnodup, hleaves, mem_map]
  constructor
  · exact fun hmem => ⟨(k, v), hmem, rfl⟩
  · rintro ⟨leaf, hmem, heq⟩
    cases heq
    exact hmem

/-- An executed transaction with an encoding. -/
def encodedInfo (txType : TxType) (encoding : Bytes) : TransactionExecutionInfo where
  tx := { userTx 0 shop 5 with hash := emptyRootKeccak encoding, txType, encoding }
  receipt := ⟨txType, true, 21000, []⟩
  spaceUsed := .zero
  coinbaseProfit := 0

def legacyEncodings : List Bytes := [[0xc1, 0x61], [0xc1, 0x62]]

/-- A block of two legacy transactions. -/
def legacyBlock : List TransactionExecutionInfo := legacyEncodings.map (encodedInfo .legacy)

def legacyDecoder (encoding : Bytes) : Except String TransactionSigned :=
  .ok (encodedInfo .legacy encoding).tx.signed

/-- The items of the block are in the trie of two leaves. -/
theorem ofMap_of_indexed_pair {m : MptMap} {item item' : Bytes}
    (h : Indexed m fun i => [item, item'][i]?) :
    ofMap m = leafPair (8, [0], item) (0, [1], item') := by
  have hne : (8 : SparseMpt.Nibble) ≠ 0 := by decide
  refine ofMap_eq_leafPair h.prefixFree hne fun q => ?_
  change _ = if q = itemKey 0 then _ else if q = itemKey 1 then _ else _
  by_cases hq : ∃ i < 2 ^ 64, q = itemKey i
  · obtain ⟨i, hi, rfl⟩ := hq
    rw [h.items i hi]
    rcases i with _ | _ | i
    · rfl
    · rfl
    have hkey {j : Nat} (hj : j < 2) : itemKey (i + 2) ≠ itemKey j := fun heq => by
      have := itemKey_injective hi (by omega) heq
      omega
    rw [if_neg (hkey (by decide)), if_neg (hkey (by decide))]
    rfl
  · have hne {j : Nat} (hj : j < 2) : q ≠ itemKey j := fun heq => hq ⟨j, by omega, heq⟩
    rw [AList.lookup_eq_none.mpr fun hmem => hq (h.keys q hmem), if_neg (hne (by decide)),
      if_neg (hne (by decide))]

theorem legacyBlock_binding :
    Binding emptyRootKeccak (decodeNodes emptyRootKeccak
        (leafPairNodes (8, [0], [0xc1, 0x61]) (0, [1], [0xc1, 0x62])))
      (headerItems false (fun i => (legacyBlock.map (·.tx.encoding))[i]?) legacyBlock)
      fun i => (legacyBlock.map (·.tx.signed.rlp))[i]? := by
  intro m m' hm hm'
  rw [ofMap_of_indexed_pair hm, ofMap_of_indexed_pair hm']
  have hnodup : ((leafPairNodes (8, [0], [0xc1, 0x61]) (0, [1], [0xc1, 0x62])).map fun n =>
      emptyRootKeccak (n.encode (nodeCodec emptyRootKeccak))).Nodup := by decide +kernel
  exact ⟨decodes_leafPair hnodup, decodes_leafPair hnodup,
    separates_leafPair hnodup⟩

/-- The proofs of legacy transactions open the header. -/
theorem constraint_proofs_open_header_iff_legacy :
    ∃ root, calculateTxRootAndPlaceholderProof mapEncoders {} legacyBlock false false =
        some ({}, root, []) ∧
      ProofsOpenHeader (mapLibrary emptyRootKeccak) legacyDecoder legacyBlock
        (legacyBlock.map (·.tx.hash)) 7 8 root := by
  obtain ⟨root, hcall⟩ : ∃ root, calculateTxRootAndPlaceholderProof mapEncoders {} legacyBlock false
      false = some ({}, root, []) := ⟨_, rfl⟩
  have hencoding : ∀ encoding ∈ legacyEncodings, IsEncoding .legacy encoding := by
    intro encoding hmem
    rcases hmem with _ | ⟨_, _ | ⟨_, hnil⟩⟩
    · exact ⟨by decide, 0xc1, _, rfl, by decide⟩
    · exact ⟨by decide, 0xc1, _, rfl, by decide⟩
    · cases hnil
  have hroots : TxRoots mapEncoders false (fun i => (legacyBlock.map (·.tx.encoding))[i]?) {}
      legacyBlock root := .finalized (by decide) hcall
  have hkept : ∀ (i : Nat) (encoding : Bytes), (legacyBlock.map (·.tx.encoding))[i]? = some encoding →
      ∃ txType, IsEncoding txType encoding := fun i encoding hitem =>
    ⟨.legacy, hencoding encoding (mem_of_getElem? hitem)⟩
  exact ⟨root, hcall, (constraint_proofs_open_header_iff (mapLibrary_laws mapEncoders.keccak256)
    mapEncoders_hashBuilderLaw hroots (forall_mem_map.mpr hencoding) hkept
    (forall_mem_map.mpr fun _ _ => rfl) legacyBlock_binding _ _ _).mpr
    ⟨forall_mem_map.mpr fun _ _ => rfl, fun _ _ => rfl⟩⟩

/-- A block of one EIP-1559 transaction: the observer computes another root than the header
    has. -/
theorem typed_transaction_has_other_root :
    ∃ cache root root' placeholder proofs,
      calculateTxRootAndPlaceholderProof mapEncoders {} [encodedInfo .eip1559 [0x02, 0x61]] true false =
        some (cache, root, placeholder) ∧
      generateAndLogConstraintProofs (mapLibrary emptyRootKeccak)
        (fun bytes => .ok (encodedInfo .eip1559 bytes).tx.signed) [[0x02, 0x61]]
        [emptyRootKeccak [0x02, 0x61]] 7 8 = .ok (root', proofs) ∧
      root' ≠ root :=
  ⟨_, _, _, _, _, rfl, rfl, by decide +kernel⟩

end Building
