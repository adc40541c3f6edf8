/-
  The relay submission job, with the constraint proof observer and its storage.

  The job submits every block it takes, unless the block has the hash of the last one. It
  builds a regular and an optimistic request, as the relays and the bid value ask for. The
  observer is notified of the regular request, and then of the request for the optimistic
  relays, which is the regular one again when there is no optimistic one
  (`notifications`). The storage keeps a proof for every notification, for the last ten
  slots (`storage_keeps_newest_slots`): a slot that was removed is smaller than all others from
  then on, so it does not come back with a part of its proofs.

  `blocks_reported_once_iff`: one notification a block, and with it at most one proof a
  transaction, is what a job gives whose regular requests are not built.
-/
import Rbuilder.Building.ConstraintProofs
import Rbuilder.Building.Helper
import Rbuilder.HashMap
import Mathlib.Data.List.ReduceOption

namespace Building.RelaySubmit

open SparseMpt List AList

/-! ## The job -/

structure Relay where
  id : String
  optimistic : Bool

structure OptimisticConfig (σ : Type) where
  signer : σ
  maxBidValue : Nat

structure SubmissionConfig (σ : Type) where
  signer : σ
  optimisticConfig : Option (OptimisticConfig σ)

/-- What a job is started with, and what it takes from the libraries. -/
structure SubmitJob (σ : Type) where
  config : SubmissionConfig σ
  relays : List Relay
  /-- `SealedBlock::hash`. -/
  hash : SealedBlock → B256
  /-- `sign_block_for_relay` and `into_request`; the signature. -/
  sign : σ → Block → Except String Bytes

/-- `AlloySubmitBlockRequest`: the signature, and what the observer reads of the payload. -/
structure SubmitBlockRequest where
  signature : Bytes
  blockHash : B256
  transactions : List Bytes

section Job

variable {σ : Type} (job : SubmitJob σ)

def createSubmitBlockRequest (signer : σ) (block : Block) : Except String SubmitBlockRequest := do
  let signature ← job.sign signer block
  return { signature, blockHash := job.hash block.sealedBlock,
           transactions := block.sealedBlock.transactions.map Tx.encoding }

/-- The regular and the optimistic request for a block. -/
def createRequests (block : Block) : Option SubmitBlockRequest × Option SubmitBlockRequest :=
  let optimisticConfig := job.config.optimisticConfig.filter fun c =>
    block.trace.bidValue < c.maxBidValue
  let (regularRelays, optimisticRelays) := job.relays.partition fun relay => !relay.optimistic
  let regular :=
    if optimisticConfig.isNone || !regularRelays.isEmpty then
      (createSubmitBlockRequest job job.config.signer block).toOption
    else none
  let optimistic := (optimisticConfig.filter fun _ => !optimisticRelays.isEmpty).bind fun c =>
    (createSubmitBlockRequest job c.signer block).toOption
  (regular, optimistic)

/-- The calls of `block_submitted` for a block. -/
def notifications (block : Block) : List (SubmitBlockRequest × BuiltBlockTrace) :=
  let (regular, optimistic) := createRequests job block
  -- non-optimistic submission to optimistic relays
  (regular.toList ++ (optimistic.or regular).toList).map fun request => (request, block.trace)

structure SubmitState where
  lastBidHash : Option B256 := none
  /-- `BuiltBlockInfo`: the bid value and the true bid value. -/
  res : Option (Nat × Nat) := none
  notified : List (SubmitBlockRequest × BuiltBlockTrace) := []

/-- One round of the loop, with what was taken from the pending cell. -/
def submitStep (state : SubmitState) : Option Block → SubmitState
  | none => state
  | some block =>
    if state.lastBidHash = some (job.hash block.sealedBlock) then state
    else
      { lastBidHash := some (job.hash block.sealedBlock)
        res := some (block.trace.bidValue, block.trace.trueBidValue)
        notified := state.notified ++ notifications job block }

def runSubmitToRelaysJob (taken : List (Option Block)) : SubmitState :=
  taken.foldl (submitStep job) {}

end Job

/-! ## The observer and the storage -/

/-- `ConstraintProofObserver::block_submitted`: the proofs its task adds to the storage. -/
def blockSubmitted {τ ε : Type} (eth : EthTrie τ ε)
    (decode2718 : Bytes → Except String TransactionSigned) (blockNumber slot : UInt64)
    (notification : SubmitBlockRequest × BuiltBlockTrace) : List (B256 × ConstraintProof) :=
  let (request, trace) := notification
  if trace.appendedConstraintTxs.isEmpty then []
  else
    match generateAndLogConstraintProofs eth decode2718 request.transactions
      trace.appendedConstraintTxs blockNumber slot with
    | .ok (_, proofs) => proofs.map fun proof => (request.blockHash, proof)
    | .error _ => []

structure BlockProofs where
  blockHash : B256
  blockNumber : UInt64
  proofs : List ConstraintProof

structure SlotProofs where
  slot : UInt64
  blocks : List BlockProofs

abbrev ConstraintProofStorage := AList fun _ : UInt64 => AList fun _ : B256 => BlockProofs

namespace ConstraintProofStorage

def maxSlotsToKeep : Nat := 10

def addProof (slot : UInt64) (blockHash : B256) (blockNumber : UInt64) (proof : ConstraintProof)
    (storage : ConstraintProofStorage) : ConstraintProofStorage :=
  let slotEntry := (storage.lookup slot).getD ∅
  let blockEntry := (slotEntry.lookup blockHash).getD ⟨blockHash, blockNumber, []⟩
  let storage := storage.insert slot
    (slotEntry.insert blockHash { blockEntry with proofs := blockEntry.proofs ++ [proof] })
  if maxSlotsToKeep < storage.keys.length then
    match storage.keys.min? with
    | some minSlot => storage.erase minSlot
    | none => storage
  else storage

/-- `get_recent_proofs`; `values` is the order in which the hash maps are iterated. -/
def getRecentProofs (values : HashOrder) (storage : ConstraintProofStorage) : List SlotProofs :=
  let slots := ((values.order storage.keys).mergeSort (· ≤ ·)).reverse
  slots.filterMap fun slot => (storage.lookup slot).map fun blocks =>
    ⟨slot, values.order (blocks.entries.map Sigma.snd)⟩

/-- The arguments of one `add_proof`. -/
structure AddedProof where
  slot : UInt64
  blockHash : B256
  blockNumber : UInt64
  proof : ConstraintProof

def storageAfter (adds : List AddedProof) : ConstraintProofStorage :=
  adds.foldl (fun storage a => addProof a.slot a.blockHash a.blockNumber a.proof storage) ∅

/-- The storage of a job after the given calls of `add_proof`. -/
def ofAdded (slot blockNumber : UInt64) (added : List (B256 × ConstraintProof)) :
    ConstraintProofStorage :=
  added.foldl (fun storage e => addProof slot e.1 blockNumber e.2 storage) ∅

/-- The proofs of a block. -/
def proofs (slot : UInt64) (blockHash : B256) (storage : ConstraintProofStorage) :
    List ConstraintProof :=
  ((storage.lookup slot).bind fun blocks => blocks.lookup blockHash).elim [] BlockProofs.proofs

/-- The proofs of one block, in the order in which they were added. -/
def blockProofs (adds : List AddedProof) (slot : UInt64) (hash : B256) : Option BlockProofs :=
  let added := adds.filter fun a => a.slot = slot ∧ a.blockHash = hash
  added.head?.map fun a => ⟨hash, a.blockNumber, added.map AddedProof.proof⟩

/-- The storage holds the largest slots, ten or all of them, with all their proofs. -/
structure Newest (adds : List AddedProof) (storage : ConstraintProofStorage) : Prop where
  seen : ∀ s ∈ storage, ∃ a ∈ adds, a.slot = s
  largest : ∀ s ∈ storage, ∀ a ∈ adds, s ≤ a.slot → a.slot ∈ storage
  length_le : storage.keys.length ≤ maxSlotsToKeep
  full : storage.keys.length = maxSlotsToKeep ∨ ∀ a ∈ adds, a.slot ∈ storage
  proofs : ∀ s blocks, storage.lookup s = some blocks →
    ∀ hash, blocks.lookup hash = blockProofs adds s hash

variable {storage : ConstraintProofStorage} {adds : List AddedProof} {a : AddedProof}

theorem blockProofs_append (adds : List AddedProof) (a : AddedProof) (s : UInt64) (hash : B256) :
    blockProofs (adds ++ [a]) s hash =
      if a.slot = s ∧ a.blockHash = hash then
        let block := (blockProofs adds s hash).getD ⟨hash, a.blockNumber, []⟩
        some { block with proofs := block.proofs ++ [a.proof] }
      else blockProofs adds s hash := by
  split_ifs with hsame
  · simp only [blockProofs, filter_append, filter_cons_of_pos, hsame, and_self, decide_true,
      filter_nil]
    cases adds.filter fun a => a.slot = s ∧ a.blockHash = hash with
    | nil => rfl
    | cons b added => simp
  · simp [blockProofs, hsame]

/-- The entry of a slot after an addition: all its proofs, unless it was removed earlier. -/
theorem Newest.lookup_insert (h : Newest adds storage)
    (hold : ∀ b ∈ adds, b.slot = a.slot → a.slot ∈ storage) (hash : B256) :
    let slotEntry := (storage.lookup a.slot).getD ∅
    let blockEntry := (slotEntry.lookup a.blockHash).getD ⟨a.blockHash, a.blockNumber, []⟩
    (slotEntry.insert a.blockHash { blockEntry with
      proofs := blockEntry.proofs ++ [a.proof] }).lookup hash =
        blockProofs (adds ++ [a]) a.slot hash := by
  have hbefore (hash) : ((storage.lookup a.slot).getD ∅).lookup hash =
      blockProofs adds a.slot hash := by
    cases hslot : storage.lookup a.slot with
    | some blocks => exact h.proofs _ _ hslot hash
    | none =>
      have hnone : ∀ b ∈ adds, b.slot = a.slot → b.blockHash ≠ hash := fun b hb hsame =>
        absurd (hold b hb hsame) (lookup_eq_none.mp hslot)
      simpa [blockProofs] using hnone
  dsimp only
  rw [blockProofs_append, lookup_insert_eq_ite]
  simp only [hbefore, true_and, eq_comm]
  split_ifs with heq
  · rw [heq]
  · rfl

/-- The slot of the proof may have been removed earlier; then it is removed again. -/
theorem Newest.addProof (h : Newest adds storage) (a : AddedProof) :
    Newest (adds ++ [a]) (storage.addProof a.slot a.blockHash a.blockNumber a.proof) := by
  obtain ⟨hseen, hlargest, hle, hfull, hproofs⟩ := id h
  have hinsert := h.lookup_insert (a := a)
  unfold ConstraintProofStorage.addProof
  dsimp only at hinsert ⊢
  generalize insert a.blockHash _ ((storage.lookup a.slot).getD ∅) = entry at hinsert ⊢
  have hlen := storage.length_keys_insert a.slot entry
  have hmem {s} : s ∈ storage.insert a.slot entry ↔ s = a.slot ∨ s ∈ storage := mem_insert _
  have hlookup {s blocks} (hs : (storage.insert a.slot entry).lookup s = some blocks)
      (hold : ∀ b ∈ adds, b.slot = s → s ∈ storage) (hash : B256) :
      blocks.lookup hash = blockProofs (adds ++ [a]) s hash := by
    obtain ⟨rfl, rfl⟩ | ⟨hne, hs⟩ := lookup_insert_eq_some hs
    · exact hinsert hold hash
    · rw [blockProofs_append, if_neg fun h => hne h.1.symm]
      exact hproofs s blocks hs hash
  split_ifs with hover
  · obtain ⟨m, hm⟩ : ∃ m, (storage.insert a.slot entry).keys.min? = some m :=
      Option.ne_none_iff_exists'.mp fun hnone => by
        simp [min?_eq_none_iff.mp hnone] at hover
    obtain ⟨hmK, hmin⟩ := min?_eq_some_iff.mp hm
    have hrest : ((storage.insert a.slot entry).erase m).keys.length = maxSlotsToKeep := by
      rw [keys_erase, length_erase_of_mem hmK]
      grind
    simp only [← AList.mem_keys, hmem] at hmK hmin
    have hmem' {s} : s ∈ (storage.insert a.slot entry).erase m ↔
        s ≠ m ∧ (s = a.slot ∨ s ∈ storage) := by rw [mem_erase, hmem]
    simp only [hm]
    refine ⟨?_, ?_, hrest.le, .inl hrest, ?_⟩
    · grind
    · grind
    · intro s blocks hs
      obtain ⟨hne, hs⟩ := lookup_erase_eq_some hs
      have := hmem.mp (mem_of_lookup hs)
      exact hlookup hs (by grind)
  · refine ⟨?_, ?_, not_lt.mp hover, ?_, ?_⟩
    · grind
    · grind
    · grind
    · intro s blocks hs
      have := hmem.mp (mem_of_lookup hs)
      exact hlookup hs (by grind)

theorem newest_storageAfter (adds : List AddedProof) : Newest adds (storageAfter adds) := by
  induction adds using reverseRecOn with
  | nil =>
    change Newest [] (∅ : ConstraintProofStorage)
    exact ⟨by simp, by simp, Nat.zero_le _, by simp, by simp⟩
  | append_singleton adds a ih =>
    rw [storageAfter, foldl_append]
    exact ih.addProof a

/-- Whatever proofs are added, the storage holds all proofs of the largest slots, by block hash
    and in order; and it lists the slots from the largest on. -/
theorem storage_keeps_newest_slots (adds : List AddedProof) (values : HashOrder) :
    Newest adds (storageAfter adds) ∧
      (((storageAfter adds).getRecentProofs values).map SlotProofs.slot).Pairwise (· > ·) ∧
      (((storageAfter adds).getRecentProofs values).map SlotProofs.slot).Perm
        (storageAfter adds).keys ∧
      ∀ entry ∈ (storageAfter adds).getRecentProofs values, ∃ blocks,
        (storageAfter adds).lookup entry.slot = some blocks ∧
          entry.blocks.Perm (blocks.entries.map Sigma.snd) := by
  refine ⟨newest_storageAfter adds, ?_⟩
  generalize storageAfter adds = storage
  have hperm : ((values.order storage.keys).mergeSort (· ≤ ·)).reverse.Perm storage.keys :=
    (reverse_perm _).trans ((mergeSort_perm ..).trans (values.perm _))
  have hslots : (storage.getRecentProofs values).map SlotProofs.slot =
      ((values.order storage.keys).mergeSort (· ≤ ·)).reverse := by
    rw [getRecentProofs, map_filterMap]
    refine (filterMap_congr fun slot hslot => ?_).trans (filterMap_some ..)
    obtain ⟨blocks, hblocks⟩ := exists_lookup (mem_keys.mpr (hperm.mem_iff.mp hslot))
    rw [hblocks]
    rfl
  rw [hslots]
  refine ⟨?_, hperm, ?_⟩
  · rw [pairwise_reverse]
    have hnodup := (reverse_perm _).nodup_iff.mp (hperm.nodup_iff.mpr storage.nodupKeys)
    have hsorted : ((values.order storage.keys).mergeSort (· ≤ ·)).Pairwise
        fun a b => decide (a ≤ b) = true := pairwise_mergeSort (by grind) (by grind) _
    refine (hsorted.and hnodup).imp fun h => ?_
    grind
  · intro entry hentry
    obtain ⟨slot, _, hslot⟩ := mem_filterMap.mp hentry
    obtain ⟨blocks, hblocks, rfl⟩ := Option.map_eq_some_iff.mp hslot
    exact ⟨blocks, hblocks, values.perm _⟩

/-- A job adds proofs to one slot, which keeps them all, in order. -/
theorem proofs_ofAdded (slot blockNumber : UInt64) (added : List (B256 × ConstraintProof))
    (hash : B256) : (ofAdded slot blockNumber added).proofs slot hash =
      (added.filter fun e => e.1 = hash).map Prod.snd := by
  have h := newest_storageAfter (added.map fun e => ⟨slot, e.1, blockNumber, e.2⟩)
  rw [storageAfter, foldl_map] at h
  by_cases hslot : slot ∈ ofAdded slot blockNumber added
  · obtain ⟨blocks, hblocks⟩ := exists_lookup hslot
    rw [proofs, hblocks, Option.bind_some, h.proofs slot blocks hblocks hash]
    simp only [blockProofs, filter_map, Function.comp_def, true_and]
    cases added.filter fun e => e.1 = hash with
    | nil => rfl
    | cons e added => simp
  · have hseen {s} (hs : s ∈ ofAdded slot blockNumber added) : False := by
      obtain ⟨a, ha, rfl⟩ := h.seen s hs
      obtain ⟨e, -, rfl⟩ := mem_map.mp ha
      exact hslot hs
    rcases h.full with hlen | hall
    · obtain ⟨s, hs⟩ := exists_mem_of_length_pos (by rw [hlen]; decide)
      exact (hseen (mem_keys.mpr hs)).elim
    · cases added with
      | nil => rfl
      | cons e added => exact absurd (hall _ mem_cons_self) hslot

end ConstraintProofStorage

/-! ## One notification a block -/

section Once

variable {σ τ ε : Type} (job : SubmitJob σ)

/-- A request could be built for the block. -/
def Submits (block : Block) : Prop :=
  (createRequests job block).1.isSome ∨ (createRequests job block).2.isSome

/-- The block goes to optimistic relays only, or the regular signer fails. -/
def NoRegular (block : Block) : Prop :=
  (∃ c ∈ job.config.optimisticConfig, block.trace.bidValue < c.maxBidValue) ∧
      (∀ relay ∈ job.relays, relay.optimistic = true) ∨
    ∃ err, job.sign job.config.signer block = .error err

variable {job} {block : Block}

theorem regular_eq_none_iff : (createRequests job block).1 = none ↔ NoRegular job block := by
  have hbuilt : (createSubmitBlockRequest job job.config.signer block).toOption = none ↔
      ∃ err, job.sign job.config.signer block = .error err := by
    unfold createSubmitBlockRequest
    cases job.sign job.config.signer block <;> simp [Except.toOption]
  have hasked : (job.config.optimisticConfig.filter fun c =>
        decide (block.trace.bidValue < c.maxBidValue)).isNone = false ↔
      ∃ c ∈ job.config.optimisticConfig, block.trace.bidValue < c.maxBidValue := by
    cases job.config.optimisticConfig <;> simp
  have hrelays : (job.relays.filter fun relay => !relay.optimistic).isEmpty = true ↔
      ∀ relay ∈ job.relays, relay.optimistic = true := by
    simp
  simp only [createRequests, partition_eq_filter_filter, NoRegular]
  rw [← hbuilt, ← hasked, ← hrelays]
  split
  · next h =>
      grind
  · next h =>
      simp only [Bool.or_eq_true, Bool.not_eq_true', not_or, Bool.not_eq_true,
        Bool.not_eq_false] at h
      simp [h]

theorem blockHash_of_create {signer : σ} {request : SubmitBlockRequest}
    (h : request ∈ (createSubmitBlockRequest job signer block).toOption) :
    request.blockHash = job.hash block.sealedBlock := by
  unfold createSubmitBlockRequest at h
  cases hsign : job.sign signer block with
  | error err => simp [hsign, Except.toOption] at h
  | ok signature =>
    rw [hsign] at h
    cases h
    rfl

theorem of_mem_notifications {n : SubmitBlockRequest × BuiltBlockTrace}
    (h : n ∈ notifications job block) :
    n.1.blockHash = job.hash block.sealedBlock ∧ n.2 = block.trace := by
  simp only [notifications, mem_map, mem_append, Option.mem_toList] at h
  obtain ⟨request, hmem, rfl⟩ := h
  refine ⟨?_, rfl⟩
  have hregular : ∀ r ∈ (createRequests job block).1, r.blockHash = job.hash block.sealedBlock := by
    intro r hr
    simp only [createRequests] at hr
    split at hr
    · exact blockHash_of_create hr
    · cases hr
  have hoptimistic : ∀ r ∈ (createRequests job block).2,
      r.blockHash = job.hash block.sealedBlock := by
    intro r hr
    obtain ⟨c, _, hc⟩ := Option.bind_eq_some_iff.mp hr
    exact blockHash_of_create hc
  rcases hmem with hmem | hmem
  · exact hregular _ hmem
  · rcases Option.or_eq_some_iff.mp hmem with hmem | hmem
    · exact hoptimistic _ hmem
    · exact hregular _ hmem.2

theorem length_notifications (h : Submits job block) :
    (notifications job block).length = 1 ↔ NoRegular job block := by
  rw [← regular_eq_none_iff]
  unfold Submits at h
  unfold notifications
  generalize createRequests job block = requests at h
  obtain ⟨_ | regular, _ | optimistic⟩ := requests <;> simp at h ⊢

theorem notifications_eq_nil (h : ¬ Submits job block) : notifications job block = [] := by
  unfold Submits at h
  unfold notifications
  generalize createRequests job block = requests at h
  obtain ⟨_ | regular, _ | optimistic⟩ := requests <;> simp at h ⊢

variable (job) in
abbrev hashes (blocks : List Block) : List B256 := blocks.map fun b => job.hash b.sealedBlock

/-- With distinct hashes, every block that is taken is submitted. -/
theorem notified_foldl (taken : List (Option Block)) :
    ∀ state : SubmitState, (∀ h ∈ state.lastBidHash, h ∉ hashes job taken.reduceOption) →
      (hashes job taken.reduceOption).Nodup →
      (taken.foldl (submitStep job) state).notified =
        state.notified ++ taken.reduceOption.flatMap (notifications job) := by
  induction taken with
  | nil => simp
  | cons entry taken ih =>
    intro state hlast hnd
    cases entry with
    | none => exact ih state hlast hnd
    | some block =>
      have hnew : state.lastBidHash ≠ some (job.hash block.sealedBlock) :=
        fun heq => hlast _ heq mem_cons_self
      obtain ⟨hfresh, hnd⟩ := nodup_cons.mp hnd
      rw [foldl_cons, submitStep, if_neg hnew, ih _ _ hnd]
      · simp
      · rintro h ⟨⟩
        exact hfresh

theorem filter_notifications {blocks : List Block} (hnd : (hashes job blocks).Nodup)
    (h : block ∈ blocks) :
    ((blocks.flatMap (notifications job)).filter
      fun n => n.1.blockHash = job.hash block.sealedBlock) = notifications job block := by
  induction blocks with
  | nil => cases h
  | cons b blocks ih =>
    obtain ⟨hfresh, hnd⟩ := nodup_cons.mp hnd
    -- the notifications of other blocks have other hashes
    have hskip : ∀ b', job.hash b'.sealedBlock ≠ job.hash block.sealedBlock →
        (notifications job b').filter
          (fun n => n.1.blockHash = job.hash block.sealedBlock) = [] := by
      intro b' hne
      refine filter_eq_nil_iff.mpr fun n hn => ?_
      simpa [(of_mem_notifications hn).1] using hne
    rw [flatMap_cons, filter_append]
    rcases mem_cons.mp h with rfl | h
    · have hrest : (blocks.flatMap (notifications job)).filter
          (fun n => n.1.blockHash = job.hash block.sealedBlock) = [] := by
        rw [filter_flatMap]
        refine flatMap_eq_nil_iff.mpr fun b' hb' => hskip b' fun heq => ?_
        exact hfresh (mem_map.mpr ⟨b', hb', heq⟩)
      rw [hrest, append_nil, filter_eq_self]
      intro n hn
      simp [(of_mem_notifications hn).1]
    · rw [hskip b fun heq => hfresh (mem_map.mpr ⟨block, h, heq.symm⟩), ih hnd h]
      rfl

/-! ### Proofs -/

theorem generateSingleProof_txHash {eth : EthTrie τ ε} {txHash root : B256}
    {blockNumber slot : UInt64} {builder builder' : TransactionTrieBuilder τ} {proof : ConstraintProof}
    (h : generateSingleProof eth txHash root blockNumber slot builder = (.ok proof, builder')) :
    proof.txHash = txHash := by
  unfold generateSingleProof at h
  split at h
  · cases h
  · split at h <;> cases h
    rfl

theorem storeProofs_sublist (eth : EthTrie τ ε) (root : B256) (blockNumber slot : UInt64)
    (txHashes : List B256) : ∀ builder : TransactionTrieBuilder τ,
      ((storeProofs eth root blockNumber slot txHashes builder).map ConstraintProof.txHash).Sublist
        txHashes := by
  induction txHashes with
  | nil => intro builder; exact nil_sublist _
  | cons txHash txHashes ih =>
    intro builder
    unfold storeProofs
    split
    · next proof builder' h =>
        rw [map_cons, generateSingleProof_txHash h]
        exact (ih builder').cons_cons _
    · exact (ih _).cons _

variable (eth : EthTrie τ ε) (decode2718 : Bytes → Except String TransactionSigned)
  (blockNumber slot : UInt64)

theorem blockSubmitted_sublist (n : SubmitBlockRequest × BuiltBlockTrace) :
    ((blockSubmitted eth decode2718 blockNumber slot n).map fun e => (e.1, e.2.txHash)).Sublist
      (n.2.appendedConstraintTxs.map fun txHash => (n.1.blockHash, txHash)) := by
  obtain ⟨request, trace⟩ := n
  simp only [blockSubmitted]
  split
  · exact nil_sublist _
  split
  · next root proofs h =>
      simp only [generateAndLogConstraintProofs, bind, Except.bind, pure, Except.pure] at h
      split at h
      · cases h
      split at h
      · cases h
      split at h <;> cases h
      have hsub := fun builder => (storeProofs_sublist eth root blockNumber slot
        trace.appendedConstraintTxs builder).map (Prod.mk request.blockHash)
      simp only [map_map] at hsub ⊢
      exact hsub _
  · exact nil_sublist _

/-- Of distinct constraint transactions of blocks that are reported once, no two proofs agree on
    the block and the transaction. -/
theorem nodup_submitted {blocks : List Block} (hnd : (hashes job blocks).Nodup)
    (hone : ∀ block ∈ blocks, Submits job block →
      NoRegular job block ∧ block.trace.appendedConstraintTxs.Nodup) :
    (((blocks.flatMap (notifications job)).flatMap
      (blockSubmitted eth decode2718 blockNumber slot)).map fun e => (e.1, e.2.txHash)).Nodup := by
  rw [flatMap_assoc, map_flatMap, nodup_flatMap]
  constructor
  · intro block hblock
    by_cases hsub : Submits job block
    · obtain ⟨n, hn⟩ := length_eq_one_iff.mp
        ((length_notifications hsub).mpr (hone block hblock hsub).1)
      have hmem := of_mem_notifications (n := n) (by rw [hn]; exact mem_singleton_self n)
      rw [hn, flatMap_singleton]
      refine (blockSubmitted_sublist eth decode2718 blockNumber slot n).nodup ?_
      rw [hmem.2]
      exact ((hone block hblock hsub).2).map (Prod.mk_right_injective _)
    · simp [notifications_eq_nil hsub]
  refine (pairwise_map.mp hnd).imp fun {a b} hab => ?_
  have hfirst : ∀ (b : Block), ∀ x ∈ ((notifications job b).flatMap
      (blockSubmitted eth decode2718 blockNumber slot)).map (fun e => (e.1, e.2.txHash)),
      x.1 = job.hash b.sealedBlock := by
    intro b x hx
    rw [map_flatMap] at hx
    obtain ⟨n, hn, hx⟩ := mem_flatMap.mp hx
    obtain ⟨_, _, rfl⟩ := mem_map.mp
      ((blockSubmitted_sublist eth decode2718 blockNumber slot n).subset hx)
    exact (of_mem_notifications hn).1
  exact fun x ha hb => hab ((hfirst a x ha).symm.trans (hfirst b x hb))

/-- A job reports every submitted block once exactly when no regular request is built. Then,
    with distinct constraint transactions in each block, the storage never has two proofs of a
    transaction, in whatever order the tasks add them and whatever part of them has run. -/
theorem blocks_reported_once_iff (taken : List (Option Block))
    (hdistinct : (hashes job taken.reduceOption).Nodup) :
    ((∀ block ∈ taken.reduceOption, Submits job block →
        ((runSubmitToRelaysJob job taken).notified.filter
          fun n => n.1.blockHash = job.hash block.sealedBlock).length = 1) ↔
      ∀ block ∈ taken.reduceOption, Submits job block → NoRegular job block) ∧
    ((∀ block ∈ taken.reduceOption, Submits job block →
        NoRegular job block ∧ block.trace.appendedConstraintTxs.Nodup) →
      ∀ added, List.Subperm added ((runSubmitToRelaysJob job taken).notified.flatMap
          (blockSubmitted eth decode2718 blockNumber slot)) →
        ∀ blockHash txHash, (((ConstraintProofStorage.ofAdded slot blockNumber added).proofs slot
          blockHash).filter fun proof => proof.txHash = txHash).length ≤ 1) := by
  have hrun : (runSubmitToRelaysJob job taken).notified =
      taken.reduceOption.flatMap (notifications job) :=
    notified_foldl taken {} (by simp) hdistinct
  rw [hrun]
  constructor
  · refine forall₂_congr fun block hblock => forall_congr' fun hsub => ?_
    rw [filter_notifications hdistinct hblock, length_notifications hsub]
  intro hone added hadded blockHash txHash
  have hnd := nodup_submitted eth decode2718 blockNumber slot hdistinct hone
  have hadded' : (added.map fun e => (e.1, e.2.txHash)).Nodup := by
    obtain ⟨l, hperm, hsub⟩ := hadded
    exact (hperm.map _).nodup_iff.mp ((hsub.map _).nodup hnd)
  rw [ConstraintProofStorage.proofs_ofAdded]
  calc _ = (added.map fun e => (e.1, e.2.txHash)).count (blockHash, txHash) := by
        rw [filter_map, length_map, filter_filter, count_eq_countP,
          countP_map, countP_eq_length_filter]
        congr 2
        funext e
        rw [Bool.eq_iff_iff]
        simp [and_comm]
    _ ≤ 1 := nodup_iff_count_le_one.mp hadded' _

end Once

/-! ### Examples

  One legacy transaction, appended as a constraint. -/

def legacyHeader : Header where
  beneficiary := shop
  stateRoot := B256.zero
  transactionsRoot := B256.zero
  receiptsRoot := B256.zero
  withdrawalsRoot := none
  logsBloom := 0
  timestamp := 0
  baseFeePerGas := 0
  number := 7
  gasLimit := 0
  gasUsed := 0
  blobGasUsed := none
  excessBlobGas := none
  requestsHash := none

def constrainedBlock : Block where
  trace := { appendedConstraintTxs := [emptyRootKeccak [0xc1, 0x61]] }
  sealedBlock := ⟨legacyHeader, legacyBlock.map (·.tx), none⟩
  executionRequests := []

def plainJob (optimistic : Option (OptimisticConfig Unit)) (relay : Relay) : SubmitJob Unit :=
  ⟨⟨(), optimistic⟩, [relay], fun _ => B256.zero, fun _ _ => .ok []⟩

/-- With an optimistic relay only, the block is reported once. -/
theorem blocks_reported_once_optimistic :
    ((runSubmitToRelaysJob (plainJob (some ⟨(), 1⟩) ⟨"relay", true⟩)
      [some constrainedBlock]).notified.filter fun n => n.1.blockHash = B256.zero).length = 1 := by
  have hnd : (hashes (plainJob (some ⟨(), 1⟩) ⟨"relay", true⟩)
    [some constrainedBlock].reduceOption).Nodup := by decide
  refine (blocks_reported_once_iff (mapLibrary emptyRootKeccak) legacyDecoder 7 8
    [some constrainedBlock] hnd).1.mpr ?_ constrainedBlock mem_cons_self (Or.inr rfl)
  rintro block hblock -
  obtain rfl := mem_singleton.mp hblock
  exact Or.inl ⟨⟨_, rfl, by decide⟩, by simp [plainJob]⟩

/-- With a regular relay, the block is reported twice and its proof is stored twice. -/
theorem regular_block_reported_twice :
    let notified := (runSubmitToRelaysJob (plainJob none ⟨"relay", false⟩)
      [some constrainedBlock]).notified
    notified.length = 2 ∧
      (((ConstraintProofStorage.ofAdded 8 7 (notified.flatMap
        (blockSubmitted (mapLibrary emptyRootKeccak) legacyDecoder 7 8))).proofs 8 B256.zero).filter
          fun proof => proof.txHash = emptyRootKeccak [0xc1, 0x61]).length = 2 := by
  constructor
  · rfl
  · rfl

end Building.RelaySubmit
