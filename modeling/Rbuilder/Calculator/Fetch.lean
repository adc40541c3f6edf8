/-
  The shared cache and the fetches.

  Everything in the shared cache comes from the base state, and stays: a fetch, whether it
  succeeds or fails half-way, leaves a cache that is correct and extends the one before
  (`fetchNodes_spec`).
-/
import Rbuilder.Calculator.Update

namespace SparseMpt

open ProofStore (StoreOk IsBaseProof Decodes)
open List Patricia

section Cache

variable (keccak : Bytes → B256) (base : BaseState)

/-- Every proof in the cache lists nodes of the base tries. -/
structure CacheOk (cache : SharedCache) : Prop where
  accounts : StoreOk (nodeCodec keccak) (ofMap base.accounts) cache.accountTrie
  storage : ∀ h, StoreOk (nodeCodec keccak) (ofMap (base.storage h)) (cache.storageTries h)

/-- The database returns nodes of the base tries, when it returns anything. -/
structure Provider.Correct (p : Provider) : Prop where
  accounts : ∀ targets nodes, p.multiproof targets = .ok nodes →
    IsBaseProof (nodeCodec keccak) (ofMap base.accounts) nodes
  storage : ∀ h targets nodes, p.storageMultiproof h targets = .ok nodes →
    IsBaseProof (nodeCodec keccak) (ofMap (base.storage h)) nodes

/-- `alloy_trie` decodes the nodes of the base tries. -/
structure DecodesBase (decode : Bytes → Option AlloyTrieNode) : Prop where
  accounts : Decodes (nodeCodec keccak) (ofMap base.accounts) decode
  storage : ∀ h, Decodes (nodeCodec keccak) (ofMap (base.storage h)) decode

end Cache

/-- The pointers of a cache stay what they are. -/
structure SharedCache.Extends (cache cache' : SharedCache) : Prop where
  accounts : cache.accountTrie.rlpPtrs <+: cache'.accountTrie.rlpPtrs
  storage : ∀ h, (cache.storageTries h).rlpPtrs <+: (cache'.storageTries h).rlpPtrs

theorem SharedCache.Extends.refl (cache : SharedCache) : cache.Extends cache :=
  ⟨prefix_refl _, fun _ => prefix_refl _⟩

variable {a b c cache : SharedCache} {C : Patricia.Codec Nibble Bytes Bytes} {n : MptNode}
  {nodes : List (Nibbles × Bytes)} {p : Provider}

theorem SharedCache.Extends.trans (h : a.Extends b) (h' : b.Extends c) : a.Extends c :=
  ⟨h.accounts.trans h'.accounts, fun i => (h.storage i).trans (h'.storage i)⟩

/-- The database answers every request. -/
structure Provider.Answers (p : Provider) (lastBlockHash : B256) : Prop where
  blockHash : lastBlockHash = B256.zero ∨ p.blockHash = .ok (some lastBlockHash)
  accounts : ∀ targets, ∃ nodes, p.multiproof targets = .ok nodes
  storage : ∀ h targets, ∃ nodes, p.storageMultiproof h targets = .ok nodes

variable {keccak : Bytes → B256} {base : BaseState} {decode : Bytes → Option AlloyTrieNode}

theorem isBaseProof_matchingNodesSorted (h : IsBaseProof C n nodes) (path : Nibbles) :
    IsBaseProof C n (matchingNodesSorted nodes path) := by
  intro e he
  have hmem := (mem_insertionSort _).mp he
  exact h e (mem_of_mem_filter hmem)

theorem addProofs_spec (hdec : Decodes C n decode) (hn : IsBaseProof C n nodes)
    (requested : List Nibbles) :
    ∀ store : ProofStore, StoreOk C n store → ∃ store',
      addProofs decode nodes store requested = (store', .ok ()) ∧ StoreOk C n store' ∧
      store.rlpPtrs <+: store'.rlpPtrs := by
  induction requested with
  | nil => intro store hok; exact ⟨store, rfl, hok, prefix_refl _⟩
  | cons node rest ih =>
    intro store hok
    obtain ⟨htrue, hok', hpre⟩ := ProofStore.addProof_spec hdec hok node
      (isBaseProof_matchingNodesSorted hn node)
    simp only [addProofs]
    generalize store.addProof decode node (matchingNodesSorted nodes node) = res at *
    obtain ⟨store1, b⟩ := res
    obtain rfl : b = true := htrue
    obtain ⟨store2, he, hok2, hpre2⟩ := ih store1 hok'
    exact ⟨store2, he, hok2, hpre.trans hpre2⟩

/-- What a fetch leaves behind. -/
structure Fetched (keccak : Bytes → B256) (base : BaseState) (cache cache' : SharedCache) :
    Prop where
  ok : CacheOk keccak base cache'
  ext : cache.Extends cache'
  lastBlockHash : cache'.lastBlockHash = cache.lastBlockHash

theorem Fetched.trans (h : Fetched keccak base a b)
    (h' : Fetched keccak base b c) : Fetched keccak base a c :=
  ⟨h'.ok, h.ext.trans h'.ext, h'.lastBlockHash.trans h.lastBlockHash⟩

theorem fetched_setStorage (hok : CacheOk keccak base cache) {h : B256} {store : ProofStore}
    (hs : StoreOk (nodeCodec keccak) (ofMap (base.storage h)) store)
    (hpre : (cache.storageTries h).rlpPtrs <+: store.rlpPtrs) :
    Fetched keccak base cache
      { cache with storageTries := Function.update cache.storageTries h store } := by
  refine ⟨⟨hok.accounts, fun h' => ?_⟩, ⟨prefix_refl _, fun h' => ?_⟩, rfl⟩
  · by_cases hh : h' = h
    · subst hh
      simpa using hs
    · simpa [Function.update_of_ne hh] using hok.storage h'
  by_cases hh : h' = h
  · subst hh
    simpa using hpre
  · simp [Function.update_of_ne hh]

theorem checkBlockHash_answers
    (h : p.Answers cache.lastBlockHash) : checkBlockHash p cache = .ok () := by
  unfold checkBlockHash
  rcases h.blockHash with h0 | h1
  · rw [if_pos h0]
  by_cases h0 : cache.lastBlockHash = B256.zero
  · rw [if_pos h0]
  · rw [if_neg h0, h1]
    exact if_pos rfl

section

variable (hdec : DecodesBase keccak base decode)
include hdec

theorem fetchStorage_spec
    (hp : p.Correct keccak base) (requests : List (Sigma fun _ : B256 => List Nibbles)) :
    ∀ cache, CacheOk keccak base cache →
      Fetched keccak base cache (fetchStorage decode p cache requests).1 ∧
      (p.Answers cache.lastBlockHash → (fetchStorage decode p cache requests).2 = .ok ()) := by
  induction requests with
  | nil =>
    intro cache hok
    exact ⟨⟨hok, SharedCache.Extends.refl cache, rfl⟩, fun _ => rfl⟩
  | cons e rest ih =>
    intro cache hok
    obtain ⟨h, nodes⟩ := e
    have hself : Fetched keccak base cache cache := ⟨hok, SharedCache.Extends.refl cache, rfl⟩
    cases hcheck : checkBlockHash p cache with
    | error e =>
      simp only [fetchStorage, hcheck]
      refine ⟨hself, fun ha => ?_⟩
      rw [checkBlockHash_answers ha] at hcheck
      cases hcheck
    | ok _ =>
      cases hproof : p.storageMultiproof h (nodes.map padPath) with
      | error e =>
        simp only [fetchStorage, hcheck, hproof]
        refine ⟨hself, fun ha => ?_⟩
        obtain ⟨nodes', hn⟩ := ha.storage h (nodes.map padPath)
        rw [hn] at hproof
        cases hproof
      | ok multiproof =>
        obtain ⟨store, hadd, hs, hpre⟩ := addProofs_spec (hdec.storage h)
          (hp.storage h _ _ hproof) nodes (cache.storageTries h) (hok.storage h)
        have hF := fetched_setStorage hok hs hpre
        obtain ⟨hrest, hans⟩ := ih _ hF.ok
        simp only [fetchStorage, hcheck, hproof, hadd]
        exact ⟨hF.trans hrest, hans⟩

theorem fetchNodes_spec
    (hp : p.Correct keccak base) (order : HashOrder) (f : MissingNodesFetcher)
    (hok : CacheOk keccak base cache) :
    Fetched keccak base cache (f.fetchNodes decode p order cache).1 ∧
      (p.Answers cache.lastBlockHash → (f.fetchNodes decode p order cache).2 = .ok ()) := by
  have hst := fetchStorage_spec hdec hp (order.order f.storageNodes.entries) cache hok
  unfold MissingNodesFetcher.fetchNodes
  generalize fetchStorage decode p cache (order.order f.storageNodes.entries) = out at hst
  obtain ⟨cache1, res⟩ := out
  obtain ⟨hF, hans⟩ := hst
  cases res with
  | error e => exact ⟨hF, fun ha => by cases hans ha⟩
  | ok _ =>
    dsimp only at hF ⊢
    rw [← hF.lastBlockHash]
    cases hcheck : checkBlockHash p cache1 with
    | error e =>
      refine ⟨hF, fun ha => ?_⟩
      rw [checkBlockHash_answers ha] at hcheck
      cases hcheck
    | ok _ =>
      cases hproof : p.multiproof (f.accountNodes.map padPath) with
      | error e =>
        refine ⟨hF, fun ha => ?_⟩
        obtain ⟨nodes', hn⟩ := ha.accounts (f.accountNodes.map padPath)
        rw [hn] at hproof
        cases hproof
      | ok multiproof =>
        obtain ⟨store, hadd, hs, hpre⟩ := addProofs_spec hdec.accounts
          (hp.accounts _ _ hproof) f.accountNodes cache1.accountTrie hF.ok.accounts
        simp only [hadd]
        refine ⟨hF.trans ⟨⟨hs, hF.ok.storage⟩, ⟨hpre, fun _ => prefix_refl _⟩, rfl⟩,
          fun _ => trivial⟩

/-- A fetch changes only the cache. -/
theorem fetch_spec (env : CallEnv) (phase : FetchPhase)
    (hp : (env.provider phase).Correct keccak base) (f : MissingNodesFetcher)
    {c : RootHashCalculator} (hok : CacheOk keccak base c.sharedCache) :
    ∃ cache res, c.fetch decode env phase f = ({ c with sharedCache := cache }, res) ∧
      Fetched keccak base c.sharedCache cache ∧
      ((env.provider phase).Answers c.sharedCache.lastBlockHash → res = .ok ()) := by
  unfold RootHashCalculator.fetch
  split
  · exact ⟨c.sharedCache, .ok (), rfl, ⟨hok, SharedCache.Extends.refl _, rfl⟩, fun _ => rfl⟩
  · obtain ⟨hF, hans⟩ := fetchNodes_spec hdec hp env.order f hok
    exact ⟨_, _, rfl, hF, hans⟩

end

end SparseMpt
