/-
  The account trie through one call, and the proofs.

  With the storage part done, the accounts of the plan become the changes of the account
  trie; in an incremental call the changes of the accounts that are not listed are kept.
  The root is that of the base accounts with the changes written over them
  (`accountPart_spec`). A proof is taken from the hashed trie, so it opens the account
  against that root; adding nodes for it does not change the map (`proofsPart_spec`).
-/
import Rbuilder.Calculator.Storage

namespace SparseMpt

open RootHashCalculator List

variable {keccak : Bytes → B256} {base : BaseState} {before c : RootHashCalculator}
  {plan : Plan} {decode : Bytes → Option AlloyTrieNode}

theorem length_accountKey (a : Address) : (accountKey keccak a).length = 64 := by
  rw [accountKey, length_unpack, Vector.length_toList]

/-! ## Preparation -/

/-- The account of a hashed storage trie. -/
theorem trieAccount_of_hashed {store : ProofStore} {a : Address} {acc : BundleAccount}
    {s : StorageCalculator} (h : Stage keccak base store a acc s .hashed) :
    trieAccount s = .ok (accountAfter keccak base a acc) ∨ trieAccount s = .error .panic := by
  unfold trieAccount
  cases h with
  | gone info same zero kept =>
    left
    rw [same, accountAfter, info]
    rfl
  | hashed info same root kept =>
    obtain ⟨i, hi⟩ := Option.ne_none_iff_exists'.mp info
    rw [same, hi]
    dsimp only
    by_cases hz : s.hash = B256.zero
    · exact Or.inr (if_pos hz)
    · left
      rw [if_neg hz, accountAfter, hi, ← root]
      rfl

/-- The accounts that change, with what they are after it. -/
abbrev AccountChanges := List (Address × Option TrieAccount)

variable (keccak base) in
/-- The changes of the account trie. -/
def accountChanges (plan : Plan) : AccountChanges :=
  plan.map fun e => (e.1, accountAfter keccak base e.1 e.2)

theorem prepareAccounts_spec {storage : Address → StorageCalculator} (plan : Plan)
    (h : ∀ e ∈ plan, trieAccount (storage e.1) = .ok (accountAfter keccak base e.1 e.2) ∨
      trieAccount (storage e.1) = .error .panic) :
    ∀ u, Gives (fun u' _ => u' = (accountChanges keccak base plan).foldl
        (fun (u : TrieCalculator Address (Option TrieAccount)) e =>
          u.prepareChange e.1 (accountKey keccak e.1) e.2 (encodeAccount e.2)) u)
      (fun _ e => e = .panic) (prepareAccounts keccak storage u (plan.map Prod.fst)) := by
  induction plan with
  | nil => exact fun u => rfl
  | cons e plan ih =>
    intro u
    simp only [map_cons, prepareAccounts]
    rcases h e mem_cons_self with he | he
    · rw [he]
      exact ih (fun e he => h e (mem_cons_of_mem _ he)) _
    · rw [he]
      exact rfl

theorem filter_kerase {V : Type} {K : Type} [DecidableEq K] (keep : K → Bool) {k : K}
    (hk : keep k = false) (l : List (Sigma fun _ : K => V)) :
    (l.kerase k).filter (fun e => keep e.1) = l.filter fun e => keep e.1 := by
  induction l with
  | nil => rfl
  | cons e l ih =>
    by_cases he : k = e.1
    · rw [kerase_cons_eq he, filter_cons_of_neg (by rw [← he, hk]; simp)]
    · rw [kerase_cons_ne he, filter_cons, filter_cons, ih]

/-- Records of keys that are not compared are left where they are. -/
theorem filter_prepareAll {K V : Type} [DecidableEq K] [DecidableEq V] (hash : K → Nibbles)
    (enc : V → Option Bytes) (keep : K → Bool) (changes : List (K × V)) :
    ∀ u : TrieCalculator K V, (∀ e ∈ changes, keep e.1 = false) →
      (changes.foldl (fun (u : TrieCalculator K V) e =>
        u.prepareChange e.1 (hash e.1) e.2 (enc e.2)) u).appliedPrevious.entries.filter
          (fun e => keep e.1) = u.appliedPrevious.entries.filter fun e => keep e.1 := by
  induction changes with
  | nil => intro u _; rfl
  | cons e changes ih =>
    intro u hkeep
    have hrest := ih (u.prepareChange e.1 (hash e.1) e.2 (enc e.2))
      fun e he => hkeep e (mem_cons_of_mem _ he)
    rw [foldl_cons, hrest]
    have herase := filter_kerase keep (hkeep e mem_cons_self) u.appliedPrevious.entries
    unfold TrieCalculator.prepareChange
    split
    · split
      · exact herase
      · rw [appliedPrevious_pushChange]
        exact herase
    · rw [appliedPrevious_pushChange]

/-- The changes of records that are kept. -/
def keptChanges {K V : Type} (keep : K → Bool) (applied : AList fun _ : K => AppliedOp V) :
    List (K × V) :=
  (applied.entries.filter fun e => keep e.1).map fun e => (e.1, e.2.insertedValue)

/-- The accounts whose changes a call keeps without looking at them. -/
def keepAccount (incremental : List Address) (a : Address) : Bool :=
  decide (incremental ≠ []) && !incremental.contains a

variable (keccak base) in
/-- The records of the account trie between calls. -/
abbrev AccountsKept (c : RootHashCalculator) : Prop :=
  Kept keccak base.accounts encodeAccount c.sharedCache.accountTrie (accountKey keccak)
    c.accountTrie.update

variable (keccak base) in
/-- The account part of a call while the trie is updated to `changes`. -/
structure AccountInv (before : RootHashCalculator) (changes : AccountChanges)
    (c : RootHashCalculator) : Prop where
  storage : c.storage = before.storage
  incremental : c.incrementalAccountChange = before.incrementalAccountChange
  cache : Fetched keccak base before.sharedCache c.sharedCache
  prepared : Prepared keccak base.accounts encodeAccount c.sharedCache.accountTrie
    (accountKey keccak) none c.accountTrie.update changes
  proofKeys : ∀ op ∈ c.accountTrie.proofOps, op.key = accountKey keccak op.address
  proofResult : c.accountTrie.proofResult = []

theorem prepareChangesAccountTrie_spec (h : StorageDone keccak base before plan c)
    (hnd : (plan.map Prod.fst).Nodup) (hkept : AccountsKept keccak base c)
    (hkeep : ∀ e ∈ plan, keepAccount c.incrementalAccountChange e.1 = false)
    (hapart : ((keptChanges (keepAccount c.incrementalAccountChange)
      c.accountTrie.update.appliedPrevious ++ accountChanges keccak base plan).map
        (accountKey keccak ∘ Prod.fst)).Nodup)
    (env : CallEnv) (targets : List Address) :
    Gives (fun c' _ => AccountInv keccak base c (keptChanges
        (keepAccount c.incrementalAccountChange) c.accountTrie.update.appliedPrevious ++
          accountChanges keccak base plan) c')
      (fun _ e => e = .panic) (c.prepareChangesAccountTrie keccak env targets) := by
  have hacc := prepareAccounts_spec plan
    (fun e he => trieAccount_of_hashed (h.hashed e he)) c.accountTrie.clear.update
  rw [← h.addresses] at hacc
  unfold prepareChangesAccountTrie
  dsimp only
  refine hacc.elim (fun u _ hu => ?_) fun _ _ he => he
  refine ⟨rfl, rfl, ⟨h.cache.ok, SharedCache.Extends.refl _, rfl⟩, ?_, ?_, rfl⟩
  rotate_left
  · intro op hop
    obtain ⟨a, _, rfl⟩ := mem_map.mp hop
    rfl
  have hkeyed : Keyed (accountKey keccak) c.accountTrie.clear.update.appliedPrevious := hkept.keyed
  have hprep := hkeyed.preparing encodeAccount none rfl rfl rfl rfl
  have hnd' : ((accountChanges keccak base plan ++ []).map Prod.fst).Nodup := by
    rw [append_nil, accountChanges, map_map]
    exact hnd
  have hall := prepareAll_spec (fun v (h : encodeAccount v = none) => Option.map_eq_none_iff.mp h)
    (accountChanges keccak base plan) _ _ hprep hnd'
  rw [append_nil] at hall
  have hfilter := filter_prepareAll (accountKey keccak) encodeAccount
    (keepAccount c.incrementalAccountChange) (accountChanges keccak base plan)
    c.accountTrie.clear.update (by
      intro e he
      obtain ⟨e', he', rfl⟩ := mem_map.mp he
      exact hkeep e' he')
  rw [← hu] at hall hfilter
  have hperm := env.order.perm u.appliedPrevious.entries
  have hdrain := drain_foldl (keepAccount c.incrementalAccountChange) _ _ _
    ((hall.permLeft hperm.symm).setPrevious ∅)
  refine hdrain.prepared hkept.live ?_ hapart (appliedPrevious_drainPrevious ..)
  refine Perm.append ((reverse_perm _).trans ?_) (reverse_perm _)
  refine ((hperm.filter _).map _).trans ?_
  rw [hfilter]
  exact Perm.refl _

/-! ## Update and hashing -/

variable (keccak base) in
/-- The account part of a call after hashing: the trie holds the map `m`, which is the base
    map with the changes. -/
structure AccountDone (before : RootHashCalculator) (changes : AccountChanges)
    (m : MptMap) (c : RootHashCalculator) : Prop where
  storage : c.storage = before.storage
  incremental : c.incrementalAccountChange = before.incrementalAccountChange
  cache : Fetched keccak base before.sharedCache c.sharedCache
  live : LiveMap keccak base.accounts encodeAccount c.sharedCache.accountTrie
    c.accountTrie.update.trie m (records c.accountTrie.update.appliedPrevious)
  keyed : Keyed (accountKey keccak) c.accountTrie.update.appliedPrevious
  perm : (changesOf c.accountTrie.update.appliedPrevious).Perm changes

variable (keccak) in
/-- The proofs open their accounts in `m`. -/
def ProofsOpen (m : MptMap) (proofs : List (Address × List (Nibbles × Bytes))) : Prop :=
  ∀ e ∈ proofs, Trie.OpensRoot keccak (mptRoot keccak m) (accountKey keccak e.1)
    (e.2.map Prod.snd) (m.lookup (accountKey keccak e.1))

variable (keccak base) in
/-- The account part while proofs are collected from the hashed trie. -/
structure ProofInv (before : RootHashCalculator) (changes : AccountChanges)
    (m : MptMap) (c : RootHashCalculator) : Prop where
  done : AccountDone keccak base before changes m c
  holds : Trie.Holds (nodeCodec keccak) (ProofStore.Known (nodeCodec keccak)
    (Patricia.ofMap base.accounts) c.sharedCache.accountTrie) keys64 c.accountTrie.update.trie m
  hashed : c.accountTrie.update.trie.IsHashed (.localIdx 0)
  keys : ∀ op ∈ c.accountTrie.proofOps, op.key = accountKey keccak op.address
  opened : ProofsOpen keccak m c.accountTrie.proofResult

/-- An account is deleted that the base does not have. -/
def DeletesAbsentAccount (keccak : Bytes → B256) (base : BaseState)
    (changes : AccountChanges) : Prop :=
  ∃ a, (a, none) ∈ changes ∧ base.accounts.lookup (accountKey keccak a) = none

/-- Nothing is changed but accounts that are neither in the base nor in the outcome. -/
def OnlyAbsent (keccak : Bytes → B256) (base : BaseState)
    (changes : AccountChanges) : Prop :=
  ∀ e ∈ changes, e.2 = none ∧ base.accounts.lookup (accountKey keccak e.1) = none

variable (keccak base) in
/-- A deletion has failed; what there was to undo is undone. -/
structure DeleteFailed (before : RootHashCalculator)
    (changes : AccountChanges) (c : RootHashCalculator) : Prop extends
    AccountInv keccak base before changes c where
  absent : DeletesAbsentAccount keccak base changes
  undone : undone c.accountTrie.update.revertOps = []

variable {changes : AccountChanges}

variable (keccak base) in
/-- The tries represent the same maps of accounts. -/
def KeepsAccounts (store store' : ProofStore) (t t' : Trie) : Prop :=
  ∀ m (ops : List (AppliedOp (Option TrieAccount))),
    LiveMap keccak base.accounts encodeAccount store t m ops →
    LiveMap keccak base.accounts encodeAccount store' t' m ops

section

variable (hdec : DecodesBase keccak base decode)
include hdec

/-- Fetching and adding nodes leaves the map of the account trie as it is. -/
theorem fetchMissingAccountTrieNodes_spec
    (hok : CacheOk keccak base c.sharedCache) (env : CallEnv) (phase : FetchPhase)
    (hp : (env.provider phase).Correct keccak base) :
    ∃ cache trie missing requested res, c.fetchMissingAccountTrieNodes decode env phase =
        ({ c with sharedCache := cache }.setAccountTrie trie missing requested, res) ∧
      Fetched keccak base c.sharedCache cache ∧
      KeepsAccounts keccak base c.sharedCache.accountTrie cache.accountTrie
        c.accountTrie.update.trie trie ∧
      (res = .ok () ∨ res = .error .panic ∨
        ¬ (env.provider phase).Answers c.sharedCache.lastBlockHash) := by
  have hknown : KeepsAccounts keccak base c.sharedCache.accountTrie c.sharedCache.accountTrie
      c.accountTrie.update.trie (addKnownProofs c.sharedCache.accountTrie c.accountTrie.update.trie
        c.accountTrie.update.missingNodes).1 :=
    fun m ops hm => liveMap_addKnownProofs base.accounts_length hok.accounts _ hm
  have hpanic := addKnownProofs_panics c.sharedCache.accountTrie
    c.accountTrie.update.missingNodes c.accountTrie.update.trie
  unfold fetchMissingAccountTrieNodes
  dsimp only
  generalize addKnownProofs c.sharedCache.accountTrie c.accountTrie.update.trie
    c.accountTrie.update.missingNodes = out at hknown hpanic
  obtain ⟨trie, requested, res⟩ := out
  cases res with
  | error e =>
    exact ⟨c.sharedCache, trie, [], requested, _, rfl, ⟨hok, SharedCache.Extends.refl _, rfl⟩,
      hknown, Or.inr (Or.inl (hpanic.resolve_left (by simp)))⟩
  | ok _ =>
    obtain ⟨cache, res, he, hF, hans⟩ := fetch_spec hdec env phase hp
      (requested.foldl MissingNodesFetcher.addMissingAccountNode {})
      (c := c.setAccountTrie trie [] requested) hok
    have hlive1 : KeepsAccounts keccak base c.sharedCache.accountTrie cache.accountTrie
        c.accountTrie.update.trie trie :=
      fun m ops hm => (hknown m ops hm).mono hF.ext.accounts
    dsimp only
    rw [he]
    cases res with
    | error e =>
      exact ⟨cache, trie, [], requested, _, rfl, hF, hlive1,
        Or.inr (Or.inr fun ha => by cases hans ha)⟩
    | ok _ =>
      have hpanic2 := addFetchedProofs_panics cache.accountTrie requested trie
      exact ⟨cache, _, [], [], _, rfl, hF, fun m ops hm =>
        liveMap_addFetchedProofs base.accounts_length hF.ok.accounts requested (hlive1 m ops hm),
        hpanic2.imp_right Or.inl⟩

/-- The database does not answer one of the fetches for missing account nodes. -/
def AccountFetchFails (env : CallEnv) (lastBlockHash : B256) : Prop :=
  ∃ i, ¬ (env.provider (.account i)).Answers lastBlockHash

variable (keccak base) in
/-- What the loop over the account trie leaves behind: the root of the map with the changes,
    and a hashed trie. -/
def AccountLoopOutcome (before : RootHashCalculator)
    (changes : AccountChanges) (env : CallEnv) : Result B256 → Prop
  | (c', .ok root) => ∃ m, root = mptRoot keccak m ∧ ProofInv keccak base before changes m c'
  | (c', .error e) => e = .panic ∨ DeleteFailed keccak base before changes c' ∨
      AccountFetchFails env before.sharedCache.lastBlockHash

theorem accountLoop_spec (env : CallEnv)
    (hp : ∀ phase, (env.provider phase).Correct keccak base) (left : Nat) :
    ∀ (i : Nat) (c : RootHashCalculator), AccountInv keccak base before changes c →
      AccountLoopOutcome keccak base before changes env
        (c.accountLoop keccak decode env left i) := by
  induction left with
  | zero => intro i c _; exact Or.inl rfl
  | succ left ih =>
    intro i c h
    have hproc := processUpdate_spec length_accountKey rfl accountTexts false h.prepared
    unfold accountLoop processAccountTriesUpdate
    generalize c.accountTrie.update.processUpdate accountTexts none false = out at hproc
    obtain ⟨u, res⟩ := out
    match res with
    | .error e =>
      obtain ⟨-, habsent, hprep, hundone⟩ := hproc
      exact Or.inr (Or.inl ⟨{ h with prepared := hprep }, habsent, hundone⟩)
    | .ok true =>
      obtain ⟨⟨⟨m, hm⟩, hkeyed, hperm⟩, _⟩ := hproc
      dsimp only [hashAccountTrie]
      rcases liveMap_rootHash hm true (env.schedule none) with ⟨_, he⟩ | ⟨t', he, hm', hh, hs⟩
      · rw [he]
        exact Or.inl rfl
      rw [he]
      refine ⟨m, rfl, ⟨h.storage, h.incremental, h.cache, hm', hkeyed, hperm⟩, hh, hs,
        h.proofKeys, ?_⟩
      rintro e he
      rw [h.proofResult] at he
      cases he
    | .ok false =>
      dsimp only
      obtain ⟨cache, trie, missing, requested, res, he, hF, hlive, hres⟩ :=
        fetchMissingAccountTrieNodes_spec hdec
          (c := { c with accountTrie := { c.accountTrie with update := u } }) h.cache.ok env
          (.account i) (hp _)
      rw [he]
      cases res with
      | error e =>
        rcases hres with hres | hres | hres
        · cases hres
        · exact Or.inl (Except.error.inj hres)
        · exact Or.inr (Or.inr ⟨i, by rwa [h.cache.lastBlockHash] at hres⟩)
      | ok _ =>
        obtain ⟨m, hm⟩ := hproc.live
        exact ih (i + 1) _ ⟨h.storage, h.incremental, h.cache.trans hF,
          { hproc with live := ⟨m, hlive m _ hm⟩ }, h.proofKeys, h.proofResult⟩

theorem accountPart_spec (call : Call)
    (hp : ∀ phase, (call.env.provider phase).Correct keccak base)
    (h : StorageDone keccak base before plan c) (hnd : (plan.map Prod.fst).Nodup)
    (hkept : AccountsKept keccak base c)
    (hkeep : ∀ e ∈ plan, keepAccount c.incrementalAccountChange e.1 = false)
    (hapart : ((keptChanges (keepAccount c.incrementalAccountChange)
      c.accountTrie.update.appliedPrevious ++ accountChanges keccak base plan).map
        (accountKey keccak ∘ Prod.fst)).Nodup) :
    AccountLoopOutcome keccak base c (keptChanges (keepAccount c.incrementalAccountChange)
      c.accountTrie.update.appliedPrevious ++ accountChanges keccak base plan)
      call.env (c.accountPart keccak decode call) := by
  unfold accountPart
  exact (prepareChangesAccountTrie_spec h hnd hkept hkeep hapart call.env call.proofTargets).elim
    (fun c1 _ h1 => accountLoop_spec hdec call.env hp 10 0 c1 h1) fun _ _ he => .inl he

end

/-! ## Proofs -/

section Proofs

variable {m : MptMap}

/-- On a hashed trie the loop over the targets only ever misses nodes. -/
theorem proofLoop_spec {store : ProofStore} {R : Nibbles → Nat → MptNode → Prop}
    (hR : Trie.RemotePtrs keccak store R) {t : Trie}
    (h : Trie.Holds (nodeCodec keccak) R keys64 t m) (hh : t.IsHashed (.localIdx 0)) :
    ∀ ops : List ProofOp, (∀ op ∈ ops, op.key = accountKey keccak op.address) →
      ∃ ops' proofs missing, proofLoop store t ops = (ops', proofs, missing, .ok ()) ∧
        (∀ op ∈ ops', op.key = accountKey keccak op.address) ∧
        ProofsOpen keccak m proofs := by
  intro ops
  induction ops with
  | nil => intro _; exact ⟨[], [], [], rfl, fun _ h => absurd h not_mem_nil,
      fun _ h => absurd h not_mem_nil⟩
  | cons op ops ih =>
    intro hkeys
    obtain ⟨hop, hkeys⟩ := forall_mem_cons.mp hkeys
    obtain ⟨ops', proofs, missing, he, hkeys', hopen⟩ := ih hkeys
    unfold proofLoop
    rw [he]
    by_cases hok : op.ok = true
    · rw [if_pos hok]
      exact ⟨_, _, _, rfl, forall_mem_cons.mpr ⟨hop, hkeys'⟩, hopen⟩
    rw [if_neg hok]
    rcases Trie.holds_getProof_trail prefixFree_keys64 hR h hh op.key with hg | hg
    · rw [hg]
      refine ⟨_, _, _, rfl, forall_mem_cons.mpr ⟨hop, hkeys'⟩, forall_mem_cons.mpr ⟨?_, hopen⟩⟩
      rw [← hop]
      exact Trie.opensRoot_ofMap (h.prefixFree prefixFree_keys64) op.key
    · rw [hg]
      exact ⟨_, _, _, rfl, forall_mem_cons.mpr ⟨hop, hkeys'⟩, hopen⟩

theorem AccountDone.setTrie (h : AccountDone keccak base before changes m c)
    {cache : SharedCache} (hF : Fetched keccak base c.sharedCache cache) {trie : Trie}
    (hlive : LiveMap keccak base.accounts encodeAccount cache.accountTrie trie m
      (records c.accountTrie.update.appliedPrevious)) (missing requested : List Nibbles) :
    AccountDone keccak base before changes m
      ({ c with sharedCache := cache }.setAccountTrie trie missing requested) :=
  { h with cache := h.cache.trans hF, live := hlive }

theorem processAccountTrieProofs_spec (h : ProofInv keccak base before changes m c) :
    ∃ c' found, c.processAccountTrieProofs = (c', .ok found) ∧
      ProofInv keccak base before changes m c' := by
  obtain ⟨ops, proofs, missing, he, hkeys, hopen⟩ := proofLoop_spec
    (Trie.remotePtrs_known _ _ _) h.holds h.hashed c.accountTrie.proofOps h.keys
  unfold processAccountTrieProofs
  dsimp only
  rw [he]
  exact ⟨_, _, rfl, ⟨h.done.storage, h.done.incremental, h.done.cache, h.done.live, h.done.keyed,
    h.done.perm⟩, h.holds, h.hashed, hkeys,
    fun e he => (mem_append.mp he).elim (h.opened e) (hopen e)⟩

variable (keccak base) in
/-- Whether or not the proofs are found, the account trie keeps its map. -/
def ProofsLoopOutcome (before : RootHashCalculator) (changes : AccountChanges)
    (m : MptMap) (out : Result Unit) : Prop :=
  AccountDone keccak base before changes m out.1 ∧
    (out.2 = .ok () → ProofsOpen keccak m out.1.accountTrie.proofResult)

theorem proofsLoop_spec (hdec : DecodesBase keccak base decode) (env : CallEnv)
    (hp : ∀ phase, (env.provider phase).Correct keccak base) (left : Nat) :
    ∀ (i : Nat) (c : RootHashCalculator), ProofInv keccak base before changes m c →
      ProofsLoopOutcome keccak base before changes m (c.proofsLoop keccak decode env left i) := by
  induction left with
  | zero => intro i c h; exact ⟨h.done, fun he => by cases he⟩
  | succ left ih =>
    intro i c h
    obtain ⟨c1, found, he, h1⟩ := processAccountTrieProofs_spec h
    unfold proofsLoop
    rw [he]
    cases found with
    | true => exact ⟨h1.done, fun _ => h1.opened⟩
    | false =>
      obtain ⟨cache, trie, missing, requested, res, hfe, hF, hlive, _⟩ :=
        fetchMissingAccountTrieNodes_spec hdec h1.done.cache.ok env (.proofs i) (hp _)
      have h2 := h1.done.setTrie hF (hlive m _ h1.done.live) missing requested
      dsimp only
      rw [hfe]
      cases res with
      | error e => exact ⟨h2, fun he => by cases he⟩
      | ok _ =>
        dsimp only [rehashAccountTrie]
        rcases liveMap_rootHash h2.live true (env.schedule none) with
          ⟨_, hr⟩ | ⟨t', hr, hm', hholds, hhashed⟩
        · rw [hr]
          exact ⟨h2, fun he => by cases he⟩
        · rw [hr]
          exact ih (i + 1) _ ⟨{ h2 with live := hm' },
            hholds, hhashed, h1.keys, h1.opened⟩

theorem lookup_foldl_insert {proofs : List (Address × List (Nibbles × Bytes))} {a : Address}
    {proof : List Bytes} :
    ∀ acc : Proofs, (proofs.foldl (fun (m : Proofs) e =>
        m.insert e.1 (e.2.map Prod.snd)) acc).lookup a = some proof →
      acc.lookup a = some proof ∨ ∃ e ∈ proofs, e.1 = a ∧ e.2.map Prod.snd = proof := by
  induction proofs with
  | nil => intro acc h; exact Or.inl h
  | cons e proofs ih =>
    intro acc h
    rcases ih _ h with h | ⟨e', he', h⟩
    · obtain ⟨rfl, rfl⟩ | ⟨-, h⟩ := AList.lookup_insert_eq_some h
      · exact Or.inr ⟨e, mem_cons_self, rfl, rfl⟩
      · exact Or.inl h
    · exact Or.inr ⟨e', mem_cons_of_mem _ he', h⟩

theorem proofsPart_spec (hdec : DecodesBase keccak base decode) (call : Call)
    (hp : ∀ phase, (call.env.provider phase).Correct keccak base)
    (h : ProofInv keccak base before changes m c) :
    AccountDone keccak base before changes m (c.proofsPart keccak decode call).1 ∧
      ∀ proofs, (c.proofsPart keccak decode call).2 = .ok proofs →
        (∀ a ∈ call.proofTargets, (proofs.lookup a).isSome) ∧
        ∀ a proof, proofs.lookup a = some proof →
          Trie.OpensRoot keccak (mptRoot keccak m) (accountKey keccak a) proof
            (m.lookup (accountKey keccak a)) := by
  obtain ⟨hdone, hopen⟩ := proofsLoop_spec hdec call.env hp 10 0 c h
  unfold proofsPart
  generalize c.proofsLoop keccak decode call.env 10 0 = out at hdone hopen
  obtain ⟨c1, res⟩ := out
  cases res with
  | error e => exact ⟨hdone, fun _ he => by cases he⟩
  | ok _ =>
    have h1 : AccountDone keccak base before changes m
        { c1 with accountTrie := { c1.accountTrie with proofResult := [] } } :=
      { hdone with }
    dsimp only
    split
    next hall =>
      refine ⟨h1, fun proofs he => ?_⟩
      obtain rfl := Except.ok.inj he
      refine ⟨fun a ha => all_eq_true.mp hall a ha, fun a proof ha => ?_⟩
      rcases lookup_foldl_insert ∅ ha with ha | ⟨e, he, rfl, rfl⟩
      · cases ha
      · exact hopen rfl e he
    next => exact ⟨h1, fun _ he => by cases he⟩

end Proofs

end SparseMpt
