/-
  Whole calls of the calculator, and runs of calls.

  A call that returns has written exactly the changes of its plan over the base state, and
  leaves records of exactly these changes (`calculate_spec`). So whatever the earlier
  outcomes were, the next call can undo them: in a run of full calls that all return, each
  root is the state root of the base state and that call's own outcome.
-/
import Rbuilder.Calculator.Accounts

namespace SparseMpt

open RootHashCalculator (Call Proofs Result listedBy startCall)
open List

section Calls

variable (keccak : Bytes → B256) (base : BaseState) (decode : Bytes → Option AlloyTrieNode)

/-- What holds of a calculator between calls: every kept trie is the base trie with the
    recorded changes. -/
structure CalculatorInv (c : RootHashCalculator) : Prop where
  cache : CacheOk keccak base c.sharedCache
  storage : ∀ a, StorageKept keccak base (c.sharedCache.storeOf keccak a) a (c.storage a)
  accounts : AccountsKept keccak base c

variable (c : RootHashCalculator) (call : Call)

/-- What a call may be given: the shared cache of the same parent block, a correct database,
    and an outcome whose accounts are as `AccountOk` says and have different hashes. -/
structure CallOk : Prop where
  cache : CacheOk keccak base call.sharedCache
  extends_cache : c.sharedCache.Extends call.sharedCache
  provider : ∀ phase, (call.env.provider phase).Correct keccak base
  accounts : ∀ a acc, call.outcome.lookup a = some acc → AccountOk keccak base a acc
  apart : (call.outcome.keys.map (accountKey keccak)).Nodup

/-- A call with an empty incremental list. -/
structure FullCall : Prop extends
    CallOk keccak base c call where
  full : call.incrementalChange = []

/-- The changes of the account trie in a call that prepares `plan`. -/
def callChanges (plan : Plan) : AccountChanges :=
  keptChanges (keepAccount (listedBy c call)) c.accountTrie.update.appliedPrevious ++
    accountChanges keccak base plan

/-- The calculator after a call that has prepared `plan`: `m` is the account trie. -/
structure CallDone (plan : Plan) (m : MptMap) (c' : RootHashCalculator) : Prop where
  inv : CalculatorInv keccak base c'
  incremental : c'.incrementalAccountChange = listedBy c call
  extends_cache : call.sharedCache.Extends c'.sharedCache
  changes : (changesOf c'.accountTrie.update.appliedPrevious).Perm
    (callChanges keccak base c call plan)
  lookup : ∀ q, m.lookup q = (written encodeAccount (accountKey keccak) base.accounts
    (callChanges keccak base c call plan)).lookup q
  length : ∀ k, k ∈ m → k.length = 64

/-- A call fails before its changes are complete. The calculator is good when it has tried
    nothing but to delete accounts that the base does not have. -/
inductive CallFails (plan : Plan) (c' : RootHashCalculator) : Prop
  | deletesSlot (h : ∃ e ∈ plan, DeletesAbsentSlot keccak base e.1 e.2)
  | deletesAccount (h : DeletesAbsentAccount keccak base (callChanges keccak base c call plan))
      (good : OnlyAbsent keccak base (callChanges keccak base c call plan) →
        CalculatorInv keccak base c')
  | storageFetch (h : StorageFetchFails call.env call.sharedCache.lastBlockHash)
  | accountFetch (h : AccountFetchFails call.env call.sharedCache.lastBlockHash)
  | firstFetch (h : ¬ (call.env.provider .first).Answers call.sharedCache.lastBlockHash)

/-- What a call comes to. An error after the account trie was hashed leaves the calculator as
    a call that returns does. -/
def CallOutcome : Result (B256 × Proofs) → Prop
  | (c', .ok (root, proofs)) => ∃ plan m,
      PlanOf call.env.order (listedBy c call) call.outcome plan ∧
      CallDone keccak base c call plan m c' ∧ root = mptRoot keccak m ∧
      (∀ a ∈ call.proofTargets, (proofs.lookup a).isSome) ∧
      ∀ a proof, proofs.lookup a = some proof →
        Trie.OpensRoot keccak root (accountKey keccak a) proof (m.lookup (accountKey keccak a))
  | (c', .error e) => e = .panic ∨ ∃ plan,
      PlanOf call.env.order (listedBy c call) call.outcome plan ∧
      ((∃ m, CallDone keccak base c call plan m c') ∨ CallFails keccak base c call plan c')

end Calls

variable {keccak : Bytes → B256} {base : BaseState} {decode : Bytes → Option AlloyTrieNode}
  {c c' : RootHashCalculator} {call : Call}

/-! ## One call -/

theorem listedBy_full (h : call.incrementalChange = []) : listedBy c call = [] :=
  if_neg fun hne => hne h

theorem nodup_listedBy (c : RootHashCalculator) (call : Call) : (listedBy c call).Nodup := by
  unfold listedBy
  split
  · exact nodup_dedup _
  · exact nodup_nil

theorem CalculatorInv.start (h : CalculatorInv keccak base c)
    (hcall : CallOk keccak base c call) : CalculatorInv keccak base (startCall c call) :=
  ⟨hcall.cache, fun a => (h.storage a).mono (hcall.extends_cache.storage _),
    h.accounts.mono hcall.extends_cache.accounts⟩

variable {plan : Plan}

theorem keepAccount_of_plan {order : HashOrder} {incremental : List Address} {outcome : BundleState}
    (hplan : PlanOf order incremental outcome plan) :
    ∀ e ∈ plan, keepAccount incremental e.1 = false := by
  intro e he
  unfold PlanOf at hplan
  split at hplan
  next hempty => simp [keepAccount, hempty]
  next =>
    have hmem : e.1 ∈ order.order incremental := by
      rw [← hplan.1]
      exact mem_map.mpr ⟨e, he, rfl⟩
    simp [keepAccount, (order.perm _).mem_iff.mp hmem]

theorem calculate_spec (hdec : DecodesBase keccak base decode)
    (h : CalculatorInv keccak base c) (hcall : CallOk keccak base c call)
    (hapart : ∀ plan, PlanOf call.env.order (listedBy c call) call.outcome plan →
      ((callChanges keccak base c call plan).map (accountKey keccak ∘ Prod.fst)).Nodup) :
    CallOutcome keccak base c call (c.calculateRootHashWithSparseTrie keccak decode call) := by
  have hstart := h.start hcall
  have hstorage := storagePart_spec hdec call hcall.provider hstart.storage hstart.cache
    (nodup_listedBy c call) hcall.accounts
  unfold RootHashCalculator.calculateRootHashWithSparseTrie
  generalize (startCall c call).storagePart keccak decode call = out at hstorage
  obtain ⟨c1, res⟩ := out
  cases res with
  | error e =>
    refine hstorage.imp_right fun ⟨plan, hplan, hfail⟩ => ⟨plan, hplan, Or.inr ?_⟩
    rcases hfail with hfail | hfail | hfail
    · exact .deletesSlot hfail
    · exact .storageFetch hfail
    · exact .firstFetch hfail
  | ok _ =>
    obtain ⟨plan, hplan, hnd, h1⟩ := hstorage
    have hinc : c1.incrementalAccountChange = listedBy c call := h1.incremental
    have hchanges : keptChanges (keepAccount c1.incrementalAccountChange)
        c1.accountTrie.update.appliedPrevious ++ accountChanges keccak base plan =
        callChanges keccak base c call plan := by
      rw [hinc, h1.accountTrie]
      rfl
    have hkept : AccountsKept keccak base c1 := by
      have := hstart.accounts.mono h1.cache.ext.accounts
      unfold AccountsKept
      rw [h1.accountTrie]
      exact this
    have haccount := accountPart_spec hdec call hcall.provider h1 hnd hkept
      (by rw [hinc]; exact keepAccount_of_plan hplan) (by rw [hchanges]; exact hapart plan hplan)
    rw [hchanges] at haccount
    dsimp only
    generalize c1.accountPart keccak decode call = out at haccount
    obtain ⟨c2, res⟩ := out
    cases res with
    | error e =>
      refine haccount.imp_right fun hfail => ⟨plan, hplan, Or.inr ?_⟩
      rw [h1.cache.lastBlockHash] at hfail
      refine hfail.elim (fun h2 => .deletesAccount h2.absent fun honly => ?_) .accountFetch
      refine ⟨h2.cache.ok, fun a => ?_, h2.prepared.kept h2.undone fun e he => ?_⟩
      · rw [h2.storage]
        exact (h1.kept a).mono (h2.cache.ext.storage _)
      · obtain ⟨hnone, hlookup⟩ := honly e he
        exact ⟨congrArg encodeAccount hnone, hlookup⟩
    | ok root =>
      obtain ⟨m, rfl, h2⟩ := haccount
      obtain ⟨h3, hproofs⟩ := proofsPart_spec hdec call hcall.provider h2
      dsimp only
      generalize c2.proofsPart keccak decode call = out at h3 hproofs
      obtain ⟨c3, res⟩ := out
      have hdone : CallDone keccak base c call plan m c3 := by
        refine ⟨⟨h3.cache.ok, fun a => ?_, ⟨⟨m, h3.live⟩, h3.keyed⟩⟩,
          h3.incremental.trans hinc, h1.cache.ext.trans h3.cache.ext, h3.perm,
          h3.live.lookup_eq h3.keyed h3.perm, h3.live.length⟩
        rw [h3.storage]
        exact (h1.kept a).mono (h3.cache.ext.storage _)
      cases res with
      | error e => exact Or.inr ⟨plan, hplan, Or.inl ⟨m, hdone⟩⟩
      | ok proofs =>
        obtain ⟨hall, hopen⟩ := hproofs proofs rfl
        exact ⟨plan, m, hplan, hdone, rfl, hall, hopen⟩

theorem CallDone.root_eq {m m' : MptMap} (h : CallDone keccak base c call plan m c')
    (hm' : ∀ q, (written encodeAccount (accountKey keccak) base.accounts
      (callChanges keccak base c call plan)).lookup q = m'.lookup q) :
    mptRoot keccak m = mptRoot keccak m' :=
  Trie.mptRoot_congr (prefixFree_base h.length) fun q => (h.lookup q).trans (hm' q)

/-! ## Full calls -/

theorem callChanges_full (h : call.incrementalChange = []) (plan : Plan) :
    callChanges keccak base c call plan = accountChanges keccak base plan := by
  simp [callChanges, listedBy_full h, keptChanges, keepAccount]

theorem planOf_full {order : HashOrder} {outcome : BundleState} (h : PlanOf order [] outcome plan) :
    plan = modifiedAccounts outcome := by
  rwa [PlanOf, if_pos rfl] at h

/-- The changes of the modified accounts make the state after the outcome. -/
theorem written_modifiedAccounts (outcome : BundleState) :
    written encodeAccount (accountKey keccak) base.accounts
        (accountChanges keccak base (modifiedAccounts outcome)) =
      stateAfter keccak base outcome := by
  rw [written, accountChanges, foldl_map]
  rfl

theorem apart_modifiedAccounts {outcome : BundleState}
    (h : (outcome.keys.map (accountKey keccak)).Nodup) :
    ((accountChanges keccak base (modifiedAccounts outcome)).map
      (accountKey keccak ∘ Prod.fst)).Nodup := by
  have hmap : (accountChanges keccak base (modifiedAccounts outcome)).map
      (accountKey keccak ∘ Prod.fst) =
        (outcome.entries.filter fun e => !e.2.status.isNotModified).map
          (accountKey keccak ∘ Sigma.fst) := by
    simp only [accountChanges, modifiedAccounts, map_map]
    rfl
  have hkeys : outcome.keys.map (accountKey keccak) =
      outcome.entries.map (accountKey keccak ∘ Sigma.fst) := by
    simp only [AList.keys, keys, map_map]
  rw [hmap]
  rw [hkeys] at h
  exact (filter_sublist.map _).nodup h

theorem FullCall.outcome (hdec : DecodesBase keccak base decode)
    (h : CalculatorInv keccak base c) (hcall : FullCall keccak base c call) :
    CallOutcome keccak base c call (c.calculateRootHashWithSparseTrie keccak decode call) := by
  refine calculate_spec hdec h hcall.toCallOk fun plan hplan => ?_
  rw [listedBy_full hcall.full] at hplan
  rw [callChanges_full hcall.full, planOf_full hplan]
  exact apart_modifiedAccounts hcall.apart

variable (keccak base) in
/-- A full call writes the state after the outcome. -/
theorem written_full (hfull : call.incrementalChange = [])
    (hplan : PlanOf call.env.order (listedBy c call) call.outcome plan) :
    written encodeAccount (accountKey keccak) base.accounts
      (callChanges keccak base c call plan) = stateAfter keccak base call.outcome := by
  rw [listedBy_full hfull] at hplan
  rw [callChanges_full hfull, planOf_full hplan, written_modifiedAccounts]

/-- A full call that returns, returns the state root and proofs for it. -/
theorem FullCall.returns (hdec : DecodesBase keccak base decode)
    (h : CalculatorInv keccak base c) (hcall : FullCall keccak base c call) {root : B256}
    {proofs : Proofs}
    (hres : (c.calculateRootHashWithSparseTrie keccak decode call).2 = .ok (root, proofs)) :
    CalculatorInv keccak base (c.calculateRootHashWithSparseTrie keccak decode call).1 ∧
      root = stateRoot keccak base call.outcome ∧
      (∀ a ∈ call.proofTargets, (proofs.lookup a).isSome) ∧
      ∀ a proof, proofs.lookup a = some proof →
        Trie.OpensRoot keccak root (accountKey keccak a) proof
          ((stateAfter keccak base call.outcome).lookup (accountKey keccak a)) := by
  have hout := hcall.outcome hdec h
  generalize c.calculateRootHashWithSparseTrie keccak decode call = out at hres hout
  obtain ⟨c', res⟩ := out
  obtain rfl : res = .ok (root, proofs) := hres
  obtain ⟨plan, m, hplan, hdone, hroot, hall, hopen⟩ := hout
  have hwritten := written_full keccak base hcall.full hplan
  refine ⟨hdone.inv, ?_, hall, fun a proof ha => ?_⟩
  · exact hroot.trans (hdone.root_eq fun q => by rw [hwritten])
  · rw [← hwritten, ← hdone.lookup]
    exact hopen a proof ha

/-! ## Runs of full calls -/

theorem calculatorInv_new : CalculatorInv keccak base {} where
  cache := ⟨fun _ _ h => absurd h (by simp), fun _ _ _ h => absurd h (by simp)⟩
  storage a := ⟨⟨live_uninit (base.storage_length _), fun _ h => absurd h not_mem_nil⟩,
    fun h => absurd rfl h⟩
  accounts := ⟨live_uninit base.accounts_length, fun _ h => absurd h not_mem_nil⟩

variable (keccak base decode) in
/-- A new calculator, and what it becomes by full calls that return. -/
inductive FullRun : RootHashCalculator → Prop
  | new : FullRun {}
  | call {c : RootHashCalculator} {call : Call} {out : B256 × Proofs} (run : FullRun c)
      (ok : FullCall keccak base c call)
      (returns : (c.calculateRootHashWithSparseTrie keccak decode call).2 = .ok out) :
      FullRun (c.calculateRootHashWithSparseTrie keccak decode call).1

theorem FullRun.inv (hdec : DecodesBase keccak base decode)
    (h : FullRun keccak base decode c) : CalculatorInv keccak base c := by
  induction h with
  | new => exact calculatorInv_new
  | call _ ok returns ih => exact (ok.returns hdec ih returns).1

/-- After any run of full calls that returned, a full call that returns gives the state root
    of the base state and its own outcome, and a proof of every target account, or of its
    absence, against that root. -/
theorem full_calls_return_state_root (keccak : Bytes → B256)
    (decode : Bytes → Option AlloyTrieNode) (base : BaseState)
    (hdec : DecodesBase keccak base decode) {c : RootHashCalculator}
    (hrun : FullRun keccak base decode c) {call : Call} (hcall : FullCall keccak base c call)
    {root : B256} {proofs : Proofs}
    (hres : (c.calculateRootHashWithSparseTrie keccak decode call).2 = .ok (root, proofs)) :
    root = stateRoot keccak base call.outcome ∧
      (∀ a ∈ call.proofTargets, (proofs.lookup a).isSome) ∧
      ∀ a proof, proofs.lookup a = some proof →
        Trie.OpensRoot keccak root (accountKey keccak a) proof
          ((stateAfter keccak base call.outcome).lookup (accountKey keccak a)) :=
  (hcall.returns hdec (hrun.inv hdec) hres).2

/-! ### Two calls on the empty state -/

def alice : Address := Vector.replicate 20 0

def aliceHash : B256 :=
  #v[83, 128, 199, 183, 174, 129, 165, 142, 185, 141, 156, 120, 222, 74, 31, 215, 253, 149, 53, 252,
    149, 62, 210, 190, 96, 45, 170, 164, 23, 103, 49, 42]

def bob : Address := (Vector.replicate 19 0).push 1

def bobHash : B256 :=
  #v[20, 104, 40, 128, 86, 49, 12, 130, 170, 76, 1, 167, 225, 42, 16, 248, 17, 26, 5, 96, 231, 43,
    112, 5, 85, 71, 144, 49, 184, 108, 53, 125]

/-- The leaf of an account without nonce, code and storage. -/
def payeeLeaf (key : Nibbles) (balance : U256) : Bytes :=
  encodeLeaf key (TrieAccount.mk 0 balance emptyRoot emptyCodeHash).encode

/-- The account trie when it has one account only. -/
def aliceLeaf (balance : U256) : Bytes := payeeLeaf (unpack aliceHash.toList) balance

def bobLeaf (balance : U256) : Bytes := payeeLeaf (unpack bobHash.toList) balance

/-- The root of the account trie when it has both accounts, from the hashes of their leaves. -/
def aliceBobBranch (aliceDigest bobDigest : B256) : Bytes :=
  encodeBranchNode fun i =>
    if i = 5 then some (0xa0 :: aliceDigest.toList)
    else if i = 1 then some (0xa0 :: bobDigest.toList)
    else none

def aliceDigest : B256 :=
  #v[232, 227, 143, 172, 156, 123, 222, 139, 170, 53, 113, 231, 133, 56, 117, 199, 94, 7, 14, 247,
    49, 133, 203, 99, 92, 3, 31, 158, 15, 104, 52, 14]

def bobDigest : B256 :=
  #v[171, 140, 219, 128, 140, 131, 3, 187, 97, 251, 72, 226, 118, 33, 123, 233, 119, 15, 168, 62,
    207, 63, 144, 242, 35, 77, 85, 136, 133, 245, 171, 241]

def bobDigestTwo : B256 :=
  #v[59, 127, 152, 249, 229, 136, 111, 26, 110, 89, 253, 68, 188, 129, 59, 188, 228, 42, 69, 162,
    89, 112, 102, 248, 114, 195, 56, 225, 18, 130, 129, 188]

/-- `keccak256` of the data of the calls below. -/
def digests : List (Bytes × B256) :=
  [([0x80], emptyRoot),
    (alice.toList, aliceHash),
    (bob.toList, bobHash),
    (aliceLeaf 1,
      #v[144, 121, 14, 13, 72, 43, 160, 91, 204, 74, 249, 64, 74, 64, 109, 108, 32, 1, 54, 195, 232,
        84, 207, 188, 215, 62, 237, 249, 26, 49, 128, 241]),
    (aliceLeaf 2,
      #v[195, 100, 155, 0, 248, 130, 201, 0, 109, 32, 192, 241, 26, 120, 136, 18, 4, 20, 121, 29,
        216, 220, 141, 153, 247, 215, 27, 50, 122, 198, 200, 10]),
    (bobLeaf 1,
      #v[128, 40, 194, 139, 85, 234, 184, 190, 8, 136, 62, 146, 31, 32, 209, 182, 204, 159, 42, 160,
        44, 198, 205, 144, 207, 170, 155, 4, 98, 255, 109, 62]),
    (payeeLeaf (unpack aliceHash.toList).tail 1, aliceDigest),
    (payeeLeaf (unpack bobHash.toList).tail 1, bobDigest),
    (payeeLeaf (unpack bobHash.toList).tail 2, bobDigestTwo),
    (aliceBobBranch aliceDigest bobDigest,
      #v[79, 59, 192, 202, 17, 131, 94, 177, 96, 228, 169, 188, 19, 145, 180, 88, 216, 83, 163, 123,
        255, 88, 104, 254, 88, 89, 25, 88, 91, 119, 129, 117]),
    (aliceBobBranch aliceDigest bobDigestTwo,
      #v[52, 146, 75, 146, 99, 181, 1, 111, 132, 222, 27, 116, 19, 53, 95, 34, 93, 222, 157, 138, 0,
        177, 236, 174, 102, 124, 60, 145, 29, 111, 195, 60])]

def exampleKeccak (data : Bytes) : B256 := (digests.lookup data).getD B256.zero

def emptyBase : BaseState where
  accounts := ∅
  storage _ := ∅
  accounts_length k hk := absurd hk (AList.notMem_empty k)
  storage_length _ k hk := absurd hk (AList.notMem_empty k)

def decodeEmptyRoot (rlp : Bytes) : Option AlloyTrieNode :=
  if rlp = [0x80] then some .emptyRoot else none

/-- The database of the empty state. -/
def emptyProvider : Provider where
  blockHash := .ok none
  storageMultiproof _ _ := .ok [([], [0x80])]
  multiproof _ := .ok [([], [0x80])]

def exampleEnv (provider : Provider) : CallEnv where
  provider _ := provider
  order := ⟨fun l => l, fun _ => List.Perm.refl _⟩
  schedule _ := .inOrder
  started _ := true

def payee (balance : U256) : BundleAccount := ⟨some ⟨balance, 0, emptyCodeHash⟩, ∅, .inMemoryChange⟩

/-- The outcome of a payment to one account. -/
def paidAlice (balance : U256) : BundleState := (∅ : BundleState).insert alice (payee balance)

def fullCall (provider : Provider) (cache : SharedCache) (outcome : BundleState)
    (proofTargets : List Address) : Call where
  env := exampleEnv provider
  sharedCache := cache
  outcome := outcome
  incrementalChange := []
  proofTargets := proofTargets

def exampleCall (provider : Provider) (c : RootHashCalculator) (outcome : BundleState)
    (proofTargets : List Address) : Result (B256 × Proofs) :=
  c.calculateRootHashWithSparseTrie exampleKeccak decodeEmptyRoot
    (fullCall provider c.sharedCache outcome proofTargets)

def payAliceOnce : RootHashCalculator := (exampleCall emptyProvider {} (paidAlice 1) [alice]).1

theorem baseNode_empty {p : Nibbles} {n : MptNode} (h : BaseNode (Patricia.ofMap ∅) p n) :
    p = [] ∧ n = .null := by
  rcases h with ⟨_, hp, hn⟩ | h
  · exact ⟨hp, hn⟩
  · cases p <;> cases h

theorem decodesBase_empty : DecodesBase exampleKeccak emptyBase decodeEmptyRoot where
  accounts p n h := by
    obtain ⟨_, rfl⟩ := baseNode_empty h
    rfl
  storage _ p n h := by
    obtain ⟨_, rfl⟩ := baseNode_empty h
    rfl

theorem emptyProvider_correct : emptyProvider.Correct exampleKeccak emptyBase := by
  have hproof : ProofStore.IsBaseProof (nodeCodec exampleKeccak) (Patricia.ofMap ∅)
      [([], [0x80])] := by
    intro e he
    obtain rfl := mem_singleton.mp he
    exact ⟨.null, Or.inl ⟨rfl, rfl, rfl⟩, rfl⟩
  refine ⟨fun _ nodes h => ?_, fun _ _ nodes h => ?_⟩
  · obtain rfl := Except.ok.inj h
    exact hproof
  · obtain rfl := Except.ok.inj h
    exact hproof

/-- The accounts of the outcomes below change no slots and are not re-created. -/
theorem accountOk_of_plain {a : Address} {acc : BundleAccount} (hslots : acc.changedSlots = [])
    (hstatus : acc.status.wasDestroyed = true → acc.info = none) :
    AccountOk exampleKeccak emptyBase a acc :=
  ⟨hslots ▸ nodup_nil, fun hd hinfo => absurd (hstatus hd) hinfo⟩

theorem accountOk_payee (a : Address) (balance : U256) :
    AccountOk exampleKeccak emptyBase a (payee balance) :=
  accountOk_of_plain rfl fun hd => by cases hd

theorem accountOk_insert {outcome : BundleState} {b : Address} {new : BundleAccount}
    (h : ∀ a acc, outcome.lookup a = some acc → AccountOk exampleKeccak emptyBase a acc)
    (hnew : AccountOk exampleKeccak emptyBase b new) :
    ∀ a acc, (outcome.insert b new).lookup a = some acc →
      AccountOk exampleKeccak emptyBase a acc := by
  intro a acc hl
  obtain ⟨rfl, rfl⟩ | ⟨-, hl⟩ := AList.lookup_insert_eq_some hl
  · exact hnew
  · exact h a acc hl

theorem accountOk_paidAlice (balance : U256) :
    ∀ a acc, (paidAlice balance).lookup a = some acc → AccountOk exampleKeccak emptyBase a acc :=
  accountOk_insert (fun _ _ h => by cases h) (accountOk_payee alice balance)

theorem fullCall_ok {provider : Provider} (hp : provider.Correct exampleKeccak emptyBase)
    {c : RootHashCalculator} (h : CacheOk exampleKeccak emptyBase c.sharedCache)
    {outcome : BundleState}
    (haccs : ∀ a acc, outcome.lookup a = some acc → AccountOk exampleKeccak emptyBase a acc)
    (hapart : (outcome.keys.map (accountKey exampleKeccak)).Nodup) (proofTargets : List Address) :
    FullCall exampleKeccak emptyBase c (fullCall provider c.sharedCache outcome proofTargets) where
  cache := h
  extends_cache := SharedCache.Extends.refl _
  provider _ := hp
  accounts := haccs
  apart := hapart
  full := rfl

theorem full_calls_return_state_root_paid_twice :
    ∃ proofs, (exampleCall emptyProvider payAliceOnce (paidAlice 2) [alice]).2 =
        .ok (exampleKeccak (aliceLeaf 2), proofs) ∧
      exampleKeccak (aliceLeaf 2) = stateRoot exampleKeccak emptyBase (paidAlice 2) ∧
      proofs.lookup alice = some [aliceLeaf 2] ∧
      Trie.OpensRoot exampleKeccak (exampleKeccak (aliceLeaf 2)) (accountKey exampleKeccak alice)
        [aliceLeaf 2] ((stateAfter exampleKeccak emptyBase (paidAlice 2)).lookup
          (accountKey exampleKeccak alice)) := by
  have hnew : FullRun exampleKeccak emptyBase decodeEmptyRoot {} := .new
  have hfirst : (exampleCall emptyProvider {} (paidAlice 1) [alice]).2 =
        .ok (exampleKeccak (aliceLeaf 1), (∅ : Proofs).insert alice [aliceLeaf 1]) := rfl
  have honce : FullRun exampleKeccak emptyBase decodeEmptyRoot payAliceOnce :=
    hnew.call (fullCall_ok emptyProvider_correct (hnew.inv decodesBase_empty).cache
      (accountOk_paidAlice 1) (List.nodup_singleton _) [alice]) hfirst
  have hcall := fullCall_ok emptyProvider_correct (honce.inv decodesBase_empty).cache
    (accountOk_paidAlice 2) (List.nodup_singleton _) [alice]
  have hres : (exampleCall emptyProvider payAliceOnce (paidAlice 2) [alice]).2 =
        .ok (exampleKeccak (aliceLeaf 2), (∅ : Proofs).insert alice [aliceLeaf 2]) := rfl
  obtain ⟨hroot, _, hproof⟩ := full_calls_return_state_root exampleKeccak decodeEmptyRoot emptyBase
    decodesBase_empty honce hcall hres
  exact ⟨_, hres, hroot, rfl, hproof alice _ rfl⟩

end SparseMpt
