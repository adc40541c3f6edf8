/-
  Calls that fail.

  A call undoes and makes changes while the records of what is applied are on their way from
  `appliedPrevious` to `appliedCurrent`; when it fails there, the next call clears
  `appliedCurrent` and the changes stay in the tries without a record. A calculator is as
  good as before when the call fails later than that, with the account trie hashed, or
  before it, with no records on their way, or where the old changes are undone and none is made.
-/
import Rbuilder.Calculator.Run

namespace SparseMpt

open RootHashCalculator List

variable {keccak : Bytes → B256} {base : BaseState} {decode : Bytes → Option AlloyTrieNode}
  {c c' : RootHashCalculator} {call : Call}

/-! ## Calls that fail at the first fetch -/

theorem records_empty {K V : Type} : records (∅ : AList fun _ : K => AppliedOp V) = [] := rfl

/-- An account without records of slots can be prepared and left. -/
theorem prepareOne_kept {store : ProofStore} {a : Address} {acc : BundleAccount}
    (hacc : AccountOk keccak base a acc)
    (h : StorageKept keccak base store a (c.storage a)) (order : HashOrder)
    (hclean : acc.info ≠ none → (c.storage a).update.appliedPrevious = ∅) :
    StorageKept keccak base store a
      ((c.prepareChangesForOneStorageTrie keccak order a acc).storage a) := by
  unfold prepareChangesForOneStorageTrie
  cases hinfo : acc.info with
  | none =>
    show StorageKept _ _ _ _ ((c.setStorage a _).storage a)
    rw [storage_setStorage_self]
    exact ⟨⟨h.kept.live, h.kept.keyed⟩, fun hne => absurd rfl hne⟩
  | some info =>
    have hnil := hclean (by simp [hinfo])
    have hprep := prepareSlots_spec hacc h.kept.keyed order
    have hlive := h.kept.live
    have hhash := h.hash
    rw [hnil, records_empty] at hprep hlive hhash
    have hcurrent : records (prepareSlots keccak order acc
        (c.storage a).clear.update).appliedCurrent = [] := by
      have horigin := perm_nil.mp hprep.origin
      rw [append_eq_nil_iff, append_eq_nil_iff] at horigin
      exact horigin.2.1
    simp only [foldl_eq_prepareSlots]
    split
    · show StorageKept _ _ _ _ ((c.setStorage a _).storage a)
      rw [storage_setStorage_self]
      refine ⟨⟨?_, hprep.keyed⟩, ?_⟩
      · show Live _ _ _ _ (prepareSlots keccak order acc _).trie (records _)
        rw [hprep.trie]
        exact hcurrent ▸ hlive
      · show _ → ∃ m, LiveMap _ _ _ _ (prepareSlots keccak order acc _).trie m _ ∧ _
        rw [hprep.trie]
        exact hcurrent ▸ hhash
    show StorageKept _ _ _ _ ((c.setStorage a _).storage a)
    rw [storage_setStorage_self]
    have hprev : (prepareSlots keccak order acc
        (c.storage a).clear.update).appliedPrevious = ∅ := appliedPrevious_drainPrevious ..
    refine ⟨⟨?_, ?_⟩, fun hne => absurd rfl hne⟩
    · rw [hprep.trie, hprev]
      exact hlive
    · rw [hprev]
      exact fun _ hm => absurd hm not_mem_nil

theorem storage_prepareOne_of_ne (c : RootHashCalculator) (order : HashOrder) {a b : Address}
    (acc : BundleAccount) (h : b ≠ a) :
    (c.prepareChangesForOneStorageTrie keccak order a acc).storage b = c.storage b := by
  unfold prepareChangesForOneStorageTrie
  cases acc.info with
  | none => exact storage_setStorage_of_ne c _ h
  | some info =>
    dsimp only
    split <;> exact storage_setStorage_of_ne c _ h

/-- What preparing accounts does not touch, and the accounts it lists. -/
structure PreparesOnly (c : RootHashCalculator) (addresses : List Address)
    (c' : RootHashCalculator) : Prop where
  accountTrie : c'.accountTrie = c.accountTrie
  sharedCache : c'.sharedCache = c.sharedCache
  incremental : c'.incrementalAccountChange = c.incrementalAccountChange
  changed : c'.changedAccount.map Prod.fst = c.changedAccount.map Prod.fst ++ addresses

variable (keccak) in
theorem preparesOnly_one (c : RootHashCalculator) (order : HashOrder) (a : Address)
    (acc : BundleAccount) :
    PreparesOnly c [a] (c.prepareChangesForOneStorageTrie keccak order a acc) := by
  unfold prepareChangesForOneStorageTrie
  cases acc.info with
  | none => exact ⟨rfl, rfl, rfl, map_append⟩
  | some info =>
    dsimp only
    split <;> exact ⟨rfl, rfl, rfl, map_append⟩

variable (keccak) in
theorem preparesOnly_all (order : HashOrder) (accounts : Plan) :
    ∀ c : RootHashCalculator, PreparesOnly c (accounts.map Prod.fst) (accounts.foldl
      (fun c e => c.prepareChangesForOneStorageTrie keccak order e.1 e.2) c) := by
  induction accounts with
  | nil => intro c; exact ⟨rfl, rfl, rfl, (append_nil _).symm⟩
  | cons e accounts ih =>
    intro c
    have hone := preparesOnly_one keccak c order e.1 e.2
    have hrest := ih (c.prepareChangesForOneStorageTrie keccak order e.1 e.2)
    refine ⟨hrest.accountTrie.trans hone.accountTrie, hrest.sharedCache.trans hone.sharedCache,
      hrest.incremental.trans hone.incremental, ?_⟩
    rw [foldl_cons, hrest.changed, hone.changed, append_assoc]
    rfl

theorem CalculatorInv.prepareAll (order : HashOrder) (accounts : Plan) :
    ∀ c : RootHashCalculator, CalculatorInv keccak base c → (accounts.map Prod.fst).Nodup →
      (∀ e ∈ accounts, AccountOk keccak base e.1 e.2) →
      (∀ e ∈ accounts, e.2.info ≠ none → (c.storage e.1).update.appliedPrevious = ∅) →
      CalculatorInv keccak base (accounts.foldl (fun c e =>
        c.prepareChangesForOneStorageTrie keccak order e.1 e.2) c) := by
  induction accounts with
  | nil => intro c h _ _ _; exact h
  | cons e accounts ih =>
    intro c h hnd hacc hclean
    rw [map_cons, nodup_cons] at hnd
    obtain ⟨htrie, hcache, _, _⟩ := preparesOnly_one keccak c order e.1 e.2
    refine ih _ ⟨?_, fun a => ?_, ?_⟩ hnd.2 (fun e' he' => hacc e' (mem_cons_of_mem _ he'))
      fun e' he' hinfo => ?_
    · rw [hcache]
      exact h.cache
    · rw [hcache]
      by_cases ha : a = e.1
      · subst ha
        exact prepareOne_kept (hacc e mem_cons_self) (h.storage _) order (hclean e mem_cons_self)
      · rw [storage_prepareOne_of_ne c order e.2 ha]
        exact h.storage a
    · unfold AccountsKept
      rw [htrie, hcache]
      exact h.accounts
    · have hne : e'.1 ≠ e.1 := fun heq => hnd.1 (heq ▸ mem_map_of_mem he')
      rw [storage_prepareOne_of_ne c order e.2 hne]
      exact hclean e' (mem_cons_of_mem _ he') hinfo

/-- The database refuses every fetch of accounts. -/
def Provider.Refuses (p : Provider) (cache : SharedCache) : Prop :=
  (∃ e, checkBlockHash p cache = .error e) ∨ ∀ targets, ∃ e, p.multiproof targets = .error e

variable {cache cache' : SharedCache}

theorem checkBlockHash_congr (p : Provider) (h : cache'.lastBlockHash = cache.lastBlockHash) :
    checkBlockHash p cache' = checkBlockHash p cache := by
  rw [checkBlockHash, checkBlockHash, h]

theorem Provider.Refuses.fetchNodes {p : Provider} (h : p.Refuses cache)
    (hdec : DecodesBase keccak base decode) (hp : p.Correct keccak base)
    (hok : CacheOk keccak base cache) (order : HashOrder) (f : MissingNodesFetcher) :
    ∃ e, (f.fetchNodes decode p order cache).2 = .error e := by
  obtain ⟨hF, _⟩ := fetchStorage_spec hdec hp (order.order f.storageNodes.entries) cache hok
  unfold MissingNodesFetcher.fetchNodes
  generalize fetchStorage decode p cache (order.order f.storageNodes.entries) = out at hF
  obtain ⟨cache', res⟩ := out
  cases res with
  | error e => exact ⟨e, rfl⟩
  | ok _ =>
    have hcheck := checkBlockHash_congr p hF.lastBlockHash
    dsimp only
    rw [hcheck]
    rcases h with ⟨e, he⟩ | h
    · rw [he]
      exact ⟨e, rfl⟩
    cases checkBlockHash p cache with
    | error e => exact ⟨e, rfl⟩
    | ok _ =>
      obtain ⟨e, he⟩ := h (f.accountNodes.map padPath)
      rw [he]
      exact ⟨e, rfl⟩

theorem Provider.Refuses.fetch {env : CallEnv} {phase : FetchPhase}
    (h : (env.provider phase).Refuses c.sharedCache) (hdec : DecodesBase keccak base decode)
    (hp : (env.provider phase).Correct keccak base) (hok : CacheOk keccak base c.sharedCache)
    {f : MissingNodesFetcher} (hasks : f.accountNodes ≠ []) :
    ∃ e, (c.fetch decode env phase f).2 = .error e := by
  have hne : ¬ f.isEmpty = true := by simp [MissingNodesFetcher.isEmpty, hasks]
  unfold RootHashCalculator.fetch
  rw [if_neg hne]
  exact h.fetchNodes hdec hp hok env.order f

theorem accountNodes_addMissing (store : ProofStore) (h : B256) (nodes : List Nibbles) :
    ∀ f : MissingNodesFetcher, (nodes.foldl (fun f node =>
      if store.hasProof node then f else f.addMissingStorageNode h node) f).accountNodes =
        f.accountNodes := by
  induction nodes with
  | nil => intro f; rfl
  | cons node nodes ih =>
    intro f
    rw [foldl_cons, ih]
    split <;> rfl

theorem accountNodes_firstFetchOne (c : RootHashCalculator) (f : MissingNodesFetcher)
    (a : Address) : (c.firstFetchOne keccak f a).accountNodes =
      if c.sharedCache.accountTrie.hasProof (accountKey keccak a) then f.accountNodes
      else f.accountNodes ++ [accountKey keccak a] := by
  unfold firstFetchOne
  rw [accountNodes_addMissing]
  split <;> split <;> rfl

/-- The first fetch asks for an account that is not in the cache. -/
theorem accountNodes_firstFetch (c : RootHashCalculator) (addresses : List Address) :
    ∀ f : MissingNodesFetcher, (f.accountNodes ≠ [] ∨ ∃ a ∈ addresses,
        c.sharedCache.accountTrie.hasProof (accountKey keccak a) = false) →
      (addresses.foldl (c.firstFetchOne keccak) f).accountNodes ≠ [] := by
  induction addresses with
  | nil => intro f h; exact h.resolve_right (by simp)
  | cons a addresses ih =>
    intro f h
    refine ih _ ?_
    rw [accountNodes_firstFetchOne]
    by_cases ha : c.sharedCache.accountTrie.hasProof (accountKey keccak a) = true
    · rw [if_pos ha]
      refine h.imp_right fun ⟨b, hb, hno⟩ => ?_
      rcases mem_cons.mp hb with rfl | hb
      · rw [ha] at hno
        cases hno
      · exact ⟨b, hb, hno⟩
    · rw [if_neg ha]
      exact Or.inl (by simp)

variable (keccak) in
/-- The first fetch of a call is refused, and no account it has prepared has records of
    slots. -/
structure RefusedAtOnce (c : RootHashCalculator) (call : Call) : Prop where
  missing : ∃ e ∈ modifiedAccounts call.outcome,
    call.sharedCache.accountTrie.hasProof (accountKey keccak e.1) = false
  refuses : (call.env.provider .first).Refuses call.sharedCache
  clean : ∀ e ∈ modifiedAccounts call.outcome, e.2.info ≠ none →
    (c.storage e.1).update.appliedPrevious = ∅

theorem RefusedAtOnce.inv (hdec : DecodesBase keccak base decode)
    (h : CalculatorInv keccak base c) (hcall : FullCall keccak base c call)
    (hr : RefusedAtOnce keccak c call) :
    CalculatorInv keccak base (c.calculateRootHashWithSparseTrie keccak decode call).1 := by
  have hstart := h.start hcall.toCallOk
  have hfull : (startCall c call).incrementalAccountChange = [] := listedBy_full hcall.full
  have haccs : ∀ e ∈ modifiedAccounts call.outcome, AccountOk keccak base e.1 e.2 :=
    fun e he => hcall.accounts _ _ (lookup_of_mem_modifiedAccounts he)
  have hprep : (startCall c call).prepareChangesForStorageTrie keccak call.env.order
      call.outcome = ((modifiedAccounts call.outcome).foldl (fun c e =>
        c.prepareChangesForOneStorageTrie keccak call.env.order e.1 e.2)
          { startCall c call with changedAccount := [] }, .ok ()) := by
    unfold prepareChangesForStorageTrie
    rw [if_neg (fun hne => hne hfull), foldl_modifiedAccounts]
  have hinv := CalculatorInv.prepareAll call.env.order (modifiedAccounts call.outcome)
    { startCall c call with changedAccount := [] } { hstart with }
    (nodup_modifiedAccounts call.outcome) haccs hr.clean
  have honly := preparesOnly_all keccak call.env.order (modifiedAccounts call.outcome)
    { startCall c call with changedAccount := [] }
  generalize foldl _ _ (modifiedAccounts call.outcome) = c1 at hprep hinv honly
  have hcache : c1.sharedCache = call.sharedCache := honly.sharedCache
  have hchanged : c1.changedAccount.map Prod.fst = (modifiedAccounts call.outcome).map Prod.fst :=
    honly.changed
  have hasks : (((modifiedAccounts call.outcome).map Prod.fst).foldl
      (c1.firstFetchOne keccak) {}).accountNodes ≠ [] := by
    refine accountNodes_firstFetch c1 _ _ (Or.inr ?_)
    obtain ⟨e, he, hno⟩ := hr.missing
    exact ⟨e.1, mem_map_of_mem he, hcache ▸ hno⟩
  obtain ⟨cache, res, hfetch, hF, _⟩ := fetch_spec hdec call.env .first (hcall.provider .first)
    (((modifiedAccounts call.outcome).map Prod.fst).foldl (c1.firstFetchOne keccak) {})
    hinv.cache
  have hrefused := Provider.Refuses.fetch (hcache.symm ▸ hr.refuses) hdec (hcall.provider .first)
    hinv.cache hasks
  rw [hfetch] at hrefused
  obtain ⟨e, rfl⟩ : ∃ e, res = .error e := hrefused
  have hpart : (startCall c call).storagePart keccak decode call =
      ({ c1 with sharedCache := cache }, .error e) := by
    unfold storagePart
    rw [hprep]
    dsimp only
    rw [if_pos (honly.incremental.trans hfull), doFirstFetch, hchanged, hfetch]
  rw [calculateRootHashWithSparseTrie, hpart]
  exact ⟨hF.ok, fun a => (hinv.storage a).mono (hF.ext.storage _),
    hinv.accounts.mono hF.ext.accounts⟩

/-! ## Runs with failed calls -/

variable (keccak base) in
/-- A call whose fetches before the account proofs are answered, and that deletes slots of the
    base only. The accounts it deletes are in the base too, so that it can only fail while it
    fetches account proofs, or all there is to do is to delete accounts that are not. -/
structure AnsweredUpToProofs (call : Call) : Prop where
  first : (call.env.provider .first).Answers call.sharedCache.lastBlockHash
  storage : ∀ i, (call.env.provider (.storage i)).Answers call.sharedCache.lastBlockHash
  account : ∀ i, (call.env.provider (.account i)).Answers call.sharedCache.lastBlockHash
  slots : ∀ e ∈ modifiedAccounts call.outcome, ¬ DeletesAbsentSlot keccak base e.1 e.2
  accounts : (∀ e ∈ modifiedAccounts call.outcome, e.2.info = none →
      base.accounts.lookup (accountKey keccak e.1) ≠ none) ∨
    ∀ e ∈ modifiedAccounts call.outcome, e.2.info = none ∧
      base.accounts.lookup (accountKey keccak e.1) = none

theorem AnsweredUpToProofs.inv_of_fails (h : AnsweredUpToProofs keccak base call)
    (hfull : call.incrementalChange = [])
    (hfails : CallFails keccak base c call (modifiedAccounts call.outcome) c') :
    CalculatorInv keccak base c' := by
  rcases hfails with ⟨e, he, hslot⟩ | ⟨⟨a, ha, hnone⟩, hgood⟩ | ⟨i, hi⟩ | ⟨i, hi⟩ | hi
  · exact absurd hslot (h.slots e he)
  · rw [callChanges_full hfull] at ha hgood
    rcases h.accounts with hin | hout
    · obtain ⟨e, he, heq⟩ := mem_map.mp ha
      obtain ⟨rfl, hafter⟩ := Prod.mk.inj heq
      exact absurd hnone (hin e he (Option.map_eq_none_iff.mp hafter))
    · refine hgood fun change hchange => ?_
      obtain ⟨e, he, rfl⟩ := mem_map.mp hchange
      obtain ⟨hinfo, hlookup⟩ := hout e he
      exact ⟨Option.map_eq_none_iff.mpr hinfo, hlookup⟩
  · exact absurd (h.storage i) hi
  · exact absurd (h.account i) hi
  · exact absurd h.first hi

/-- Such a call leaves a good calculator when it fails. -/
theorem AnsweredUpToProofs.inv (hdec : DecodesBase keccak base decode)
    (h : CalculatorInv keccak base c) (hcall : FullCall keccak base c call)
    (ha : AnsweredUpToProofs keccak base call) {e : SparseTrieError} (hne : e ≠ .panic)
    (hres : (c.calculateRootHashWithSparseTrie keccak decode call).2 = .error e) :
    CalculatorInv keccak base (c.calculateRootHashWithSparseTrie keccak decode call).1 := by
  have hout := hcall.outcome hdec h
  generalize c.calculateRootHashWithSparseTrie keccak decode call = out at hres hout
  obtain ⟨c', res⟩ := out
  obtain rfl : res = .error e := hres
  obtain ⟨plan, hplan, hdone⟩ := hout.resolve_left hne
  rw [listedBy_full hcall.full] at hplan
  obtain rfl := planOf_full hplan
  obtain ⟨m, hm⟩ | hfails := hdone
  · exact hm.inv
  · exact ha.inv_of_fails hcall.full hfails

variable (keccak base decode) in
/-- Runs of full calls in which no failed call loses records. -/
inductive RecoveringRun : RootHashCalculator → Prop
  | new : RecoveringRun {}
  | returned {c : RootHashCalculator} {call : Call} {out : B256 × Proofs} (run : RecoveringRun c)
      (ok : FullCall keccak base c call)
      (returns : (c.calculateRootHashWithSparseTrie keccak decode call).2 = .ok out) :
      RecoveringRun (c.calculateRootHashWithSparseTrie keccak decode call).1
  | failed {c : RootHashCalculator} {call : Call} {e : SparseTrieError} (run : RecoveringRun c)
      (ok : FullCall keccak base c call)
      (keeps : AnsweredUpToProofs keccak base call ∨ RefusedAtOnce keccak c call)
      (fails : (c.calculateRootHashWithSparseTrie keccak decode call).2 = .error e)
      (err : e ≠ .panic) :
      RecoveringRun (c.calculateRootHashWithSparseTrie keccak decode call).1

theorem RecoveringRun.inv (hdec : DecodesBase keccak base decode)
    (h : RecoveringRun keccak base decode c) : CalculatorInv keccak base c := by
  induction h with
  | new => exact calculatorInv_new
  | returned _ ok returns ih => exact (ok.returns hdec ih returns).1
  | failed _ ok keeps fails err ih =>
    exact keeps.elim (fun ha => ha.inv hdec ih ok err fails) fun hr => hr.inv hdec ih ok

/-- In every run in which the failed calls keep their records, a call that returns gives the
    state root of the base state and its outcome, as a new calculator does. -/
theorem recovers_when_records_are_kept (keccak : Bytes → B256)
    (decode : Bytes → Option AlloyTrieNode) (base : BaseState)
    (hdec : DecodesBase keccak base decode) {c : RootHashCalculator}
    (hrun : RecoveringRun keccak base decode c) {call : Call}
    (hcall : FullCall keccak base c call) {root : B256} {proofs : Proofs}
    (hres : (c.calculateRootHashWithSparseTrie keccak decode call).2 = .ok (root, proofs)) :
    root = stateRoot keccak base call.outcome ∧
      ∀ (fresh : Call) (out : B256 × Proofs), FullCall keccak base {} fresh →
        fresh.outcome = call.outcome →
        (({} : RootHashCalculator).calculateRootHashWithSparseTrie keccak decode fresh).2 =
          .ok out → out.1 = root := by
  have hroot := (hcall.returns hdec (hrun.inv hdec) hres).2.1
  refine ⟨hroot, fun fresh out hfresh hsame hout => ?_⟩
  rw [hroot, ← hsame]
  exact (hfresh.returns hdec calculatorInv_new hout).2.1

/-- A database that has no accounts to give. -/
def refusingProvider : Provider :=
  { emptyProvider with multiproof := fun _ => .error (.other "state is not available") }

theorem refusingProvider_correct : refusingProvider.Correct exampleKeccak emptyBase where
  accounts _ _ h := by cases h
  storage := emptyProvider_correct.storage

def payAliceRefused : RootHashCalculator := (exampleCall refusingProvider {} (paidAlice 1) []).1

def payAliceAgain : RootHashCalculator :=
  (exampleCall emptyProvider payAliceRefused (paidAlice 1) []).1

/-- An account that the base does not have is destroyed. -/
def destroyedBob : BundleState := (∅ : BundleState).insert bob ⟨none, ∅, .destroyed⟩

/-- Alice is paid no longer when the call fails. -/
def destroyBobRefused : RootHashCalculator :=
  (exampleCall emptyProvider payAliceAgain destroyedBob []).1

theorem answered_destroyedBob (h : cache.lastBlockHash = B256.zero) :
    AnsweredUpToProofs exampleKeccak emptyBase (fullCall emptyProvider cache destroyedBob []) := by
  have hanswers : emptyProvider.Answers cache.lastBlockHash :=
    ⟨Or.inl h, fun _ => ⟨_, rfl⟩, fun _ _ => ⟨_, rfl⟩⟩
  have hbob : ∀ e ∈ modifiedAccounts destroyedBob, e.2.info = none := by
    intro e he
    obtain rfl := mem_singleton.mp he
    rfl
  exact ⟨hanswers, fun _ => hanswers, fun _ => hanswers,
    fun e he hslot => hslot.1 (hbob e he), Or.inr fun e he => ⟨hbob e he, rfl⟩⟩

theorem recovers_when_records_are_kept_refused :
    (exampleCall refusingProvider {} (paidAlice 1) []).2 =
        .error (.other "state is not available") ∧
      (exampleCall emptyProvider payAliceAgain destroyedBob []).2 =
        .error (.other "Deleting key that is not in the trie (account trie)") ∧
      (exampleCall emptyProvider destroyBobRefused (paidAlice 2) []).2 =
        .ok (exampleKeccak (aliceLeaf 2), ∅) ∧
      exampleKeccak (aliceLeaf 2) = stateRoot exampleKeccak emptyBase (paidAlice 2) := by
  have hnew : RecoveringRun exampleKeccak emptyBase decodeEmptyRoot {} := .new
  have hrefused : (exampleCall refusingProvider {} (paidAlice 1) []).2 =
      .error (.other "state is not available") := rfl
  have hkeeps : RefusedAtOnce exampleKeccak {} (fullCall refusingProvider {} (paidAlice 1) []) :=
    ⟨⟨_, List.mem_cons_self, rfl⟩, Or.inr fun _ => ⟨_, rfl⟩, fun _ _ _ => rfl⟩
  have hrun₁ : RecoveringRun exampleKeccak emptyBase decodeEmptyRoot payAliceRefused :=
    hnew.failed (fullCall_ok refusingProvider_correct (hnew.inv decodesBase_empty).cache
      (accountOk_paidAlice 1) (List.nodup_singleton _) []) (Or.inr hkeeps) hrefused (by simp)
  have hpaid : (exampleCall emptyProvider payAliceRefused (paidAlice 1) []).2 =
      .ok (exampleKeccak (aliceLeaf 1), ∅) := rfl
  have hrun₂ : RecoveringRun exampleKeccak emptyBase decodeEmptyRoot payAliceAgain :=
    hrun₁.returned (fullCall_ok emptyProvider_correct (hrun₁.inv decodesBase_empty).cache
      (accountOk_paidAlice 1) (List.nodup_singleton _) []) hpaid
  have hfails : (exampleCall emptyProvider payAliceAgain destroyedBob []).2 =
      .error (.other "Deleting key that is not in the trie (account trie)") := rfl
  have hbob : ∀ a acc, destroyedBob.lookup a = some acc → AccountOk exampleKeccak emptyBase a acc :=
    accountOk_insert (fun _ _ h => by cases h) (accountOk_of_plain rfl fun _ => rfl)
  have hrun₃ : RecoveringRun exampleKeccak emptyBase decodeEmptyRoot destroyBobRefused :=
    hrun₂.failed (fullCall_ok emptyProvider_correct (hrun₂.inv decodesBase_empty).cache hbob
      (List.nodup_singleton _) []) (Or.inl (answered_destroyedBob rfl)) hfails (by simp)
  have hcall := fullCall_ok emptyProvider_correct (hrun₃.inv decodesBase_empty).cache
    (accountOk_paidAlice 2) (List.nodup_singleton _) []
  have hres : (exampleCall emptyProvider destroyBobRefused (paidAlice 2) []).2 =
      .ok (exampleKeccak (aliceLeaf 2), ∅) := rfl
  exact ⟨hrefused, hfails, hres, (recovers_when_records_are_kept exampleKeccak decodeEmptyRoot
    emptyBase decodesBase_empty hrun₃ hcall hres).1⟩

/-! ### A failed call that loses a record -/

/-- One account is paid and another, which the base does not have, is destroyed. -/
def paidAliceDestroyedBob : BundleState := (paidAlice 1).insert bob ⟨none, ∅, .destroyed⟩

def paidBob (balance : U256) : BundleState := (∅ : BundleState).insert bob (payee balance)

def destroyBobFailed : RootHashCalculator := (exampleCall emptyProvider {} paidAliceDestroyedBob []).1

/-- A cache in which all tries are empty. -/
theorem cacheOk_of_empty (haccounts : ∀ e ∈ cache.accountTrie.proofs.entries, e.2 = [([], .empty)])
    (hstorage : ∀ h, ∀ e ∈ (cache.storageTries h).proofs.entries, e.2 = [([], .empty)]) :
    CacheOk exampleKeccak emptyBase cache := by
  have hstore : ∀ store : ProofStore, (∀ e ∈ store.proofs.entries, e.2 = [([], .empty)]) →
      ProofStore.StoreOk (nodeCodec exampleKeccak) (Patricia.ofMap ∅) store := by
    intro store h key proof hl e he
    obtain rfl := h ⟨key, proof⟩ (AList.mem_lookup_iff.mp hl)
    obtain rfl := mem_singleton.mp he
    exact ⟨.null, Or.inl ⟨rfl, rfl, rfl⟩, trivial⟩
  exact ⟨hstore _ haccounts, fun h => hstore _ (hstorage h)⟩

/-- The proof of the root of an empty trie. -/
def emptyTrieStore : ProofStore :=
  { proofs := (∅ : AList fun _ : Nibbles => List (Nibbles × ProofNode)).insert [] [([], .empty)] }

theorem cacheOk_destroyBobFailed : CacheOk exampleKeccak emptyBase destroyBobFailed.sharedCache := by
  refine cacheOk_of_empty ?_ fun h => ?_
  · have hentries : destroyBobFailed.sharedCache.accountTrie.proofs.entries =
        [⟨accountKey exampleKeccak alice, [([], .empty)]⟩,
          ⟨accountKey exampleKeccak bob, [([], .empty)]⟩] := rfl
    rw [hentries]
    simp
  have htries : destroyBobFailed.sharedCache.storageTries =
      Function.update (Function.update (fun _ => {}) aliceHash emptyTrieStore) bobHash
        emptyTrieStore := rfl
  rw [htries, Function.update_apply, Function.update_apply]
  split
  · simp [emptyTrieStore]
  · split
    · simp [emptyTrieStore]
    · simp

set_option maxRecDepth 4000 in
theorem failed_call_changes_later_root :
    FullCall exampleKeccak emptyBase {} (fullCall emptyProvider {} paidAliceDestroyedBob []) ∧
      (exampleCall emptyProvider {} paidAliceDestroyedBob []).2 =
          .error (.other "Deleting key that is not in the trie (account trie)") ∧
      FullCall exampleKeccak emptyBase destroyBobFailed
        (fullCall emptyProvider destroyBobFailed.sharedCache (paidBob 1) []) ∧
      (exampleCall emptyProvider destroyBobFailed (paidBob 1) []).2 =
          .ok (exampleKeccak (aliceBobBranch aliceDigest bobDigest), ∅) ∧
      (exampleCall emptyProvider {} (paidBob 1) []).2 =
          .ok (stateRoot exampleKeccak emptyBase (paidBob 1), ∅) ∧
      exampleKeccak (aliceBobBranch aliceDigest bobDigest) ≠
        stateRoot exampleKeccak emptyBase (paidBob 1) := by
  have hdestroyed : AccountOk exampleKeccak emptyBase bob ⟨none, ∅, .destroyed⟩ :=
    accountOk_of_plain rfl fun _ => rfl
  have hpaid : ∀ a acc, (paidBob 1).lookup a = some acc → AccountOk exampleKeccak emptyBase a acc :=
    accountOk_insert (fun _ _ h => by cases h) (accountOk_payee bob 1)
  refine ⟨fullCall_ok emptyProvider_correct calculatorInv_new.cache
      (accountOk_insert (accountOk_paidAlice 1) hdestroyed) (by decide) [], rfl,
    fullCall_ok emptyProvider_correct cacheOk_destroyBobFailed hpaid
      (List.nodup_singleton _) [], rfl, rfl, by decide⟩

end SparseMpt
