/-
  The storage tries through one call.

  Between calls the trie of every account is kept (`StorageKept`). In a call an account is
  in one of the stages of `Stage`, as its status says: gone, prepared, updated, or hashed
  with the storage root of base state and outcome. `StorageInv plan c` collects the stages
  of the accounts in `plan`; the other accounts are as they were left.

  Each function of the calculator takes the accounts from one stage to the next. A part
  that fails does so for one of three reasons: an assertion, a deleted slot that the base
  does not have, or a database that does not answer.
-/
import Rbuilder.Calculator.Fetch
import Rbuilder.Runs

namespace SparseMpt

open RootHashCalculator List

section Stages

variable (keccak : Bytes → B256) (base : BaseState)

/-- The storage of an account in the base state. -/
abbrev slotsOf (a : Address) : MptMap := base.storage (hashedAddress keccak a)

/-- The store with the nodes of an account's storage trie. -/
abbrev SharedCache.storeOf (cache : SharedCache) (a : Address) : ProofStore :=
  cache.storageTries (hashedAddress keccak a)

/-- The storage trie of an account between calls. -/
structure StorageKept (store : ProofStore) (a : Address) (s : StorageCalculator) : Prop where
  kept : Kept keccak (slotsOf keccak base a) encodeSlot store (slotKey keccak) s.update
  hash : s.hash ≠ B256.zero → ∃ m, LiveMap keccak (slotsOf keccak base a) encodeSlot store
    s.update.trie m (records s.update.appliedPrevious) ∧ s.hash = mptRoot keccak m

/-- What an outcome promises for one account: the hashes of its changed slots differ, and it
    is not re-created after having had storage in the base. -/
structure AccountOk (a : Address) (acc : BundleAccount) : Prop where
  slots : (acc.changedSlots.map (slotKey keccak ∘ Prod.fst)).Nodup
  destroyed : acc.status.wasDestroyed = true → acc.info ≠ none → slotsOf keccak base a = ∅

/-- A slot is deleted that the base does not have. -/
def DeletesAbsentSlot (a : Address) (acc : BundleAccount) : Prop :=
  acc.info ≠ none ∧ ∃ slot, (slot, 0) ∈ acc.changedSlots ∧
    (slotsOf keccak base a).lookup (slotKey keccak slot) = none

/-- The stage of an account in a call, by its status. -/
inductive Stage (store : ProofStore) (a : Address) (acc : BundleAccount) (s : StorageCalculator) :
    StorageTrieStatus → Prop
  | gone (info : acc.info = none) (same : s.accountInfo = none) (zero : s.hash = B256.zero)
      (kept : StorageKept keccak base store a s) : Stage store a acc s .hashed
  | hashed (info : acc.info ≠ none) (same : s.accountInfo = acc.info)
      (root : s.hash = mptRoot keccak (storageAfter keccak base a acc))
      (kept : StorageKept keccak base store a s) : Stage store a acc s .hashed
  | prepared (info : acc.info ≠ none) (same : s.accountInfo = acc.info)
      (update : Prepared keccak (slotsOf keccak base a) encodeSlot store (slotKey keccak) 0
        s.update acc.changedSlots) : Stage store a acc s .insertsNotProcessed
  | updated (info : acc.info ≠ none) (same : s.accountInfo = acc.info)
      (update : Updated keccak (slotsOf keccak base a) encodeSlot store (slotKey keccak)
        s.update acc.changedSlots) : Stage store a acc s .insertsProcessed

end Stages

section OneAccount

variable {keccak : Bytes → B256} {base : BaseState} {store store' : ProofStore} {a : Address}
  {acc : BundleAccount} {s : StorageCalculator} {status : StorageTrieStatus}

theorem encodeSlot_eq_none {v : U256} (h : encodeSlot v = none) : v = 0 := by
  unfold encodeSlot at h
  split at h
  · assumption
  · cases h

theorem length_unpack (bytes : Bytes) : (unpack bytes).length = 2 * bytes.length := by
  induction bytes with
  | nil => rfl
  | cons b bytes ih =>
    rw [unpack, length_cons, length_cons, length_cons, ih]
    omega

theorem length_slotKey (slot : U256) : (slotKey keccak slot).length = 64 := by
  rw [slotKey, length_unpack, Vector.length_toList]

theorem StorageKept.mono (h : StorageKept keccak base store a s)
    (hg : store.rlpPtrs <+: store'.rlpPtrs) : StorageKept keccak base store' a s := by
  refine ⟨h.kept.mono hg, fun hne => ?_⟩
  obtain ⟨m, hm, hroot⟩ := h.hash hne
  exact ⟨m, hm.mono hg, hroot⟩

theorem Stage.mono (h : Stage keccak base store a acc s status)
    (hg : store.rlpPtrs <+: store'.rlpPtrs) : Stage keccak base store' a acc s status := by
  cases h with
  | gone info same zero kept => exact .gone info same zero (kept.mono hg)
  | hashed info same root kept => exact .hashed info same root (kept.mono hg)
  | prepared info same update => exact .prepared info same (update.mono hg)
  | updated info same update =>
    exact .updated info same ⟨update.live.mono hg, update.keyed, update.perm⟩

/-- With the changed slots applied, the root is the storage root of base state and outcome. -/
theorem storageRoot_eq (hacc : AccountOk keccak base a acc) (hinfo : acc.info ≠ none)
    {t : Trie} {m : MptMap} {applied : AList fun _ : U256 => AppliedOp U256}
    (h : LiveMap keccak (slotsOf keccak base a) encodeSlot store t m (records applied))
    (hkeyed : Keyed (slotKey keccak) applied)
    (hp : (changesOf applied).Perm acc.changedSlots) :
    mptRoot keccak m = mptRoot keccak (storageAfter keccak base a acc) := by
  have hstart : storageAfter keccak base a acc =
      written encodeSlot (slotKey keccak) (slotsOf keccak base a) acc.changedSlots := by
    unfold storageAfter
    by_cases hd : acc.status.wasDestroyed = true
    · rw [if_pos hd, ← hacc.destroyed hd hinfo]
      rfl
    · rw [if_neg hd]
      rfl
  rw [hstart]
  exact Trie.mptRoot_congr (prefixFree_base h.length) (h.lookup_eq hkeyed hp)

/-- The changed slots of an account compared with the records. -/
def prepareSlots (keccak : Bytes → B256) (order : HashOrder) (acc : BundleAccount)
    (u : TrieCalculator U256 U256) : TrieCalculator U256 U256 :=
  (acc.changedSlots.foldl (fun (u : TrieCalculator U256 U256) e =>
    u.prepareChange e.1 (slotKey keccak e.1) e.2 (encodeSlot e.2)) u).drainPrevious order
      fun _ => false

/-- The loop over the slots is the loop over the changed ones. -/
theorem foldl_eq_prepareSlots (order : HashOrder) (acc : BundleAccount)
    (u : TrieCalculator U256 U256) :
    (acc.storage.entries.foldl (fun u e =>
      if e.2.isChanged then prepareSlot keccak u e.1 e.2.presentValue else u) u).drainPrevious
        order (fun _ => false) = prepareSlots keccak order acc u := by
  rw [prepareSlots, BundleAccount.changedSlots, foldl_map, foldl_filter]
  rfl

theorem prepareSlots_spec (hacc : AccountOk keccak base a acc)
    (h : Keyed (slotKey keccak) s.update.appliedPrevious) (order : HashOrder) :
    Preparing encodeSlot (slotKey keccak) 0 s.update.trie (records s.update.appliedPrevious)
      (prepareSlots keccak order acc s.clear.update) [] acc.changedSlots.reverse := by
  have hkeyed : Keyed (slotKey keccak) s.clear.update.appliedPrevious := h
  have hprep := hkeyed.preparing encodeSlot 0 rfl rfl rfl rfl
  have hnd : ((acc.changedSlots ++ []).map Prod.fst).Nodup := by
    rw [append_nil]
    exact Nodup.of_map (slotKey keccak) (by rw [map_map]; exact hacc.slots)
  have hall := prepareAll_spec (fun v => encodeSlot_eq_none) acc.changedSlots _ _ hprep hnd
  rw [append_nil] at hall
  unfold prepareSlots TrieCalculator.drainPrevious
  generalize foldl _ s.clear.update acc.changedSlots = u at hall
  have hperm := (order.perm u.appliedPrevious.entries).symm
  have hdrain := drain_foldl (fun _ => false) _ _ _ ((hall.permLeft hperm).setPrevious ∅)
  have hnone : (order.order u.appliedPrevious.entries).filter (fun _ => false) = [] := by simp
  rw [hnone] at hdrain
  exact hdrain

theorem prepareOne_spec {c : RootHashCalculator} (hacc : AccountOk keccak base a acc)
    (h : StorageKept keccak base store a (c.storage a)) (order : HashOrder) :
    ∃ s status, c.prepareChangesForOneStorageTrie keccak order a acc =
        (c.setStorage a s).pushChanged a status ∧
      Stage keccak base store a acc s status := by
  unfold prepareChangesForOneStorageTrie
  cases hinfo : acc.info with
  | none =>
    refine ⟨_, _, rfl, .gone hinfo rfl rfl ⟨⟨h.kept.live, h.kept.keyed⟩, ?_⟩⟩
    exact fun hne => absurd rfl hne
  | some info =>
    have hne : acc.info ≠ none := by simp [hinfo]
    have hprep := prepareSlots_spec hacc h.kept.keyed order
    simp only [foldl_eq_prepareSlots]
    generalize hu : prepareSlots keccak order acc (c.storage a).clear.update = u at hprep
    split
    · next hfast =>
        simp only [Bool.and_eq_true, List.isEmpty_iff, bne_iff_ne] at hfast
        obtain ⟨⟨⟨⟨hdels, hins⟩, hrev⟩, hhash⟩, _⟩ := hfast
        -- nothing to undo, insert or delete: what is applied now was applied before
        have hperm := hprep.perm
        have horigin := hprep.origin
        rw [hins, hdels, pendingInserts_nil, pendingDeletes_nil, List.append_nil,
          List.append_nil] at hperm
        rw [hrev, undone_nil, List.nil_append, List.map_nil, List.append_nil] at horigin
        have hperm' := hperm.trans acc.changedSlots.reverse_perm
        obtain ⟨m, hm, hroot⟩ := h.hash hhash
        have hm' : LiveMap keccak (slotsOf keccak base a) encodeSlot store u.trie m
            (records u.appliedCurrent) := by
          rw [hprep.trie]
          exact ⟨hm.represents, hm.patched.perm (horigin.symm.map _),
            fun op hop => hm.restores op (horigin.mem_iff.mp hop)⟩
        refine ⟨_, _, rfl, .hashed hne hinfo.symm ?_ ⟨⟨⟨m, hm'⟩, hprep.keyed⟩,
          fun _ => ⟨m, hm', hroot⟩⟩⟩
        exact hroot.trans (storageRoot_eq hacc hne hm' hprep.keyed hperm')
    · exact ⟨_, _, rfl, .prepared hne hinfo.symm
        (hprep.prepared h.kept.live acc.changedSlots.reverse_perm hacc.slots
          (hu ▸ appliedPrevious_drainPrevious ..))⟩

end OneAccount

/-! ## All accounts -/

section Plan

variable (keccak : Bytes → B256) (base : BaseState)

/-- The storage part of a call: the accounts of `plan` are in the stage of their status, the
    others are kept. The account trie and the list of incremental changes are not touched. -/
structure StorageInv (before : RootHashCalculator) (plan : Plan) (c : RootHashCalculator) :
    Prop where
  accountTrie : c.accountTrie = before.accountTrie
  incremental : c.incrementalAccountChange = before.incrementalAccountChange
  cache : Fetched keccak base before.sharedCache c.sharedCache
  addresses : c.changedAccount.map Prod.fst = plan.map Prod.fst
  staged : ∀ e ∈ c.changedAccount, ∃ acc, (e.1, acc) ∈ plan ∧
    Stage keccak base (c.sharedCache.storeOf keccak e.1) e.1 acc (c.storage e.1) e.2
  others : ∀ a, a ∉ plan.map Prod.fst →
    StorageKept keccak base (c.sharedCache.storeOf keccak a) a (c.storage a)

end Plan

variable {keccak : Bytes → B256} {base : BaseState} {before c : RootHashCalculator}
  {plan : Plan} {decode : Bytes → Option AlloyTrieNode}

@[simp] theorem storage_setStorage_self (c : RootHashCalculator) (a : Address)
    (s : StorageCalculator) : (c.setStorage a s).storage a = s := Function.update_self ..

theorem setStorage_storage (c : RootHashCalculator) (a : Address) :
    c.setStorage a (c.storage a) = c := by
  rw [setStorage, Function.update_eq_self]

variable {a : Address} {acc : BundleAccount} {store : ProofStore} {status : StorageTrieStatus}
  {s : StorageCalculator}

theorem storage_setStorage_of_ne (c : RootHashCalculator) {b : Address} (s : StorageCalculator)
    (h : b ≠ a) : (c.setStorage a s).storage b = c.storage b := Function.update_of_ne h ..

/-- Another account is prepared. -/
theorem StorageInv.prepare (h : StorageInv keccak base before plan c) (order : HashOrder)
    (ha : a ∉ plan.map Prod.fst) (hacc : AccountOk keccak base a acc) :
    StorageInv keccak base before (plan ++ [(a, acc)])
      (c.prepareChangesForOneStorageTrie keccak order a acc) := by
  obtain ⟨s, status, he, hstage⟩ := prepareOne_spec hacc (h.others a ha) order
  rw [he]
  have hch : (c.changedAccount ++ [(a, status)]).map Prod.fst = (plan ++ [(a, acc)]).map Prod.fst := by
    rw [map_append, map_append, h.addresses]
    rfl
  refine ⟨h.accountTrie, h.incremental, h.cache, hch, ?_, ?_⟩
  · intro e he
    rcases mem_append.mp he with he | he
    · obtain ⟨acc', hmem, hst⟩ := h.staged e he
      have hne : e.1 ≠ a := by
        rintro rfl
        exact ha (mem_map_of_mem hmem)
      refine ⟨acc', mem_append_left _ hmem, ?_⟩
      show Stage keccak base _ e.1 acc' ((c.setStorage a s).storage e.1) e.2
      rw [storage_setStorage_of_ne c s hne]
      exact hst
    obtain rfl := mem_singleton.mp he
    refine ⟨acc, mem_append_right _ mem_cons_self, ?_⟩
    show Stage keccak base _ a acc ((c.setStorage a s).storage a) status
    rw [storage_setStorage_self]
    exact hstage
  · intro b hb
    rw [map_append, mem_append, not_or] at hb
    have hne : b ≠ a := fun heq => hb.2 (by rw [heq]; exact mem_cons_self)
    show StorageKept keccak base _ b ((c.setStorage a s).storage b)
    rw [storage_setStorage_of_ne c s hne]
    exact h.others b hb.1

theorem prepareFold_spec (order : HashOrder) (accounts : Plan) :
    ∀ (plan : Plan) (c : RootHashCalculator), StorageInv keccak base before plan c →
      ((plan ++ accounts).map Prod.fst).Nodup →
      (∀ e ∈ accounts, AccountOk keccak base e.1 e.2) →
      StorageInv keccak base before (plan ++ accounts)
        (accounts.foldl (fun c e =>
          c.prepareChangesForOneStorageTrie keccak order e.1 e.2) c) := by
  induction accounts with
  | nil =>
    intro plan c h _ _
    rw [append_nil]
    exact h
  | cons e accounts ih =>
    intro plan c h hnd hacc
    have hfresh : e.1 ∉ plan.map Prod.fst := by
      rw [map_append, map_cons] at hnd
      exact fun hm => (nodup_append.mp hnd).2.2 _ hm _ mem_cons_self rfl
    rw [append_cons] at hnd ⊢
    exact ih _ _ (h.prepare order hfresh (hacc e mem_cons_self)) hnd
      fun e he => hacc e (mem_cons_of_mem _ he)

/-- The listed accounts are prepared one by one if all of them are in the outcome. -/
theorem prepareListed_spec (order : HashOrder) (outcome : BundleState) (addresses : List Address) :
    ∀ c : RootHashCalculator, Gives (fun c' _ => ∃ listed : Plan,
        listed.map Prod.fst = addresses ∧
        (∀ e ∈ listed, outcome.lookup e.1 = some e.2) ∧ c' = listed.foldl (fun c e =>
          c.prepareChangesForOneStorageTrie keccak order e.1 e.2) c)
      (fun _ e => e = .panic) (c.prepareListed keccak order outcome addresses) := by
  induction addresses with
  | nil => exact fun c => ⟨[], rfl, fun _ he => absurd he not_mem_nil, rfl⟩
  | cons a addresses ih =>
    intro c
    unfold prepareListed
    cases hl : outcome.lookup a with
    | none => exact rfl
    | some acc =>
      dsimp only
      refine (ih _).elim (fun c' _ hlisted => ?_) fun _ _ he => he
      obtain ⟨listed, rfl, hlook, rfl⟩ := hlisted
      exact ⟨(a, acc) :: listed, rfl, forall_mem_cons.mpr ⟨hl, hlook⟩, rfl⟩

/-- A fetch leaves the tries as they are. -/
theorem StorageInv.fetch (hdec : DecodesBase keccak base decode)
    (h : StorageInv keccak base before plan c) (env : CallEnv) (phase : FetchPhase)
    (hp : (env.provider phase).Correct keccak base) (f : MissingNodesFetcher) :
    Gives (fun c' _ => StorageInv keccak base before plan c')
      (fun _ _ => ¬ (env.provider phase).Answers before.sharedCache.lastBlockHash)
      (c.fetch decode env phase f) := by
  obtain ⟨cache, res, he, hF, hans⟩ := fetch_spec hdec env phase hp f h.cache.ok
  rw [h.cache.lastBlockHash] at hans
  rw [he]
  cases res with
  | error e => exact fun ha => nomatch hans ha
  | ok _ =>
    refine ⟨h.accountTrie, h.incremental, h.cache.trans hF, h.addresses, ?_, ?_⟩
    · intro e he
      obtain ⟨acc, hmem, hst⟩ := h.staged e he
      exact ⟨acc, hmem, hst.mono (hF.ext.storage _)⟩
    · intro a ha
      exact (h.others a ha).mono (hF.ext.storage _)

/-! ## Update -/

/-- One task takes its account to the next stage, or leaves it where it waits for nodes. -/
theorem processTask_spec (h : Stage keccak base store a acc (c.storage a) status) :
    match c.processTask (a, status) with
    | (c', status', .ok ()) => ∃ s, c' = c.setStorage a s ∧ Stage keccak base store a acc s status'
    | (_, _, .error _) => DeletesAbsentSlot keccak base a acc := by
  have hself := (setStorage_storage c a).symm
  unfold processTask
  cases h with
  | gone info same zero kept => exact ⟨_, hself, .gone info same zero kept⟩
  | hashed info same root kept => exact ⟨_, hself, .hashed info same root kept⟩
  | updated info same update => exact ⟨_, hself, .updated info same update⟩
  | prepared info same update =>
    have hzero : encodeSlot 0 = none := if_pos rfl
    have hproc := processUpdate_spec length_slotKey hzero storageTexts true update
    simp only [StorageTrieStatus.needsProcessing, if_true, processStorageTriesUpdate]
    generalize (c.storage a).update.processUpdate _ _ _ = out at hproc
    obtain ⟨u, res⟩ := out
    match res with
    | .ok true => exact ⟨_, rfl, .updated info same hproc.1⟩
    | .ok false => exact ⟨_, rfl, .prepared info same hproc⟩
    | .error e => exact ⟨info, hproc.2.1⟩

theorem processTasks_failed (started : Address → Bool) (err : SparseTrieError)
    (l : Statuses) :
    ∀ c : RootHashCalculator, (c.processTasks started (some err) l).2.2 = some err := by
  induction l with
  | nil => intro c; rfl
  | cons e l ih =>
    intro c
    unfold processTasks
    split
    · exact ih c
    generalize c.processTask e = out
    obtain ⟨c1, status, res⟩ := out
    cases res with
    | ok _ | error e' => exact ih c1

variable {l : Statuses}

theorem exists_lookup_of_mem
    (h : a ∈ l.map Prod.fst) : ∃ status, l.lookup a = some status ∧ (a, status) ∈ l := by
  obtain ⟨e, he, rfl⟩ := mem_map.mp h
  have hsome : (l.lookup e.1).isSome = true := lookup_isSome_iff.mpr ⟨e, he, by simp⟩
  obtain ⟨status, hstatus⟩ := Option.isSome_iff_exists.mp hsome
  obtain ⟨l₁, l₂, rfl, _⟩ := lookup_eq_some_iff.mp hstatus
  exact ⟨status, hstatus, mem_append_right _ mem_cons_self⟩

variable (keccak base plan) in
/-- The account is one of `plan`, at the stage of its status. -/
def Staged (store : Address → ProofStore) (storage : Address → StorageCalculator)
    (e : Address × StorageTrieStatus) : Prop :=
  ∃ acc, (e.1, acc) ∈ plan ∧ Stage keccak base (store e.1) e.1 acc (storage e.1) e.2

theorem Staged.setStorage {store : Address → ProofStore}
    (ha : a ∉ l.map Prod.fst) (h : ∀ e ∈ l, Staged keccak base plan store c.storage e)
    (s : StorageCalculator) :
    ∀ e ∈ l, Staged keccak base plan store (c.setStorage a s).storage e := by
  intro e he
  have hne : e.1 ≠ a := by
    rintro rfl
    exact ha (mem_map_of_mem he)
  unfold Staged
  rw [storage_setStorage_of_ne c s hne]
  exact h e he

/-- The first account has been dealt with, and the rest of the list after it. -/
theorem Staged.cons {store : Address → ProofStore}
    {storage : Address → StorageCalculator} (ha : a ∉ l.map Prod.fst) (hmem : (a, acc) ∈ plan)
    (hs : Stage keccak base (store a) a acc s status)
    (hsame : ∀ b, b ∉ l.map Prod.fst → storage b = (c.setStorage a s).storage b) :
    Staged keccak base plan store storage (a, status) ∧
      ∀ b, b ∉ a :: l.map Prod.fst → storage b = c.storage b := by
  refine ⟨⟨acc, hmem, ?_⟩, fun b hb => ?_⟩
  · rw [hsame a ha, storage_setStorage_self]
    exact hs
  · rw [mem_cons, not_or] at hb
    rw [hsame b hb.2, storage_setStorage_of_ne c s hb.1]

/-- The tasks fail only when a slot is deleted that the base does not have. -/
theorem processTasks_spec (started : Address → Bool) (store : Address → ProofStore)
    (l : Statuses) :
    ∀ c : RootHashCalculator, (l.map Prod.fst).Nodup →
      (∀ e ∈ l, Staged keccak base plan store c.storage e) →
      match c.processTasks started none l with
      | (c', statuses, none) => ∃ storage, c' = { c with storage } ∧
          statuses.map Prod.fst = l.map Prod.fst ∧
          (∀ e ∈ statuses, Staged keccak base plan store storage e) ∧
          ∀ a, a ∉ l.map Prod.fst → storage a = c.storage a
      | (_, _, some _) => ∃ e ∈ plan, DeletesAbsentSlot keccak base e.1 e.2 := by
  induction l with
  | nil =>
    intro c _ _
    exact ⟨c.storage, rfl, rfl, fun _ he => absurd he not_mem_nil, fun _ _ => rfl⟩
  | cons e l ih =>
    intro c hnd hst
    obtain ⟨a, status⟩ := e
    rw [map_cons, nodup_cons] at hnd
    obtain ⟨acc, hmem, hstage⟩ := hst _ mem_cons_self
    have htask := processTask_spec hstage
    simp only [processTasks, Option.isSome_none, Bool.false_and, Bool.false_eq_true, if_false]
    generalize c.processTask (a, status) = out at htask
    obtain ⟨c1, status1, res⟩ := out
    cases res with
    | error err =>
      have hfailed := processTasks_failed started err l c1
      dsimp only [Option.none_or]
      generalize c1.processTasks started (some err) l = out at hfailed
      obtain ⟨c2, statuses, failed⟩ := out
      obtain rfl : failed = some err := hfailed
      exact ⟨(a, acc), hmem, htask⟩
    | ok _ =>
      obtain ⟨s, rfl, hs⟩ := htask
      have hrec := ih _ hnd.2 (.setStorage hnd.1 (fun e he => hst e (mem_cons_of_mem _ he)) s)
      dsimp only
      generalize (c.setStorage a s).processTasks started none l = out at hrec
      obtain ⟨c2, statuses, failed⟩ := out
      cases failed with
      | some err => exact hrec
      | none =>
        obtain ⟨storage, rfl, hmap, hall, hsame⟩ := hrec
        obtain ⟨hfirst, hothers⟩ := Staged.cons hnd.1 hmem hs hsame
        exact ⟨storage, rfl, by rw [map_cons, map_cons, hmap],
          forall_mem_cons.mpr ⟨hfirst, hall⟩, hothers⟩

theorem processStorageTriesUpdates_spec (h : StorageInv keccak base before plan c)
    (hnd : (plan.map Prod.fst).Nodup) (env : CallEnv) :
    Gives (fun c' _ => StorageInv keccak base before plan c')
      (fun _ _ => ∃ e ∈ plan, DeletesAbsentSlot keccak base e.1 e.2)
      (c.processStorageTriesUpdates env) := by
  have hperm := env.order.perm c.changedAccount
  have hnd' : ((env.order.order c.changedAccount).map Prod.fst).Nodup := by
    rw [(hperm.map Prod.fst).nodup_iff, h.addresses]
    exact hnd
  have htasks := processTasks_spec env.started (fun a => c.sharedCache.storeOf keccak a)
    (env.order.order c.changedAccount) c hnd' fun e he => h.staged e (hperm.mem_iff.mp he)
  unfold processStorageTriesUpdates
  generalize c.processTasks env.started none (env.order.order c.changedAccount) = out at htasks
  obtain ⟨c1, statuses, failed⟩ := out
  cases failed with
  | some err => exact htasks
  | none =>
    obtain ⟨storage, rfl, hmap, hall, hsame⟩ := htasks
    refine ⟨h.accountTrie, h.incremental, h.cache, ?_, ?_, ?_⟩
    · rw [← h.addresses, map_map]
      rfl
    · intro e he
      obtain ⟨e', he', rfl⟩ := mem_map.mp he
      have hkey : e'.1 ∈ statuses.map Prod.fst := by
        rw [hmap, (hperm.map Prod.fst).mem_iff]
        exact mem_map_of_mem he'
      obtain ⟨status, hstatus, hmem⟩ := exists_lookup_of_mem hkey
      simp only [hstatus, Option.getD_some]
      exact hall (e'.1, status) hmem
    intro a ha
    have ha' : a ∉ (env.order.order c.changedAccount).map Prod.fst := by
      rw [(hperm.map Prod.fst).mem_iff, h.addresses]
      exact ha
    show StorageKept keccak base _ a (storage a)
    rw [hsame a ha']
    exact h.others a ha

/-! ## Missing nodes -/

theorem eq_of_nodup_fst {α β : Type} {l : List (α × β)} (hnd : (l.map Prod.fst).Nodup) {a : α}
    {b b' : β} (h : (a, b) ∈ l) (h' : (a, b') ∈ l) : b = b' := by
  have heq := inj_on_of_nodup_map hnd h h' rfl
  exact congrArg Prod.snd heq

theorem StorageInv.setStorage (h : StorageInv keccak base before plan c)
    (hnd : (plan.map Prod.fst).Nodup) (ha : (a, status) ∈ c.changedAccount)
    (hs : ∀ acc, Stage keccak base (c.sharedCache.storeOf keccak a) a acc (c.storage a)
      status → Stage keccak base (c.sharedCache.storeOf keccak a) a acc s status) :
    StorageInv keccak base before plan (c.setStorage a s) := by
  have hnd' : (c.changedAccount.map Prod.fst).Nodup := by rwa [h.addresses]
  refine { h with staged := ?_, others := ?_ }
  · rintro ⟨b, status'⟩ he
    obtain ⟨acc, hmem, hst⟩ := h.staged _ he
    refine ⟨acc, hmem, ?_⟩
    by_cases hb : b = a
    · subst hb
      obtain rfl := eq_of_nodup_fst hnd' ha he
      rw [storage_setStorage_self]
      exact hs acc hst
    · rw [storage_setStorage_of_ne c s hb]
      exact hst
  intro b hb
  have hne : b ≠ a := by
    rintro rfl
    rw [← h.addresses] at hb
    exact hb (mem_map_of_mem ha)
  rw [storage_setStorage_of_ne c s hne]
  exact h.others b hb

variable (keccak base) in
/-- The tries represent the same maps of slots. -/
def KeepsMaps (a : Address) (store : ProofStore) (t t' : Trie) : Prop :=
  ∀ m ops, LiveMap keccak (slotsOf keccak base a) encodeSlot store t m ops →
    LiveMap keccak (slotsOf keccak base a) encodeSlot store t' m ops

/-- A prepared trie stays prepared when it represents the same map. -/
theorem Stage.setTrie (hneeds : status.needsProcessing = true) {trie : Trie}
    (htrie : KeepsMaps keccak base a store s.update.trie trie)
    (missing requested : List Nibbles) (h : Stage keccak base store a acc s status) :
    Stage keccak base store a acc { s with update := { s.update with
      trie, missingNodes := missing, missingNodesRequested := requested } } status := by
  cases h with
  | gone | hashed | updated => cases hneeds
  | prepared info same update =>
    obtain ⟨m, hm⟩ := update.live
    exact .prepared info same { update with live := ⟨m, htrie m _ hm⟩ }

theorem addKnownProofs_panics (store : ProofStore) (nodes : List Nibbles) :
    ∀ t, (addKnownProofs store t nodes).2.2 = .ok () ∨
      (addKnownProofs store t nodes).2.2 = .error .panic := by
  induction nodes with
  | nil => intro t; exact Or.inl rfl
  | cons node nodes ih =>
    intro t
    unfold addKnownProofs
    split
    · split
      · exact ih _
      · exact Or.inr rfl
    · exact ih t

theorem addFetchedProofs_panics (store : ProofStore) (nodes : List Nibbles) :
    ∀ t, (addFetchedProofs store t nodes).2 = .ok () ∨
      (addFetchedProofs store t nodes).2 = .error .panic := by
  induction nodes with
  | nil => intro t; exact Or.inl rfl
  | cons node nodes ih =>
    intro t
    unfold addFetchedProofs
    split
    · exact ih _
    · exact Or.inr rfl

theorem requestMissing_spec (hnd : (plan.map Prod.fst).Nodup)
    (l : Statuses) :
    ∀ (c : RootHashCalculator) (f : MissingNodesFetcher),
      StorageInv keccak base before plan c → (∀ e ∈ l, e ∈ c.changedAccount) →
      match c.requestMissing keccak f l with
      | (c', _, res) => StorageInv keccak base before plan c' ∧
          (res = .ok () ∨ res = .error .panic) := by
  induction l with
  | nil => intro c f h _; exact ⟨h, Or.inl rfl⟩
  | cons e l ih =>
    intro c f h hl
    obtain ⟨a, status⟩ := e
    have hl' : ∀ e ∈ l, e ∈ c.changedAccount := fun e he => hl e (mem_cons_of_mem _ he)
    unfold requestMissing
    cases hneeds : status.needsProcessing with
    | false => exact ih c f h hl'
    | true =>
      have hlive : KeepsMaps keccak base a (c.sharedCache.storeOf keccak a)
          (c.storage a).update.trie (addKnownProofs (c.sharedCache.storeOf keccak a)
            (c.storage a).update.trie (c.storage a).update.missingNodes).1 :=
        fun m ops hm => liveMap_addKnownProofs (base.storage_length _) (h.cache.ok.storage _) _ hm
      have hpanic := addKnownProofs_panics (c.sharedCache.storeOf keccak a)
        (c.storage a).update.missingNodes (c.storage a).update.trie
      simp only [if_true]
      generalize addKnownProofs (c.sharedCache.storeOf keccak a) (c.storage a).update.trie
        (c.storage a).update.missingNodes = out at hlive hpanic
      obtain ⟨trie, requested, res⟩ := out
      have hset := h.setStorage hnd (hl _ mem_cons_self) fun acc hst =>
        hst.setTrie hneeds hlive [] requested
      cases res with
      | ok _ => exact ih _ _ hset hl'
      | error e => exact ⟨hset, hpanic⟩

theorem addRequested_spec (hnd : (plan.map Prod.fst).Nodup)
    (l : Statuses) :
    ∀ c : RootHashCalculator, StorageInv keccak base before plan c →
      (∀ e ∈ l, e ∈ c.changedAccount) →
      Gives (fun c' _ => StorageInv keccak base before plan c') (fun _ e => e = .panic)
        (c.addRequested keccak l) := by
  induction l with
  | nil => exact fun c h _ => h
  | cons e l ih =>
    intro c h hl
    obtain ⟨a, status⟩ := e
    have hl' : ∀ e ∈ l, e ∈ c.changedAccount := fun e he => hl e (mem_cons_of_mem _ he)
    unfold addRequested
    cases hneeds : status.needsProcessing with
    | false => exact ih c h hl'
    | true =>
      have hlive : KeepsMaps keccak base a (c.sharedCache.storeOf keccak a)
          (c.storage a).update.trie (addFetchedProofs (c.sharedCache.storeOf keccak a)
            (c.storage a).update.trie (c.storage a).update.missingNodesRequested).1 :=
        fun m ops hm =>
          liveMap_addFetchedProofs (base.storage_length _) (h.cache.ok.storage _) _ hm
      have hpanic := addFetchedProofs_panics (c.sharedCache.storeOf keccak a)
        (c.storage a).update.missingNodesRequested (c.storage a).update.trie
      simp only [if_true]
      generalize addFetchedProofs (c.sharedCache.storeOf keccak a) (c.storage a).update.trie
        (c.storage a).update.missingNodesRequested = out at hlive hpanic
      obtain ⟨trie, res⟩ := out
      have hset := h.setStorage hnd (hl _ mem_cons_self) fun acc hst =>
        hst.setTrie hneeds hlive (c.storage a).update.missingNodes []
      cases res with
      | ok _ => exact ih _ hset hl'
      | error e => exact Except.error.inj (hpanic.resolve_left (by simp))

theorem fetchMissingStorageNodes_spec (hdec : DecodesBase keccak base decode)
    (h : StorageInv keccak base before plan c) (hnd : (plan.map Prod.fst).Nodup) (env : CallEnv)
    (i : Nat) (hp : (env.provider (.storage i)).Correct keccak base) :
    Gives (fun c' _ => StorageInv keccak base before plan c')
      (fun _ e => e = .panic ∨
        ¬ (env.provider (.storage i)).Answers before.sharedCache.lastBlockHash)
      (c.fetchMissingStorageNodes keccak decode env i) := by
  have hreq := requestMissing_spec hnd c.changedAccount c {} h fun _ he => he
  unfold fetchMissingStorageNodes
  generalize c.requestMissing keccak {} c.changedAccount = out at hreq
  obtain ⟨c1, fetcher, res⟩ := out
  obtain ⟨h1, hres⟩ := hreq
  cases res with
  | error e => exact .inl (Except.error.inj (hres.resolve_left (by simp)))
  | ok _ =>
    dsimp only
    refine (h1.fetch hdec env (.storage i) hp fetcher).elim (fun c2 _ h2 => ?_) fun _ _ hf => .inr hf
    dsimp only
    exact (addRequested_spec hnd c2.changedAccount c2 h2 fun _ he => he).elim
      (fun _ _ h3 => h3) fun _ _ he => .inl he

/-! ## Hashing -/

variable (keccak base plan) in
/-- The accounts of the list are hashed, the others are as they were. -/
def AllHashed (l : Statuses) (c c' : RootHashCalculator) : Prop :=
  ∃ storage, c' = { c with storage } ∧
    (∀ e ∈ l, Staged keccak base plan (c.sharedCache.storeOf keccak) storage (e.1, .hashed)) ∧
    ∀ a, a ∉ l.map Prod.fst → storage a = c.storage a

theorem hashStorageTries_spec (haccs : ∀ e ∈ plan, AccountOk keccak base e.1 e.2)
    (env : CallEnv) (l : Statuses) :
    ∀ c : RootHashCalculator, (l.map Prod.fst).Nodup →
      (∀ e ∈ l, Staged keccak base plan (c.sharedCache.storeOf keccak) c.storage e) →
      Gives (fun c' _ => AllHashed keccak base plan l c c') (fun _ e => e = .panic)
        (c.hashStorageTries keccak env l) := by
  induction l with
  | nil => exact fun c _ _ => ⟨c.storage, rfl, fun _ he => absurd he not_mem_nil, fun _ _ => rfl⟩
  | cons e l ih =>
    intro c hnd hst
    obtain ⟨a, status⟩ := e
    rw [map_cons, nodup_cons] at hnd
    obtain ⟨acc, hmem, hstage⟩ := hst _ mem_cons_self
    -- the rest of the loop, once the account is hashed
    have hrest (s) (hs : Stage keccak base (c.sharedCache.storeOf keccak a) a acc s .hashed) :
        Gives (fun c' _ => AllHashed keccak base plan ((a, status) :: l) c c')
          (fun _ e => e = .panic) ((c.setStorage a s).hashStorageTries keccak env l) := by
      refine (ih (c.setStorage a s) hnd.2
        (.setStorage hnd.1 (fun e he => hst e (mem_cons_of_mem _ he)) s)).elim
          (fun c' _ hrec => ?_) fun _ _ he => he
      obtain ⟨storage, rfl, hall, hsame⟩ := hrec
      obtain ⟨hfirst, hothers⟩ := Staged.cons hnd.1 hmem hs hsame
      exact ⟨storage, rfl, forall_mem_cons.mpr ⟨hfirst, hall⟩, hothers⟩
    have hself := hrest (c.storage a)
    rw [setStorage_storage] at hself
    unfold hashStorageTries
    cases hstage with
    | gone info same zero kept => exact hself (.gone info same zero kept)
    | hashed info same root kept => exact hself (.hashed info same root kept)
    | prepared info same update => exact rfl
    | updated info same update =>
      obtain ⟨m, hm⟩ := update.live
      rcases liveMap_rootHash hm true (env.schedule (some a)) with
        ⟨_, he⟩ | ⟨t', he, hm', _⟩
      · simp only [he]
        exact rfl
      simp only [he]
      exact hrest _ (.hashed info same
        (storageRoot_eq (haccs _ hmem) info hm' update.keyed update.perm)
        ⟨⟨⟨m, hm'⟩, update.keyed⟩, fun _ => ⟨m, hm', rfl⟩⟩)

/-! ## The whole storage part -/

variable (keccak base) in
/-- Every account of `plan` has the storage root of base state and outcome. -/
structure StorageDone (before : RootHashCalculator) (plan : Plan) (c : RootHashCalculator) :
    Prop where
  accountTrie : c.accountTrie = before.accountTrie
  incremental : c.incrementalAccountChange = before.incrementalAccountChange
  cache : Fetched keccak base before.sharedCache c.sharedCache
  addresses : c.changedAccount.map Prod.fst = plan.map Prod.fst
  hashed : ∀ e ∈ plan, Stage keccak base (c.sharedCache.storeOf keccak e.1) e.1 e.2
    (c.storage e.1) .hashed
  others : ∀ a, a ∉ plan.map Prod.fst →
    StorageKept keccak base (c.sharedCache.storeOf keccak a) a (c.storage a)

theorem Stage.kept
    (h : Stage keccak base store a acc s .hashed) : StorageKept keccak base store a s := by
  cases h with
  | gone _ _ _ kept | hashed _ _ _ kept => exact kept

theorem StorageDone.kept (h : StorageDone keccak base before plan c) (a : Address) :
    StorageKept keccak base (c.sharedCache.storeOf keccak a) a (c.storage a) := by
  by_cases ha : a ∈ plan.map Prod.fst
  · obtain ⟨e, he, rfl⟩ := mem_map.mp ha
    exact (h.hashed e he).kept
  · exact h.others a ha

theorem hashed_of_processed (h : StorageInv keccak base before plan c)
    (hnd : (plan.map Prod.fst).Nodup)
    (haccs : ∀ e ∈ plan, AccountOk keccak base e.1 e.2) (env : CallEnv) :
    Gives (fun c' _ => StorageDone keccak base before plan c') (fun _ e => e = .panic)
      (c.hashStorageTries keccak env c.changedAccount) := by
  have hnd' : (c.changedAccount.map Prod.fst).Nodup := by rwa [h.addresses]
  refine (hashStorageTries_spec haccs env c.changedAccount c hnd' h.staged).elim
    (fun c' _ hhash => ?_) fun _ _ he => he
  obtain ⟨storage, rfl, hall, hsame⟩ := hhash
  refine { h with hashed := ?_, others := ?_ }
  · rintro ⟨a, acc⟩ he
    have ha : a ∈ c.changedAccount.map Prod.fst := by
      rw [h.addresses]
      exact mem_map_of_mem he
    obtain ⟨⟨b, status⟩, he', rfl⟩ := mem_map.mp ha
    obtain ⟨acc', hmem, hst⟩ := hall _ he'
    obtain rfl := eq_of_nodup_fst hnd he hmem
    exact hst
  intro a ha
  show StorageKept keccak base _ a (storage a)
  rw [hsame a (by rwa [h.addresses])]
  exact h.others a ha

/-- The database does not answer one of the fetches for missing storage nodes. -/
def StorageFetchFails (env : CallEnv) (lastBlockHash : B256) : Prop :=
  ∃ i, ¬ (env.provider (.storage i)).Answers lastBlockHash

theorem storageLoop_spec (hdec : DecodesBase keccak base decode) (env : CallEnv)
    (hp : ∀ phase, (env.provider phase).Correct keccak base)
    (hnd : (plan.map Prod.fst).Nodup) (haccs : ∀ e ∈ plan, AccountOk keccak base e.1 e.2)
    (left : Nat) :
    ∀ (i : Nat) (c : RootHashCalculator), StorageInv keccak base before plan c →
      Gives (fun c' _ => StorageDone keccak base before plan c')
        (fun _ e => e = .panic ∨ (∃ e ∈ plan, DeletesAbsentSlot keccak base e.1 e.2) ∨
          StorageFetchFails env before.sharedCache.lastBlockHash)
        (c.storageLoop keccak decode env left i) := by
  induction left with
  | zero => exact fun i c _ => .inl rfl
  | succ left ih =>
    intro i c h
    unfold storageLoop
    refine (processStorageTriesUpdates_spec h hnd env).elim (fun c1 done h1 => ?_)
      fun _ _ he => .inr (.inl he)
    cases done with
    | true =>
      dsimp only
      exact (hashed_of_processed h1 hnd haccs env).elim (fun _ _ h2 => h2) fun _ _ he => .inl he
    | false =>
      dsimp only
      exact (fetchMissingStorageNodes_spec hdec h1 hnd env i (hp _)).elim
        (fun c2 _ h2 => ih (i + 1) c2 h2) fun _ _ he => he.imp_right fun hf => .inr ⟨i, hf⟩

/-- The accounts a call prepares: the modified ones, or the listed ones. -/
def PlanOf (order : HashOrder) (incremental : List Address) (outcome : BundleState)
    (plan : Plan) : Prop :=
  if incremental = [] then plan = modifiedAccounts outcome
  else plan.map Prod.fst = order.order incremental ∧ ∀ e ∈ plan, outcome.lookup e.1 = some e.2

theorem lookup_of_mem_modifiedAccounts {outcome : BundleState} {e : Address × BundleAccount}
    (h : e ∈ modifiedAccounts outcome) : outcome.lookup e.1 = some e.2 := by
  obtain ⟨e', he', rfl⟩ := mem_map.mp h
  exact AList.mem_lookup_iff.mpr (mem_of_mem_filter he')

theorem nodup_modifiedAccounts (outcome : BundleState) :
    ((modifiedAccounts outcome).map Prod.fst).Nodup := by
  rw [modifiedAccounts, map_map]
  exact (filter_sublist.map _).nodup outcome.nodupKeys

/-- The loop over the outcome is the loop over the modified accounts. -/
theorem foldl_modifiedAccounts (f : RootHashCalculator → Address → BundleAccount →
    RootHashCalculator) (outcome : BundleState) (c : RootHashCalculator) :
    outcome.entries.foldl (fun c e => if e.2.status.isNotModified then c else f c e.1 e.2) c =
      (modifiedAccounts outcome).foldl (fun c e => f c e.1 e.2) c := by
  rw [modifiedAccounts, foldl_map, foldl_filter]
  congr 1
  funext c e
  cases e.2.status.isNotModified <;> rfl

theorem prepareChangesForStorageTrie_spec
    (hstorage : ∀ a, StorageKept keccak base (c.sharedCache.storeOf keccak a) a (c.storage a))
    (hcache : CacheOk keccak base c.sharedCache) (hinc : c.incrementalAccountChange.Nodup)
    (order : HashOrder) {outcome : BundleState}
    (haccs : ∀ a acc, outcome.lookup a = some acc → AccountOk keccak base a acc) :
    Gives (fun c' _ => ∃ plan, PlanOf order c.incrementalAccountChange outcome plan ∧
        (plan.map Prod.fst).Nodup ∧ StorageInv keccak base c plan c')
      (fun _ e => e = .panic) (c.prepareChangesForStorageTrie keccak order outcome) := by
  have hstart : StorageInv keccak base c [] { c with changedAccount := [] } :=
    ⟨rfl, rfl, ⟨hcache, SharedCache.Extends.refl _, rfl⟩, rfl,
      fun _ he => absurd he not_mem_nil, fun a _ => hstorage a⟩
  have hfold (accounts : Plan) (hnd : (accounts.map Prod.fst).Nodup)
      (hlook : ∀ e ∈ accounts, outcome.lookup e.1 = some e.2) :=
    prepareFold_spec order accounts [] _ hstart hnd fun e he => haccs e.1 e.2 (hlook e he)
  unfold prepareChangesForStorageTrie
  by_cases hempty : c.incrementalAccountChange = []
  · have hif : ¬ c.incrementalAccountChange ≠ [] := fun h => h hempty
    have hnd := nodup_modifiedAccounts outcome
    rw [if_neg hif, foldl_modifiedAccounts]
    exact ⟨_, by rw [PlanOf, if_pos hempty], hnd,
      hfold _ hnd fun e he => lookup_of_mem_modifiedAccounts he⟩
  rw [if_pos hempty]
  refine (prepareListed_spec order outcome ..).elim (fun c' _ hlisted => ?_) fun _ _ he => he
  obtain ⟨listed, hmap, hlook, rfl⟩ := hlisted
  have hnd : (listed.map Prod.fst).Nodup := by
    rw [hmap]
    exact (order.perm _).nodup_iff.mpr hinc
  exact ⟨listed, by rw [PlanOf, if_neg hempty]; exact ⟨hmap, hlook⟩, hnd, hfold listed hnd hlook⟩

variable (keccak base) in
/-- What the storage part leaves behind. -/
def StoragePartOutcome (c : RootHashCalculator) (call : RootHashCalculator.Call) :
    Result Unit → Prop
  | (c', .ok ()) => ∃ plan, PlanOf call.env.order c.incrementalAccountChange call.outcome plan ∧
      (plan.map Prod.fst).Nodup ∧ StorageDone keccak base c plan c'
  | (_, .error e) => e = .panic ∨
      ∃ plan, PlanOf call.env.order c.incrementalAccountChange call.outcome plan ∧
        ((∃ e ∈ plan, DeletesAbsentSlot keccak base e.1 e.2) ∨
          StorageFetchFails call.env c.sharedCache.lastBlockHash ∨
          ¬ (call.env.provider .first).Answers c.sharedCache.lastBlockHash)

theorem storagePart_spec (hdec : DecodesBase keccak base decode) (call : Call)
    (hp : ∀ phase, (call.env.provider phase).Correct keccak base)
    (hstorage : ∀ a, StorageKept keccak base (c.sharedCache.storeOf keccak a) a (c.storage a))
    (hcache : CacheOk keccak base c.sharedCache) (hinc : c.incrementalAccountChange.Nodup)
    (haccs : ∀ a acc, call.outcome.lookup a = some acc → AccountOk keccak base a acc) :
    StoragePartOutcome keccak base c call (c.storagePart keccak decode call) := by
  unfold storagePart
  refine (prepareChangesForStorageTrie_spec hstorage hcache hinc call.env.order haccs).elim
    (fun c1 _ hprep => ?_) fun _ _ he => .inl he
  obtain ⟨plan, hplan, hnd, h1⟩ := hprep
  have haccs' : ∀ e ∈ plan, AccountOk keccak base e.1 e.2 := by
    intro e he
    unfold PlanOf at hplan
    split at hplan
    · rw [hplan] at he
      exact haccs _ _ (lookup_of_mem_modifiedAccounts he)
    · exact haccs _ _ (hplan.2 e he)
  have hloop (c2) (h2 : StorageInv keccak base c plan c2) :
      StoragePartOutcome keccak base c call (c2.storageLoop keccak decode call.env 10 0) := by
    refine (storageLoop_spec hdec call.env hp hnd haccs' 10 0 c2 h2).elim
      (fun _ _ h3 => ⟨plan, hplan, hnd, h3⟩) fun _ _ he => ?_
    rcases he with he | he | he
    · exact .inl he
    · exact .inr ⟨plan, hplan, .inl he⟩
    · exact .inr ⟨plan, hplan, .inr (.inl he)⟩
  dsimp only
  by_cases hempty : c1.incrementalAccountChange = []
  · rw [if_pos hempty, doFirstFetch]
    exact (h1.fetch hdec call.env .first (hp _) _).elim (fun c2 _ h2 => hloop c2 h2)
      fun _ _ hf => .inr ⟨plan, hplan, .inr (.inr hf)⟩
  · rw [if_neg hempty]
    exact hloop c1 h1

end SparseMpt
