/-
  Incremental calls.

  An incremental call prepares only the accounts that were listed since the last full call;
  the changes of the others stay as they are recorded. When every outcome differs from the
  one before at listed addresses only, the records are the accounts of the current outcome
  (`RecordsOf`): all that are modified, and some that were listed and are as in the base.
  So the root is that of a full call.
-/
import Rbuilder.Calculator.Run

namespace SparseMpt

open RootHashCalculator (Call Proofs listedBy startCall)
open UndoLog (Patched)
open List AList

section Outcomes

variable (keccak : Bytes → B256) (base : BaseState)

/-- An account without nonce, balance and code (EIP-161). -/
def IsEmptyAccount (value : Bytes) : Prop :=
  ∃ storageRoot, value = (TrieAccount.mk 0 0 storageRoot (keccak [])).encode

def NoEmptyAccounts : Prop :=
  ∀ key value, base.accounts.lookup key = some value → ¬ IsEmptyAccount keccak value

/-- What `revm` says of an account that it has loaded and not modified. -/
structure LoadedOk (a : Address) (acc : BundleAccount) : Prop where
  notExisting : acc.status = .loadedNotExisting →
    acc.info = none ∧ base.accounts.lookup (accountKey keccak a) = none
  loaded : acc.status = .loaded → acc.changedSlots = [] ∧ ∃ info, acc.info = some info ∧
    base.accounts.lookup (accountKey keccak a) =
      some (TrieAccount.mk info.nonce info.balance (mptRoot keccak (slotsOf keccak base a))
        info.codeHash).encode
  empty : acc.status = .loadedEmptyEIP161 → ∃ value,
    base.accounts.lookup (accountKey keccak a) = some value ∧ IsEmptyAccount keccak value

/-- A call with a list, after a call with outcome `last`: the outcomes agree outside the
    list. -/
structure IncrementalCall (c : RootHashCalculator) (last : BundleState) (call : Call) : Prop extends
    CallOk keccak base c call where
  listed : call.incrementalChange ≠ []
  agrees : ∀ a, a ∉ call.incrementalChange → call.outcome.lookup a = last.lookup a
  loaded : ∀ a acc, call.outcome.lookup a = some acc → LoadedOk keccak base a acc

/-- The changes are accounts of the outcome, and all modified accounts are among them. -/
structure AccountsOf (outcome : BundleState) (changes : AccountChanges) :
    Prop where
  present : ∀ e ∈ changes, ∃ acc, outcome.lookup e.1 = some acc ∧
    e.2 = accountAfter keccak base e.1 acc
  modified : ∀ e ∈ modifiedAccounts outcome, (e.1, accountAfter keccak base e.1 e.2) ∈ changes
  nodup : (changes.map Prod.fst).Nodup

/-- The calculator after a call with outcome `last`. -/
structure RecordsOf (last : BundleState) (c : RootHashCalculator) : Prop where
  inv : CalculatorInv keccak base c
  records : AccountsOf keccak base last (changesOf c.accountTrie.update.appliedPrevious)

end Outcomes

variable {keccak : Bytes → B256} {base : BaseState} {decode : Bytes → Option AlloyTrieNode}
  {c : RootHashCalculator} {call : Call} {last outcome : BundleState}
  {changes changes' : AccountChanges} {plan : Plan}
  {a : Address} {acc : BundleAccount} {K V : Type} {out : B256 × Proofs}

/-- An account that is not modified is as in the base. -/
theorem LoadedOk.same (h : LoadedOk keccak base a acc)
    (hempty : NoEmptyAccounts keccak base) (hn : acc.status.isNotModified = true) :
    base.accounts.lookup (accountKey keccak a) =
      encodeAccount (accountAfter keccak base a acc) := by
  cases hs : acc.status with
  | loadedNotExisting =>
    obtain ⟨hinfo, hnone⟩ := h.notExisting hs
    rw [hnone, accountAfter, hinfo]
    rfl
  | loaded =>
    obtain ⟨hslots, info, hinfo, hsome⟩ := h.loaded hs
    have hstorage : storageAfter keccak base a acc = slotsOf keccak base a := by
      rw [storageAfter, hslots, hs]
      rfl
    rw [hsome, accountAfter, hinfo, hstorage]
    rfl
  | loadedEmptyEIP161 =>
    obtain ⟨value, hvalue, he⟩ := h.empty hs
    exact absurd he (hempty _ _ hvalue)
  | _ => rw [hs] at hn; cases hn

section

variable (h : AccountsOf keccak base outcome changes)
include h

theorem AccountsOf.perm (hp : changes'.Perm changes) : AccountsOf keccak base outcome changes' :=
  ⟨fun e he => h.present e (hp.mem_iff.mp he), fun e he => hp.mem_iff.mpr (h.modified e he),
    (hp.map Prod.fst).nodup_iff.mpr h.nodup⟩

/-- The keys of the accounts of an outcome are different. -/
theorem AccountsOf.apart (hapart : (outcome.keys.map (accountKey keccak)).Nodup) :
    (changes.map (accountKey keccak ∘ Prod.fst)).Nodup := by
  rw [← map_map]
  refine h.nodup.map_on fun a ha b hb heq => ?_
  have hkey : ∀ a ∈ changes.map Prod.fst, a ∈ outcome.keys := by
    intro a ha
    obtain ⟨e, he, rfl⟩ := mem_map.mp ha
    obtain ⟨acc, hacc, _⟩ := h.present e he
    exact mem_keys.mp (mem_of_lookup hacc)
  exact inj_on_of_nodup_map hapart (hkey a ha) (hkey b hb) heq

/-- The accounts of an outcome, written over the base, make the state after it. -/
theorem AccountsOf.written (hempty : NoEmptyAccounts keccak base)
    (hloaded : ∀ a acc, outcome.lookup a = some acc → LoadedOk keccak base a acc)
    (hapart : (outcome.keys.map (accountKey keccak)).Nodup) (q : Nibbles) :
    (written encodeAccount (accountKey keccak) base.accounts changes).lookup q =
      (stateAfter keccak base outcome).lookup q := by
  have hmod : Patched (fun q => base.accounts.lookup q)
      (fun q => (stateAfter keccak base outcome).lookup q)
      ((accountChanges keccak base (modifiedAccounts outcome)).map fun e =>
        (accountKey keccak e.1, encodeAccount e.2)) := by
    rw [← written_modifiedAccounts]
    exact patched_written base.accounts (apart_modifiedAccounts hapart)
  refine congrFun ((patched_written base.accounts (h.apart hapart)).absorb hmod ?_ ?_) q
  · intro w hw
    obtain ⟨e', he', rfl⟩ := mem_map.mp hw
    obtain ⟨e, he, rfl⟩ := mem_map.mp he'
    exact mem_map.mpr ⟨_, h.modified e he, rfl⟩
  intro w hw
  obtain ⟨e, he, rfl⟩ := mem_map.mp hw
  obtain ⟨acc, hacc, hafter⟩ := h.present e he
  by_cases hn : acc.status.isNotModified = true
  · right
    rw [hafter]
    exact (hloaded _ _ hacc).same hempty hn
  left
  refine mem_map.mpr ⟨e, mem_map.mpr ⟨(e.1, acc), ?_, ?_⟩, rfl⟩
  · refine mem_map.mpr ⟨⟨e.1, acc⟩, mem_filter.mpr ⟨?_, by simpa using hn⟩, rfl⟩
    exact mem_lookup_iff.mp hacc
  · rw [← hafter]

end

theorem accountsOf_modified (outcome : BundleState) :
    AccountsOf keccak base outcome (accountChanges keccak base (modifiedAccounts outcome)) where
  present e' he' := by
    obtain ⟨e, he, rfl⟩ := mem_map.mp he'
    exact ⟨e.2, lookup_of_mem_modifiedAccounts he, rfl⟩
  modified e he := mem_map.mpr ⟨e, he, rfl⟩
  nodup := by
    rw [accountChanges, map_map]
    exact nodup_modifiedAccounts outcome

theorem mem_keptChanges {keep : K → Bool} {applied : AList fun _ : K => AppliedOp V}
    {e : K × V} : e ∈ keptChanges keep applied ↔ e ∈ changesOf applied ∧ keep e.1 = true := by
  constructor
  · intro h
    obtain ⟨r, hr, rfl⟩ := mem_map.mp h
    obtain ⟨hr, hkeep⟩ := mem_filter.mp hr
    exact ⟨mem_map.mpr ⟨r, hr, rfl⟩, hkeep⟩
  · rintro ⟨h, hkeep⟩
    obtain ⟨r, hr, rfl⟩ := mem_map.mp h
    exact mem_map.mpr ⟨r, mem_filter.mpr ⟨hr, hkeep⟩, rfl⟩

section

variable (h : IncrementalCall keccak base c last call)
include h

theorem IncrementalCall.mem_listedBy :
    a ∈ listedBy c call ↔ a ∈ c.incrementalAccountChange ∨ a ∈ call.incrementalChange := by
  rw [listedBy, if_pos h.listed, mem_dedup, mem_append]

theorem IncrementalCall.listedBy_ne_nil : listedBy c call ≠ [] := by
  obtain ⟨a, ha⟩ := exists_mem_of_ne_nil _ h.listed
  exact ne_nil_of_mem (h.mem_listedBy.mpr (Or.inr ha))

theorem IncrementalCall.keepAccount_iff :
    keepAccount (listedBy c call) a = true ↔ a ∉ listedBy c call := by
  simp [keepAccount, h.listedBy_ne_nil]

end

/-- The kept records and the listed accounts are accounts of the new outcome. -/
theorem IncrementalCall.accountsOf (h : RecordsOf keccak base last c)
    (hcall : IncrementalCall keccak base c last call)
    (hplan : PlanOf call.env.order (listedBy c call) call.outcome plan) :
    AccountsOf keccak base call.outcome (callChanges keccak base c call plan) := by
  rw [PlanOf, if_neg hcall.listedBy_ne_nil] at hplan
  obtain ⟨haddresses, hlook⟩ := hplan
  have hmem : ∀ a, a ∈ plan.map Prod.fst ↔ a ∈ listedBy c call := by
    intro a
    rw [haddresses]
    exact (call.env.order.perm _).mem_iff
  -- outside the accumulated list the outcomes agree
  have hsame : ∀ a, a ∉ listedBy c call → call.outcome.lookup a = last.lookup a := fun a ha =>
    hcall.agrees a fun hl => ha (hcall.mem_listedBy.mpr (Or.inr hl))
  refine ⟨?_, ?_, ?_⟩
  · intro e he
    rcases mem_append.mp he with he | he
    · obtain ⟨hrec, hkeep⟩ := mem_keptChanges.mp he
      obtain ⟨acc, hacc, hafter⟩ := h.records.present e hrec
      exact ⟨acc, (hsame e.1 (hcall.keepAccount_iff.mp hkeep)).trans hacc, hafter⟩
    · obtain ⟨e', he', rfl⟩ := mem_map.mp he
      exact ⟨e'.2, hlook e' he', rfl⟩
  · intro e he
    have hacc := lookup_of_mem_modifiedAccounts he
    by_cases hl : e.1 ∈ listedBy c call
    · obtain ⟨e', he', heq⟩ := mem_map.mp ((hmem e.1).mpr hl)
      have hacc' := hlook e' he'
      rw [heq, hacc] at hacc'
      refine mem_append_right _ (mem_map.mpr ⟨e', he', ?_⟩)
      rw [heq, Option.some.inj hacc']
    have he' : e ∈ modifiedAccounts last := by
      rw [hsame e.1 hl] at hacc
      obtain ⟨r, hr, rfl⟩ := mem_map.mp he
      exact mem_map.mpr ⟨r, mem_filter.mpr ⟨mem_lookup_iff.mp hacc, (mem_filter.mp hr).2⟩, rfl⟩
    exact mem_append_left _
      (mem_keptChanges.mpr ⟨h.records.modified e he', hcall.keepAccount_iff.mpr hl⟩)
  · rw [callChanges, map_append, nodup_append]
    refine ⟨((filter_sublist.map _).map _).nodup h.records.nodup, ?_, ?_⟩
    · rw [accountChanges, map_map]
      show (plan.map Prod.fst).Nodup
      rw [haddresses]
      exact (call.env.order.perm _).nodup_iff.mpr (nodup_listedBy c call)
    rintro a ha b hb rfl
    obtain ⟨e, he, rfl⟩ := mem_map.mp ha
    rw [accountChanges, map_map] at hb
    exact hcall.keepAccount_iff.mp (mem_keptChanges.mp he).2 ((hmem _).mp hb)

/-! ## Runs -/

/-- An incremental call that returns, returns the state root. -/
theorem IncrementalCall.returns (hdec : DecodesBase keccak base decode)
    (hempty : NoEmptyAccounts keccak base) (h : RecordsOf keccak base last c)
    (hcall : IncrementalCall keccak base c last call)
    (hres : (c.calculateRootHashWithSparseTrie keccak decode call).2 = .ok out) :
    RecordsOf keccak base call.outcome (c.calculateRootHashWithSparseTrie keccak decode call).1 ∧
      out.1 = stateRoot keccak base call.outcome := by
  have hout := calculate_spec hdec h.inv hcall.toCallOk fun plan hplan =>
    (hcall.accountsOf h hplan).apart hcall.apart
  generalize c.calculateRootHashWithSparseTrie keccak decode call = res at hres hout
  obtain ⟨c', res⟩ := res
  obtain rfl : res = .ok out := hres
  obtain ⟨plan, m, hplan, hdone, hroot, _⟩ := hout
  have hof := hcall.accountsOf h hplan
  exact ⟨⟨hdone.inv, hof.perm hdone.changes⟩, hroot.trans
    (hdone.root_eq (hof.written hempty hcall.loaded hcall.apart))⟩

theorem FullCall.recordsOf (hdec : DecodesBase keccak base decode)
    (h : CalculatorInv keccak base c) (hcall : FullCall keccak base c call)
    (hres : (c.calculateRootHashWithSparseTrie keccak decode call).2 = .ok out) :
    RecordsOf keccak base call.outcome
      (c.calculateRootHashWithSparseTrie keccak decode call).1 := by
  have hout := hcall.outcome hdec h
  generalize c.calculateRootHashWithSparseTrie keccak decode call = res at hres hout
  obtain ⟨c', res⟩ := res
  obtain rfl : res = .ok out := hres
  obtain ⟨plan, m, hplan, hdone, _⟩ := hout
  have hchanges := hdone.changes
  rw [listedBy_full hcall.full] at hplan
  rw [callChanges_full hcall.full, planOf_full hplan] at hchanges
  exact ⟨hdone.inv, (accountsOf_modified call.outcome).perm hchanges⟩

variable (keccak base decode) in
/-- Calls that all return: full calls, and incremental calls once there was a full one. The
    run ends with the outcome of its last call. -/
inductive IncrementalRun : RootHashCalculator → Option BundleState → Prop
  | new : IncrementalRun {} none
  | full {c : RootHashCalculator} {last : Option BundleState} {call : Call} {out : B256 × Proofs}
      (run : IncrementalRun c last) (ok : FullCall keccak base c call)
      (returns : (c.calculateRootHashWithSparseTrie keccak decode call).2 = .ok out) :
      IncrementalRun (c.calculateRootHashWithSparseTrie keccak decode call).1 (some call.outcome)
  | incremental {c : RootHashCalculator} {last : BundleState} {call : Call} {out : B256 × Proofs}
      (run : IncrementalRun c (some last)) (ok : IncrementalCall keccak base c last call)
      (returns : (c.calculateRootHashWithSparseTrie keccak decode call).2 = .ok out) :
      IncrementalRun (c.calculateRootHashWithSparseTrie keccak decode call).1 (some call.outcome)

theorem IncrementalRun.inv (hdec : DecodesBase keccak base decode)
    (hempty : NoEmptyAccounts keccak base) {last : Option BundleState}
    (h : IncrementalRun keccak base decode c last) :
    CalculatorInv keccak base c ∧ ∀ outcome, last = some outcome →
      RecordsOf keccak base outcome c := by
  induction h with
  | new => exact ⟨calculatorInv_new, fun _ h => by cases h⟩
  | full _ ok returns ih =>
    have hrec := ok.recordsOf hdec ih.1 returns
    exact ⟨hrec.inv, fun _ h => Option.some.inj h ▸ hrec⟩
  | incremental _ ok returns ih =>
    have hrec := (ok.returns hdec hempty (ih.2 _ rfl) returns).1
    exact ⟨hrec.inv, fun _ h => Option.some.inj h ▸ hrec⟩

/-- In every run of full and incremental calls that return, an incremental call returns the
    state root of the base state and its outcome, as a full call of a new calculator does. -/
theorem incremental_calls_return_full_root (keccak : Bytes → B256)
    (decode : Bytes → Option AlloyTrieNode) (base : BaseState)
    (hdec : DecodesBase keccak base decode) (hempty : NoEmptyAccounts keccak base)
    {c : RootHashCalculator} {last : BundleState}
    (hrun : IncrementalRun keccak base decode c (some last)) {call : Call}
    (hcall : IncrementalCall keccak base c last call) {root : B256} {proofs : Proofs}
    (hres : (c.calculateRootHashWithSparseTrie keccak decode call).2 = .ok (root, proofs)) :
    root = stateRoot keccak base call.outcome ∧
      ∀ (fresh : Call) (out : B256 × Proofs), FullCall keccak base {} fresh →
        fresh.outcome = call.outcome →
        (({} : RootHashCalculator).calculateRootHashWithSparseTrie keccak decode fresh).2 =
          .ok out → out.1 = root := by
  have hroot : root = stateRoot keccak base call.outcome :=
    (hcall.returns hdec hempty ((hrun.inv hdec hempty).2 last rfl) hres).2
  refine ⟨hroot, fun fresh out hfresh hsame hout => ?_⟩
  rw [hroot, ← hsame]
  exact (hfresh.returns hdec calculatorInv_new hout).2.1

/-- Both accounts are paid, one of them with a balance that changes. -/
def paidAliceAndBob (balance : U256) : BundleState := (paidAlice 1).insert bob (payee balance)

def payBoth : RootHashCalculator := (exampleCall emptyProvider {} (paidAliceAndBob 1) []).1

/-- Only the second account is listed. -/
def payBobMore (cache : SharedCache) : Call :=
  { fullCall emptyProvider cache (paidAliceAndBob 2) [] with incrementalChange := [bob] }

theorem accountOk_paidAliceAndBob (balance : U256) :
    ∀ a acc, (paidAliceAndBob balance).lookup a = some acc →
      AccountOk exampleKeccak emptyBase a acc :=
  accountOk_insert (accountOk_paidAlice 1) (accountOk_payee bob balance)

theorem loadedOk_paidAliceAndBob {balance : U256}
    (h : (paidAliceAndBob balance).lookup a = some acc) : LoadedOk exampleKeccak emptyBase a acc := by
  have hstatus : acc.status = .inMemoryChange := by
    by_cases hb : a = bob
    · rw [hb, paidAliceAndBob, lookup_insert] at h
      exact Option.some.inj h ▸ rfl
    rw [paidAliceAndBob, lookup_insert_ne hb] at h
    by_cases ha : a = alice
    · rw [ha, paidAlice, lookup_insert] at h
      exact Option.some.inj h ▸ rfl
    · rw [paidAlice, lookup_insert_ne ha] at h
      cases h
  constructor <;> intro hs <;> rw [hstatus] at hs <;> cases hs

theorem apart_paidAliceAndBob (balance : U256) :
    ((paidAliceAndBob balance).keys.map (accountKey exampleKeccak)).Nodup := by
  have hkeys : (paidAliceAndBob balance).keys = [bob, alice] := rfl
  rw [hkeys]
  decide

theorem payBobMore_ok {c : RootHashCalculator} (h : CacheOk exampleKeccak emptyBase c.sharedCache) :
    IncrementalCall exampleKeccak emptyBase c (paidAliceAndBob 1) (payBobMore c.sharedCache) where
  cache := h
  extends_cache := SharedCache.Extends.refl _
  provider _ := emptyProvider_correct
  accounts := accountOk_paidAliceAndBob 2
  apart := apart_paidAliceAndBob 2
  listed := by simp [payBobMore]
  agrees a ha := by
    have hne : a ≠ bob := fun h => ha (h ▸ mem_cons_self)
    exact (lookup_insert_ne hne).trans (lookup_insert_ne hne).symm
  loaded _ _ := loadedOk_paidAliceAndBob

set_option maxRecDepth 4000 in
theorem incremental_calls_return_full_root_paid_more :
    (payBoth.calculateRootHashWithSparseTrie exampleKeccak decodeEmptyRoot
        (payBobMore payBoth.sharedCache)).2 =
          .ok (exampleKeccak (aliceBobBranch aliceDigest bobDigestTwo), ∅) ∧
      exampleKeccak (aliceBobBranch aliceDigest bobDigestTwo) =
        stateRoot exampleKeccak emptyBase (paidAliceAndBob 2) := by
  have hempty : NoEmptyAccounts exampleKeccak emptyBase := fun _ _ h => by cases h
  have hnew : IncrementalRun exampleKeccak emptyBase decodeEmptyRoot {} none := .new
  have hfull : (exampleCall emptyProvider {} (paidAliceAndBob 1) []).2 =
        .ok (exampleKeccak (aliceBobBranch aliceDigest bobDigest), ∅) := rfl
  have hok : FullCall exampleKeccak emptyBase {} (fullCall emptyProvider {} (paidAliceAndBob 1) []) :=
    fullCall_ok emptyProvider_correct (hnew.inv decodesBase_empty hempty).1.cache
      (accountOk_paidAliceAndBob 1) (apart_paidAliceAndBob 1) []
  have hrun : IncrementalRun exampleKeccak emptyBase decodeEmptyRoot payBoth
      (some (paidAliceAndBob 1)) := hnew.full hok hfull
  have hcache := (hrun.inv decodesBase_empty hempty).1.cache
  have hcall := payBobMore_ok hcache
  have hres : (payBoth.calculateRootHashWithSparseTrie exampleKeccak decodeEmptyRoot
      (payBobMore payBoth.sharedCache)).2 =
        .ok (exampleKeccak (aliceBobBranch aliceDigest bobDigestTwo), ∅) := rfl
  exact ⟨hres, (incremental_calls_return_full_root exampleKeccak decodeEmptyRoot emptyBase
    decodesBase_empty hempty hrun hcall hres).1⟩

end SparseMpt
