/-
  `RootHashCalculator` of `eth-sparse-mpt/src/v2/mod.rs` and the fetcher of
  `v2/fetch.rs`.

  A calculator keeps its tries from one call to the next, with a record of every change
  it has made to them. A call first compares the new outcome with the records, then undoes
  what is no longer wanted, then makes the changes that are new. The storage tries and the
  account trie are handled alike, so what they share is one structure, `TrieCalculator`.

  What the code leaves open is an input of a call: the answers of the database, the order
  in which hash maps are iterated, the order in which rayon runs its tasks, and which
  tasks still run after one of them has failed. The locks and the clocks are left out.
  Addresses without a storage calculator have a fresh one.
-/
import Rbuilder.Calculator.Bundle
import Rbuilder.HashMap
import Rbuilder.SparseMpt.ProofStore
import Mathlib.Data.List.Sort

namespace SparseMpt

/-- `panic` stands for every failed assertion and `expect`. -/
inductive SparseTrieError where
  | wrongDatabaseTrieError
  | other (msg : String)
  | panic
  deriving DecidableEq

/-! ## What the storage tries and the account trie share -/

/-- `AppliedStorageOp` and `AppliedAccountOp`: a change made to a trie and how to undo it. -/
structure AppliedOp (V : Type) where
  insertedValue : V
  revertKey : Nibbles
  revertValue : Option Range

structure InsertOp (K V : Type) where
  key : Nibbles
  value : Bytes
  opKey : K
  opValue : V
  ok : Bool

structure DeleteOp (K : Type) where
  key : Nibbles
  opKey : K
  ok : Bool

/-- A kept trie with the changes that are applied, to be undone and to be made. -/
structure TrieCalculator (K V : Type) where
  trie : Trie := {}
  appliedCurrent : AList fun _ : K => AppliedOp V := ∅
  revertOps : List (AppliedOp V × Bool) := []
  insertOps : List (InsertOp K V) := []
  deleteOps : List (DeleteOp K) := []
  missingNodes : List Nibbles := []
  missingNodesRequested : List Nibbles := []
  appliedPrevious : AList fun _ : K => AppliedOp V := ∅

/-- The texts of the errors of `process_*_update`. -/
structure UpdateTexts where
  revertMissing : String
  deleteMissing : String

namespace TrieCalculator

variable {K V : Type}

section

variable (u : TrieCalculator K V)

/-- The trie and the changes applied in the previous iteration stay. -/
def clear : TrieCalculator K V :=
  { trie := u.trie, missingNodesRequested := u.missingNodesRequested,
    appliedPrevious := u.appliedPrevious }

def pushChange (opKey : K) (key : Nibbles) (opValue : V) :
    Option Bytes → TrieCalculator K V
  | some value => { u with insertOps := u.insertOps ++ [⟨key, value, opKey, opValue, false⟩] }
  | none => { u with deleteOps := u.deleteOps ++ [⟨key, opKey, false⟩] }

/-- Keep the change when it is applied already, else plan it, and the undoing of the
    change that is applied under this key. -/
def prepareChange [DecidableEq K] [DecidableEq V] (opKey : K) (key : Nibbles) (opValue : V)
    (value : Option Bytes) : TrieCalculator K V :=
  match u.appliedPrevious.lookup opKey with
  | some appliedOp =>
    let u := { u with appliedPrevious := u.appliedPrevious.erase opKey }
    if appliedOp.insertedValue = opValue then
      { u with appliedCurrent := u.appliedCurrent.insert opKey appliedOp }
    else
      { u with revertOps := u.revertOps ++ [(appliedOp, false)] }.pushChange opKey key opValue value
  | none => u.pushChange opKey key opValue value

/-- What is left of the previous iteration is kept or undone. -/
def drainOne [DecidableEq K] (keep : K → Bool) (u : TrieCalculator K V)
    (e : Sigma fun _ : K => AppliedOp V) : TrieCalculator K V :=
  if keep e.1 then { u with appliedCurrent := u.appliedCurrent.insert e.1 e.2 }
  else { u with revertOps := u.revertOps ++ [(e.2, false)] }

def drainPrevious [DecidableEq K] (order : HashOrder) (keep : K → Bool)
    (u : TrieCalculator K V) : TrieCalculator K V :=
  (order.order u.appliedPrevious.entries).foldl (drainOne keep) { u with appliedPrevious := ∅ }

def swapApplied : TrieCalculator K V :=
  { u with appliedPrevious := u.appliedCurrent, appliedCurrent := u.appliedPrevious }

end

end TrieCalculator

/-- Undo one change. -/
def Trie.revertOp {V : Type} (t : Trie) (op : AppliedOp V) : Trie × Except TrieError Unit :=
  match op.revertValue with
  | some oldValue =>
    let (t, res) := t.insertNibbleKey op.revertKey (.storedValue oldValue)
    (t, res.map fun _ => ())
  | none =>
    let (t, res) := t.deleteNibblesKey op.revertKey
    (t, res.map fun _ => ())

/-- The loop over the changes to undo: the trie, the changes with their marks, the missing
    nodes. -/
def revertLoop {V : Type} (texts : UpdateTexts) :
    Trie → List (AppliedOp V × Bool) →
      Trie × List (AppliedOp V × Bool) × List Nibbles × Except SparseTrieError Unit
  | t, [] => (t, [], [], .ok ())
  | t, (op, true) :: ops =>
    let (t, ops, missing, res) := revertLoop texts t ops
    (t, (op, true) :: ops, missing, res)
  | t, (op, false) :: ops =>
    match t.revertOp op with
    | (t, .ok ()) =>
      let (t, ops, missing, res) := revertLoop texts t ops
      (t, (op, true) :: ops, missing, res)
    | (t, .error (.nodeNotFound node)) =>
      let (t, ops, missing, res) := revertLoop texts t ops
      (t, (op, false) :: ops, node :: missing, res)
    | (t, .error .keyNotFound) => (t, (op, false) :: ops, [], .error (.other texts.revertMissing))
    | (t, .error _) => (t, (op, false) :: ops, [], .error .panic)

/-- The loop over the insertions. -/
def insertLoop {K V : Type} [DecidableEq K] :
    Trie → AList (fun _ : K => AppliedOp V) → List (InsertOp K V) →
      Trie × AList (fun _ : K => AppliedOp V) × List (InsertOp K V) × List Nibbles ×
        Except SparseTrieError Unit
  | t, applied, [] => (t, applied, [], [], .ok ())
  | t, applied, op :: ops =>
    if op.ok then
      let (t, applied, ops, missing, res) := insertLoop t applied ops
      (t, applied, op :: ops, missing, res)
    else
      match t.insertNibbleKey op.key (.value op.value) with
      | (t, .ok revertValue) =>
        let applied := applied.insert op.opKey ⟨op.opValue, op.key, revertValue⟩
        let (t, applied, ops, missing, res) := insertLoop t applied ops
        (t, applied, { op with ok := true } :: ops, missing, res)
      | (t, .error (.nodeNotFound node)) =>
        let (t, applied, ops, missing, res) := insertLoop t applied ops
        (t, applied, op :: ops, node :: missing, res)
      | (t, .error _) => (t, applied, op :: ops, [], .error .panic)

/-- The loop over the deletions; `deleted` is the value of a deleted key. -/
def deleteLoop {K V : Type} [DecidableEq K] (texts : UpdateTexts) (deleted : V) :
    Trie → AList (fun _ : K => AppliedOp V) → List (DeleteOp K) →
      Trie × AList (fun _ : K => AppliedOp V) × List (DeleteOp K) × List Nibbles ×
        Except SparseTrieError Unit
  | t, applied, [] => (t, applied, [], [], .ok ())
  | t, applied, op :: ops =>
    if op.ok then
      let (t, applied, ops, missing, res) := deleteLoop texts deleted t applied ops
      (t, applied, op :: ops, missing, res)
    else
      match t.deleteNibblesKey op.key with
      | (t, .ok revertValue) =>
        let applied := applied.insert op.opKey ⟨deleted, op.key, some revertValue⟩
        let (t, applied, ops, missing, res) := deleteLoop texts deleted t applied ops
        (t, applied, { op with ok := true } :: ops, missing, res)
      | (t, .error (.nodeNotFound node)) =>
        let (t, applied, ops, missing, res) := deleteLoop texts deleted t applied ops
        (t, applied, op :: ops, node :: missing, res)
      | (t, .error .keyNotFound) => (t, applied, op :: ops, [], .error (.other texts.deleteMissing))
      | (t, .error _) => (t, applied, op :: ops, [], .error .panic)

namespace TrieCalculator

variable {K V : Type} [DecidableEq K]

def processReverts (texts : UpdateTexts) (u : TrieCalculator K V) :
    TrieCalculator K V × Except SparseTrieError Unit :=
  let (trie, revertOps, missing, res) := revertLoop texts u.trie u.revertOps
  ({ u with trie, revertOps, missingNodes := u.missingNodes ++ missing }, res)

def processInserts (u : TrieCalculator K V) : TrieCalculator K V × Except SparseTrieError Unit :=
  let (trie, appliedCurrent, insertOps, missing, res) :=
    insertLoop u.trie u.appliedCurrent u.insertOps
  ({ u with trie, appliedCurrent, insertOps, missingNodes := u.missingNodes ++ missing }, res)

def processDeletes (texts : UpdateTexts) (deleted : V) (u : TrieCalculator K V) :
    TrieCalculator K V × Except SparseTrieError Unit :=
  let (trie, appliedCurrent, deleteOps, missing, res) :=
    deleteLoop texts deleted u.trie u.appliedCurrent u.deleteOps
  ({ u with trie, appliedCurrent, deleteOps, missingNodes := u.missingNodes ++ missing }, res)

/-- Undo, then insert, then delete; `true` if no nodes are missing. Nothing is inserted or
    deleted while something is still to be undone. `needsRoot`: the root must be there at
    the end. -/
def processUpdate (texts : UpdateTexts) (deleted : V) (needsRoot : Bool)
    (u : TrieCalculator K V) : TrieCalculator K V × Except SparseTrieError Bool :=
  match { u with missingNodes := [] }.processReverts texts with
  | (u, .error e) => (u, .error e)
  | (u, .ok ()) =>
    if u.missingNodes ≠ [] then (u, .ok false)
    else
      match u.processInserts with
      | (u, .error e) => (u, .error e)
      | (u, .ok ()) =>
        match u.processDeletes texts deleted with
        | (u, .error e) => (u, .error e)
        | (u, .ok ()) =>
          let u := if needsRoot && u.trie.isUninit then
            { u with missingNodes := u.missingNodes ++ [[]] } else u
          (u, .ok u.missingNodes.isEmpty)

end TrieCalculator

/-- The missing nodes that the store has proofs for are added to the trie, the others are
    requested. -/
def addKnownProofs (store : ProofStore) :
    Trie → List Nibbles → Trie × List Nibbles × Except SparseTrieError Unit
  | t, [] => (t, [], .ok ())
  | t, node :: nodes =>
    if store.hasProof node then
      match t.tryAddProofFromProofStore store node with
      | (t, .ok true) => addKnownProofs store t nodes
      | (t, _) => (t, [], .error .panic)
    else
      let (t, requested, res) := addKnownProofs store t nodes
      (t, node :: requested, res)

/-- After a fetch every requested node must have a proof in the store. -/
def addFetchedProofs (store : ProofStore) : Trie → List Nibbles → Trie × Except SparseTrieError Unit
  | t, [] => (t, .ok ())
  | t, node :: nodes =>
    match t.tryAddProofFromProofStore store node with
    | (t, .ok true) => addFetchedProofs store t nodes
    | (t, _) => (t, .error .panic)

/-! ## Fetching -/

structure SharedCache where
  accountTrie : ProofStore := {}
  storageTries : B256 → ProofStore := fun _ => {}
  lastBlockHash : B256 := B256.zero

/-- What the database answers to one fetch. -/
structure Provider where
  /-- The hash of the last block. -/
  blockHash : Except SparseTrieError (Option B256)
  storageMultiproof : B256 → List B256 → Except SparseTrieError (List (Nibbles × Bytes))
  multiproof : List B256 → Except SparseTrieError (List (Nibbles × Bytes))

structure MissingNodesFetcher where
  storageNodes : AList fun _ : B256 => List Nibbles := ∅
  accountNodes : List Nibbles := []

namespace MissingNodesFetcher

def isEmpty (f : MissingNodesFetcher) : Bool :=
  f.storageNodes.entries.isEmpty && f.accountNodes.isEmpty

def addMissingStorageNode (f : MissingNodesFetcher) (hashedAddress : B256) (node : Nibbles) :
    MissingNodesFetcher :=
  { f with storageNodes :=
      f.storageNodes.insert hashedAddress ((f.storageNodes.lookup hashedAddress).getD [] ++ [node]) }

def addMissingAccountNode (f : MissingNodesFetcher) (node : Nibbles) : MissingNodesFetcher :=
  { f with accountNodes := f.accountNodes ++ [node] }

end MissingNodesFetcher

/-- A path filled up with zeros. -/
def padPath (path : Nibbles) : B256 :=
  let path := (path ++ List.replicate (64 - path.length) 0).take 64
  Vector.ofFn fun i => ((pack path)[i.val]?).getD 0

/-- `ProofNodes::matching_nodes_sorted`: the nodes on the way to a path. -/
def matchingNodesSorted (nodes : List (Nibbles × Bytes)) (path : Nibbles) :
    List (Nibbles × Bytes) :=
  (nodes.filter fun e => decide (e.1 <+: path)).insertionSort fun a b => a.1.length ≤ b.1.length

/-- Add the proofs of the requested nodes to a store. -/
def addProofs (decode : Bytes → Option AlloyTrieNode) (nodes : List (Nibbles × Bytes)) :
    ProofStore → List Nibbles → ProofStore × Except SparseTrieError Unit
  | store, [] => (store, .ok ())
  | store, requested :: rest =>
    match store.addProof decode requested (matchingNodesSorted nodes requested) with
    | (store, true) => addProofs decode nodes store rest
    | (store, false) => (store, .error (.other "failed to decode proof"))

def checkBlockHash (provider : Provider) (cache : SharedCache) : Except SparseTrieError Unit :=
  if cache.lastBlockHash = B256.zero then .ok ()
  else
    match provider.blockHash with
    | .error e => .error e
    | .ok blockHash =>
      if blockHash = some cache.lastBlockHash then .ok () else .error .wrongDatabaseTrieError

def fetchStorage (decode : Bytes → Option AlloyTrieNode) (provider : Provider) :
    SharedCache → List (Sigma fun _ : B256 => List Nibbles) →
      SharedCache × Except SparseTrieError Unit
  | cache, [] => (cache, .ok ())
  | cache, ⟨hashedAddress, nodes⟩ :: rest =>
    match checkBlockHash provider cache with
    | .error e => (cache, .error e)
    | .ok () =>
      match provider.storageMultiproof hashedAddress (nodes.map padPath) with
      | .error e => (cache, .error e)
      | .ok multiproof =>
        let (store, res) := addProofs decode multiproof (cache.storageTries hashedAddress) nodes
        let cache := { cache with
          storageTries := Function.update cache.storageTries hashedAddress store }
        match res with
        | .error e => (cache, .error e)
        | .ok () => fetchStorage decode provider cache rest

/-- Fetch the accumulated nodes into the shared cache. -/
def MissingNodesFetcher.fetchNodes (decode : Bytes → Option AlloyTrieNode) (provider : Provider)
    (order : HashOrder) (f : MissingNodesFetcher) (cache : SharedCache) :
    SharedCache × Except SparseTrieError Unit :=
  match fetchStorage decode provider cache (order.order f.storageNodes.entries) with
  | (cache, .error e) => (cache, .error e)
  | (cache, .ok ()) =>
    match checkBlockHash provider cache with
    | .error e => (cache, .error e)
    | .ok () =>
      match provider.multiproof (f.accountNodes.map padPath) with
      | .error e => (cache, .error e)
      | .ok multiproof =>
        let (accountTrie, res) := addProofs decode multiproof cache.accountTrie f.accountNodes
        ({ cache with accountTrie }, res)

/-! ## The calculator -/

inductive StorageTrieStatus where
  | insertsNotProcessed
  | insertsProcessed
  | hashed
  deriving DecidableEq

def StorageTrieStatus.needsProcessing : StorageTrieStatus → Bool
  | insertsNotProcessed => true
  | insertsProcessed | hashed => false

/-- The accounts of a call with their statuses. -/
abbrev Statuses := List (Address × StorageTrieStatus)

structure StorageCalculator where
  accountInfo : Option AccountInfo := none
  update : TrieCalculator U256 U256 := {}
  hash : B256 := B256.zero

/-- It does not clear the trie with the currently applied changes. -/
def StorageCalculator.clear (s : StorageCalculator) : StorageCalculator :=
  { s with accountInfo := none, update := { s.update.clear with missingNodesRequested := [] } }

structure ProofOp where
  key : Nibbles
  address : Address
  ok : Bool

structure AccountTrieCalculator where
  update : TrieCalculator Address (Option TrieAccount) := {}
  proofOps : List ProofOp := []
  proofResult : List (Address × List (Nibbles × Bytes)) := []

def AccountTrieCalculator.clear (a : AccountTrieCalculator) : AccountTrieCalculator :=
  { update := a.update.clear }

structure RootHashCalculator where
  storage : Address → StorageCalculator := fun _ => {}
  changedAccount : Statuses := []
  accountTrie : AccountTrieCalculator := {}
  sharedCache : SharedCache := {}
  incrementalAccountChange : List Address := []

/-- The fetches of one call. -/
inductive FetchPhase where
  | first
  | storage (iteration : Nat)
  | account (iteration : Nat)
  | proofs (iteration : Nat)
  deriving DecidableEq

/-- What is not determined by the arguments of a call. -/
structure CallEnv where
  provider : FetchPhase → Provider
  order : HashOrder
  schedule : Option Address → HashSchedule
  /-- The tasks that still run when another one has failed. -/
  started : Address → Bool

namespace RootHashCalculator

/-- The calculator a method leaves behind and what the method returns. -/
abbrev Result (α : Type) : Type := RootHashCalculator × Except SparseTrieError α

variable (keccak : Bytes → B256) (decode : Bytes → Option AlloyTrieNode)
  (c : RootHashCalculator)

def setStorage (a : Address) (s : StorageCalculator) : RootHashCalculator :=
  { c with storage := Function.update c.storage a s }

def pushChanged (a : Address) (status : StorageTrieStatus) : RootHashCalculator :=
  { c with changedAccount := c.changedAccount ++ [(a, status)] }

/-! ### Storage tries -/

def prepareSlot (u : TrieCalculator U256 U256) (slot : U256) (value : U256) :
    TrieCalculator U256 U256 :=
  u.prepareChange slot (slotKey keccak slot) value (encodeSlot value)

def prepareChangesForOneStorageTrie (order : HashOrder) (c : RootHashCalculator)
    (address : Address) (bundleAccount : BundleAccount) : RootHashCalculator :=
  let s := { (c.storage address).clear with accountInfo := bundleAccount.info }
  match bundleAccount.info with
  -- account processed, no need to compute storage hash
  | none => (c.setStorage address { s with hash := B256.zero }).pushChanged address .hashed
  | some _ =>
    let u := bundleAccount.storage.entries.foldl (fun u e =>
      if e.2.isChanged then prepareSlot keccak u e.1 e.2.presentValue else u) s.update
    let u := u.drainPrevious order fun _ => false
    if u.deleteOps.isEmpty && u.insertOps.isEmpty && u.revertOps.isEmpty &&
        s.hash != B256.zero && !u.trie.isUninit then
      (c.setStorage address { s with update := u.swapApplied }).pushChanged address .hashed
    else
      (c.setStorage address { s with update := u, hash := B256.zero }).pushChanged address
        .insertsNotProcessed

/-- The loop over the listed accounts. -/
def prepareListed (order : HashOrder) (outcome : BundleState) :
    RootHashCalculator → List Address → Result Unit
  | c, [] => (c, .ok ())
  | c, address :: rest =>
    match outcome.lookup address with
    -- account with incremental change is not in the BundleState
    | none => (c, .error .panic)
    | some bundleAccount =>
      prepareListed order outcome
        (c.prepareChangesForOneStorageTrie keccak order address bundleAccount) rest

def prepareChangesForStorageTrie (order : HashOrder) (outcome : BundleState)
    (c : RootHashCalculator) : Result Unit :=
  let c := { c with changedAccount := [] }
  if c.incrementalAccountChange ≠ [] then
    c.prepareListed keccak order outcome (order.order c.incrementalAccountChange)
  else
    (outcome.entries.foldl (fun c e =>
      if e.2.status.isNotModified then c
      else c.prepareChangesForOneStorageTrie keccak order e.1 e.2) c, .ok ())

/-- What the first fetch asks for one account. -/
def firstFetchOne (f : MissingNodesFetcher) (a : Address) : MissingNodesFetcher :=
  let u := (c.storage a).update
  let store := c.sharedCache.storageTries (hashedAddress keccak a)
  let f := if c.sharedCache.accountTrie.hasProof (accountKey keccak a) then f
    else f.addMissingAccountNode (accountKey keccak a)
  let f := if u.insertOps.isEmpty && u.deleteOps.isEmpty && !store.hasProof [] then
    f.addMissingStorageNode (hashedAddress keccak a) [] else f
  (u.insertOps.map InsertOp.key ++ u.deleteOps.map DeleteOp.key).foldl (fun f node =>
    if store.hasProof node then f else f.addMissingStorageNode (hashedAddress keccak a) node) f

section

variable (env : CallEnv) (c : RootHashCalculator)

def fetch (phase : FetchPhase) (f : MissingNodesFetcher) (c : RootHashCalculator) : Result Unit :=
  if f.isEmpty then (c, .ok ())
  else
    let (sharedCache, res) := f.fetchNodes decode (env.provider phase) env.order c.sharedCache
    ({ c with sharedCache }, res)

def doFirstFetch : Result Unit :=
  c.fetch decode env .first ((c.changedAccount.map Prod.fst).foldl (c.firstFetchOne keccak) {})

def storageTexts : UpdateTexts where
  revertMissing := "reverting nodes, can't delete key that is not in the trie (storage)"
  deleteMissing := "Deleting key that is not in the trie"

/-- True if no missing nodes. -/
def processStorageTriesUpdate (u : TrieCalculator U256 U256) :
    TrieCalculator U256 U256 × Except SparseTrieError Bool :=
  u.processUpdate storageTexts 0 true

/-- One task of `process_storage_tries_updates`: the calculator of the account, its status,
    and an error. -/
def processTask (e : Address × StorageTrieStatus) :
    RootHashCalculator × StorageTrieStatus × Except SparseTrieError Unit :=
  -- if account is done, just return
  if e.2.needsProcessing then
    let s := c.storage e.1
    match processStorageTriesUpdate s.update with
    | (update, .ok true) => (c.setStorage e.1 { s with update }, .insertsProcessed, .ok ())
    | (update, .ok false) => (c.setStorage e.1 { s with update }, e.2, .ok ())
    | (update, .error err) => (c.setStorage e.1 { s with update }, e.2, .error err)
  else (c, e.2, .ok ())

/-- The tasks in the order they are run. Once one has failed with `failed`, only the tasks
    that have been started are run. -/
def processTasks (started : Address → Bool) :
    RootHashCalculator → Option SparseTrieError → Statuses →
      RootHashCalculator × Statuses × Option SparseTrieError
  | c, failed, [] => (c, [], failed)
  | c, failed, e :: rest =>
    if failed.isSome && !started e.1 then
      let (c, statuses, failed) := processTasks started c failed rest
      (c, e :: statuses, failed)
    else
      match c.processTask e with
      | (c, status, .ok ()) =>
        let (c, statuses, failed) := processTasks started c failed rest
        (c, (e.1, status) :: statuses, failed)
      | (c, status, .error err) =>
        let (c, statuses, failed) := processTasks started c (failed.or (some err)) rest
        (c, (e.1, status) :: statuses, failed)

def processStorageTriesUpdates : Result Bool :=
  match c.processTasks env.started none (env.order.order c.changedAccount) with
  | (c, statuses, failed) =>
    -- the statuses go back to the places of their accounts
    let changedAccount := c.changedAccount.map fun e =>
      (e.1, (statuses.lookup e.1).getD e.2)
    let c := { c with changedAccount }
    match failed with
    | some err => (c, .error err)
    | none => (c, .ok (changedAccount.all fun e => !e.2.needsProcessing))

/-- Add the proofs that are known, request the others. -/
def requestMissing (keccak : Bytes → B256) :
    RootHashCalculator → MissingNodesFetcher → Statuses →
      RootHashCalculator × MissingNodesFetcher × Except SparseTrieError Unit
  | c, f, [] => (c, f, .ok ())
  | c, f, (a, status) :: rest =>
    if status.needsProcessing then
      let s := c.storage a
      let store := c.sharedCache.storageTries (hashedAddress keccak a)
      match addKnownProofs store s.update.trie s.update.missingNodes with
      | (trie, requested, res) =>
        let update := { s.update with
          trie, missingNodes := [], missingNodesRequested := requested }
        let c := c.setStorage a { s with update }
        match res with
        | .error e => (c, f, .error e)
        | .ok () =>
          requestMissing keccak c
            (requested.foldl (fun f node =>
              f.addMissingStorageNode (hashedAddress keccak a) node) f) rest
    else requestMissing keccak c f rest

def addRequested (keccak : Bytes → B256) :
    RootHashCalculator → Statuses → Result Unit
  | c, [] => (c, .ok ())
  | c, (a, status) :: rest =>
    if status.needsProcessing then
      let s := c.storage a
      let store := c.sharedCache.storageTries (hashedAddress keccak a)
      match addFetchedProofs store s.update.trie s.update.missingNodesRequested with
      | (trie, res) =>
        let c := c.setStorage a { s with
          update := { s.update with trie, missingNodesRequested := [] } }
        match res with
        | .error e => (c, .error e)
        | .ok () => addRequested keccak c rest
    else addRequested keccak c rest

def fetchMissingStorageNodes (iteration : Nat) (c : RootHashCalculator) : Result Unit :=
  match c.requestMissing keccak {} c.changedAccount with
  | (c, _, .error e) => (c, .error e)
  | (c, fetcher, .ok ()) =>
    match c.fetch decode env (.storage iteration) fetcher with
    | (c, .error e) => (c, .error e)
    | (c, .ok ()) => c.addRequested keccak c.changedAccount

def hashStorageTries (env : CallEnv) :
    RootHashCalculator → Statuses → Result Unit
  | c, [] => (c, .ok ())
  | c, (a, status) :: rest =>
    match status with
    | .hashed => hashStorageTries env c rest
    -- storage trie is not updated properly
    | .insertsNotProcessed => (c, .error .panic)
    | .insertsProcessed =>
      let s := c.storage a
      match s.update.trie.rootHash keccak true (env.schedule (some a)).order
        (c.sharedCache.storageTries (hashedAddress keccak a)) with
      -- missing node while hashing storage trie
      | (trie, .error _) =>
        (c.setStorage a { s with update := { s.update with trie } }, .error .panic)
      | (trie, .ok hash) =>
        hashStorageTries env
          (c.setStorage a { s with update := { s.update with trie }.swapApplied, hash }) rest

/-- The storage loop; `iteration` of `iterations` are left. -/
def storageLoop (env : CallEnv) : Nat → Nat → RootHashCalculator → Result Unit
  -- storage tries are not processed after 10 iterations
  | 0, _, c => (c, .error .panic)
  | left + 1, iteration, c =>
    match c.processStorageTriesUpdates env with
    | (c, .error e) => (c, .error e)
    | (c, .ok true) => c.hashStorageTries keccak env c.changedAccount
    | (c, .ok false) =>
      match c.fetchMissingStorageNodes keccak decode env iteration with
      | (c, .error e) => (c, .error e)
      | (c, .ok ()) => storageLoop env left (iteration + 1) c

/-! ### Account trie -/

/-- The account as it goes into the trie; its storage must have been hashed. -/
def trieAccount (s : StorageCalculator) : Except SparseTrieError (Option TrieAccount) :=
  match s.accountInfo with
  | none => .ok none
  | some info =>
    if s.hash = B256.zero then .error .panic
    else .ok (some ⟨info.nonce, info.balance, s.hash, info.codeHash⟩)

def prepareAccount (u : TrieCalculator Address (Option TrieAccount)) (a : Address)
    (account : Option TrieAccount) : TrieCalculator Address (Option TrieAccount) :=
  u.prepareChange a (accountKey keccak a) account (encodeAccount account)

def prepareAccounts (storage : Address → StorageCalculator) :
    TrieCalculator Address (Option TrieAccount) → List Address →
      TrieCalculator Address (Option TrieAccount) × Except SparseTrieError Unit
  | u, [] => (u, .ok ())
  | u, a :: rest =>
    match trieAccount (storage a) with
    | .error e => (u, .error e)
    | .ok account => prepareAccounts storage (prepareAccount keccak u a account) rest

def prepareChangesAccountTrie (proofTargets : List Address) (c : RootHashCalculator) :
    Result Unit :=
  let a := c.accountTrie.clear
  match prepareAccounts keccak c.storage a.update (c.changedAccount.map Prod.fst) with
  | (update, .error e) => ({ c with accountTrie := { a with update } }, .error e)
  | (update, .ok ()) =>
    let update := update.drainPrevious env.order fun address =>
      decide (c.incrementalAccountChange ≠ []) && !c.incrementalAccountChange.contains address
    let proofOps := proofTargets.map fun address => ⟨accountKey keccak address, address, false⟩
    ({ c with accountTrie := { a with update, proofOps } }, .ok ())

def accountTexts : UpdateTexts where
  revertMissing := "reverting nodes, can't delete key that is not in the trie (accounts)"
  deleteMissing := "Deleting key that is not in the trie (account trie)"

def processAccountTriesUpdate : Result Bool :=
  match c.accountTrie.update.processUpdate accountTexts none false with
  | (update, res) => ({ c with accountTrie := { c.accountTrie with update } }, res)

/-- The loop over the proof targets: the targets with their marks, the proofs, the missing
    nodes. -/
def proofLoop (store : ProofStore) (t : Trie) :
    List ProofOp → List ProofOp × List (Address × List (Nibbles × Bytes)) × List Nibbles ×
      Except SparseTrieError Unit
  | [] => ([], [], [], .ok ())
  | op :: ops =>
    if op.ok then
      let (ops, proofs, missing, res) := proofLoop store t ops
      (op :: ops, proofs, missing, res)
    else
      match t.getProofNibblesKey store op.key with
      | .ok ⟨proof, _⟩ =>
        let (ops, proofs, missing, res) := proofLoop store t ops
        ({ op with ok := true } :: ops, (op.address, proof) :: proofs, missing, res)
      | .error (.nodeNotFound node) =>
        let (ops, proofs, missing, res) := proofLoop store t ops
        (op :: ops, proofs, node :: missing, res)
      | .error .trieIsDirty =>
        (op :: ops, [], [], .error (.other "Trie is not hashed before fetching proofs"))
      | .error _ => (op :: ops, [], [], .error .panic)

def processAccountTrieProofs : Result Bool :=
  let a := c.accountTrie
  match proofLoop c.sharedCache.accountTrie a.update.trie a.proofOps with
  | (proofOps, proofs, missing, res) =>
    let c := { c with accountTrie := { a with
      update := { a.update with missingNodes := missing }
      proofOps
      proofResult := a.proofResult ++ proofs } }
    match res with
    | .error e => (c, .error e)
    | .ok () => (c, .ok missing.isEmpty)

def setAccountTrie (trie : Trie) (missing requested : List Nibbles) : RootHashCalculator :=
  { c with accountTrie := { c.accountTrie with
      update := { c.accountTrie.update with
        trie, missingNodes := missing, missingNodesRequested := requested } } }

def fetchMissingAccountTrieNodes (phase : FetchPhase) (c : RootHashCalculator) : Result Unit :=
  let u := c.accountTrie.update
  match addKnownProofs c.sharedCache.accountTrie u.trie u.missingNodes with
  | (trie, requested, .error e) => (c.setAccountTrie trie [] requested, .error e)
  | (trie, requested, .ok ()) =>
    let fetcher := requested.foldl MissingNodesFetcher.addMissingAccountNode {}
    match (c.setAccountTrie trie [] requested).fetch decode env phase fetcher with
    | (c, .error e) => (c, .error e)
    | (c, .ok ()) =>
      match addFetchedProofs c.sharedCache.accountTrie trie requested with
      | (trie, res) => (c.setAccountTrie trie [] [], res)

def hashAccountTrie : Result B256 :=
  let u := c.accountTrie.update
  match u.trie.rootHash keccak true (env.schedule none).order c.sharedCache.accountTrie with
  | (trie, .error _) =>
    ({ c with accountTrie := { c.accountTrie with update := { u with trie } } }, .error .panic)
  | (trie, .ok hash) =>
    ({ c with accountTrie := { c.accountTrie with update := { u with trie }.swapApplied } },
      .ok hash)

def accountLoop (env : CallEnv) : Nat → Nat → RootHashCalculator → Result B256
  -- account trie is not processed after 10 iterations
  | 0, _, c => (c, .error .panic)
  | left + 1, iteration, c =>
    match c.processAccountTriesUpdate with
    | (c, .error e) => (c, .error e)
    | (c, .ok true) => c.hashAccountTrie keccak env
    | (c, .ok false) =>
      match c.fetchMissingAccountTrieNodes decode env (.account iteration) with
      | (c, .error e) => (c, .error e)
      | (c, .ok ()) => accountLoop env left (iteration + 1) c

/-- If proofs were fetched the account trie is hashed again. -/
def rehashAccountTrie : Result Unit :=
  let u := c.accountTrie.update
  match u.trie.rootHash keccak true (env.schedule none).order c.sharedCache.accountTrie with
  | (trie, res) =>
    let c := { c with accountTrie := { c.accountTrie with update := { u with trie } } }
    match res with
    | .error _ => (c, .error (.other "failed to hash account trie (account proofs)"))
    | .ok _ => (c, .ok ())

end

def proofsLoop (env : CallEnv) : Nat → Nat → RootHashCalculator → Result Unit
  -- account trie proofs are not processed after 10 iterations
  | 0, _, c => (c, .error .panic)
  | left + 1, iteration, c =>
    match c.processAccountTrieProofs with
    | (c, .error e) => (c, .error e)
    | (c, .ok true) => (c, .ok ())
    | (c, .ok false) =>
      match c.fetchMissingAccountTrieNodes decode env (.proofs iteration) with
      | (c, .error e) => (c, .error e)
      | (c, .ok ()) =>
        match c.rehashAccountTrie keccak env with
        | (c, .error e) => (c, .error e)
        | (c, .ok ()) => proofsLoop env left (iteration + 1) c

/-! ### One call -/

/-- The arguments of a call. -/
structure Call where
  env : CallEnv
  sharedCache : SharedCache
  outcome : BundleState
  incrementalChange : List Address
  proofTargets : List Address

abbrev Proofs := AList fun _ : Address => List Bytes

section

variable (call : Call) (c : RootHashCalculator)

/-- The storage tries: prepare, fetch, update, hash. -/
def storagePart : Result Unit :=
  match c.prepareChangesForStorageTrie keccak call.env.order call.outcome with
  | (c, .error e) => (c, .error e)
  | (c, .ok ()) =>
    if c.incrementalAccountChange = [] then
      match c.doFirstFetch keccak decode call.env with
      | (c, .error e) => (c, .error e)
      | (c, .ok ()) => c.storageLoop keccak decode call.env 10 0
    else c.storageLoop keccak decode call.env 10 0

/-- The account trie: prepare, update, hash. -/
def accountPart : Result B256 :=
  match c.prepareChangesAccountTrie keccak call.env call.proofTargets with
  | (c, .error e) => (c, .error e)
  | (c, .ok ()) => c.accountLoop keccak decode call.env 10 0

/-- The proofs of the targets. -/
def proofsPart : Result Proofs :=
  match c.proofsLoop keccak decode call.env 10 0 with
  | (c, .error e) => (c, .error e)
  | (c, .ok ()) =>
    let proofs := c.accountTrie.proofResult.foldl (fun (m : Proofs) e =>
      m.insert e.1 (e.2.map Prod.snd)) ∅
    let c := { c with accountTrie := { c.accountTrie with proofResult := [] } }
    if call.proofTargets.all fun a => (proofs.lookup a).isSome then (c, .ok proofs)
    else (c, .error (.other "Proof was not fethed correctly"))

end

/-- The addresses that a call prepares one by one; none in a full call. -/
def listedBy (c : RootHashCalculator) (call : Call) : List Address :=
  if call.incrementalChange ≠ [] then
    (c.incrementalAccountChange ++ call.incrementalChange).dedup
  else []

/-- The calculator as a call starts. -/
def startCall (c : RootHashCalculator) (call : Call) : RootHashCalculator :=
  { c with incrementalAccountChange := c.listedBy call, sharedCache := call.sharedCache }

def calculateRootHashWithSparseTrie (c : RootHashCalculator) (call : Call) :
    Result (B256 × Proofs) :=
  match (c.startCall call).storagePart keccak decode call with
  | (c, .error e) => (c, .error e)
  | (c, .ok ()) =>
    match c.accountPart keccak decode call with
    | (c, .error e) => (c, .error e)
    | (c, .ok rootHash) =>
      match c.proofsPart keccak decode call with
      | (c, .error e) => (c, .error e)
      | (c, .ok proofs) => (c, .ok (rootHash, proofs))

end RootHashCalculator

end SparseMpt
