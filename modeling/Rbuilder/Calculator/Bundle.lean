/-
  Block outcomes and the state they lead to.

  An outcome is a `BundleState` of `revm`: for every account the block touched its status,
  its info and the slots it loaded or wrote. The base state is the account trie and the
  storage tries of the parent block, as maps from 64 nibbles to encoded values.

  `stateRoot` is the reference: the root of the base state with the outcome written over
  it. It knows nothing of tries that are kept from one block to the next.
-/
import Rbuilder.SparseMpt.Rlp

namespace SparseMpt

abbrev Address := Vector UInt8 20

abbrev U256 := BitVec 256

/-- `B256::from(U256)`: 32 bytes, big-endian. -/
def U256.bytes32 (n : U256) : Bytes :=
  (List.range 32).map fun i => UInt8.ofNat (n.toNat / 256 ^ (31 - i))

/-- RLP of an unsigned number. -/
def encodeUint (n : Nat) : Bytes := encodeString (toBeBytes n)

/-- `KECCAK_EMPTY`: the code hash of an account without code. -/
def emptyCodeHash : B256 :=
  #v[197, 210, 70, 1, 134, 247, 35, 60, 146, 126, 125, 178, 220, 199, 3, 192, 229, 0, 182, 83, 202,
    130, 39, 59, 123, 250, 216, 4, 93, 133, 164, 112]

structure AccountInfo where
  balance : U256
  nonce : UInt64
  codeHash : B256
  deriving DecidableEq

structure TrieAccount where
  nonce : UInt64
  balance : U256
  storageRoot : B256
  codeHash : B256
  deriving DecidableEq

def TrieAccount.encode (a : TrieAccount) : Bytes :=
  let payload := encodeUint a.nonce.toNat ++ encodeUint a.balance.toNat ++
    encodeString a.storageRoot.toList ++ encodeString a.codeHash.toList
  encodeHeader true payload.length ++ payload

structure StorageSlot where
  previousOrOriginalValue : U256
  presentValue : U256

def StorageSlot.isChanged (s : StorageSlot) : Bool := s.previousOrOriginalValue != s.presentValue

/-- `revm::database::AccountStatus`. -/
inductive AccountStatus where
  | loadedNotExisting
  | loaded
  | loadedEmptyEIP161
  | inMemoryChange
  | changed
  | destroyed
  | destroyedChanged
  | destroyedAgain
  deriving DecidableEq

def AccountStatus.isNotModified : AccountStatus → Bool
  | loadedNotExisting | loaded | loadedEmptyEIP161 => true
  | _ => false

def AccountStatus.wasDestroyed : AccountStatus → Bool
  | destroyed | destroyedChanged | destroyedAgain => true
  | _ => false

structure BundleAccount where
  info : Option AccountInfo
  storage : AList fun _ : U256 => StorageSlot
  status : AccountStatus

abbrev BundleState := AList fun _ : Address => BundleAccount

/-- The changed slots of an account with their new values. -/
def BundleAccount.changedSlots (acc : BundleAccount) : List (U256 × U256) :=
  (acc.storage.entries.filter fun e => e.2.isChanged).map fun e => (e.1, e.2.presentValue)

/-! ## The state after an outcome -/

/-- The account trie and the storage tries of the parent block; storage tries are found
    under hashed addresses. -/
structure BaseState where
  accounts : MptMap
  storage : B256 → MptMap
  accounts_length : ∀ k, k ∈ accounts → k.length = 64
  storage_length : ∀ h k, k ∈ storage h → k.length = 64

section State

variable (keccak : Bytes → B256)

def hashedAddress (a : Address) : B256 := keccak a.toList

/-- The key of an account in the account trie. -/
def accountKey (a : Address) : Nibbles := unpack (hashedAddress keccak a).toList

/-- The key of a slot in a storage trie. -/
def slotKey (slot : U256) : Nibbles := unpack (keccak slot.bytes32).toList

/-- A slot that holds zero is not in the trie. -/
def encodeSlot (value : U256) : Option Bytes :=
  if value = 0 then none else some (encodeUint value.toNat)

def encodeAccount (a : Option TrieAccount) : Option Bytes := a.map TrieAccount.encode

/-- Write a value, or nothing, under a key. -/
def write (m : MptMap) (key : Nibbles) : Option Bytes → MptMap
  | some v => m.insert key v
  | none => m.erase key

/-- The storage of an account after the outcome. A destroyed account starts without any. -/
def storageAfter (base : BaseState) (a : Address) (acc : BundleAccount) : MptMap :=
  acc.changedSlots.foldl (fun m e => write m (slotKey keccak e.1) (encodeSlot e.2))
    (if acc.status.wasDestroyed then ∅ else base.storage (hashedAddress keccak a))

/-- The account after the outcome, `none` when it does not exist. -/
def accountAfter (base : BaseState) (a : Address) (acc : BundleAccount) : Option TrieAccount :=
  acc.info.map fun info =>
    { nonce := info.nonce
      balance := info.balance
      storageRoot := mptRoot keccak (storageAfter keccak base a acc)
      codeHash := info.codeHash }

/-- Accounts with their part of the outcome, in the order a call takes them. -/
abbrev Plan : Type := List (Address × BundleAccount)

/-- The modified accounts of an outcome. -/
def modifiedAccounts (outcome : BundleState) : Plan :=
  (outcome.entries.filter fun e => !e.2.status.isNotModified).map fun e => (e.1, e.2)

/-- The account trie after the outcome. -/
def stateAfter (base : BaseState) (outcome : BundleState) : MptMap :=
  (modifiedAccounts outcome).foldl (fun m e => write m (accountKey keccak e.1)
    (encodeAccount (accountAfter keccak base e.1 e.2))) base.accounts

/-- The state root of base state and outcome. -/
def stateRoot (base : BaseState) (outcome : BundleState) : B256 :=
  mptRoot keccak (stateAfter keccak base outcome)

end State

end SparseMpt
