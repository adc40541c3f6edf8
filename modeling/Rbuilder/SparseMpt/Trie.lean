/-
  The sparse trie of `eth-sparse-mpt/src/v2/trie/mod.rs`: an arena of nodes with
  shared key and value buffers, in which a child is a local index or a remote
  pointer of a proof store.

  `hashed_nodes`, `rlp_ptrs_local` and `nodes` have one length (only `push_node`
  and `clear` change it), so a model node is one `Slot` with the three fields.
  `walk_path` is the list passed from the descent of a deletion to its way back.

  Every function returns the trie it leaves behind, also when it fails. A Rust
  panic (an index out of bounds, `unreachable!()`, `unwrap` of `None`) is the
  result `TrieError.panic`. A loop runs on fuel that its number of iterations
  cannot exceed: a walk meets no node twice, and on a well-formed trie every step
  walks at least one nibble of the key. A loop that uses it up is a panic too.
-/
import Rbuilder.SparseMpt.Utils

namespace SparseMpt

inductive NodePtr where
  | localIdx (idx : Nat)
  | remoteIdx (idx : Nat)
  deriving DecidableEq, Repr

def NodePtr.asLocal : NodePtr → Option Nat
  | .localIdx idx => some idx
  | .remoteIdx _ => none

/-- `std::ops::Range<usize>`. -/
structure Range where
  start : Nat
  stop : Nat
  deriving DecidableEq, Repr

namespace Range

def length (r : Range) : Nat := r.stop - r.start

def isEmpty (r : Range) : Bool := decide (r.stop ≤ r.start)

end Range

/-- `&buf[range]`; `none` is the panic of a bad range. -/
def slice? {α : Type} (buf : List α) (r : Range) : Option (List α) :=
  if r.start ≤ r.stop ∧ r.stop ≤ buf.length then some ((buf.drop r.start).take r.length) else none

inductive DiffTrieNode where
  | leaf (key value : Range)
  | extension (key : Range) (nextNode : NodePtr)
  | branch (children : Nat)
  | null
  deriving DecidableEq, Repr

inductive TrieError where
  | nodeNotFound (path : Nibbles)
  | keyNotFound
  | trieIsDirty
  | panic
  deriving DecidableEq, Repr

inductive InsertValue where
  | value (value : Bytes)
  | storedValue (range : Range)
  deriving DecidableEq, Repr

/-- A node with its `hashed_nodes` and `rlp_ptrs_local` entries. -/
structure Slot where
  node : DiffTrieNode
  hashed : Bool := false
  rlpPtr : Bytes := []

/-- `[Option<NodePtr>; 16]`. -/
abbrev Children := Nibble → Option NodePtr

structure Trie where
  nodes : List Slot := []
  values : Bytes := []
  keys : Nibbles := []
  branchNodeChildren : List Children := []

namespace Trie

section

variable (t : Trie)

def isUninit : Bool := t.nodes.isEmpty

def clear (_ : Trie) : Trie := {}

def pushNode (node : DiffTrieNode) : Trie × NodePtr :=
  ({ t with nodes := t.nodes ++ [{ node }] }, .localIdx t.nodes.length)

def clearEmpty : Trie := (t.clear.pushNode .null).1

def newEmpty : Trie := clearEmpty {}

def copyValue (value : Bytes) : Trie × Range :=
  ({ t with values := t.values ++ value }, ⟨t.values.length, t.values.length + value.length⟩)

def insertValue : InsertValue → Trie × Range
  | .value value => t.copyValue value
  | .storedValue range => (t, range)

def insertKey (key : Nibbles) : Trie × Range :=
  ({ t with keys := t.keys ++ key }, ⟨t.keys.length, t.keys.length + key.length⟩)

def createBranchChildren : Trie × Nat :=
  ({ t with branchNodeChildren := t.branchNodeChildren ++ [fun _ => none] },
    t.branchNodeChildren.length)

/-- `self.hashed_nodes[idx] = false`. -/
def setDirty (idx : Nat) : Trie :=
  { t with nodes := t.nodes.modify idx fun s => { s with hashed := false } }

/-- `self.nodes[idx] = node`. -/
def setNode (idx : Nat) (node : DiffTrieNode) : Trie :=
  { t with nodes := t.nodes.modify idx fun s => { s with node } }

/-- `self.branch_node_children[children][nibble] = ptr`. -/
def setChild (children : Nat) (nibble : Nibble) (ptr : Option NodePtr) : Trie :=
  { t with branchNodeChildren :=
      t.branchNodeChildren.modify children fun c => Function.update c nibble ptr }

/-- Prefix of the path left, the nibble and suffix of the path after it, the nibble
    and suffix of the stored key after it. -/
def extractPrefixAndSuffix (pathLeft : Nibbles) (key : Range) :
    Option (Nibbles × Nibble × Nibbles × Nibble × Range) :=
  match slice? t.keys key with
  | none => none
  | some k =>
    let p := mismatch pathLeft k
    match pathLeft[p]?, t.keys[key.start + p]? with
    | some n1, some n2 =>
      some (pathLeft.take p, n1, pathLeft.drop (p + 1), n2, ⟨key.start + p + 1, key.stop⟩)
    | _, _ => none

/-! ## Insertion -/

/-- The node at `currentNode` becomes a branch, below an extension when the prefix
    is not empty. Returns the index of the branch's children. -/
def forkNode (currentNode : Nat) (common : Nibbles) : Trie × Nat :=
  if common.isEmpty then
    let (t, branchChildren) := t.createBranchChildren
    (t.setNode currentNode (.branch branchChildren), branchChildren)
  else
    let (t, newExtKey) := t.insertKey common
    -- the next node is the branch node pushed below
    let t := t.setNode currentNode (.extension newExtKey (.localIdx t.nodes.length))
    let (t, branchChildren) := t.createBranchChildren
    ((t.pushNode (.branch branchChildren)).1, branchChildren)

/-- A new leaf. -/
def pushLeaf (key : Nibbles) (insertValue : InsertValue) : Trie × NodePtr :=
  let (t, newLeafKey) := t.insertKey key
  let (t, newLeafValue) := t.insertValue insertValue
  t.pushNode (.leaf newLeafKey newLeafValue)

end

def insertLoop (insKey : Nibbles) (insertValue : InsertValue) :
    Nat → Trie → Nat → Nat → Trie × Except TrieError (Option Range)
  | 0, t, _, _ => (t, .error .panic)
  | fuel + 1, t, currentNode, pathWalked =>
    match t.nodes[currentNode]? with
    | none => (t, .error (.nodeNotFound insKey))
    | some slot =>
      let t := t.setDirty currentNode
      match slot.node with
      | .branch children =>
        match insKey[pathWalked]?, t.branchNodeChildren[children]? with
        | some n, some arr =>
          match arr n with
          | some (.localIdx idx) => insertLoop insKey insertValue fuel t idx (pathWalked + 1)
          | some (.remoteIdx _) => (t, .error (.nodeNotFound insKey))
          | none =>
            let (t, leafPtr) := t.pushLeaf (insKey.drop (pathWalked + 1)) insertValue
            (t.setChild children n (some leafPtr), .ok none)
        | _, _ => (t, .error .panic)
      | .extension key nextNode =>
        match slice? t.keys key with
        | none => (t, .error .panic)
        | some k =>
          if k <+: insKey.drop pathWalked then
            match nextNode with
            | .localIdx idx => insertLoop insKey insertValue fuel t idx (pathWalked + key.length)
            | .remoteIdx _ => (t, .error (.nodeNotFound insKey))
          else
            match t.extractPrefixAndSuffix (insKey.drop pathWalked) key with
            | none => (t, .error .panic)
            | some (common, n1, suff1, n2, suff2) =>
              let (t, branchChildren) := t.forkNode currentNode common
              let (t, newLeafPtr) := t.pushLeaf suff1 insertValue
              let (t, branchChild) :=
                if suff2.isEmpty then (t, nextNode) else t.pushNode (.extension suff2 nextNode)
              let t := t.setChild branchChildren n1 (some newLeafPtr)
              (t.setChild branchChildren n2 (some branchChild), .ok none)
      | .leaf key value =>
        match slice? t.keys key with
        | none => (t, .error .panic)
        | some k =>
          if k = insKey.drop pathWalked then
            -- update leaf in place
            let (t, newValue) := t.insertValue insertValue
            (t.setNode currentNode (.leaf key newValue), .ok (some value))
          else
            match t.extractPrefixAndSuffix (insKey.drop pathWalked) key with
            | none => (t, .error .panic)
            | some (common, n1, suff1, n2, suff2) =>
              let (t, branchChildren) := t.forkNode currentNode common
              let (t, firstLeafPtr) := t.pushLeaf suff1 insertValue
              let (t, secondLeafPtr) := t.pushNode (.leaf suff2 value)
              let t := t.setChild branchChildren n1 (some firstLeafPtr)
              (t.setChild branchChildren n2 (some secondLeafPtr), .ok none)
      | .null =>
        let (t, newLeafKey) := t.insertKey (insKey.drop pathWalked)
        let (t, newLeafValue) := t.insertValue insertValue
        (t.setNode currentNode (.leaf newLeafKey newLeafValue), .ok none)

/-- Returns the range of the old value. -/
def insertNibbleKey (t : Trie) (nibblesKey : Nibbles) (insertValue : InsertValue) :
    Trie × Except TrieError (Option Range) :=
  insertLoop nibblesKey insertValue (nibblesKey.length + t.nodes.length + 1) t 0 0

def insert (t : Trie) (key value : Bytes) : Trie × Except TrieError (Option Range) :=
  t.insertNibbleKey (unpack key) (.value value)

/-! ## Deletion -/

/-- `children.iter().filter(|c| c.is_some()).count()`. -/
def childrenCount (arr : Children) : Nat := (List.finRange 16).countP fun i => (arr i).isSome

/-- `merge_keys`: a new key `key1 ++ [nibble] ++ key2` at the end of the buffer. -/
def mergeKeys (t : Trie) (key1 : Range) (nibble : Nibble) (key2 : Range) : Option (Trie × Range) :=
  match slice? t.keys key1, slice? t.keys key2 with
  | some k1, some k2 => some (t.insertKey (k1 ++ nibble :: k2))
  | _, _ => none

inductive NodeDeletionResult where
  | nodeDeleted
  | nodeUpdated
  | branchBelowRemovedWithOneChild (childNibble : Nibble) (childPtr : NodePtr)

/-- The way down: the range of the old value and the walked path, deepest first. -/
def deleteWalk (delKey : Nibbles) :
    Nat → Trie → Nat → Nat → List (Nat × Nibble) →
      Trie × Except TrieError (Range × List (Nat × Nibble))
  | 0, t, _, _, _ => (t, .error .panic)
  | fuel + 1, t, currentNode, pathWalked, walkPath =>
    match t.nodes[currentNode]? with
    | none => (t, .error (.nodeNotFound delKey))
    | some slot =>
      let t := t.setDirty currentNode
      match slot.node with
      | .branch children =>
        -- deleting from branch, key not found
        if delKey.length = pathWalked then (t, .error .keyNotFound)
        else
          match delKey[pathWalked]?, t.branchNodeChildren[children]? with
          | some n, some arr =>
            match arr n with
            | some (.localIdx idx) =>
              if childrenCount arr = 2 then
                -- the other child will be an orphan, it has to be in the trie
                match (List.finRange 16).find? fun i => (arr i).isSome && i != n with
                | none => (t, .error .panic)
                | some orphanNibble =>
                  match arr orphanNibble with
                  | none => (t, .error .panic)
                  | some (.remoteIdx _) =>
                    (t, .error (.nodeNotFound (delKey.take pathWalked ++ [orphanNibble])))
                  | some (.localIdx _) =>
                    deleteWalk delKey fuel t idx (pathWalked + 1) ((currentNode, n) :: walkPath)
              else deleteWalk delKey fuel t idx (pathWalked + 1) ((currentNode, n) :: walkPath)
            | some (.remoteIdx _) => (t, .error (.nodeNotFound delKey))
            | none => (t, .error .keyNotFound)
          | _, _ => (t, .error .panic)
      | .extension key nextNode =>
        match slice? t.keys key with
        | none => (t, .error .panic)
        | some k =>
          if k <+: delKey.drop pathWalked then
            match nextNode with
            | .localIdx idx =>
              deleteWalk delKey fuel t idx (pathWalked + key.length) ((currentNode, 0) :: walkPath)
            | .remoteIdx _ => (t, .error (.nodeNotFound delKey))
          else (t, .error .keyNotFound)
      | .leaf key value =>
        match slice? t.keys key with
        | none => (t, .error .panic)
        | some k =>
          if k = delKey.drop pathWalked then (t, .ok (value, (currentNode, 0) :: walkPath))
          else (t, .error .keyNotFound)
      | .null => (t, .error .keyNotFound)

/-- Merge an orphan and the nibble that led to it into its new parent. -/
def mergeOrphan (t : Trie) (currentNode : Nat) (currentNodeChild orphanNibble : Nibble)
    (orphanPtr : NodePtr) : Option Trie :=
  match orphanPtr with
  | .remoteIdx _ => none
  | .localIdx orphanPtrIdx =>
    match t.nodes[currentNode]?, t.nodes[orphanPtrIdx]? with
    | some newParent, some orphanedNode =>
      match newParent.node, orphanedNode.node with
      | .extension parentKey _, .leaf orphanKey value =>
        (t.mergeKeys parentKey orphanNibble orphanKey).map fun (t, newLeafKey) =>
          t.setNode currentNode (.leaf newLeafKey value)
      | .extension parentKey _, .extension orphanKey orphanNext =>
        (t.mergeKeys parentKey orphanNibble orphanKey).map fun (t, newExtKey) =>
          t.setNode currentNode (.extension newExtKey orphanNext)
      | .extension parentKey _, .branch _ =>
        (t.mergeKeys parentKey orphanNibble ⟨0, 0⟩).map fun (t, newExtKey) =>
          t.setNode currentNode (.extension newExtKey orphanPtr)
      | .branch parentChildren, .leaf orphanKey value =>
        (t.mergeKeys ⟨0, 0⟩ orphanNibble orphanKey).map fun (t, newLeafKey) =>
          ((t.setNode orphanPtrIdx (.leaf newLeafKey value)).setDirty orphanPtrIdx).setChild
            parentChildren currentNodeChild (some orphanPtr)
      | .branch parentChildren, .extension orphanKey nextNode =>
        (t.mergeKeys ⟨0, 0⟩ orphanNibble orphanKey).map fun (t, newExtKey) =>
          ((t.setNode orphanPtrIdx (.extension newExtKey nextNode)).setDirty orphanPtrIdx).setChild
            parentChildren currentNodeChild (some orphanPtr)
      | .branch parentChildren, .branch _ =>
        let (t, newExtKey) := t.insertKey [orphanNibble]
        let (t, nextExtPtr) := t.pushNode (.extension newExtKey orphanPtr)
        some (t.setChild parentChildren currentNodeChild (some nextExtPtr))
      | _, _ => none
    | _, _ => none

/-- The way back over the walked path; `none` is a panic. -/
def deleteUnwind : Trie → List (Nat × Nibble) → NodeDeletionResult →
    Option (Trie × NodeDeletionResult)
  | t, [], result => some (t, result)
  | t, (currentNode, currentNodeChild) :: walkPath, result =>
    match result with
    | .nodeDeleted =>
      match (t.nodes[currentNode]?).map Slot.node with
      | some (.leaf _ _) => deleteUnwind t walkPath .nodeDeleted
      | some (.branch children) =>
        match t.branchNodeChildren[children]? with
        | none => none
        | some arr =>
          if 3 ≤ childrenCount arr then
            deleteUnwind (t.setChild children currentNodeChild none) walkPath .nodeUpdated
          else if childrenCount arr = 2 then
            let arr' := Function.update arr currentNodeChild none
            match (List.finRange 16).find? fun i => (arr' i).isSome with
            | none => none
            | some orphanNibble =>
              match arr' orphanNibble with
              | some (.localIdx idx) =>
                deleteUnwind (t.setChild children currentNodeChild none) walkPath
                  (.branchBelowRemovedWithOneChild orphanNibble (.localIdx idx))
              | _ => none
          else none
      | _ => none
    | .branchBelowRemovedWithOneChild orphanNibble orphanPtr =>
      (t.mergeOrphan currentNode currentNodeChild orphanNibble orphanPtr).map
        fun t => (t, .nodeUpdated)
    | .nodeUpdated => some (t, .nodeUpdated)

/-- The case that deletion reaches the head. -/
def deleteHead (t : Trie) : NodeDeletionResult → Option Trie
  | .nodeUpdated => some t
  | .nodeDeleted => some ((t.setNode 0 .null).setDirty 0)
  | .branchBelowRemovedWithOneChild orphanNibble orphanPtr =>
    match orphanPtr with
    | .remoteIdx _ => none
    | .localIdx orphanPtrIdx =>
      let t := t.setDirty 0
      match (t.nodes[orphanPtrIdx]?).map Slot.node with
      | some (.leaf orphanKey value) =>
        (t.mergeKeys ⟨0, 0⟩ orphanNibble orphanKey).map fun (t, newLeafKey) =>
          t.setNode 0 (.leaf newLeafKey value)
      | some (.extension orphanKey nextNode) =>
        (t.mergeKeys ⟨0, 0⟩ orphanNibble orphanKey).map fun (t, newExtKey) =>
          t.setNode 0 (.extension newExtKey nextNode)
      | some (.branch _) =>
        let (t, newExtKey) := t.insertKey [orphanNibble]
        some (t.setNode 0 (.extension newExtKey orphanPtr))
      | _ => none

/-- Returns the range of the old value. -/
def deleteNibblesKey (t : Trie) (nibblesKey : Nibbles) : Trie × Except TrieError Range :=
  match deleteWalk nibblesKey (nibblesKey.length + t.nodes.length + 1) t 0 0 [] with
  | (t, .error e) => (t, .error e)
  | (t, .ok (oldValue, walkPath)) =>
    match (t.deleteUnwind walkPath .nodeDeleted).bind fun (t, result) => t.deleteHead result with
    | some t => (t, .ok oldValue)
    | none => (t, .error .panic)

def delete (t : Trie) (key : Bytes) : Trie × Except TrieError Range :=
  t.deleteNibblesKey (unpack key)

end Trie

end SparseMpt
