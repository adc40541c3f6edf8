/-
  The proof store of `eth-sparse-mpt/src/v2/trie/proof_store.rs` and the functions
  of `Trie` that read it: hashing, proofs and the addition of proof nodes.

  `decode` stands for `alloy_trie`'s `TrieNode::decode`. The locks of the store
  protect single reads and writes, so the store is a plain record here.

  `root_hash` hashes the children of a branch in a rayon scope when `parallel` is
  set and more than one child is local. The tasks of a scope write disjoint parts
  of the arena, and `schedule idx` is the order in which those of branch `idx` run.
-/
import Rbuilder.SparseMpt.Trie

namespace SparseMpt

/-- `alloy_trie::nodes::TrieNode`; the mask and the stack of a branch are its
    children. -/
inductive AlloyTrieNode where
  | branch (children : Nibble → Option Bytes)
  | extension (key : Nibbles) (child : Bytes)
  | leaf (key : Nibbles) (value : Bytes)
  | emptyRoot

inductive ProofNode where
  | leaf (key value : Nat)
  | extension (key child : Nat)
  | branch (children : Nibble → Option Nat)
  | empty

structure ProofStore where
  keys : List Nibbles := []
  values : List Bytes := []
  rlpPtrs : List Bytes := []
  proofs : AList (fun _ : Nibbles => List (Nibbles × ProofNode)) := ∅

namespace ProofStore

section

variable (store : ProofStore)

def addRlpPtr (data : Bytes) : ProofStore × Nat :=
  ({ store with rlpPtrs := store.rlpPtrs ++ [data] }, store.rlpPtrs.length)

def addKey (data : Nibbles) : ProofStore × Nat :=
  ({ store with keys := store.keys ++ [data] }, store.keys.length)

def addValue (data : Bytes) : ProofStore × Nat :=
  ({ store with values := store.values ++ [data] }, store.values.length)

def hasProof (key : Nibbles) : Bool := (store.proofs.lookup key).isSome

end

/-- The loop over the children of a decoded branch. -/
def addChildren (children : Nibble → Option Bytes) :
    ProofStore → List Nibble → (Nibble → Option Nat) → ProofStore × (Nibble → Option Nat)
  | store, [], ptrs => (store, ptrs)
  | store, i :: is, ptrs =>
    match children i with
    | none => addChildren children store is ptrs
    | some rlpPtr =>
      let (store, idx) := store.addRlpPtr rlpPtr
      addChildren children store is (Function.update ptrs i (some idx))

def addNode (store : ProofStore) : AlloyTrieNode → ProofStore × ProofNode
  | .branch children =>
    let (store, ptrs) := addChildren children store (List.finRange 16) fun _ => none
    (store, .branch ptrs)
  | .extension key child =>
    let (store, key) := store.addKey key
    let (store, child) := store.addRlpPtr child
    (store, .extension key child)
  | .leaf key value =>
    let (store, key) := store.addKey key
    let (store, value) := store.addValue value
    (store, .leaf key value)
  | .emptyRoot => (store, .empty)

/-- The loop over the nodes of a proof; `none` is a decoding error. -/
def parseProof (decode : Bytes → Option AlloyTrieNode) :
    ProofStore → List (Nibbles × Bytes) → ProofStore × Option (List (Nibbles × ProofNode))
  | store, [] => (store, some [])
  | store, (path, encodedNode) :: proof =>
    match decode encodedNode with
    | none => (store, none)
    | some alloyTrieNode =>
      let (store, decodedNode) := store.addNode alloyTrieNode
      let (store, rest) := parseProof decode store proof
      (store, rest.map fun nodes => (path, decodedNode) :: nodes)

/-- Returns `false` on a decoding error. -/
def addProof (decode : Bytes → Option AlloyTrieNode) (store : ProofStore) (key : Nibbles)
    (proof : List (Nibbles × Bytes)) : ProofStore × Bool :=
  if store.hasProof key then (store, true)
  else
    match parseProof decode store proof with
    | (store, none) => (store, false)
    | (store, some parsedProof) =>
      ({ store with proofs := store.proofs.insert key parsedProof }, true)

end ProofStore

/-- An order of the tasks that hash the children of a branch. -/
structure HashSchedule where
  order : Nat → List Nibble
  perm : ∀ i, (order i).Perm (List.finRange 16)

/-- The children in order, at every node. -/
def HashSchedule.inOrder : HashSchedule := ⟨fun _ => List.finRange 16, fun _ => .refl _⟩

namespace Trie

/-! ## Hashing -/

section

variable (store : ProofStore)

/-- The pointer a parent encodes for a child. An unhashed local child fails the
    `debug_assert!` of `rlp_encode_node`. -/
def childRlpPtr (t : Trie) : NodePtr → Option Bytes
  | .localIdx idx =>
    match t.nodes[idx]? with
    | some slot => if slot.hashed then some slot.rlpPtr else none
    | none => none
  | .remoteIdx idx => store.rlpPtrs[idx]?

def rlpEncodeNode (t : Trie) (nodeIdx : Nat) : Option Bytes :=
  match (t.nodes[nodeIdx]?).map Slot.node with
  | some (.branch children) =>
    match t.branchNodeChildren[children]? with
    | none => none
    | some arr =>
      if ∀ nibble, (arr nibble).all fun ptr => (t.childRlpPtr store ptr).isSome then
        some (encodeBranchNode fun nibble => (arr nibble).bind (t.childRlpPtr store))
      else none
  | some (.extension key nextNode) =>
    match slice? t.keys key, t.childRlpPtr store nextNode with
    | some key, some childRlpPtr => some (encodeExtension key childRlpPtr)
    | _, _ => none
  | some (.leaf key value) =>
    match slice? t.keys key, slice? t.values value with
    | some key, some value => some (encodeLeaf key value)
    | _, _ => none
  | some .null => some [emptyStringCode]
  | none => none

/-- `self.rlp_ptrs_local[idx] = rlpPtr` and `self.hashed_nodes[idx] = true`. -/
def setHashed (t : Trie) (idx : Nat) (rlpPtr : Bytes) : Trie :=
  { t with nodes := t.nodes.modify idx fun s => { s with hashed := true, rlpPtr } }

def calculateRlpPointerNode (keccak : Bytes → B256) (store : ProofStore) (t : Trie)
    (nodeIdx : Nat) : Option Trie :=
  (t.rlpEncodeNode store nodeIdx).map fun rlp => t.setHashed nodeIdx (rlpPointer keccak rlp)

/-- The order in which the children of a branch are hashed. -/
def hashOrder (parallel : Bool) (schedule : Nat → List Nibble) (nodeIdx : Nat)
    (arr : Children) : List Nibble :=
  let localChildren := (List.finRange 16).countP fun i => ((arr i).bind NodePtr.asLocal).isSome
  if parallel && decide (1 < localChildren) then schedule nodeIdx else List.finRange 16

/-- One iteration of the loop over the children of a branch. -/
def hashChild (arr : Children) (rootHashNode : Trie → Nat → Option Trie) (t : Trie) (i : Nibble) :
    Option Trie :=
  match arr i with
  | some (.localIdx child) => rootHashNode t child
  | _ => some t

def rootHashNode (keccak : Bytes → B256) (store : ProofStore) (parallel : Bool)
    (schedule : Nat → List Nibble) : Nat → Trie → Nat → Option Trie
  | 0, _, _ => none
  | fuel + 1, t, nodeIdx =>
    match t.nodes[nodeIdx]? with
    | none => none
    | some slot =>
      if slot.hashed then some t
      else
        match slot.node with
        | .branch children =>
          match t.branchNodeChildren[children]? with
          | none => none
          | some arr =>
            let hashed := (hashOrder parallel schedule nodeIdx arr).foldlM
              (hashChild arr (rootHashNode keccak store parallel schedule fuel)) t
            hashed.bind fun t => t.calculateRlpPointerNode keccak store nodeIdx
        | .extension _ nextNode =>
          let hashed :=
            match nextNode with
            | .localIdx child => rootHashNode keccak store parallel schedule fuel t child
            | .remoteIdx _ => some t
          hashed.bind fun t => t.calculateRlpPointerNode keccak store nodeIdx
        | _ => t.calculateRlpPointerNode keccak store nodeIdx

/-- The hash of the trie. A path from the root meets every node at most once, so
    the number of nodes bounds the depth of the recursion. -/
def rootHash (keccak : Bytes → B256) (parallel : Bool) (schedule : Nat → List Nibble)
    (store : ProofStore) (t : Trie) : Trie × Except TrieError B256 :=
  if t.nodes.isEmpty then (t, .error (.nodeNotFound []))
  else
    match rootHashNode keccak store parallel schedule (t.nodes.length + 1) t 0 with
    | none => (t, .error .panic)
    | some t =>
      match t.rlpEncodeNode store 0 with
      | none => (t, .error .panic)
      | some rlp => (t, .ok (keccak rlp))

/-! ## Proofs -/

structure ProofWithValue where
  proof : List (Nibbles × Bytes)
  value : Option Bytes

def getProofLoop (store : ProofStore) (t : Trie) (targetKey : Nibbles) :
    Nat → Nat → Nat → List (Nibbles × Bytes) → Except TrieError ProofWithValue
  | 0, _, _, _ => .error .panic
  | fuel + 1, currentNode, pathWalked, proof =>
    match t.nodes[currentNode]? with
    | none => .error (.nodeNotFound targetKey)
    | some slot =>
      if slot.hashed = false then .error .trieIsDirty
      else
        match t.rlpEncodeNode store currentNode with
        | none => .error .panic
        | some buf =>
          let proof := proof ++ [(targetKey.take pathWalked, buf)]
          match slot.node with
          | .branch children =>
            if targetKey.length = pathWalked then .ok ⟨proof, none⟩
            else
              match targetKey[pathWalked]?, t.branchNodeChildren[children]? with
              | some n, some arr =>
                match arr n with
                | some (.localIdx idx) =>
                  getProofLoop store t targetKey fuel idx (pathWalked + 1) proof
                | some (.remoteIdx _) => .error (.nodeNotFound targetKey)
                | none => .ok ⟨proof, none⟩
              | _, _ => .error .panic
          | .extension key nextNode =>
            match slice? t.keys key with
            | none => .error .panic
            | some k =>
              if k <+: targetKey.drop pathWalked then
                match nextNode with
                | .localIdx idx =>
                  getProofLoop store t targetKey fuel idx (pathWalked + key.length) proof
                | .remoteIdx _ => .error (.nodeNotFound targetKey)
              else .ok ⟨proof, none⟩
          | .leaf key value =>
            match slice? t.keys key with
            | none => .error .panic
            | some k =>
              if k = targetKey.drop pathWalked then
                match slice? t.values value with
                | some v => .ok ⟨proof, some v⟩
                | none => .error .panic
              else .ok ⟨proof, none⟩
          | .null => .ok ⟨proof, none⟩

/-- Proof for the target key. -/
def getProofNibblesKey (t : Trie) (targetKey : Nibbles) : Except TrieError ProofWithValue :=
  getProofLoop store t targetKey (targetKey.length + t.nodes.length + 1) 0 0 []

/-! ## Addition of proof nodes -/

/-- Copy a proof node into the arena, its children as remote pointers. -/
def pushProofNode (t : Trie) : ProofNode → Option (Trie × NodePtr)
  | .branch children =>
    let (t, branchNodeChildren) := t.createBranchChildren
    let t := { t with branchNodeChildren :=
      t.branchNodeChildren.set branchNodeChildren fun b => (children b).map .remoteIdx }
    some (t.pushNode (.branch branchNodeChildren))
  | .extension key child =>
    match store.keys[key]? with
    | none => none
    | some key =>
      let (t, key) := t.insertKey key
      some (t.pushNode (.extension key (.remoteIdx child)))
  | .leaf key value =>
    match store.keys[key]?, store.values[value]? with
    | some key, some value =>
      let (t, key) := t.insertKey key
      let (t, value) := t.copyValue value
      some (t.pushNode (.leaf key value))
    | _, _ => none
  | .empty => none

/-- The walk to the parent of `path`: the parent node, its pointer at `path` and the
    nibble it has it under. No pointer when the node is not needed. -/
def addNodeWalk (path : Nibbles) :
    Nat → Trie → Nat → Nat → Trie × Except TrieError (Nat × Option NodePtr × Nibble)
  | 0, t, _, _ => (t, .error .panic)
  | fuel + 1, t, currentNode, pathWalked =>
    match t.nodes[currentNode]? with
    | none => (t, .error (.nodeNotFound (path.take pathWalked)))
    | some slot =>
      let t := t.setDirty currentNode
      match slot.node with
      | .branch children =>
        match path[pathWalked]?, t.branchNodeChildren[children]? with
        | some n, some arr =>
          if path.drop (pathWalked + 1) = [] then (t, .ok (currentNode, arr n, n))
          else
            match arr n with
            | some (.localIdx idx) => addNodeWalk path fuel t idx (pathWalked + 1)
            | _ => (t, .error (.nodeNotFound (path.take (pathWalked + 1))))
        | _, _ => (t, .error .panic)
      | .extension key nextNode =>
        match slice? t.keys key with
        | none => (t, .error .panic)
        | some k =>
          if k <+: path.drop pathWalked then
            if path.drop (pathWalked + key.length) = [] then
              (t, .ok (currentNode, some nextNode, 0))
            else
              match nextNode with
              | .localIdx idx => addNodeWalk path fuel t idx (pathWalked + key.length)
              | .remoteIdx _ =>
                (t, .error (.nodeNotFound (path.take (pathWalked + key.length))))
          else (t, .ok (currentNode, none, 0))
      -- no proofs can be added here
      | _ => (t, .ok (currentNode, none, 0))

/-- Give the pointer to a parent. -/
def attachNode (t : Trie) (currentNode : Nat) (parentNibble : Nibble) (newNode : NodePtr) :
    Option Trie :=
  match (t.nodes[currentNode]?).map Slot.node with
  | some (.branch children) => some (t.setChild children parentNibble (some newNode))
  | some (.extension key _) => some (t.setNode currentNode (.extension key newNode))
  | _ => none

def addNodeFromProof (t : Trie) (path : Nibbles) (node : ProofNode) :
    Trie × Except TrieError Unit :=
  if path.isEmpty && !t.nodes.isEmpty then (t, .ok ())
  else if t.nodes.isEmpty then
    if !path.isEmpty then (t, .error (.nodeNotFound []))
    else
      match node with
      | .empty => ((t.pushNode .null).1, .ok ())
      | node =>
        match t.pushProofNode store node with
        | some (t, _) => (t, .ok ())
        | none => (t, .error .panic)
  else
    match addNodeWalk path (path.length + t.nodes.length + 1) t 0 0 with
    | (t, .error e) => (t, .error e)
    | (t, .ok (currentNode, some (.remoteIdx _), parentNibble)) =>
      match (t.pushProofNode store node).bind fun (t, newNode) =>
        t.attachNode currentNode parentNibble newNode with
      | some t => (t, .ok ())
      | none => (t, .error .panic)
    -- node is not needed
    | (t, .ok _) => (t, .ok ())

def addNodes (store : ProofStore) : Trie → List (Nibbles × ProofNode) → Trie × Except TrieError Unit
  | t, [] => (t, .ok ())
  | t, (path, node) :: proof =>
    match t.addNodeFromProof store path node with
    | (t, .ok ()) => addNodes store t proof
    | (t, .error e) => (t, .error e)

/-- Returns `false` when the store has no proof for the key. -/
def tryAddProofFromProofStore (t : Trie) (key : Nibbles) : Trie × Except TrieError Bool :=
  match store.proofs.lookup key with
  | none => (t, .ok false)
  | some proof =>
    match t.addNodes store proof with
    | (t, .ok ()) => (t, .ok true)
    | (t, .error e) => (t, .error e)

end

end Trie

end SparseMpt
