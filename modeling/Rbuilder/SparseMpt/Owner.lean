/-
  Who points at a node of the arena, and whether its stored hash is current.

  Nothing is assumed about keys or proofs here. `Owners` is a ghost record: the one parent and
  position that may point at a node, the one branch that may use an array of children. A node
  with an owner entry is live, all others are garbage. `Good` says that the pointers of live
  nodes agree with the record, so that no node and no array is shared, and that the stored
  pointer of every live node with its flag set is the pointer of its encoding.

  An operation changes the record with the arena. While a node is being rewritten its own
  pointers are the `hole`: they are not looked at, and what they led to may change its owner.
-/
import Rbuilder.SparseMpt.RootHash

namespace SparseMpt

open List Option

namespace Trie

/-- Where a child stands in its parent. -/
inductive Pos where
  | next
  | child (n : Nibble)
  deriving DecidableEq

/-- What may point at a live node. -/
inductive Owner where
  | root
  | free
  | child (parent : Nat) (pos : Pos)
  deriving DecidableEq

structure Owners where
  node : Nat → Option Owner
  array : Nat → Option Nat

namespace Owners

variable (O : Owners)

def Live (i : Nat) : Prop := O.node i ≠ none

def setNode (i : Nat) (o : Owner) : Owners := { O with node := Function.update O.node i (some o) }

def drop (i : Nat) : Owners := { O with node := Function.update O.node i none }

def setArray (c i : Nat) : Owners := { O with array := Function.update O.array c (some i) }

@[simp] theorem setNode_node_self (i : Nat) (o : Owner) : (O.setNode i o).node i = some o := by
  simp [setNode]

variable {i j : Nat}

theorem setNode_node_of_ne (o : Owner) (h : j ≠ i) : (O.setNode i o).node j = O.node j := by
  simp [setNode, h]

@[simp] theorem setNode_array (i : Nat) (o : Owner) : (O.setNode i o).array = O.array := rfl

theorem drop_node_of_ne (h : j ≠ i) : (O.drop i).node j = O.node j := by
  simp [drop, h]

@[simp] theorem drop_node_self (i : Nat) : (O.drop i).node i = none := by simp [drop]

@[simp] theorem drop_array (i : Nat) : (O.drop i).array = O.array := rfl

@[simp] theorem setArray_node (c i : Nat) : (O.setArray c i).node = O.node := rfl

@[simp] theorem setArray_array_self (c i : Nat) : (O.setArray c i).array c = some i := by
  simp [setArray]

theorem setArray_array_of_ne {c d : Nat} (i : Nat) (h : d ≠ c) :
    (O.setArray c i).array d = O.array d := by
  simp [setArray, h]

theorem live_setNode_self (i : Nat) (o : Owner) : (O.setNode i o).Live i := by
  simp [Live]

variable {O}

theorem live {o : Owner} (h : O.node i = some o) : O.Live i := by
  simp [Live, h]

theorem Live.setNode (h : O.Live j) (o : Owner) : (O.setNode i o).Live j := by
  by_cases hij : j = i
  · subst hij
    simp [Live]
  · rwa [Live, setNode_node_of_ne O o hij]

theorem Live.of_setNode {o : Owner} (h : (O.setNode i o).Live j) (hij : j ≠ i) : O.Live j := by
  rwa [Live, setNode_node_of_ne O o hij] at h

theorem Live.of_drop (h : (O.drop i).Live j) : j ≠ i ∧ O.Live j := by
  by_cases hij : j = i
  · subst hij
    simp [Live] at h
  · exact ⟨hij, by rwa [Live, drop_node_of_ne O hij] at h⟩

end Owners

/-! ## Pointers of a node -/

section

variable (t : Trie)

/-- The pointer of a node at a position. -/
def childOf : DiffTrieNode → Pos → Option NodePtr
  | .extension _ ptr, .next => some ptr
  | .branch c, .child n => (t.branchNodeChildren[c]?).bind fun arr => arr n
  | _, _ => none

@[simp] theorem childOf_leaf (k v : Range) (s : Pos) :
    t.childOf (.leaf k v) s = none := by cases s <;> rfl

@[simp] theorem childOf_null (s : Pos) : t.childOf .null s = none := by cases s <;> rfl

@[simp] theorem childOf_remoteExt (k : Range) (r : Nat) (s : Pos) (j : Nat) :
    t.childOf (.extension k (.remoteIdx r)) s ≠ some (.localIdx j) := by
  cases s <;> simp [childOf]

def nodeAt (i : Nat) : Option DiffTrieNode := (t.nodes[i]?).map Slot.node

def childAt (i : Nat) (s : Pos) : Option NodePtr :=
  (t.nodeAt i).bind fun node => t.childOf node s

/-- The flag of the node is not set. -/
def Dirty (i : Nat) : Prop := ∀ s, t.nodes[i]? = some s → s.hashed = false

/-- The flag of the owner is not set. -/
def Exposed (O : Owners) (i : Nat) : Prop :=
  ∀ p s, O.node i = some (.child p s) → t.Dirty p

end

variable {i x c d : Nat} {rlp : Bytes}

variable {t : Trie}

theorem nodeAt_of_get {s : Slot} (h : t.nodes[i]? = some s) : t.nodeAt i = some s.node := by
  simp [nodeAt, h]

theorem dirty_of_get {s : Slot} (h : t.nodes[i]? = some s) (hs : s.hashed = false) :
    t.Dirty i := by
  intro s' hs'
  cases h.symm.trans hs'
  exact hs

theorem childAt_of_nodeAt {node : DiffTrieNode} (h : t.nodeAt i = some node)
    (s : Pos) : t.childAt i s = t.childOf node s := by
  simp [childAt, h]

theorem childAt_next {key : Range} {next : NodePtr}
    (h : t.nodeAt i = some (.extension key next)) : t.childAt i .next = some next := by
  rw [childAt_of_nodeAt h]
  rfl

theorem childAt_child {arr : Children} (h : t.nodeAt i = some (.branch c))
    (harr : t.branchNodeChildren[c]? = some arr) (n : Nibble) :
    t.childAt i (.child n) = arr n := by
  rw [childAt_of_nodeAt h]
  simp [childOf, harr]

/-- What the encoding of a node is made of. -/
inductive RlpParts (store : ProofStore) (t : Trie) (i : Nat) : Bytes → Prop
  | null (node : t.nodeAt i = some .null) : RlpParts store t i [emptyStringCode]
  | leaf {kr vr : Range} {k : Nibbles} {v : Bytes} (node : t.nodeAt i = some (.leaf kr vr))
      (key : slice? t.keys kr = some k) (value : slice? t.values vr = some v) :
      RlpParts store t i (encodeLeaf k v)
  | ext {kr : Range} {ptr : NodePtr} {k : Nibbles} {d : Bytes}
      (node : t.nodeAt i = some (.extension kr ptr)) (key : slice? t.keys kr = some k)
      (hptr : t.childRlpPtr store ptr = some d) : RlpParts store t i (encodeExtension k d)
  | branch {c : Nat} {arr : Children} (node : t.nodeAt i = some (.branch c))
      (array : t.branchNodeChildren[c]? = some arr)
      (hptr : ∀ n ptr, arr n = some ptr → (t.childRlpPtr store ptr).isSome) :
      RlpParts store t i (encodeBranchNode fun n => (arr n).bind (t.childRlpPtr store))

theorem rlpParts_of_eq {store : ProofStore} (h : t.rlpEncodeNode store i = some rlp) :
    RlpParts store t i rlp := by
  unfold rlpEncodeNode at h
  cases hn : (t.nodes[i]?).map Slot.node with
  | none => simp [hn] at h
  | some node =>
  rw [hn] at h
  cases node with
  | null =>
    obtain rfl := some.inj h
    exact .null hn
  | leaf kr vr =>
    simp only at h
    split at h
    · next k v hk hv =>
        obtain rfl := some.inj h
        exact .leaf hn hk hv
    · cases h
  | extension kr ptr =>
    simp only at h
    split at h
    · next k d hk hd =>
        obtain rfl := some.inj h
        exact .ext hn hk hd
    · cases h
  | branch c =>
    simp only at h
    split at h
    · cases h
    · next arr harr =>
        split at h
        · next hall =>
            obtain rfl := some.inj h
            refine .branch hn harr fun n ptr hptr => ?_
            have hall' := hall n
            rwa [hptr] at hall'
        · cases h

theorem RlpParts.eq {store : ProofStore} (h : RlpParts store t i rlp) :
    t.rlpEncodeNode store i = some rlp := by
  unfold rlpEncodeNode
  rw [show (t.nodes[i]?).map Slot.node = t.nodeAt i from rfl]
  cases h with
  | null node => rw [node]
  | leaf node key value =>
    rw [node]
    simp only [key, value]
  | ext node key hptr =>
    rw [node]
    simp only [key, hptr]
  | @branch c arr node array hptr =>
    have hall : ∀ n, (arr n).all fun ptr => (t.childRlpPtr store ptr).isSome := by
      intro n
      cases hn : arr n with
      | none => rfl
      | some ptr => exact hptr n ptr hn
    rw [node]
    simp only [array, if_pos hall]

/-- An encoding depends on the node and on the stored pointers of its children. -/
theorem rlpEncodeNode_mono {t t' : Trie} {store store' : ProofStore}
    (h : t.rlpEncodeNode store i = some rlp) (hnode : t'.nodeAt i = t.nodeAt i)
    (hkeys : t.keys <+: t'.keys) (hvalues : t.values <+: t'.values)
    (harr : ∀ c arr, t.nodeAt i = some (.branch c) → t.branchNodeChildren[c]? = some arr →
      t'.branchNodeChildren[c]? = some arr)
    (hch : ∀ s ptr d, t.childAt i s = some ptr → t.childRlpPtr store ptr = some d →
      t'.childRlpPtr store' ptr = some d) :
    t'.rlpEncodeNode store' i = some rlp := by
  refine RlpParts.eq ?_
  cases rlpParts_of_eq h with
  | null node => exact .null (hnode.trans node)
  | leaf node key value =>
    exact .leaf (hnode.trans node) (slice?_mono key hkeys) (slice?_mono value hvalues)
  | ext node key hptr =>
    exact .ext (hnode.trans node) (slice?_mono key hkeys) (hch .next _ _ (childAt_next node) hptr)
  | @branch c arr node array hptr =>
    have hsame : ∀ n ptr, arr n = some ptr →
        t'.childRlpPtr store' ptr = t.childRlpPtr store ptr := by
      intro n ptr hn
      obtain ⟨d, hd⟩ := isSome_iff_exists.mp (hptr n ptr hn)
      rw [hch (.child n) ptr d ((childAt_child node array n).trans hn) hd, hd]
    have hfun : (fun n => (arr n).bind (t.childRlpPtr store)) =
        fun n => (arr n).bind (t'.childRlpPtr store') := by
      funext n
      cases hn : arr n with
      | none => rfl
      | some ptr => exact (hsame n ptr hn).symm
    rw [hfun]
    refine .branch (hnode.trans node) (harr c arr node array) fun n ptr hn => ?_
    rw [hsame n ptr hn]
    exact hptr n ptr hn

/-! ## The invariant -/

section Good

variable (keccak : Bytes → B256) (store : ProofStore)

/-- A set flag means that the stored pointer is the pointer of the encoding. -/
def Current (t : Trie) (i : Nat) : Prop :=
  ∀ s, t.nodes[i]? = some s → s.hashed = true →
    ∃ rlp, t.rlpEncodeNode store i = some rlp ∧ s.rlpPtr = rlpPointer keccak rlp

structure Good (t : Trie) (O : Owners) (hole : Option Nat) : Prop where
  root : O.node 0 = some .root
  fresh : ∀ i, t.nodes.length ≤ i → i ≠ 0 → O.node i = none
  freshArray : ∀ c, t.branchNodeChildren.length ≤ c → O.array c = none
  edge : ∀ i s j, O.Live i → hole ≠ some i → t.childAt i s = some (.localIdx j) →
    O.node j = some (.child i s)
  array : ∀ i c, O.Live i → hole ≠ some i → t.nodeAt i = some (.branch c) → O.array c = some i
  current : ∀ i, O.Live i → t.Current keccak store i
  holeDirty : ∀ i, hole = some i → t.Dirty i

end Good

variable {keccak : Bytes → B256} {store store' : ProofStore} {t t' : Trie} {O : Owners}
  {hole : Option Nat}

theorem Current.of_same (h : t.Current keccak store i)
    (hget : t'.nodes[i]? = t.nodes[i]?) (hkeys : t.keys <+: t'.keys)
    (hvalues : t.values <+: t'.values)
    (harr : ∀ c arr, t.nodeAt i = some (.branch c) → t.branchNodeChildren[c]? = some arr →
      t'.branchNodeChildren[c]? = some arr)
    (hch : ∀ s ptr d, t.childAt i s = some ptr → t.childRlpPtr store ptr = some d →
      t'.childRlpPtr store' ptr = some d) : t'.Current keccak store' i := by
  intro s hs hashed
  rw [hget] at hs
  obtain ⟨rlp, hrlp, hptr⟩ := h s hs hashed
  exact ⟨rlp, rlpEncodeNode_mono hrlp (by simp [nodeAt, hget]) hkeys hvalues harr hch, hptr⟩

theorem Current.of_dirty (h : t.Dirty i) : t.Current keccak store i := by
  intro s hs hashed
  rw [h s hs] at hashed
  cases hashed

/-! ## What an update leaves as it was -/

theorem getElem?_pushNode_of_lt (node : DiffTrieNode) (hi : i < t.nodes.length) :
    (t.pushNode node).1.nodes[i]? = t.nodes[i]? := by
  simp [pushNode, getElem?_append_left hi]

theorem getElem?_setNode_of_ne (node : DiffTrieNode) (h : i ≠ x) :
    (t.setNode x node).nodes[i]? = t.nodes[i]? := by
  simp [setNode, h.symm]

theorem childRlpPtr_setNode (x : Nat) (node : DiffTrieNode) (ptr : NodePtr) :
    (t.setNode x node).childRlpPtr store ptr = t.childRlpPtr store ptr := by
  cases ptr with
  | remoteIdx r => rfl
  | localIdx idx =>
    simp only [childRlpPtr, setNode, getElem?_modify]
    cases t.nodes[idx]? with
    | none => simp
    | some slot => by_cases hx : x = idx <;> simp [hx]

theorem childRlpPtr_setDirty_of_ne {ptr : NodePtr} (h : ptr ≠ .localIdx x) :
    (t.setDirty x).childRlpPtr store ptr = t.childRlpPtr store ptr := by
  cases ptr with
  | remoteIdx r => rfl
  | localIdx idx =>
    have hx : x ≠ idx := by
      rintro rfl
      exact h rfl
    simp [childRlpPtr, setDirty, hx]

theorem nodeAt_setDirty (t : Trie) (x i : Nat) : (t.setDirty x).nodeAt i = t.nodeAt i := by
  simp only [nodeAt, setDirty, getElem?_modify]
  cases t.nodes[i]? with
  | none => simp
  | some s => by_cases hx : x = i <;> simp [hx]

theorem childAt_setDirty (t : Trie) (x i : Nat) (s : Pos) :
    (t.setDirty x).childAt i s = t.childAt i s := by
  simp only [childAt, nodeAt_setDirty]
  rfl

theorem dirty_setDirty (t : Trie) (x : Nat) : (t.setDirty x).Dirty x := by
  intro s hs
  simp only [setDirty, getElem?_modify_eq] at hs
  cases hg : t.nodes[x]? with
  | none => simp [hg] at hs
  | some s0 =>
    simp only [hg, Option.map_eq_map, Option.map_some, Option.some.injEq] at hs
    rw [← hs]

theorem getElem?_setDirty_of_ne (h : i ≠ x) : (t.setDirty x).nodes[i]? = t.nodes[i]? := by
  simp [setDirty, h.symm]

theorem Dirty.setDirty (h : t.Dirty i) (x : Nat) : (t.setDirty x).Dirty i := by
  by_cases hix : i = x
  · subst hix
    exact dirty_setDirty t i
  · intro s hs
    rw [getElem?_setDirty_of_ne hix] at hs
    exact h s hs

theorem getElem?_setChild_of_ne (n : Nibble) (ptr : Option NodePtr) (h : d ≠ c) :
    (t.setChild c n ptr).branchNodeChildren[d]? = t.branchNodeChildren[d]? := by
  simp [setChild, h.symm]

theorem childOf_setChild_of_ne (n : Nibble) (ptr : Option NodePtr) {node : DiffTrieNode}
    (h : node ≠ .branch c) (s : Pos) : (t.setChild c n ptr).childOf node s = t.childOf node s := by
  cases node with
  | branch d =>
    have hdc : d ≠ c := by
      rintro rfl
      exact h rfl
    cases s <;> simp [childOf, getElem?_setChild_of_ne n ptr hdc]
  | _ => cases s <;> rfl

theorem childOf_setChild_self {n m : Nibble} {ptr q : Option NodePtr}
    (h : (t.setChild c n ptr).childOf (.branch c) (.child m) = q) (hq : q ≠ none) :
    m = n ∧ ptr = q ∨ m ≠ n ∧ t.childOf (.branch c) (.child m) = q := by
  simp only [childOf, setChild, getElem?_modify_eq] at h ⊢
  cases harr : t.branchNodeChildren[c]? with
  | none =>
    simp only [harr] at h
    exact absurd h.symm hq
  | some arr =>
    simp only [harr, Option.map_eq_map, Option.map_some, Option.bind_some] at h ⊢
    by_cases hmn : m = n
    · subst hmn
      left
      simpa using h
    · right
      rw [Function.update_of_ne hmn] at h
      exact ⟨hmn, h⟩

/-! ## Changes that keep the invariant -/

namespace Good

variable {j p x c : Nat}

section

variable (h : Good keccak store t O hole)
include h

/-- A node can only be pointed at by its owner. -/
theorem no_edge {s : Pos} (hj : O.node j = some (.child p s))
    (hp : hole = some p ∨ ¬ O.Live p ∨ t.childAt p s ≠ some (.localIdx j)) :
    ∀ i s', O.Live i → hole ≠ some i → t.childAt i s' ≠ some (.localIdx j) := by
  intro i s' hi hhole hedge
  have hown := h.edge i s' j hi hhole hedge
  rw [hj] at hown
  cases hown
  rcases hp with hp | hp | hp
  · exact hhole hp
  · exact hp hi
  · exact hp hedge

theorem lt_of_live {i : Nat} (hi : O.Live i) (h0 : i ≠ 0) : i < t.nodes.length := by
  by_contra hlt
  exact hi (h.fresh i (by omega) h0)

theorem lt_length (hne : t.nodes ≠ []) {i : Nat} (hi : O.Live i) : i < t.nodes.length := by
  by_cases h0 : i = 0
  · rw [h0]
    exact length_pos_iff.mpr hne
  · exact h.lt_of_live hi h0

theorem ne_zero {s : Pos} (hj : O.node j = some (.child p s)) : j ≠ 0 := by
  rintro rfl
  rw [h.root] at hj
  cases hj

end

/-! ### Changes of the record -/

theorem openHole (h : Good keccak store t O none) (hx : t.Dirty x) :
    Good keccak store t O (some x) where
  __ := h
  edge := fun i s j hi _ => h.edge i s j hi (by simp)
  array := fun i c hi _ => h.array i c hi (by simp)
  holeDirty := by
    rintro i ⟨⟩
    exact hx

/-- A node nothing points at may change its owner. -/
theorem reown (h : Good keccak store t O hole) {s : Pos} (hown : O.node j = some (.child p s))
    (hno : ∀ i s, O.Live i → hole ≠ some i → t.childAt i s ≠ some (.localIdx j)) (o : Owner) :
    Good keccak store t (O.setNode j o) hole := by
  have hj : O.Live j := Owners.live hown
  -- the same nodes are live
  have hlive : ∀ {i}, (O.setNode j o).Live i → O.Live i := by
    intro i hi
    by_cases hij : i = j
    · exact hij ▸ hj
    · exact hi.of_setNode hij
  refine ⟨?_, ?_, h.freshArray, ?_, fun i c hi => h.array i c (hlive hi),
    fun i hi => h.current i (hlive hi), h.holeDirty⟩
  · rw [O.setNode_node_of_ne o (h.ne_zero hown).symm, h.root]
  · intro i hi hi0
    rw [O.setNode_node_of_ne o, h.fresh i hi hi0]
    rintro rfl
    exact hj (h.fresh i hi hi0)
  · intro i s k hi hhole hedge
    have hkj : k ≠ j := by
      rintro rfl
      exact hno i s (hlive hi) hhole hedge
    rw [O.setNode_node_of_ne o hkj]
    exact h.edge i s k (hlive hi) hhole hedge

/-- A node nothing points at may be given up. -/
theorem forget (h : Good keccak store t O hole) {s : Pos} (hown : O.node j = some (.child p s))
    (hno : ∀ i s, O.Live i → hole ≠ some i → t.childAt i s ≠ some (.localIdx j)) :
    Good keccak store t (O.drop j) hole where
  __ := h
  root := by rw [O.drop_node_of_ne (h.ne_zero hown).symm, h.root]
  fresh := by
    intro i hi hi0
    by_cases hij : i = j
    · subst hij
      simp
    · rw [O.drop_node_of_ne hij, h.fresh i hi hi0]
  edge := by
    intro i s k hi hhole hedge
    obtain ⟨_, hi'⟩ := hi.of_drop
    have hkj : k ≠ j := by
      rintro rfl
      exact hno i s hi' hhole hedge
    rw [O.drop_node_of_ne hkj]
    exact h.edge i s k hi' hhole hedge
  array := fun i c hi => h.array i c hi.of_drop.2
  current := fun i hi => h.current i hi.of_drop.2

/-- An array no branch uses may get an owner. -/
theorem ownArray (h : Good keccak store t O hole) (hc : O.array c = none)
    (hlt : c < t.branchNodeChildren.length) (i : Nat) :
    Good keccak store t (O.setArray c i) hole where
  __ := h
  freshArray := by
    intro d hd
    rw [O.setArray_array_of_ne i (by omega), h.freshArray d hd]
  array := by
    intro k d hk hhole hnode
    have hown := h.array k d hk hhole hnode
    have hdc : d ≠ c := by
      rintro rfl
      rw [hc] at hown
      cases hown
    rwa [O.setArray_array_of_ne i hdc]

/-! ### Changes of the arena -/

section

variable (h : Good keccak store t O hole)
include h

/-- The buffers of keys and values may grow. -/
theorem buffers (hn : t'.nodes = t.nodes)
    (ha : t'.branchNodeChildren = t.branchNodeChildren) (hk : t.keys <+: t'.keys)
    (hv : t.values <+: t'.values) : Good keccak store t' O hole := by
  have hnode : ∀ i, t'.nodeAt i = t.nodeAt i := fun i => by simp [nodeAt, hn]
  have hchild : ∀ i s, t'.childAt i s = t.childAt i s := fun i s => by
    cases s <;> simp [childAt, hnode, childOf, ha]
  refine ⟨h.root, by rw [hn]; exact h.fresh, by rw [ha]; exact h.freshArray, ?_, ?_, ?_, ?_⟩
  · intro i s j
    rw [hchild]
    exact h.edge i s j
  · intro i c
    rw [hnode]
    exact h.array i c
  · intro i hi
    refine (h.current i hi).of_same (by rw [hn]) hk hv (fun c arr _ hc => by rw [ha, hc]) ?_
    intro s ptr d _ hd
    rw [← hd]
    cases ptr <;> simp [childRlpPtr, hn]
  · intro i hi s
    rw [hn]
    exact h.holeDirty i hi s

theorem insertKey (k : Nibbles) : Good keccak store (t.insertKey k).1 O hole :=
  h.buffers rfl rfl (prefix_append ..) (prefix_refl _)

theorem copyValue (v : Bytes) : Good keccak store (t.copyValue v).1 O hole :=
  h.buffers rfl rfl (prefix_refl _) (prefix_append ..)

theorem insertValue (iv : InsertValue) : Good keccak store (t.insertValue iv).1 O hole := by
  cases iv with
  | value v => exact h.copyValue v
  | storedValue r => exact h

/-- The store of proofs may grow. -/
theorem store_mono (hs : store.rlpPtrs <+: store'.rlpPtrs) :
    Good keccak store' t O hole := by
  refine { h with current := ?_ }
  intro i hi
  refine (h.current i hi).of_same rfl (prefix_refl _) (prefix_refl _) (fun _ _ _ hc => hc) ?_
  intro s ptr d _ hd
  cases ptr with
  | localIdx idx => exact hd
  | remoteIdx r =>
    exact getElem?_mono hd hs

/-- An array may be added. -/
theorem appendArray (arr : Children) :
    Good keccak store { t with branchNodeChildren := t.branchNodeChildren ++ [arr] } O hole := by
  -- the array of a live branch is an old one
  have hold : ∀ i c, O.Live i → hole ≠ some i → t.nodeAt i = some (.branch c) →
      (t.branchNodeChildren ++ [arr])[c]? = t.branchNodeChildren[c]? := by
    intro i c hi hhole hnode
    refine getElem?_append_left ?_
    by_contra hge
    have := h.array i c hi hhole hnode
    rw [h.freshArray c (by omega)] at this
    cases this
  refine ⟨h.root, h.fresh, ?_, ?_, h.array, ?_, h.holeDirty⟩
  · intro c hc
    refine h.freshArray c ?_
    simp only [length_append, length_singleton] at hc
    omega
  · intro i s j hi hhole hedge
    refine h.edge i s j hi hhole ?_
    rw [← hedge]
    cases hd : t.nodeAt i with
    | none =>
      have hd' : ({ t with branchNodeChildren := t.branchNodeChildren ++ [arr] } : Trie).nodeAt i =
          none := hd
      simp [childAt, hd, hd']
    | some node =>
      have hd' : ({ t with branchNodeChildren := t.branchNodeChildren ++ [arr] } : Trie).nodeAt i =
          some node := hd
      rw [childAt_of_nodeAt hd, childAt_of_nodeAt hd']
      cases node with
      | branch c => cases s <;> simp [childOf, hold i c hi hhole hd]
      | _ => cases s <;> rfl
  · intro i hi
    refine (h.current i hi).of_same rfl (prefix_refl _) (prefix_refl _) ?_ fun _ _ _ _ hd => hd
    intro c arr _ hc
    exact getElem?_append_of_some hc _

theorem createBranchChildren : Good keccak store t.createBranchChildren.1 O hole := h.appendArray _

end

/-- The root of an empty trie, without children in the arena. -/
theorem pushRoot (h : Good keccak store t O none) (hnil : t.nodes = []) (node : DiffTrieNode)
    (hedge : ∀ s j, t.childOf node s ≠ some (.localIdx j))
    (harr : ∀ c, node = .branch c → O.array c = some 0) :
    Good keccak store (t.pushNode node).1 O none := by
  have hlive : ∀ {i}, O.Live i → i = 0 := by
    intro i hi
    by_contra h0
    exact hi (h.fresh i (by simp [hnil]) h0)
  have hget : (t.pushNode node).1.nodes[0]? = some { node := node } := by simp [Trie.pushNode, hnil]
  refine ⟨h.root, ?_, h.freshArray, ?_, ?_, ?_, by simp⟩
  · intro i hi h0
    exact h.fresh i (by simp [hnil]) h0
  · intro i s j hi _ hchild
    obtain rfl := hlive hi
    rw [childAt_of_nodeAt (nodeAt_of_get hget)] at hchild
    exact absurd hchild (hedge s j)
  · intro i c hi _ hnode
    obtain rfl := hlive hi
    rw [nodeAt_of_get hget] at hnode
    exact harr c (some.inj hnode)
  intro i hi
  obtain rfl := hlive hi
  exact .of_dirty (dirty_of_get hget rfl)

section

variable (h : Good keccak store t O hole)
include h

theorem pushNode (hne : t.nodes ≠ []) (node : DiffTrieNode) (o : Owner)
    (hedge : ∀ s j, t.childOf node s = some (.localIdx j) →
      O.node j = some (.child t.nodes.length s))
    (harr : ∀ c, node = .branch c → O.array c = some t.nodes.length) :
    Good keccak store (t.pushNode node).1 (O.setNode t.nodes.length o) hole := by
  have hpos : 0 < t.nodes.length := length_pos_iff.mpr hne
  have hnone : O.node t.nodes.length = none := h.fresh _ le_rfl (by omega)
  have hget := getElem?_pushNode t node
  -- a live node other than the new one is an old one
  have hold : ∀ {i}, (O.setNode t.nodes.length o).Live i → i ≠ t.nodes.length →
      O.Live i ∧ (t.pushNode node).1.nodes[i]? = t.nodes[i]? := by
    intro i hi hine
    have hlive := hi.of_setNode hine
    exact ⟨hlive, getElem?_pushNode_of_lt node (h.lt_length hne hlive)⟩
  have hkeep : ∀ j, O.Live j → (O.setNode t.nodes.length o).node j = O.node j := by
    intro j hj
    refine O.setNode_node_of_ne o ?_
    rintro rfl
    exact hj hnone
  refine ⟨?_, ?_, h.freshArray, ?_, ?_, ?_, ?_⟩
  · rw [hkeep 0 (Owners.live h.root), h.root]
  · intro i hi hi0
    simp only [Trie.pushNode, length_append, length_singleton] at hi
    rw [O.setNode_node_of_ne o (by omega), h.fresh i (by omega) hi0]
  · intro i s j hi hhole hchild
    by_cases hin : i = t.nodes.length
    · subst hin
      have hnode := nodeAt_of_get hget
      rw [childAt_of_nodeAt hnode] at hchild
      have hown := hedge s j hchild
      rw [hkeep j (Owners.live hown), hown]
    obtain ⟨hlive, hsame⟩ := hold hi hin
    have hown := h.edge i s j hlive hhole (by
      rw [← hchild]
      simp only [childAt, nodeAt, hsame]
      rfl)
    rw [hkeep j (Owners.live hown), hown]
  · intro i c hi hhole hnode
    by_cases hin : i = t.nodes.length
    · subst hin
      rw [nodeAt_of_get hget] at hnode
      exact harr c (some.inj hnode)
    · obtain ⟨hlive, hsame⟩ := hold hi hin
      exact h.array i c hlive hhole (by simpa [nodeAt, hsame] using hnode)
  · intro i hi
    by_cases hin : i = t.nodes.length
    · subst hin
      exact .of_dirty (dirty_of_get hget rfl)
    obtain ⟨hlive, hsame⟩ := hold hi hin
    refine (h.current i hlive).of_same hsame (prefix_refl _) (prefix_refl _) (fun _ _ _ hc => hc) ?_
    intro s ptr d _ hd
    cases ptr with
    | remoteIdx r => exact hd
    | localIdx idx =>
      simp only [childRlpPtr] at hd ⊢
      cases hidx : t.nodes[idx]? with
      | none => simp [hidx] at hd
      | some slot =>
        rw [getElem?_pushNode_of_lt node (lt_of_getElem? hidx)]
        exact hd
  · intro i hi s hs
    by_cases hlt : i < t.nodes.length
    · rw [getElem?_pushNode_of_lt node hlt] at hs
      exact h.holeDirty i hi s hs
    by_cases hin : i = t.nodes.length
    · subst hin
      rw [hget] at hs
      cases hs
      rfl
    · rw [getElem?_eq_none (by simp [Trie.pushNode]; omega)] at hs
      cases hs

/-- A node that is not hashed may be rewritten; its new children have it as their owner. -/
theorem setNode (hx : t.Dirty x) (hhole : hole = none ∨ hole = some x) (node : DiffTrieNode)
    (hedge : ∀ s j, t.childOf node s = some (.localIdx j) → O.node j = some (.child x s))
    (harr : ∀ c, node = .branch c → O.array c = some x) :
    Good keccak store (t.setNode x node) O none := by
  have hother : ∀ {i}, i ≠ x → hole ≠ some i := by
    rintro i hi rfl
    rcases hhole with h | h
    · cases h
    · exact hi (Option.some.inj h)
  have hself : ∀ n, (t.setNode x node).nodeAt x = some n → n = node := by
    intro n hn
    simp only [nodeAt, Trie.setNode, getElem?_modify_eq] at hn
    cases hg : t.nodes[x]? with
    | none => simp [hg] at hn
    | some s => simpa [hg] using hn.symm
  refine ⟨h.root, ?_, h.freshArray, ?_, ?_, ?_, by simp⟩
  · intro i hi
    refine h.fresh i ?_
    simpa [Trie.setNode] using hi
  · intro i s j hi _ hchild
    by_cases hix : i = x
    · subst hix
      cases hn : (t.setNode i node).nodeAt i with
      | none => simp [childAt, hn] at hchild
      | some n =>
        rw [childAt_of_nodeAt hn, hself n hn] at hchild
        exact hedge s j hchild
    refine h.edge i s j hi (hother hix) ?_
    rw [← hchild]
    simp only [childAt, nodeAt, getElem?_setNode_of_ne node hix]
    rfl
  · intro i c hi _ hnode
    by_cases hix : i = x
    · subst hix
      exact harr c (hself _ hnode).symm
    · refine h.array i c hi (hother hix) ?_
      rw [← hnode]
      simp only [nodeAt, getElem?_setNode_of_ne node hix]
  · intro i hi
    by_cases hix : i = x
    · subst hix
      refine .of_dirty fun s hs => ?_
      simp only [Trie.setNode, getElem?_modify_eq] at hs
      cases hg : t.nodes[i]? with
      | none => simp [hg] at hs
      | some s0 =>
        simp only [hg, Option.map_eq_map, Option.map_some, Option.some.injEq] at hs
        rw [← hs]
        exact hx s0 hg
    refine (h.current i hi).of_same (getElem?_setNode_of_ne node hix) (prefix_refl _)
      (prefix_refl _) (fun _ _ _ hc => hc) ?_
    intro s ptr d _ hd
    rw [childRlpPtr_setNode, hd]

/-- The flag of a node may be cleared when that of its parent is. -/
theorem setDirty (hx : t.Exposed O x) : Good keccak store (t.setDirty x) O hole := by
  refine ⟨h.root, ?_, h.freshArray, ?_, ?_, ?_, fun i hi => (h.holeDirty i hi).setDirty x⟩
  · intro i hi
    refine h.fresh i ?_
    simpa [Trie.setDirty] using hi
  · intro i s j
    rw [childAt_setDirty]
    exact h.edge i s j
  · intro i c
    rw [nodeAt_setDirty]
    exact h.array i c
  intro i hi
  by_cases hd : (t.setDirty x).Dirty i
  · exact .of_dirty hd
  have hix : i ≠ x := by
    rintro rfl
    exact hd (dirty_setDirty t i)
  have hdirty : ¬ t.Dirty i := fun hi => hd (hi.setDirty x)
  refine (h.current i hi).of_same (getElem?_setDirty_of_ne hix) (prefix_refl _)
    (prefix_refl _) (fun _ _ _ hc => hc) ?_
  intro s ptr d hptr hpd
  rw [childRlpPtr_setDirty_of_ne, hpd]
  rintro rfl
  -- the node is not a child of `i`, whose flag is set
  refine hdirty (hx i s (h.edge i s x hi ?_ hptr))
  intro hhole
  exact hdirty (h.holeDirty i hhole)

/-- The child of a branch that is not hashed may be replaced. -/
theorem setChild (hp : t.Dirty p)
    (hhole : hole = none ∨ hole = some p) (hnode : t.nodeAt p = some (.branch c))
    (hc : O.array c = some p) (n : Nibble) (ptr : Option NodePtr)
    (hother : ∀ m j, m ≠ n → t.childOf (.branch c) (.child m) = some (.localIdx j) →
      O.node j = some (.child p (.child m)))
    (hptr : ∀ j, ptr = some (.localIdx j) → O.node j = some (.child p (.child n))) :
    Good keccak store (t.setChild c n ptr) O none := by
  have hne : ∀ {i}, i ≠ p → hole ≠ some i := by
    rintro i hi rfl
    rcases hhole with h | h
    · cases h
    · exact hi (some.inj h)
  -- the array belongs to `p` only
  have hnot : ∀ {i}, O.Live i → i ≠ p → t.nodeAt i ≠ some (.branch c) := by
    intro i hi hip hbr
    have := h.array i c hi (hne hip) hbr
    rw [hc] at this
    exact hip (some.inj this).symm
  have hat : ∀ i, (t.setChild c n ptr).nodeAt i = t.nodeAt i := fun _ => rfl
  refine ⟨h.root, h.fresh, ?_, ?_, ?_, ?_, by simp⟩
  · intro d hd
    refine h.freshArray d ?_
    simpa [Trie.setChild] using hd
  · intro i s j hi _ hchild
    by_cases hip : i = p
    · subst hip
      rw [childAt_of_nodeAt ((hat i).trans hnode)] at hchild
      cases s with
      | next => simp [childOf] at hchild
      | child m =>
        rcases childOf_setChild_self hchild (by simp) with ⟨rfl, hq⟩ | ⟨hmn, hq⟩
        · exact hptr j hq
        · exact hother m j hmn hq
    refine h.edge i s j hi (hne hip) ?_
    cases hd : t.nodeAt i with
    | none => simp [childAt, hat, hd] at hchild
    | some node =>
      rw [childAt_of_nodeAt ((hat i).trans hd)] at hchild
      rw [childAt_of_nodeAt hd, ← hchild, childOf_setChild_of_ne n ptr]
      rintro rfl
      exact hnot hi hip hd
  · intro i d hi _ hbr
    rw [hat] at hbr
    by_cases hip : i = p
    · subst hip
      rw [hnode] at hbr
      cases hbr
      exact hc
    · exact h.array i d hi (hne hip) hbr
  · intro i hi
    by_cases hip : i = p
    · subst hip
      exact .of_dirty hp
    refine (h.current i hi).of_same rfl (prefix_refl _) (prefix_refl _) ?_ fun _ _ _ _ hd => hd
    intro d arr hbr harr
    rw [getElem?_setChild_of_ne n ptr, harr]
    rintro rfl
    exact hnot hi hip hbr

end

/-- Without a hole the other children are known already. -/
theorem setChild_live (h : Good keccak store t O none) (hlive : O.Live p)
    (hp : t.Dirty p) (hnode : t.nodeAt p = some (.branch c)) (n : Nibble) (ptr : Option NodePtr)
    (hptr : ∀ j, ptr = some (.localIdx j) → O.node j = some (.child p (.child n))) :
    Good keccak store (t.setChild c n ptr) O none :=
  h.setChild hp (Or.inl rfl) hnode (h.array p c hlive (by simp) hnode) n ptr
    (fun m j _ hm => h.edge p (.child m) j hlive (by simp) (by rwa [childAt_of_nodeAt hnode])) hptr

end Good

/-! ## Chains of owners -/

/-- The owners above a node, up to the root. -/
inductive Chain (O : Owners) : List Nat → Nat → Prop
  | root (h : O.node 0 = some .root) : Chain O [] 0
  | child {l : List Nat} {p j : Nat} {s : Pos} (h : Chain O l p)
      (hj : O.node j = some (.child p s)) : Chain O (p :: l) j

namespace Chain

variable {l l' : List Nat} {i j : Nat}

section

variable (h : Chain O l i)
include h

theorem live : O.Live i := by
  cases h with
  | root h => exact Owners.live h
  | child _ hj => exact Owners.live hj

theorem unique (h' : Chain O l' i) : l = l' := by
  induction h generalizing l' with
  | root h =>
    cases h' with
    | root _ => rfl
    | child _ hj => simp [h] at hj
  | child _ hj ih =>
    cases h' with
    | root h0 => simp [h0] at hj
    | child hp hj' =>
      rw [hj] at hj'
      cases hj'
      rw [ih hp]

theorem of_mem (hj : j ∈ l) : ∃ l', Chain O l' j ∧ l'.length < l.length := by
  induction h with
  | root _ => cases hj
  | @child l p k s hp _ ih =>
    rcases mem_cons.mp hj with rfl | hj
    · exact ⟨l, hp, Nat.lt_succ_self _⟩
    · obtain ⟨l', hl', hlen⟩ := ih hj
      exact ⟨l', hl', hlen.trans (Nat.lt_succ_self _)⟩

/-- A chain meets no node twice. -/
theorem not_mem : i ∉ l := by
  intro hi
  obtain ⟨l', hl', hlen⟩ := h.of_mem hi
  rw [h.unique hl'] at hlen
  exact lt_irrefl _ hlen

theorem nodup : l.Nodup := by
  induction h with
  | root _ => exact nodup_nil
  | child hp _ ih => exact nodup_cons.mpr ⟨hp.not_mem, ih⟩

end

end Chain

end Trie

end SparseMpt
