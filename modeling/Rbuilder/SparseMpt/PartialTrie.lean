/-
  A partially revealed trie simulates the full one.

  The state is a proof store and a trie, both empty at first. Proofs of the base map are
  added to the store and from there to the trie, in any order and at any time between
  insertions, deletions and hashings. `Reach` pairs every state that can be reached with
  the map the full trie would hold. `MapStep` says what an operation does to that map and
  returns: what it would do and return on the full map, or a missing node and no change.
-/
import Rbuilder.HashMap
import Rbuilder.SparseMpt.Binding

namespace SparseMpt

open ProofStore (Decodes IsBaseProof Known StoreOk)
open Patricia List Trie

namespace Trie

variable {C : Codec Nibble Bytes Bytes} {base : MptNode} {K : Set Nibbles} {store : ProofStore}
  {t : Trie} {m : MptMap} {keccak : Bytes → B256}

theorem insert_uninit (h : t.nodes = []) (key : Nibbles) (iv : InsertValue) :
    t.insertNibbleKey key iv = (t, .error (.nodeNotFound key)) := by
  simp [insertNibbleKey, insertLoop, h]

theorem delete_uninit (h : t.nodes = []) (key : Nibbles) :
    t.deleteNibblesKey key = (t, .error (.nodeNotFound key)) := by
  simp [deleteNibblesKey, deleteWalk, h]

theorem simulates_insert (hK : PrefixFree K) (h : Simulates C base K store t m) {key : Nibbles}
    (hk : key ∈ K) {iv : InsertValue} {v : Bytes} (hv : iv.Denotes t v) :
    Gives (fun t' old => Simulates C base K store t' (m.insert key v) ∧
        t'.readValue old = some (m.lookup key) ∧ t.values <+: t'.values)
      (fun t' e => Simulates C base K store t' m ∧ e = .nodeNotFound key ∧
        t.values <+: t'.values) (t.insertNibbleKey key iv) := by
  rcases h with ⟨hnil, hrest⟩ | h
  · rw [insert_uninit hnil]
    exact ⟨Or.inl ⟨hnil, hrest⟩, rfl, prefix_refl _⟩
  exact (holds_insert hK h hk hv).elim (fun _ _ hins => ⟨Or.inr hins.1, hins.2⟩)
    fun _ _ hins => ⟨Or.inr hins.1, hins.2.1, hins.2.2.2⟩

theorem simulates_delete (h : Simulates C base K store t m) (key : Nibbles) :
    Gives (fun t' old => ∃ v, m.lookup key = some v ∧ slice? t'.values old = some v ∧
        Simulates C base K store t' (m.erase key) ∧ t.values <+: t'.values)
      (fun t' e => (e = .keyNotFound ∧ m.lookup key = none ∨ ∃ path, e = .nodeNotFound path) ∧
        Simulates C base K store t' m ∧ t.values <+: t'.values) (t.deleteNibblesKey key) := by
  rcases h with ⟨hnil, hrest⟩ | h
  · rw [delete_uninit hnil]
    exact ⟨Or.inr ⟨key, rfl⟩, Or.inl ⟨hnil, hrest⟩, prefix_refl _⟩
  refine (holds_delete h key).elim (fun _ _ hdel => ?_) fun _ _ hdel => ?_
  · obtain ⟨v, hl, hread, hh, hvals⟩ := hdel
    exact ⟨v, hl, hread, Or.inr hh, hvals⟩
  · obtain ⟨he, hh, hvals⟩ := hdel
    exact ⟨he.imp_right fun ⟨path, he, _⟩ => ⟨path, he⟩, Or.inr hh, hvals⟩

theorem remotePtrs_known (keccak : Bytes → B256) (base : MptNode) (store : ProofStore) :
    RemotePtrs keccak store (Known (nodeCodec keccak) base store) := fun _ _ _ h => h.2

theorem simulates_rootHash (hK : PrefixFree K)
    (h : Simulates (nodeCodec keccak) base K store t m) (parallel : Bool)
    {schedule : Nat → List Nibble} (hs : ∀ i, (schedule i).Perm (finRange 16)) :
    t.nodes = [] ∧ t.rootHash keccak parallel schedule store = (t, .error (.nodeNotFound [])) ∨
    ∃ t', t.rootHash keccak parallel schedule store = (t', .ok (mptRoot keccak m)) ∧
      Holds (nodeCodec keccak) (Known (nodeCodec keccak) base store) K t' m ∧
      t.values <+: t'.values ∧ t'.IsHashed (.localIdx 0) := by
  rcases h with ⟨hnil, _⟩ | h
  · exact Or.inl ⟨hnil, by simp [rootHash, hnil]⟩
  · exact Or.inr (holds_rootHash hK (remotePtrs_known keccak base store) h parallel hs)

end Trie

structure PartialState where
  store : ProofStore := {}
  trie : Trie := {}

inductive PartialOp where
  | addProof (key : Nibbles) (proof : List (Nibbles × Bytes))
  | tryAddProof (key : Nibbles)
  | insert (key : Nibbles) (value : InsertValue)
  | delete (key : Nibbles)
  | rootHash (parallel : Bool) (schedule : Nat → List Nibble)

/-- What an operation returns, old values read from the trie. -/
inductive PartialResult where
  | stored (ok : Bool)
  | added (res : Except TrieError Bool)
  | value (res : Except TrieError (Option Bytes))
  | root (res : Except TrieError B256)
  deriving DecidableEq

def PartialState.step (keccak : Bytes → B256) (decode : Bytes → Option AlloyTrieNode)
    (s : PartialState) : PartialOp → PartialState × PartialResult
  | .addProof key proof =>
    let (store, ok) := s.store.addProof decode key proof
    ({ s with store }, .stored ok)
  | .tryAddProof key =>
    let (trie, res) := s.trie.tryAddProofFromProofStore s.store key
    ({ s with trie }, .added res)
  | .insert key value =>
    let (trie, res) := s.trie.insertNibbleKey key value
    ({ s with trie }, .value (trie.readResult res))
  | .delete key =>
    let (trie, res) := s.trie.deleteNibblesKey key
    ({ s with trie }, .value (trie.readResult (res.map some)))
  | .rootHash parallel schedule =>
    let (trie, res) := s.trie.rootHash keccak parallel schedule s.store
    ({ s with trie }, .root res)

/-- What callers may do: proofs list nodes of the base trie, keys have 64 nibbles, a stored
    value is a range of the trie's values, a schedule runs every task once. -/
def Allowed (C : Codec Nibble Bytes Bytes) (base : MptNode) (s : PartialState) : PartialOp → Prop
  | .addProof _ proof => IsBaseProof C base proof
  | .tryAddProof _ => True
  | .insert key value => key.length = 64 ∧ ∃ v, value.Denotes s.trie v
  | .delete key => key.length = 64
  | .rootHash _ schedule => ∀ i, (schedule i).Perm (finRange 16)

/-- The bytes of an insert value. -/
def InsertValue.bytes (t : Trie) : InsertValue → Bytes
  | .value v => v
  | .storedValue r => (slice? t.values r).getD []

theorem InsertValue.bytes_eq {t : Trie} {v : Bytes} {iv : InsertValue} (h : iv.Denotes t v) :
    iv.bytes t = v := by
  cases iv with
  | value w => exact h
  | storedValue r =>
    have hr : slice? t.values r = some v := h
    simp [bytes, hr]

/-- The map after an operation that returned `res`. -/
def mapAfter (s : PartialState) (m : MptMap) : PartialOp → PartialResult → MptMap
  | .insert key value, .value (.ok _) => m.insert key (value.bytes s.trie)
  | .delete key, .value (.ok _) => m.erase key
  | _, _ => m

/-- The states that can be reached, each with the map of the full trie. -/
inductive Reach (keccak : Bytes → B256) (decode : Bytes → Option AlloyTrieNode) (M : MptMap) :
    PartialState → MptMap → Prop
  | init : Reach keccak decode M {} M
  | step {s : PartialState} {m : MptMap} (op : PartialOp) (h : Reach keccak decode M s m)
      (hop : Allowed (nodeCodec keccak) (ofMap M) s op) :
      Reach keccak decode M (s.step keccak decode op).1
        (mapAfter s m op (s.step keccak decode op).2)

/-- An operation on the full map `m`: what it returns and the map after it. A missing node
    leaves the map as it is. -/
inductive MapStep (keccak : Bytes → B256) (s : PartialState) (m : MptMap) :
    PartialOp → PartialResult → MptMap → Prop
  | stored (key : Nibbles) (proof : List (Nibbles × Bytes)) :
      MapStep keccak s m (.addProof key proof) (.stored true) m
  | added (key : Nibbles) (b : Bool) : MapStep keccak s m (.tryAddProof key) (.added (.ok b)) m
  | addMissing (key path : Nibbles) :
      MapStep keccak s m (.tryAddProof key) (.added (.error (.nodeNotFound path))) m
  | insert (key : Nibbles) (value : InsertValue) :
      MapStep keccak s m (.insert key value) (.value (.ok (m.lookup key)))
        (m.insert key (value.bytes s.trie))
  | insertMissing (key : Nibbles) (value : InsertValue) (path : Nibbles) :
      MapStep keccak s m (.insert key value) (.value (.error (.nodeNotFound path))) m
  | delete (key : Nibbles) (v : Bytes) (h : m.lookup key = some v) :
      MapStep keccak s m (.delete key) (.value (.ok (some v))) (m.erase key)
  | deleteAbsent (key : Nibbles) (h : m.lookup key = none) :
      MapStep keccak s m (.delete key) (.value (.error .keyNotFound)) m
  | deleteMissing (key path : Nibbles) :
      MapStep keccak s m (.delete key) (.value (.error (.nodeNotFound path))) m
  | root (parallel : Bool) (schedule : Nat → List Nibble) :
      MapStep keccak s m (.rootHash parallel schedule) (.root (.ok (mptRoot keccak m))) m
  | rootMissing (parallel : Bool) (schedule : Nat → List Nibble) (h : s.trie.isUninit = true) :
      MapStep keccak s m (.rootHash parallel schedule) (.root (.error (.nodeNotFound []))) m

section Simulation

variable {keccak : Bytes → B256} {decode : Bytes → Option AlloyTrieNode} {M m : MptMap}
  {s : PartialState}

/-- The keys of 64 nibbles. -/
def keys64 : Set Nibbles := {k | k.length = 64}

/-- The invariant of a run. -/
structure Invariant (keccak : Bytes → B256) (M : MptMap) (s : PartialState)
    (m : MptMap) : Prop where
  store : StoreOk (nodeCodec keccak) (ofMap M) s.store
  trie : Simulates (nodeCodec keccak) (ofMap M) keys64 s.store s.trie m

section

variable (hM : ∀ k, k ∈ M → k.length = 64)
include hM

theorem prefixFree_base : PrefixFree {k | k ∈ M} :=
  fun a ha b hb => prefixFree_of_length 64 a (hM a ha) b (hM b hb)

theorem invariant_init : Invariant keccak M {} M := by
  refine ⟨?_, Or.inl ⟨rfl, hM, fun k => get_ofMap (prefixFree_base hM) k⟩⟩
  intro key proof h
  cases h

/-- One operation: it does to the map what it does on the full trie, and keeps the invariant. -/
theorem step_mapStep (hdec : Decodes (nodeCodec keccak) (ofMap M) decode)
    (hinv : Invariant keccak M s m) {op : PartialOp}
    (hop : Allowed (nodeCodec keccak) (ofMap M) s op) :
    MapStep keccak s m op (s.step keccak decode op).2
        (mapAfter s m op (s.step keccak decode op).2) ∧
      Invariant keccak M (s.step keccak decode op).1
        (mapAfter s m op (s.step keccak decode op).2) := by
  have hb := wellFormed_ofMap (prefixFree_base hM)
  have hK : PrefixFree keys64 := prefixFree_of_length 64
  obtain ⟨hstore, hsim⟩ := hinv
  cases op with
  | addProof key proof =>
    obtain ⟨hok, hstore', hgrow⟩ := ProofStore.addProof_spec hdec hstore key hop
    simp only [PartialState.step, mapAfter, hok]
    exact ⟨.stored key proof, hstore', hsim.mono hgrow⟩
  | tryAddProof key =>
    obtain ⟨t', hsim', _, ⟨b, he⟩ | ⟨e, he⟩⟩ := simulates_tryAddProof hb hstore hsim key
    · simp only [PartialState.step, mapAfter, he]
      exact ⟨.added key b, hstore, hsim'⟩
    · simp only [PartialState.step, mapAfter, he]
      exact ⟨.addMissing key e, hstore, hsim'⟩
  | insert key value =>
    obtain ⟨hk, v, hv⟩ := hop
    simp only [PartialState.step]
    refine (simulates_insert hK hsim hk hv).elim (fun t' old hins => ?_) fun t' e hins => ?_
    · simp only [readResult, hins.2.1, mapAfter]
      refine ⟨.insert key value, hstore, ?_⟩
      rw [InsertValue.bytes_eq hv]
      exact hins.1
    · obtain ⟨hsim', rfl, _⟩ := hins
      exact ⟨.insertMissing key value key, hstore, hsim'⟩
  | delete key =>
    simp only [PartialState.step]
    refine (simulates_delete hsim key).elim (fun t' old hdel => ?_) fun t' e hdel => ?_
    · obtain ⟨v, hl, hread, hsim', _⟩ := hdel
      simp only [Except.map, readResult, readValue, hread, Option.map_some, mapAfter]
      exact ⟨.delete key v hl, hstore, hsim'⟩
    · obtain ⟨⟨rfl, hl⟩ | ⟨path, rfl⟩, hsim', _⟩ := hdel
      · exact ⟨.deleteAbsent key hl, hstore, hsim'⟩
      · exact ⟨.deleteMissing key path, hstore, hsim'⟩
  | rootHash parallel schedule =>
    rcases simulates_rootHash hK hsim parallel hop with ⟨hnil, he⟩ | ⟨t', he, hh, _⟩
    · simp only [PartialState.step, he, mapAfter]
      exact ⟨.rootMissing parallel schedule (by simp [isUninit, hnil]), hstore, hsim⟩
    · simp only [PartialState.step, he, mapAfter]
      exact ⟨.root parallel schedule, hstore, Or.inr hh⟩

theorem invariant_reach (hdec : Decodes (nodeCodec keccak) (ofMap M) decode)
    (hr : Reach keccak decode M s m) : Invariant keccak M s m := by
  induction hr with
  | init => exact invariant_init hM
  | step op _ hop ih => exact (step_mapStep hM hdec ih hop).2

end

end Simulation

variable (keccak : Bytes → B256)

/-- Every operation on every reachable state does and returns what it does and returns on the
    full map, or reports a missing node and leaves the map as it is. -/
theorem partial_trie_simulates_map
    (decode : Bytes → Option AlloyTrieNode) {M : MptMap} (hM : ∀ k, k ∈ M → k.length = 64)
    (hdec : Decodes (nodeCodec keccak) (ofMap M) decode) {s : PartialState}
    {m : MptMap} (hr : Reach keccak decode M s m) {op : PartialOp}
    (hop : Allowed (nodeCodec keccak) (ofMap M) s op) :
    MapStep keccak s m op (s.step keccak decode op).2
      (mapAfter s m op (s.step keccak decode op).2) :=
  (step_mapStep hM hdec (invariant_reach hM hdec hr) hop).1

theorem baseNode_trail {base : MptNode} {key : Nibbles} {e : Nibbles × MptNode} (hb : base.WellFormed)
    (he : e ∈ base.trail [] key) : BaseNode base e.1 e.2 := by
  rcases hb with rfl | hb
  · obtain rfl := mem_singleton.mp he
    exact Or.inl ⟨rfl, rfl, rfl⟩
  · exact Or.inr (Node.subnode_of_mem_trail hb (Node.subnode_nil hb.ne_null) he)

theorem isBaseProof_trail {base : MptNode} (hb : base.WellFormed) (key : Nibbles) :
    IsBaseProof (nodeCodec keccak) base (proofOf keccak (base.trail [] key)) := by
  intro e he
  obtain ⟨e', he', rfl⟩ := mem_map.mp he
  exact ⟨e'.2, baseNode_trail hb he', rfl⟩

/-! ### Examples

  A branch with two leaves, and a decoder that looks for the node with the encoding. -/

section LeafPair

open Node in
/-- The branch of two leaves, each with its nibble in the branch. -/
def leafPair (a b : Nibble × Nibbles × Bytes) : MptNode :=
  pair a.1 (leaf a.2.1 a.2.2) b.1 (leaf b.2.1 b.2.2)

def leafPairNodes (a b : Nibble × Nibbles × Bytes) : List MptNode :=
  [leafPair a b, .leaf a.2.1 a.2.2, .leaf b.2.1 b.2.2]

def decodeNodes (keccak : Bytes → B256) (nodes : List MptNode) (rlp : Bytes) : Option AlloyTrieNode :=
  (nodes.find? fun n => n.encode (nodeCodec keccak) = rlp).map (view (nodeCodec keccak))

variable {a b : Nibble × Nibbles × Bytes} {n : MptNode} {p : Nibbles}

theorem ofMap_eq_leafPair {m : MptMap} (hfree : PrefixFree {k | k ∈ m}) (hne : a.1 ≠ b.1)
    (h : ∀ q, m.lookup q = if q = a.1 :: a.2.1 then some a.2.2
      else if q = b.1 :: b.2.1 then some b.2.2 else none) : ofMap m = leafPair a b := by
  have hcanonical : (leafPair a b).Canonical := Node.canonical_pair hne trivial trivial
  refine (eq_ofMap (.inr hcanonical) hfree fun q => ?_).symm
  rw [h, leafPair, Node.get_pair hne]
  cases q with
  | nil => rfl
  | cons c q =>
    simp only [Node.get_leaf, cons.injEq]
    split_ifs <;> simp_all

theorem mem_leafPairNodes (h : BaseNode (leafPair a b) p n) : n ∈ leafPairNodes a b := by
  obtain ⟨hnull, -⟩ | h := h
  · cases hnull
  cases p with
  | nil => exact Option.some.inj h ▸ mem_cons_self
  | cons c p =>
    have h : (Function.update (Function.update (fun _ => Node.null) a.1 (.leaf a.2.1 a.2.2)) b.1
      (.leaf b.2.1 b.2.2) c : MptNode).subnode p = some n := h
    rw [Function.update_apply, Function.update_apply] at h
    split_ifs at h <;> cases p <;> cases h
    · simp [leafPairNodes]
    · simp [leafPairNodes]

section

variable {keccak : Bytes → B256}
  (h : ((leafPairNodes a b).map fun n => keccak (n.encode (nodeCodec keccak))).Nodup)
include h

theorem separates_leafPair : Separates keccak (leafPair a b) (leafPair a b) :=
  fun _ _ _ _ hn hn' heq => congrArg _
    (inj_on_of_nodup_map h (mem_leafPairNodes hn) (mem_leafPairNodes hn') heq)

theorem decodes_leafPair :
    Decodes (nodeCodec keccak) (leafPair a b) (decodeNodes keccak (leafPairNodes a b)) := by
  intro p n hn
  have hmem := mem_leafPairNodes hn
  obtain ⟨n', hfind⟩ : ∃ n', (leafPairNodes a b).find?
      (fun n' => n'.encode (nodeCodec keccak) = n.encode (nodeCodec keccak)) = some n' :=
    Option.isSome_iff_exists.mp (find?_isSome.mpr ⟨n, hmem, decide_eq_true rfl⟩)
  have hsame : n'.encode (nodeCodec keccak) = n.encode (nodeCodec keccak) := by
    simpa using find?_some hfind
  rw [decodeNodes, hfind, inj_on_of_nodup_map h (mem_of_find?_eq_some hfind) hmem
    (congrArg keccak hsame), Option.map_some]

end

end LeafPair

/-- `keccak256` of the empty root node. -/
def emptyRoot : B256 :=
  #v[86, 232, 31, 23, 27, 204, 85, 166, 255, 131, 69, 230, 146, 192, 248, 110, 91, 72, 224, 27, 153,
    108, 173, 192, 1, 98, 47, 181, 227, 99, 180, 33]

/-- The last bytes, but for the empty root. -/
def emptyRootKeccak (rlp : Bytes) : B256 :=
  if rlp = [0x80] then emptyRoot else Vector.ofFn fun i => rlp.reverse.getD i 0

/-- What the branch of the base has at the nibble `j`. -/
def leafEntry (j : Nibble) : Nibble × Nibbles × Bytes :=
  (j, replicate 63 0, [0x61 + j.val.toUInt8])

def leafKey (j : Nibble) : Nibbles := j :: List.replicate 63 0

/-- The base map of two keys. -/
def twoLeaves : MptMap := ((∅ : MptMap).insert (leafKey 1) [0x62]).insert (leafKey 0) [0x61]

def decodeTwoLeaves : Bytes → Option AlloyTrieNode :=
  decodeNodes emptyRootKeccak (leafPairNodes (leafEntry 0) (leafEntry 1))

/-- The proof of one of the keys. -/
def leafProof (j : Nibble) : PartialOp :=
  .addProof (leafKey j) (proofOf emptyRootKeccak ((ofMap twoLeaves).trail [] (leafKey j)))

/-- The state after the given operations. -/
def PartialState.run (s : PartialState) (ops : List PartialOp) : PartialState :=
  ops.foldl (fun s op => (s.step emptyRootKeccak decodeTwoLeaves op).1) s

/-- The branch and the leaf of the first key; the other leaf is not revealed. -/
def halfRevealed : PartialState := .run {} [leafProof 0, .tryAddProof (leafKey 0)]

theorem length_of_mem_twoLeaves : ∀ k, k ∈ twoLeaves → k.length = 64 := by
  intro k hk
  have hall : ∀ k ∈ twoLeaves.keys, k.length = 64 := by decide
  exact hall k hk

theorem ofMap_twoLeaves : ofMap twoLeaves = leafPair (leafEntry 0) (leafEntry 1) :=
  ofMap_eq_leafPair (prefixFree_base length_of_mem_twoLeaves) (by decide) fun q => by
    rw [twoLeaves, AList.lookup_insert_eq_ite, AList.lookup_insert_eq_ite]
    rfl

theorem nodup_twoLeaves : ((leafPairNodes (leafEntry 0) (leafEntry 1)).map fun n =>
    emptyRootKeccak (n.encode (nodeCodec emptyRootKeccak))).Nodup := by decide +kernel

theorem decodes_twoLeaves :
    Decodes (nodeCodec emptyRootKeccak) (ofMap twoLeaves) decodeTwoLeaves :=
  ofMap_twoLeaves ▸ decodes_leafPair nodup_twoLeaves

theorem Reach.reveal {s : PartialState} (h : Reach emptyRootKeccak decodeTwoLeaves twoLeaves s twoLeaves)
    (j : Nibble) : Reach emptyRootKeccak decodeTwoLeaves twoLeaves
      (s.run [leafProof j, .tryAddProof (leafKey j)]) twoLeaves :=
  (h.step (leafProof j) (isBaseProof_trail _ (wellFormed_ofMap
    (prefixFree_base length_of_mem_twoLeaves)) _)).step (.tryAddProof (leafKey j)) trivial

/-- After an insertion the revealed leaf is deleted, beside the one that is not revealed. -/
theorem partial_trie_simulates_map_reshaped :
    let s := halfRevealed.run [.insert (leafKey 2) (.value [0x63]), .delete (leafKey 0)]
    let m := (twoLeaves.insert (leafKey 2) [0x63]).erase (leafKey 0)
    MapStep emptyRootKeccak s m (.rootHash true fun _ => finRange 16)
      (.root (.ok (mptRoot emptyRootKeccak m))) m := by
  intro s m
  have hr : Reach emptyRootKeccak decodeTwoLeaves twoLeaves s m :=
    ((Reach.reveal .init 0).step (.insert (leafKey 2) (.value [0x63])) ⟨rfl, _, rfl⟩).step
      (.delete (leafKey 0)) rfl
  exact partial_trie_simulates_map emptyRootKeccak decodeTwoLeaves length_of_mem_twoLeaves
    decodes_twoLeaves hr fun _ => List.Perm.refl _

end SparseMpt
