/-
  The trie as a map.

  `Holds C R K t m`: the trie `t` represents a well-formed node whose lookups are the
  finite map `m`, all of whose keys lie in the prefix-free set `K`. Each operation of the
  trie keeps `Holds` and acts on `m` as on a map (`holds_insert`, `holds_delete`,
  `holds_rootHash`); where a remote pointer is in the way it fails and keeps `m`.

  For a trie that starts empty there are no remote pointers, so over every sequence of
  insertions and deletions the trie and the map return the same, no panic is reached, and
  the root hash is the reference root of the map (`run_eq_mapRun`).
-/
import Rbuilder.SparseMpt.RootHash
import Rbuilder.Runs

namespace SparseMpt

open Patricia.Node (WellFormed)
open Patricia List AList

namespace Trie

variable {C : Codec Nibble Bytes Bytes} {R : Nibbles → Nat → MptNode → Prop} {K : Set Nibbles}
  {t : Trie} {m m' : MptMap}

/-- The trie represents the map. -/
def Holds (C : Codec Nibble Bytes Bytes) (R : Nibbles → Nat → MptNode → Prop) (K : Set Nibbles)
    (t : Trie) (m : MptMap) : Prop :=
  (∀ k, k ∈ m → k ∈ K) ∧ ∃ n L, Rep C R t L n [] (.localIdx 0) ∧ n.WellFormed ∧
    ∀ q, n.get q = m.lookup q

variable {q k p : Nibbles}

theorem apart_of_prefixFree (hK : PrefixFree K) (hm : ∀ k, k ∈ m → k ∈ K) {n : MptNode}
    (hg : ∀ q, n.get q = m.lookup q) (hq : q ∈ K) : n.Apart q := by
  intro k v hk hne
  have hkK : k ∈ K := by
    apply hm
    rw [← lookup_isSome, ← hg, hk]
    rfl
  exact ⟨fun h => hne (hK k hkK q hq h), fun h => hne (hK q hq k hkK h).symm⟩

theorem Holds.prefixFree (hK : PrefixFree K) (h : Holds C R K t m) : PrefixFree {k | k ∈ m} :=
  fun a ha b hb => hK a (h.1 a ha) b (h.1 b hb)

theorem holds_insert (hK : PrefixFree K) (h : Holds C R K t m) (hk : k ∈ K)
    {iv : InsertValue} {v : Bytes} (hv : iv.Denotes t v) :
    Gives (fun t' old => Holds C R K t' (m.insert k v) ∧ t'.readValue old = some (m.lookup k) ∧
        t.values <+: t'.values)
      (fun t' e => Holds C R K t' m ∧ e = .nodeNotFound k ∧ Blocked R [] k ∧
        t.values <+: t'.values) (t.insertNibbleKey k iv) := by
  obtain ⟨hm, n, L, hrep, hn, hg⟩ := h
  have hap := apart_of_prefixFree hK hm hg hk
  obtain ⟨L', hF, hout⟩ := insertNibbleKey_spec hrep hn hap hv
  generalize t.insertNibbleKey k iv = res at hF hout
  obtain ⟨t', res⟩ := res
  cases res with
  | ok old =>
    refine ⟨⟨?_, _, L', hout.1, Or.inr (Node.canonical_insert v hn hap), ?_⟩, ?_, hF.values⟩
    · intro k' hk'
      rcases (mem_insert m).mp hk' with rfl | hk'
      · exact hk
      · exact hm k' hk'
    · intro q
      rw [Node.get_insert v hn hap, hg]
      by_cases hqk : q = k
      · subst hqk; simp
      · rw [if_neg hqk, lookup_insert_ne hqk]
    · rw [← hg]
      exact hout.2
  | error e => exact ⟨⟨hm, n, L', hout.2.1, hn, hg⟩, hout.1, hout.2.2, hF.values⟩

theorem holds_delete (h : Holds C R K t m) (k : Nibbles) :
    Gives (fun t' old => ∃ v, m.lookup k = some v ∧ slice? t'.values old = some v ∧
        Holds C R K t' (m.erase k) ∧ t.values <+: t'.values)
      (fun t' e => (e = .keyNotFound ∧ m.lookup k = none ∨
        ∃ path, e = .nodeNotFound path ∧ Blocked R [] path) ∧ Holds C R K t' m ∧
        t.values <+: t'.values) (t.deleteNibblesKey k) := by
  obtain ⟨hm, n, L, hrep, hn, hg⟩ := h
  obtain ⟨L', hout⟩ := deleteNibblesKey_spec k hrep hn
  generalize t.deleteNibblesKey k = res at hout
  obtain ⟨t', res⟩ := res
  cases res with
  | ok old =>
    obtain ⟨n', v, hdel, hgv, hv, hrep', hvals⟩ := hout
    refine ⟨v, by rw [← hg, hgv], hv, ⟨?_, n', L', hrep',
      Node.wellFormed_delete hn hdel, ?_⟩, hvals⟩
    · intro k' hk'
      exact hm k' (mem_erase.mp hk').2
    intro q
    rw [Node.get_delete hdel, hg]
    by_cases hqk : q = k
    · subst hqk; simp
    · rw [if_neg hqk, lookup_erase_ne hqk]
  | error e =>
    obtain ⟨herr, hrep', hvals⟩ := hout
    rw [hg] at herr
    exact ⟨herr, ⟨hm, n, L', hrep', hn, hg⟩, hvals⟩

variable {keccak : Bytes → B256} {store : ProofStore}

variable {schedule : Nat → List Nibble}

theorem holds_rootHash (hK : PrefixFree K) (hR : RemotePtrs keccak store R)
    (h : Holds (nodeCodec keccak) R K t m) (parallel : Bool)
    (hs : ∀ i, (schedule i).Perm (finRange 16)) :
    ∃ t', t.rootHash keccak parallel schedule store = (t', .ok (mptRoot keccak m)) ∧
      Holds (nodeCodec keccak) R K t' m ∧ t.values <+: t'.values ∧
      t'.IsHashed (.localIdx 0) := by
  have hpf := h.prefixFree hK
  obtain ⟨hm, n, L, hrep, hn, hg⟩ := h
  obtain ⟨t', h1, hvals, hrep', hh⟩ := rootHash_spec hR parallel hs hrep hn
  refine ⟨t', ?_, ⟨hm, n, L, hrep', hn, hg⟩, hvals, hh⟩
  rw [h1, mptRoot, eq_ofMap hn hpf hg]

/-- A proof lists the nodes of the map's trie along the key. -/
theorem holds_getProof_trail (hK : PrefixFree K) (hR : RemotePtrs keccak store R)
    (h : Holds (nodeCodec keccak) R K t m) (hh : t.IsHashed (.localIdx 0)) (q : Nibbles) :
    t.getProofNibblesKey store q = .ok ⟨proofOf keccak ((ofMap m).trail [] q), m.lookup q⟩ ∨
      t.getProofNibblesKey store q = .error (.nodeNotFound q) := by
  have hpf := h.prefixFree hK
  obtain ⟨hm, n, L, hrep, hn, hg⟩ := h
  rw [← eq_ofMap hn hpf hg, ← hg]
  exact getProofNibblesKey_spec hR hrep hh hn q

theorem opensRoot_ofMap (hm : PrefixFree {k | k ∈ m}) (q : Nibbles) :
    OpensRoot keccak (mptRoot keccak m) q
      ((proofOf keccak ((ofMap m).trail [] q)).map Prod.snd) (m.lookup q) := by
  rw [← get_ofMap hm]
  exact opensRoot_trail (ofMap m) q

theorem holds_newEmpty : Holds C R K newEmpty ∅ := by
  refine ⟨fun k hk => absurd hk (notMem_empty k), .null, ⟨fun _ => [], fun _ => []⟩, ?_,
    Or.inl rfl, fun q => by simp⟩
  have hget : newEmpty.nodes[0]? = some ⟨.null, false, []⟩ := rfl
  exact .null hget rfl (by simp)

/-! ## Sequences of insertions and deletions -/

/-- The operations of a trie that needs no proofs. -/
inductive TrieOp where
  | insert (key value : Bytes)
  | insertNibbleKey (key : Nibbles) (value : Bytes)
  | delete (key : Bytes)
  | deleteNibblesKey (key : Nibbles)

/-- The nibbles an operation is about. -/
def TrieOp.nibbles : TrieOp → Nibbles
  | .insert key _ => unpack key
  | .insertNibbleKey key _ => key
  | .delete key => unpack key
  | .deleteNibblesKey key => key

/-- The old value an operation returns, read from the trie it leaves behind. -/
def readResult (t : Trie) : Except TrieError (Option Range) → Except TrieError (Option Bytes)
  | .error e => .error e
  | .ok old =>
    match t.readValue old with
    | some v => .ok v
    | none => .error .panic

def apply (t : Trie) : TrieOp → Trie × Except TrieError (Option Bytes)
  | .insert key value =>
    let (t, res) := t.insert key value
    (t, t.readResult res)
  | .insertNibbleKey key value =>
    let (t, res) := t.insertNibbleKey key (.value value)
    (t, t.readResult res)
  | .delete key =>
    let (t, res) := t.delete key
    (t, t.readResult (res.map some))
  | .deleteNibblesKey key =>
    let (t, res) := t.deleteNibblesKey key
    (t, t.readResult (res.map some))

/-- The trie after a sequence of operations and what each of them returned. -/
def run : Trie → List TrieOp → Trie × List (Except TrieError (Option Bytes))
  | t, [] => (t, [])
  | t, op :: ops =>
    let (t, res) := t.apply op
    let (t, results) := run t ops
    (t, res :: results)

/-- Insertion into a map, with the old value. -/
def mapInsert (m : MptMap) (k : Nibbles) (v : Bytes) : MptMap × Except TrieError (Option Bytes) :=
  (m.insert k v, .ok (m.lookup k))

/-- Deletion from a map, with the old value. -/
def mapDelete (m : MptMap) (k : Nibbles) : MptMap × Except TrieError (Option Bytes) :=
  match m.lookup k with
  | some v => (m.erase k, .ok (some v))
  | none => (m, .error .keyNotFound)

/-- The same operation on a map. -/
def mapApply (m : MptMap) : TrieOp → MptMap × Except TrieError (Option Bytes)
  | .insert key value => mapInsert m (unpack key) value
  | .insertNibbleKey key value => mapInsert m key value
  | .delete key => mapDelete m (unpack key)
  | .deleteNibblesKey key => mapDelete m key

def mapRun : MptMap → List TrieOp → MptMap × List (Except TrieError (Option Bytes))
  | m, [] => (m, [])
  | m, op :: ops =>
    let (m, res) := mapApply m op
    let (m, results) := mapRun m ops
    (m, res :: results)

/-- No remote pointers. -/
def NoRemote : Nibbles → Nat → MptNode → Prop := fun _ _ _ => False

theorem not_blocked : ¬ Blocked NoRemote p q := fun ⟨_, _, _, _, h⟩ => h

theorem insertNibbleKey_eq_mapInsert (hK : PrefixFree K) (h : Holds C NoRemote K t m)
    (hk : k ∈ K) (v : Bytes) :
    ∃ t' old, t.insertNibbleKey k (.value v) = (t', .ok old) ∧
      t'.readResult (.ok old) = (mapInsert m k v).2 ∧
      Holds C NoRemote K t' (mapInsert m k v).1 := by
  have hv : (InsertValue.value v).Denotes t v := rfl
  exact (holds_insert hK h hk hv).elim
    (fun t' old hins => ⟨t', old, rfl, by simp [readResult, hins.2.1, mapInsert], hins.1⟩)
    fun _ _ hins => absurd hins.2.2.1 not_blocked

theorem deleteNibblesKey_eq_mapDelete (h : Holds C NoRemote K t m) (k : Nibbles) :
    ∃ t' res, t.deleteNibblesKey k = (t', res) ∧
      t'.readResult (res.map some) = (mapDelete m k).2 ∧
      Holds C NoRemote K t' (mapDelete m k).1 := by
  refine (holds_delete h k).elim (fun t' old hdel => ?_) fun t' e hdel => ?_
  · obtain ⟨v, hv, hread, hh, _⟩ := hdel
    refine ⟨t', _, rfl, ?_, ?_⟩
    · simp [mapDelete, hv, readResult, readValue, hread, Except.map]
    · simpa [mapDelete, hv] using hh
  obtain ⟨⟨rfl, hnone⟩ | ⟨path, _, hb⟩, hh, _⟩ := hdel
  · refine ⟨t', _, rfl, ?_, ?_⟩
    · simp [mapDelete, hnone, readResult, Except.map]
    · simpa [mapDelete, hnone] using hh
  · exact absurd hb not_blocked

/-- One operation. -/
theorem apply_eq_mapApply (hK : PrefixFree K) (h : Holds C NoRemote K t m) {op : TrieOp}
    (hop : op.nibbles ∈ K) :
    (t.apply op).2 = (mapApply m op).2 ∧ Holds C NoRemote K (t.apply op).1 (mapApply m op).1 := by
  cases op with
  | insert key value =>
    obtain ⟨t', old, he, hres, hh⟩ := insertNibbleKey_eq_mapInsert hK h hop value
    simp only [apply, insert, TrieOp.nibbles] at he ⊢
    rw [he]
    exact ⟨hres, hh⟩
  | insertNibbleKey key value =>
    obtain ⟨t', old, he, hres, hh⟩ := insertNibbleKey_eq_mapInsert hK h hop value
    simp only [apply, TrieOp.nibbles] at he ⊢
    rw [he]
    exact ⟨hres, hh⟩
  | delete key =>
    obtain ⟨t', res, he, hres, hh⟩ := deleteNibblesKey_eq_mapDelete h (unpack key)
    simp only [apply, delete, he]
    exact ⟨hres, hh⟩
  | deleteNibblesKey key =>
    obtain ⟨t', res, he, hres, hh⟩ := deleteNibblesKey_eq_mapDelete h key
    simp only [apply, he]
    exact ⟨hres, hh⟩

/-- All operations of a sequence. -/
theorem run_eq_mapRun (hK : PrefixFree K) (ops : List TrieOp)
    (hops : ∀ op ∈ ops, op.nibbles ∈ K) (h : Holds C NoRemote K t m) :
    (t.run ops).2 = (mapRun m ops).2 ∧ Holds C NoRemote K (t.run ops).1 (mapRun m ops).1 := by
  induction ops generalizing t m with
  | nil => exact ⟨rfl, h⟩
  | cons op ops ih =>
    obtain ⟨hres, hh⟩ := apply_eq_mapApply hK h (hops op mem_cons_self)
    obtain ⟨hres', hh'⟩ := ih (fun o ho => hops o (mem_cons_of_mem _ ho)) hh
    exact ⟨by simp [run, mapRun, hres, hres'], hh'⟩

theorem rootHash_run (hK : PrefixFree K) (parallel : Bool)
    (hs : ∀ i, (schedule i).Perm (finRange 16)) (ops : List TrieOp)
    (hops : ∀ op ∈ ops, op.nibbles ∈ K) :
    ((newEmpty.run ops).1.rootHash keccak parallel schedule store).2 =
      .ok (mptRoot keccak (mapRun ∅ ops).1) := by
  obtain ⟨_, hh⟩ := run_eq_mapRun (C := nodeCodec keccak) hK ops hops holds_newEmpty
  have hR : RemotePtrs keccak store NoRemote := fun _ _ _ h => h.elim
  obtain ⟨t', he, _⟩ := holds_rootHash hK hR hh parallel hs
  rw [he]

/-- The root of a map depends on its lookups only. -/
theorem mptRoot_congr {m : MptMap} (h : PrefixFree {k | k ∈ m})
    (hl : ∀ k, m.lookup k = m'.lookup k) : mptRoot keccak m = mptRoot keccak m' := by
  have hset : {k | k ∈ m} = {k | k ∈ m'} := by
    ext k
    show k ∈ m ↔ k ∈ m'
    rw [← lookup_isSome, ← lookup_isSome, hl]
  have h' : PrefixFree {k | k ∈ m'} := hset ▸ h
  unfold mptRoot
  rw [eq_ofMap (wellFormed_ofMap h) h' fun q => by
    rw [get_ofMap h, hl]]

/-- A trie filled by insertions and deletions is a map with the reference root: every
    operation returns what it returns on the map, and the root hash of the trie is the root
    of the map, whatever sequence led to it. -/
theorem trie_canonical_map (keccak : Bytes → B256) (store : ProofStore) {K : Set Nibbles}
    (hK : PrefixFree K) (parallel : Bool) (schedule : Nat → List Nibble)
    (hs : ∀ i, (schedule i).Perm (finRange 16)) (ops : List TrieOp)
    (hops : ∀ op ∈ ops, op.nibbles ∈ K) :
    (newEmpty.run ops).2 = (mapRun ∅ ops).2 ∧
    ((newEmpty.run ops).1.rootHash keccak parallel schedule store).2 =
      .ok (mptRoot keccak (mapRun ∅ ops).1) ∧
    ∀ ops', (∀ op ∈ ops', op.nibbles ∈ K) →
      (∀ k, (mapRun ∅ ops').1.lookup k = (mapRun ∅ ops).1.lookup k) →
      ((newEmpty.run ops').1.rootHash keccak parallel schedule store).2 =
        ((newEmpty.run ops).1.rootHash keccak parallel schedule store).2 := by
  have hrun := fun ops hops => run_eq_mapRun (C := nodeCodec keccak) hK ops hops holds_newEmpty
  refine ⟨(hrun ops hops).1, rootHash_run hK parallel hs ops hops, ?_⟩
  intro ops' hops' hsame
  rw [rootHash_run hK parallel hs ops hops, rootHash_run hK parallel hs ops' hops',
    mptRoot_congr ((hrun ops' hops').2.prefixFree hK) hsame]

/-- `keccak256` of the root branch over the keys `01` and `12` with the values `a` and `b`. -/
def twoLeavesKeccak : Bytes → B256 := fun rlp =>
  if rlp = [0xd5, 0xc2, 0x31, 0x61, 0xc2, 0x32, 0x62] ++ replicate 15 0x80 then
    #v[133, 9, 152, 144, 187, 172, 11, 130, 136, 207, 208, 244, 42, 144, 38, 164, 240, 86, 236,
      153, 100, 253, 244, 50, 224, 51, 177, 130, 1, 23, 9, 5]
  else B256.zero

/-- Three keys of one byte; the last deletion collapses the branch below nibble `1`. -/
def collapseOps : List TrieOp :=
  [.insert [0x01] [0x61], .insert [0x12] [0x62], .insert [0x13] [0x63], .delete [0x13],
    .delete [0x13]]

theorem trie_canonical_map_collapse :
    (newEmpty.run collapseOps).2 =
      [.ok none, .ok none, .ok none, .ok (some [0x63]), .error .keyNotFound] ∧
    ((newEmpty.run collapseOps).1.rootHash twoLeavesKeccak true (fun _ => finRange 16)
      {}).2 = .ok (twoLeavesKeccak ([0xd5, 0xc2, 0x31, 0x61, 0xc2, 0x32, 0x62] ++
        replicate 15 0x80)) := by
  have h := trie_canonical_map twoLeavesKeccak {} (Patricia.prefixFree_of_length 2) true
    (fun _ => finRange 16) (fun _ => List.Perm.refl _) collapseOps
    (by simp [collapseOps, TrieOp.nibbles, unpack])
  exact ⟨h.1.trans (by decide), h.2.1.trans (by decide)⟩

end Trie

end SparseMpt
