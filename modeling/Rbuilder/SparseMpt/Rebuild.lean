/-
  A trie rebuilt from a proof.

  The nodes of a proof are added root first to an empty trie. `Awaits key next`: every remote
  pointer of the trie so far is off the way to `key`, but for the one at `next`, which the
  next node of the proof replaces. After the last node no remote pointer is on the way, so an
  insertion at `key` meets none.
-/
import Rbuilder.SparseMpt.PartialTrie

namespace SparseMpt

open Patricia
open ProofStore (Decodes IsBaseProof Known Parsed StoreOk)
open Patricia.Node List Trie

variable {C : Codec Nibble Bytes Bytes} {base n n' : MptNode} {store : ProofStore}
  {key p insKey : Nibbles} {keccak : Bytes → B256} {decode : Bytes → Option AlloyTrieNode}

namespace Trie

variable {t : Trie} {L : Labels}

/-- The remote pointers on the way to the key are at one path. -/
def Awaits (C : Codec Nibble Bytes Bytes) (base : MptNode) (store : ProofStore) (key : Nibbles)
    (next : Option Nibbles) (l : Nibbles) (r : Nat) (n : MptNode) : Prop :=
  Known C base store l r n ∧ (l <+: key → next = some l)

/-- The stored node is the node of the trail. -/
def Listed (C : Codec Nibble Bytes Bytes) (store : ProofStore) (e : Nibbles × MptNode)
    (d : Nibbles × ProofNode) : Prop :=
  d.1 = e.1 ∧ store.Matches C e.2 d.2

/-- The awaited node is added. -/
theorem addNodeFromProof_awaited (hb : base.WellFormed) {next : Option Nibbles} {node : ProofNode}
    (h : Rep C (Awaits C base store key (some p)) t L base [] (.localIdx 0))
    (hp : base.subnode p = some n) (hkey : p <+: key) (hm : store.Matches C n node)
    (hnext : ∀ l, n.ChildAt p l → l <+: key → next = some l) :
    ∃ t' L', t.addNodeFromProof store p node = (t', .ok ()) ∧
      Rep C (Awaits C base store key next) t' L' base [] (.localIdx 0) := by
  have hclear : Clears (Awaits C base store key (some p)) (Awaits C base store key next) p :=
    fun l r c hl hne => ⟨hl.1, fun hpre => absurd (Option.some.inj (hl.2 hpre)).symm hne⟩
  obtain ⟨t', L', _, ⟨he, hrep⟩ | ⟨_, _, hwhy⟩⟩ := addNodeFromProof_clears hb h hb
    (fun _ _ _ hl => hl.1) (Or.inr hp) hm hclear fun l r c hl hc => ⟨hl, hnext l hc⟩
  · exact ⟨t', L', he, hrep⟩
  rcases hwhy with hnone | ⟨s, r, m, hs, hne, hsr⟩
  · rw [hp] at hnone
    cases hnone
  · exact absurd (Option.some.inj (hsr.2 (hs.trans hkey))).symm hne

/-- The rest of the nodes of a proof is added. -/
theorem addNodes_trail (hb : base.WellFormed) (nodes : List (Nibbles × ProofNode)) :
    ∀ {n : MptNode} {p q : Nibbles} {t : Trie} {L : Labels}, p ++ q = key →
      base.subnode p = some n → List.Forall₂ (Listed C store) (n.trail p q) nodes →
      Rep C (Awaits C base store key (some p)) t L base [] (.localIdx 0) →
      ∃ t' L', t.addNodes store nodes = (t', .ok ()) ∧
        Rep C (Awaits C base store key none) t' L' base [] (.localIdx 0) := by
  induction nodes with
  | nil =>
    intro n p q t L _ hp hnodes _
    obtain ⟨rest, htrail, _⟩ := trail_cases (canonical_of_subnode hb hp) hp q
    rw [htrail] at hnodes
    cases hnodes
  | cons d nodes ih =>
    rintro n p q t L rfl hp hnodes hrep
    obtain ⟨rest, htrail, hrest⟩ := trail_cases (canonical_of_subnode hb hp) hp q
    rw [htrail] at hnodes
    obtain ⟨⟨rfl, hm⟩, hnodes'⟩ := forall₂_cons.mp hnodes
    rcases hrest with ⟨rfl, hend⟩ | ⟨c, p', q', rfl, hkey, hc, hnext⟩
    · obtain ⟨t', L', he, hrep'⟩ := addNodeFromProof_awaited hb hrep hp (prefix_append ..)
        hm fun l hl hpre => absurd hpre (hend l hl)
      obtain rfl := forall₂_nil_left_iff.mp hnodes'
      exact ⟨t', L', by simp only [addNodes, he], hrep'⟩
    obtain ⟨t1, L1, he, hrep1⟩ := addNodeFromProof_awaited hb hrep hp (prefix_append ..)
      hm fun l hl hpre => congrArg some (hnext l hl hpre).symm
    obtain ⟨t', L', he', hrep'⟩ := ih hkey hc hnodes' hrep1
    exact ⟨t', L', by simp only [addNodes, he, he'], hrep'⟩

/-- All nodes of a proof are added to an empty trie. -/
theorem addNodes_empty (hb : base.WellFormed) {nodes : List (Nibbles × ProofNode)}
    (hnodes : List.Forall₂ (Listed C store) (base.trail [] key) nodes) :
    ∃ t' L', ({} : Trie).addNodes store nodes = (t', .ok ()) ∧
      Rep C (Awaits C base store key none) t' L' base [] (.localIdx 0) := by
  have hroot : BaseNode base [] base := by
    rcases hb with rfl | hb
    · exact Or.inl ⟨rfl, rfl, rfl⟩
    · exact Or.inr (subnode_nil hb.ne_null)
  have hcases : ∃ rest, base.trail [] key = ([], base) :: rest ∧
      ((rest = [] ∧ ∀ l, base.ChildAt [] l → ¬ l <+: key) ∨
        ∃ c p q, rest = c.trail p q ∧ p ++ q = key ∧ base.subnode p = some c ∧
          ∀ l, base.ChildAt [] l → l <+: key → l = p) := by
    rcases hb with rfl | hb
    · exact ⟨[], rfl, Or.inl ⟨rfl, fun _ h => h.elim⟩⟩
    · exact trail_cases hb (subnode_nil hb.ne_null) key
  obtain ⟨rest, htrail, hrest⟩ := hcases
  rw [htrail] at hnodes
  obtain ⟨⟨path, node⟩, nodes, ⟨rfl, hm⟩, hnodes', rfl⟩ := forall₂_cons_left_iff.mp hnodes
  rcases addNodeFromProof_uninit hb (t := {}) rfl hroot hm with ⟨t1, L1, he, hrep, _⟩ | ⟨hne, _⟩
  · rcases hrest with ⟨rfl, hend⟩ | ⟨c, p, q, rfl, hkey, hc, hnext⟩
    · obtain rfl := forall₂_nil_left_iff.mp hnodes'
      refine ⟨t1, L1, by simp only [addNodes, he], hrep.mono fun l r n hl => ⟨hl.1, fun hpre => ?_⟩⟩
      exact absurd hpre (hend l hl.2)
    have hrep1 : Rep C (Awaits C base store key (some p)) t1 L1 base [] (.localIdx 0) :=
      hrep.mono fun l r n hl => ⟨hl.1, fun hpre => congrArg some (hnext l hl.2 hpre).symm⟩
    obtain ⟨t', L', he', hrep'⟩ := addNodes_trail hb nodes hkey hc hnodes' hrep1
    exact ⟨t', L', by simp only [addNodes, he, he'], hrep'⟩
  · exact absurd rfl hne

/-- An insertion fails the same way whatever it inserts. -/
theorem insertLoop_error {iv : InsertValue} (iv' : InsertValue) {e : TrieError}
    {fuel : Nat} {t : Trie} {cur walked : Nat}
    (h : (insertLoop insKey iv fuel t cur walked).2 = .error e) :
    (insertLoop insKey iv' fuel t cur walked).2 = .error e := by
  induction fuel generalizing t cur walked with
  | zero => exact h
  | succ fuel ih =>
    simp only [insertLoop] at h ⊢
    split at h
    · exact h
    split at h
    · split at h
      · split at h
        · exact ih h
        · exact h
        · cases h
      · exact h
    · split at h
      · exact h
      split at h
      · next hpre =>
          rw [if_pos hpre]
          split at h
          · exact ih h
          · exact h
      · next hpre =>
          rw [if_neg hpre]
          split at h
          · exact h
          · cases h
    · split at h
      · exact h
      split at h
      · cases h
      · next hkey =>
          rw [if_neg hkey]
          split at h
          · exact h
          · cases h
    · cases h

end Trie

/-- A new trie can be built from a proof: it has the root, and an insertion at the key finds
    every node on its way. -/
def Rebuilds (keccak : Bytes → B256) (decode : Bytes → Option AlloyTrieNode) (key : Nibbles)
    (proof : List (Nibbles × Bytes)) (root : B256) : Prop :=
  ∃ store t, ({} : ProofStore).addProof decode key proof = (store, true) ∧
    ({} : Trie).tryAddProofFromProofStore store key = (t, .ok true) ∧
    (∀ parallel (schedule : Nat → List Nibble),
      (∀ i, (schedule i).Perm (finRange 16)) →
        (t.rootHash keccak parallel schedule store).2 = .ok root) ∧
    ∀ iv path, (t.insertNibbleKey key iv).2 ≠ .error (.nodeNotFound path)

theorem BaseNode.eq (h : BaseNode base p n) (h' : BaseNode base p n') : n = n' := by
  rcases h with ⟨rfl, rfl, rfl⟩ | h
  · rcases h' with ⟨_, _, rfl⟩ | h'
    · rfl
    · cases h'
  · rcases h' with ⟨rfl, rfl, rfl⟩ | h'
    · cases h
    · exact Option.some.inj (h.symm.trans h')

/-- The store made from the proof of a key lists its nodes. -/
theorem addProof_trail (hb : base.WellFormed) (hdec : Decodes (nodeCodec keccak) base decode)
    (key : Nibbles) :
    ∃ store nodes, ({} : ProofStore).addProof decode key
        (proofOf keccak (base.trail [] key)) = (store, true) ∧
      store.proofs.lookup key = some nodes ∧
      List.Forall₂ (Trie.Listed (nodeCodec keccak) store) (base.trail [] key) nodes := by
  obtain ⟨store, nodes, hparse, _, hnodes⟩ :=
    ProofStore.parseProof_spec hdec _ (isBaseProof_trail keccak hb key) {}
  have hnone : ({} : ProofStore).hasProof key = false := rfl
  refine ⟨{ store with proofs := store.proofs.insert key nodes }, nodes, ?_, AList.lookup_insert _,
    ?_⟩
  · simp only [ProofStore.addProof, hnone, Bool.false_eq_true, if_false, hparse]
  -- the stored nodes are those of the trail, one by one
  rw [proofOf, forall₂_map_left_iff] at hnodes
  have hboth := (forall₂_and_left (base.trail [] key) nodes).mpr
    ⟨fun e he => baseNode_trail hb he, hnodes⟩
  refine hboth.imp ?_
  rintro e d ⟨he, hd, n, hn, hm⟩
  obtain rfl := he.eq hn
  exact ⟨hd, hm⟩

theorem rebuilds_ofMap {m : MptMap} (hm : ∀ k, k ∈ m → k.length = 64)
    (hdec : Decodes (nodeCodec keccak) (Patricia.ofMap m) decode) (hkey : key.length = 64) :
    Rebuilds keccak decode key (proofOf keccak ((Patricia.ofMap m).trail [] key))
      (mptRoot keccak m) := by
  have hb := Patricia.wellFormed_ofMap (prefixFree_base hm)
  obtain ⟨store, nodes, hadd, hlookup, hnodes⟩ := addProof_trail hb hdec key
  obtain ⟨t, L, he, hrep⟩ := addNodes_empty hb hnodes
  refine ⟨store, t, hadd, by simp only [tryAddProofFromProofStore, hlookup, he], ?_, ?_⟩
  · intro parallel schedule hs
    have hR : Trie.RemotePtrs keccak store
        (Trie.Awaits (nodeCodec keccak) (Patricia.ofMap m) store key none) :=
      fun _ _ _ h => h.1.2
    obtain ⟨t', hroot, _⟩ := rootHash_spec hR parallel hs hrep hb
    rw [hroot]
    rfl
  intro iv path hfail
  have hfail' : (t.insertNibbleKey key (.value [])).2 = .error (.nodeNotFound path) :=
    insertLoop_error (.value []) hfail
  have hholds : Trie.Holds (nodeCodec keccak)
      (Trie.Awaits (nodeCodec keccak) (Patricia.ofMap m) store key none) keys64 t m :=
    ⟨hm, _, L, hrep, hb, fun q => Patricia.get_ofMap (prefixFree_base hm) q⟩
  have hv : (InsertValue.value []).Denotes t [] := rfl
  have hins := holds_insert (Patricia.prefixFree_of_length 64) hholds hkey hv
  generalize t.insertNibbleKey key (.value []) = res at hins hfail'
  obtain ⟨t', res⟩ := res
  cases hfail'
  obtain ⟨s, r, n, hs, hr⟩ := hins.2.2.1
  cases hr.2 hs

/-- What a proof says after hashing, on every reachable state: extraction never meets a node
    that is not hashed, and a proof it returns opens the lookup of the key in the current map
    against the root just computed and rebuilds a trie with that root around the key. -/
theorem proof_opens_and_rebuilds (keccak : Bytes → B256)
    (decode : Bytes → Option AlloyTrieNode) {M : MptMap} (hM : ∀ k, k ∈ M → k.length = 64)
    (hdec : Decodes (nodeCodec keccak) (Patricia.ofMap M) decode) {s : PartialState}
    {m : MptMap} (hr : Reach keccak decode M s m)
    (hdecm : Decodes (nodeCodec keccak) (Patricia.ofMap m) decode) (parallel : Bool)
    (schedule : Nat → List Nibble) (hs : ∀ i, (schedule i).Perm (finRange 16))
    {key : Nibbles} (hkey : key.length = 64) :
    let (trie, root) := s.trie.rootHash keccak parallel schedule s.store
    trie.getProofNibblesKey s.store key ≠ .error .trieIsDirty ∧
      ∀ proof value, trie.getProofNibblesKey s.store key = .ok ⟨proof, value⟩ →
        value = m.lookup key ∧ ∃ hash, root = .ok hash ∧
          Trie.OpensRoot keccak hash key (proof.map Prod.snd) value ∧
          Rebuilds keccak decode key proof hash := by
  obtain ⟨_, hsim⟩ := invariant_reach hM hdec hr
  have hK : PrefixFree keys64 := Patricia.prefixFree_of_length 64
  rcases simulates_rootHash hK hsim parallel hs with ⟨hnil, he⟩ | ⟨t, he, hh, _, hhashed⟩
  · have hproof : s.trie.getProofNibblesKey s.store key = .error (.nodeNotFound key) := by
      simp [getProofNibblesKey, getProofLoop, hnil]
    rw [he]
    simp only [hproof]
    exact ⟨by simp, fun _ _ h => by cases h⟩
  rw [he]
  rcases holds_getProof_trail hK (remotePtrs_known keccak _ _) hh hhashed key with
    hproof | hproof
  · simp only [hproof]
    refine ⟨by simp, ?_⟩
    intro proof value h
    cases h
    exact ⟨rfl, _, rfl, opensRoot_ofMap (hh.prefixFree hK) key, rebuilds_ofMap hh.1 hdecm hkey⟩
  · simp only [hproof]
    exact ⟨by simp, fun _ _ h => by cases h⟩

theorem proof_opens_and_rebuilds_halfRevealed :
    ∃ proof hash, proof.length = 2 ∧
      Trie.OpensRoot emptyRootKeccak hash (leafKey 0) (proof.map Prod.snd) (some [0x61]) ∧
      Rebuilds emptyRootKeccak decodeTwoLeaves (leafKey 0) proof hash := by
  have hkey : (leafKey 0).length = 64 := rfl
  have h := proof_opens_and_rebuilds emptyRootKeccak decodeTwoLeaves length_of_mem_twoLeaves
    decodes_twoLeaves (Reach.reveal .init 0) decodes_twoLeaves true (fun _ => finRange 16)
    (fun _ => List.Perm.refl _) hkey
  obtain ⟨proof, value, hproof, hlength⟩ : ∃ proof value,
      (halfRevealed.trie.rootHash emptyRootKeccak true (fun _ => finRange 16)
        halfRevealed.store).1.getProofNibblesKey halfRevealed.store (leafKey 0) =
          .ok ⟨proof, value⟩ ∧ proof.length = 2 := ⟨_, _, rfl, rfl⟩
  obtain ⟨rfl, hash, _, hopen, hrebuild⟩ := h.2 proof value hproof
  exact ⟨proof, hash, hlength, hopen, hrebuild⟩

/-! ## Tries with one root -/


/-- A reachable state of a trie, hashed to `trie` with this root. -/
structure HashedTo (keccak : Bytes → B256) (decode : Bytes → Option AlloyTrieNode)
    (s : PartialState) (m : MptMap) (trie : Trie) (root : B256) : Prop where
  reach : ∃ M, (∀ k, k ∈ M → k.length = 64) ∧
    Decodes (nodeCodec keccak) (ofMap M) decode ∧ Reach keccak decode M s m
  decodes : Decodes (nodeCodec keccak) (ofMap m) decode
  hashed : ∃ parallel schedule, (∀ i, (schedule i).Perm (finRange 16)) ∧
    s.trie.rootHash keccak parallel schedule s.store = (trie, .ok root)

variable {s s' : PartialState} {m m' : MptMap} {trie trie' : Trie} {root : B256}

theorem HashedTo.spec (h : HashedTo keccak decode s m trie root) :
    root = mptRoot keccak m ∧ PrefixFree {k | k ∈ m} ∧ ∀ {key a},
      trie.getProofNibblesKey s.store key = .ok a →
        a = ⟨proofOf keccak ((ofMap m).trail [] key), m.lookup key⟩ := by
  obtain ⟨⟨M, hM, hdec, hr⟩, -, parallel, schedule, hs, he⟩ := h
  have hK : PrefixFree keys64 := prefixFree_of_length 64
  obtain ⟨-, he'⟩ | ⟨t, he', hh, -, hhashed⟩ :=
    simulates_rootHash hK (invariant_reach hM hdec hr).trie parallel hs
  · cases he.symm.trans he'
  cases he.symm.trans he'
  refine ⟨rfl, hh.prefixFree hK, fun {key a} ha => ?_⟩
  obtain hproof | hproof :=
    holds_getProof_trail hK (remotePtrs_known keccak _ _) hh hhashed key
  · exact Except.ok.inj (ha.symm.trans hproof)
  · cases ha.symm.trans hproof

/-- Tries with one root hash hold the same map and return the same proofs, whatever was
    revealed, inserted, deleted and hashed to reach them. -/
theorem root_determines_proofs (h : HashedTo keccak decode s m trie root)
    (h' : HashedTo keccak decode s' m' trie' root)
    (hsep : Separates keccak (ofMap m) (ofMap m')) :
    (∀ k, m.lookup k = m'.lookup k) ∧ ∀ key a a',
      trie.getProofNibblesKey s.store key = .ok a →
      trie'.getProofNibblesKey s'.store key = .ok a' → a = a' := by
  obtain ⟨hroot, hm, hproof⟩ := h.spec
  obtain ⟨hroot', hm', hproof'⟩ := h'.spec
  have heq : ofMap m = ofMap m' :=
    eq_of_encode_eq (wellFormed_ofMap hm) (wellFormed_ofMap hm') h.decodes
      h'.decodes hsep (baseNode_nil _) (baseNode_nil _)
      (hsep [] _ [] _ (baseNode_nil _) (baseNode_nil _) (hroot.symm.trans hroot'))
  have hlookup (k : Nibbles) : m.lookup k = m'.lookup k := by
    rw [← get_ofMap hm, heq, get_ofMap hm']
  refine ⟨hlookup, fun key a a' ha ha' => ?_⟩
  rw [hproof ha, hproof' ha', heq, hlookup]

/-- The other leaf is revealed in one of the tries only. -/
theorem root_determines_proofs_revealed :
    let hashed (s : PartialState) :=
      (s.trie.rootHash emptyRootKeccak true (fun _ => finRange 16) s.store).1
    let s := halfRevealed.run [leafProof 1, .tryAddProof (leafKey 1)]
    (hashed halfRevealed).getProofNibblesKey halfRevealed.store (leafKey 0) =
      (hashed s).getProofNibblesKey s.store (leafKey 0) := by
  have hsep : Separates emptyRootKeccak (ofMap twoLeaves) (ofMap twoLeaves) :=
    ofMap_twoLeaves ▸ separates_leafPair nodup_twoLeaves
  have hashedTo {s : PartialState} (hr : Reach emptyRootKeccak decodeTwoLeaves twoLeaves s twoLeaves)
      (he : (s.trie.rootHash emptyRootKeccak true (fun _ => finRange 16) s.store).2 =
        .ok (mptRoot emptyRootKeccak twoLeaves)) :=
    (⟨⟨_, length_of_mem_twoLeaves, decodes_twoLeaves, hr⟩, decodes_twoLeaves, true, _,
      fun _ => .refl _, Prod.ext rfl he⟩ : HashedTo emptyRootKeccak decodeTwoLeaves s twoLeaves _ _)
  have h := root_determines_proofs (hashedTo (Reach.reveal .init 0) (by decide +kernel))
    (hashedTo ((Reach.reveal .init 0).reveal 1) (by decide +kernel)) hsep
  exact congrArg Except.ok (h.2 (leafKey 0) _ _ rfl rfl)

end SparseMpt
