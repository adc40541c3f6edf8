/-
  The root of a map determines the map.

  Where the encodings of the nodes of two tries can be read back and `keccak256` does not
  send two of them to one hash, equal roots come from equal tries (`eq_of_rootOf_eq`), so
  from maps with equal lookups.
-/
import Rbuilder.SparseMpt.AddProof

namespace SparseMpt

open ProofStore (Decodes)
open Patricia.Node Patricia

variable {keccak : Bytes → B256} {base base' : MptNode}

/-- No node of `base` and node of `base'` with different encodings have the same hash. -/
def Separates (keccak : Bytes → B256) (base base' : MptNode) : Prop :=
  ∀ p n p' n', BaseNode base p n → BaseNode base' p' n' →
    keccak (n.encode (nodeCodec keccak)) = keccak (n'.encode (nodeCodec keccak)) →
    n.encode (nodeCodec keccak) = n'.encode (nodeCodec keccak)

/-- A pointer is the encoding or its hash, and shows which. -/
theorem rlpPointer_eq {x y : Bytes} (h : rlpPointer keccak x = rlpPointer keccak y) :
    x = y ∨ keccak x = keccak y := by
  unfold rlpPointer at h
  by_cases hx : x.length < 32
  · rw [if_pos hx] at h
    by_cases hy : y.length < 32
    · rw [if_pos hy] at h
      exact .inl h
    · rw [if_neg hy] at h
      rw [h, List.length_cons, Vector.length_toList] at hx
      omega
  rw [if_neg hx] at h
  by_cases hy : y.length < 32
  · rw [if_pos hy] at h
    rw [← h, List.length_cons, Vector.length_toList] at hy
    omega
  · rw [if_neg hy] at h
    exact .inr (Vector.toList_inj.mp (List.cons.inj h).2)

variable {decode : Bytes → Option AlloyTrieNode}

/-- Nodes with one encoding are one node. -/
theorem eq_of_encode_eq (hb : base.WellFormed) (hb' : base'.WellFormed)
    (hdec : Decodes (nodeCodec keccak) base decode)
    (hdec' : Decodes (nodeCodec keccak) base' decode) (hsep : Separates keccak base base')
    {n n' : MptNode} {p p' : Nibbles} (hn : BaseNode base p n) (hn' : BaseNode base' p' n')
    (h : n.encode (nodeCodec keccak) = n'.encode (nodeCodec keccak)) : n = n' := by
  -- a pointer to a child determines its encoding
  have hptr {c c' : MptNode} {q q' : Nibbles} (hc : base.subnode q = some c)
      (hc' : base'.subnode q' = some c')
      (heq : c.ptr (nodeCodec keccak) = c'.ptr (nodeCodec keccak)) :
      c.encode (nodeCodec keccak) = c'.encode (nodeCodec keccak) :=
    (rlpPointer_eq heq).elim id (hsep q c q' c' (.inr hc) (.inr hc'))
  have hview : view (nodeCodec keccak) n = view (nodeCodec keccak) n' := by
    have hread := hdec p n hn
    rw [h, hdec' p' n' hn'] at hread
    exact (Option.some.inj hread).symm
  induction n generalizing n' p p' with
  | null =>
    cases n' with
    | null => rfl
    | leaf k v | ext k c | branch ch => cases hview
  | leaf k v =>
    cases n' with
    | leaf k' v' =>
      obtain ⟨rfl, rfl⟩ := AlloyTrieNode.leaf.inj hview
      rfl
    | null | ext k' c' | branch ch' => cases hview
  | ext k c ih =>
    cases n' with
    | ext k' c' =>
      obtain ⟨rfl, hchild⟩ := AlloyTrieNode.extension.inj hview
      obtain ⟨-, -, hnull⟩ | hsub := hn
      · cases hnull
      obtain ⟨-, -, hnull⟩ | hsub' := hn'
      · cases hnull
      have hcan := Trie.canonical_of_subnode hb hsub
      have hcan' := Trie.canonical_of_subnode hb' hsub'
      have hc := subnode_next hsub hcan.1 hcan.2.2.ne_null
      have hc' := subnode_next hsub' hcan'.1 hcan'.2.2.ne_null
      have henc := hptr hc hc' hchild
      have hread := hdec _ c (.inr hc)
      rw [henc, hdec' _ c' (.inr hc')] at hread
      rw [ih (.inr hc) (.inr hc') henc (Option.some.inj hread).symm]
    | null | leaf k' v' | branch ch' => cases hview
  | branch ch ih =>
    cases n' with
    | branch ch' =>
      have hchildren := AlloyTrieNode.branch.inj hview
      obtain ⟨-, -, hnull⟩ | hsub := hn
      · cases hnull
      obtain ⟨-, -, hnull⟩ | hsub' := hn'
      · cases hnull
      have hsame : ch = ch' := by
        funext j
        have hj := congrFun hchildren j
        by_cases hnull : ch j = .null
        · rw [childPtrs_of_null _ hnull] at hj
          by_cases hnull' : ch' j = .null
          · rw [hnull, hnull']
          · rw [childPtrs_of_ne_null _ hnull'] at hj
            cases hj
        rw [childPtrs_of_ne_null _ hnull] at hj
        by_cases hnull' : ch' j = .null
        · rw [childPtrs_of_null _ hnull'] at hj
          cases hj
        rw [childPtrs_of_ne_null _ hnull'] at hj
        have hc := subnode_child hsub hnull
        have hc' := subnode_child hsub' hnull'
        have henc := hptr hc hc' (Option.some.inj hj)
        have hread := hdec _ (ch j) (.inr hc)
        rw [henc, hdec' _ (ch' j) (.inr hc')] at hread
        exact ih j (.inr hc) (.inr hc') henc (Option.some.inj hread).symm
      rw [hsame]
    | null | leaf k' v' | ext k' c' => cases hview

theorem baseNode_nil (base : MptNode) : BaseNode base [] base := by
  cases base with
  | null => exact .inl ⟨rfl, rfl, rfl⟩
  | leaf k v | ext k c | branch ch => exact .inr rfl

/-- The root of a map determines its lookups. -/
theorem lookup_eq_of_mptRoot_eq {m m' : MptMap} (hm : PrefixFree {k | k ∈ m})
    (hm' : PrefixFree {k | k ∈ m'})
    (hdec : Decodes (nodeCodec keccak) (ofMap m) decode)
    (hdec' : Decodes (nodeCodec keccak) (ofMap m') decode)
    (hsep : Separates keccak (ofMap m) (ofMap m'))
    (h : mptRoot keccak m = mptRoot keccak m') (k : Nibbles) : m.lookup k = m'.lookup k := by
  have henc := hsep [] _ [] _ (baseNode_nil _) (baseNode_nil _) h
  have heq := eq_of_encode_eq (wellFormed_ofMap hm) (wellFormed_ofMap hm') hdec
    hdec' hsep (baseNode_nil _) (baseNode_nil _) henc
  rw [← get_ofMap hm, heq, get_ofMap hm']

end SparseMpt
