/-
  `root_hash` and `get_proof_nibbles_key` on a represented trie.

  `rootHashNode_spec`: hashing a node leaves what it stands for unchanged, and caches
  the pointer of what it stands for in it and in every local node below. The recursion
  ends because the indices labelled at or below a path get fewer on the way down
  (`card_labelsUnder_lt`). The order in which the children of a branch are hashed does
  not matter (`hashChildren_spec`).

  `getProofNibblesKey_spec`: on a hashed trie the proof is a list of encodings that opens
  the lookup of the key, or a node on the way to it is missing.
-/
import Rbuilder.SparseMpt.Delete

namespace SparseMpt

open Patricia (Codec)
open Patricia.Node List Nat

namespace Trie

variable {keccak : Bytes → B256} {store : ProofStore} {R : Nibbles → Nat → MptNode → Prop}
  {S : Nibbles → Prop} {t t' : Trie} {L L' : Labels}

/-- Every remote pointer is the pointer of what it stands for. -/
def RemotePtrs (keccak : Bytes → B256) (store : ProofStore)
    (R : Nibbles → Nat → MptNode → Prop) : Prop :=
  ∀ p r n, R p r n → store.rlpPtrs[r]? = some (n.ptr (nodeCodec keccak))

/-! ## Encoding one node -/

variable {n c : MptNode} {p k : Nibbles} {i fuel : Nat} {kr vr : Range} {ch : Nibble → MptNode}
  {s : Slot} {node : DiffTrieNode} {rlp v : Bytes} {next ptr : NodePtr} {arr : Children}

theorem IsHashed.eq_true {hashed : Bool}
    (hh : t.IsHashed (.localIdx i)) (get : t.nodes[i]? = some ⟨node, hashed, rlp⟩) :
    hashed = true := by
  obtain ⟨s, hs, hashed⟩ := hh
  rw [get] at hs
  cases hs
  exact hashed

theorem rlpEncodeNode_leaf
    (hi : (t.nodes[i]?).map Slot.node = some (.leaf kr vr)) (hk : slice? t.keys kr = some k)
    (hv : slice? t.values vr = some v) :
    t.rlpEncodeNode store i = some ((leaf k v).encode (nodeCodec keccak)) := by
  simp only [rlpEncodeNode, hi, hk, hv]
  rfl

section

variable (hR : RemotePtrs keccak store R)
include hR

theorem childRlpPtr_eq
    (h : Rep (nodeCodec keccak) R t L n p ptr) (hh : t.IsHashed ptr) :
    t.childRlpPtr store ptr = some (n.ptr (nodeCodec keccak)) := by
  cases h with
  | null get label cache | leaf get label key value cache | ext get label key cache child
  | branch get label array arrayLabel cache absent child =>
    obtain rfl := hh.eq_true get
    simp [childRlpPtr, get, cache]
  | remote h => exact hR p _ n h

theorem rlpEncodeNode_ext
    (hi : (t.nodes[i]?).map Slot.node = some (.extension kr next))
    (hk : slice? t.keys kr = some k) (hc : Rep (nodeCodec keccak) R t L c (p ++ k) next)
    (hh : t.IsHashed next) :
    t.rlpEncodeNode store i = some ((ext k c).encode (nodeCodec keccak)) := by
  simp only [rlpEncodeNode, hi, hk, childRlpPtr_eq hR hc hh]
  rfl

theorem rlpEncodeNode_branch {c : Nat}
    (hi : (t.nodes[i]?).map Slot.node = some (.branch c))
    (harr : t.branchNodeChildren[c]? = some arr) (absent : ∀ j, arr j = none ↔ ch j = .null)
    (hc : ∀ j ptr, arr j = some ptr → Rep (nodeCodec keccak) R t L (ch j) (p ++ [j]) ptr)
    (hh : ∀ j ptr, arr j = some ptr → t.IsHashed ptr) :
    t.rlpEncodeNode store i = some ((branch ch).encode (nodeCodec keccak)) := by
  have hptrs : (fun j => (arr j).bind (t.childRlpPtr store)) = childPtrs (nodeCodec keccak) ch := by
    funext j
    cases hj : arr j with
    | none => exact (childPtrs_of_null _ ((absent j).mp hj)).symm
    | some ptr =>
      have hne : ch j ≠ .null := by
        rw [ne_eq, ← absent j, hj]
        simp
      rw [childPtrs_of_ne_null _ hne, Option.bind_some,
        childRlpPtr_eq hR (hc j ptr hj) (hh j ptr hj)]
  have hall : ∀ j, (arr j).all fun ptr => (t.childRlpPtr store ptr).isSome := by
    intro j
    cases hj : arr j with
    | none => rfl
    | some ptr => simp [childRlpPtr_eq hR (hc j ptr hj) (hh j ptr hj)]
  simp only [rlpEncodeNode, hi, harr, if_pos hall, hptrs]
  rfl

/-- A hashed node can be encoded. -/
theorem rlpEncodeNode_of_hashed
    (h : Rep (nodeCodec keccak) R t L n p (.localIdx i)) (hh : t.IsHashed (.localIdx i)) :
    t.rlpEncodeNode store i = some (n.encode (nodeCodec keccak)) := by
  cases h with
  | null get label cache =>
    simp only [rlpEncodeNode, get, Option.map_some]
    rfl
  | leaf get label key value cache =>
    exact rlpEncodeNode_leaf (by rw [get]; rfl) key value
  | ext get label key cache child =>
    exact rlpEncodeNode_ext hR (by rw [get]; rfl) key child (cache (hh.eq_true get)).2
  | branch get label array arrayLabel cache absent child =>
    exact rlpEncodeNode_branch hR (by rw [get]; rfl) array absent child (cache (hh.eq_true get)).2

end

/-! ## Termination of the recursion -/

/-- The indices labelled at or below a path. -/
def labelsUnder (len : Nat) (L : Labels) (p : Nibbles) : Finset Nat :=
  (Finset.range len).filter fun i => p <+: L.node i

theorem card_labelsUnder_lt (hi : t.nodes[i]? = some s) (hl : L.node i = p) (hk : k ≠ []) :
    (labelsUnder t.nodes.length L (p ++ k)).card < (labelsUnder t.nodes.length L p).card := by
  apply Finset.card_lt_card
  rw [Finset.ssubset_iff_of_subset]
  · refine ⟨i, ?_, ?_⟩
    · simp [labelsUnder, lt_of_getElem? hi, hl]
    · simp only [labelsUnder, Finset.mem_filter, hl, not_and]
      intro _
      exact not_under_append hk
  · intro j hj
    simp only [labelsUnder, Finset.mem_filter] at hj ⊢
    exact ⟨hj.1, (prefix_append p k).trans hj.2⟩

theorem card_labelsUnder_le (len : Nat) (L : Labels) (p : Nibbles) :
    (labelsUnder len L p).card ≤ len := by
  have := Finset.card_filter_le (Finset.range len) fun i => p <+: L.node i
  rwa [Finset.card_range] at this

theorem card_labelsUnder_pos (hi : t.nodes[i]? = some s)
    (hl : L.node i = p) : 0 < (labelsUnder t.nodes.length L p).card := by
  rw [Finset.card_pos]
  exact ⟨i, by simp [labelsUnder, lt_of_getElem? hi, hl]⟩

/-! ## Hashing -/

theorem getElem?_setHashed (rlp : Bytes) (h : t.nodes[i]? = some s) :
    (t.setHashed i rlp).nodes[i]? = some ⟨s.node, true, rlp⟩ := by
  simp [setHashed, h]

theorem frame_setHashed (rlp : Bytes) (h : S (L.node i)) : Frame S t (t.setHashed i rlp) L L :=
  frame_modifyNode _ h

/-- What hashing the node `n` at path `p` and index `i` leaves behind. -/
def HashOutcome (keccak : Bytes → B256) (R : Nibbles → Nat → MptNode → Prop) (n : MptNode)
    (p : Nibbles) (i : Nat) (t : Trie) (L : Labels) (res : Option Trie) : Prop :=
  ∃ t', res = some t' ∧ Frame (Under p) t t' L L ∧ t'.nodes.length = t.nodes.length ∧
    Rep (nodeCodec keccak) R t' L n p (.localIdx i) ∧ t'.IsHashed (.localIdx i)

def HashSpec (keccak : Bytes → B256) (store : ProofStore) (parallel : Bool)
    (schedule : Nat → List Nibble) (R : Nibbles → Nat → MptNode → Prop) (n : MptNode) : Prop :=
  ∀ p i fuel t L, Rep (nodeCodec keccak) R t L n p (.localIdx i) → n.WellFormed →
    (labelsUnder t.nodes.length L p).card ≤ fuel →
    HashOutcome keccak R n p i t L (rootHashNode keccak store parallel schedule fuel t i)

variable {parallel : Bool} {schedule : Nat → List Nibble}

/-- The last step for a node whose children are hashed. -/
theorem hash_node (get : t.nodes[i]? = some ⟨node, false, rlp⟩) (label : L.node i = p)
    (henc : t.rlpEncodeNode store i = some (n.encode (nodeCodec keccak)))
    (hrep : ∀ t', t' = t.setHashed i (n.ptr (nodeCodec keccak)) →
      t'.nodes[i]? = some ⟨node, true, n.ptr (nodeCodec keccak)⟩ →
      Frame (· = p) t t' L L → Rep (nodeCodec keccak) R t' L n p (.localIdx i)) :
    HashOutcome keccak R n p i t L (t.calculateRlpPointerNode keccak store i) := by
  simp only [calculateRlpPointerNode, henc, Option.map_some]
  have get' := getElem?_setHashed (n.ptr (nodeCodec keccak)) get
  have hF := frame_setHashed (S := (· = p)) (t := t) (n.ptr (nodeCodec keccak)) label
  exact ⟨_, rfl, hF.mono fun l hl => hl ▸ prefix_refl p, by simp [setHashed],
    hrep _ rfl get' hF, _, get', rfl⟩

/-- A node that is hashed is left as it is. -/
theorem hashSpec_of_dirty (hdirty : ∀ p i fuel t L node rlp,
      Rep (nodeCodec keccak) R t L n p (.localIdx i) → n.WellFormed →
      (labelsUnder t.nodes.length L p).card ≤ fuel + 1 →
      t.nodes[i]? = some ⟨node, false, rlp⟩ → HashOutcome keccak R n p i t L
        (rootHashNode keccak store parallel schedule (fuel + 1) t i)) :
    HashSpec keccak store parallel schedule R n := by
  intro p i fuel t L h hn hfuel
  obtain ⟨label, ⟨node, hashed, rlp⟩, get⟩ := h.local
  have hpos := card_labelsUnder_pos get label
  obtain _ | fuel := fuel
  · omega
  cases hashed with
  | true =>
    simp only [rootHashNode, get, if_true]
    exact ⟨t, rfl, Frame.refl .., rfl, h, _, get, rfl⟩
  | false => exact hdirty p i fuel t L node rlp h hn hfuel get

theorem hashSpec_null : HashSpec keccak store parallel schedule R .null := by
  refine hashSpec_of_dirty fun p i fuel t L node rlp h _ _ get0 => ?_
  cases h with
  | @null p i hashed rlp get label cache =>
    cases get0.symm.trans get
    have henc : t.rlpEncodeNode store i = some (null.encode (nodeCodec keccak)) := by
      simp only [rlpEncodeNode, get, Option.map_some]
      rfl
    simp only [rootHashNode, get]
    exact hash_node get label henc fun _ _ get' _ => .null get' label fun _ => rfl

theorem hashSpec_leaf : HashSpec keccak store parallel schedule R (.leaf k v) := by
  refine hashSpec_of_dirty fun p i fuel t L node rlp h _ _ get0 => ?_
  cases h with
  | @leaf k v p i kr vr hashed rlp get label key value cache =>
    cases get0.symm.trans get
    simp only [rootHashNode, get]
    exact hash_node get label (rlpEncodeNode_leaf (by rw [get]; rfl) key value)
      fun _ heq get' _ => .leaf get' label (heq ▸ key) (heq ▸ value) fun _ => rfl

/-- The last step for an extension whose child is hashed. -/
theorem hash_ext (hR : RemotePtrs keccak store R) (hk : k ≠ [])
    (get : t.nodes[i]? = some ⟨.extension kr next, false, rlp⟩) (label : L.node i = p)
    (key : slice? t.keys kr = some k) (child : Rep (nodeCodec keccak) R t L c (p ++ k) next)
    (hh : t.IsHashed next) :
    HashOutcome keccak R (.ext k c) p i t L (t.calculateRlpPointerNode keccak store i) := by
  have hbelow : ∀ l, p ++ k <+: l → ¬ l = p := fun l hl => ne_of_append_prefix hk hl
  exact hash_node get label (rlpEncodeNode_ext hR (by rw [get]; rfl) key child hh)
    fun _ heq get' hF => .ext get' label (heq ▸ key)
      (fun _ => ⟨rfl, hh.frame hF child (hbelow _ (prefix_refl _))⟩) (child.frame hF hbelow)

theorem hashSpec_ext (hR : RemotePtrs keccak store R)
    (ih : HashSpec keccak store parallel schedule R c) :
    HashSpec keccak store parallel schedule R (.ext k c) := by
  refine hashSpec_of_dirty fun p i fuel t L node rlp h hn hfuel get0 => ?_
  obtain ⟨hk, _, hc⟩ := hn.resolve_left (by simp)
  cases h with
  | @ext k c p i kr next hashed rlp get label key cache child =>
    cases get0.symm.trans get
    simp only [rootHashNode, get, Bool.false_eq_true, if_false]
    cases next with
    | remoteIdx r =>
      exact hash_ext hR hk get label key child trivial
    | localIdx idx =>
      have hlt := card_labelsUnder_lt get label hk
      obtain ⟨t1, h1, hF1, hlen1, hrep1, hh1⟩ := ih (p ++ k) idx fuel t L child
        (Or.inr hc) (by omega)
      simp only [h1, Option.bind_some]
      obtain ⟨get1, _⟩ := hF1.nodes get (by rw [label]; exact not_under_append hk)
      obtain ⟨t2, h2, hF2, hlen2, hrep2, hh2⟩ := hash_ext hR hk get1 label
        (slice?_mono key hF1.keys) hrep1 hh1
      exact ⟨t2, h2, (hF1.mono fun _ => Under.of_append).trans hF2, hlen2.trans hlen1, hrep2, hh2⟩

/-- The loop over the children of a branch, in any order. -/
theorem hashChildren_spec (ih : ∀ j, HashSpec keccak store parallel schedule R (ch j))
    (hwf : ∀ j, (ch j).WellFormed) (order : List Nibble) :
    ∀ t : Trie, (∀ j ptr, arr j = some ptr → Rep (nodeCodec keccak) R t L (ch j) (p ++ [j]) ptr) →
      (∀ j, (labelsUnder t.nodes.length L (p ++ [j])).card ≤ fuel) →
      ∃ t', order.foldlM (hashChild arr (rootHashNode keccak store parallel schedule fuel)) t =
          some t' ∧
        Frame (fun l => Under p l ∧ l ≠ p) t t' L L ∧ t'.nodes.length = t.nodes.length ∧
        (∀ j ptr, arr j = some ptr → Rep (nodeCodec keccak) R t' L (ch j) (p ++ [j]) ptr) ∧
        (∀ j ptr, arr j = some ptr → t.IsHashed ptr → t'.IsHashed ptr) ∧
        ∀ j ∈ order, ∀ ptr, arr j = some ptr → t'.IsHashed ptr := by
  induction order with
  | nil =>
    intro t hch _
    exact ⟨t, rfl, Frame.refl .., rfl, hch, fun _ _ _ h => h, by simp⟩
  | cons a order iho =>
    intro t hch hfuel
    -- one child: it is hashed afterwards, the others are as before
    have hstep : ∃ t1, hashChild arr (rootHashNode keccak store parallel schedule fuel) t a =
        some t1 ∧ Frame (Under (p ++ [a])) t t1 L L ∧ t1.nodes.length = t.nodes.length ∧
        (∀ ptr, arr a = some ptr → Rep (nodeCodec keccak) R t1 L (ch a) (p ++ [a]) ptr ∧
          t1.IsHashed ptr) := by
      unfold hashChild
      cases ha : arr a with
      | none => exact ⟨t, rfl, Frame.refl .., rfl, by simp⟩
      | some ptr =>
        cases ptr with
        | remoteIdx r =>
          refine ⟨t, rfl, Frame.refl .., rfl, ?_⟩
          intro ptr hptr
          cases hptr
          exact ⟨hch a _ ha, trivial⟩
        | localIdx idx =>
          obtain ⟨t1, h1, hF1, hlen1, hrep1, hh1⟩ := ih a (p ++ [a]) idx fuel t L
            (hch a _ ha) (hwf a) (hfuel a)
          refine ⟨t1, h1, hF1, hlen1, ?_⟩
          intro ptr hptr
          cases hptr
          exact ⟨hrep1, hh1⟩
    obtain ⟨t1, h1, hF1, hlen1, ha1⟩ := hstep
    have hch1 : ∀ j ptr, arr j = some ptr →
        Rep (nodeCodec keccak) R t1 L (ch j) (p ++ [j]) ptr := by
      intro j ptr hj
      by_cases hja : j = a
      · subst hja
        exact (ha1 ptr hj).1
      · exact (hch j ptr hj).frame hF1 fun l hl => not_under_sibling hja hl
    have hh1 : ∀ j ptr, arr j = some ptr → t.IsHashed ptr → t1.IsHashed ptr := by
      intro j ptr hj hh
      by_cases hja : j = a
      · subst hja
        exact (ha1 ptr hj).2
      · exact hh.frame hF1 (hch j ptr hj) (not_under_sibling hja (prefix_refl _))
    obtain ⟨t2, h2, hF2, hlen2, hch2, hkeep2, hdone2⟩ := iho t1 hch1 (by rwa [hlen1])
    refine ⟨t2, ?_, (hF1.mono ?_).trans hF2, hlen2.trans hlen1, hch2,
      fun j ptr hj hh => hkeep2 j ptr hj (hh1 j ptr hj hh), ?_⟩
    · rw [foldlM_cons, h1]
      exact h2
    · intro l hl
      exact ⟨Under.of_append hl, ne_of_append_prefix (by simp) hl⟩
    intro j hj ptr hptr
    rcases mem_cons.mp hj with rfl | hj
    · exact hkeep2 j ptr hptr (ha1 ptr hptr).2
    · exact hdone2 j hj ptr hptr

theorem mem_hashOrder (hs : ∀ i, (schedule i).Perm (finRange 16)) (i : Nat) (arr : Children)
    (j : Nibble) : j ∈ hashOrder parallel schedule i arr := by
  unfold hashOrder
  dsimp only
  split
  · exact (hs i).mem_iff.mpr (mem_finRange j)
  · exact mem_finRange j

theorem hashSpec_branch (hR : RemotePtrs keccak store R)
    (hs : ∀ i, (schedule i).Perm (finRange 16))
    (ih : ∀ j, HashSpec keccak store parallel schedule R (ch j)) :
    HashSpec keccak store parallel schedule R (.branch ch) := by
  refine hashSpec_of_dirty fun p i fuel t L node rlp h hn hfuel get0 => ?_
  have hc := hn.resolve_left (by simp)
  cases h with
  | @branch ch p i c arr hashed rlp get label array arrayLabel cache absent child =>
    cases get0.symm.trans get
    simp only [rootHashNode, get, Bool.false_eq_true, if_false, array]
    have hcard : ∀ j, (labelsUnder t.nodes.length L (p ++ [j])).card ≤ fuel := by
      intro j
      have := card_labelsUnder_lt (k := [j]) get label (by simp)
      omega
    obtain ⟨t1, h1, hF1, hlen1, hch1, _, hdone⟩ := hashChildren_spec ih hc.2
      (hashOrder parallel schedule i arr) t child hcard
    rw [h1, Option.bind_some]
    have hself : ¬ (Under p p ∧ p ≠ p) := fun h => h.2 rfl
    obtain ⟨get1, _⟩ := hF1.nodes get (by rwa [label])
    obtain ⟨array1, _⟩ := hF1.children array (by rwa [arrayLabel])
    have hh1 : ∀ j ptr, arr j = some ptr → t1.IsHashed ptr := fun j ptr hj =>
      hdone j (mem_hashOrder hs i arr j) ptr hj
    have hbelow : ∀ j l, p ++ [j] <+: l → ¬ l = p := fun j l hl =>
      ne_of_append_prefix (by simp) hl
    obtain ⟨t2, h2, hF2, hlen2, hrep2, hh2⟩ := hash_node get1 label
      (rlpEncodeNode_branch hR (by rw [get1]; rfl) array1 absent hch1 hh1) fun _ heq get2 hF2 =>
        .branch get2 label (heq ▸ array1) arrayLabel
          (fun _ => ⟨rfl, fun j ptr hj => (hh1 j ptr hj).frame hF2 (hch1 j ptr hj)
            (hbelow j _ (prefix_refl _))⟩) absent
          fun j ptr hj => (hch1 j ptr hj).frame hF2 (hbelow j)
    exact ⟨t2, h2, (hF1.mono fun _ h => h.1).trans hF2, hlen2.trans hlen1, hrep2, hh2⟩

theorem rootHashNode_spec (hR : RemotePtrs keccak store R) (parallel : Bool)
    (hs : ∀ i, (schedule i).Perm (finRange 16)) (n : MptNode) :
    HashSpec keccak store parallel schedule R n := by
  induction n with
  | null => exact hashSpec_null
  | leaf k v => exact hashSpec_leaf
  | ext k c ih => exact hashSpec_ext hR ih
  | branch ch ih => exact hashSpec_branch hR hs ih

/-- `root_hash` on a whole trie. -/
theorem rootHash_spec (hR : RemotePtrs keccak store R) (parallel : Bool)
    (hs : ∀ i, (schedule i).Perm (finRange 16))
    (h : Rep (nodeCodec keccak) R t L n [] (.localIdx 0)) (hn : n.WellFormed) :
    ∃ t', t.rootHash keccak parallel schedule store = (t', .ok (rootOf keccak n)) ∧
      t.values <+: t'.values ∧ Rep (nodeCodec keccak) R t' L n [] (.localIdx 0) ∧
      t'.IsHashed (.localIdx 0) := by
  obtain ⟨_, s, hs0⟩ := h.local
  have hne : t.nodes.isEmpty = false := by
    cases hnodes : t.nodes with
    | nil => simp [hnodes] at hs0
    | cons _ _ => rfl
  obtain ⟨t', h1, hF, _, hrep, hh⟩ := rootHashNode_spec hR parallel hs n [] 0
    (t.nodes.length + 1) t L h hn ((card_labelsUnder_le ..).trans (le_succ _))
  refine ⟨t', ?_, hF.values, hrep, hh⟩
  simp [rootHash, hne, h1, rlpEncodeNode_of_hashed hR hrep hh, rootOf]

/-! ## Proofs -/

/-- The encodings along a key, as a proof lists them. -/
def proofOf (keccak : Bytes → B256) (trail : List (Nibbles × MptNode)) : List (Nibbles × Bytes) :=
  trail.map fun e => (e.1, e.2.encode (nodeCodec keccak))

/-- The loop lists the nodes met along the key. -/
theorem getProofLoop_trail (hR : RemotePtrs keccak store R) (n : MptNode) (p q : Nibbles)
    (i fuel : Nat) (proof : List (Nibbles × Bytes))
    (h : Rep (nodeCodec keccak) R t L n p (.localIdx i)) (hh : t.IsHashed (.localIdx i))
    (hn : n.WellFormed) (hfuel : q.length < fuel) :
    getProofLoop store t (p ++ q) fuel i p.length proof =
        .ok ⟨proof ++ proofOf keccak (n.trail p q), n.get q⟩ ∨
      getProofLoop store t (p ++ q) fuel i p.length proof = .error (.nodeNotFound (p ++ q)) := by
  induction n generalizing p q i fuel proof with
  | null =>
    obtain ⟨fuel, rfl⟩ := exists_eq_add_one_of_ne_zero (ne_zero_of_lt hfuel)
    have henc := rlpEncodeNode_of_hashed hR h hh
    cases h with
    | null get label cache =>
      obtain rfl := hh.eq_true get
      left
      simp [getProofLoop, get, henc, proofOf, trail]
  | leaf k v =>
    obtain ⟨fuel, rfl⟩ := exists_eq_add_one_of_ne_zero (ne_zero_of_lt hfuel)
    have henc := rlpEncodeNode_of_hashed hR h hh
    cases h with
    | leaf get label key value cache =>
      obtain rfl := hh.eq_true get
      left
      rw [get_leaf]
      by_cases hkq : k = q
      · simp [getProofLoop, get, henc, key, value, hkq, proofOf, trail]
      · simp [getProofLoop, get, henc, key, hkq, Ne.symm hkq, proofOf, trail]
  | ext k c ih =>
    obtain ⟨fuel, rfl⟩ := exists_eq_add_one_of_ne_zero (ne_zero_of_lt hfuel)
    have henc := rlpEncodeNode_of_hashed hR h hh
    obtain ⟨hk, _, hc⟩ := hn.resolve_left (by simp)
    cases h with
    | @ext _ _ _ _ kr next _ _ get label key cache child =>
      obtain rfl := hh.eq_true get
      by_cases hkq : k <+: q
      · obtain ⟨r, rfl⟩ := hkq
        cases next with
        | remoteIdx r' =>
          right
          simp [getProofLoop, get, henc, key]
        | localIdx j =>
          have hlen : p.length + kr.length = (p ++ k).length := by
            rw [length_append, length_of_slice? key]
          have hfuel' : r.length < fuel := by
            have := length_pos_iff.mpr hk
            rw [length_append] at hfuel
            omega
          have hrec := ih (p ++ k) r j fuel
            (proof ++ [(p, (ext k c).encode (nodeCodec keccak))])
            child (cache rfl).2 (Or.inr hc) hfuel'
          have hstep : getProofLoop store t (p ++ (k ++ r)) (fuel + 1) i p.length proof =
              getProofLoop store t (p ++ (k ++ r)) fuel j (p ++ k).length
                (proof ++ [(p, (ext k c).encode (nodeCodec keccak))]) := by
            rw [← hlen]
            simp [getProofLoop, get, henc, key]
          rw [hstep, trail_ext_append, get_ext_append]
          simpa [proofOf] using hrec
      · left
        rw [trail_ext_off_path c p hkq, get_ext_off_path c hkq]
        simp [getProofLoop, get, henc, key, hkq, proofOf]
  | branch ch ih =>
    obtain ⟨fuel, rfl⟩ := exists_eq_add_one_of_ne_zero (ne_zero_of_lt hfuel)
    have henc := rlpEncodeNode_of_hashed hR h hh
    have hall := (hn.resolve_left (by simp)).2
    cases h with
    | @branch _ _ _ c arr _ _ get label array arrayLabel cache absent child =>
      obtain rfl := hh.eq_true get
      cases q with
      | nil =>
        left
        simp [getProofLoop, get, henc, proofOf, trail]
      | cons j q =>
        rw [get_branch_cons]
        cases harr : arr j with
        | none =>
          have hnull := (absent j).mp harr
          left
          rw [trail_branch_null p q hnull, hnull]
          simp [getProofLoop, get, henc, array, harr, proofOf]
        | some ptr =>
          have hnull : ch j ≠ .null := by
            rw [ne_eq, ← absent j, harr]
            simp
          cases ptr with
          | remoteIdx r =>
            right
            simp [getProofLoop, get, henc, array, harr]
          | localIdx idx =>
            have hrec := ih j (p ++ [j]) q idx fuel
              (proof ++ [(p, (branch ch).encode (nodeCodec keccak))])
              (child j _ harr) ((cache rfl).2 j _ harr) (hall j) (by simpa using hfuel)
            have hstep : getProofLoop store t (p ++ j :: q) (fuel + 1) i p.length proof =
                getProofLoop store t (p ++ j :: q) fuel idx (p ++ [j]).length (proof ++
                  [(p, (branch ch).encode (nodeCodec keccak))]) := by
              simp [getProofLoop, get, henc, array, harr]
            rw [hstep, trail_branch_cons p q hnull]
            simpa [proofOf] using hrec

/-- A proof opens the lookup of a key against a root hash. -/
def OpensRoot (keccak : Bytes → B256) (root : B256) (q : Nibbles) (proof : List Bytes)
    (value : Option Bytes) : Prop :=
  ∃ rlp, proof.head? = some rlp ∧ keccak rlp = root ∧
    Opens (nodeCodec keccak) (rlpPointer keccak rlp) q proof value

theorem opensRoot_trail (n : MptNode) (q : Nibbles) :
    OpensRoot keccak (rootOf keccak n) q ((proofOf keccak (n.trail [] q)).map Prod.snd)
      (n.get q) := by
  rw [proofOf, map_map]
  exact ⟨_, by simp [head?_trail], rfl,
    opens_trail (nodeCodec keccak) n [] q⟩

theorem getProofNibblesKey_spec (hR : RemotePtrs keccak store R)
    (h : Rep (nodeCodec keccak) R t L n [] (.localIdx 0)) (hh : t.IsHashed (.localIdx 0))
    (hn : n.WellFormed) (q : Nibbles) :
    t.getProofNibblesKey store q = .ok ⟨proofOf keccak (n.trail [] q), n.get q⟩ ∨
      t.getProofNibblesKey store q = .error (.nodeNotFound q) :=
  getProofLoop_trail hR n [] q 0 (q.length + t.nodes.length + 1) [] h hh hn (by omega)

end Trie

end SparseMpt
