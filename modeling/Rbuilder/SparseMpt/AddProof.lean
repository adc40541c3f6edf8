/-
  Nodes of a base trie in the proof store, and their addition to a trie.

  `StoreOk C base store`: every proof in the store lists nodes of `base`, each stored
  with the path it has there. `Known C base store p r n`: the pointer `r` of the store is
  the pointer of the node `n` that `base` has at path `p`; it is what a remote pointer met
  at path `p` stands for.

  A node of `base` is added below a trie that has been changed since: the walk follows the
  path through the nodes as they are now and attaches the node only in place of a remote
  pointer met at exactly its path. That pointer stands for the same node of `base`, so the
  represented node does not change (`addNodeFromProof_spec`).
-/
import Rbuilder.SparseMpt.MapTrie

namespace SparseMpt

open Patricia (Codec)
open Patricia.Node
open Trie (getElem?_mono)
open List Function

/-- A node of the base trie with its path; the empty trie has the empty root. -/
def BaseNode (base : MptNode) (p : Nibbles) (n : MptNode) : Prop :=
  base = .null ∧ p = [] ∧ n = .null ∨ base.subnode p = some n

/-- One level of a node, as `alloy_trie` decodes it. -/
def view (C : Codec Nibble Bytes Bytes) : MptNode → AlloyTrieNode
  | .null => .emptyRoot
  | .leaf k v => .leaf k v
  | .ext k c => .extension k (c.ptr C)
  | .branch ch => .branch (childPtrs C ch)

variable {C : Codec Nibble Bytes Bytes} {base n : MptNode}

namespace ProofStore

/-- The stored proof node is the node `n`. -/
def Matches (C : Codec Nibble Bytes Bytes) (store : ProofStore) : MptNode → ProofNode → Prop
  | .null, .empty => True
  | .leaf k v, .leaf ki vi => store.keys[ki]? = some k ∧ store.values[vi]? = some v
  | .ext k c, .extension ki ci => store.keys[ki]? = some k ∧ store.rlpPtrs[ci]? = some (c.ptr C)
  | .branch ch, .branch ptrs => ∀ j, (ptrs j = none ↔ ch j = .null) ∧
      ∀ r, ptrs j = some r → store.rlpPtrs[r]? = some ((ch j).ptr C)
  | _, _ => False

/-- Every stored proof lists nodes of the base trie. -/
def StoreOk (C : Codec Nibble Bytes Bytes) (base : MptNode) (store : ProofStore) : Prop :=
  ∀ key proof, store.proofs.lookup key = some proof → ∀ e ∈ proof,
    ∃ n, BaseNode base e.1 n ∧ store.Matches C n e.2

/-- The buffers of a store only grow. -/
structure Grows (store store' : ProofStore) : Prop where
  keys : store.keys <+: store'.keys
  values : store.values <+: store'.values
  rlpPtrs : store.rlpPtrs <+: store'.rlpPtrs
  proofs : store'.proofs = store.proofs

variable {store store' store'' : ProofStore}

theorem Grows.refl (store : ProofStore) : Grows store store :=
  ⟨prefix_refl _, prefix_refl _, prefix_refl _, rfl⟩

theorem Grows.trans (h : Grows store store') (h' : Grows store' store'') : Grows store store'' :=
  ⟨h.keys.trans h'.keys, h.values.trans h'.values, h.rlpPtrs.trans h'.rlpPtrs,
    h'.proofs.trans h.proofs⟩

theorem Matches.mono {node : ProofNode} (h : store.Matches C n node)
    (hk : store.keys <+: store'.keys) (hv : store.values <+: store'.values)
    (hr : store.rlpPtrs <+: store'.rlpPtrs) : store'.Matches C n node := by
  cases n with
  | null => cases node <;> exact h
  | leaf k v =>
    cases node with
    | leaf ki vi => exact ⟨getElem?_mono h.1 hk, getElem?_mono h.2 hv⟩
    | _ => exact h
  | ext k c =>
    cases node with
    | extension ki ci => exact ⟨getElem?_mono h.1 hk, getElem?_mono h.2 hr⟩
    | _ => exact h
  | branch ch =>
    cases node with
    | branch ptrs =>
      intro j
      exact ⟨(h j).1, fun r hj => getElem?_mono ((h j).2 r hj) hr⟩
    | _ => exact h

theorem addChildren_spec (children : Nibble → Option Bytes) (is : List Nibble) :
    ∀ (store : ProofStore) (ptrs : Nibble → Option Nat),
      Grows store (addChildren children store is ptrs).1 ∧
      (∀ j, children j = none ∨ j ∉ is → (addChildren children store is ptrs).2 j = ptrs j) ∧
      ∀ j d, children j = some d → j ∈ is → ∃ r,
        (addChildren children store is ptrs).2 j = some r ∧
        (addChildren children store is ptrs).1.rlpPtrs[r]? = some d := by
  induction is with
  | nil =>
    intro store ptrs
    exact ⟨Grows.refl store, fun _ _ => rfl, by simp⟩
  | cons i is ih =>
    intro store ptrs
    cases hi : children i with
    | none =>
      obtain ⟨h1, h2, h3⟩ := ih store ptrs
      simp only [addChildren, hi]
      refine ⟨h1, ?_, ?_⟩
      · rintro j (hj | hj)
        · exact h2 j (Or.inl hj)
        · exact h2 j (Or.inr fun h => hj (mem_cons_of_mem _ h))
      intro j d hj hmem
      rcases mem_cons.mp hmem with rfl | hmem
      · rw [hi] at hj
        cases hj
      · exact h3 j d hj hmem
    | some d =>
      obtain ⟨h1, h2, h3⟩ := ih (store.addRlpPtr d).1
        (update ptrs i (some store.rlpPtrs.length))
      have hgrow : Grows store (store.addRlpPtr d).1 :=
        ⟨prefix_refl _, prefix_refl _, prefix_append .., rfl⟩
      simp only [addChildren, hi]
      refine ⟨hgrow.trans h1, ?_, ?_⟩
      · intro j hj
        have hji : j ≠ i := by
          rintro rfl
          rcases hj with hj | hj
          · rw [hi] at hj
            cases hj
          · exact hj mem_cons_self
        have hj' : children j = none ∨ j ∉ is := hj.imp_right fun h hm => h (mem_cons_of_mem _ hm)
        exact (h2 j hj').trans (update_of_ne hji ..)
      intro j d' hj hmem
      by_cases hmem' : j ∈ is
      · exact h3 j d' hj hmem'
      obtain rfl : j = i := (mem_cons.mp hmem).resolve_right hmem'
      rw [hi] at hj
      cases hj
      refine ⟨store.rlpPtrs.length, ?_, ?_⟩
      · exact (h2 j (Or.inr hmem')).trans (update_self ..)
      · exact getElem?_mono (by simp [addRlpPtr]) h1.rlpPtrs

theorem addNode_grows (store : ProofStore) (node : AlloyTrieNode) :
    Grows store (store.addNode node).1 := by
  cases node with
  | emptyRoot => exact Grows.refl store
  | leaf k v => exact ⟨prefix_append .., prefix_append .., prefix_refl _, rfl⟩
  | extension k c =>
    exact ⟨prefix_append .., prefix_refl _, prefix_append .., rfl⟩
  | branch children =>
    exact (addChildren_spec children (finRange 16) store fun _ => none).1

theorem addNode_spec (store : ProofStore) (n : MptNode) :
    Grows store (store.addNode (view C n)).1 ∧
      (store.addNode (view C n)).1.Matches C n (store.addNode (view C n)).2 := by
  cases n with
  | null => exact ⟨Grows.refl store, trivial⟩
  | leaf k v =>
    refine ⟨addNode_grows store _, ?_, ?_⟩
    · simp [view, addNode, addKey, addValue]
    · simp [view, addNode, addKey, addValue]
  | ext k c =>
    refine ⟨addNode_grows store _, ?_, ?_⟩
    · simp [view, addNode, addKey, addRlpPtr]
    · simp [view, addNode, addKey, addRlpPtr]
  | branch ch =>
    obtain ⟨h1, h2, h3⟩ := addChildren_spec (childPtrs C ch) (finRange 16) store fun _ => none
    simp only [view, addNode]
    refine ⟨h1, fun j => ?_⟩
    by_cases hj : ch j = .null
    · have hnone := h2 j (Or.inl (childPtrs_of_null C hj))
      refine ⟨⟨fun _ => hj, fun _ => hnone⟩, fun r hr => ?_⟩
      rw [hnone] at hr
      cases hr
    obtain ⟨r, hr, hptr⟩ := h3 j _ (childPtrs_of_ne_null C hj) (mem_finRange j)
    refine ⟨⟨fun hn => ?_, fun h => absurd h hj⟩, fun r' hr' => ?_⟩
    · rw [hr] at hn
      cases hn
    · rw [hr] at hr'
      cases hr'
      exact hptr

/-- A list of encodings of base nodes with their paths. -/
def IsBaseProof (C : Codec Nibble Bytes Bytes) (base : MptNode)
    (proof : List (Nibbles × Bytes)) : Prop :=
  ∀ e ∈ proof, ∃ n, BaseNode base e.1 n ∧ e.2 = n.encode C

/-- `alloy_trie` decodes what it encoded, on the nodes of the base trie. -/
def Decodes (C : Codec Nibble Bytes Bytes) (base : MptNode)
    (decode : Bytes → Option AlloyTrieNode) : Prop :=
  ∀ p n, BaseNode base p n → decode (n.encode C) = some (view C n)

variable {decode : Bytes → Option AlloyTrieNode}

theorem parseProof_grows (proof : List (Nibbles × Bytes)) :
    ∀ store : ProofStore, Grows store (parseProof decode store proof).1 := by
  induction proof with
  | nil => exact Grows.refl
  | cons e proof ih =>
    intro store
    unfold parseProof
    split
    · exact Grows.refl store
    · next node _ => exact (addNode_grows store node).trans (ih _)

/-- Whatever a proof lists, the pointers of the store only grow. -/
theorem addProof_grows (store : ProofStore) (key : Nibbles) (proof : List (Nibbles × Bytes)) :
    store.rlpPtrs <+: (store.addProof decode key proof).1.rlpPtrs := by
  have hparse : Grows store (parseProof decode store proof).1 := parseProof_grows proof store
  have hgrow := hparse.rlpPtrs
  unfold addProof
  split
  · exact prefix_refl _
  generalize parseProof decode store proof = res at hgrow ⊢
  obtain ⟨store', res⟩ := res
  cases res with
  | none | some nodes => exact hgrow

/-- The stored node `d` is the encoded base node `e`. -/
def Parsed (C : Codec Nibble Bytes Bytes) (base : MptNode) (store : ProofStore)
    (e : Nibbles × Bytes) (d : Nibbles × ProofNode) : Prop :=
  d.1 = e.1 ∧ ∃ n, BaseNode base e.1 n ∧ store.Matches C n d.2

theorem parseProof_spec (hdec : Decodes C base decode) (proof : List (Nibbles × Bytes))
    (hp : IsBaseProof C base proof) :
    ∀ store : ProofStore, ∃ store' nodes, parseProof decode store proof = (store', some nodes) ∧
      Grows store store' ∧ Forall₂ (Parsed C base store') proof nodes := by
  induction proof with
  | nil => exact fun store => ⟨store, [], rfl, Grows.refl store, .nil⟩
  | cons e proof ih =>
    intro store
    obtain ⟨path, enc⟩ := e
    obtain ⟨n, hn, henc⟩ := hp (path, enc) mem_cons_self
    simp only at henc hn
    obtain ⟨hg1, hm⟩ := addNode_spec (C := C) store n
    obtain ⟨store', nodes, hparse, hg2, hnodes⟩ :=
      ih (fun e he => hp e (mem_cons_of_mem _ he)) (store.addNode (view C n)).1
    refine ⟨store', (path, (store.addNode (view C n)).2) :: nodes, ?_, hg1.trans hg2, .cons ?_ hnodes⟩
    · simp [parseProof, henc, hdec path n hn, hparse]
    · exact ⟨rfl, n, hn, hm.mono hg2.keys hg2.values hg2.rlpPtrs⟩

variable {proof : List (Nibbles × Bytes)}

theorem baseNode_of_parsed {nodes : List (Nibbles × ProofNode)}
    (h : Forall₂ (Parsed C base store) proof nodes) :
    ∀ d ∈ nodes, ∃ n, BaseNode base d.1 n ∧ store.Matches C n d.2 := by
  induction h with
  | nil => simp
  | cons hd _ ih =>
    intro d hmem
    rcases mem_cons.mp hmem with rfl | hmem
    · rw [hd.1]
      exact hd.2
    · exact ih d hmem

/-- `add_proof` with nodes of the base trie succeeds and keeps the store well formed. -/
theorem addProof_spec (hdec : Decodes C base decode) (hok : StoreOk C base store) (key : Nibbles)
    (hp : IsBaseProof C base proof) :
    (store.addProof decode key proof).2 = true ∧ StoreOk C base (store.addProof decode key proof).1 ∧
      store.rlpPtrs <+: (store.addProof decode key proof).1.rlpPtrs := by
  unfold addProof
  split
  · exact ⟨rfl, hok, prefix_refl _⟩
  obtain ⟨store', nodes, hparse, hg, hnodes⟩ := parseProof_spec hdec proof hp store
  rw [hparse]
  refine ⟨rfl, ?_, hg.rlpPtrs⟩
  intro k l hl e he
  by_cases hk : k = key
  · subst hk
    simp only [AList.lookup_insert, Option.some.injEq] at hl
    subst hl
    exact baseNode_of_parsed hnodes e he
  · simp only [AList.lookup_insert_ne hk, hg.proofs] at hl
    obtain ⟨n, hn, hm⟩ := hok k l hl e he
    exact ⟨n, hn, hm.mono hg.keys hg.values hg.rlpPtrs⟩

/-- The pointer `r` is that of the base node at path `p`. -/
def Known (C : Codec Nibble Bytes Bytes) (base : MptNode) (store : ProofStore) (p : Nibbles)
    (r : Nat) (n : MptNode) : Prop :=
  base.subnode p = some n ∧ store.rlpPtrs[r]? = some (n.ptr C)

theorem Known.mono {p : Nibbles} {r : Nat} (h : Known C base store p r n)
    (hg : store.rlpPtrs <+: store'.rlpPtrs) : Known C base store' p r n :=
  ⟨h.1, getElem?_mono h.2 hg⟩

end ProofStore

namespace Trie

open ProofStore (Known Matches StoreOk)

variable {store store' : ProofStore} {R R' : Nibbles → Nat → MptNode → Prop} {S : Nibbles → Prop}
  {t t' t1 : Trie} {L L' : Labels}

/-! ## A new node -/

theorem getElem?_pushBranch (t : Trie) (arr : Children) :
    ({ t.createBranchChildren.1 with branchNodeChildren :=
      t.createBranchChildren.1.branchNodeChildren.set t.branchNodeChildren.length arr } :
        Trie).branchNodeChildren = t.branchNodeChildren ++ [arr] := by
  simp [createBranchChildren]

variable {n c : MptNode} {node : ProofNode} {p path k s r : Nibbles}

/-- The pushed node stands for the base node, its children are the remote pointers. -/
theorem pushProofNode_spec
    (hm : store.Matches C n node) (hsub : base.subnode p = some n) (hcan : n.Canonical) :
    ∃ t' L', t.pushProofNode store node = some (t', .localIdx t.nodes.length) ∧
      Frame S t t' L L' ∧ Rep C (fun l r c => Known C base store l r c ∧ n.ChildAt p l) t' L' n p
        (.localIdx t.nodes.length) := by
  cases n with
  | null => exact hcan.elim
  | leaf k v =>
    cases node with
    | leaf ki vi =>
      obtain ⟨hk, hv⟩ := hm
      have h1 : Frame S t (t.insertKey k).1 L L := frame_insertKey k
      have h2 := (h1.trans (frame_copyValue v)).trans (frame_pushNode
        (.leaf (t.insertKey k).2 ((t.insertKey k).1.copyValue v).2) p)
      have hget := getElem?_pushNode ((t.insertKey k).1.copyValue v).1
        (.leaf (t.insertKey k).2 ((t.insertKey k).1.copyValue v).2)
      refine ⟨_, _, ?_, h2, .leaf hget (Labels.setNode_self ..) (slice?_insertKey t k)
        (slice?_append t.values v) (by simp)⟩
      simp only [pushProofNode, hk, hv]
      rfl
    | _ => exact hm.elim
  | ext k c =>
    cases node with
    | extension ki ci =>
      obtain ⟨hk, hr⟩ := hm
      have h1 : Frame S t (t.insertKey k).1 L L := frame_insertKey k
      have h2 := h1.trans (frame_pushNode (.extension (t.insertKey k).2 (.remoteIdx ci)) p)
      have hget := getElem?_pushNode (t.insertKey k).1
        (.extension (t.insertKey k).2 (.remoteIdx ci))
      have hnext := subnode_next hsub hcan.1 hcan.2.2.ne_null
      refine ⟨_, _, ?_, h2, .ext hget (Labels.setNode_self ..) (slice?_insertKey t k)
        (by simp) (.remote ⟨⟨hnext, hr⟩, rfl⟩)⟩
      simp only [pushProofNode, hk]
      rfl
    | _ => exact hm.elim
  | branch ch =>
    cases node with
    | branch ptrs =>
      let arr : Children := fun b => (ptrs b).map .remoteIdx
      let t1 : Trie := { t.createBranchChildren.1 with branchNodeChildren :=
        t.createBranchChildren.1.branchNodeChildren.set t.branchNodeChildren.length arr }
      have harr : t1.branchNodeChildren = t.branchNodeChildren ++ [arr] := getElem?_pushBranch t arr
      have h1 : Frame S t t1 L (L.setChildren t.branchNodeChildren.length p) := by
        refine ⟨prefix_refl _, prefix_refl _, fun hg _ => ⟨hg, rfl⟩, ?_⟩
        intro c a hc _
        rw [harr]
        exact ⟨getElem?_append_of_some hc _, L.setChildren_of_ne p (lt_of_getElem? hc).ne⟩
      have h2 := h1.trans (frame_pushNode (.branch t.branchNodeChildren.length) p)
      have hget := getElem?_pushNode t1 (.branch t.branchNodeChildren.length)
      have harray : (t1.pushNode (.branch t.branchNodeChildren.length)).1.branchNodeChildren[
          t.branchNodeChildren.length]? = some arr := by
        show t1.branchNodeChildren[t.branchNodeChildren.length]? = some arr
        rw [harr]
        simp
      refine ⟨_, _, rfl, h2, .branch hget (Labels.setNode_self ..) harray
        (Labels.setChildren_self ..) (by simp) ?_ ?_⟩
      · intro j
        simp only [arr, Option.map_eq_none_iff]
        exact (hm j).1
      intro j ptr hj
      simp only [arr, Option.map_eq_some_iff] at hj
      obtain ⟨r, hr, rfl⟩ := hj
      have hne : ch j ≠ .null := by
        rw [ne_eq, ← (hm j).1, hr]
        simp
      exact .remote ⟨⟨subnode_child hsub hne, (hm j).2 r hr⟩, j, hne, rfl⟩
    | _ => exact hm.elim

/-! ## The walk to the parent -/

/-- `R'` has the remote pointers of `R`, but for those at one path. -/
def Clears (R R' : Nibbles → Nat → MptNode → Prop) (path : Nibbles) : Prop :=
  ∀ l r n, R l r n → l ≠ path → R' l r n

/-- What the walk from the node `n` at path `p` and index `i` leaves behind: the same node.
    A remote pointer found at the path has a place where any pointer that stands for the same
    node can be attached, and none is at the path then. The walk fails where there is no node
    at the path or where a remote pointer is in the way. -/
def WalkOutcome (C : Codec Nibble Bytes Bytes) (R : Nibbles → Nat → MptNode → Prop) (n : MptNode)
    (p q : Nibbles) (i : Nat) (t : Trie) (L : Labels)
    (res : Trie × Except TrieError (Nat × Option NodePtr × Nibble)) : Prop :=
  Frame (Under p) t res.1 L L ∧ Rep C R res.1 L n p (.localIdx i) ∧
    match res.2 with
    | .error e => (∃ path, e = .nodeNotFound path) ∧
        (n.subnode q = none ∨ ∃ s r m, s <+: q ∧ s ≠ q ∧ R (p ++ s) r m)
    | .ok (cur, some (.remoteIdx r), nib) => ∃ m, R (p ++ q) r m ∧
        ∀ R' t2 L2 ptr, Clears R R' (p ++ q) → Frame (fun _ => False) res.1 t2 L L2 →
          Rep C R' t2 L2 m (p ++ q) ptr →
          ∃ t3, t2.attachNode cur nib ptr = some t3 ∧ Frame (Under p) t2 t3 L2 L2 ∧
            Rep C R' t3 L2 n p (.localIdx i)
    | .ok _ => ∀ R', Clears R R' (p ++ q) → Rep C R' res.1 L n p (.localIdx i)

def WalkSpec (C : Codec Nibble Bytes Bytes) (R : Nibbles → Nat → MptNode → Prop)
    (n : MptNode) : Prop :=
  ∀ p q i fuel t L, Rep C R t L n p (.localIdx i) → n.WellFormed → q ≠ [] → q.length < fuel →
    WalkOutcome C R n p q i t L (addNodeWalk (p ++ q) fuel t i p.length)

theorem walkSpec_null : WalkSpec C R .null := by
  intro p q i fuel t L h _ _ hfuel
  obtain _ | fuel := fuel
  · omega
  cases h with
  | null get label cache =>
    simp only [addNodeWalk, get]
    exact ⟨frame_setDirty (label ▸ prefix_refl _),
      .null (getElem?_setDirty get) label (by simp),
      fun _ _ => .null (getElem?_setDirty get) label (by simp)⟩

theorem walkSpec_leaf {v : Bytes} : WalkSpec C R (.leaf k v) := by
  intro p q i fuel t L h _ _ hfuel
  obtain _ | fuel := fuel
  · omega
  cases h with
  | leaf get label key value cache =>
    simp only [addNodeWalk, get]
    exact ⟨frame_setDirty (label ▸ prefix_refl _),
      .leaf (getElem?_setDirty get) label key value (by simp),
      fun _ _ => .leaf (getElem?_setDirty get) label key value (by simp)⟩

variable {m : MptNode}

/-- The outcome below a child, as the outcome for the node above it. -/
theorem WalkOutcome.up {i idx : Nat}
    {res : Trie × Except TrieError (Nat × Option NodePtr × Nibble)}
    (h1 : Frame (Under p) t t1 L L) (hout : WalkOutcome C R m (p ++ s) r idx t1 L res)
    (hsub : m.subnode r = none → n.subnode (s ++ r) = none)
    (hup : ∀ R' t2 L2, Clears R R' (p ++ (s ++ r)) → Frame (Under (p ++ s)) t1 t2 L L2 →
      Rep C R' t2 L2 m (p ++ s) (.localIdx idx) → Rep C R' t2 L2 n p (.localIdx i)) :
    WalkOutcome C R n p (s ++ r) i t L res := by
  obtain ⟨t', res⟩ := res
  obtain ⟨hF, hRep, hres⟩ := hout
  rw [append_assoc] at hres
  refine ⟨h1.trans (hF.mono fun _ => Under.of_append), hup R t' L (fun _ _ _ h _ => h) hF hRep, ?_⟩
  rcases res with e | ⟨cur, _ | (idx' | r'), nib⟩
  · obtain ⟨he, hwhy⟩ := hres
    refine ⟨he, hwhy.imp hsub ?_⟩
    rintro ⟨a, r', m', ha, hne, hrm⟩
    refine ⟨s ++ a, r', m', (prefix_append_right_inj s).mpr ha, ?_, ?_⟩
    · exact fun he => hne (append_cancel_left he)
    · rwa [← append_assoc]
  · exact fun R' hR' => hup R' t' L hR' hF (hres R' hR')
  · exact fun R' hR' => hup R' t' L hR' hF (hres R' hR')
  obtain ⟨m', hm, hatt⟩ := hres
  refine ⟨m', hm, ?_⟩
  intro R' t2 L2 ptr hR' hF2 hptr
  obtain ⟨t3, h3, hF3, hrep3⟩ := hatt R' t2 L2 ptr hR' hF2 hptr
  exact ⟨t3, h3, hF3.mono fun _ => Under.of_append,
    hup R' t3 L2 hR' ((hF.trans (hF2.mono fun _ => False.elim)).trans hF3) hrep3⟩

theorem walkSpec_ext (ih : WalkSpec C R c) : WalkSpec C R (.ext k c) := by
  intro p q i fuel t L h hn hq hfuel
  obtain _ | fuel := fuel
  · omega
  obtain ⟨hk, _, hc⟩ := hn.resolve_left (by simp)
  obtain ⟨kr, next, hashed, rlp, get, hopen, child, h1⟩ := h.enter_ext hk
  have key := hopen.key
  by_cases hkq : k <+: q
  · obtain ⟨r, rfl⟩ := hkq
    have hpre : k <+: k ++ r := prefix_append k r
    have hdrop : (p ++ (k ++ r)).drop (p.length + kr.length) = r := by
      rw [← length_of_slice? key, ← length_append, ← append_assoc, drop_left]
    simp only [addNodeWalk, get, drop_left, key, if_pos hpre, hdrop]
    by_cases hr : r = []
    · subst hr
      refine ⟨h1, hopen.rep child, ?_⟩
      rw [append_nil]
      cases next with
      | localIdx idx =>
        exact fun R' hR' => hopen.rep (child.mono_local (Or.inr hc)
          fun l r n _ hne hl => hR' l r n hl hne)
      | remoteIdx r' =>
        refine ⟨c, child.of_remote, ?_⟩
        intro R' t2 L2 ptr _ hF2 hptr
        obtain ⟨⟨rlp2, get2⟩, label2, key2⟩ := hopen.frame hF2 not_false
        exact ⟨t2.setNode i (.extension kr ptr), by simp [attachNode, get2],
          frame_setNode _ (by rw [label2]; exact prefix_refl p),
          rep_setNode_ext get2 rfl label2 key2 hk hptr⟩
    · rw [if_neg hr]
      cases next with
      | remoteIdx r' =>
        exact ⟨h1, hopen.rep child, ⟨_, rfl⟩, Or.inr ⟨k, r', c, hpre, by simpa using Ne.symm hr,
          child.of_remote⟩⟩
      | localIdx idx =>
        have hrec := ih (p ++ k) r idx fuel _ L child (Or.inr hc) hr (length_lt_of_append hk hfuel)
        rw [append_assoc, length_append, length_of_slice? key] at hrec
        exact hrec.up h1 (subnode_ext_append hk c r).trans fun R' t2 L2 _ hF hc' =>
          (hopen.frame hF (not_under_append hk)).rep hc'
  · simp only [addNodeWalk, get, drop_left, key, if_neg hkq]
    refine ⟨h1, hopen.rep child, fun R' hR' => hopen.rep (child.mono_under ?_)⟩
    intro l r n hl hlr
    refine hR' l r n hlr ?_
    rintro rfl
    exact hkq ((prefix_append_right_inj p).mp hl)

theorem walkSpec_branch {ch : Nibble → MptNode} (ih : ∀ j, WalkSpec C R (ch j)) :
    WalkSpec C R (.branch ch) := by
  intro p q i fuel t L h hn hq hfuel
  obtain _ | fuel := fuel
  · omega
  have hc := hn.resolve_left (by simp)
  obtain ⟨c, arr, hashed, rlp, get, hopen, child, h1⟩ := h.enter_branch
  have hRep := hopen.rep child
  cases q with
  | nil => exact absurd rfl hq
  | cons j q =>
  have hnib : (p ++ j :: q)[p.length]? = some j := by simp
  have hdrop : (p ++ j :: q).drop (p.length + 1) = q := by simp
  -- the other children are not at the path
  have hother : ∀ R' t2 L2, Clears R R' (p ++ j :: q) →
      Frame (Under (p ++ [j])) (t.setDirty i) t2 L L2 → ∀ a ptr, a ≠ j → arr a = some ptr →
      Rep C R' t2 L2 (ch a) (p ++ [a]) ptr := by
    intro R' t2 L2 hR' hF a ptr haj ha
    have hold := (child a ptr ha).frame hF fun l hl => not_under_sibling haj hl
    refine hold.mono_under fun l r n hl hlr => hR' l r n hlr ?_
    rintro rfl
    exact not_under_sibling haj hl ⟨q, by simp⟩
  simp only [addNodeWalk, get, hnib, hopen.array, hdrop]
  by_cases hq0 : q = []
  · subst hq0
    refine ⟨h1, hRep, ?_⟩
    cases hj : arr j with
    | none =>
      intro R' hR'
      refine hopen.rep fun a ptr ha => hother R' _ L hR' (Frame.refl ..) a ptr ?_ ha
      rintro rfl
      rw [hj] at ha
      cases ha
    | some ptr0 =>
    cases ptr0 with
    | localIdx idx =>
      intro R' hR'
      exact hopen.rep_at hj ((child j _ hj).mono_local (hc.2 j)
        fun l r n _ hne hl => hR' l r n hl hne) (hother R' _ L hR' (Frame.refl ..))
    | remoteIdx r =>
      refine ⟨ch j, (child j _ hj).of_remote, ?_⟩
      intro R' t2 L2 ptr hR' hF2 hptr
      have hopen2 := hopen.frame hF2 not_false
      obtain ⟨rlp2, get2⟩ := hopen2.get
      refine ⟨t2.setChild c j (some ptr), by simp [attachNode, get2],
        frame_setChild j _ (by rw [hopen2.arrayLabel]; exact prefix_refl p), ?_⟩
      have hb : Rep C R' (t2.setChild c j (some ptr)) L2 (.branch (update ch j (ch j))) p
          (.localIdx i) := hopen2.rep_setChild (by simp [hopen.ne_null hj])
        (by rintro _ ⟨⟩; exact hptr) (hother R' t2 L2 hR' (hF2.mono fun _ => False.elim))
      rwa [update_eq_self] at hb
  · rw [if_neg hq0]
    cases hj : arr j with
    | none =>
      refine ⟨h1, hRep, ⟨_, rfl⟩, Or.inl ?_⟩
      show (ch j).subnode q = none
      rw [(hopen.absent j).mp hj]
      rfl
    | some ptr0 =>
    cases ptr0 with
    | remoteIdx r =>
      exact ⟨h1, hRep, ⟨_, rfl⟩, Or.inr ⟨[j], r, ch j, by simp, by simpa using Ne.symm hq0,
        (child j _ hj).of_remote⟩⟩
    | localIdx idx =>
      have hrec := ih j (p ++ [j]) q idx fuel _ L (child j _ hj) (hc.2 j) hq0 (by simpa using hfuel)
      rw [append_assoc, length_append] at hrec
      exact hrec.up h1 (fun hsub => hsub) fun R' t2 L2 hR' hF hc' =>
        (hopen.frame hF (not_under_append (by simp))).rep_at hj hc' (hother R' t2 L2 hR' hF)

theorem addNodeWalk_spec (n : MptNode) : WalkSpec C R n := by
  induction n with
  | null => exact walkSpec_null
  | leaf k v => exact walkSpec_leaf
  | ext k c ih => exact walkSpec_ext ih
  | branch ch ih => exact walkSpec_branch ih

/-! ## Adding nodes -/

theorem BaseNode.subnode (h : BaseNode base p n) (hp : p ≠ []) : base.subnode p = some n := by
  rcases h with ⟨_, hp', _⟩ | h
  · exact absurd hp' hp
  · exact h

theorem canonical_of_subnode (hb : base.WellFormed)
    (h : base.subnode p = some n) : n.Canonical := by
  rcases hb with rfl | hb
  · cases h
  · exact canonical_subnode hb h

/-- Adding a base node to an initialised trie keeps the represented node. No remote pointer is
    left at the path of the node, those of its children are new. -/
theorem addNodeFromProof_clears (hb : base.WellFormed)
    (h : Rep C R t L n [] (.localIdx 0))
    (hn : n.WellFormed) (hR : ∀ l r n, R l r n → Known C base store l r n)
    (hpath : BaseNode base path m) (hm : store.Matches C m node) (hclear : Clears R R' path)
    (hnew : ∀ l r c, Known C base store l r c → m.ChildAt path l → R' l r c) :
    ∃ t' L', t.values <+: t'.values ∧
      (t.addNodeFromProof store path node = (t', .ok ()) ∧ Rep C R' t' L' n [] (.localIdx 0) ∨
        (∃ e, t.addNodeFromProof store path node = (t', .error (.nodeNotFound e))) ∧
          Rep C R t' L' n [] (.localIdx 0) ∧
          (n.subnode path = none ∨ ∃ s r m, s <+: path ∧ s ≠ path ∧ R s r m)) := by
  have hne : t.nodes.isEmpty = false := by
    obtain ⟨_, s, hs⟩ := h.local
    cases hnodes : t.nodes with
    | nil => simp [hnodes] at hs
    | cons _ _ => rfl
  by_cases hp : path = []
  · subst hp
    exact ⟨t, L, prefix_refl _, Or.inl ⟨by simp [addNodeFromProof, hne],
      h.mono_local hn fun l r n _ hne hl => hclear l r n hl hne⟩⟩
  have hsub := BaseNode.subnode hpath hp
  have hwalk := addNodeWalk_spec n [] path 0 (path.length + t.nodes.length + 1) t L h hn hp
    (by omega)
  simp only [nil_append, length_nil] at hwalk
  have hpe : path.isEmpty = false := by simpa using hp
  simp only [addNodeFromProof, hpe, hne, Bool.false_and, Bool.false_eq_true, if_false]
  generalize addNodeWalk path (path.length + t.nodes.length + 1) t 0 0 = res at hwalk
  obtain ⟨t1, res⟩ := res
  obtain ⟨hF, hRep, hres⟩ := hwalk
  match res, hres with
  | .error e, ⟨⟨e', he⟩, hwhy⟩ =>
    exact ⟨t1, L, hF.values, Or.inr ⟨⟨e', by rw [he]⟩, hRep, hwhy⟩⟩
  | .ok (_, none, _), hres => exact ⟨t1, L, hF.values, Or.inl ⟨rfl, hres R' hclear⟩⟩
  | .ok (_, some (.localIdx _), _), hres => exact ⟨t1, L, hF.values, Or.inl ⟨rfl, hres R' hclear⟩⟩
  | .ok (cur, some (.remoteIdx r), nib), ⟨m', hm', hatt⟩ =>
    -- the remote pointer stands for the node of the base at this path
    have hmm : m' = m := by
      have := (hR _ _ _ hm').1.symm.trans hsub
      exact Option.some.inj this
    subst hmm
    obtain ⟨t2, L2, hpush, hF2, hrep2⟩ := pushProofNode_spec (t := t1) (L := L)
      (S := fun _ => False) hm hsub (canonical_of_subnode hb hsub)
    obtain ⟨t3, h3, hF3, hrep3⟩ := hatt R' t2 L2 _ hclear hF2
      (hrep2.mono fun l r c hl => hnew l r c hl.1 hl.2)
    refine ⟨t3, L2, hF.values.trans (hF2.values.trans hF3.values), Or.inl ⟨?_, hrep3⟩⟩
    simp [hpush, h3]

/-- On an initialised trie, adding a base node keeps the represented node. -/
theorem addNodeFromProof_spec (hb : base.WellFormed)
    (h : Rep C (Known C base store) t L n [] (.localIdx 0)) (hn : n.WellFormed)
    (hpath : BaseNode base path m) (hm : store.Matches C m node) :
    ∃ t' L', Rep C (Known C base store) t' L' n [] (.localIdx 0) ∧ t.values <+: t'.values ∧
      (t.addNodeFromProof store path node = (t', .ok ()) ∨
        ∃ e, t.addNodeFromProof store path node = (t', .error (.nodeNotFound e))) := by
  obtain ⟨t', L', hv, ⟨he, hrep⟩ | ⟨he, hrep, _⟩⟩ := addNodeFromProof_clears hb h hn
    (fun _ _ _ h => h) hpath hm (fun _ _ _ h _ => h) fun _ _ _ h _ => h
  · exact ⟨t', L', hrep, hv, Or.inl he⟩
  · exact ⟨t', L', hrep, hv, Or.inr he⟩

/-- The first node added is the root. -/
theorem addNodeFromProof_uninit (hb : base.WellFormed)
    (h : t.nodes = []) (hpath : BaseNode base path m) (hm : store.Matches C m node) :
    (∃ t' L', t.addNodeFromProof store path node = (t', .ok ()) ∧
      Rep C (fun l r c => Known C base store l r c ∧ base.ChildAt [] l) t' L' base []
        (.localIdx 0) ∧ t.values <+: t'.values) ∨
    path ≠ [] ∧ t.addNodeFromProof store path node = (t, .error (.nodeNotFound [])) := by
  by_cases hp : path = []
  · subst hp
    left
    rcases hpath with ⟨rfl, _, rfl⟩ | hsub
    · cases node with
      | empty =>
        have hget := getElem?_pushNode t .null
        rw [h] at hget
        exact ⟨(t.pushNode .null).1, ⟨fun _ => [], fun _ => []⟩, by simp [addNodeFromProof, h],
          .null hget rfl (by simp), prefix_refl _⟩
      | _ => exact hm.elim
    have hcan := canonical_of_subnode hb hsub
    have hbm : base = m := by
      have hbne : base ≠ .null := by
        rintro rfl
        cases hsub
      rw [subnode_nil hbne] at hsub
      exact Option.some.inj hsub
    subst hbm
    obtain ⟨t', L', hpush, hF, hrep⟩ := pushProofNode_spec (t := t)
      (L := ⟨fun _ => [], fun _ => []⟩) (S := fun _ => False) hm hsub hcan
    rw [h] at hpush hrep
    refine ⟨t', L', ?_, hrep, hF.values⟩
    cases node with
    | empty =>
      cases base with
      | null => exact hcan.elim
      | _ => exact hm.elim
    | _ => simp [addNodeFromProof, h, hpush]
  · exact Or.inr ⟨hp, by simp [addNodeFromProof, h, hp]⟩

/-- The trie represents the map `m`, or nothing yet while `m` is the base map. -/
def Simulates (C : Codec Nibble Bytes Bytes) (base : MptNode) (K : Set Nibbles)
    (store : ProofStore) (t : Trie) (m : MptMap) : Prop :=
  (t.nodes = [] ∧ (∀ k, k ∈ m → k ∈ K) ∧ ∀ k, base.get k = m.lookup k) ∨
    Holds C (Known C base store) K t m

variable {K : Set Nibbles} {m : MptMap}

theorem Simulates.mono (h : Simulates C base K store t m)
    (hg : store.rlpPtrs <+: store'.rlpPtrs) : Simulates C base K store' t m := by
  rcases h with h | ⟨hm, n, L, hrep, hn, hget⟩
  · exact Or.inl h
  · exact Or.inr ⟨hm, n, L, hrep.mono fun _ _ _ hk => hk.mono hg, hn, hget⟩

theorem simulates_addNode (hb : base.WellFormed) (h : Simulates C base K store t m)
    (hpath : BaseNode base path n) (hm : store.Matches C n node) :
    ∃ t', Simulates C base K store t' m ∧ t.values <+: t'.values ∧
      (t.addNodeFromProof store path node = (t', .ok ()) ∨
        ∃ e, t.addNodeFromProof store path node = (t', .error (.nodeNotFound e))) := by
  rcases h with ⟨hnil, hK, hget⟩ | ⟨hK, n', L, hrep, hn, hget⟩
  · rcases addNodeFromProof_uninit hb hnil hpath hm with ⟨t', L', he, hrep, hv⟩ | ⟨_, he⟩
    · exact ⟨t', Or.inr ⟨hK, base, L', hrep.mono fun _ _ _ h => h.1, hb, hget⟩, hv, Or.inl he⟩
    · exact ⟨t, Or.inl ⟨hnil, hK, hget⟩, prefix_refl _, Or.inr ⟨[], he⟩⟩
  · obtain ⟨t', L', hrep', hv, he⟩ := addNodeFromProof_spec hb hrep hn hpath hm
    exact ⟨t', Or.inr ⟨hK, n', L', hrep', hn, hget⟩, hv, he⟩

theorem simulates_addNodes (hb : base.WellFormed) (proof : List (Nibbles × ProofNode))
    (hp : ∀ e ∈ proof, ∃ n, BaseNode base e.1 n ∧ store.Matches C n e.2)
    (h : Simulates C base K store t m) :
    ∃ t', Simulates C base K store t' m ∧ t.values <+: t'.values ∧
      (t.addNodes store proof = (t', .ok ()) ∨
        ∃ e, t.addNodes store proof = (t', .error (.nodeNotFound e))) := by
  induction proof generalizing t with
  | nil => exact ⟨t, h, prefix_refl _, Or.inl rfl⟩
  | cons e proof ih =>
    obtain ⟨path, node⟩ := e
    obtain ⟨n, hpath, hm⟩ := hp (path, node) mem_cons_self
    obtain ⟨t1, h1, hv1, he | ⟨e, he⟩⟩ := simulates_addNode hb h hpath hm
    · obtain ⟨t2, h2, hv2, he2⟩ := ih (fun e he => hp e (mem_cons_of_mem _ he)) h1
      refine ⟨t2, h2, hv1.trans hv2, ?_⟩
      simpa only [addNodes, he] using he2
    · exact ⟨t1, h1, hv1, Or.inr ⟨e, by simp only [addNodes, he]⟩⟩

/-- `try_add_proof_from_proof_store` keeps the represented map. -/
theorem simulates_tryAddProof (hb : base.WellFormed) (hok : StoreOk C base store)
    (h : Simulates C base K store t m) (key : Nibbles) :
    ∃ t', Simulates C base K store t' m ∧ t.values <+: t'.values ∧
      ((∃ b, t.tryAddProofFromProofStore store key = (t', .ok b)) ∨
        ∃ e, t.tryAddProofFromProofStore store key = (t', .error (.nodeNotFound e))) := by
  unfold tryAddProofFromProofStore
  cases hl : store.proofs.lookup key with
  | none => exact ⟨t, h, prefix_refl _, Or.inl ⟨false, rfl⟩⟩
  | some proof =>
    obtain ⟨t', h', hv, he | ⟨e, he⟩⟩ := simulates_addNodes hb proof (hok key proof hl) h
    · exact ⟨t', h', hv, Or.inl ⟨true, by simp only [he]⟩⟩
    · exact ⟨t', h', hv, Or.inr ⟨e, by simp only [he]⟩⟩

end Trie

end SparseMpt
