/-
  `insert_nibble_key` computes `Node.insert` on the represented node.

  `insertLoop_spec` is by induction on the abstract node: one iteration of the loop
  dirties the current node, and the recursive call below it changes nothing that
  carries a label outside of the child's path. The loop either returns the old value
  and leaves the updated node, or stops at a remote pointer on the key's path and
  leaves the node as it was.
-/
import Rbuilder.SparseMpt.Rep

namespace SparseMpt

open Patricia (Codec commonPrefix wrap)
open Function Patricia.Node List

/-- The bytes an insert value stands for. -/
def InsertValue.Denotes (t : Trie) (v : Bytes) : InsertValue → Prop
  | .value w => w = v
  | .storedValue r => slice? t.values r = some v

namespace Trie

variable {C : Codec Nibble Bytes Bytes} {R : Nibbles → Nat → MptNode → Prop} {S : Nibbles → Prop}
  {t t' : Trie} {L L' : Labels}

/-- A remote pointer stands on the way from `p` along `q`. -/
def Blocked (R : Nibbles → Nat → MptNode → Prop) (p q : Nibbles) : Prop :=
  ∃ s r n, s <+: q ∧ R (p ++ s) r n

variable {p k q r common q' k' : Nibbles} {i c fuel : Nat} {s : Slot} {kr vr : Range}
  {n2 n1 : Nibble}

theorem Blocked.append (h : Blocked R (p ++ k) q) : Blocked R p (k ++ q) := by
  obtain ⟨s, r, n, hs, hr⟩ := h
  exact ⟨k ++ s, r, n, (prefix_append_right_inj k).mpr hs, by rwa [← append_assoc]⟩

/-- The bytes of a returned range; `none` when it is out of bounds. -/
def readValue (t : Trie) : Option Range → Option (Option Bytes)
  | none => some none
  | some r => (slice? t.values r).map some

/-! ## One slot -/

theorem getElem?_setDirty (h : t.nodes[i]? = some s) :
    (t.setDirty i).nodes[i]? = some { s with hashed := false } := by
  simp [setDirty, h]

theorem getElem?_setNode (node : DiffTrieNode) (h : t.nodes[i]? = some s) :
    (t.setNode i node).nodes[i]? = some { s with node } := by
  simp [setNode, h]

theorem getElem?_setChild {arr : Children} (j : Nibble) (ptr : Option NodePtr)
    (h : t.branchNodeChildren[c]? = some arr) :
    (t.setChild c j ptr).branchNodeChildren[c]? = some (update arr j ptr) := by
  simp [setChild, h]

theorem getElem?_pushNode (t : Trie) (node : DiffTrieNode) :
    (t.pushNode node).1.nodes[t.nodes.length]? = some { node } := by
  simp [pushNode]

theorem slice?_insertKey (t : Trie) (k : Nibbles) :
    slice? (t.insertKey k).1.keys (t.insertKey k).2 = some k :=
  slice?_append t.keys k

/-! ## Nodes on a walk -/

/-- An extension whose flag is cleared. -/
structure OpenExt (t : Trie) (L : Labels) (p : Nibbles) (i : Nat) (kr : Range) (k : Nibbles)
    (next : NodePtr) : Prop where
  get : ∃ rlp, t.nodes[i]? = some ⟨.extension kr next, false, rlp⟩
  label : L.node i = p
  key : slice? t.keys kr = some k

/-- A branch whose flag is cleared, with the children that are not null. -/
structure OpenBranch (t : Trie) (L : Labels) (p : Nibbles) (i c : Nat) (arr : Children)
    (ch : Nibble → MptNode) : Prop where
  get : ∃ rlp, t.nodes[i]? = some ⟨.branch c, false, rlp⟩
  label : L.node i = p
  array : t.branchNodeChildren[c]? = some arr
  arrayLabel : L.children c = p
  absent : ∀ j, arr j = none ↔ ch j = .null

section Open

variable {next : NodePtr} {m : MptNode} {c : Nat} {arr : Children} {ch : Nibble → MptNode}
  {j : Nibble}

theorem OpenExt.rep (h : OpenExt t L p i kr k next) (hm : Rep C R t L m (p ++ k) next) :
    Rep C R t L (.ext k m) p (.localIdx i) := by
  obtain ⟨rlp, get⟩ := h.get
  exact .ext get h.label h.key (by simp) hm

theorem OpenExt.frame (h : OpenExt t L p i kr k next) (hF : Frame S t t' L L') (hp : ¬ S p) :
    OpenExt t' L' p i kr k next := by
  obtain ⟨rlp, get⟩ := h.get
  obtain ⟨get', label⟩ := hF.nodes get (by rwa [h.label])
  exact ⟨⟨rlp, get'⟩, label.trans h.label, slice?_mono h.key hF.keys⟩

theorem Rep.enter_ext (h : Rep C R t L (.ext k m) p (.localIdx i)) (hk : k ≠ []) :
    ∃ kr next hashed rlp, t.nodes[i]? = some ⟨.extension kr next, hashed, rlp⟩ ∧
      OpenExt (t.setDirty i) L p i kr k next ∧ Rep C R (t.setDirty i) L m (p ++ k) next ∧
      Frame (Under p) t (t.setDirty i) L L := by
  cases h with
  | ext get label key cache child =>
    have h0 : Frame (· = p) t (t.setDirty i) L L := frame_setDirty label
    exact ⟨_, _, _, _, get, ⟨⟨_, getElem?_setDirty get⟩, label, key⟩,
      child.frame h0 fun l hl => ne_of_append_prefix hk hl,
      h0.mono fun l hl => hl ▸ prefix_refl p⟩

section

variable (h : OpenBranch t L p i c arr ch)
include h

theorem OpenBranch.ne_null (hj : arr j = some next) : ch j ≠ .null := by
  rw [ne_eq, ← h.absent j, hj]
  simp

theorem OpenBranch.frame (hF : Frame S t t' L L') (hp : ¬ S p) : OpenBranch t' L' p i c arr ch := by
  obtain ⟨rlp, get⟩ := h.get
  obtain ⟨get', label⟩ := hF.nodes get (by rwa [h.label])
  obtain ⟨array, arrayLabel⟩ := hF.children h.array (by rwa [h.arrayLabel])
  exact ⟨⟨rlp, get'⟩, label.trans h.label, array, arrayLabel.trans h.arrayLabel, h.absent⟩

/-- The child `j` has become `m`, the others are as before. -/
theorem OpenBranch.rep_update (hj : arr j = some next)
    (hm : m ≠ .null) (hrep : Rep C R t L m (p ++ [j]) next)
    (other : ∀ a ptr, a ≠ j → arr a = some ptr → Rep C R t L (ch a) (p ++ [a]) ptr) :
    Rep C R t L (.branch (update ch j m)) p (.localIdx i) := by
  obtain ⟨rlp, get⟩ := h.get
  refine .branch get h.label h.array h.arrayLabel (by simp) ?_ ?_
  · intro a
    by_cases haj : a = j
    · subst haj
      simp [hj, hm]
    · simp [haj, h.absent]
  intro a ptr ha
  by_cases haj : a = j
  · subst haj
    rw [hj] at ha
    cases ha
    simpa using hrep
  · rw [update_of_ne haj]
    exact other a ptr haj ha

theorem OpenBranch.rep_at (hj : arr j = some next) (hrep : Rep C R t L (ch j) (p ++ [j]) next)
    (other : ∀ a ptr, a ≠ j → arr a = some ptr → Rep C R t L (ch a) (p ++ [a]) ptr) :
    Rep C R t L (.branch ch) p (.localIdx i) := by
  have hb := h.rep_update hj (h.ne_null hj) hrep other
  rwa [update_eq_self] at hb

theorem OpenBranch.rep (child : ∀ j ptr, arr j = some ptr → Rep C R t L (ch j) (p ++ [j]) ptr) :
    Rep C R t L (.branch ch) p (.localIdx i) := by
  obtain ⟨rlp, get⟩ := h.get
  exact .branch get h.label h.array h.arrayLabel (by simp) h.absent child

/-- A new pointer is stored at `j`. -/
theorem OpenBranch.rep_setChild {ptr : Option NodePtr}
    (hm : ptr = none ↔ m = .null) (hrep : ∀ q, ptr = some q → Rep C R t L m (p ++ [j]) q)
    (other : ∀ a ptr, a ≠ j → arr a = some ptr → Rep C R t L (ch a) (p ++ [a]) ptr) :
    Rep C R (t.setChild c j ptr) L (.branch (update ch j m)) p (.localIdx i) := by
  obtain ⟨rlp, get⟩ := h.get
  have hw : Frame (· = p) t (t.setChild c j ptr) L L := frame_setChild j ptr h.arrayLabel
  have hbelow : ∀ a l, p ++ [a] <+: l → ¬ l = p := fun a l hl => ne_of_append_prefix (by simp) hl
  refine .branch get h.label (getElem?_setChild j ptr h.array) h.arrayLabel (by simp) ?_ ?_
  · intro a
    by_cases haj : a = j
    · subst haj
      simpa using hm
    · simp [haj, h.absent]
  intro a q ha
  by_cases haj : a = j
  · subst haj
    rw [update_self] at ha ⊢
    exact (hrep q ha).frame hw (hbelow a)
  · rw [update_of_ne haj] at ha ⊢
    exact (other a q haj ha).frame hw (hbelow a)

end

theorem Rep.enter_branch (h : Rep C R t L (.branch ch) p (.localIdx i)) :
    ∃ c arr hashed rlp, t.nodes[i]? = some ⟨.branch c, hashed, rlp⟩ ∧
      OpenBranch (t.setDirty i) L p i c arr ch ∧
      (∀ j ptr, arr j = some ptr → Rep C R (t.setDirty i) L (ch j) (p ++ [j]) ptr) ∧
      Frame (Under p) t (t.setDirty i) L L := by
  cases h with
  | branch get label array arrayLabel cache absent child =>
    have h0 : Frame (· = p) t (t.setDirty i) L L := frame_setDirty label
    exact ⟨_, _, _, _, get, ⟨⟨_, getElem?_setDirty get⟩, label, array, arrayLabel, absent⟩,
      fun j ptr hj => (child j ptr hj).frame h0 fun l hl => ne_of_append_prefix (by simp) hl,
      h0.mono fun l hl => hl ▸ prefix_refl p⟩

end Open

/-- The fuel that is left below an extension. -/
theorem length_lt_of_append (hk : k ≠ []) (h : (k ++ r).length < fuel + 1) : r.length < fuel := by
  have := length_pos_iff.mpr hk
  rw [length_append] at h
  omega

/-! ## Values and leaves -/

variable {iv : InsertValue}

variable {v : Bytes}

theorem Denotes.mono (h : iv.Denotes t v)
    (hv : t.values <+: t'.values) : iv.Denotes t' v := by
  cases iv with
  | value w => exact h
  | storedValue r => exact slice?_mono h hv

theorem frame_insertValue (iv : InsertValue) : Frame S t (t.insertValue iv).1 L L := by
  cases iv with
  | value w => exact frame_copyValue w
  | storedValue r => exact Frame.refl ..

theorem slice?_insertValue (h : iv.Denotes t v) :
    slice? (t.insertValue iv).1.values (t.insertValue iv).2 = some v := by
  cases iv with
  | value w =>
    obtain rfl : w = v := h
    exact slice?_append t.values w
  | storedValue r => exact h

section

variable (t : Trie) (iv : InsertValue)

@[simp] theorem insertValue_nodes : (t.insertValue iv).1.nodes = t.nodes := by
  cases iv <;> rfl

@[simp] theorem insertValue_keys : (t.insertValue iv).1.keys = t.keys := by
  cases iv <;> rfl

@[simp] theorem insertValue_children :
    (t.insertValue iv).1.branchNodeChildren = t.branchNodeChildren := by
  cases iv <;> rfl

end

theorem pushLeaf_ptr (t : Trie) (k : Nibbles) (iv : InsertValue) :
    (t.pushLeaf k iv).2 = .localIdx t.nodes.length := by
  simp [pushLeaf, pushNode, insertKey]

theorem frame_pushLeaf (k : Nibbles) (iv : InsertValue) (p : Nibbles) :
    Frame S t (t.pushLeaf k iv).1 L (L.setNode t.nodes.length p) := by
  have h1 : Frame S t (t.insertKey k).1 L L := frame_insertKey k
  have h2 := h1.trans (frame_insertValue iv)
  have h3 := h2.trans (frame_pushNode
    (.leaf (t.insertKey k).2 ((t.insertKey k).1.insertValue iv).2) p)
  rwa [insertValue_nodes] at h3

theorem rep_pushLeaf (hv : iv.Denotes t v) (k p : Nibbles) :
    Rep C R (t.pushLeaf k iv).1 (L.setNode t.nodes.length p) (.leaf k v) p (t.pushLeaf k iv).2 := by
  have hv' : iv.Denotes (t.insertKey k).1 v := Denotes.mono hv (prefix_refl _)
  have hget := getElem?_pushNode ((t.insertKey k).1.insertValue iv).1
    (.leaf (t.insertKey k).2 ((t.insertKey k).1.insertValue iv).2)
  rw [insertValue_nodes] at hget
  have hkeys : (t.pushLeaf k iv).1.keys = (t.insertKey k).1.keys := by
    simp [pushLeaf, pushNode]
  rw [pushLeaf_ptr]
  refine .leaf hget (Labels.setNode_self ..) ?_ (slice?_insertValue hv') (by simp)
  rw [hkeys]
  exact slice?_insertKey t k

/-- Overwriting a dirty node with a leaf. -/
theorem rep_setNode_leaf
    (hi : t.nodes[i]? = some s) (hs : s.hashed = false) (hl : L.node i = p)
    (hk : slice? t.keys kr = some k) (hv : slice? t.values vr = some v) :
    Rep C R (t.setNode i (.leaf kr vr)) L (.leaf k v) p (.localIdx i) := by
  have := getElem?_setNode (.leaf kr vr) hi
  exact .leaf this hl hk hv (by simp [hs])

/-! ## Splitting -/

theorem isEmpty_of_slice? {α : Type} {buf x : List α} {r : Range} (h : slice? buf r = some x) :
    r.isEmpty = x.isEmpty := by
  have hl := length_of_slice? h
  unfold Range.length at hl
  unfold Range.isEmpty
  cases x with
  | nil =>
    simp only [length_nil] at hl
    simp only [isEmpty_nil, decide_eq_true_eq]
    omega
  | cons a x =>
    simp only [length_cons] at hl
    simp only [isEmpty_cons, decide_eq_false_iff_not]
    omega

theorem extractPrefixAndSuffix_eq (hk : slice? t.keys kr = some (common ++ n2 :: k'))
    (hc : commonPrefix (common ++ n1 :: q') (common ++ n2 :: k') = common) :
    t.extractPrefixAndSuffix (common ++ n1 :: q') kr =
      some (common, n1, q', n2, ⟨kr.start + common.length + 1, kr.stop⟩) := by
  have h2 : t.keys[kr.start + common.length]? = some n2 := by
    rw [getElem?_of_slice? hk (by simp)]
    simp
  simp [extractPrefixAndSuffix, hk, mismatch_eq, hc, h2]

theorem slice?_suffix (hk : slice? t.keys kr = some (common ++ n2 :: k')) :
    slice? t.keys ⟨kr.start + common.length + 1, kr.stop⟩ = some k' := by
  have h := slice?_drop hk (n := common.length + 1) (by simp)
  rw [Nat.add_assoc, h]
  simp

/-- `mismatch` is the length of the longest common prefix, so its two slices are in bounds; and
    where neither the path nor the stored key starts with the other, both split there. -/
theorem mismatch_longest :
    (∀ xs ys : List UInt8,
      mismatch xs ys ≤ xs.length ∧ mismatch xs ys ≤ ys.length ∧
      xs.take (mismatch xs ys) = ys.take (mismatch xs ys) ∧
      ∀ p, p <+: xs → p <+: ys → p.length ≤ mismatch xs ys) ∧
    ∀ (t : Trie) (pathLeft k : Nibbles) (key : Range), slice? t.keys key = some k →
      ¬ pathLeft <+: k → ¬ k <+: pathLeft →
      ∃ pre n1 suff1 n2 suff2 k', t.extractPrefixAndSuffix pathLeft key =
          some (pre, n1, suff1, n2, suff2) ∧
        pathLeft = pre ++ n1 :: suff1 ∧ k = pre ++ n2 :: k' ∧ slice? t.keys suff2 = some k' := by
  refine ⟨?_, ?_⟩
  · intro xs ys
    have hxs := Patricia.commonPrefix_prefix_left xs ys
    have hys := Patricia.commonPrefix_prefix_right xs ys
    rw [mismatch_eq]
    refine ⟨hxs.length_le, hys.length_le, ?_, ?_⟩
    · rw [← prefix_iff_eq_take.mp hxs, ← prefix_iff_eq_take.mp hys]
    · exact fun p hpx hpy => (Patricia.prefix_commonPrefix hpx hpy).length_le
  · intro t pathLeft k key hk hpk hkp
    obtain ⟨pre, n1, suff1, n2, k', hpre, rfl, rfl, _⟩ := split_apart hpk hkp
    exact ⟨pre, n1, suff1, n2, _, k', extractPrefixAndSuffix_eq hk hpre, rfl, rfl, slice?_suffix hk⟩

/-- What is left to do after a fork: when the fork's children array stands for `ch`,
    the forked node stands for the branch over `ch`, below `common`. -/
theorem forkNode_spec (common : Nibbles)
    (hi : t.nodes[i]? = some s) (hs : s.hashed = false) (hl : L.node i = p) :
    ∃ L1, Frame (· = p) t (t.forkNode i common).1 L L1 ∧
      (t.forkNode i common).2 = t.branchNodeChildren.length ∧
      L1.children t.branchNodeChildren.length = p ++ common ∧
      (t.forkNode i common).1.branchNodeChildren[t.branchNodeChildren.length]? =
        some (fun _ => none) ∧
      ∀ t3 L3 arr ch, Frame (· = p ++ common) (t.forkNode i common).1 t3 L1 L3 →
        (∀ j s, (t.forkNode i common).1.nodes[j]? = some s →
          t3.nodes[j]? = some s ∧ L3.node j = L1.node j) →
        t3.branchNodeChildren[t.branchNodeChildren.length]? = some arr →
        L3.children t.branchNodeChildren.length = p ++ common →
        (∀ j, arr j = none ↔ ch j = .null) →
        (∀ j ptr, arr j = some ptr → Rep C R t3 L3 (ch j) (p ++ common ++ [j]) ptr) →
        Rep C R t3 L3 (wrap common (.branch ch)) p (.localIdx i) := by
  cases common with
  | nil =>
    have hf : t.forkNode i [] = ((t.createBranchChildren.1).setNode i
        (.branch t.branchNodeChildren.length), t.branchNodeChildren.length) := rfl
    have hframe : Frame (· = p) t (t.forkNode i []).1 L
        (L.setChildren t.branchNodeChildren.length p) := by
      exact (frame_createBranchChildren p).trans (frame_setNode _ (by simpa using hl))
    refine ⟨L.setChildren t.branchNodeChildren.length p, hframe, rfl, by simp, ?_, ?_⟩
    · simp [hf, setNode, createBranchChildren]
    intro t3 L3 arr ch _ hn harr hlab habs hch
    have hslot : (t.forkNode i []).1.nodes[i]? =
        some { s with node := .branch t.branchNodeChildren.length } := by
      exact getElem?_setNode _ hi
    obtain ⟨h1, h2⟩ := hn i _ hslot
    simp only [append_nil] at hlab hch
    exact .branch h1 (by rw [h2]; exact hl) harr hlab (by simp [hs]) habs hch
  | cons a common =>
    -- the branch is the node pushed last
    have hf : t.forkNode i (a :: common) =
        (((((t.insertKey (a :: common)).1.setNode i
          (.extension (t.insertKey (a :: common)).2 (.localIdx t.nodes.length))
          ).createBranchChildren.1).pushNode (.branch t.branchNodeChildren.length)).1,
          t.branchNodeChildren.length) := rfl
    have hlen : ((t.insertKey (a :: common)).1.setNode i
        (.extension (t.insertKey (a :: common)).2 (.localIdx t.nodes.length))).nodes.length
          = t.nodes.length := by
      simp [setNode, insertKey]
    have hne : i ≠ t.nodes.length := (lt_of_getElem? hi).ne
    let L1 := (L.setChildren t.branchNodeChildren.length (p ++ a :: common)).setNode
      t.nodes.length (p ++ a :: common)
    have hframe : Frame (· = p) t (t.forkNode i (a :: common)).1 L L1 := by
      have h1 : Frame (· = p) t (t.insertKey (a :: common)).1 L L := frame_insertKey _
      have h2 := h1.trans (frame_setNode (.extension (t.insertKey (a :: common)).2
        (.localIdx t.nodes.length)) hl)
      have h3 := h2.trans (frame_createBranchChildren (p ++ a :: common))
      have h4 := h3.trans (frame_pushNode (.branch t.branchNodeChildren.length) (p ++ a :: common))
      have hlen' : ((t.insertKey (a :: common)).1.setNode i
        (.extension (t.insertKey (a :: common)).2
          (.localIdx t.nodes.length))).createBranchChildren.1.nodes.length = t.nodes.length :=
        hlen
      rw [hlen'] at h4
      exact h4
    refine ⟨L1, hframe, rfl, by simp [L1], ?_, ?_⟩
    · simp [hf, setNode, createBranchChildren, pushNode, insertKey]
    intro t3 L3 arr ch hfr hn harr hlab habs hch
    have hslot : (t.forkNode i (a :: common)).1.nodes[i]? = some { s with
        node := .extension (t.insertKey (a :: common)).2 (.localIdx t.nodes.length) } := by
      exact getElem?_append_of_some (getElem?_setNode (t := (t.insertKey (a :: common)).1)
        _ hi) _
    have hbranch : (t.forkNode i (a :: common)).1.nodes[t.nodes.length]? =
        some ⟨.branch t.branchNodeChildren.length, false, []⟩ := by
      simp [hf, pushNode, createBranchChildren, setNode, insertKey]
    obtain ⟨h1, h2⟩ := hn i _ hslot
    obtain ⟨h3, h4⟩ := hn _ _ hbranch
    refine .ext h1 (by rw [h2]; simpa [L1, Labels.setNode_of_ne _ _ hne] using hl)
      (slice?_mono (slice?_insertKey t (a :: common)) hfr.keys) (by simp [hs]) ?_
    exact .branch h3 (by rw [h4]; simp [L1]) harr hlab (by simp) habs hch

/-- The whole split: fork, add the new leaf and the rest of the old node, store both in the fork. -/
theorem forkNode_pair (common q' : Nibbles) {b : MptNode}
    (hi : t.nodes[i]? = some s) (hs : s.hashed = false) (hl : L.node i = p) (hne : n1 ≠ n2)
    (hb : b ≠ .null) (hv : iv.Denotes t v) {t1 : Trie} {c : Nat}
    (hfork : t.forkNode i common = (t1, c)) :
    ∃ L1 L2, Frame (· = p) t t1 L L1 ∧
      Frame (fun _ => False) t1 (t1.pushLeaf q' iv).1 L1 L2 ∧
      ∀ t3 L3 q2, Frame (fun _ => False) (t1.pushLeaf q' iv).1 t3 L2 L3 →
        Rep C R t3 L3 b (p ++ common ++ [n2]) q2 →
        Frame (Under p) t ((t3.setChild c n1 (some (t1.pushLeaf q' iv).2)).setChild c n2 (some q2))
          L L3 ∧
        Rep C R ((t3.setChild c n1 (some (t1.pushLeaf q' iv).2)).setChild c n2 (some q2)) L3
          (wrap common (pair n1 (.leaf q' v) n2 b)) p (.localIdx i) := by
  obtain ⟨L1, hF1, hc, hlc, harr, hfin⟩ := forkNode_spec (C := C) (R := R) common hi hs hl
  rw [hfork] at hF1 hc harr hfin
  obtain rfl : c = _ := hc
  refine ⟨L1, _, hF1, frame_pushLeaf q' iv (p ++ common ++ [n1]), ?_⟩
  intro t3 L3 q2 hF3 hq2
  have hF2 := (frame_pushLeaf q' iv (p ++ common ++ [n1])).trans hF3
  have hq1 := (rep_pushLeaf (C := C) (R := R) (Denotes.mono hv hF1.values) q'
    (p ++ common ++ [n1])).frame hF3 fun _ _ h => h
  obtain ⟨harr2, hlc2⟩ := hF2.children harr not_false
  rw [hlc] at hlc2
  -- the two writes touch the fork's children array only
  have hw1 : Frame (· = p ++ common) t3
      (t3.setChild t.branchNodeChildren.length n1 (some (t1.pushLeaf q' iv).2)) L3 L3 :=
    frame_setChild _ _ hlc2
  have hw2 := hw1.trans (frame_setChild n2 (some q2) hlc2)
  have hF4 := (hF2.mono fun _ h => h.elim).trans hw2
  have below : ∀ (n : Nibble) l, p ++ common ++ [n] <+: l → ¬ l = p ++ common := fun n l hl' =>
    ne_of_append_prefix (by simp) hl'
  have h3 := getElem?_setChild n2 (some q2) (getElem?_setChild n1 (some (t1.pushLeaf q' iv).2) harr2)
  refine ⟨(hF1.mono fun l hlp => hlp ▸ prefix_refl p).trans
    (hF4.mono fun l hlp => hlp ▸ prefix_append p common), ?_⟩
  refine hfin _ L3 _ _ hF4 (fun j s hj => hF2.nodes hj not_false) h3 hlc2 ?_ ?_
  · intro j
    by_cases h2 : j = n2
    · subst h2; simp [hb]
    · by_cases h1 : j = n1
      · subst h1; simp [hne]
      · simp [h1, h2]
  intro j ptr hj
  by_cases h2 : j = n2
  · subst h2
    simp only [update_self, Option.some.injEq] at hj ⊢
    subst hj
    exact hq2.frame hw2 (below j)
  by_cases h1 : j = n1
  · subst h1
    simp only [update_of_ne hne, update_self, Option.some.injEq] at hj ⊢
    subst hj
    exact hq1.frame hw2 (below j)
  · simp [h1, h2] at hj

/-! ## The loop -/

/-- What a run of the loop from the node `n` at path `p` and index `i` leaves behind. -/
def InsertOutcome (C : Codec Nibble Bytes Bytes) (R : Nibbles → Nat → MptNode → Prop) (n : MptNode)
    (v : Bytes) (p q : Nibbles) (i : Nat) (t : Trie) (L : Labels)
    (res : Trie × Except TrieError (Option Range)) : Prop :=
  ∃ L', Frame (Under p) t res.1 L L' ∧
    match res.2 with
    | .ok old => Rep C R res.1 L' (n.insert q v) p (.localIdx i) ∧
        res.1.readValue old = some (n.get q)
    | .error e => e = .nodeNotFound (p ++ q) ∧ Rep C R res.1 L' n p (.localIdx i) ∧ Blocked R p q

def InsertSpec (C : Codec Nibble Bytes Bytes) (R : Nibbles → Nat → MptNode → Prop)
    (iv : InsertValue) (v : Bytes) (n : MptNode) : Prop :=
  ∀ p q i fuel t L, Rep C R t L n p (.localIdx i) → n.WellFormed → n.Apart q → iv.Denotes t v →
    q.length < fuel → InsertOutcome C R n v p q i t L (insertLoop (p ++ q) iv fuel t i p.length)

variable {iv : InsertValue} {v w : Bytes}

theorem insertSpec_null : InsertSpec C R iv v .null := by
  intro p q i fuel t L h _ _ hv hfuel
  obtain _ | fuel := fuel
  · omega
  cases h with
  | @null p i hashed rlp get label cache =>
    simp only [insertLoop, get, drop_left]
    have hd := getElem?_setDirty get
    have h1 : Frame (Under p) t (t.setDirty i) L L := frame_setDirty (label ▸ prefix_refl _)
    have h2 := (h1.trans (frame_insertKey q)).trans (frame_insertValue iv)
    refine ⟨L, h2.trans (frame_setNode _ (label ▸ prefix_refl _)), ?_, rfl⟩
    refine rep_setNode_leaf (by rw [insertValue_nodes]; exact hd) rfl label ?_ ?_
    · rw [insertValue_keys]
      exact slice?_insertKey _ q
    · exact slice?_insertValue (Denotes.mono hv (prefix_refl _))

theorem insertSpec_leaf : InsertSpec C R iv v (.leaf k w) := by
  intro p q i fuel t L h _ hq hv hfuel
  obtain _ | fuel := fuel
  · omega
  cases h with
  | @leaf k w p i kr vr hashed rlp get label key value cache =>
    have hd := getElem?_setDirty get
    have h1 : Frame (Under p) t (t.setDirty i) L L := frame_setDirty (label ▸ prefix_refl _)
    have hv1 : iv.Denotes (t.setDirty i) v := Denotes.mono hv (prefix_refl _)
    have key1 : slice? (t.setDirty i).keys kr = some k := key
    by_cases hkq : k = q
    · subst hkq
      simp only [insertLoop, get, drop_left, key1, if_true]
      have h2 := h1.trans (frame_insertValue iv)
      refine ⟨L, h2.trans (frame_setNode _ (label ▸ prefix_refl _)), ?_, ?_⟩
      · simp only [Patricia.Node.insert, if_true]
        refine rep_setNode_leaf (by rw [insertValue_nodes]; exact hd) rfl label ?_
          (slice?_insertValue hv1)
        rw [insertValue_keys]
        exact key
      · simp [readValue, setNode, slice?_mono value h2.values]
    obtain ⟨hnk, hnq⟩ := hq k w (get_leaf_self k w) hkq
    obtain ⟨common, n1, q', n2, k', hc, rfl, rfl, hne⟩ := split_apart hnq hnk
    simp only [insertLoop, get, drop_left, key1, if_neg hkq,
      extractPrefixAndSuffix_eq key1 hc]
    generalize hfork : (t.setDirty i).forkNode i common = fork
    obtain ⟨t1, c⟩ := fork
    obtain ⟨L1, L2, hF1, hF2, hpair⟩ := forkNode_pair (C := C) (R := R) common q' (b := .leaf k' w)
      hd rfl label hne (by simp) hv1 hfork
    have hF3 := hF2.trans (frame_pushNode
      (.leaf ⟨kr.start + common.length + 1, kr.stop⟩ vr) (p ++ common ++ [n2]))
    obtain ⟨hFr, hRep⟩ := hpair _ _ (.localIdx (t1.pushLeaf q' iv).1.nodes.length)
      (frame_pushNode ..)
      (.leaf (getElem?_pushNode ..) (Labels.setNode_self ..)
        (slice?_mono (slice?_suffix key1) (hF1.keys.trans hF3.keys))
        (slice?_mono value (hF1.values.trans hF3.values)) (by simp))
    rw [← insert_leaf_split hne v w hc] at hRep
    refine ⟨_, h1.trans hFr, hRep, ?_⟩
    have hget : (leaf (common ++ n2 :: k') w).get (common ++ n1 :: q') = none := by
      rw [get_leaf, if_neg (Ne.symm hkq)]
    rw [hget]
    rfl

theorem insertSpec_ext {c : MptNode} (ih : InsertSpec C R iv v c) :
    InsertSpec C R iv v (.ext k c) := by
  intro p q i fuel t L h hn hq hv hfuel
  obtain _ | fuel := fuel
  · omega
  obtain ⟨hk, _, hc⟩ := hn.resolve_left (by simp)
  obtain ⟨kr, next, hashed, rlp, get, hopen, child, h1⟩ := h.enter_ext hk
  have hv1 : iv.Denotes (t.setDirty i) v := Denotes.mono hv (prefix_refl _)
  have key := hopen.key
  by_cases hkq : k <+: q
  · obtain ⟨r, rfl⟩ := hkq
    have hpre : k <+: k ++ r := prefix_append k r
    simp only [insertLoop, get, drop_left, key, if_pos hpre]
    cases next with
    | remoteIdx r' => exact ⟨L, h1, rfl, hopen.rep child, k, r', c, hpre, child.of_remote⟩
    | localIdx idx =>
      have hrec := ih (p ++ k) r idx fuel _ L child (Or.inr hc) hq.of_ext hv1
        (length_lt_of_append hk hfuel)
      rw [append_assoc, length_append, length_of_slice? key] at hrec
      simp only
      generalize insertLoop (p ++ (k ++ r)) iv fuel (t.setDirty i) idx
        (p.length + kr.length) = res at hrec
      obtain ⟨L', hF, hres⟩ := hrec
      have hopen' := hopen.frame hF (not_under_append hk)
      refine ⟨L', h1.trans (hF.mono fun _ => Under.of_append), ?_⟩
      cases hr : res.2 with
      | ok old =>
        rw [hr] at hres
        refine ⟨?_, by simpa using hres.2⟩
        rw [insert_ext_append]
        exact hopen'.rep hres.1
      | error e =>
        rw [hr] at hres
        exact ⟨by simpa using hres.1, hopen'.rep hres.2.1, hres.2.2.append⟩
  · have hqk : ¬ q <+: k := by
      intro hpre
      obtain ⟨r, w, hr⟩ := hc.exists_get
      have hne : k ++ r ≠ q := fun he => hkq (he ▸ prefix_append k r)
      exact (hq (k ++ r) w (by simpa using hr) hne).2 (hpre.trans (prefix_append k r))
    have hget := get_ext_off_path c hkq
    obtain ⟨common, n1, q', n2, k', hcp, rfl, rfl, hne⟩ := split_apart hqk hkq
    simp only [insertLoop, get, drop_left, key, if_neg hkq,
      extractPrefixAndSuffix_eq key hcp]
    have hsuf := slice?_suffix key
    generalize hfork : (t.setDirty i).forkNode i common = fork
    obtain ⟨t1, b⟩ := fork
    have hnull : wrap k' c ≠ .null := by
      cases k' with
      | nil => exact hc.ne_null
      | cons _ _ => simp [wrap]
    obtain ⟨L1, L2, hF1, hF2, hpair⟩ := forkNode_pair (C := C) (R := R) common q'
      (getElem?_setDirty get) rfl hopen.label hne hnull hv1 hfork
    have hchild : Rep C R (t1.pushLeaf q' iv).1 L2 c (p ++ (common ++ n2 :: k')) next :=
      (child.frame hF1 fun l hl => ne_of_append_prefix hk hl).frame hF2 fun _ _ h => h
    have hpath : p ++ (common ++ n2 :: k') = p ++ common ++ [n2] ++ k' := by simp
    rw [hpath] at hchild
    have hempty := isEmpty_of_slice? hsuf
    suffices hend : ∃ L2, Frame (Under p) (t.setDirty i) _ L L2 ∧ Rep C R _ L2 _ p _ by
      obtain ⟨L2, hFr, hRep⟩ := hend
      exact ⟨L2, h1.trans hFr, hRep, by rw [hget]; rfl⟩
    rw [insert_ext_split hne v c hcp, hempty]
    cases k' with
    | nil =>
      rw [append_nil] at hchild
      exact ⟨_, hpair _ _ next (Frame.refl ..) hchild⟩
    | cons a k' =>
      have hF3 := hF2.trans (frame_pushNode (.extension
        ⟨kr.start + common.length + 1, kr.stop⟩ next) (p ++ common ++ [n2]))
      exact ⟨_, hpair _ _ _ (frame_pushNode ..)
        (.ext (getElem?_pushNode ..) (Labels.setNode_self ..)
          (slice?_mono hsuf (hF1.keys.trans hF3.keys)) (by simp)
          (hchild.frame (frame_pushNode ..) fun _ _ h => h))⟩

theorem insertSpec_branch {ch : Nibble → MptNode} (ih : ∀ j, InsertSpec C R iv v (ch j)) :
    InsertSpec C R iv v (.branch ch) := by
  intro p q i fuel t L h hn hq hv hfuel
  obtain _ | fuel := fuel
  · omega
  have hc := hn.resolve_left (by simp)
  cases q with
  | nil => exact absurd rfl (apart_branch_ne_nil hc hq)
  | cons j q =>
  obtain ⟨c, arr, hashed, rlp, get, hopen, child, h1⟩ := h.enter_branch
  have hv1 : iv.Denotes (t.setDirty i) v := Denotes.mono hv (prefix_refl _)
  have hnib : (p ++ j :: q)[p.length]? = some j := by simp
  have hdrop : (p ++ j :: q).drop (p.length + 1) = q := by simp
  simp only [insertLoop, get, hnib, hopen.array]
  cases hj : arr j with
  | none =>
    have hnull := (hopen.absent j).mp hj
    simp only [hdrop]
    have hF : Frame (fun _ => False) (t.setDirty i) ((t.setDirty i).pushLeaf q iv).1 L _ :=
      frame_pushLeaf q iv (p ++ [j])
    have hrep : Rep C R ((t.setDirty i).pushLeaf q iv).1 _ (.leaf q v) (p ++ [j]) _ :=
      rep_pushLeaf (L := L) hv1 q (p ++ [j])
    have hopen' := hopen.frame hF not_false
    have h2 := h1.trans (hF.mono fun _ => False.elim)
    refine ⟨_, h2.trans (frame_setChild j _ ?_), ?_, ?_⟩
    · rw [hopen'.arrayLabel]
      exact prefix_refl p
    · simp only [Patricia.Node.insert, hnull]
      refine hopen'.rep_setChild (by simp) ?_ fun a ptr _ ha => (child a ptr ha).frame hF fun _ _ h => h
      rintro _ ⟨⟩
      exact hrep
    · rw [get_branch_cons, hnull]
      rfl
  | some ptr =>
  cases ptr with
  | remoteIdx r =>
    exact ⟨L, h1, rfl, hopen.rep child, [j], r, ch j, by simp, (child j _ hj).of_remote⟩
  | localIdx idx =>
    have hrec := ih j (p ++ [j]) q idx fuel _ L (child j _ hj) (hc.2 j) hq.of_branch hv1
      (by simpa using hfuel)
    have hm : ((ch j).insert q v) ≠ .null :=
      (canonical_insert v (hc.2 j) hq.of_branch).ne_null
    rw [append_assoc, length_append] at hrec
    simp only [cons_append, nil_append, length_cons, length_nil, Nat.zero_add] at hrec ⊢
    generalize insertLoop (p ++ j :: q) iv fuel (t.setDirty i) idx (p.length + 1) = res at hrec
    obtain ⟨L', hF, hres⟩ := hrec
    have hopen' := hopen.frame hF (not_under_append (by simp))
    have hother : ∀ a ptr, a ≠ j → arr a = some ptr → Rep C R res.1 L' (ch a) (p ++ [a]) ptr :=
      fun a ptr haj ha => (child a ptr ha).frame hF fun l hl => not_under_sibling haj hl
    refine ⟨L', h1.trans (hF.mono fun _ => Under.of_append), ?_⟩
    cases hr : res.2 with
    | ok old =>
      rw [hr] at hres
      exact ⟨hopen'.rep_update hj hm hres.1 hother, hres.2⟩
    | error e =>
      rw [hr] at hres
      exact ⟨by simpa using hres.1, hopen'.rep_at hj hres.2.1 hother, hres.2.2.append⟩

theorem insertLoop_spec (n : MptNode) : InsertSpec C R iv v n := by
  induction n with
  | null => exact insertSpec_null
  | leaf k w => exact insertSpec_leaf
  | ext k c ih => exact insertSpec_ext ih
  | branch ch ih => exact insertSpec_branch ih

/-- `insert_nibble_key` on a whole trie. -/
theorem insertNibbleKey_spec {n : MptNode} (h : Rep C R t L n [] (.localIdx 0))
    (hn : n.WellFormed) (hq : n.Apart q) (hv : iv.Denotes t v) :
    InsertOutcome C R n v [] q 0 t L (t.insertNibbleKey q iv) :=
  insertLoop_spec n [] q 0 _ t L h hn hq hv (by omega)

end Trie

end SparseMpt
