/-
  Insertion, deletion and the addition of proof nodes keep the arena free of sharing and its
  stored hashes current, whatever the trie, the key and the proof store hold.

  A walk clears the flag of every node it enters, from the root on, so the node it stops at
  and all its owners are not hashed (`Exposed`). What follows rewrites that node, its parent
  or the orphan next to it and adds new nodes, none of them hashed.
-/
import Rbuilder.SparseMpt.Owner

namespace SparseMpt

open List Option

namespace Trie

variable {keccak : Bytes → B256} {store : ProofStore} {t t' u : Trie} {O : Owners}
  {hole : Option Nat} {l : List Nat} {i cur c b p o : Nat} {s s' : Pos} {s0 : Slot}
  {key k1 k2 r value : Range} {path : List (Nat × Nibble)} {n m n1 n2 nib : Nibble}

theorem ne_nil_of_get {s : Slot} (h : t.nodes[i]? = some s) : t.nodes ≠ [] := by
  intro hnil
  simp [hnil] at h

variable {next ptr2 ptr : NodePtr} {j x i1 q : Nat} {node node' : DiffTrieNode}

theorem childOf_extension (h : t.childOf (.extension key next) s = some (.localIdx j)) :
    s = .next ∧ next = .localIdx j := by
  cases s with
  | next => exact ⟨rfl, some.inj h⟩
  | child n => cases h

theorem Good.exposed_root (h : Good keccak store t O hole) : t.Exposed O 0 := by
  intro p s hp
  rw [h.root] at hp
  cases hp

/-! ## Insertion -/

theorem pushNode_setNode (hx : x < t.nodes.length) (a b : DiffTrieNode) :
    ((t.setNode x a).pushNode b).1 = (t.pushNode b).1.setNode x a := by
  have hnodes : (t.setNode x a).nodes ++ [{ node := b }] =
      (t.nodes ++ [({ node := b } : Slot)]).modify x fun s => { s with node := a } := by
    refine ext_getElem? fun i => ?_
    simp only [setNode, getElem?_modify]
    by_cases hi : i < t.nodes.length
    · rw [getElem?_append_left (by simpa using hi), getElem?_append_left hi, getElem?_modify]
    · have hxi : x ≠ i := by omega
      rw [getElem?_append_right (by simpa using hi), getElem?_append_right (by omega)]
      simp [hxi]
  simp only [pushNode, setNode] at hnodes ⊢
  rw [hnodes]

theorem forkNode_nil (t : Trie) (cur : Nat) :
    t.forkNode cur [] = (t.createBranchChildren.1.setNode cur
      (.branch t.branchNodeChildren.length), t.branchNodeChildren.length) := rfl

/-- The branch below the new extension can be pushed first. -/
theorem forkNode_cons (hcur : cur < t.nodes.length) (a : Nibble) (k : Nibbles) :
    t.forkNode cur (a :: k) =
      (((t.insertKey (a :: k)).1.createBranchChildren.1.pushNode
        (.branch t.branchNodeChildren.length)).1.setNode cur
          (.extension (t.insertKey (a :: k)).2 (.localIdx t.nodes.length)),
        t.branchNodeChildren.length) := by
  have hlt : cur < (t.insertKey (a :: k)).1.createBranchChildren.1.nodes.length := hcur
  rw [← pushNode_setNode hlt]
  rfl

theorem childOf_newArray (hc : u.branchNodeChildren.length = c) (s : Pos) :
    u.createBranchChildren.1.childOf (.branch c) s = none := by
  subst hc
  cases s <;> simp [childOf, createBranchChildren]

theorem Dirty.of_nodes (h : t.nodes <+: t'.nodes) (hd : t.Dirty i) (hn : t.nodeAt i = some node) :
    t'.Dirty i ∧ t'.nodeAt i = some node := by
  obtain ⟨s, hs, rfl⟩ := map_eq_some_iff.mp hn
  have hs' := getElem?_mono hs h
  exact ⟨dirty_of_get hs' (hd s hs), nodeAt_of_get hs'⟩

theorem ne_nil_of_nodeAt (h : t.nodeAt i = some node) : t.nodes ≠ [] := by
  obtain ⟨s, hs, _⟩ := map_eq_some_iff.mp h
  exact ne_nil_of_get hs

/-- A new leaf, given to an owner. -/
theorem Good.pushLeaf (h : Good keccak store t O hole) (hne : t.nodes ≠ []) (key : Nibbles)
    (iv : InsertValue) (o : Owner) :
    Good keccak store (t.pushLeaf key iv).1 (O.setNode t.nodes.length o) hole ∧
      t.nodes <+: (t.pushLeaf key iv).1.nodes ∧
      (t.pushLeaf key iv).1.nodes.length = t.nodes.length + 1 ∧
      (t.pushLeaf key iv).2 = .localIdx t.nodes.length := by
  have h1 := (h.insertKey key).insertValue iv
  have hlen : (((t.insertKey key).1).insertValue iv).1.nodes = t.nodes := by cases iv <;> rfl
  have h2 := h1.pushNode (by rwa [hlen]) (.leaf (t.insertKey key).2
    ((t.insertKey key).1.insertValue iv).2) o (by simp) (by simp)
  rw [hlen] at h2
  refine ⟨h2, ?_⟩
  cases iv <;> exact ⟨prefix_append .., length_append, rfl⟩

section

variable (h : Good keccak store t O none)
include h

/-- The walk goes on to a child. -/
theorem Good.enter (hc : Chain O l i)
    (hd : t.Dirty i) (hj : t.childAt i s = some (.localIdx j)) :
    O.node j = some (.child i s) ∧ Chain O (i :: l) j ∧ t.Exposed O j := by
  have hown := h.edge i s j hc.live (by simp) hj
  refine ⟨hown, hc.child hown, ?_⟩
  intro p s' hp
  rw [hown] at hp
  cases hp
  exact hd

/-- The node becomes a branch without children, or an extension of one. -/
theorem Good.forkNode
    (hlive : O.Live cur) (hd : t.Dirty cur) (hget : t.nodes[cur]? = some s0) (common : Nibbles) :
    ∃ O' b, Good keccak store (t.forkNode cur common).1 O' none ∧ O'.Live b ∧
      (t.forkNode cur common).1.Dirty b ∧
      (t.forkNode cur common).1.nodeAt b = some (.branch (t.forkNode cur common).2) ∧
      (∀ j, O.Live j → O'.node j = O.node j) ∧
      ∀ j, O.Live j → (t.forkNode cur common).1.childAt cur .next ≠ some (.localIdx j) := by
  have hlt := lt_of_getElem? hget
  have hfresh := h.freshArray t.branchNodeChildren.length le_rfl
  cases common with
  | nil =>
    rw [forkNode_nil]
    have h1 := h.createBranchChildren.ownArray hfresh (by simp [Trie.createBranchChildren]) cur
    have h2 := h1.setNode hd (Or.inl rfl) (.branch t.branchNodeChildren.length)
      (fun s j hj => by rw [childOf_newArray rfl] at hj; cases hj) (by rintro c ⟨⟩; simp)
    have hget' : (t.createBranchChildren.1.setNode cur
        (.branch t.branchNodeChildren.length)).nodes[cur]? =
          some { s0 with node := .branch t.branchNodeChildren.length } := by
      simp [Trie.setNode, Trie.createBranchChildren, hget]
    refine ⟨_, cur, h2, hlive, ?_, nodeAt_of_get hget', fun _ _ => rfl, ?_⟩
    · exact dirty_of_get hget' (hd s0 hget)
    · rw [childAt_of_nodeAt (nodeAt_of_get hget')]
      simp [childOf]
  | cons a k =>
    rw [forkNode_cons hlt]
    have hnew : ∀ s, (t.insertKey (a :: k)).1.createBranchChildren.1.childOf
        (.branch t.branchNodeChildren.length) s = none := fun s => childOf_newArray rfl s
    -- the new branch, then the extension that points at it
    have h1 := (h.insertKey (a :: k)).createBranchChildren.ownArray hfresh
      (by simp [Trie.createBranchChildren, Trie.insertKey]) t.nodes.length
    have h2 := h1.pushNode (ne_nil_of_get hget) (.branch t.branchNodeChildren.length)
      (.child cur .next) (fun s j hj => by rw [hnew] at hj; cases hj)
      (by rintro c ⟨⟩; exact Owners.setArray_array_self _ _ _)
    let u := ((t.insertKey (a :: k)).1.createBranchChildren.1.pushNode
      (.branch t.branchNodeChildren.length)).1
    let ext : DiffTrieNode := .extension (t.insertKey (a :: k)).2 (.localIdx t.nodes.length)
    have hucur : u.nodes[cur]? = some s0 := getElem?_append_of_some hget _
    have hub : u.nodes[t.nodes.length]? =
        some { node := .branch t.branchNodeChildren.length } := getElem?_pushNode _ _
    have hcb : cur ≠ t.nodes.length := hlt.ne
    have hdu : u.Dirty cur := dirty_of_get hucur (hd s0 hget)
    have h3 := h2.setNode hdu (Or.inl rfl) ext (by
      intro s j hj
      obtain ⟨rfl, ⟨⟩⟩ := childOf_extension hj
      exact Owners.setNode_node_self _ _ _) (by simp [ext])
    have hbget : (u.setNode cur ext).nodes[t.nodes.length]? =
        some { node := .branch t.branchNodeChildren.length } := by
      rw [getElem?_setNode_of_ne ext hcb.symm, hub]
    have hcget : (u.setNode cur ext).nodes[cur]? = some { s0 with node := ext } := by
      simp [Trie.setNode, hucur]
    have hnone : O.node t.nodes.length = none := h.fresh _ le_rfl (by omega)
    refine ⟨_, t.nodes.length, h3, ?_, ?_, nodeAt_of_get hbget, ?_, ?_⟩
    · exact Owners.live_setNode_self _ _ _
    · exact dirty_of_get hbget rfl
    · intro j hj
      refine Owners.setNode_node_of_ne _ _ ?_
      rintro rfl
      exact hj hnone
    intro j hj hcj
    rw [childAt_of_nodeAt (nodeAt_of_get hcget)] at hcj
    cases hcj
    exact hj hnone

/-- What an extension pointed at gets a new owner when the extension points elsewhere. -/
theorem Good.reownNext
    (hnext : ∀ j, next = .localIdx j → O.node j = some (.child cur .next) ∧
      t.childAt cur .next ≠ some (.localIdx j)) (o : Owner) :
    ∃ O', Good keccak store t O' none ∧ (∀ i, O.Live i → O'.Live i) ∧
      ∀ j, next = .localIdx j → O'.node j = some o := by
  cases next with
  | remoteIdx r => exact ⟨O, h, fun _ hi => hi, by simp⟩
  | localIdx j =>
    obtain ⟨hown, hne⟩ := hnext j rfl
    refine ⟨O.setNode j o, h.reown hown
      (h.no_edge hown (Or.inr (Or.inr hne))) o, fun i hi => hi.setNode o, ?_⟩
    rintro _ ⟨⟩
    exact O.setNode_node_self j o

theorem Good.setChildren (hlive : O.Live b)
    (hd : t.Dirty b) (hnode : t.nodeAt b = some (.branch c))
    (h1 : O.node i1 = some (.child b (.child n1)))
    (h2 : ∀ j, ptr2 = .localIdx j → O.node j = some (.child b (.child n2))) :
    Good keccak store ((t.setChild c n1 (some (.localIdx i1))).setChild c n2 (some ptr2)) O
      none := by
  have h3 := h.setChild_live hlive hd hnode n1 (some (.localIdx i1)) (by rintro j ⟨⟩; exact h1)
  exact h3.setChild_live hlive hd hnode n2 (some ptr2) (by rintro j ⟨⟩; exact h2 j rfl)

/-- A leaf is split. -/
theorem Good.splitLeaf
    (hlive : O.Live cur) (hd : t.Dirty cur) (hget : t.nodes[cur]? = some s0)
    (common suff1 : Nibbles) (iv : InsertValue) (suff2 value : Range) (n1 n2 : Nibble) :
    let (t1, c) := t.forkNode cur common
    let (t2, ptr1) := t1.pushLeaf suff1 iv
    let (t3, ptr2) := t2.pushNode (.leaf suff2 value)
    ∃ O', Good keccak store ((t3.setChild c n1 (some ptr1)).setChild c n2 (some ptr2)) O' none := by
  obtain ⟨O1, b, h1, hb, hbd, hbn, _⟩ := h.forkNode hlive hd hget common
  generalize t.forkNode cur common = fork at h1 hbd hbn ⊢
  obtain ⟨t1, c⟩ := fork
  obtain ⟨h2, hgrow, hlen, hptr⟩ := h1.pushLeaf (ne_nil_of_nodeAt hbn) suff1 iv
    (.child b (.child n1))
  simp only at h1 h2 hbd hbn hgrow hlen hptr ⊢
  generalize t1.pushLeaf suff1 iv = leaf at h2 hgrow hlen hptr ⊢
  obtain ⟨t2, ptr1⟩ := leaf
  subst hptr
  have h3 := h2.pushNode (ne_nil_of_length_eq_add_one hlen) (.leaf suff2 value)
    (.child b (.child n2)) (by simp) (by simp)
  have hgrow' : t1.nodes <+: (t2.pushNode (.leaf suff2 value)).1.nodes :=
    hgrow.trans (prefix_append ..)
  obtain ⟨hbd', hbn'⟩ := hbd.of_nodes hgrow' hbn
  refine ⟨_, h3.setChildren ((hb.setNode _).setNode _) hbd' hbn' ?_ ?_⟩
  · rw [Owners.setNode_node_of_ne _ _ (by simp [hlen])]
    exact Owners.setNode_node_self ..
  · rintro j ⟨⟩
    exact Owners.setNode_node_self ..

/-- An extension is split. -/
theorem Good.splitExt
    (hlive : O.Live cur) (hd : t.Dirty cur) (hget : t.nodes[cur]? = some s0)
    (hs0 : s0.node = .extension key next) (common suff1 : Nibbles)
    (iv : InsertValue) (suff2 : Range) (n1 n2 : Nibble) :
    let (t1, c) := t.forkNode cur common
    let (t2, ptr1) := t1.pushLeaf suff1 iv
    let (t3, ptr2) := if suff2.isEmpty then (t2, next) else t2.pushNode (.extension suff2 next)
    ∃ O', Good keccak store ((t3.setChild c n1 (some ptr1)).setChild c n2 (some ptr2)) O' none := by
  obtain ⟨O1, b, h1, hb, hbd, hbn, hkeep, hcur⟩ := h.forkNode hlive hd hget common
  generalize t.forkNode cur common = fork at h1 hbd hbn hcur ⊢
  obtain ⟨t1, c⟩ := fork
  -- the old child goes below the branch, or below the rest of the extension
  have hnext1 : ∀ j, next = .localIdx j → O1.node j = some (.child cur .next) ∧
      t1.childAt cur .next ≠ some (.localIdx j) := by
    rintro j rfl
    have hj : O.node j = some (.child cur .next) :=
      h.edge cur .next j hlive (by simp) (childAt_next (by rw [nodeAt_of_get hget, hs0]))
    have hlj : O.Live j := Owners.live hj
    exact ⟨(hkeep j hlj).trans hj, hcur j hlj⟩
  have hreown : ∀ p s, ∃ O2, Good keccak store t1 O2 none ∧ O2.Live b ∧
      ∀ j, next = .localIdx j → O2.node j = some (.child p s) ∧ j ≠ t1.nodes.length := by
    intro p s
    obtain ⟨O2, h2, hlive2, hnext2⟩ := h1.reownNext hnext1 (.child p s)
    refine ⟨O2, h2, hlive2 b hb, fun j hj => ⟨hnext2 j hj, ?_⟩⟩
    exact (h2.lt_of_live (Owners.live (hnext2 j hj)) (h2.ne_zero (hnext2 j hj))).ne
  by_cases hempty : suff2.isEmpty = true
  · simp only [hempty, if_true]
    obtain ⟨O2, h2, hb2, hnext2⟩ := hreown b (.child n2)
    obtain ⟨h3, hgrow, hlen, hptr⟩ := h2.pushLeaf (ne_nil_of_nodeAt hbn) suff1 iv
      (.child b (.child n1))
    generalize t1.pushLeaf suff1 iv = leaf at h3 hgrow hlen hptr ⊢
    obtain ⟨t2, ptr1⟩ := leaf
    subst hptr
    obtain ⟨hbd', hbn'⟩ := hbd.of_nodes hgrow hbn
    refine ⟨_, h3.setChildren (hb2.setNode _) hbd' hbn' (Owners.setNode_node_self ..) ?_⟩
    intro j hj
    rw [Owners.setNode_node_of_ne _ _ (hnext2 j hj).2]
    exact (hnext2 j hj).1
  · simp only [hempty, Bool.false_eq_true, if_false]
    obtain ⟨O2, h2, hb2, hnext2⟩ := hreown (t1.nodes.length + 1) .next
    obtain ⟨h3, hgrow, hlen, hptr⟩ := h2.pushLeaf (ne_nil_of_nodeAt hbn) suff1 iv
      (.child b (.child n1))
    generalize t1.pushLeaf suff1 iv = leaf at h3 hgrow hlen hptr ⊢
    obtain ⟨t2, ptr1⟩ := leaf
    subst hptr
    have h4 := h3.pushNode (ne_nil_of_length_eq_add_one hlen) (.extension suff2 next)
      (.child b (.child n2)) (by
        intro s j hj
        obtain ⟨rfl, hnext⟩ := childOf_extension hj
        rw [Owners.setNode_node_of_ne _ _ (hnext2 j hnext).2, hlen]
        exact (hnext2 j hnext).1) (by simp)
    have hgrow' : t1.nodes <+: (t2.pushNode (.extension suff2 next)).1.nodes :=
      hgrow.trans (prefix_append ..)
    obtain ⟨hbd', hbn'⟩ := hbd.of_nodes hgrow' hbn
    refine ⟨_, h4.setChildren ((hb2.setNode _).setNode _) hbd' hbn' ?_ ?_⟩
    · rw [Owners.setNode_node_of_ne _ _ (by omega)]
      exact Owners.setNode_node_self ..
    · rintro j ⟨⟩
      exact Owners.setNode_node_self ..

omit h in
theorem insertLoop_good (insKey : Nibbles) (iv : InsertValue) (fuel : Nat) :
    ∀ {t : Trie} {O : Owners} {l : List Nat} {cur : Nat} (walked : Nat),
      Good keccak store t O none → Chain O l cur → t.Exposed O cur →
      ∃ O', Good keccak store (insertLoop insKey iv fuel t cur walked).1 O' none := by
  induction fuel with
  | zero => exact fun _ h _ _ => ⟨_, h⟩
  | succ fuel ih =>
    intro t O l cur walked h hc hexp
    cases hget0 : t.nodes[cur]? with
    | none =>
      simp only [insertLoop, hget0]
      exact ⟨O, h⟩
    | some slot =>
    have h1 := h.setDirty hexp
    have hd := dirty_setDirty t cur
    have hget := getElem?_setDirty hget0
    have hnode := nodeAt_of_get hget
    obtain ⟨node, hashed, rlp⟩ := slot
    simp only [insertLoop, hget0]
    cases node with
    | branch children =>
      simp only
      split
      · next n arr hn harr =>
          have hat := childAt_child hnode harr n
          cases hptr : arr n with
          | none =>
            -- a new leaf becomes the child
            obtain ⟨h2, hgrow, _, hleaf⟩ := h1.pushLeaf (ne_nil_of_get hget)
              (insKey.drop (walked + 1)) iv (.child cur (.child n))
            obtain ⟨hd2, hnode2⟩ := hd.of_nodes hgrow hnode
            refine ⟨_, h2.setChild_live (hc.live.setNode _) hd2 hnode2 n _ ?_⟩
            intro j hj
            rw [hleaf] at hj
            cases hj
            exact Owners.setNode_node_self ..
          | some ptr =>
            cases ptr with
            | remoteIdx r => exact ⟨O, h1⟩
            | localIdx idx =>
              obtain ⟨_, hc', hexp'⟩ := h1.enter hc hd (hat.trans hptr)
              exact ih _ h1 hc' hexp'
      · exact ⟨O, h1⟩
    | extension key next =>
      simp only
      split
      · exact ⟨O, h1⟩
      split
      · cases next with
        | remoteIdx r => exact ⟨O, h1⟩
        | localIdx idx =>
          obtain ⟨_, hc', hexp'⟩ := h1.enter hc hd (childAt_next hnode)
          exact ih _ h1 hc' hexp'
      split
      · exact ⟨O, h1⟩
      · next common n1 suff1 n2 suff2 _ =>
          exact h1.splitExt hc.live hd hget rfl common suff1 iv suff2 n1 n2
    | leaf key value =>
      simp only
      split
      · exact ⟨O, h1⟩
      split
      · have h2 := h1.insertValue iv
        refine ⟨O, h2.setNode ?_ (Or.inl rfl) _ (by simp) (by simp)⟩
        cases iv <;> exact hd
      split
      · exact ⟨O, h1⟩
      · next common n1 suff1 n2 suff2 _ =>
          exact h1.splitLeaf hc.live hd hget common suff1 iv suff2 value n1 n2
    | null =>
      have h2 := (h1.insertKey (insKey.drop walked)).insertValue iv
      refine ⟨O, h2.setNode ?_ (Or.inl rfl) _ (by simp) (by simp)⟩
      cases iv <;> exact hd

/-- Insertion keeps the invariant. -/
theorem Good.insertNibbleKey (key : Nibbles)
    (iv : InsertValue) : ∃ O', Good keccak store (t.insertNibbleKey key iv).1 O' none :=
  insertLoop_good key iv _ 0 h (.root h.root) h.exposed_root

end

/-! ## Deletion -/

/-- The walked path above a node, deepest first, with the nibble that led on. None of its nodes
    is hashed. -/
inductive Walked (t : Trie) (O : Owners) : List (Nat × Nibble) → Nat → Prop
  | root (h : O.node 0 = some .root) : Walked t O [] 0
  | branch {path : List (Nat × Nibble)} {p j c : Nat} {n : Nibble} (h : Walked t O path p)
      (hd : t.Dirty p) (hnode : t.nodeAt p = some (.branch c))
      (hj : O.node j = some (.child p (.child n))) : Walked t O ((p, n) :: path) j
  | ext {path : List (Nat × Nibble)} {p j : Nat} {key : Range} {ptr : NodePtr}
      (h : Walked t O path p) (hd : t.Dirty p) (hnode : t.nodeAt p = some (.extension key ptr))
      (hj : O.node j = some (.child p .next)) : Walked t O ((p, 0) :: path) j

theorem Walked.chain (h : Walked t O path i) : Chain O (path.map Prod.fst) i := by
  induction h with
  | root h => exact .root h
  | branch _ _ _ hj ih | ext _ _ _ hj ih => exact ih.child hj

theorem Walked.setDirty (h : Walked t O path i) (x : Nat) : Walked (t.setDirty x) O path i := by
  induction h with
  | root h => exact .root h
  | branch _ hd hnode hj ih =>
    exact .branch ih (hd.setDirty x) (by rw [nodeAt_setDirty, hnode]) hj
  | ext _ hd hnode hj ih => exact .ext ih (hd.setDirty x) (by rw [nodeAt_setDirty, hnode]) hj

theorem Walked.of_nodes (hn : t'.nodes = t.nodes) (h : Walked t O path i) : Walked t' O path i := by
  have hnode : ∀ i, t'.nodeAt i = t.nodeAt i := fun i => by simp [nodeAt, hn]
  have hdirty : ∀ {i}, t.Dirty i → t'.Dirty i := fun hd s hs => hd s (by rwa [hn] at hs)
  induction h with
  | root h => exact .root h
  | branch _ hd hbn hj ih => exact .branch ih (hdirty hd) ((hnode _).trans hbn) hj
  | ext _ hd hen hj ih => exact .ext ih (hdirty hd) ((hnode _).trans hen) hj

theorem Walked.exposed (h : Walked t O path i) : t.Exposed O i := by
  intro p s hp
  cases h with
  | root h =>
    rw [h] at hp
    cases hp
  | branch _ hd _ hj | ext _ hd _ hj =>
    rw [hj] at hp
    cases hp
    exact hd

/-- What the way down of a deletion leaves behind: the invariant, and on success a walked path
    that ends in a leaf. -/
def DeleteWalked (keccak : Bytes → B256) (store : ProofStore) (O : Owners)
    (res : Trie × Except TrieError (Range × List (Nat × Nibble))) : Prop :=
  Good keccak store res.1 O none ∧
    ∀ value path, res.2 = .ok (value, path) → ∃ i path' key, path = (i, 0) :: path' ∧
      Walked res.1 O path' i ∧ res.1.Dirty i ∧ res.1.nodeAt i = some (.leaf key value)

theorem deleteWalk_good (delKey : Nibbles) (fuel : Nat) :
    ∀ {t : Trie} {path : List (Nat × Nibble)} {cur : Nat} (walked : Nat),
      Good keccak store t O none → Walked t O path cur →
      DeleteWalked keccak store O (deleteWalk delKey fuel t cur walked path) := by
  induction fuel with
  | zero => exact fun _ h _ => ⟨h, by simp [deleteWalk]⟩
  | succ fuel ih =>
    intro t path cur walked h hw
    cases hget0 : t.nodes[cur]? with
    | none =>
      simp only [deleteWalk, hget0]
      exact ⟨h, by simp⟩
    | some slot =>
    have h1 := h.setDirty hw.exposed
    have hw1 := hw.setDirty cur
    have hd := dirty_setDirty t cur
    have hnode := nodeAt_of_get (getElem?_setDirty hget0)
    -- every failure leaves the trie of this point behind
    have hstop : ∀ e, DeleteWalked keccak store O (t.setDirty cur, .error e) :=
      fun e => ⟨h1, by simp⟩
    obtain ⟨node, hashed, rlp⟩ := slot
    simp only [deleteWalk, hget0]
    cases node with
    | branch children =>
      simp only
      split
      · exact hstop _
      split
      · next n arr hn harr =>
          have hat := childAt_child hnode harr n
          have hgo : ∀ idx, arr n = some (.localIdx idx) →
              DeleteWalked keccak store O (deleteWalk delKey fuel (t.setDirty cur) idx
                (walked + 1) ((cur, n) :: path)) := by
            intro idx hidx
            exact ih _ h1 (.branch hw1 hd hnode
              (h1.edge cur (.child n) idx hw.chain.live (by simp) (hat.trans hidx)))
          cases hptr : arr n with
          | none => exact hstop _
          | some ptr =>
            cases ptr with
            | remoteIdx r => exact hstop _
            | localIdx idx =>
              simp only
              split
              · split
                · exact hstop _
                split
                · exact hstop _
                · exact hstop _
                · exact hgo idx hptr
              · exact hgo idx hptr
      · exact hstop _
    | extension key next =>
      simp only
      split
      · exact hstop _
      split
      · cases next with
        | remoteIdx r => exact hstop _
        | localIdx idx =>
          exact ih _ h1 (.ext hw1 hd hnode
            (h1.edge cur .next idx hw.chain.live (by simp) (childAt_next hnode)))
      · exact hstop _
    | leaf key value =>
      simp only
      split
      · exact hstop _
      split
      · refine ⟨h1, ?_⟩
        rintro _ _ ⟨⟩
        exact ⟨cur, path, key, rfl, hw1, hd, hnode⟩
      · exact hstop _
    | null => exact hstop _

/-- A node that takes over the contents of an orphan below it. -/
def absorbed (key : Range) (o : Nat) : DiffTrieNode → Option DiffTrieNode
  | .leaf _ value => some (.leaf key value)
  | .extension _ next => some (.extension key next)
  | .branch _ => some (.extension key (.localIdx o))
  | .null => none

/-- The node `x` is rewritten with the contents of `o`, which nothing else points at. -/
theorem Good.absorb (h : Good keccak store t O (some x))
    (hown : O.node o = some (.child q s)) (hqo : q ≠ o) (hox : o ≠ x)
    (hno : ∀ i s', O.Live i → some x ≠ some i → t.childAt i s' ≠ some (.localIdx o))
    (hnode : t.nodeAt o = some node) (hnode' : absorbed key o node = some node') :
    ∃ O', Good keccak store (t.setNode x node') O' none := by
  have hx := h.holeDirty x rfl
  have hlive : O.Live o := Owners.live hown
  cases node with
  | null => cases hnode'
  | leaf kr value =>
    cases hnode'
    exact ⟨O, h.setNode hx (Or.inr rfl) _ (by simp) (by simp)⟩
  | branch c =>
    cases hnode'
    refine ⟨_, (h.reown hown hno (.child x .next)).setNode hx (Or.inr rfl) _ ?_ (by simp)⟩
    intro s j hj
    obtain ⟨rfl, ⟨⟩⟩ := childOf_extension hj
    exact Owners.setNode_node_self ..
  | extension kr next =>
    cases hnode'
    have h1 := h.forget hown hno
    cases next with
    | remoteIdx r =>
      exact ⟨_, h1.setNode hx (Or.inr rfl) _ (by simp) (by simp)⟩
    | localIdx j =>
      have hj : O.node j = some (.child o .next) :=
        h.edge o .next j hlive (by simpa using Ne.symm hox) (childAt_next hnode)
      have hjo : j ≠ o := by
        rintro rfl
        rw [hown] at hj
        cases hj
        exact hqo rfl
      have hj1 : (O.drop o).node j = some (.child o .next) := by
        rw [O.drop_node_of_ne hjo, hj]
      have h2 := h1.reown hj1
        (h1.no_edge hj1 (Or.inr (Or.inl (by simp [Owners.Live])))) (.child x .next)
      refine ⟨_, h2.setNode hx (Or.inr rfl) _ ?_ (by simp)⟩
      intro s k hk
      obtain ⟨rfl, ⟨⟩⟩ := childOf_extension hk
      exact Owners.setNode_node_self ..

/-- The branch `b` below `p` is given up; nothing points at its last child then. -/
theorem Good.orphan (h : Good keccak store t O none)
    (hp : t.Dirty p) (hb : O.node b = some (.child p s)) (ho : O.node o = some (.child b s'))
    (hob : o ≠ b) :
    Good keccak store t (O.drop b) (some p) ∧ (O.drop b).node o = some (.child b s') ∧
      ∀ i s'', (O.drop b).Live i → some p ≠ some i → t.childAt i s'' ≠ some (.localIdx o) := by
  have h1 := (h.openHole hp).forget hb ((h.openHole hp).no_edge hb (Or.inl rfl))
  have ho1 : (O.drop b).node o = some (.child b s') := by rw [O.drop_node_of_ne hob, ho]
  exact ⟨h1, ho1, h1.no_edge ho1 (Or.inr (Or.inl (by simp [Owners.Live])))⟩

theorem setDirty_setNode (t : Trie) (x : Nat) (node : DiffTrieNode) :
    (t.setNode x node).setDirty x = (t.setDirty x).setNode x node := by
  simp only [Trie.setNode, Trie.setDirty]
  congr 1
  refine ext_getElem? fun i => ?_
  simp only [getElem?_modify]
  cases t.nodes[i]? with
  | none => simp
  | some slot => by_cases hx : x = i <;> simp [hx]

theorem deleteUnwind_updated (t : Trie) (path : List (Nat × Nibble)) :
    t.deleteUnwind path .nodeUpdated = some (t, .nodeUpdated) := by
  cases path <;> rfl

theorem mergeKeys_eq_some
    (h : t.mergeKeys k1 n k2 = some (t', r)) : ∃ k, t.insertKey k = (t', r) := by
  unfold mergeKeys at h
  split at h
  · exact ⟨_, some.inj h⟩
  · cases h

section

variable (h : Good keccak store t O none)
include h

/-- The other children of a branch, when one of them is given up with its last child. -/
theorem Good.otherChildren (hlive : O.Live p) (hnode : t.nodeAt p = some (.branch c))
    (hb : O.node b = some (.child p (.child n))) (ho : O.node o = some (.child b s)) (hbp : b ≠ p) :
    ∀ m j, m ≠ n → t.childOf (.branch c) (.child m) = some (.localIdx j) →
      O.node j = some (.child p (.child m)) ∧ j ≠ b ∧ j ≠ o := by
  intro m j hm hj
  have hown := h.edge p (.child m) j hlive (by simp) (by rwa [childAt_of_nodeAt hnode])
  refine ⟨hown, ?_, ?_⟩
  · rintro rfl
    rw [hb] at hown
    cases hown
    exact hm rfl
  rintro rfl
  rw [ho] at hown
  cases hown
  exact hbp rfl

/-- The branch above takes an orphan that keeps its children and eats a nibble. -/
theorem Good.adopt (hlive : O.Live p) (hp : t.Dirty p) (hnode : t.nodeAt p = some (.branch c))
    (hb : t.Dirty b)
    (hbo : O.node b = some (.child p (.child n))) (ho : O.node o = some (.child b s))
    (hbp : b ≠ p) (hob : o ≠ b) (hop : o ≠ p) (node : DiffTrieNode)
    (hedge : ∀ s j, t.childOf node s = some (.localIdx j) → O.node j = some (.child o s))
    (harr : ∀ c, node = .branch c → O.array c = some o) :
    ∃ O', Good keccak store
      (((t.setNode o node).setDirty o).setChild c n (some (.localIdx o))) O' none := by
  rw [setDirty_setNode]
  have hexp : t.Exposed O o := by
    intro q s' hq
    rw [ho] at hq
    cases hq
    exact hb
  have h1 := (h.setDirty hexp).setNode (dirty_setDirty t o) (Or.inl rfl) node hedge harr
  have hget : ∀ {i}, i ≠ o → ((t.setDirty o).setNode o node).nodes[i]? = t.nodes[i]? := by
    intro i hi
    rw [getElem?_setNode_of_ne node hi, getElem?_setDirty_of_ne hi]
  have hp1 : ((t.setDirty o).setNode o node).Dirty p := by
    intro s' hs
    rw [hget hop.symm] at hs
    exact hp s' hs
  have hnode1 : ((t.setDirty o).setNode o node).nodeAt p = some (.branch c) := by
    rw [nodeAt, hget hop.symm]
    exact hnode
  obtain ⟨h2, ho2, hno⟩ := h1.orphan hp1 hbo ho hob
  have h3 := h2.reown ho2 hno (.child p (.child n))
  have hother := h1.otherChildren hlive hnode1 hbo ho hbp
  refine ⟨_, h3.setChild hp1 (Or.inr rfl) hnode1 (h.array p c hlive (by simp) hnode) n
    (some (.localIdx o)) ?_ ?_⟩
  · intro m j hm hj
    obtain ⟨hown, hjb, hjo⟩ := hother m j hm hj
    rw [Owners.setNode_node_of_ne _ _ hjo, O.drop_node_of_ne hjb, hown]
  · rintro j ⟨⟩
    exact Owners.setNode_node_self ..

/-- The branch above takes a new extension of the orphan. -/
theorem Good.adoptBelow (hlive : O.Live p) (hp : t.Dirty p) (hnode : t.nodeAt p = some (.branch c))
    (hbo : O.node b = some (.child p (.child n))) (ho : O.node o = some (.child b s))
    (hbp : b ≠ p) (hob : o ≠ b) (key : Range) :
    ∃ O', Good keccak store ((t.pushNode (.extension key (.localIdx o))).1.setChild c n
      (some (.localIdx t.nodes.length))) O' none := by
  obtain ⟨h2, ho2, hno⟩ := h.orphan hp hbo ho hob
  have h3 := h2.reown ho2 hno (.child t.nodes.length .next)
  have hlt : ∀ {j}, O.Live j → j ≠ 0 → j ≠ t.nodes.length := fun hj h0 => (h.lt_of_live hj h0).ne
  have h4 := h3.pushNode (ne_nil_of_nodeAt hnode) (.extension key (.localIdx o))
    (.child p (.child n)) (by
      intro s' j hj
      obtain ⟨rfl, ⟨⟩⟩ := childOf_extension hj
      exact Owners.setNode_node_self ..) (by simp)
  have hgrow : t.nodes <+: (t.pushNode (.extension key (.localIdx o))).1.nodes := prefix_append ..
  obtain ⟨hp4, hnode4⟩ := hp.of_nodes hgrow hnode
  refine ⟨_, h4.setChild hp4 (Or.inr rfl) hnode4 (h.array p c hlive (by simp) hnode) n
    (some (.localIdx t.nodes.length)) ?_ ?_⟩
  · intro m j hm hj
    obtain ⟨hown, hjb, hjo⟩ := h.otherChildren hlive hnode hbo ho hbp m j hm hj
    rw [Owners.setNode_node_of_ne _ _ (hlt (Owners.live hown) (h.ne_zero hown)),
      Owners.setNode_node_of_ne _ _ hjo, O.drop_node_of_ne hjb, hown]
  · rintro j ⟨⟩
    exact Owners.setNode_node_self ..

/-- The orphan of a branch that was given up is merged into the node above. -/
theorem Good.mergeOrphan (hw : Walked t O ((p, n) :: path) b) (hb : t.Dirty b)
    (ho : O.node o = some (.child b s))
    (hres : t.mergeOrphan p n m (.localIdx o) = some t') :
    ∃ O', Good keccak store t' O' none := by
  have hchain := (hw.chain.child ho).not_mem
  simp only [map_cons, mem_cons, not_or] at hchain
  obtain ⟨hob, hop, _⟩ := hchain
  have hbp : b ≠ p := fun he => hw.chain.not_mem (he ▸ mem_cons_self)
  unfold Trie.mergeOrphan at hres
  cases hpget : t.nodes[p]? with
  | none => simp [hpget] at hres
  | some sp =>
  cases hoget : t.nodes[o]? with
  | none => simp [hpget, hoget] at hres
  | some so =>
  simp only [hpget, hoget] at hres
  have hpn := nodeAt_of_get hpget
  have hon := nodeAt_of_get hoget
  cases hw with
  | @ext _ _ _ kr ptr hwp hp hnode hbo =>
    rw [hpn] at hnode
    have hspn : sp.node = .extension kr ptr := some.inj hnode
    -- the extension above absorbs the orphan
    have habsorb : ∀ {r k1 k2 : Range} {u : Trie} {node' : DiffTrieNode},
        t.mergeKeys k1 m k2 = some (u, r) → absorbed r o so.node = some node' →
        ∃ O', Good keccak store (u.setNode p node') O' none := by
      intro r k1 k2 u node' hmerge hnode'
      obtain ⟨k, hk⟩ := mergeKeys_eq_some hmerge
      cases hk
      obtain ⟨h2, ho2, hno⟩ := (h.insertKey k).orphan hp hbo ho hob
      exact h2.absorb ho2 (Ne.symm hob) hop hno hon hnode'
    rw [hspn] at hres
    cases hson : so.node with
    | null => simp [hson] at hres
    | _ =>
      simp only [hson, map_eq_some_iff, Prod.exists] at hres
      obtain ⟨u, r, hmerge, rfl⟩ := hres
      exact habsorb hmerge (by rw [hson]; rfl)
  | @branch _ _ _ pc _ hwp hp hnode hbo =>
    have hlive := hwp.chain.live
    have hnode' := hnode
    rw [hpn] at hnode
    have hspn : sp.node = .branch pc := some.inj hnode
    rw [hspn] at hres
    cases hson : so.node with
    | null => simp [hson] at hres
    | leaf okr value =>
      simp only [hson, map_eq_some_iff, Prod.exists] at hres
      obtain ⟨u, r, hmerge, rfl⟩ := hres
      obtain ⟨k, hk⟩ := mergeKeys_eq_some hmerge
      cases hk
      exact (h.insertKey k).adopt hlive hp hnode' hb hbo ho hbp hob hop _ (by simp) (by simp)
    | extension okr next =>
      simp only [hson, map_eq_some_iff, Prod.exists] at hres
      obtain ⟨u, r, hmerge, rfl⟩ := hres
      obtain ⟨k, hk⟩ := mergeKeys_eq_some hmerge
      cases hk
      refine (h.insertKey k).adopt hlive hp hnode' hb hbo ho hbp hob hop _ ?_ (by simp)
      intro s' j hj
      refine h.edge o s' j (Owners.live ho) (by simp) ?_
      obtain ⟨rfl, rfl⟩ := childOf_extension hj
      exact childAt_next (by rw [hon, hson])
    | branch c =>
      simp only [hson, some.injEq] at hres
      subst hres
      exact (h.insertKey [m]).adoptBelow hlive hp hnode' hbo ho hbp hob _

/-- The orphan becomes the root. -/
theorem Good.deleteHead_orphan (ho : O.node o = some (.child 0 s))
    (hres : t.deleteHead (.branchBelowRemovedWithOneChild m (.localIdx o)) = some t') :
    ∃ O', Good keccak store t' O' none := by
  have h0 := h.ne_zero ho
  have h1 := h.setDirty h.exposed_root
  have h2 := h1.openHole (dirty_setDirty t 0)
  have hno := h2.no_edge ho (Or.inl rfl)
  unfold deleteHead at hres
  simp only at hres
  cases hon : ((t.setDirty 0).nodes[o]?).map Slot.node with
  | none => simp [hon] at hres
  | some node =>
  have habsorb : ∀ {u : Trie} {r : Range} {node' : DiffTrieNode} (k : Nibbles),
      (t.setDirty 0).insertKey k = (u, r) → absorbed r o node = some node' →
      ∃ O', Good keccak store (u.setNode 0 node') O' none := by
    intro u r node' k hk hnode'
    cases hk
    exact (h2.insertKey k).absorb ho h0.symm h0 hno hon hnode'
  rw [hon] at hres
  cases node with
  | null => cases hres
  | leaf okr value | extension okr next =>
    simp only [map_eq_some_iff, Prod.exists] at hres
    obtain ⟨u, r, hmerge, rfl⟩ := hres
    obtain ⟨k, hk⟩ := mergeKeys_eq_some hmerge
    exact habsorb k hk rfl
  | branch c =>
    simp only [some.injEq] at hres
    subst hres
    exact habsorb [m] rfl rfl

/-- The way back after a branch lost one of two children. -/
theorem Good.unwindOrphan
    (hw : Walked t O path b) (hb : t.Dirty b) (ho : O.node o = some (.child b s))
    (hres : (t.deleteUnwind path (.branchBelowRemovedWithOneChild m (.localIdx o))).bind
      (fun r => r.1.deleteHead r.2) = some t') :
    ∃ O', Good keccak store t' O' none := by
  cases path with
  | nil =>
    cases hw
    exact h.deleteHead_orphan ho hres
  | cons e path =>
    simp only [deleteUnwind, bind_eq_some_iff, map_eq_some_iff] at hres
    obtain ⟨_, ⟨u, hmerge, rfl⟩, hhead⟩ := hres
    cases hhead
    exact h.mergeOrphan hw hb ho hmerge

/-- The way back of a deletion. -/
theorem Good.unwind
    (hw : Walked t O path i) (hnode : t.nodeAt i = some (.leaf key value)) (hd : t.Dirty i)
    (hres : (t.deleteUnwind ((i, 0) :: path) .nodeDeleted).bind (fun r => r.1.deleteHead r.2) =
      some t') : ∃ O', Good keccak store t' O' none := by
  have hleaf : (t.nodes[i]?).map Slot.node = some (.leaf key value) := hnode
  simp only [deleteUnwind, hleaf] at hres
  cases hw with
  | root h0 =>
    -- the leaf was the whole trie
    simp only [deleteUnwind, bind_some, deleteHead, some.injEq] at hres
    subst hres
    have h1 := h.setNode hd (Or.inl rfl) .null (by simp) (by simp)
    exact ⟨O, h1.setDirty h1.exposed_root⟩
  | @ext path b _ kr ptr hwb hbd hbn hown =>
    have hext : (t.nodes[b]?).map Slot.node = some (.extension kr ptr) := hbn
    simp [deleteUnwind, hext] at hres
  | @branch path b _ c n hwb hbd hbn hown =>
    have hbranch : (t.nodes[b]?).map Slot.node = some (.branch c) := hbn
    simp only [deleteUnwind, hbranch] at hres
    cases harr : t.branchNodeChildren[c]? with
    | none => simp [harr] at hres
    | some arr =>
    have h1 := h.setChild_live hwb.chain.live hbd hbn n none (by simp)
    simp only [harr] at hres
    split at hres
    · rw [deleteUnwind_updated] at hres
      cases hres
      exact ⟨O, h1⟩
    split at hres
    · split at hres
      · cases hres
      · next on hon =>
          split at hres
          · next idx hidx =>
              have hnodes : (t.setChild c n none).nodes = t.nodes := rfl
              have hw1 := hwb.of_nodes hnodes
              have hbn1 : (t.setChild c n none).nodeAt b = some (.branch c) := hbn
              have ho : O.node idx = some (.child b (.child on)) := by
                refine h1.edge b (.child on) idx hwb.chain.live (by simp) ?_
                rw [childAt_child hbn1 (getElem?_setChild n none harr), hidx]
              exact h1.unwindOrphan hw1 hbd ho hres
          · cases hres
    · cases hres

/-- Deletion keeps the invariant, also when it fails. -/
theorem Good.deleteNibblesKey (key : Nibbles) :
    ∃ O', Good keccak store (t.deleteNibblesKey key).1 O' none := by
  obtain ⟨h1, hok⟩ := deleteWalk_good key (key.length + t.nodes.length + 1) 0 h (.root h.root)
  unfold Trie.deleteNibblesKey
  generalize deleteWalk key (key.length + t.nodes.length + 1) t 0 0 [] = res at h1 hok ⊢
  obtain ⟨t1, res⟩ := res
  cases res with
  | error e => exact ⟨O, h1⟩
  | ok r =>
    obtain ⟨value, path⟩ := r
    obtain ⟨i, path', kr, rfl, hw, hd, hnode⟩ := hok value path rfl
    simp only
    split
    · next t' hres => exact h1.unwind hw hnode hd hres
    · exact ⟨O, h1⟩

end

/-! ## Proof nodes -/

/-- A node copied from a proof has no children in the arena. -/
theorem pushProofNode_eq_some {node : ProofNode} (h : t.pushProofNode store node = some (t', ptr)) :
    ∃ u nd, t' = (u.pushNode nd).1 ∧ ptr = .localIdx t.nodes.length ∧ u.nodes = t.nodes ∧
      (∀ s j, u.childOf nd s ≠ some (.localIdx j)) ∧
      ∀ O hole x, Good keccak store t O hole → ∃ O', Good keccak store u O' hole ∧
        O'.node = O.node ∧ ∀ c, nd = .branch c → O'.array c = some x := by
  cases node with
  | empty => cases h
  | leaf ki vi =>
    simp only [pushProofNode] at h
    split at h
    · next k v _ _ =>
        cases h
        refine ⟨((t.insertKey k).1.copyValue v).1, _, rfl, rfl, rfl, by simp, ?_⟩
        exact fun O hole x hg => ⟨O, (hg.insertKey k).copyValue v, rfl, by simp⟩
    · cases h
  | extension ki ci =>
    simp only [pushProofNode] at h
    split at h
    · cases h
    · next k _ =>
        cases h
        refine ⟨(t.insertKey k).1, _, rfl, rfl, rfl, by simp, ?_⟩
        exact fun O hole x hg => ⟨O, hg.insertKey k, rfl, by simp⟩
  | branch ptrs =>
    let arr : Children := fun b => (ptrs b).map .remoteIdx
    let u : Trie := { t with branchNodeChildren := t.branchNodeChildren ++ [arr] }
    have hset : t.createBranchChildren.1.branchNodeChildren.set t.branchNodeChildren.length arr =
        t.branchNodeChildren ++ [arr] := by
      simp [createBranchChildren]
    have hu : t.pushProofNode store (.branch ptrs) =
        some (u.pushNode (.branch t.branchNodeChildren.length)) := by
      show some (({ t.createBranchChildren.1 with branchNodeChildren :=
        t.createBranchChildren.1.branchNodeChildren.set t.branchNodeChildren.length arr } :
          Trie).pushNode _) = _
      rw [hset]
      rfl
    rw [hu] at h
    cases h
    refine ⟨u, _, rfl, rfl, rfl, ?_, ?_⟩
    · intro s j
      cases s with
      | next => simp [childOf]
      | child n => simp [childOf, u, arr]
    intro O hole x hg
    have hfresh := hg.freshArray t.branchNodeChildren.length le_rfl
    refine ⟨_, (hg.appendArray arr).ownArray hfresh (by simp) x, rfl, ?_⟩
    rintro c ⟨⟩
    exact O.setArray_array_self ..

theorem addNodeWalk_good (path : Nibbles) (fuel : Nat) :
    ∀ {t : Trie} {l : List Nat} {cur : Nat} (walked : Nat), Good keccak store t O none →
      Chain O l cur → t.Exposed O cur →
      Good keccak store (addNodeWalk path fuel t cur walked).1 O none ∧
        ∀ i ptr nib, (addNodeWalk path fuel t cur walked).2 = .ok (i, ptr, nib) →
          O.Live i ∧ (addNodeWalk path fuel t cur walked).1.Dirty i ∧
            (addNodeWalk path fuel t cur walked).1.nodes ≠ [] := by
  induction fuel with
  | zero => exact fun _ h _ _ => ⟨h, by simp [addNodeWalk]⟩
  | succ fuel ih =>
    intro t l cur walked h hc hexp
    cases hget0 : t.nodes[cur]? with
    | none =>
      simp only [addNodeWalk, hget0]
      exact ⟨h, by simp⟩
    | some slot =>
    have h1 := h.setDirty hexp
    have hd := dirty_setDirty t cur
    have hnode := nodeAt_of_get (getElem?_setDirty hget0)
    have hne := ne_nil_of_get (getElem?_setDirty hget0)
    obtain ⟨node, hashed, rlp⟩ := slot
    simp only [addNodeWalk, hget0]
    cases node with
    | branch children =>
      simp only
      split
      · next n arr hn harr =>
          split
          · exact ⟨h1, by rintro i ptr nib ⟨⟩; exact ⟨hc.live, hd, hne⟩⟩
          split
          · next idx hidx =>
              obtain ⟨_, hc', hexp'⟩ := h1.enter hc hd ((childAt_child hnode harr n).trans hidx)
              exact ih _ h1 hc' hexp'
          · exact ⟨h1, by simp⟩
      · exact ⟨h1, by simp⟩
    | extension key next =>
      simp only
      split
      · exact ⟨h1, by simp⟩
      split
      · split
        · exact ⟨h1, by rintro i ptr nib ⟨⟩; exact ⟨hc.live, hd, hne⟩⟩
        cases next with
        | remoteIdx r => exact ⟨h1, by simp⟩
        | localIdx idx =>
          obtain ⟨_, hc', hexp'⟩ := h1.enter hc hd (childAt_next hnode)
          exact ih _ h1 hc' hexp'
      · exact ⟨h1, by rintro i ptr nib ⟨⟩; exact ⟨hc.live, hd, hne⟩⟩
    | leaf key value | null => exact ⟨h1, by rintro i ptr nib ⟨⟩; exact ⟨hc.live, hd, hne⟩⟩

/-- A new node is given to a parent that is not hashed. -/
theorem Good.attachProofNode (h : Good keccak store t O none) (hne : t.nodes ≠ [])
    (hlive : O.Live i) (hd : t.Dirty i) {node : ProofNode}
    (hres : ((t.pushProofNode store node).bind fun r => r.1.attachNode i nib r.2) = some t') :
    ∃ O', Good keccak store t' O' none := by
  obtain ⟨⟨t1, ptr⟩, hpush, hatt⟩ := bind_eq_some_iff.mp hres
  obtain ⟨u, nd, rfl, rfl, hun, hnone, hgood⟩ := pushProofNode_eq_some hpush
  obtain ⟨O1, h1, hO1, harr⟩ := hgood O none t.nodes.length h
  have hlt := h.lt_length hne hlive
  have hget : (u.pushNode nd).1.nodes[i]? = t.nodes[i]? := by
    rw [getElem?_pushNode_of_lt nd (by rwa [hun]), hun]
  have hd2 : (u.pushNode nd).1.Dirty i := by
    intro s hs
    rw [hget] at hs
    exact hd s hs
  have hpushed : ∀ pos, Good keccak store (u.pushNode nd).1
      (O1.setNode t.nodes.length (.child i pos)) none := by
    intro pos
    rw [← hun]
    exact h1.pushNode (by rwa [hun]) nd (.child i pos) (fun s j hj => absurd hj (hnone s j))
      (by rwa [hun])
  have hlive2 : ∀ pos, (O1.setNode t.nodes.length (.child i pos)).Live i := by
    intro pos
    refine Owners.Live.setNode ?_ _
    rwa [Owners.Live, hO1]
  simp only [attachNode] at hatt
  cases hnode : ((u.pushNode nd).1.nodes[i]?).map Slot.node with
  | none => simp [hnode] at hatt
  | some inode =>
  rw [hnode] at hatt
  cases inode with
  | leaf kr vr | null => cases hatt
  | branch c =>
    cases hatt
    refine ⟨_, (hpushed (.child nib)).setChild_live (hlive2 _) hd2 hnode nib _ ?_⟩
    rintro j ⟨⟩
    exact Owners.setNode_node_self ..
  | extension kr ptr =>
    cases hatt
    refine ⟨_, (hpushed .next).setNode hd2 (Or.inl rfl) _ ?_ (by simp)⟩
    intro s j hj
    cases s with
    | child n => cases hj
    | next =>
      cases hj
      exact Owners.setNode_node_self ..

/-- Adding a node keeps the invariant. -/
theorem Good.addNodeFromProof (h : Good keccak store t O none) (path : Nibbles)
    (node : ProofNode) :
    ∃ O', Good keccak store (t.addNodeFromProof store path node).1 O' none := by
  unfold Trie.addNodeFromProof
  split
  · exact ⟨O, h⟩
  split
  · next hempty =>
      have hnil : t.nodes = [] := by simpa using hempty
      split
      · exact ⟨O, h⟩
      split
      · exact ⟨O, h.pushRoot hnil .null (by simp) (by simp)⟩
      split
      · next t' ptr hpush =>
          obtain ⟨u, nd, rfl, _, hun, hnone, hgood⟩ := pushProofNode_eq_some hpush
          obtain ⟨O1, h1, _, harr⟩ := hgood O none 0 h
          exact ⟨O1, h1.pushRoot (hun.trans hnil) nd hnone harr⟩
      · exact ⟨O, h⟩
  · obtain ⟨h1, hok⟩ := addNodeWalk_good path (path.length + t.nodes.length + 1) 0 h
      (.root h.root) h.exposed_root
    generalize addNodeWalk path (path.length + t.nodes.length + 1) t 0 0 = res at h1 hok ⊢
    obtain ⟨t1, res⟩ := res
    split
    · next heq =>
        cases heq
        exact ⟨O, h1⟩
    · next cur r nib heq =>
        cases heq
        obtain ⟨hlive, hd, hne⟩ := hok _ _ _ rfl
        split
        · next t' hres => exact h1.attachProofNode hne hlive hd hres
        · exact ⟨O, h1⟩
    · next heq =>
        cases heq
        exact ⟨O, h1⟩

theorem Good.addNodes (proof : List (Nibbles × ProofNode)) (h : Good keccak store t O none) :
    ∃ O', Good keccak store (t.addNodes store proof).1 O' none := by
  induction proof generalizing t O with
  | nil => exact ⟨O, h⟩
  | cons e proof ih =>
    obtain ⟨path, node⟩ := e
    obtain ⟨O1, h1⟩ := h.addNodeFromProof path node
    unfold Trie.addNodes
    generalize t.addNodeFromProof store path node = res at h1 ⊢
    obtain ⟨t1, res⟩ := res
    cases res with
    | ok _ => exact ih h1
    | error e => exact ⟨O1, h1⟩

/-- Adding a proof keeps the invariant. -/
theorem Good.tryAddProofFromProofStore (h : Good keccak store t O none) (key : Nibbles) :
    ∃ O', Good keccak store (t.tryAddProofFromProofStore store key).1 O' none := by
  unfold Trie.tryAddProofFromProofStore
  split
  · exact ⟨O, h⟩
  · next proof _ =>
      obtain ⟨O1, h1⟩ := h.addNodes proof
      generalize t.addNodes store proof = res at h1 ⊢
      obtain ⟨t1, res⟩ := res
      cases res with
      | ok _ | error e => exact ⟨O1, h1⟩

end Trie

end SparseMpt
