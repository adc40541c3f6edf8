/-
  The stored hashes of a trie are never stale.

  `Encodes` is the encoding of a node with all local nodes below it encoded from scratch; it
  looks at no flag and no stored pointer. After any sequence of operations, on any keys and
  with any contents of the proof store, a set flag on a node that can be reached from the root
  means that the stored pointer is the pointer of that encoding and that the flags of all local
  nodes below are set. The result of `root_hash` is therefore a function of the shape of the
  trie: it does not change when all flags are cleared, nor with the order of the hashing.
-/
import Rbuilder.SparseMpt.OwnedOps
import Rbuilder.SparseMpt.PartialTrie
import Mathlib.Logic.Relation

namespace SparseMpt

open List Option Trie

namespace Trie

/-- The pointer a parent stores for a child; `rlp` is the encoding of a local child. -/
def freshPtr (keccak : Bytes → B256) (store : ProofStore) (rlp : Bytes) : NodePtr → Option Bytes
  | .localIdx _ => some (rlpPointer keccak rlp)
  | .remoteIdx r => store.rlpPtrs[r]?

/-- The encoding of a node from scratch. -/
inductive Encodes (keccak : Bytes → B256) (store : ProofStore) (t : Trie) : Nat → Bytes → Prop
  | null {i : Nat} (node : t.nodeAt i = some .null) : Encodes keccak store t i [emptyStringCode]
  | leaf {i : Nat} {kr vr : Range} {k : Nibbles} {v : Bytes}
      (node : t.nodeAt i = some (.leaf kr vr)) (key : slice? t.keys kr = some k)
      (value : slice? t.values vr = some v) : Encodes keccak store t i (encodeLeaf k v)
  | ext {i : Nat} {kr : Range} {ptr : NodePtr} {k : Nibbles} {rlp d : Bytes}
      (node : t.nodeAt i = some (.extension kr ptr)) (key : slice? t.keys kr = some k)
      (hptr : freshPtr keccak store rlp ptr = some d)
      (child : ∀ j, ptr = .localIdx j → Encodes keccak store t j rlp) :
      Encodes keccak store t i (encodeExtension k d)
  | branch {i c : Nat} {arr : Children} {rlps : Nibble → Bytes}
      (node : t.nodeAt i = some (.branch c)) (array : t.branchNodeChildren[c]? = some arr)
      (hptr : ∀ n ptr, arr n = some ptr → (freshPtr keccak store (rlps n) ptr).isSome)
      (child : ∀ n j, arr n = some (.localIdx j) → Encodes keccak store t j (rlps n)) :
      Encodes keccak store t i
        (encodeBranchNode fun n => (arr n).bind (freshPtr keccak store (rlps n)))

/-- Two tries that differ in flags and stored pointers only. -/
structure SameShape (t t' : Trie) : Prop where
  keys : t'.keys = t.keys
  values : t'.values = t.values
  arrays : t'.branchNodeChildren = t.branchNodeChildren
  nodeAt : ∀ i, t'.nodeAt i = t.nodeAt i
  length : t'.nodes.length = t.nodes.length

variable {keccak : Bytes → B256} {store : ProofStore} {t t' : Trie} {O : Owners}

namespace SameShape

theorem refl (t : Trie) : SameShape t t := ⟨rfl, rfl, rfl, fun _ => rfl, rfl⟩

theorem symm (h : SameShape t t') : SameShape t' t :=
  ⟨h.keys.symm, h.values.symm, h.arrays.symm, fun i => (h.nodeAt i).symm, h.length.symm⟩

theorem trans {t'' : Trie} (h : SameShape t t') (h' : SameShape t' t'') : SameShape t t'' :=
  ⟨h'.keys.trans h.keys, h'.values.trans h.values, h'.arrays.trans h.arrays,
    fun i => (h'.nodeAt i).trans (h.nodeAt i), h'.length.trans h.length⟩

theorem childAt (h : SameShape t t') (i : Nat) (s : Pos) : t'.childAt i s = t.childAt i s := by
  cases s <;> simp [Trie.childAt, h.nodeAt, childOf, h.arrays]

end SameShape

variable {i j x : Nat} {rlp rlp' d : Bytes}

theorem Encodes.of_shape (h : SameShape t t')
    (he : Encodes keccak store t i rlp) : Encodes keccak store t' i rlp := by
  induction he with
  | null node => exact .null ((h.nodeAt _).trans node)
  | leaf node key value =>
    exact .leaf ((h.nodeAt _).trans node) (by rw [h.keys, key]) (by rw [h.values, value])
  | ext node key hptr _ ih => exact .ext ((h.nodeAt _).trans node) (by rw [h.keys, key]) hptr ih
  | branch node array hptr _ ih =>
    exact .branch ((h.nodeAt _).trans node) (by rw [h.arrays, array]) hptr ih

theorem Encodes.unique (h : Encodes keccak store t i rlp)
    (h' : Encodes keccak store t i rlp') : rlp = rlp' := by
  induction h generalizing rlp' with
  | null node =>
    cases h' with
    | null _ => rfl
    | leaf node' | ext node' | branch node' => simp [node] at node'
  | leaf node key value =>
    cases h' with
    | leaf node' key' value' =>
      rw [node] at node'
      cases node'
      rw [key] at key'
      rw [value] at value'
      cases key'
      cases value'
      rfl
    | null node' | ext node' | branch node' => simp [node] at node'
  | @ext i kr ptr k rlp d node key hptr child ih =>
    cases h' with
    | @ext _ _ _ _ rlp2 d2 node' key' hptr' child' =>
      rw [node] at node'
      cases node'
      rw [key] at key'
      cases key'
      have hd : d = d2 := by
        cases ptr with
        | remoteIdx r => exact some.inj (hptr.symm.trans hptr')
        | localIdx j =>
          rw [ih j rfl (child' j rfl)] at hptr
          exact some.inj (hptr.symm.trans hptr')
      rw [hd]
    | null node' | leaf node' | branch node' => simp [node] at node'
  | @branch i c arr rlps node array hptr child ih =>
    cases h' with
    | @branch _ _ _ rlps2 node' array' hptr' child' =>
      rw [node] at node'
      cases node'
      rw [array] at array'
      cases array'
      congr 1
      funext n
      cases hn : arr n with
      | none => rfl
      | some ptr =>
        cases ptr with
        | remoteIdx r => rfl
        | localIdx j => rw [ih n j hn (child' n j hn)]
    | null node' | leaf node' | ext node' => simp [node] at node'

/-! ## Stored pointers -/

theorem childRlpPtr_local (h : t.childRlpPtr store (.localIdx j) = some d) :
    ∃ s, t.nodes[j]? = some s ∧ s.hashed = true ∧ s.rlpPtr = d := by
  simp only [childRlpPtr] at h
  split at h
  · next s hs =>
      split at h
      · next hashed => exact ⟨s, hs, hashed, some.inj h⟩
      · cases h
  · cases h

/-- A chain is shorter than the arena. -/
theorem Chain.length_lt (h : Good keccak store t O none) (hne : t.nodes ≠ []) {l : List Nat}
    (hc : Chain O l i) : l.length < t.nodes.length := by
  have hlive {l : List Nat} {i : Nat} (hc : Chain O l i) := h.lt_length hne hc.live
  have hmem : ∀ j ∈ i :: l, j ∈ range t.nodes.length := by
    intro j hj
    rw [mem_range]
    rcases mem_cons.mp hj with rfl | hj
    · exact hlive hc
    · obtain ⟨l', hl', _⟩ := hc.of_mem hj
      exact hlive hl'
  have hsub := ((nodup_cons.mpr ⟨hc.not_mem, hc.nodup⟩).subperm hmem).length_le
  simp only [length_cons, length_range] at hsub
  omega

theorem RlpParts.ne_nil (h : RlpParts store t i rlp) : t.nodes ≠ [] := by
  cases h with
  | null node | leaf node | ext node | branch node => exact ne_nil_of_nodeAt node

/-- An encoding made from stored pointers is the encoding from scratch. -/
theorem Good.encodes (h : Good keccak store t O none) (n : Nat) :
    ∀ {l : List Nat} {i : Nat} {rlp : Bytes}, t.nodes.length - l.length ≤ n → Chain O l i →
      t.rlpEncodeNode store i = some rlp → Encodes keccak store t i rlp := by
  induction n with
  | zero =>
    intro l i rlp hn hc hrlp
    have := hc.length_lt h (rlpParts_of_eq hrlp).ne_nil
    omega
  | succ n ih =>
    intro l i rlp hn hc hrlp
    have hparts := rlpParts_of_eq hrlp
    -- a local child with a stored pointer is encoded from scratch
    have hchild : ∀ s j d, t.childAt i s = some (.localIdx j) →
        t.childRlpPtr store (.localIdx j) = some d →
        ∃ r, Encodes keccak store t j r ∧ d = rlpPointer keccak r := by
      intro s j d hj hd
      have hown := h.edge i s j hc.live (by simp) hj
      obtain ⟨slot, hslot, hashed, rfl⟩ := childRlpPtr_local hd
      obtain ⟨r, hr, hptr⟩ := h.current j (hc.child hown).live slot hslot hashed
      refine ⟨r, ih ?_ (hc.child hown) hr, hptr⟩
      simp only [length_cons]
      omega
    cases hparts with
    | null node => exact .null node
    | leaf node key value => exact .leaf node key value
    | @ext kr ptr k d node key hptr =>
      cases ptr with
      | remoteIdx r =>
        have hptr' : freshPtr keccak store [] (.remoteIdx r) = some d := hptr
        exact .ext node key hptr' (by simp)
      | localIdx j =>
        obtain ⟨r, hr, rfl⟩ := hchild .next j d (childAt_next node) hptr
        refine .ext node key rfl ?_
        rintro _ ⟨⟩
        exact hr
    | @branch c arr node array hptr =>
      have hex : ∀ n, ∃ r, ∀ ptr, arr n = some ptr →
          freshPtr keccak store r ptr = t.childRlpPtr store ptr ∧
            ∀ j, ptr = .localIdx j → Encodes keccak store t j r := by
        intro n
        cases hn : arr n with
        | none => exact ⟨[], by simp⟩
        | some ptr =>
          cases ptr with
          | remoteIdx r => exact ⟨[], by rintro _ ⟨⟩; exact ⟨rfl, by simp⟩⟩
          | localIdx j =>
            obtain ⟨d, hd⟩ := isSome_iff_exists.mp (hptr n _ hn)
            obtain ⟨r, hr, rfl⟩ := hchild (.child n) j d ((childAt_child node array n).trans hn) hd
            refine ⟨r, ?_⟩
            rintro _ ⟨⟩
            refine ⟨hd.symm, ?_⟩
            rintro _ ⟨⟩
            exact hr
      choose rlps hrlps using hex
      have hfun : (fun n => (arr n).bind (t.childRlpPtr store)) =
          fun n => (arr n).bind (freshPtr keccak store (rlps n)) := by
        funext n
        cases hn : arr n with
        | none => rfl
        | some ptr => exact (hrlps n ptr hn).1.symm
      rw [hfun]
      refine .branch node array ?_ fun n j hn => (hrlps n _ hn).2 j rfl
      intro n ptr hn
      rw [(hrlps n ptr hn).1]
      exact hptr n ptr hn

/-! ## Hashing -/

/-- Hashing sets flags and stored pointers. -/
structure Rehashed (t t' : Trie) : Prop extends SameShape t t' where
  hashed : ∀ ptr, t.IsHashed ptr → t'.IsHashed ptr

theorem Rehashed.refl (t : Trie) : Rehashed t t := ⟨SameShape.refl t, fun _ h => h⟩

variable {t'' : Trie} {s0 : Slot} {arr : Children} {f : Trie → Nat → Option Trie}

theorem Rehashed.trans (h : Rehashed t t') (h' : Rehashed t' t'') : Rehashed t t'' :=
  ⟨h.toSameShape.trans h'.toSameShape, fun ptr hp => h'.hashed ptr (h.hashed ptr hp)⟩

theorem Good.of_shape (h : Good keccak store t O none) (hs : SameShape t t')
    (hcur : ∀ i, O.Live i → t'.Current keccak store i) : Good keccak store t' O none := by
  refine ⟨h.root, by rw [hs.length]; exact h.fresh, by rw [hs.arrays]; exact h.freshArray, ?_, ?_,
    hcur, by simp⟩
  · intro i s j
    rw [hs.childAt]
    exact h.edge i s j
  · intro i c
    rw [hs.nodeAt]
    exact h.array i c

theorem getElem?_setHashed_of_ne (rlp : Bytes) (h : i ≠ x) :
    (t.setHashed x rlp).nodes[i]? = t.nodes[i]? := by
  simp [setHashed, h.symm]

theorem rehashed_setHashed (hget : t.nodes[x]? = some s0) (rlp : Bytes) :
    Rehashed t (t.setHashed x rlp) ∧ (t.setHashed x rlp).IsHashed (.localIdx x) := by
  have hx := getElem?_setHashed rlp hget
  refine ⟨⟨⟨rfl, rfl, rfl, ?_, by simp [setHashed]⟩, ?_⟩, _, hx, rfl⟩
  · intro i
    by_cases hi : i = x
    · subst hi
      rw [nodeAt_of_get hx, nodeAt_of_get hget]
    · simp only [nodeAt, getElem?_setHashed_of_ne rlp hi]
  intro ptr hp
  cases ptr with
  | remoteIdx r => trivial
  | localIdx i =>
    by_cases hi : i = x
    · subst hi
      exact ⟨_, hx, rfl⟩
    · obtain ⟨s, hs, hashed⟩ := hp
      exact ⟨s, by rw [getElem?_setHashed_of_ne rlp hi, hs], hashed⟩

/-- A node may be hashed when its encoding is known. -/
theorem Good.setHashed (h : Good keccak store t O none) (hx : O.Live x)
    (hget : t.nodes[x]? = some s0) (hrlp : t.rlpEncodeNode store x = some rlp) :
    Good keccak store (t.setHashed x (rlpPointer keccak rlp)) O none := by
  have hself := getElem?_setHashed (rlpPointer keccak rlp) hget
  -- stored pointers of hashed nodes stay: that of `x`, if there was one, was the same
  have hkeep : ∀ ptr d, t.childRlpPtr store ptr = some d →
      (t.setHashed x (rlpPointer keccak rlp)).childRlpPtr store ptr = some d := by
    intro ptr d hd
    cases ptr with
    | remoteIdx r => exact hd
    | localIdx i =>
      obtain ⟨s, hs, hashed, rfl⟩ := childRlpPtr_local hd
      by_cases hi : i = x
      · subst hi
        obtain ⟨rlp', hrlp', hptr⟩ := h.current i hx s hs hashed
        rw [hrlp] at hrlp'
        cases hrlp'
        simp [childRlpPtr, hself, hptr]
      · simp [childRlpPtr, getElem?_setHashed_of_ne _ hi, hs, hashed]
  refine h.of_shape (rehashed_setHashed hget _).1.toSameShape fun i hi => ?_
  by_cases hix : i = x
  · subst hix
    intro s hs _
    rw [hself] at hs
    cases hs
    exact ⟨rlp, rlpEncodeNode_mono hrlp ((rehashed_setHashed hget _).1.nodeAt i)
      (prefix_refl _) (prefix_refl _) (fun _ _ _ hc => hc)
      fun _ ptr d _ hd => hkeep ptr d hd, rfl⟩
  · exact (h.current i hi).of_same (getElem?_setHashed_of_ne _ hix) (prefix_refl _)
      (prefix_refl _) (fun _ _ _ hc => hc) fun _ ptr d _ hd => hkeep ptr d hd

/-- What hashing leaves behind. -/
def HashedTo (keccak : Bytes → B256) (store : ProofStore) (O : Owners) (t t' : Trie) : Prop :=
  Good keccak store t' O none ∧ Rehashed t t'

theorem HashedTo.trans (h : HashedTo keccak store O t t')
    (h' : HashedTo keccak store O t' t'') : HashedTo keccak store O t t'' :=
  ⟨h'.1, h.2.trans h'.2⟩

theorem Good.calculate (h : Good keccak store t O none) (hx : O.Live x)
    (hres : t.calculateRlpPointerNode keccak store x = some t') :
    HashedTo keccak store O t t' ∧ t'.IsHashed (.localIdx x) := by
  obtain ⟨rlp, hrlp, rfl⟩ := map_eq_some_iff.mp hres
  have hex : ∃ s0, t.nodes[x]? = some s0 := by
    cases rlpParts_of_eq hrlp with
    | null node | leaf node | ext node | branch node =>
      obtain ⟨s0, hs0, _⟩ := map_eq_some_iff.mp node
      exact ⟨s0, hs0⟩
  obtain ⟨s0, hs0⟩ := hex
  obtain ⟨hre, hh⟩ := rehashed_setHashed hs0 (rlpPointer keccak rlp)
  exact ⟨⟨h.setHashed hx hs0 hrlp, hre⟩, hh⟩

variable {parallel : Bool} {schedule schedule' : Nat → List Nibble}

/-- The loop over the children of a branch. -/
theorem hashChildren (hf : ∀ n j u u', arr n = some (.localIdx j) → Good keccak store u O none →
      f u j = some u' → HashedTo keccak store O u u' ∧ u'.IsHashed (.localIdx j))
    (order : List Nibble) :
    ∀ {u u' : Trie}, Good keccak store u O none → order.foldlM (hashChild arr f) u = some u' →
      HashedTo keccak store O u u' ∧
        ∀ n ∈ order, ∀ j, arr n = some (.localIdx j) → u'.IsHashed (.localIdx j) := by
  induction order with
  | nil =>
    intro u u' h hres
    cases hres
    exact ⟨⟨h, Rehashed.refl u⟩, by simp⟩
  | cons n order ih =>
    intro u u' h hres
    obtain ⟨u1, h1, hres⟩ := bind_eq_some_iff.mp hres
    have hstep : HashedTo keccak store O u u1 ∧
        ∀ j, arr n = some (.localIdx j) → u1.IsHashed (.localIdx j) := by
      unfold hashChild at h1
      split at h1
      · next j hj =>
          obtain ⟨hto, hh⟩ := hf n j u u1 hj h h1
          refine ⟨hto, fun j' hj' => ?_⟩
          rw [hj] at hj'
          cases hj'
          exact hh
      · next hno =>
          cases h1
          exact ⟨⟨h, Rehashed.refl u⟩, fun j hj => absurd hj (hno j)⟩
    obtain ⟨hto, hall⟩ := ih hstep.1.1 hres
    refine ⟨hstep.1.trans hto, ?_⟩
    intro m hm j hj
    rcases mem_cons.mp hm with rfl | hm
    · exact hto.2.hashed _ (hstep.2 j hj)
    · exact hall m hm j hj

/-- `root_hash_node` keeps the invariant and hashes its node. -/
theorem rootHashNode_good (fuel : Nat) :
    ∀ {t t' : Trie} {i : Nat}, Good keccak store t O none → O.Live i →
      rootHashNode keccak store parallel schedule fuel t i = some t' →
      HashedTo keccak store O t t' ∧ t'.IsHashed (.localIdx i) := by
  induction fuel with
  | zero => exact fun _ _ h => by cases h
  | succ fuel ih =>
    intro t t' i h hi hres
    simp only [rootHashNode] at hres
    split at hres
    · cases hres
    · next slot hget =>
        have hnode := nodeAt_of_get hget
        split at hres
        · next hashed =>
            cases hres
            exact ⟨⟨h, Rehashed.refl t⟩, slot, hget, hashed⟩
        split at hres
        · next c hc =>
            rw [hc] at hnode
            split at hres
            · cases hres
            · next arr harr =>
                obtain ⟨t1, h1, hcalc⟩ := bind_eq_some_iff.mp hres
                have hf : ∀ n j u u', arr n = some (.localIdx j) →
                    Good keccak store u O none →
                    rootHashNode keccak store parallel schedule fuel u j = some u' →
                    HashedTo keccak store O u u' ∧ u'.IsHashed (.localIdx j) := by
                  intro n j u u' hj hu
                  refine ih hu (Owners.live (h.edge i (.child n) j hi (by simp) ?_))
                  exact (childAt_child hnode harr n).trans hj
                obtain ⟨hto, _⟩ := hashChildren hf _ h h1
                obtain ⟨hto', hh⟩ := hto.1.calculate hi hcalc
                exact ⟨hto.trans hto', hh⟩
        · next kr next hn =>
            rw [hn] at hnode
            obtain ⟨t1, h1, hcalc⟩ := bind_eq_some_iff.mp hres
            have hto : HashedTo keccak store O t t1 := by
              split at h1
              · next j =>
                  exact (ih h (Owners.live (h.edge i .next j hi (by simp) (childAt_next hnode))) h1).1
              · cases h1
                exact ⟨h, Rehashed.refl t⟩
            obtain ⟨hto', hh⟩ := hto.1.calculate hi hcalc
            exact ⟨hto.trans hto', hh⟩
        · exact h.calculate hi hres

theorem exists_calculate (h : RlpParts store t i rlp) :
    ∃ t', t.calculateRlpPointerNode keccak store i = some t' := by
  simp [calculateRlpPointerNode, h.eq]

/-- The loop over the children succeeds when each child does. -/
theorem exists_hashChildren
    (hf : ∀ n j u u', arr n = some (.localIdx j) → Good keccak store u O none →
      f u j = some u' → HashedTo keccak store O u u' ∧ u'.IsHashed (.localIdx j))
    (hsome : ∀ n j u, arr n = some (.localIdx j) → SameShape t u → Good keccak store u O none →
      ∃ u', f u j = some u') (order : List Nibble) :
    ∀ {u : Trie}, SameShape t u → Good keccak store u O none →
      ∃ u', order.foldlM (hashChild arr f) u = some u' := by
  induction order with
  | nil => exact fun _ _ => ⟨_, rfl⟩
  | cons n order ih =>
    intro u hshape h
    have hstep : ∃ u1, hashChild arr f u n = some u1 ∧ HashedTo keccak store O u u1 := by
      unfold hashChild
      split
      · next j hj =>
          obtain ⟨u1, h1⟩ := hsome n j u hj hshape h
          exact ⟨u1, h1, (hf n j u u1 hj h h1).1⟩
      · exact ⟨u, rfl, h, Rehashed.refl u⟩
    obtain ⟨u1, h1, hto⟩ := hstep
    obtain ⟨u', hu'⟩ := ih (hshape.trans hto.2.toSameShape) hto.1
    exact ⟨u', by rw [foldlM_cons, h1]; exact hu'⟩

theorem childRlpPtr_of_hashed (store : ProofStore) (h : t.IsHashed (.localIdx j)) :
    ∃ d, t.childRlpPtr store (.localIdx j) = some d := by
  obtain ⟨s, hs, hashed⟩ := h
  exact ⟨s.rlpPtr, by simp [childRlpPtr, hs, hashed]⟩

/-- `root_hash_node` succeeds on a node that has an encoding. -/
theorem exists_rootHashNode (hs : ∀ i, (schedule i).Perm (finRange 16))
    (he : Encodes keccak store t i rlp) :
    ∀ {u : Trie} {l : List Nat} {fuel : Nat}, SameShape t u → Good keccak store u O none →
      Chain O l i → t.nodes.length < fuel + l.length →
      ∃ u', rootHashNode keccak store parallel schedule fuel u i = some u' := by
  have hfuel : ∀ {u : Trie} {l : List Nat} {fuel i : Nat} {node : DiffTrieNode}, SameShape t u →
      Good keccak store u O none → Chain O l i → t.nodeAt i = some node →
      t.nodes.length < fuel + l.length → ∃ f s, fuel = f + 1 ∧ u.nodes[i]? = some s ∧
        s.node = node := by
    intro u l fuel i node hshape h hc hnode hlt
    have hn : u.nodeAt i = some node := (hshape.nodeAt i).trans hnode
    obtain ⟨s, hs, hsn⟩ := map_eq_some_iff.mp hn
    have := hc.length_lt h (ne_nil_of_get hs)
    rw [hshape.length] at this
    exact ⟨fuel - 1, s, by omega, hs, hsn⟩
  induction he with
  | null node =>
    intro u l fuel hshape h hc hlt
    obtain ⟨f, s, rfl, hget, hsn⟩ := hfuel hshape h hc node hlt
    simp only [rootHashNode, hget, hsn]
    split
    · exact ⟨u, rfl⟩
    · exact exists_calculate (.null ((hshape.nodeAt _).trans node))
  | leaf node key value =>
    intro u l fuel hshape h hc hlt
    obtain ⟨f, s, rfl, hget, hsn⟩ := hfuel hshape h hc node hlt
    simp only [rootHashNode, hget, hsn]
    split
    · exact ⟨u, rfl⟩
    · exact exists_calculate (.leaf ((hshape.nodeAt _).trans node) (by rw [hshape.keys, key])
        (by rw [hshape.values, value]))
  | @ext i kr ptr k rlp d node key hptr child ih =>
    intro u l fuel hshape h hc hlt
    obtain ⟨f, s, rfl, hget, hsn⟩ := hfuel hshape h hc node hlt
    have hnode : u.nodeAt i = some (.extension kr ptr) := (hshape.nodeAt _).trans node
    simp only [rootHashNode, hget, hsn]
    split
    · exact ⟨u, rfl⟩
    cases ptr with
    | remoteIdx r => exact exists_calculate (.ext hnode (by rw [hshape.keys, key]) hptr)
    | localIdx j =>
      have hown := h.edge i .next j hc.live (by simp) (childAt_next hnode)
      obtain ⟨u1, h1⟩ : ∃ u1, rootHashNode keccak store parallel schedule f u j = some u1 :=
        ih j rfl hshape h (hc.child hown) (by
          simp only [length_cons]
          omega)
      obtain ⟨⟨hg1, hre⟩, hh⟩ := rootHashNode_good f h (hc.child hown).live h1
      obtain ⟨d', hd'⟩ := childRlpPtr_of_hashed store hh
      simp only [h1, bind_some]
      exact exists_calculate (.ext ((hre.nodeAt i).trans hnode)
        (by rw [hre.keys, hshape.keys, key]) hd')
  | @branch i c arr rlps node array hptr child ih =>
    intro u l fuel hshape h hc hlt
    obtain ⟨f, s, rfl, hget, hsn⟩ := hfuel hshape h hc node hlt
    have hnode : u.nodeAt i = some (.branch c) := (hshape.nodeAt _).trans node
    have harr : u.branchNodeChildren[c]? = some arr := by rw [hshape.arrays, array]
    simp only [rootHashNode, hget, hsn]
    split
    · exact ⟨u, rfl⟩
    have hown : ∀ n j, arr n = some (.localIdx j) → O.node j = some (.child i (.child n)) := by
      intro n j hj
      exact h.edge i (.child n) j hc.live (by simp) ((childAt_child hnode harr n).trans hj)
    have hf : ∀ n j v v', arr n = some (.localIdx j) → Good keccak store v O none →
        rootHashNode keccak store parallel schedule f v j = some v' →
        HashedTo keccak store O v v' ∧ v'.IsHashed (.localIdx j) :=
      fun n j v v' hj hv hres => rootHashNode_good f hv (hc.child (hown n j hj)).live hres
    have hsome : ∀ n j v, arr n = some (.localIdx j) → SameShape u v →
        Good keccak store v O none →
        ∃ v', rootHashNode keccak store parallel schedule f v j = some v' := by
      intro n j v hj hv hg
      refine ih n j hj (hshape.trans hv) hg (hc.child (hown n j hj)) ?_
      simp only [length_cons]
      omega
    obtain ⟨u1, h1⟩ := exists_hashChildren hf hsome (hashOrder parallel schedule i arr)
      (SameShape.refl u) h
    obtain ⟨⟨_, hre⟩, hall⟩ := hashChildren hf _ h h1
    simp only [harr, h1, bind_some]
    refine exists_calculate (.branch ((hre.nodeAt i).trans hnode) (by rw [hre.arrays, harr]) ?_)
    intro n ptr hn
    cases ptr with
    | remoteIdx r => exact hptr n _ hn
    | localIdx j =>
      have hmem : n ∈ hashOrder parallel schedule i arr := by
        unfold hashOrder
        simp only
        split
        · exact (hs i).mem_iff.mpr (mem_finRange n)
        · exact mem_finRange n
      obtain ⟨d, hd⟩ := childRlpPtr_of_hashed store (hall n hmem j hn)
      rw [hd]
      rfl

/-- The root hash is a function of the shape of the trie. -/
theorem Good.rootHash_cases (h : Good keccak store t O none) (parallel : Bool)
    (hs : ∀ i, (schedule i).Perm (finRange 16)) :
    (∃ rlp, Encodes keccak store t 0 rlp ∧
      (t.rootHash keccak parallel schedule store).2 = .ok (keccak rlp)) ∨
    (∀ rlp, ¬ Encodes keccak store t 0 rlp) ∧
      (t.rootHash keccak parallel schedule store).2 =
        if t.nodes.length = 0 then .error (.nodeNotFound []) else .error .panic := by
  cases hnil : t.nodes with
  | nil =>
    right
    refine ⟨?_, by simp [rootHash, hnil]⟩
    intro rlp he
    have hnone : t.nodeAt 0 = none := by simp [nodeAt, hnil]
    cases he with
    | null node | leaf node | ext node | branch node => simp [hnone] at node
  | cons s0 rest =>
    have hne : t.nodes.isEmpty = false := by simp [hnil]
    cases hres : rootHashNode keccak store parallel schedule (t.nodes.length + 1) t 0 with
    | none =>
      right
      refine ⟨fun rlp he => ?_, by simp [rootHash, hne, hres]⟩
      obtain ⟨u, hu⟩ : ∃ u, rootHashNode keccak store parallel schedule
          (t.nodes.length + 1) t 0 = some u :=
        exists_rootHashNode hs he (SameShape.refl t) h (.root h.root) (by simp)
      rw [hres] at hu
      cases hu
    | some t' =>
      left
      have hlive : O.Live 0 := Owners.live h.root
      obtain ⟨⟨h', hre⟩, s, hs', hashed⟩ := rootHashNode_good _ h hlive hres
      obtain ⟨rlp, hrlp, _⟩ := h'.current 0 hlive s hs' hashed
      have he := h'.encodes t'.nodes.length (Nat.sub_le ..) (.root h'.root) hrlp
      exact ⟨rlp, he.of_shape hre.toSameShape.symm, by simp [rootHash, hne, hres, hrlp]⟩

theorem Good.rootHash_eq (h : Good keccak store t O none) (h' : Good keccak store t' O none)
    (hshape : SameShape t t') (parallel parallel' : Bool)
    (hs : ∀ i, (schedule i).Perm (finRange 16))
    (hs' : ∀ i, (schedule' i).Perm (finRange 16)) :
    (t.rootHash keccak parallel schedule store).2 =
      (t'.rootHash keccak parallel' schedule' store).2 := by
  rcases h.rootHash_cases parallel hs with ⟨rlp, he, hr⟩ | ⟨hno, hr⟩
  · rcases h'.rootHash_cases parallel' hs' with ⟨rlp', he', hr'⟩ | ⟨hno', _⟩
    · rw [hr, hr', (he.of_shape hshape).unique he']
    · exact absurd (he.of_shape hshape) (hno' rlp)
  · rcases h'.rootHash_cases parallel' hs' with ⟨rlp', he', _⟩ | ⟨_, hr'⟩
    · exact absurd (he'.of_shape hshape.symm) (hno rlp')
    · rw [hr, hr', hshape.length]

/-- Hashing keeps the invariant. -/
theorem Good.rootHash (h : Good keccak store t O none) (parallel : Bool)
    (schedule : Nat → List Nibble) :
    Good keccak store (t.rootHash keccak parallel schedule store).1 O none := by
  unfold Trie.rootHash
  split
  · exact h
  split
  · exact h
  · next t' hres =>
      have h' := (rootHashNode_good _ h (Owners.live h.root) hres).1.1
      split
      · exact h'
      · exact h'

/-- All flags cleared. -/
def clearHashes (t : Trie) : Trie :=
  { t with nodes := t.nodes.map fun s => { s with hashed := false } }

theorem sameShape_clearHashes (t : Trie) : SameShape t t.clearHashes := by
  refine ⟨rfl, rfl, rfl, fun i => ?_, by simp [clearHashes]⟩
  simp only [nodeAt, clearHashes, getElem?_map, Option.map_map]
  rfl

section

variable (h : Good keccak store t O none)
include h

theorem Good.clearHashes : Good keccak store t.clearHashes O none := by
  refine h.of_shape (sameShape_clearHashes t) fun i _ => .of_dirty fun s hs => ?_
  simp only [Trie.clearHashes, getElem?_map, map_eq_some_iff] at hs
  obtain ⟨_, _, rfl⟩ := hs
  rfl

/-! ## Nodes below a node -/

/-- The node `j` is a local child of `i`. -/
def Edge (t : Trie) (i j : Nat) : Prop := ∃ s, t.childAt i s = some (.localIdx j)

/-- The node `j` is `i` or a local descendant of it. -/
def Below (t : Trie) : Nat → Nat → Prop := Relation.ReflTransGen t.Edge

theorem Good.chain_of_below (hi : t.Below 0 i) : ∃ l, Chain O l i := by
  induction hi with
  | refl => exact ⟨[], .root h.root⟩
  | tail _ hedge ih =>
    obtain ⟨l, hl⟩ := ih
    obtain ⟨s, hs⟩ := hedge
    exact ⟨_, hl.child (h.edge _ s _ hl.live (by simp) hs)⟩

/-- The children of a hashed node are hashed. -/
theorem Good.hashed_child (hi : O.Live i)
    (hh : t.IsHashed (.localIdx i)) (hedge : t.Edge i j) : t.IsHashed (.localIdx j) := by
  obtain ⟨s, hs, hashed⟩ := hh
  obtain ⟨rlp, hrlp, _⟩ := h.current i hi s hs hashed
  obtain ⟨pos, hpos⟩ := hedge
  have hsome : ∃ d, t.childRlpPtr store (.localIdx j) = some d := by
    cases rlpParts_of_eq hrlp with
    | null node | leaf node key value => simp [childAt_of_nodeAt node] at hpos
    | ext node key hptr =>
      rw [childAt_of_nodeAt node] at hpos
      cases pos with
      | child n => cases hpos
      | next =>
        cases hpos
        exact ⟨_, hptr⟩
    | branch node array hptr =>
      rw [childAt_of_nodeAt node] at hpos
      cases pos with
      | next => cases hpos
      | child n => exact isSome_iff_exists.mp (hptr n _ (by simpa [childOf, array] using hpos))
  obtain ⟨d, hd⟩ := hsome
  obtain ⟨s', hs', hashed', _⟩ := childRlpPtr_local hd
  exact ⟨s', hs', hashed'⟩

theorem Good.hashed_below (hi : t.Below 0 i)
    (hh : t.IsHashed (.localIdx i)) (hj : t.Below i j) : t.IsHashed (.localIdx j) := by
  induction hj with
  | refl => exact hh
  | tail hk hedge ih =>
    obtain ⟨l, hl⟩ := h.chain_of_below (hi.trans hk)
    exact h.hashed_child hl.live ih hedge

end

end Trie

/-! ## Runs -/


variable {keccak : Bytes → B256} {decode : Bytes → Option AlloyTrieNode}

/-- The state after a sequence of operations. -/
def PartialState.after (keccak : Bytes → B256) (decode : Bytes → Option AlloyTrieNode)
    (s : PartialState) (ops : List PartialOp) : PartialState :=
  ops.foldl (fun s op => (s.step keccak decode op).1) s

/-- One operation keeps the invariant, whatever it returns. -/
theorem PartialState.step_good {s : PartialState} {O : Owners}
    (h : Good keccak s.store s.trie O none) (op : PartialOp) :
    ∃ O', Good keccak (s.step keccak decode op).1.store
      (s.step keccak decode op).1.trie O' none := by
  cases op with
  | addProof key proof => exact ⟨O, h.store_mono (ProofStore.addProof_grows s.store key proof)⟩
  | tryAddProof key => exact h.tryAddProofFromProofStore key
  | insert key value => exact h.insertNibbleKey key value
  | delete key => exact h.deleteNibblesKey key
  | rootHash parallel schedule => exact ⟨O, h.rootHash parallel schedule⟩

theorem PartialState.after_good (ops : List PartialOp) :
    ∀ {s : PartialState} {O : Owners}, Good keccak s.store s.trie O none →
      ∃ O', Good keccak (s.after keccak decode ops).store
        (s.after keccak decode ops).trie O' none := by
  induction ops with
  | nil => exact fun h => ⟨_, h⟩
  | cons op ops ih =>
    intro s O h
    obtain ⟨O1, h1⟩ : ∃ O1, Good keccak (s.step keccak decode op).1.store
        (s.step keccak decode op).1.trie O1 none := step_good h op
    exact ih h1

/-- The record of a trie with at most a root. -/
def rootOwners : Owners := ⟨fun i => if i = 0 then some .root else none, fun _ => none⟩

theorem good_start (store : ProofStore) {t : Trie} (ht : t = {} ∨ t = Trie.newEmpty) :
    Good keccak store t rootOwners none := by
  have hempty : Good keccak store {} rootOwners none := by
    refine ⟨rfl, fun i _ h0 => by simp [rootOwners, h0], fun _ _ => rfl, ?_, ?_, ?_, by simp⟩
    · intro i s j _ _ hedge
      simp [childAt, nodeAt] at hedge
    · intro i c _ _ hnode
      simp [nodeAt] at hnode
    · intro i _ s hs
      simp at hs
  rcases ht with rfl | rfl
  · exact hempty
  · exact hempty.pushRoot rfl .null (by simp) (by simp)

/-- Stored hashes are never stale. After any operations, a node reached from the root with its
    flag set stores the pointer of its encoding from scratch, and the flags of all local nodes
    below it are set; the root hash is the one computed with all flags cleared, in any order. -/
theorem hash_cache_never_stale (keccak : Bytes → B256)
    (decode : Bytes → Option AlloyTrieNode) (store : ProofStore) {start : Trie}
    (hstart : start = {} ∨ start = newEmpty) (ops : List PartialOp) :
    let s := PartialState.after keccak decode ⟨store, start⟩ ops
    (∀ i slot, s.trie.Below 0 i → s.trie.nodes[i]? = some slot → slot.hashed = true →
      (∃ rlp, Trie.Encodes keccak s.store s.trie i rlp ∧ slot.rlpPtr = rlpPointer keccak rlp) ∧
      ∀ j, s.trie.Below i j → s.trie.IsHashed (.localIdx j)) ∧
    ∀ (parallel parallel' : Bool) (schedule schedule' : HashSchedule),
      (s.trie.rootHash keccak parallel schedule.order s.store).2 =
        (s.trie.clearHashes.rootHash keccak parallel' schedule'.order s.store).2 := by
  intro s
  obtain ⟨O, h⟩ : ∃ O, Good keccak s.store s.trie O none :=
    PartialState.after_good ops (good_start store hstart)
  refine ⟨?_, ?_⟩
  · intro i slot hi hslot hashed
    obtain ⟨l, hl⟩ := h.chain_of_below hi
    obtain ⟨rlp, hrlp, hptr⟩ := h.current i hl.live slot hslot hashed
    exact ⟨⟨rlp, h.encodes s.trie.nodes.length (Nat.sub_le _ _) hl hrlp, hptr⟩,
      fun j hj => h.hashed_below hi ⟨slot, hslot, hashed⟩ hj⟩
  · intro parallel parallel' schedule schedule'
    exact h.rootHash_eq h.clearHashes (sameShape_clearHashes s.trie) parallel parallel'
      schedule.perm schedule'.perm

/-- A branch with a leaf that is not revealed is hashed, the other leaf changed, and the root hashed
    again: in between the flag of the root is not set, and the root is the one from scratch. -/
theorem hash_cache_never_stale_reinsert :
    let schedule : HashSchedule := ⟨fun _ => List.finRange 16, fun _ => .refl _⟩
    let ops : List PartialOp := [leafProof 0, .tryAddProof (leafKey 0),
      .rootHash false schedule.order, .insert (leafKey 0) (.value [2])]
    let s := PartialState.after emptyRootKeccak decodeTwoLeaves {} ops
    ¬ s.trie.IsHashed (.localIdx 0) ∧
      (s.trie.rootHash emptyRootKeccak true schedule.order s.store).2 =
        (s.trie.clearHashes.rootHash emptyRootKeccak false schedule.order s.store).2 := by
  intro schedule ops s
  refine ⟨?_, ?_⟩
  · rintro ⟨slot, hslot, hashed⟩
    have hnot : s.trie.nodes.head?.map Slot.hashed = some false := by decide +kernel
    rw [List.head?_eq_getElem?, hslot] at hnot
    simp [hashed] at hnot
  · exact (hash_cache_never_stale emptyRootKeccak decodeTwoLeaves {} (Or.inl rfl) ops).2 true false
      schedule schedule

end SparseMpt
