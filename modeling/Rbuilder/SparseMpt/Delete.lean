/-
  `delete_nibbles_key` computes `Node.delete` on the represented node.

  The descent collects a walk path and the way back folds over it. Both are specified
  together, by induction on the abstract node (`DeleteSpec`): the walk below a node adds
  a list `D` to the walk path, and the way back over `D` ends in one of three results.
  `NodeDeleted`: the node was the leaf. `NodeUpdated`: the node's index stands for the
  updated node. `BranchBelowRemovedWithOneChild o`: the node was a branch of which only
  the child below `o` is left, to be merged into whatever is above.
-/
import Rbuilder.SparseMpt.Insert
import Mathlib.Data.Fintype.Card

namespace SparseMpt

open Patricia (Codec wrap)
open Patricia.Node List Option Function

namespace Trie

variable {C : Codec Nibble Bytes Bytes} {R : Nibbles → Nat → MptNode → Prop} {S : Nibbles → Prop}
  {t t' : Trie} {L L' : Labels}

/-! ## Counting children -/

/-- The nibbles that have a child. -/
def present (arr : Children) : Finset Nibble := Finset.univ.filter fun i => (arr i).isSome

variable {arr : Children} {j o a b : Nibble} {i idx c : Nat} {s : Slot} {p k k1 k2 pre q : Nibbles}
  {m n : MptNode} {rlp v : Bytes} {ch : Nibble → MptNode}

theorem mem_present {i : Nibble} : i ∈ present arr ↔ (arr i).isSome := by
  simp [present]

theorem childrenCount_eq_card (arr : Children) : childrenCount arr = (present arr).card := by
  unfold childrenCount present
  rw [countP_eq_length_filter, ← toFinset_card_of_nodup ((nodup_finRange 16).filter _)]
  simp

/-- With two children, the other one is the orphan. -/
theorem exists_orphan (hj : (arr j).isSome) (h : childrenCount arr = 2) :
    ∃ o, o ≠ j ∧ (arr o).isSome ∧ ∀ a, (arr a).isSome → a ≠ j → a = o := by
  rw [childrenCount_eq_card, Finset.card_eq_two] at h
  obtain ⟨x, y, hxy, he⟩ := h
  have hmem : ∀ a, (arr a).isSome ↔ a = x ∨ a = y := by
    intro a
    rw [← mem_present, he]
    simp
  rcases (hmem j).mp hj with rfl | rfl
  · exact ⟨y, Ne.symm hxy, (hmem y).mpr (Or.inr rfl),
      fun a ha hne => ((hmem a).mp ha).resolve_left hne⟩
  · exact ⟨x, hxy, (hmem x).mpr (Or.inl rfl), fun a ha hne => ((hmem a).mp ha).resolve_right hne⟩

/-- With three or more children, two are left besides a given one. -/
theorem exists_two_others (j : Nibble) (h : 3 ≤ childrenCount arr) :
    ∃ a b, a ≠ b ∧ a ≠ j ∧ b ≠ j ∧ (arr a).isSome ∧ (arr b).isSome := by
  rw [childrenCount_eq_card] at h
  have h1 : 1 < ((present arr).erase j).card := by
    have := Finset.pred_card_le_card_erase (s := present arr) (a := j)
    omega
  obtain ⟨a, ha, b, hb, hab⟩ := Finset.one_lt_card.mp h1
  rw [Finset.mem_erase, mem_present] at ha hb
  exact ⟨a, b, hab, ha.1, hb.1, ha.2, hb.2⟩

theorem two_le_childrenCount (hab : a ≠ b) (ha : (arr a).isSome)
    (hb : (arr b).isSome) : 2 ≤ childrenCount arr := by
  rw [childrenCount_eq_card]
  exact Finset.one_lt_card.mpr ⟨a, mem_present.mpr ha, b, mem_present.mpr hb, hab⟩

theorem find?_finRange {P : Nibble → Bool} (ho : P o = true)
    (huniq : ∀ a, P a = true → a = o) : (finRange 16).find? P = some o := by
  cases h : (finRange 16).find? P with
  | none => exact absurd ho (by simpa using find?_eq_none.mp h o (mem_finRange o))
  | some a => rw [huniq a (find?_some h)]

/-! ## Merging an orphan -/

theorem mergeKeys_eq {r1 r2 : Range} (o : Nibble)
    (h1 : slice? t.keys r1 = some k1) (h2 : slice? t.keys r2 = some k2) :
    t.mergeKeys r1 o r2 = some (t.insertKey (k1 ++ o :: k2)) := by
  simp [mergeKeys, h1, h2]

/-- Overwriting a dirty node with an extension. -/
theorem rep_setNode_ext {c : MptNode} {kr : Range}
    {next : NodePtr} (hi : t.nodes[i]? = some s) (hs : s.hashed = false) (hl : L.node i = p)
    (hk : slice? t.keys kr = some k) (hne : k ≠ []) (hc : Rep C R t L c (p ++ k) next) :
    Rep C R (t.setNode i (.extension kr next)) L (.ext k c) p (.localIdx i) := by
  have hF : Frame (· = p) t (t.setNode i (.extension kr next)) L L := frame_setNode _ hl
  exact .ext (getElem?_setNode (.extension kr next) hi) hl hk (by simp [hs])
    (hc.frame hF fun l hl => ne_of_append_prefix hne hl)

/-- The dirty node at path `p` takes over the orphan below `pre ++ [o]`, which becomes
    unreachable unless it is a branch. -/
theorem absorb_orphan
    (r1 : Range) (hi : t.nodes[i]? = some s) (hs : s.hashed = false) (hl : L.node i = p)
    (hpre : slice? t.keys r1 = some pre) (hm : Rep C R t L m (p ++ (pre ++ [o])) (.localIdx idx))
    (hcan : m.Canonical) :
    ∃ t', Frame (· = p) t t' L L ∧ Rep C R t' L (prepend (pre ++ [o]) m) p (.localIdx i) ∧
      match (t.nodes[idx]?).map Slot.node with
      | some (.leaf kr vr) => (t.mergeKeys r1 o kr).map (fun x => x.1.setNode i (.leaf x.2 vr)) =
          some t'
      | some (.extension kr next) =>
        (t.mergeKeys r1 o kr).map (fun x => x.1.setNode i (.extension x.2 next)) = some t'
      | some (.branch _) => t' = (t.insertKey (pre ++ [o])).1.setNode i
          (.extension (t.insertKey (pre ++ [o])).2 (.localIdx idx))
      | _ => False := by
  cases hm with
  | null => exact hcan.elim
  | @leaf k v _ _ kr vr hashed rlp get label key value cache =>
    have hF : Frame (· = p) t (t.insertKey (pre ++ o :: k)).1 L L := frame_insertKey _
    refine ⟨_, hF.trans (frame_setNode (.leaf (t.insertKey (pre ++ o :: k)).2 vr) hl), ?_, ?_⟩
    · have hkey := slice?_insertKey t (pre ++ o :: k)
      rw [prepend, append_assoc]
      exact rep_setNode_leaf hi hs hl hkey value
    · simp [get, mergeKeys_eq o hpre key]
  | @ext k c _ _ kr next hashed rlp get label key cache child =>
    have hF : Frame (· = p) t (t.insertKey (pre ++ o :: k)).1 L L := frame_insertKey _
    refine ⟨_, hF.trans (frame_setNode (.extension (t.insertKey (pre ++ o :: k)).2 next) hl),
      ?_, ?_⟩
    · have hkey := slice?_insertKey t (pre ++ o :: k)
      have hpath : p ++ (pre ++ [o]) ++ k = p ++ (pre ++ o :: k) := by simp
      rw [hpath] at child
      rw [prepend, append_assoc]
      refine rep_setNode_ext hi hs hl hkey (by simp) (child.frame hF fun l hl => ?_)
      exact ne_of_append_prefix (by simp) hl
    · simp [get, mergeKeys_eq o hpre key]
  | @branch ch _ _ c arr hashed rlp get label array arrayLabel cache absent child =>
    have hF : Frame (· = p) t (t.insertKey (pre ++ [o])).1 L L := frame_insertKey _
    refine ⟨_, hF.trans (frame_setNode (.extension (t.insertKey (pre ++ [o])).2 (.localIdx idx))
      hl), ?_, ?_⟩
    · have hw : prepend (pre ++ [o]) (branch ch) = .ext (pre ++ [o]) (.branch ch) := by
        cases pre <;> rfl
      rw [hw]
      refine rep_setNode_ext hi hs hl (slice?_insertKey t (pre ++ [o])) (by simp) ?_
      exact (Rep.branch get label array arrayLabel cache absent child).frame hF fun l hl =>
        ne_of_append_prefix (by simp) hl
    · simp [get]

/-- An extension above the removed branch takes over the orphan. -/
theorem mergeOrphan_ext {kr : Range} {next : NodePtr} (nib : Nibble)
    (hi : t.nodes[i]? = some ⟨.extension kr next, false, rlp⟩) (hl : L.node i = p)
    (hk : slice? t.keys kr = some k) (hm : Rep C R t L m (p ++ k ++ [o]) (.localIdx idx))
    (hcan : m.Canonical) :
    ∃ t', t.mergeOrphan i nib o (.localIdx idx) = some t' ∧ Frame (· = p) t t' L L ∧
      Rep C R t' L (prepend (k ++ [o]) m) p (.localIdx i) := by
  rw [append_assoc] at hm
  obtain ⟨t', hF, hRep, heq⟩ := absorb_orphan kr hi rfl hl hk hm hcan
  refine ⟨t', ?_, hF, hRep⟩
  obtain ⟨_, s, hs⟩ := hm.local
  obtain ⟨node, hashed, rlp'⟩ := s
  rw [hs, map_some] at heq
  cases node with
  | null => exact heq.elim
  | leaf okr ovr | extension okr onext => simpa [mergeOrphan, hi, hs] using heq
  | branch oc =>
    simp only [mergeOrphan, hi, hs, mergeKeys_eq o hk (slice?_empty _), map_some]
    exact congrArg some heq.symm

/-- The orphan becomes the head of the trie. -/
theorem deleteHead_below
    (hi : t.nodes[0]? = some s) (hl : L.node 0 = []) (hm : Rep C R t L m [o] (.localIdx idx))
    (hcan : m.Canonical) :
    ∃ t', t.deleteHead (.branchBelowRemovedWithOneChild o (.localIdx idx)) = some t' ∧
      Frame (· = []) t t' L L ∧ Rep C R t' L (prepend [o] m) [] (.localIdx 0) := by
  have hF0 : Frame (· = []) t (t.setDirty 0) L L := frame_setDirty hl
  have hm0 : Rep C R (t.setDirty 0) L m ([] ++ ([] ++ [o])) (.localIdx idx) :=
    hm.frame hF0 fun l hl' => ne_of_append_prefix (p := []) (by simp) hl'
  obtain ⟨t', hF, hRep, heq⟩ := absorb_orphan ⟨0, 0⟩ (getElem?_setDirty hi) rfl hl
    (slice?_empty _) hm0 hcan
  refine ⟨t', ?_, hF0.trans hF, hRep⟩
  obtain ⟨_, s, hs⟩ := hm0.local
  obtain ⟨node, hashed, rlp'⟩ := s
  rw [hs, map_some] at heq
  cases node with
  | null => exact heq.elim
  | leaf okr ovr | extension okr onext => simpa [deleteHead, hs] using heq
  | branch oc =>
    simp only [deleteHead, hs, map_some]
    exact congrArg some heq.symm

/-- A branch above the removed branch points at the orphan, which absorbs its nibble in
    place, or at a new extension when the orphan is a branch. -/
theorem mergeOrphan_branch (hi : t.nodes[i]? = some ⟨.branch c, false, rlp⟩)
    (hm : Rep C R t L m (p ++ [j] ++ [o]) (.localIdx idx)) (hcan : m.Canonical) :
    ∃ t' L' q, t.mergeOrphan i j o (.localIdx idx) = some (t'.setChild c j (some q)) ∧
      Frame (Under (p ++ [j])) t t' L L' ∧ Rep C R t' L' (prepend [o] m) (p ++ [j]) q := by
  have hlab := hm.local.1
  -- no slot but the orphan's is touched
  have hup : ∀ l, l = p ++ [j] ++ [o] → Under (p ++ [j]) l := by
    rintro l rfl
    exact prefix_append ..
  cases hm with
  | null => exact hcan.elim
  | @leaf k v _ _ kr vr hashed rlp' get label key value cache =>
    have hF1 : Frame (· = p ++ [j] ++ [o]) t (t.insertKey (o :: k)).1 L L := frame_insertKey _
    have hF2 := (hF1.trans (frame_setNode (.leaf (t.insertKey (o :: k)).2 vr) hlab)).trans
      (frame_setDirty (i := idx) hlab)
    have hget := getElem?_setDirty (getElem?_setNode (t := (t.insertKey (o :: k)).1)
      (.leaf (t.insertKey (o :: k)).2 vr) get)
    refine ⟨_, _, .localIdx idx, ?_, (hF2.relabel hlab (p ++ [j])).mono hup,
      .leaf hget (Labels.setNode_self ..) (slice?_insertKey t (o :: k)) value (by simp)⟩
    simp [mergeOrphan, hi, get, mergeKeys_eq o (slice?_empty _) key]
  | @ext k c' _ _ kr next hashed rlp' get label key cache child =>
    have hF1 : Frame (· = p ++ [j] ++ [o]) t (t.insertKey (o :: k)).1 L L := frame_insertKey _
    have hF2 := ((hF1.trans (frame_setNode (.extension (t.insertKey (o :: k)).2 next) hlab)).trans
      (frame_setDirty (i := idx) hlab)).relabel hlab (p ++ [j])
    have hget := getElem?_setDirty (getElem?_setNode (t := (t.insertKey (o :: k)).1)
      (.extension (t.insertKey (o :: k)).2 next) get)
    have hchild := child.frame hF2 fun l hl => ne_of_append_prefix hcan.1 hl
    have hpath : p ++ [j] ++ [o] ++ k = p ++ [j] ++ (o :: k) := by simp
    rw [hpath] at hchild
    refine ⟨_, _, .localIdx idx, ?_, hF2.mono hup,
      .ext hget (Labels.setNode_self ..) (slice?_insertKey t (o :: k)) (by simp) hchild⟩
    simp [mergeOrphan, hi, get, mergeKeys_eq o (slice?_empty _) key]
  | @branch ch _ _ c' arr' hashed rlp' get label array arrayLabel cache absent child =>
    have hF1 : Frame (fun _ => False) t (t.insertKey [o]).1 L L := frame_insertKey _
    have hF2 := hF1.trans (frame_pushNode (.extension (t.insertKey [o]).2 (.localIdx idx))
      (p ++ [j]))
    have hget := getElem?_pushNode (t.insertKey [o]).1
      (.extension (t.insertKey [o]).2 (.localIdx idx))
    refine ⟨_, _, .localIdx t.nodes.length, ?_, hF2.mono fun _ => False.elim,
      .ext hget (Labels.setNode_self ..) (slice?_insertKey t [o]) (by simp)
        ((Rep.branch get label array arrayLabel cache absent child).frame hF2 fun _ _ h => h)⟩
    simp [mergeOrphan, hi, get, pushNode, insertKey]

/-! ## The way back -/

theorem deleteUnwind_append (D W : List (Nat × Nibble)) (t : Trie) (r : NodeDeletionResult) :
    t.deleteUnwind (D ++ W) r = (t.deleteUnwind D r).bind fun x => x.1.deleteUnwind W x.2 := by
  induction D generalizing t r with
  | nil => rfl
  | cons e D ih =>
    obtain ⟨i, j⟩ := e
    have hupd : ∀ t : Trie, t.deleteUnwind W .nodeUpdated = some (t, .nodeUpdated) := by
      intro t
      cases W <;> rfl
    cases r with
    | nodeUpdated => exact (hupd t).symm
    | branchBelowRemovedWithOneChild o ptr =>
      simp only [cons_append, deleteUnwind]
      cases t.mergeOrphan i j o ptr with
      | none => rfl
      | some t => exact (hupd t).symm
    | nodeDeleted =>
      simp only [cons_append, deleteUnwind]
      split
      · exact ih ..
      · split
        · rfl
        split
        · exact ih ..
        split
        · split
          · rfl
          · split
            · exact ih ..
            · rfl
        · rfl
      · rfl

section

variable (C : Codec Nibble Bytes Bytes) (R : Nibbles → Nat → MptNode → Prop) (n : MptNode)

/-- What the way back over the part of the walk path at and below the node `n` leaves. -/
def UnwindOutcome (p q : Nibbles) (i : Nat) (t : Trie) (L : Labels) : NodeDeletionResult → Prop
  | .nodeDeleted => (∃ v, n = .leaf q v) ∧ L.node i = p ∧ ∃ s, t.nodes[i]? = some s
  | .nodeUpdated => ∃ n', n.delete q = some n' ∧ n' ≠ .null ∧ (n.IsBranch → n'.IsBranch) ∧
      Rep C R t L n' p (.localIdx i)
  | .branchBelowRemovedWithOneChild o ptr => ∃ m idx, ptr = .localIdx idx ∧ n.IsBranch ∧
      n.delete q = some (prepend [o] m) ∧ m.Canonical ∧ Rep C R t L m (p ++ [o]) ptr ∧
      L.node i = p ∧ ∃ s, t.nodes[i]? = some s

/-- What the walk from the node `n` at path `p` and index `i` leaves behind. -/
def DeleteOutcome (p q : Nibbles) (i : Nat) (t : Trie) (L : Labels) (walkPath : List (Nat × Nibble))
    (res : Trie × Except TrieError (Range × List (Nat × Nibble))) : Prop :=
  Frame (Under p) t res.1 L L ∧ Rep C R res.1 L n p (.localIdx i) ∧
    match res.2 with
    | .error e => e = .keyNotFound ∧ n.get q = none ∨
        ∃ path, e = .nodeNotFound path ∧ Blocked R [] path
    | .ok (old, walked) => (∃ v, slice? res.1.values old = some v ∧ n.get q = some v) ∧
        ∃ D, walked = D ++ walkPath ∧ ∃ t2 r L2, res.1.deleteUnwind D .nodeDeleted = some (t2, r) ∧
          Frame (Under p) res.1 t2 L L2 ∧ UnwindOutcome C R n p q i t2 L2 r

def DeleteSpec : Prop :=
  ∀ p q i fuel t L walkPath, Rep C R t L n p (.localIdx i) → n.WellFormed → q.length < fuel →
    DeleteOutcome C R n p q i t L walkPath (deleteWalk (p ++ q) fuel t i p.length walkPath)

end

theorem deleteSpec_null : DeleteSpec C R .null := by
  intro p q i fuel t L W h _ hfuel
  obtain _ | fuel := fuel
  · omega
  cases h with
  | null get label cache =>
    simp only [deleteWalk, get]
    exact ⟨frame_setDirty (label ▸ prefix_refl _),
      .null (getElem?_setDirty get) label (by simp), Or.inl ⟨rfl, rfl⟩⟩

theorem deleteSpec_leaf : DeleteSpec C R (.leaf k v) := by
  intro p q i fuel t L W h _ hfuel
  obtain _ | fuel := fuel
  · omega
  cases h with
  | @leaf k v p i kr vr hashed rlp get label key value cache =>
    have hd := getElem?_setDirty get
    have key1 : slice? (t.setDirty i).keys kr = some k := key
    have hF : Frame (Under p) t (t.setDirty i) L L := frame_setDirty (label ▸ prefix_refl _)
    have hRep : Rep C R (t.setDirty i) L (.leaf k v) p (.localIdx i) :=
      .leaf hd label key value (by simp)
    by_cases hkq : k = q
    · subst hkq
      simp only [deleteWalk, get, key1, drop_left, if_true]
      refine ⟨hF, hRep, ⟨v, value, by simp⟩, [(i, 0)], rfl, t.setDirty i, .nodeDeleted, L, ?_,
        Frame.refl .., ⟨v, rfl⟩, label, _, hd⟩
      simp [deleteUnwind, hd]
    · simp only [deleteWalk, get, key1, drop_left, if_neg hkq]
      refine ⟨hF, hRep, Or.inl ⟨rfl, ?_⟩⟩
      rw [get_leaf, if_neg (Ne.symm hkq)]

theorem prepend_prepend (m : MptNode) : prepend k (prepend [o] m) = prepend (k ++ [o]) m := by
  cases m with
  | null => rfl
  | leaf k' v | ext k' c => simp [prepend]
  | branch ch => cases k <;> rfl

theorem deleteSpec_ext {c : MptNode} (ih : DeleteSpec C R c) : DeleteSpec C R (.ext k c) := by
  intro p q i fuel t L W h hn hfuel
  obtain _ | fuel := fuel
  · omega
  obtain ⟨hk, hb, hc⟩ := hn.resolve_left (by simp)
  obtain ⟨kr, next, hashed, rlp, get, hopen, child, h1⟩ := h.enter_ext hk
  by_cases hkq : k <+: q
  · obtain ⟨r, rfl⟩ := hkq
    have hpre : k <+: k ++ r := prefix_append k r
    simp only [deleteWalk, get, drop_left, hopen.key, if_pos hpre]
    cases next with
    | remoteIdx r' =>
      exact ⟨h1, hopen.rep child, Or.inr ⟨_, rfl, p ++ k, r', c, by simp, child.of_remote⟩⟩
    | localIdx idx =>
      have hrec := ih (p ++ k) r idx fuel _ L ((i, 0) :: W) child (Or.inr hc)
        (length_lt_of_append hk hfuel)
      rw [append_assoc, length_append, length_of_slice? hopen.key] at hrec
      simp only
      generalize deleteWalk (p ++ (k ++ r)) fuel (t.setDirty i) idx
        (p.length + kr.length) ((i, 0) :: W) = res at hrec
      obtain ⟨hF, hcRep, hres⟩ := hrec
      have hopen' := hopen.frame hF (not_under_append hk)
      refine ⟨h1.trans (hF.mono fun _ => Under.of_append), hopen'.rep hcRep, ?_⟩
      cases hr : res.2 with
      | error e =>
        rw [hr] at hres
        simpa using hres
      | ok ow =>
        rw [hr] at hres
        obtain ⟨⟨v, hv, hgv⟩, D, hD, t2, r2, L2, hun, hF2, hout⟩ := hres
        refine ⟨⟨v, hv, by simpa using hgv⟩, D ++ [(i, 0)], by simp [hD], ?_⟩
        rw [deleteUnwind_append, hun, bind_some]
        have hopen2 := hopen'.frame hF2 (not_under_append hk)
        have hFp := hF2.mono fun l (hl : Under (p ++ k) l) => hl.of_append
        cases r2 with
        | nodeDeleted =>
          -- the child of an extension is a branch
          obtain ⟨⟨v', rfl⟩, _⟩ := hout
          exact hb.elim
        | nodeUpdated =>
          obtain ⟨n', hdel, hne, hbr, hrep⟩ := hout
          refine ⟨t2, .nodeUpdated, L2, rfl, hFp, .ext k n', ?_, by simp, fun h => h,
            hopen2.rep hrep⟩
          rw [delete_ext_append, hdel, map_some]
          cases n' with
          | branch ch' =>
            cases k with
            | nil => exact absurd rfl hk
            | cons a k => rfl
          | null | leaf _ _ | ext _ _ => exact (hbr hb).elim
        | branchBelowRemovedWithOneChild o ptr =>
          obtain ⟨m, oidx, rfl, _, hdel, hcan, hrep, _⟩ := hout
          obtain ⟨rlp2, get2⟩ := hopen2.get
          obtain ⟨t3, hm, hF3, hrep3⟩ := mergeOrphan_ext 0 get2 hopen2.label hopen2.key hrep hcan
          refine ⟨t3, .nodeUpdated, L2, ?_, hFp.trans (hF3.mono fun l hl => hl ▸
            prefix_refl p), prepend (k ++ [o]) m, ?_, ?_, fun h => h.elim, hrep3⟩
          · simp [deleteUnwind, hm]
          · rw [delete_ext_append, hdel, map_some, prepend_prepend]
          · exact (canonical_prepend hcan).ne_null
  · simp only [deleteWalk, get, drop_left, hopen.key, if_neg hkq]
    exact ⟨h1, hopen.rep child, Or.inl ⟨rfl, get_ext_off_path c hkq⟩⟩

/-- The way back at a branch, after the way back below its child `j`. -/
theorem unwind_branch {r : NodeDeletionResult}
    (hc : (branch ch).Canonical) (hopen : OpenBranch t L p i c arr ch)
    (child : ∀ a ptr, a ≠ j → arr a = some ptr → Rep C R t L (ch a) (p ++ [a]) ptr)
    (hj : arr j = some (.localIdx idx))
    (horphan : childrenCount arr = 2 → ∀ o ptr, o ≠ j → arr o = some ptr →
      ∃ oidx, ptr = .localIdx oidx) (hout : UnwindOutcome C R (ch j) (p ++ [j]) q idx t L r) :
    ∃ t2 r2 L2, t.deleteUnwind [(i, j)] r = some (t2, r2) ∧ Frame (Under p) t t2 L L2 ∧
      UnwindOutcome C R (.branch ch) p (j :: q) i t2 L2 r2 := by
  have hsome : ∀ a, (arr a).isSome ↔ ch a ≠ .null := by
    intro a
    rw [ne_eq, ← hopen.absent a, isSome_iff_ne_none]
  obtain ⟨b, hbj, hb⟩ : ∃ b, b ≠ j ∧ ch b ≠ .null := by
    obtain ⟨a, b, hab, ha, hb⟩ := hc.1
    by_cases haj : a = j
    · exact ⟨b, fun hbj => hab (haj.trans hbj.symm), hb⟩
    · exact ⟨a, haj, ha⟩
  have hjs : (arr j).isSome := by rw [hj]; rfl
  obtain ⟨rlp, get⟩ := hopen.get
  -- two children are left when the child is updated
  have hcollapse : ∀ n', n' ≠ .null → (ch j).delete q = some n' →
      (branch ch).delete (j :: q) = some (.branch (update ch j n')) := by
    intro n' hne hdel
    rw [delete_branch_cons, hdel, map_some]
    rw [collapse_two (Ne.symm hbj) (by simpa using hne) (by simpa [hbj] using hb)]
  have hset : ∀ {t2 : Trie} {L2 : Labels} (ptr : Option NodePtr),
      OpenBranch t2 L2 p i c arr ch → Frame (Under p) t2 (t2.setChild c j ptr) L2 L2 :=
    fun ptr h2 => frame_setChild j ptr (by rw [h2.arrayLabel]; exact prefix_refl p)
  cases r with
  | nodeUpdated =>
    obtain ⟨n', hdel, hne, _, hrep⟩ := hout
    exact ⟨t, .nodeUpdated, L, rfl, Frame.refl .., _, hcollapse n' hne hdel, by simp,
      fun _ => trivial, hopen.rep_update hj hne hrep child⟩
  | branchBelowRemovedWithOneChild o ptr =>
    obtain ⟨m, oidx, rfl, _, hdel, hcan, hrep, _⟩ := hout
    obtain ⟨t3, L3, q3, hm, hF3, hrep3⟩ := mergeOrphan_branch get hrep hcan
    have hne : prepend [o] m ≠ .null := (canonical_prepend hcan).ne_null
    have hopen3 := hopen.frame hF3 (not_under_append (by simp))
    refine ⟨t3.setChild c j (some q3), .nodeUpdated, L3, by simp [deleteUnwind, hm],
      (hF3.mono fun _ => Under.of_append).trans (hset _ hopen3), _, hcollapse _ hne hdel, by simp,
      fun _ => trivial, hopen3.rep_setChild (by simp [hne]) (by rintro _ ⟨⟩; exact hrep3) ?_⟩
    exact fun a ptr haj ha => (child a ptr haj ha).frame hF3 fun l hl => not_under_sibling haj hl
  | nodeDeleted =>
    obtain ⟨⟨v, hleaf⟩, _⟩ := hout
    have hdel : (branch ch).delete (j :: q) =
        some (collapse (update ch j .null)) := by
      rw [delete_branch_cons, hleaf]
      simp [Patricia.Node.delete]
    have h2 : 2 ≤ childrenCount arr := two_le_childrenCount (Ne.symm hbj) hjs ((hsome b).mpr hb)
    by_cases h3 : 3 ≤ childrenCount arr
    · obtain ⟨a, a', haa, haj, haj', ha, ha'⟩ := exists_two_others j h3
      refine ⟨t.setChild c j none, .nodeUpdated, L, ?_, hset none hopen,
        .branch (update ch j .null), ?_, by simp, fun _ => trivial,
        hopen.rep_setChild (by simp) (by simp) child⟩
      · simp [deleteUnwind, get, hopen.array, h3]
      · rw [hdel, collapse_two haa (by simpa [haj] using (hsome a).mp ha)
          (by simpa [haj'] using (hsome a').mp ha')]
    have hcount : childrenCount arr = 2 := by omega
    obtain ⟨o, hoj, ho, huniq⟩ := exists_orphan hjs hcount
    obtain ⟨optr, hoptr⟩ := isSome_iff_exists.mp ho
    obtain ⟨oidx, rfl⟩ := horphan hcount o optr hoj hoptr
    have hfind : (finRange 16).find? (fun a => (update arr j none a).isSome) =
        some o := by
      apply find?_finRange
      · simpa [hoj] using ho
      intro a ha
      by_cases haj : a = j
      · simp [haj] at ha
      · rw [update_of_ne haj] at ha
        exact huniq a ha haj
    have hw : Frame (· = p) t (t.setChild c j none) L L := frame_setChild j none hopen.arrayLabel
    refine ⟨t.setChild c j none, .branchBelowRemovedWithOneChild o (.localIdx oidx), L, ?_,
      hset none hopen, ch o, oidx, rfl, trivial, ?_, hc.child ((hsome o).mp ho), ?_,
      hopen.label, _, get⟩
    · simp [deleteUnwind, get, hopen.array, hcount, hfind, hoj, hoptr]
    · rw [hdel, collapse_one (i := o) (by simpa [hoj] using (hsome o).mp ho)]
      · rw [update_of_ne hoj]
      intro a hao
      by_cases haj : a = j
      · simp [haj]
      · rw [update_of_ne haj]
        by_contra hne
        exact hao (huniq a ((hsome a).mpr hne) haj)
    · exact (child o _ hoj hoptr).frame hw fun l hl => ne_of_append_prefix (by simp) hl

theorem deleteSpec_branch (ih : ∀ j, DeleteSpec C R (ch j)) : DeleteSpec C R (.branch ch) := by
  intro p q i fuel t L W h hn hfuel
  obtain _ | fuel := fuel
  · omega
  have hc := hn.resolve_left (by simp)
  obtain ⟨c, arr, hashed, rlp, get, hopen, child, h1⟩ := h.enter_branch
  have hRep := hopen.rep child
  cases q with
  | nil =>
    simp only [deleteWalk, get, append_nil, if_true]
    exact ⟨h1, hRep, Or.inl ⟨rfl, rfl⟩⟩
  | cons j q =>
  have hlen : ¬ (p ++ j :: q).length = p.length := by simp
  have hnib : (p ++ j :: q)[p.length]? = some j := by simp
  have htake : (p ++ j :: q).take p.length = p := by simp
  simp only [deleteWalk, get, if_neg hlen, hnib, hopen.array]
  cases hj : arr j with
  | none =>
    refine ⟨h1, hRep, Or.inl ⟨rfl, ?_⟩⟩
    rw [get_branch_cons, (hopen.absent j).mp hj, get_null]
  | some ptr =>
  cases ptr with
  | remoteIdx r =>
    exact ⟨h1, hRep, Or.inr ⟨_, rfl, p ++ [j], r, ch j, by simp, (child j _ hj).of_remote⟩⟩
  | localIdx idx =>
    have hjs : (arr j).isSome := by rw [hj]; rfl
    -- the walk goes on when no orphan is missing
    have hgo : (childrenCount arr = 2 → ∀ o ptr, o ≠ j → arr o = some ptr →
        ∃ oidx, ptr = .localIdx oidx) →
        DeleteOutcome C R (.branch ch) p (j :: q) i t L W (deleteWalk (p ++ j :: q) fuel
          (t.setDirty i) idx (p.length + 1) ((i, j) :: W)) := by
      intro horphan
      have hrec := ih j (p ++ [j]) q idx fuel _ L ((i, j) :: W) (child j _ hj) (hc.2 j)
        (by simpa using hfuel)
      rw [append_assoc, length_append] at hrec
      simp only [cons_append, nil_append, length_cons, length_nil, Nat.zero_add] at hrec
      generalize deleteWalk (p ++ j :: q) fuel (t.setDirty i) idx (p.length + 1)
        ((i, j) :: W) = res at hrec
      obtain ⟨hF, hcRep, hres⟩ := hrec
      have hopen' := hopen.frame hF (not_under_append (by simp))
      have hother := fun a ptr haj ha =>
        (child a ptr ha).frame hF fun l hl => not_under_sibling haj hl
      refine ⟨h1.trans (hF.mono fun _ => Under.of_append), hopen'.rep_at hj hcRep hother, ?_⟩
      cases hr : res.2 with
      | error e =>
        rw [hr] at hres
        exact hres
      | ok ow =>
        rw [hr] at hres
        obtain ⟨hv, D, hD, t2, r2, L2, hun, hF2, hout2⟩ := hres
        obtain ⟨t3, r3, L3, hun3, hF3, hout3⟩ := unwind_branch hc
          (hopen'.frame hF2 (not_under_append (by simp)))
          (fun a ptr haj ha => (hother a ptr haj ha).frame hF2 fun l hl =>
            not_under_sibling haj hl) hj horphan hout2
        refine ⟨hv, D ++ [(i, j)], by simp [hD], t3, r3, L3, ?_,
          (hF2.mono fun _ => Under.of_append).trans hF3, hout3⟩
        rw [deleteUnwind_append, hun, bind_some, hun3]
    by_cases hcount : childrenCount arr = 2
    · obtain ⟨o, hoj, ho, huniq⟩ := exists_orphan hjs hcount
      obtain ⟨optr, hoptr⟩ := isSome_iff_exists.mp ho
      have hfind : (finRange 16).find? (fun a => (arr a).isSome && a != j) = some o := by
        apply find?_finRange
        · simp [ho, hoj]
        · intro a ha
          simp only [Bool.and_eq_true, bne_iff_ne] at ha
          exact huniq a ha.1 ha.2
      simp only [if_pos hcount, hfind, hoptr]
      cases optr with
      | remoteIdx r =>
        rw [htake]
        exact ⟨h1, hRep, Or.inr ⟨_, rfl, p ++ [o], r, ch o, prefix_refl _,
          (child o _ hoptr).of_remote⟩⟩
      | localIdx oidx =>
        apply hgo
        intro _ o' ptr' ho' hptr'
        obtain rfl : o' = o := huniq o' (by rw [hptr']; rfl) ho'
        rw [hoptr] at hptr'
        cases hptr'
        exact ⟨oidx, rfl⟩
    · simp only [if_neg hcount]
      exact hgo fun h => absurd h hcount

theorem deleteWalk_spec (n : MptNode) : DeleteSpec C R n := by
  induction n with
  | null => exact deleteSpec_null
  | leaf k v => exact deleteSpec_leaf
  | ext k c ih => exact deleteSpec_ext ih
  | branch ch ih => exact deleteSpec_branch ih

/-- `delete_nibbles_key` on a whole trie. -/
theorem deleteNibblesKey_spec (q : Nibbles) (h : Rep C R t L n [] (.localIdx 0))
    (hn : n.WellFormed) :
    ∃ L', match t.deleteNibblesKey q with
      | (t', .ok old) => ∃ n' v, n.delete q = some n' ∧ n.get q = some v ∧
          slice? t'.values old = some v ∧ Rep C R t' L' n' [] (.localIdx 0) ∧
          t.values <+: t'.values
      | (t', .error e) => (e = .keyNotFound ∧ n.get q = none ∨
          ∃ path, e = .nodeNotFound path ∧ Blocked R [] path) ∧
          Rep C R t' L' n [] (.localIdx 0) ∧ t.values <+: t'.values := by
  have hspec := deleteWalk_spec n [] q 0 (q.length + t.nodes.length + 1) t L [] h hn (by omega)
  simp only [nil_append, length_nil] at hspec
  unfold deleteNibblesKey
  generalize deleteWalk q (q.length + t.nodes.length + 1) t 0 0 [] = res at hspec
  obtain ⟨t1, res⟩ := res
  obtain ⟨hF, hRep, hres⟩ := hspec
  cases res with
  | error e => exact ⟨L, hres, hRep, hF.values⟩
  | ok ow =>
    obtain ⟨old, walked⟩ := ow
    obtain ⟨⟨v, hv, hgv⟩, D, hD, t2, r, L2, hun, hF2, hout⟩ := hres
    have hD' : walked = D := by simpa using hD
    subst hD'
    have hvals := hF.values.trans hF2.values
    simp only [hun, bind_some]
    cases r with
    | nodeUpdated =>
      obtain ⟨n', hdel, _, _, hrep⟩ := hout
      exact ⟨L2, n', v, hdel, hgv, slice?_mono hv hF2.values, hrep, hvals⟩
    | nodeDeleted =>
      obtain ⟨⟨w, rfl⟩, hlab, s, hs⟩ := hout
      refine ⟨L2, .null, v, by simp [Patricia.Node.delete], hgv, slice?_mono hv hF2.values, ?_,
        hvals⟩
      exact .null (getElem?_setDirty (getElem?_setNode .null hs)) hlab (by simp)
    | branchBelowRemovedWithOneChild o ptr =>
      obtain ⟨m, idx, rfl, _, hdel, hcan, hrep, hlab, s, hs⟩ := hout
      obtain ⟨t3, hhead, hF3, hrep3⟩ := deleteHead_below hs hlab hrep hcan
      rw [hhead]
      exact ⟨L2, _, v, hdel, hgv, slice?_mono hv (hF2.values.trans hF3.values), hrep3,
        hvals.trans hF3.values⟩

end Trie

end SparseMpt
