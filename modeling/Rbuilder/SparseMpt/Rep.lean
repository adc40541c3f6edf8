/-
  What an arena represents.

  `Rep C R t L n p ptr`: the pointer `ptr`, met at path `p`, stands for the abstract
  node `n`. A local pointer is followed through the arena; a remote pointer stands for
  whatever the relation `R` says. The ghost labels `L` give every arena index the one
  path it is met at, so two paths never share an index and the arena below a pointer
  is a tree. A hashed node carries the pointer of what it stands for and has hashed
  local children.

  `Frame S t t' L L'`: from `t` to `t'` only indices whose label satisfies `S` were
  touched and the buffers only grew. `Rep.frame` carries `Rep` over a frame, which is
  how every operation on one path leaves the other paths alone.
-/
import Rbuilder.SparseMpt.ProofStore

namespace SparseMpt

open Patricia (Codec)
open List Patricia.Node

/-- The path an index is met at. -/
structure Labels where
  node : Nat → Nibbles
  children : Nat → Nibbles

namespace Labels

section

variable (L : Labels)

def setNode (i : Nat) (p : Nibbles) : Labels :=
  { L with node := Function.update L.node i p }

def setChildren (c : Nat) (p : Nibbles) : Labels :=
  { L with children := Function.update L.children c p }

@[simp] theorem setNode_self (i : Nat) (p : Nibbles) : (L.setNode i p).node i = p := by
  simp [setNode]

theorem setNode_of_ne {i j : Nat} (p : Nibbles) (h : j ≠ i) :
    (L.setNode i p).node j = L.node j := by
  simp [setNode, h]

@[simp] theorem setNode_children (i : Nat) (p : Nibbles) :
    (L.setNode i p).children = L.children := rfl

@[simp] theorem setChildren_self (c : Nat) (p : Nibbles) : (L.setChildren c p).children c = p := by
  simp [setChildren]

theorem setChildren_of_ne {c d : Nat} (p : Nibbles) (h : d ≠ c) :
    (L.setChildren c p).children d = L.children d := by
  simp [setChildren, h]

@[simp] theorem setChildren_node (c : Nat) (p : Nibbles) : (L.setChildren c p).node = L.node := rfl

end

end Labels

/-! ## Slices of growing buffers -/

variable {α : Type} {r : Range} {buf x : List α} {n : Nat}

theorem slice?_eq_some (h : slice? buf r = some x) :
    r.start ≤ r.stop ∧ r.stop ≤ buf.length ∧ x = (buf.drop r.start).take r.length := by
  unfold slice? at h
  split at h
  · next hb =>
      cases h
      exact ⟨hb.1, hb.2, rfl⟩
  · cases h

theorem length_of_slice? (h : slice? buf r = some x) : x.length = r.length := by
  obtain ⟨h1, h2, rfl⟩ := slice?_eq_some h
  rw [length_take, length_drop]
  unfold Range.length
  omega

theorem slice?_mono {buf' : List α} (h : slice? buf r = some x)
    (hb : buf <+: buf') : slice? buf' r = some x := by
  obtain ⟨h1, h2, rfl⟩ := slice?_eq_some h
  obtain ⟨ext, rfl⟩ := hb
  unfold slice?
  rw [if_pos ⟨h1, by rw [length_append]; omega⟩, drop_append_of_le_length (by omega),
    take_append_of_le_length]
  rw [length_drop]
  unfold Range.length
  omega

theorem slice?_append (buf x : List α) :
    slice? (buf ++ x) ⟨buf.length, buf.length + x.length⟩ = some x := by
  simp [slice?, Range.length]

theorem slice?_empty (buf : List α) : slice? buf ⟨0, 0⟩ = some [] := by
  simp [slice?, Range.length]

/-- The part of a slice from position `n` on. -/
theorem slice?_drop (h : slice? buf r = some x)
    (hn : n ≤ x.length) : slice? buf ⟨r.start + n, r.stop⟩ = some (x.drop n) := by
  have hl := length_of_slice? h
  obtain ⟨h1, h2, rfl⟩ := slice?_eq_some h
  unfold Range.length at hl hn
  unfold slice?
  simp only [Range.length]
  rw [if_pos ⟨by omega, h2⟩, drop_take, drop_drop]
  congr 2
  omega

theorem getElem?_of_slice? (h : slice? buf r = some x)
    (hn : n < x.length) : buf[r.start + n]? = x[n]? := by
  have hl := length_of_slice? h
  obtain ⟨h1, h2, rfl⟩ := slice?_eq_some h
  rw [getElem?_take_of_lt (by omega), getElem?_drop]

namespace Trie

/-- A local pointer to a hashed node, or a remote pointer. -/
def IsHashed (t : Trie) : NodePtr → Prop
  | .localIdx i => ∃ s, t.nodes[i]? = some s ∧ s.hashed = true
  | .remoteIdx _ => True

section Rep

variable (C : Codec Nibble Bytes Bytes) (R : Nibbles → Nat → MptNode → Prop)

/-- The pointer stands for the node at the path. -/
inductive Rep (t : Trie) (L : Labels) : MptNode → Nibbles → NodePtr → Prop
  | remote {n : MptNode} {p : Nibbles} {r : Nat} (h : R p r n) : Rep t L n p (.remoteIdx r)
  | null {p : Nibbles} {i : Nat} {hashed : Bool} {rlp : Bytes}
      (get : t.nodes[i]? = some ⟨.null, hashed, rlp⟩) (label : L.node i = p)
      (cache : hashed = true → rlp = null.ptr C) :
      Rep t L .null p (.localIdx i)
  | leaf {k : Nibbles} {v : Bytes} {p : Nibbles} {i : Nat} {kr vr : Range} {hashed : Bool}
      {rlp : Bytes} (get : t.nodes[i]? = some ⟨.leaf kr vr, hashed, rlp⟩) (label : L.node i = p)
      (key : slice? t.keys kr = some k) (value : slice? t.values vr = some v)
      (cache : hashed = true → rlp = (leaf k v).ptr C) :
      Rep t L (.leaf k v) p (.localIdx i)
  | ext {k : Nibbles} {c : MptNode} {p : Nibbles} {i : Nat} {kr : Range} {next : NodePtr}
      {hashed : Bool} {rlp : Bytes} (get : t.nodes[i]? = some ⟨.extension kr next, hashed, rlp⟩)
      (label : L.node i = p) (key : slice? t.keys kr = some k)
      (cache : hashed = true → rlp = (ext k c).ptr C ∧ t.IsHashed next)
      (child : Rep t L c (p ++ k) next) :
      Rep t L (.ext k c) p (.localIdx i)
  | branch {ch : Nibble → MptNode} {p : Nibbles} {i c : Nat} {arr : Children} {hashed : Bool}
      {rlp : Bytes} (get : t.nodes[i]? = some ⟨.branch c, hashed, rlp⟩) (label : L.node i = p)
      (array : t.branchNodeChildren[c]? = some arr) (arrayLabel : L.children c = p)
      (cache : hashed = true → rlp = (branch ch).ptr C ∧
        ∀ j ptr, arr j = some ptr → t.IsHashed ptr)
      (absent : ∀ j, arr j = none ↔ ch j = .null)
      (child : ∀ j ptr, arr j = some ptr → Rep t L (ch j) (p ++ [j]) ptr) :
      Rep t L (.branch ch) p (.localIdx i)

end Rep

/-! ## Frames -/

/-- Only indices with a label in `S` were touched, the buffers only grew. -/
structure Frame (S : Nibbles → Prop) (t t' : Trie) (L L' : Labels) : Prop where
  keys : t.keys <+: t'.keys
  values : t.values <+: t'.values
  nodes : ∀ {i s}, t.nodes[i]? = some s → ¬ S (L.node i) →
    t'.nodes[i]? = some s ∧ L'.node i = L.node i
  children : ∀ {c arr}, t.branchNodeChildren[c]? = some arr → ¬ S (L.children c) →
    t'.branchNodeChildren[c]? = some arr ∧ L'.children c = L.children c

variable {C : Codec Nibble Bytes Bytes} {R : Nibbles → Nat → MptNode → Prop} {S S' : Nibbles → Prop}
  {t t' t'' : Trie} {L L' L'' : Labels}

theorem Frame.refl (S : Nibbles → Prop) (t : Trie) (L : Labels) : Frame S t t L L :=
  ⟨prefix_refl _, prefix_refl _, fun h _ => ⟨h, rfl⟩, fun h _ => ⟨h, rfl⟩⟩

theorem Frame.mono (h : Frame S t t' L L') (hS : ∀ l, S l → S' l) : Frame S' t t' L L' :=
  ⟨h.keys, h.values, fun hg hn => h.nodes hg fun hs => hn (hS _ hs),
    fun hg hn => h.children hg fun hs => hn (hS _ hs)⟩

theorem Frame.trans (h : Frame S t t' L L') (h' : Frame S t' t'' L' L'') : Frame S t t'' L L'' := by
  refine ⟨h.keys.trans h'.keys, h.values.trans h'.values, ?_, ?_⟩
  · intro i s hs hn
    obtain ⟨h1, h2⟩ := h.nodes hs hn
    obtain ⟨h3, h4⟩ := h'.nodes h1 (by rwa [h2])
    exact ⟨h3, h4.trans h2⟩
  intro c arr hc hn
  obtain ⟨h1, h2⟩ := h.children hc hn
  obtain ⟨h3, h4⟩ := h'.children h1 (by rwa [h2])
  exact ⟨h3, h4.trans h2⟩

variable {i : Nat} {n : MptNode} {p q k l : Nibbles} {ptr : NodePtr}
  {R' : Nibbles → Nat → MptNode → Prop}

theorem frame_modifyNode (f : Slot → Slot) (h : S (L.node i)) :
    Frame S t { t with nodes := t.nodes.modify i f } L L := by
  refine ⟨prefix_refl _, prefix_refl _, ?_, fun hg _ => ⟨hg, rfl⟩⟩
  intro j s hs hn
  have hij : i ≠ j := by
    rintro rfl
    exact hn h
  exact ⟨by simp [hs, hij], rfl⟩

/-- A touched index may get a new label. -/
theorem Frame.relabel (h : Frame S t t' L L') (hi : S (L.node i)) (p : Nibbles) :
    Frame S t t' L (L'.setNode i p) := by
  refine ⟨h.keys, h.values, ?_, h.children⟩
  intro j s hs hn
  have hji : j ≠ i := by
    rintro rfl
    exact hn hi
  rw [L'.setNode_of_ne p hji]
  exact h.nodes hs hn

variable {c : Nat}

theorem frame_modifyChildren (f : Children → Children) (h : S (L.children c)) :
    Frame S t { t with branchNodeChildren := t.branchNodeChildren.modify c f } L L := by
  refine ⟨prefix_refl _, prefix_refl _, fun hg _ => ⟨hg, rfl⟩, ?_⟩
  intro d arr hd hn
  have hcd : c ≠ d := by
    rintro rfl
    exact hn h
  exact ⟨by simp [hd, hcd], rfl⟩

theorem frame_setDirty (h : S (L.node i)) : Frame S t (t.setDirty i) L L := frame_modifyNode _ h

theorem frame_setNode (node : DiffTrieNode) (h : S (L.node i)) : Frame S t (t.setNode i node) L L :=
  frame_modifyNode _ h

theorem frame_setChild (j : Nibble) (ptr : Option NodePtr) (h : S (L.children c)) :
    Frame S t (t.setChild c j ptr) L L :=
  frame_modifyChildren _ h

theorem lt_of_getElem? {l : List α} {a : α} (h : l[i]? = some a) : i < l.length :=
  (List.getElem?_eq_some_iff.mp h).1

theorem getElem?_append_of_some {l : List α} {a : α} (h : l[i]? = some a)
    (l' : List α) : (l ++ l')[i]? = some a := by
  rw [getElem?_append_left (lt_of_getElem? h), h]

theorem getElem?_mono {l l' : List α} {a : α} (h : l[i]? = some a) (hl : l <+: l') :
    l'[i]? = some a := by
  obtain ⟨x, rfl⟩ := hl
  exact getElem?_append_of_some h x

theorem frame_pushNode (node : DiffTrieNode) (p : Nibbles) :
    Frame S t (t.pushNode node).1 L (L.setNode t.nodes.length p) :=
  ⟨prefix_refl _, prefix_refl _,
    fun hg _ => ⟨getElem?_append_of_some hg _, L.setNode_of_ne p (lt_of_getElem? hg).ne⟩,
    fun hg _ => ⟨hg, rfl⟩⟩

theorem frame_createBranchChildren (p : Nibbles) :
    Frame S t t.createBranchChildren.1 L (L.setChildren t.branchNodeChildren.length p) :=
  ⟨prefix_refl _, prefix_refl _, fun hg _ => ⟨hg, rfl⟩,
    fun hg _ => ⟨getElem?_append_of_some hg _, L.setChildren_of_ne p (lt_of_getElem? hg).ne⟩⟩

theorem frame_insertKey (k : Nibbles) : Frame S t (t.insertKey k).1 L L :=
  ⟨prefix_append .., prefix_refl _, fun hg _ => ⟨hg, rfl⟩, fun hg _ => ⟨hg, rfl⟩⟩

theorem frame_copyValue (v : Bytes) : Frame S t (t.copyValue v).1 L L :=
  ⟨prefix_refl _, prefix_append .., fun hg _ => ⟨hg, rfl⟩, fun hg _ => ⟨hg, rfl⟩⟩

/-! ## Representation over a frame -/

theorem Rep.local (h : Rep C R t L n p (.localIdx i)) :
    L.node i = p ∧ ∃ s, t.nodes[i]? = some s := by
  cases h with
  | null get label | leaf get label | ext get label | branch get label => exact ⟨label, _, get⟩

theorem Rep.of_remote {r : Nat} (h : Rep C R t L n p (.remoteIdx r)) : R p r n := by
  cases h with
  | remote h => exact h

theorem IsHashed.frame (hf : Frame S t t' L L')
    (h : Rep C R t L n p ptr) (hS : ¬ S p) (hh : t.IsHashed ptr) : t'.IsHashed ptr := by
  cases ptr with
  | remoteIdx r => trivial
  | localIdx i =>
    obtain ⟨s, hs, hashed⟩ := hh
    exact ⟨s, (hf.nodes hs (by rwa [h.local.1])).1, hashed⟩

/-- A frame that touches no label below the path keeps what the pointer stands for. -/
theorem Rep.frame (h : Rep C R t L n q ptr)
    (hf : Frame S t t' L L') (hS : ∀ l, q <+: l → ¬ S l) : Rep C R t' L' n q ptr := by
  induction h with
  | remote h => exact .remote h
  | null get label cache =>
    obtain ⟨get', label'⟩ := hf.nodes get (by rw [label]; exact hS _ (prefix_refl _))
    exact .null get' (label'.trans label) cache
  | leaf get label key value cache =>
    obtain ⟨get', label'⟩ := hf.nodes get (by rw [label]; exact hS _ (prefix_refl _))
    exact .leaf get' (label'.trans label) (slice?_mono key hf.keys) (slice?_mono value hf.values)
      cache
  | @ext k c p i kr next hashed rlp get label key cache child ih =>
    obtain ⟨get', label'⟩ := hf.nodes get (by rw [label]; exact hS _ (prefix_refl _))
    have hbelow : ∀ l, p ++ k <+: l → ¬ S l := fun l hl => hS l ((prefix_append ..).trans hl)
    refine .ext get' (label'.trans label) (slice?_mono key hf.keys) ?_ (ih hbelow)
    intro hashed
    obtain ⟨h1, h2⟩ := cache hashed
    exact ⟨h1, h2.frame hf child (hbelow _ (prefix_refl _))⟩
  | @branch ch p i c arr hashed rlp get label array arrayLabel cache absent child ih =>
    have hp : ¬ S p := hS _ (prefix_refl _)
    obtain ⟨get', label'⟩ := hf.nodes get (by rwa [label])
    obtain ⟨array', arrayLabel'⟩ := hf.children array (by rwa [arrayLabel])
    have hbelow : ∀ j l, p ++ [j] <+: l → ¬ S l := fun j l hl =>
      hS l ((prefix_append ..).trans hl)
    refine .branch get' (label'.trans label) array' (arrayLabel'.trans arrayLabel) ?_ absent
      fun j ptr hj => ih j ptr hj (hbelow j)
    intro hashed
    obtain ⟨h1, h2⟩ := cache hashed
    exact ⟨h1, fun j ptr hj =>
      (h2 j ptr hj).frame hf (child j ptr hj) (hbelow j _ (prefix_refl _))⟩

/-- Only remote pointers at and below the path matter. -/
theorem Rep.mono_under (h : Rep C R t L n q ptr) (hR : ∀ p r n, q <+: p → R p r n → R' p r n) :
    Rep C R' t L n q ptr := by
  induction h with
  | remote h => exact .remote (hR _ _ _ (prefix_refl _) h)
  | null get label cache => exact .null get label cache
  | leaf get label key value cache => exact .leaf get label key value cache
  | ext get label key cache _ ih =>
    exact .ext get label key cache (ih fun p r n hp => hR p r n ((prefix_append ..).trans hp))
  | branch get label array arrayLabel cache absent _ ih =>
    exact .branch get label array arrayLabel cache absent fun j ptr hj =>
      ih j ptr hj fun p r n hp => hR p r n ((prefix_append ..).trans hp)

/-- What remote pointers stand for may be known better later. -/
theorem Rep.mono
    (h : Rep C R t L n q ptr) (hR : ∀ p r n, R p r n → R' p r n) : Rep C R' t L n q ptr :=
  h.mono_under fun p r n _ => hR p r n

/-- The labels at and below a path. -/
def Under (p : Nibbles) : Nibbles → Prop := fun l => p <+: l

theorem Under.of_append (h : Under (p ++ k) l) : Under p l := (prefix_append p k).trans h

theorem ne_of_append_prefix (hk : k ≠ []) (h : p ++ k <+: l) : l ≠ p := by
  rintro rfl
  have := h.length_le
  have hk' := length_pos_iff.mpr hk
  rw [length_append] at this
  omega

theorem not_under_append (hk : k ≠ []) : ¬ Under (p ++ k) p := fun h => ne_of_append_prefix hk h rfl

/-- Paths below different children of a node do not meet. -/
theorem not_under_sibling {i j : Nibble} (hij : i ≠ j) (h : p ++ [i] <+: l) :
    ¬ Under (p ++ [j]) l := by
  intro h'
  obtain ⟨a, rfl⟩ := h
  obtain ⟨b, hb⟩ := h'
  rw [append_assoc, append_assoc] at hb
  exact hij (cons.inj (append_cancel_left hb)).1.symm

/-- Below a local node, remote pointers stand at longer paths. -/
theorem Rep.mono_local (h : Rep C R t L n q (.localIdx i)) (hn : n.WellFormed)
    (hR : ∀ p r n, q <+: p → p ≠ q → R p r n → R' p r n) : Rep C R' t L n q (.localIdx i) := by
  cases h with
  | null get label cache => exact .null get label cache
  | leaf get label key value cache => exact .leaf get label key value cache
  | ext get label key cache child =>
    have hk := (hn.resolve_left (by simp)).1
    exact .ext get label key cache (child.mono_under fun p r n hp =>
      hR p r n ((prefix_append ..).trans hp) ( ne_of_append_prefix hk hp))
  | branch get label array arrayLabel cache absent child =>
    exact .branch get label array arrayLabel cache absent fun j ptr hj =>
      (child j ptr hj).mono_under fun p r n hp =>
        hR p r n ((prefix_append ..).trans hp) ( ne_of_append_prefix (by simp) hp)

end Trie

end SparseMpt
