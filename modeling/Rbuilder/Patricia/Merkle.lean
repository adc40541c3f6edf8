/-
  Encodings of Patricia nodes, nodes at a path, and openings.

  A `Codec` says how one node is encoded from its key, its value and the pointers
  of its children, and how a parent points at an encoded child. `encode` folds it
  over a node.

  `subnode n p` is the node that starts at path `p`, `trail n p q` the nodes met on
  the way from `p` along `q`, root first: what a prefix proof of `q` lists. `Opens` is the
  verifier: a list of encodings, each one the child that the one before points at
  along the key, decides the lookup of the key (`opens_trail` is completeness of
  the prefix proof).
-/
import Rbuilder.Patricia.Update

namespace Patricia

open List

variable {ι V D : Type}

structure Codec (ι V D : Type) where
  encodeNull : D
  encodeLeaf : List ι → V → D
  encodeExt : List ι → D → D
  encodeBranch : (ι → Option D) → D
  /-- What a parent stores for a child with this encoding. -/
  pointer : D → D

namespace Node

def encode (C : Codec ι V D) : Node ι V → D
  | null => C.encodeNull
  | leaf k v => C.encodeLeaf k v
  | ext k c => C.encodeExt k (C.pointer (c.encode C))
  | branch ch =>
    C.encodeBranch fun i => if (ch i).isNull then none else some (C.pointer ((ch i).encode C))

variable (C : Codec ι V D)

/-- The pointer a parent stores for `n`. -/
def ptr (n : Node ι V) : D := C.pointer (n.encode C)

/-- The pointers in a branch, none below an absent child. -/
def childPtrs (ch : ι → Node ι V) (i : ι) : Option D :=
  if (ch i).isNull then none else some ((ch i).ptr C)

@[simp] theorem encode_leaf (k : List ι) (v : V) :
    (leaf k v).encode C = C.encodeLeaf k v := rfl
@[simp] theorem encode_ext (k : List ι) (c : Node ι V) :
    (ext k c).encode C = C.encodeExt k (c.ptr C) := rfl
@[simp] theorem encode_branch (ch : ι → Node ι V) :
    (branch ch).encode C = C.encodeBranch (childPtrs C ch) := rfl

variable {ch : ι → Node ι V} {i : ι}

theorem childPtrs_of_ne_null (h : ch i ≠ null) :
    childPtrs C ch i = some ((ch i).ptr C) := by
  unfold childPtrs
  rw [if_neg]
  rwa [isNull_iff]

theorem childPtrs_of_null (h : ch i = null) : childPtrs C ch i = none := by
  simp [childPtrs, h]

/-! ## Nodes at a path -/

section Path

variable [DecidableEq ι]

/-- The node that starts at path `p`, none inside an extension or a leaf. -/
def subnode : Node ι V → List ι → Option (Node ι V)
  | null, _ => none
  | leaf k v, [] => some (leaf k v)
  | leaf _ _, _ :: _ => none
  | ext k c, [] => some (ext k c)
  | ext k c, a :: p =>
    match k.isPrefixOf? (a :: p) with
    | some r => c.subnode r
    | none => none
  | branch ch, [] => some (branch ch)
  | branch ch, j :: p => (ch j).subnode p

variable {n : Node ι V} {k p : List ι} {ch : ι → Node ι V} {j : ι}

theorem subnode_nil (h : n ≠ null) : n.subnode [] = some n := by
  cases n with
  | null => exact absurd rfl h
  | leaf k v | ext k c | branch ch => rfl

theorem subnode_ext_append (hk : k ≠ []) (c : Node ι V) (p : List ι) :
    (ext k c).subnode (k ++ p) = c.subnode p := by
  cases k with
  | nil => exact absurd rfl hk
  | cons a k =>
    have h : (a :: k).isPrefixOf? (a :: (k ++ p)) = some p := by
      rw [isPrefixOf?_eq_some_iff_append_eq, cons_append]
    simp [subnode, h]

variable {m root : Node ι V} {q : List ι}

/-- Below the node at `p`, paths continue inside that node. -/
theorem subnode_append (h : n.subnode p = some m)
    (q : List ι) : n.subnode (p ++ q) = m.subnode q := by
  induction n generalizing p with
  | null => cases h
  | leaf k v =>
    cases p with
    | nil => cases h; rfl
    | cons a p => cases h
  | ext k c ih =>
    cases p with
    | nil => cases h; rfl
    | cons a p =>
      simp only [subnode] at h
      split at h
      · next r hr =>
          rw [isPrefixOf?_eq_some_iff_append_eq] at hr
          have h2 : k.isPrefixOf? (a :: (p ++ q)) = some (r ++ q) := by
            rw [isPrefixOf?_eq_some_iff_append_eq, ← append_assoc, hr, cons_append]
          simp only [cons_append, subnode, h2]
          exact ih h
      · cases h
  | branch ch ih =>
    cases p with
    | nil => cases h; rfl
    | cons j p => exact ih j h

theorem subnode_child (h : n.subnode p = some (branch ch)) (hj : ch j ≠ null) :
    n.subnode (p ++ [j]) = some (ch j) := by
  rw [subnode_append h]
  exact subnode_nil hj

theorem subnode_next {c : Node ι V} (h : n.subnode p = some (ext k c))
    (hk : k ≠ []) (hc : c ≠ null) : n.subnode (p ++ k) = some c := by
  have := subnode_ext_append hk c []
  rw [append_nil] at this
  rw [subnode_append h, this, subnode_nil hc]

theorem canonical_subnode (hn : n.Canonical) (h : n.subnode p = some m) : m.Canonical := by
  induction n generalizing p with
  | null => cases h
  | leaf k v =>
    cases p with
    | nil => cases h; exact hn
    | cons a p => cases h
  | ext k c ih =>
    cases p with
    | nil => cases h; exact hn
    | cons a p =>
      simp only [subnode] at h
      split at h
      · exact ih hn.2.2 h
      · cases h
  | branch ch ih =>
    cases p with
    | nil => cases h; exact hn
    | cons j p =>
      apply ih j (hn.child _) h
      intro hnull
      rw [subnode, hnull] at h
      cases h

/-- The nodes met along `q`, first this one, each with its path; this one has path `p`. -/
def trail : Node ι V → List ι → List ι → List (List ι × Node ι V)
  | null, p, _ => [(p, null)]
  | leaf k v, p, _ => [(p, leaf k v)]
  | ext k c, p, q => (p, ext k c) ::
      match k.isPrefixOf? q with
      | some r => c.trail (p ++ k) r
      | none => []
  | branch ch, p, [] => [(p, branch ch)]
  | branch ch, p, j :: q => (p, branch ch) ::
      if (ch j).isNull then [] else (ch j).trail (p ++ [j]) q

theorem trail_ext_append (k : List ι) (c : Node ι V) (p r : List ι) :
    (ext k c).trail p (k ++ r) = (p, ext k c) :: c.trail (p ++ k) r := by
  have h : k.isPrefixOf? (k ++ r) = some r := by simp
  simp [trail, h]

theorem trail_ext_off_path (c : Node ι V) (p : List ι) (h : ¬ k <+: q) :
    (ext k c).trail p q = [(p, ext k c)] := by
  unfold trail
  split
  · next r hr =>
      rw [isPrefixOf?_eq_some_iff_append_eq] at hr
      exact absurd ⟨r, hr⟩ h
  · rfl

theorem trail_branch_null (p q : List ι) (h : ch j = null) :
    (branch ch).trail p (j :: q) = [(p, branch ch)] := by
  simp [trail, h]

theorem trail_branch_cons (p q : List ι) (h : ch j ≠ null) :
    (branch ch).trail p (j :: q) = (p, branch ch) :: (ch j).trail (p ++ [j]) q := by
  have hn : (ch j).isNull = false := by rwa [Bool.eq_false_iff, ne_eq, isNull_iff]
  simp [trail, hn]

theorem head?_trail (n : Node ι V) (p q : List ι) : (n.trail p q).head? = some (p, n) := by
  cases n with
  | branch ch => cases q <;> rfl
  | _ => rfl

/-- The nodes of a trail stand where their paths say. -/
theorem subnode_of_mem_trail (hn : n.Canonical)
    (hp : root.subnode p = some n) {e : List ι × Node ι V} (he : e ∈ n.trail p q) :
    root.subnode e.1 = some e.2 := by
  induction n generalizing p q with
  | null => exact hn.elim
  | leaf k v =>
    obtain rfl := mem_singleton.mp he
    exact hp
  | ext k c ih =>
    by_cases hk : k <+: q
    · obtain ⟨r, rfl⟩ := hk
      rw [trail_ext_append] at he
      rcases mem_cons.mp he with rfl | he
      · exact hp
      · exact ih hn.2.2 (subnode_next hp hn.1 hn.2.2.ne_null) he
    · rw [trail_ext_off_path c p hk] at he
      obtain rfl := mem_singleton.mp he
      exact hp
  | branch ch ih =>
    cases q with
    | nil =>
      obtain rfl := mem_singleton.mp he
      exact hp
    | cons j q =>
      by_cases hj : ch j = null
      · rw [trail_branch_null p q hj] at he
        obtain rfl := mem_singleton.mp he
        exact hp
      rw [trail_branch_cons p q hj] at he
      rcases mem_cons.mp he with rfl | he
      · exact hp
      · exact ih j (hn.child hj) (subnode_child hp hj) he

/-- The children of a node at path `p` are at path `l`. -/
def ChildAt : Node ι V → List ι → List ι → Prop
  | ext k _, p, l => l = p ++ k
  | branch ch, p, l => ∃ j, ch j ≠ null ∧ l = p ++ [j]
  | _, _, _ => False

/-- A trail goes on with the only child on its way, or ends where there is none. -/
theorem trail_cases (hn : n.Canonical) (hp : root.subnode p = some n) (q : List ι) :
    ∃ rest, n.trail p q = (p, n) :: rest ∧
      ((rest = [] ∧ ∀ l, n.ChildAt p l → ¬ l <+: p ++ q) ∨
        ∃ c p' q', rest = c.trail p' q' ∧ p' ++ q' = p ++ q ∧ root.subnode p' = some c ∧
          ∀ l, n.ChildAt p l → l <+: p ++ q → l = p') := by
  cases n with
  | null => exact hn.elim
  | leaf k v => exact ⟨[], rfl, Or.inl ⟨rfl, fun _ h => h.elim⟩⟩
  | ext k c =>
    by_cases hk : k <+: q
    · obtain ⟨r, rfl⟩ := hk
      exact ⟨_, trail_ext_append k c p r, Or.inr ⟨c, p ++ k, r, rfl, append_assoc p k r,
        subnode_next hp hn.1 hn.2.2.ne_null, fun l hl _ => hl⟩⟩
    · refine ⟨[], trail_ext_off_path c p hk, Or.inl ⟨rfl, ?_⟩⟩
      rintro l rfl hl
      exact hk ((prefix_append_right_inj p).mp hl)
  | branch ch =>
    cases q with
    | nil =>
      refine ⟨[], rfl, Or.inl ⟨rfl, ?_⟩⟩
      rintro l ⟨j, _, rfl⟩ hl
      have hlen := hl.length_le
      simp only [length_append, length_singleton, append_nil] at hlen
      omega
    | cons j q =>
      have hsame : ∀ l, (branch ch).ChildAt p l → l <+: p ++ j :: q → ch j ≠ null ∧
          l = p ++ [j] := by
        rintro l ⟨a, ha, rfl⟩ hl
        have hpre := (prefix_append_right_inj p).mp hl
        obtain rfl : a = j := (cons_prefix_cons.mp hpre).1
        exact ⟨ha, rfl⟩
      by_cases hj : ch j = null
      · exact ⟨[], trail_branch_null p q hj, Or.inl ⟨rfl, fun l hl hpre =>
          (hsame l hl hpre).1 hj⟩⟩
      · exact ⟨_, trail_branch_cons p q hj, Or.inr ⟨ch j, p ++ [j], q, rfl, by simp,
          subnode_child hp hj, fun l hl hpre => (hsame l hl hpre).2⟩⟩

end Path

/-! ## Openings -/

section Opening

variable [DecidableEq ι]

/-- The verifier of a proof. The list of encodings starts with one that hashes to
    `target`, each encoding points at the next one along the key, and the last one
    decides the lookup: a leaf, or a node the key cannot be followed through. -/
inductive Opens (C : Codec ι V D) : D → List ι → List D → Option V → Prop
  | null (q : List ι) : Opens C (C.pointer C.encodeNull) q [C.encodeNull] none
  | leaf (k : List ι) (v : V) (q : List ι) :
      Opens C (C.pointer (C.encodeLeaf k v)) q [C.encodeLeaf k v] (if q = k then some v else none)
  | extMiss {k q : List ι} (d : D) (h : ¬ k <+: q) :
      Opens C (C.pointer (C.encodeExt k d)) q [C.encodeExt k d] none
  | extStep {k r : List ι} {d : D} {ds : List D} {res : Option V} (h : Opens C d r ds res) :
      Opens C (C.pointer (C.encodeExt k d)) (k ++ r) (C.encodeExt k d :: ds) res
  | branchEnd (f : ι → Option D) : Opens C (C.pointer (C.encodeBranch f)) [] [C.encodeBranch f] none
  | branchMiss {f : ι → Option D} {j : ι} (q : List ι) (h : f j = none) :
      Opens C (C.pointer (C.encodeBranch f)) (j :: q) [C.encodeBranch f] none
  | branchStep {f : ι → Option D} {j : ι} {q : List ι} {d : D} {ds : List D} {res : Option V}
      (hf : f j = some d) (h : Opens C d q ds res) :
      Opens C (C.pointer (C.encodeBranch f)) (j :: q) (C.encodeBranch f :: ds) res

/-- The encodings along a key open its lookup. -/
theorem opens_trail (n : Node ι V) (p q : List ι) :
    Opens C (n.ptr C) q ((n.trail p q).map fun e => e.2.encode C) (n.get q) := by
  induction n generalizing p q with
  | null => exact .null q
  | leaf k v => exact .leaf k v q
  | ext k c ih =>
    by_cases hk : k <+: q
    · obtain ⟨r, rfl⟩ := hk
      rw [trail_ext_append, get_ext_append]
      exact .extStep (ih (p ++ k) r)
    · rw [trail_ext_off_path c p hk, get_ext_off_path c hk]
      exact .extMiss _ hk
  | branch ch ih =>
    cases q with
    | nil => exact .branchEnd _
    | cons j q =>
      rw [get_branch_cons]
      by_cases hj : ch j = null
      · rw [trail_branch_null p q hj, hj]
        exact .branchMiss q (childPtrs_of_null C hj)
      · rw [trail_branch_cons p q hj]
        exact .branchStep (childPtrs_of_ne_null C hj) (ih j (p ++ [j]) q)

end Opening

end Node

end Patricia
