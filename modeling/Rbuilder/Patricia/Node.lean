/-
  Patricia nodes over an alphabet `ι` with values in `V`.

  A key is a list over `ι`. `Node.get` is lookup, `Canonical` is the shape a
  Patricia trie keeps (an extension has a non-empty key and ends in a branch, a
  branch has at least two children), and `canonical_ext` says that the shape
  leaves no freedom: two canonical nodes with the same lookups are equal.

  `null` stands for an absent child and for the empty trie. It is not canonical;
  `WellFormed` is "empty or canonical", the class of roots.
-/
import Mathlib.Data.List.Infix
import Mathlib.Logic.Function.Basic

namespace Patricia

open List

inductive Node (ι V : Type) where
  | null
  | leaf (key : List ι) (value : V)
  | ext (key : List ι) (child : Node ι V)
  | branch (children : ι → Node ι V)

namespace Node

variable {ι V : Type}

def isNull : Node ι V → Bool
  | null => true
  | _ => false

@[simp] theorem isNull_null : (null : Node ι V).isNull = true := rfl
@[simp] theorem isNull_leaf (k : List ι) (v : V) : (leaf k v).isNull = false := rfl
@[simp] theorem isNull_ext (k : List ι) (c : Node ι V) : (ext k c).isNull = false := rfl
@[simp] theorem isNull_branch (ch : ι → Node ι V) : (branch ch).isNull = false := rfl

variable {n : Node ι V}

theorem isNull_iff : n.isNull = true ↔ n = null := by
  cases n <;> simp

def IsBranch : Node ι V → Prop
  | branch _ => True
  | _ => False

/-- Every extension has a non-empty key and ends in a branch, every branch has
    two different children that are not `null`. -/
def Canonical : Node ι V → Prop
  | null => False
  | leaf _ _ => True
  | ext k c => k ≠ [] ∧ c.IsBranch ∧ c.Canonical
  | branch ch => (∃ i j, i ≠ j ∧ ch i ≠ null ∧ ch j ≠ null) ∧ ∀ i, ch i = null ∨ (ch i).Canonical

/-- The shape of a whole trie: empty, or canonical. -/
def WellFormed (n : Node ι V) : Prop := n = null ∨ n.Canonical

theorem Canonical.ne_null (h : n.Canonical) : n ≠ null := by
  intro e
  rw [e] at h
  exact h

theorem Canonical.child {ch : ι → Node ι V} (h : (branch ch).Canonical) {i : ι}
    (hi : ch i ≠ null) : (ch i).Canonical :=
  (h.2 i).resolve_left hi

section Get

variable [DecidableEq ι]

/-- Lookup. A key that ends inside an extension or at a branch is absent. -/
def get : Node ι V → List ι → Option V
  | null, _ => none
  | leaf k v, q => if q = k then some v else none
  | ext k c, q =>
    match k.isPrefixOf? q with
    | some r => c.get r
    | none => none
  | branch _, [] => none
  | branch ch, j :: q => (ch j).get q

@[simp] theorem get_null (q : List ι) : (null : Node ι V).get q = none := rfl

theorem get_leaf (k : List ι) (v : V) (q : List ι) :
    (leaf k v).get q = if q = k then some v else none := rfl

@[simp] theorem get_leaf_self (k : List ι) (v : V) : (leaf k v).get k = some v := by
  simp [get_leaf]

@[simp] theorem get_ext_append (k : List ι) (c : Node ι V) (r : List ι) :
    (ext k c).get (k ++ r) = c.get r := by
  have h : k.isPrefixOf? (k ++ r) = some r := by simp
  simp [get, h]

variable {k q k' : List ι} {c n c' m : Node ι V} {ch : ι → Node ι V}

theorem get_ext_off_path (c : Node ι V) (h : ¬ k <+: q) : (ext k c).get q = none := by
  unfold get
  split
  · next r hr =>
      rw [isPrefixOf?_eq_some_iff_append_eq] at hr
      exact absurd ⟨r, hr⟩ h
  · rfl

@[simp] theorem get_branch_nil (ch : ι → Node ι V) : (branch ch).get [] = none := rfl
@[simp] theorem get_branch_cons (ch : ι → Node ι V) (j : ι) (q : List ι) :
    (branch ch).get (j :: q) = (ch j).get q := rfl

theorem get_ext_eq_some {v : V} (h : (ext k c).get q = some v) :
    ∃ r, q = k ++ r ∧ c.get r = some v := by
  by_cases hk : k <+: q
  · obtain ⟨r, rfl⟩ := hk
    exact ⟨r, rfl, by simpa using h⟩
  · rw [get_ext_off_path c hk] at h
    cases h

/-- A canonical node holds at least one key. -/
theorem Canonical.exists_get (h : n.Canonical) : ∃ q v, n.get q = some v := by
  induction n with
  | null => exact h.elim
  | leaf k v => exact ⟨k, v, get_leaf_self k v⟩
  | ext k c ih =>
    obtain ⟨q, v, hq⟩ := ih h.2.2
    exact ⟨k ++ q, v, by simpa using hq⟩
  | branch ch ih =>
    obtain ⟨i, _, _, hi, _⟩ := h.1
    obtain ⟨q, v, hq⟩ := ih i (h.child hi)
    exact ⟨i :: q, v, hq⟩

/-- A branch holds two keys that differ in their first digit. -/
theorem Canonical.branch_two (h : (branch ch).Canonical) :
    ∃ i j q r v w, i ≠ j ∧ (branch ch).get (i :: q) = some v ∧
      (branch ch).get (j :: r) = some w := by
  obtain ⟨i, j, hij, hi, hj⟩ := h.1
  obtain ⟨q, v, hq⟩ := (h.child hi).exists_get
  obtain ⟨r, w, hr⟩ := (h.child hj).exists_get
  exact ⟨i, j, q, r, v, w, hij, hq, hr⟩

/-! ## Lookups determine a canonical node -/

theorem leaf_ne_of_branch (h : (branch ch).Canonical) (k : List ι) (v : V)
    (he : ∀ q, (leaf k v).get q = (branch ch).get q) : False := by
  obtain ⟨i, j, q, r, v', w, hij, hq, hr⟩ := h.branch_two
  rw [← he, get_leaf] at hq hr
  split at hq
  · next h1 =>
      split at hr
      · next h2 =>
          rw [← h2] at h1
          exact hij (cons.inj h1).1
      · cases hr
  · cases hq

theorem leaf_ne_of_ext (h : (ext k' c).Canonical) (k : List ι) (v : V)
    (he : ∀ q, (leaf k v).get q = (ext k' c).get q) : False := by
  obtain ⟨_, hb, hc⟩ := h
  cases c with
  | branch ch =>
    obtain ⟨i, j, q, r, v', w, hij, hq, hr⟩ := hc.branch_two
    have hq' : (leaf k v).get (k' ++ i :: q) = some v' := by rw [he, get_ext_append, hq]
    have hr' : (leaf k v).get (k' ++ j :: r) = some w := by rw [he, get_ext_append, hr]
    rw [get_leaf] at hq' hr'
    split at hq'
    · next h1 =>
        split at hr'
        · next h2 =>
            rw [← h2] at h1
            exact hij (cons.inj (append_cancel_left h1)).1
        · cases hr'
    · cases hq'
  | null | leaf _ _ | ext _ _ => exact hb.elim

theorem ext_ne_of_branch (h : (branch ch).Canonical)
    (hk : k ≠ []) (he : ∀ q, (ext k c).get q = (branch ch).get q) : False := by
  obtain ⟨i, j, q, r, v, w, hij, hq, hr⟩ := h.branch_two
  rw [← he] at hq hr
  obtain ⟨a, ha, _⟩ := get_ext_eq_some hq
  obtain ⟨b, hb, _⟩ := get_ext_eq_some hr
  cases k with
  | nil => exact hk rfl
  | cons x k =>
    exact hij ((cons.inj ha).1.trans (cons.inj hb).1.symm)

/-- Two keys of extensions over branches agree when the lookups do: each key is a
    prefix of the other's, since the branch below splits right after it. -/
theorem ext_key_le (h : (ext k c).Canonical)
    (he : ∀ q, (ext k c).get q = (ext k' c').get q) : k' <+: k := by
  obtain ⟨_, hb, hc⟩ := h
  cases c with
  | branch ch =>
    obtain ⟨i, j, q, r, v, w, hij, hq, hr⟩ := hc.branch_two
    have hq' : (ext k' c').get (k ++ i :: q) = some v := by rw [← he, get_ext_append, hq]
    have hr' : (ext k' c').get (k ++ j :: r) = some w := by rw [← he, get_ext_append, hr]
    obtain ⟨a, ha, _⟩ := get_ext_eq_some hq'
    obtain ⟨b, hb', _⟩ := get_ext_eq_some hr'
    rcases prefix_or_prefix_of_prefix ⟨i :: q, rfl⟩ (ha ▸ ⟨a, rfl⟩ : k' <+: k ++ i :: q) with
      hkk | hkk
    · obtain ⟨s, rfl⟩ := hkk
      rw [append_assoc] at ha hb'
      have ha' := append_cancel_left ha
      have hb'' := append_cancel_left hb'
      cases s with
      | nil => simp
      | cons x s =>
        exact absurd ((cons.inj ha').1.trans (cons.inj hb'').1.symm) hij
    · exact hkk
  | null | leaf _ _ | ext _ _ => exact hb.elim

theorem get_eq_of_ext
    (he : ∀ q, (ext k c).get q = (ext k c').get q) (q : List ι) : c.get q = c'.get q := by
  have := he (k ++ q)
  simpa using this

/-- The canonical node of a map is unique. -/
theorem canonical_ext (hn : n.Canonical) (hm : m.Canonical)
    (he : ∀ q, n.get q = m.get q) : n = m := by
  induction n generalizing m with
  | null => exact hn.elim
  | leaf k v =>
    cases m with
    | null => exact hm.elim
    | leaf k' v' =>
      have h := he k
      rw [get_leaf_self, get_leaf] at h
      split at h
      · next hk =>
          cases h
          rw [hk]
      · cases h
    | ext k' c => exact (leaf_ne_of_ext hm k v he).elim
    | branch ch => exact (leaf_ne_of_branch hm k v he).elim
  | ext k c ih =>
    cases m with
    | null => exact hm.elim
    | leaf k' v' => exact (leaf_ne_of_ext hn k' v' fun q => (he q).symm).elim
    | ext k' c' =>
      have hkk : k = k' :=
        (ext_key_le hm fun q => (he q).symm).eq_of_length
          (Nat.le_antisymm (ext_key_le hm fun q => (he q).symm).length_le
            (ext_key_le hn he).length_le)
      subst hkk
      rw [ih hn.2.2 hm.2.2 (get_eq_of_ext he)]
    | branch ch => exact (ext_ne_of_branch hm hn.1 he).elim
  | branch ch ih =>
    cases m with
    | null => exact hm.elim
    | leaf k' v' => exact (leaf_ne_of_branch hn k' v' fun q => (he q).symm).elim
    | ext k' c' => exact (ext_ne_of_branch hn hm.1 fun q => (he q).symm).elim
    | branch ch' =>
      congr 1
      funext i
      have hi : ∀ q, (ch i).get q = (ch' i).get q := fun q => he (i :: q)
      by_cases h1 : ch i = null
      · by_cases h2 : ch' i = null
        · rw [h1, h2]
        · obtain ⟨q, v, hq⟩ := (hm.child h2).exists_get
          rw [← hi q, h1] at hq
          cases hq
      by_cases h2 : ch' i = null
      · obtain ⟨q, v, hq⟩ := (hn.child h1).exists_get
        rw [hi q, h2] at hq
        cases hq
      · exact ih i (hn.child h1) (hm.child h2) hi

theorem wellFormed_ext (hn : n.WellFormed) (hm : m.WellFormed)
    (he : ∀ q, n.get q = m.get q) : n = m := by
  rcases hn with rfl | hn
  · rcases hm with rfl | hm
    · rfl
    · obtain ⟨q, v, hq⟩ := hm.exists_get
      rw [← he q] at hq
      cases hq
  rcases hm with rfl | hm
  · obtain ⟨q, v, hq⟩ := hn.exists_get
    rw [he q] at hq
    cases hq
  · exact canonical_ext hn hm he

end Get

end Node

end Patricia
