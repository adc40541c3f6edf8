/-
  Insertion and deletion on Patricia nodes.

  `insert` splits a leaf or an extension at the first digit where the key leaves
  it. `delete` removes a leaf and collapses the branch above it when a single
  child is left: the child absorbs the digit that led to it (`prepend`), and an
  extension above absorbs the child's key in turn.

  For a key that is incomparable with the other keys (`Apart`), both keep the
  canonical shape and change the lookup of that key only (`get_insert`,
  `get_delete`); `delete` fails exactly on an absent key.
-/
import Rbuilder.Patricia.Compose

namespace Patricia

open List Function Option

namespace Node

variable {ι V : Type} [DecidableEq ι]

/-- The key `q` is not a proper prefix or a proper extension of a key of `n`. -/
def Apart (n : Node ι V) (q : List ι) : Prop :=
  ∀ k v, n.get k = some v → k ≠ q → ¬ k <+: q ∧ ¬ q <+: k

variable {k q p r q' k' s : List ι} {ch : ι → Node ι V} {j i : ι} {n n' c a b : Node ι V}

theorem Apart.of_ext (h : (ext k c).Apart (k ++ r)) : c.Apart r := by
  intro q v hq hne
  have := h (k ++ q) v (by simpa using hq) (fun he => hne (append_cancel_left he))
  simpa [prefix_append_right_inj] using this

theorem Apart.of_branch (h : (branch ch).Apart (j :: q)) : (ch j).Apart q := by
  intro k v hk hne
  have := h (j :: k) v hk (fun he => hne (cons.inj he).2)
  simpa [cons_prefix_cons] using this

theorem apart_branch_ne_nil (hc : (branch ch).Canonical) (h : (branch ch).Apart q) : q ≠ [] := by
  rintro rfl
  obtain ⟨k, v, hk⟩ := hc.exists_get
  have hne : k ≠ [] := by
    rintro rfl
    cases hk
  exact (h k v hk hne).2 nil_prefix

/-- A key that leaves an extension does not end on its way. -/
theorem Apart.not_prefix (h : (ext k c).Apart q) (hc : c.Canonical)
    (hkq : ¬ k <+: q) : ¬ q <+: k := by
  intro hpre
  obtain ⟨r, w, hr⟩ := hc.exists_get
  have hne : k ++ r ≠ q := fun he => hkq (he ▸ prefix_append k r)
  exact (h (k ++ r) w (by simpa using hr) hne).2 (hpre.trans (prefix_append k r))

/-- A branch with the two children `a` below `i` and `b` below `j`. -/
def pair (i : ι) (a : Node ι V) (j : ι) (b : Node ι V) : Node ι V :=
  branch (update (update (fun _ => null) i a) j b)

/-- Insertion. An exhausted key at a branch, which an `Apart` key never meets,
    changes nothing. -/
def insert : Node ι V → List ι → V → Node ι V
  | null, q, v => leaf q v
  | leaf k w, q, v =>
    if q = k then leaf k v
    else
      let p := commonPrefix q k
      match q.drop p.length, k.drop p.length with
      | i :: q', j :: k' => wrap p (pair i (leaf q' v) j (leaf k' w))
      | _, _ => leaf k w
  | ext k c, q, v =>
    match k.isPrefixOf? q with
    | some r => ext k (c.insert r v)
    | none =>
      let p := commonPrefix q k
      match q.drop p.length, k.drop p.length with
      | i :: q', j :: k' => wrap p (pair i (leaf q' v) j (wrap k' c))
      | _, _ => ext k c
  | branch ch, [], _ => branch ch
  | branch ch, j :: q, v => branch (update ch j ((ch j).insert q v))

/-- Two different keys that are no prefixes of each other part at a digit. -/
theorem split_apart (hqk : ¬ q <+: k) (hkq : ¬ k <+: q) :
    ∃ p i q' j k', commonPrefix q k = p ∧ q = p ++ i :: q' ∧ k = p ++ j :: k' ∧ i ≠ j := by
  obtain ⟨r, s, hr, hs, hne⟩ := commonPrefix_split q k
  generalize commonPrefix q k = p at hr hs
  cases r with
  | nil => exact absurd (by rw [hr, hs, append_nil]; exact prefix_append p s) hqk
  | cons i q' =>
    cases s with
    | nil => exact absurd (by rw [hr, hs, append_nil]; exact prefix_append p _) hkq
    | cons j k' => exact ⟨p, i, q', j, k', rfl, hr, hs, hne i q' j k' rfl rfl⟩

theorem insert_leaf_split (hij : i ≠ j) (v w : V)
    (hp : commonPrefix (p ++ i :: q') (p ++ j :: k') = p) :
    (leaf (p ++ j :: k') w).insert (p ++ i :: q') v =
      wrap p (pair i (leaf q' v) j (leaf k' w)) := by
  have hne : p ++ i :: q' ≠ p ++ j :: k' := fun h =>
    hij (cons.inj (append_cancel_left h)).1
  simp [insert, hne, hp]

theorem insert_ext_split (hij : i ≠ j) (v : V) (c : Node ι V)
    (hp : commonPrefix (p ++ i :: q') (p ++ j :: k') = p) :
    (ext (p ++ j :: k') c).insert (p ++ i :: q') v = wrap p (pair i (leaf q' v) j (wrap k' c)) := by
  have hno : (p ++ j :: k').isPrefixOf? (p ++ i :: q') = none := by
    rw [eq_none_iff_forall_ne_some]
    intro r hr
    rw [isPrefixOf?_eq_some_iff_append_eq, append_assoc] at hr
    exact hij (cons.inj (append_cancel_left hr)).1.symm
  simp [insert, hno, hp]

@[simp] theorem insert_ext_append (k r : List ι) (c : Node ι V) (v : V) :
    (ext k c).insert (k ++ r) v = ext k (c.insert r v) := by
  have h : k.isPrefixOf? (k ++ r) = some r := by simp
  simp [insert, h]

theorem get_pair (hij : i ≠ j) (a b : Node ι V) (q : List ι) : (pair i a j b).get q = match q with
      | [] => none
      | c :: q => if c = i then a.get q else if c = j then b.get q else none := by
  cases q with
  | nil => rfl
  | cons c q =>
    simp only [pair, get_branch_cons, update_apply]
    by_cases h1 : c = j
    · simp [h1, Ne.symm hij]
    · by_cases h2 : c = i
      · simp [h2, hij]
      · simp [h1, h2]

theorem canonical_pair (hij : i ≠ j) (ha : a.Canonical)
    (hb : b.Canonical) : (pair i a j b).Canonical := by
  refine ⟨⟨i, j, hij, ?_, ?_⟩, ?_⟩
  · simpa [update_apply, hij] using ha.ne_null
  · simpa using hb.ne_null
  intro c
  by_cases h1 : c = j
  · simp [h1, hb]
  · by_cases h2 : c = i
    · simp [h2, hij, ha]
    · simp [h1, h2]

/-- Put the digits `p` in front of every key of a node, merging them into a leaf
    or an extension. -/
def prepend (p : List ι) : Node ι V → Node ι V
  | null => null
  | leaf k v => leaf (p ++ k) v
  | ext k c => ext (p ++ k) c
  | branch ch => wrap p (branch ch)

theorem get_prepend (p : List ι) (n : Node ι V) (q : List ι) :
    (n.prepend p).get q = (ext p n).get q := by
  by_cases hpre : p <+: q
  · obtain ⟨r, rfl⟩ := hpre
    rw [get_ext_append]
    cases n with
    | null => rfl
    | leaf k v => simp [prepend, get_leaf]
    | ext k c =>
      simp only [prepend]
      by_cases hk : k <+: r
      · obtain ⟨r, rfl⟩ := hk
        rw [← append_assoc, get_ext_append, get_ext_append]
      · have : ¬ p ++ k <+: p ++ r := by simpa [prefix_append_right_inj] using hk
        rw [get_ext_off_path _ hk, get_ext_off_path _ this]
    | branch ch => rw [prepend, get_wrap, get_ext_append]
  · rw [get_ext_off_path _ hpre]
    cases n with
    | null => rfl
    | leaf k v =>
      have : q ≠ p ++ k := fun h => hpre (h ▸ prefix_append p k)
      simp [prepend, get_leaf, this]
    | ext k c =>
      have : ¬ p ++ k <+: q := fun h => hpre ((prefix_append p k).trans h)
      rw [prepend, get_ext_off_path _ this]
    | branch ch => rw [prepend, get_wrap, get_ext_off_path _ hpre]

/-- A leaf put beside `b`, where the keys part: below the digit `j` they are those of `b`. -/
theorem get_split (hij : i ≠ j) (v : V) (b : Node ι V) (q' : List ι) :
    (wrap p (pair i (leaf s v) j b)).get q' =
      if q' = p ++ i :: s then some v else ((b.prepend [j]).prepend p).get q' := by
  rw [get_wrap, get_prepend]
  by_cases hpre : p <+: q'
  · obtain ⟨r, rfl⟩ := hpre
    rw [get_ext_append, get_ext_append, get_prepend, get_pair hij]
    cases r with
    | nil => simp [get_ext_off_path]
    | cons c r =>
      simp only [append_cancel_left_eq, cons.injEq, get_leaf]
      by_cases hj : c = j
      · subst hj
        have hr : (ext [c] b).get (c :: r) = b.get r := get_ext_append [c] b r
        simp [Ne.symm hij, hr]
      · have hoff : ¬ [j] <+: c :: r := by simp [cons_prefix_cons, Ne.symm hj]
        rw [get_ext_off_path _ hoff]
        by_cases hi : c = i <;> simp [hi, hj]
  · have hne : q' ≠ p ++ i :: s := fun h => hpre (h ▸ prefix_append p _)
    rw [get_ext_off_path _ hpre, get_ext_off_path _ hpre, if_neg hne]

/-! ## Insertion -/

theorem canonical_insert (v : V) (hn : n.WellFormed)
    (hq : n.Apart q) : (n.insert q v).Canonical := by
  induction n generalizing q with
  | null => trivial
  | leaf k w =>
    by_cases hqk : q = k
    · subst hqk; simp [insert, Canonical]
    obtain ⟨h1, h2⟩ := hq k w (get_leaf_self k w) (Ne.symm hqk)
    obtain ⟨p, i, q', j, k', hp, rfl, rfl, hij⟩ := split_apart h2 h1
    rw [insert_leaf_split hij v w hp]
    exact canonical_wrap (canonical_pair hij trivial trivial)
  | ext k c ih =>
    obtain ⟨hk, hb, hc⟩ := hn.resolve_left (by simp)
    by_cases hkq : k <+: q
    · obtain ⟨r, rfl⟩ := hkq
      rw [insert_ext_append]
      refine ⟨hk, ?_, ih (Or.inr hc) hq.of_ext⟩
      -- an insertion below a branch is a branch
      cases c with
      | branch ch =>
        cases r with
        | nil | cons j r => trivial
      | null | leaf _ _ | ext _ _ => exact hb.elim
    · obtain ⟨p, i, q', j, k', hp, rfl, rfl, hij⟩ := split_apart (hq.not_prefix hc hkq) hkq
      rw [insert_ext_split hij v c hp]
      refine canonical_wrap (canonical_pair hij trivial ?_)
      cases c with
      | branch ch => exact canonical_wrap hc
      | null | leaf _ _ | ext _ _ => exact hb.elim
  | branch ch ih =>
    have hc := hn.resolve_left (by simp)
    cases q with
    | nil => exact absurd rfl (apart_branch_ne_nil hc hq)
    | cons j q =>
      obtain ⟨⟨a, b, hab, ha, hb⟩, hall⟩ := hc
      have hj := ih j (hall j) hq.of_branch
      refine ⟨⟨a, b, hab, ?_, ?_⟩, ?_⟩
      · by_cases h : a = j
        · subst h; simpa using hj.ne_null
        · simpa [update_apply, h] using ha
      · by_cases h : b = j
        · subst h; simpa using hj.ne_null
        · simpa [update_apply, h] using hb
      intro i
      by_cases h : i = j
      · subst h; right; simpa using hj
      · simpa [update_apply, h] using hall i

/-- Insertion changes the lookup of its key only. -/
theorem get_insert (v : V) (hn : n.WellFormed) (hq : n.Apart q)
    (q' : List ι) : (n.insert q v).get q' = if q' = q then some v else n.get q' := by
  induction n generalizing q q' with
  | null => simp [insert, get_leaf]
  | leaf k w =>
    by_cases hqk : q = k
    · subst hqk
      simp only [insert, if_true, get_leaf]
      split <;> rfl
    obtain ⟨h1, h2⟩ := hq k w (get_leaf_self k w) (Ne.symm hqk)
    obtain ⟨p, i, s, j, k', hp, rfl, rfl, hij⟩ := split_apart h2 h1
    rw [insert_leaf_split hij v w hp]
    exact get_split hij v (leaf k' w) q'
  | ext k c ih =>
    obtain ⟨hk, hb, hc⟩ := hn.resolve_left (by simp)
    by_cases hkq : k <+: q
    · obtain ⟨r, rfl⟩ := hkq
      rw [insert_ext_append]
      by_cases hpre : k <+: q'
      · obtain ⟨r', rfl⟩ := hpre
        rw [get_ext_append, get_ext_append, ih (Or.inr hc) hq.of_ext]
        simp
      · rw [get_ext_off_path _ hpre, get_ext_off_path _ hpre]
        have : q' ≠ k ++ r := fun h => hpre (h ▸ prefix_append k r)
        simp [this]
    obtain ⟨p, i, s, j, k', hp, rfl, rfl, hij⟩ := split_apart (hq.not_prefix hc hkq) hkq
    rw [insert_ext_split hij v c hp, get_split hij]
    cases c with
    | branch ch => cases k' <;> rfl
    | null | leaf _ _ | ext _ _ => exact hb.elim
  | branch ch ih =>
    have hc := hn.resolve_left (by simp)
    cases q with
    | nil => exact absurd rfl (apart_branch_ne_nil hc hq)
    | cons j q =>
      cases q' with
      | nil => rfl
      | cons i q' =>
        simp only [insert, get_branch_cons, cons.injEq]
        by_cases h : i = j
        · subst h
          simp [ih i (hc.2 i) hq.of_branch]
        · simp [h]

/-! ## Deletion -/

open Classical in
/-- A branch, or its child when it is the only one left. -/
noncomputable def collapse (ch : ι → Node ι V) : Node ι V :=
  if h : ∃ i, ch i ≠ null ∧ ∀ j, j ≠ i → ch j = null then prepend [h.choose] (ch h.choose)
  else branch ch

/-- Deletion; `none` when the key is absent. -/
noncomputable def delete : Node ι V → List ι → Option (Node ι V)
  | null, _ => none
  | leaf k _, q => if q = k then some null else none
  | ext k c, q =>
    match k.isPrefixOf? q with
    | some r => (c.delete r).map (prepend k)
    | none => none
  | branch _, [] => none
  | branch ch, j :: q => ((ch j).delete q).map fun c => collapse (update ch j c)

omit [DecidableEq ι] in
theorem canonical_prepend (h : n.Canonical) : (n.prepend p).Canonical := by
  cases n with
  | null => exact h
  | leaf k v => trivial
  | ext k c => exact ⟨by simp [h.1], h.2⟩
  | branch ch => exact canonical_wrap h

theorem collapse_one (hi : ch i ≠ null)
    (hall : ∀ j, j ≠ i → ch j = null) : collapse ch = prepend [i] (ch i) := by
  have h : ∃ i, ch i ≠ null ∧ ∀ j, j ≠ i → ch j = null := ⟨i, hi, hall⟩
  have hc : h.choose = i := by
    by_contra hne
    exact h.choose_spec.1 (hall _ hne)
  rw [collapse, dif_pos h, hc]

theorem collapse_two (hij : i ≠ j) (hi : ch i ≠ null)
    (hj : ch j ≠ null) : collapse ch = branch ch := by
  rw [collapse, dif_neg]
  rintro ⟨k, _, hk⟩
  by_cases h : i = k
  · subst h; exact hj (hk j (Ne.symm hij))
  · exact hi (hk i h)

theorem collapse_cases (hi : ch i ≠ null) : (∃ j, j ≠ i ∧ ch j ≠ null ∧ collapse ch = branch ch) ∨
      ((∀ j, j ≠ i → ch j = null) ∧ collapse ch = prepend [i] (ch i)) := by
  by_cases h : ∃ j, j ≠ i ∧ ch j ≠ null
  · obtain ⟨j, hji, hj⟩ := h
    exact Or.inl ⟨j, hji, hj, collapse_two hji hj hi⟩
  · push Not at h
    exact Or.inr ⟨h, collapse_one hi h⟩

theorem get_collapse (q : List ι) : (collapse ch).get q = (branch ch).get q := by
  by_cases h : ∃ i, ch i ≠ null
  · obtain ⟨i, hi⟩ := h
    rcases collapse_cases hi with ⟨_, _, _, he⟩ | ⟨hall, he⟩
    · rw [he]
    rw [he, get_prepend]
    cases q with
    | nil => exact get_ext_off_path _ (by simp)
    | cons j q =>
      by_cases hj : j = i
      · subst hj
        exact get_ext_append [j] (ch j) q
      · have : ¬ [i] <+: j :: q := by simp [cons_prefix_cons, Ne.symm hj]
        rw [get_ext_off_path _ this, get_branch_cons, hall j hj, get_null]
  · rw [collapse, dif_neg fun ⟨i, hi, _⟩ => h ⟨i, hi⟩]

theorem canonical_collapse (hall : ∀ i, ch i = null ∨ (ch i).Canonical)
    (hi : ch i ≠ null) : (collapse ch).Canonical := by
  rcases collapse_cases hi with ⟨j, hji, hj, he⟩ | ⟨_, he⟩
  · rw [he]
    exact ⟨⟨j, i, hji, hj, hi⟩, hall⟩
  · rw [he]
    exact canonical_prepend ((hall i).resolve_left hi)

@[simp] theorem delete_ext_append (k r : List ι) (c : Node ι V) :
    (ext k c).delete (k ++ r) = (c.delete r).map (prepend k) := by
  have h : k.isPrefixOf? (k ++ r) = some r := by simp
  simp [delete, h]

theorem delete_ext_off_path (c : Node ι V) (h : ¬ k <+: q) : (ext k c).delete q = none := by
  unfold delete
  split
  · next r hr =>
      rw [isPrefixOf?_eq_some_iff_append_eq] at hr
      exact absurd ⟨r, hr⟩ h
  · rfl

theorem delete_branch_cons (ch : ι → Node ι V) (j : ι) (q : List ι) :
    (branch ch).delete (j :: q) = ((ch j).delete q).map fun c => collapse (update ch j c) := rfl

/-- Deletion clears the lookup of its key only. -/
theorem get_delete (h : n.delete q = some n') (q' : List ι) :
    n'.get q' = if q' = q then none else n.get q' := by
  induction n generalizing n' q q' with
  | null => cases h
  | leaf k v =>
    simp only [delete, ite_none_right_eq_some, some.injEq] at h
    obtain ⟨rfl, rfl⟩ := h
    rw [get_null, get_leaf]
    split <;> rfl
  | ext k c ih =>
    by_cases hk : k <+: q
    · obtain ⟨r, rfl⟩ := hk
      rw [delete_ext_append, map_eq_some_iff] at h
      obtain ⟨c', hc', rfl⟩ := h
      rw [get_prepend]
      by_cases hk' : k <+: q'
      · obtain ⟨r', rfl⟩ := hk'
        rw [get_ext_append, get_ext_append, ih hc']
        simp
      · rw [get_ext_off_path _ hk', get_ext_off_path _ hk']
        simp
    · rw [delete_ext_off_path _ hk] at h
      cases h
  | branch ch ih =>
    cases q with
    | nil => cases h
    | cons j q =>
      rw [delete_branch_cons, map_eq_some_iff] at h
      obtain ⟨c', hc', rfl⟩ := h
      rw [get_collapse]
      cases q' with
      | nil => simp
      | cons i q' =>
        by_cases hij : i = j
        · subst hij
          simp [ih i hc']
        · simp [hij]

theorem delete_branch_canonical
    (hn : (branch ch).Canonical) (hwf : ∀ j q c, (ch j).delete q = some c → c.WellFormed)
    (h : (branch ch).delete q = some n') : n'.Canonical := by
  cases q with
  | nil => cases h
  | cons j q =>
    rw [delete_branch_cons, map_eq_some_iff] at h
    obtain ⟨c, hc, rfl⟩ := h
    obtain ⟨⟨a, b, hab, ha, hb⟩, hall⟩ := hn
    -- one of the two children is not the one that was changed
    have hother : ∃ i, i ≠ j ∧ ch i ≠ null := by
      by_cases haj : a = j
      · exact ⟨b, fun hbj => hab (haj.trans hbj.symm), hb⟩
      · exact ⟨a, haj, ha⟩
    obtain ⟨i, hij, hi⟩ := hother
    apply canonical_collapse (i := i)
    · intro k
      by_cases hk : k = j
      · subst hk
        rw [update_self]
        exact hwf k q c hc
      · simpa [hk] using hall k
    · simpa [hij] using hi

theorem wellFormed_delete (hn : n.WellFormed) (h : n.delete q = some n') : n'.WellFormed := by
  induction n generalizing n' q with
  | null => cases h
  | leaf k v =>
    simp only [delete, ite_none_right_eq_some, some.injEq] at h
    exact Or.inl h.2.symm
  | ext k c ih =>
    obtain ⟨_, hb, hc⟩ := hn.resolve_left (by simp)
    by_cases hk : k <+: q
    · obtain ⟨r, rfl⟩ := hk
      rw [delete_ext_append, map_eq_some_iff] at h
      obtain ⟨c', hc', rfl⟩ := h
      rcases ih (Or.inr hc) hc' with rfl | hcan
      · exact Or.inl rfl
      · exact Or.inr (canonical_prepend hcan)
    · rw [delete_ext_off_path _ hk] at h
      cases h
  | branch ch ih =>
    have hcan := hn.resolve_left (by simp)
    exact Or.inr (delete_branch_canonical hcan (fun j _ _ hc => ih j (hcan.2 j) hc) h)

end Node

end Patricia
