/-
  The reference Patricia node of a finite map.

  `compose` is the structural composition of the trie specification: no entry is
  `null`, one entry is a leaf, several entries that share a prefix are an
  extension over a branch, and a branch groups its entries by first digit.

  On a prefix-free list of entries `compose` is well formed (`wellFormed_compose`)
  and its lookups are exactly the entries (`get_compose`). With `wellFormed_ext`
  this makes `ofMap m` the only well-formed node whose lookups are those of `m`
  (`eq_ofMap`).
-/
import Rbuilder.Patricia.Node
import Mathlib.Data.List.AList

namespace Patricia

open List Node

variable {ι V : Type}

/-- No key is a prefix of another. -/
def PrefixFree (S : Set (List ι)) : Prop := ∀ a ∈ S, ∀ b ∈ S, a <+: b → a = b

theorem prefixFree_of_length (n : Nat) : PrefixFree {k : List ι | k.length = n} :=
  fun _ ha _ hb h => h.eq_of_length (ha.trans hb.symm)

/-- Entries with pairwise incomparable keys. -/
def PrefixFreeEntries (l : List (List ι × V)) : Prop :=
  l.Pairwise fun a b => ¬ a.1 <+: b.1 ∧ ¬ b.1 <+: a.1

section CommonPrefix

variable [DecidableEq ι]

def commonPrefix : List ι → List ι → List ι
  | a :: k, b :: q => if a = b then a :: commonPrefix k q else []
  | _, _ => []

theorem commonPrefix_prefix_left (k q : List ι) : commonPrefix k q <+: k := by
  induction k generalizing q with
  | nil => cases q <;> simp [commonPrefix]
  | cons a k ih =>
    cases q with
    | nil => simp [commonPrefix]
    | cons b q =>
      simp only [commonPrefix]
      split
      · exact cons_prefix_cons.mpr ⟨rfl, ih q⟩
      · exact nil_prefix

theorem commonPrefix_comm (k q : List ι) : commonPrefix k q = commonPrefix q k := by
  induction k generalizing q with
  | nil => cases q <;> rfl
  | cons a k ih =>
    cases q with
    | nil => rfl
    | cons b q =>
      simp only [commonPrefix]
      by_cases h : a = b
      · subst h; simp [ih]
      · simp [h, Ne.symm h]

theorem commonPrefix_prefix_right (k q : List ι) : commonPrefix k q <+: q := by
  rw [commonPrefix_comm]
  exact commonPrefix_prefix_left q k

variable {x k : List ι} {ks : List (List ι)}

/-- The common prefix is the longest one. -/
theorem prefix_commonPrefix {q : List ι} (hk : x <+: k) (hq : x <+: q) :
    x <+: commonPrefix k q := by
  induction x generalizing k q with
  | nil => exact nil_prefix
  | cons a x ih =>
    obtain ⟨s, rfl⟩ := hk
    obtain ⟨r, rfl⟩ := hq
    simp only [cons_append, commonPrefix, if_true]
    exact cons_prefix_cons.mpr ⟨rfl, ih (prefix_append ..) (prefix_append ..)⟩

/-- Two lists split at their common prefix, and the rests do not start alike. -/
theorem commonPrefix_split (k q : List ι) :
    ∃ r s, k = commonPrefix k q ++ r ∧ q = commonPrefix k q ++ s ∧
      ∀ a r' b s', r = a :: r' → s = b :: s' → a ≠ b := by
  obtain ⟨r, hr⟩ := commonPrefix_prefix_left k q
  obtain ⟨s, hs⟩ := commonPrefix_prefix_right k q
  refine ⟨r, s, hr.symm, hs.symm, ?_⟩
  rintro a r' b s' rfl rfl rfl
  have h : commonPrefix k q ++ [a] <+: commonPrefix k q := by
    apply prefix_commonPrefix
    · exact ⟨r', by rw [append_assoc]; exact hr⟩
    · exact ⟨s', by rw [append_assoc]; exact hs⟩
  have := h.length_le
  rw [length_append, length_singleton] at this
  omega

/-- The longest prefix shared by all keys of a non-empty list. -/
def sharedPrefix : List (List ι) → List ι
  | [] => []
  | [k] => k
  | k :: ks => commonPrefix k (sharedPrefix ks)

theorem sharedPrefix_le (hk : k ∈ ks) : sharedPrefix ks <+: k := by
  induction ks with
  | nil => cases hk
  | cons a ks ih =>
    cases ks with
    | nil =>
      rw [mem_singleton.mp hk]
      exact prefix_refl a
    | cons b ks =>
      rcases mem_cons.mp hk with rfl | hk
      · exact commonPrefix_prefix_left ..
      · exact (commonPrefix_prefix_right ..).trans (ih hk)

theorem prefix_sharedPrefix (hne : ks ≠ []) (hx : ∀ k ∈ ks, x <+: k) : x <+: sharedPrefix ks := by
  induction ks with
  | nil => exact absurd rfl hne
  | cons a ks ih =>
    cases ks with
    | nil => exact hx a (mem_singleton_self a)
    | cons b ks =>
      apply prefix_commonPrefix (hx a mem_cons_self)
      exact ih (cons_ne_nil _ _) fun k hk => hx k (mem_cons_of_mem _ hk)

end CommonPrefix

/-! ## Grouping entries -/

section Group

/-- Drop a shared prefix from every key. -/
def dropKeys (n : Nat) (l : List (List ι × V)) : List (List ι × V) :=
  l.map fun e => (e.1.drop n, e.2)

/-- The entries below digit `j`, with that digit removed. -/
def below [DecidableEq ι] (j : ι) (l : List (List ι × V)) : List (List ι × V) :=
  l.filterMap fun e =>
    match e.1 with
    | [] => none
    | a :: k => if a = j then some (k, e.2) else none

variable {l : List (List ι × V)} {k p : List ι} {v : V}

theorem mem_below [DecidableEq ι] {j : ι} : (k, v) ∈ below j l ↔ (j :: k, v) ∈ l := by
  unfold below
  rw [mem_filterMap]
  constructor
  · rintro ⟨⟨q, w⟩, hm, he⟩
    cases q with
    | nil => simp at he
    | cons a q =>
      simp only at he
      split at he
      · next h =>
          subst h
          cases he
          exact hm
      · cases he
  · intro h
    exact ⟨(j :: k, v), h, by simp⟩

theorem prefixFree_below [DecidableEq ι] (j : ι) (h : PrefixFreeEntries l) :
    PrefixFreeEntries (below j l) := by
  apply Pairwise.filterMap _ _ h
  rintro ⟨q, w⟩ ⟨q', w'⟩ hqq ⟨k, v⟩ hb ⟨k', v'⟩ hb'
  cases q with
  | nil => simp at hb
  | cons a q =>
    cases q' with
    | nil => simp at hb'
    | cons a' q' =>
      simp only [Option.ite_none_right_eq_some, Option.some.injEq, Prod.mk.injEq] at hb hb'
      obtain ⟨rfl, rfl, rfl⟩ := hb
      obtain ⟨rfl, rfl, rfl⟩ := hb'
      simpa [cons_prefix_cons] using hqq

theorem mem_dropKeys (hp : ∀ e ∈ l, p <+: e.1) :
    (k, v) ∈ dropKeys p.length l ↔ (p ++ k, v) ∈ l := by
  unfold dropKeys
  rw [mem_map]
  constructor
  · rintro ⟨⟨q, w⟩, hm, he⟩
    obtain ⟨r, hr⟩ := hp _ hm
    subst hr
    simp only [drop_left, Prod.mk.injEq] at he
    obtain ⟨rfl, rfl⟩ := he
    exact hm
  · intro h
    exact ⟨(p ++ k, v), h, by simp⟩

theorem prefixFree_dropKeys (hp : ∀ e ∈ l, p <+: e.1)
    (h : PrefixFreeEntries l) : PrefixFreeEntries (dropKeys p.length l) := by
  unfold PrefixFreeEntries dropKeys
  rw [pairwise_map]
  apply h.imp_of_mem
  rintro ⟨q, w⟩ ⟨q', w'⟩ hm hm' hqq
  obtain ⟨r, hr⟩ := hp _ hm
  obtain ⟨r', hr'⟩ := hp _ hm'
  subst hr hr'
  simpa [prefix_append_right_inj] using hqq

end Group

/-! ## The composition function -/

section Compose

variable [DecidableEq ι]

/-- An extension, or nothing when the key is empty. -/
def wrap (p : List ι) (n : Node ι V) : Node ι V :=
  match p with
  | [] => n
  | _ :: _ => .ext p n

/-- Composition with `fuel` digits of key left to look at. -/
def composeFuel : Nat → List (List ι × V) → Node ι V
  | _, [] => .null
  | _, [e] => .leaf e.1 e.2
  | 0, _ :: _ :: _ => .null
  | fuel + 1, l@(_ :: _ :: _) =>
    let p := sharedPrefix (l.map Prod.fst)
    wrap p (.branch fun j => composeFuel fuel (below j (dropKeys p.length l)))

/-- A bound on the length of every key. -/
def keyBound {ι V : Type} (l : List (List ι × V)) : Nat := l.foldr (fun e n => e.1.length + n) 0

/-- The reference node of a list of entries. -/
def compose (l : List (List ι × V)) : Node ι V := composeFuel (keyBound l) l

omit [DecidableEq ι] in
variable {l : List (List ι × V)} {e : List ι × V}

theorem length_le_keyBound (h : e ∈ l) : e.1.length ≤ keyBound l := by
  induction l with
  | nil => cases h
  | cons a l ih =>
    simp only [keyBound, foldr_cons] at ih ⊢
    rcases mem_cons.mp h with rfl | h
    · omega
    · have := ih h
      omega

theorem get_wrap (p : List ι) (n : Node ι V) (q : List ι) :
    (wrap p n).get q = (ext p n).get q := by
  cases p with
  | nil => exact (get_ext_append [] n q).symm
  | cons a p => rfl

omit [DecidableEq ι] in
theorem canonical_wrap {p : List ι} {ch : ι → Node ι V} (h : (Node.branch ch).Canonical) :
    (wrap p (.branch ch)).Canonical := by
  cases p with
  | nil => exact h
  | cons a p => exact ⟨cons_ne_nil a p, trivial, h⟩

/-- What composition needs from two or more prefix-free entries: they start with
    the shared prefix, no rest is empty, and two rests start differently. -/
theorem shared_split {f : List ι × V} (h : PrefixFreeEntries (e :: f :: l)) :
    (∀ x ∈ e :: f :: l, sharedPrefix ((e :: f :: l).map Prod.fst) <+: x.1) ∧
    ([] ∉ (dropKeys (sharedPrefix ((e :: f :: l).map Prod.fst)).length (e :: f :: l)).map Prod.fst) ∧
    ∃ i j k q v w, i ≠ j ∧
      (i :: k, v) ∈ dropKeys (sharedPrefix ((e :: f :: l).map Prod.fst)).length (e :: f :: l) ∧
      (j :: q, w) ∈ dropKeys (sharedPrefix ((e :: f :: l).map Prod.fst)).length (e :: f :: l) := by
  generalize hp : sharedPrefix ((e :: f :: l).map Prod.fst) = p
  have hpre : ∀ x ∈ e :: f :: l, p <+: x.1 := by
    intro x hx
    rw [← hp]
    exact sharedPrefix_le (mem_map_of_mem hx)
  have hne : [] ∉ (dropKeys p.length (e :: f :: l)).map Prod.fst := by
    intro hm
    obtain ⟨⟨k, v⟩, hkv, rfl⟩ := mem_map.mp hm
    rw [mem_dropKeys hpre, append_nil] at hkv
    -- the entry with key `p` is a prefix of each other entry, and there is another one
    have hother : ∃ x ∈ e :: f :: l, x ≠ (p, v) := by
      by_cases he : e = (p, v)
      · refine ⟨f, by simp, ?_⟩
        rintro rfl
        have := (pairwise_cons.mp h).1 _ mem_cons_self
        rw [he] at this
        exact this.1 (prefix_refl p)
      · exact ⟨e, by simp, he⟩
    obtain ⟨x, hx, hxne⟩ := hother
    have : Std.Symm fun a b : List ι × V => ¬ a.1 <+: b.1 ∧ ¬ b.1 <+: a.1 :=
      ⟨fun _ _ hab => ⟨hab.2, hab.1⟩⟩
    exact (Pairwise.forall h hkv hx (Ne.symm hxne)).1 (hpre x hx)
  refine ⟨hpre, hne, ?_⟩
  have hhead : ∀ x ∈ e :: f :: l, ∃ i k, (i :: k, x.2) ∈ dropKeys p.length (e :: f :: l) ∧
      x.1 = p ++ i :: k := by
    intro x hx
    obtain ⟨r, hr⟩ := hpre x hx
    have hm : (r, x.2) ∈ dropKeys p.length (e :: f :: l) := by
      rw [mem_dropKeys hpre, hr]
      exact hx
    cases r with
    | nil => exact absurd (mem_map_of_mem hm) hne
    | cons i k => exact ⟨i, k, hm, hr.symm⟩
  obtain ⟨i, k, hik, hei⟩ := hhead e (by simp)
  by_contra hall
  push Not at hall
  -- otherwise every key starts with `p ++ [i]`, longer than the shared prefix
  have hlong : p ++ [i] <+: sharedPrefix ((e :: f :: l).map Prod.fst) := by
    apply prefix_sharedPrefix (by simp)
    intro k' hk'
    obtain ⟨x, hx, rfl⟩ := mem_map.mp hk'
    obtain ⟨j, q, hjq, hxj⟩ := hhead x hx
    have hij : i = j := by
      by_contra hij
      exact hall i j k q _ _ hij hik hjq
    subst hij
    exact ⟨q, by rw [hxj]; simp⟩
  rw [hp] at hlong
  have := hlong.length_le
  rw [length_append, length_singleton] at this
  omega

theorem composeFuel_singleton_spec (fuel : Nat) (e : List ι × V) :
    (composeFuel fuel [e]).WellFormed ∧
      ∀ q v, (composeFuel fuel [e]).get q = some v ↔ (q, v) ∈ [e] := by
  obtain ⟨k, w⟩ := e
  have hleaf : composeFuel fuel [(k, w)] = .leaf k w := by cases fuel <;> rfl
  rw [hleaf]
  refine ⟨Or.inr trivial, fun q v => ?_⟩
  simp only [get_leaf, mem_singleton, Prod.mk.injEq]
  split <;> simp_all [eq_comm]

theorem composeFuel_spec (fuel : Nat) (l : List (List ι × V)) (h : PrefixFreeEntries l)
    (hf : ∀ e ∈ l, e.1.length ≤ fuel) :
    (composeFuel fuel l).WellFormed ∧ ∀ q v, (composeFuel fuel l).get q = some v ↔ (q, v) ∈ l := by
  induction fuel generalizing l with
  | zero =>
    rcases l with _ | ⟨e, _ | ⟨f, l⟩⟩
    · exact ⟨Or.inl rfl, by simp [composeFuel]⟩
    · exact composeFuel_singleton_spec 0 e
    have := (pairwise_cons.mp h).1 f mem_cons_self
    have he : e.1 = [] := length_eq_zero_iff.mp (Nat.le_zero.mp (hf e (by simp)))
    rw [he] at this
    exact absurd nil_prefix this.1
  | succ fuel ih =>
    rcases l with _ | ⟨e, _ | ⟨f, l⟩⟩
    · exact ⟨Or.inl rfl, by simp [composeFuel]⟩
    · exact composeFuel_singleton_spec (fuel + 1) e
    obtain ⟨hpre, hne, i, j, k, q, v, w, hij, hi, hj⟩ := shared_split h
    simp only [composeFuel]
    generalize hp : sharedPrefix ((e :: f :: l).map Prod.fst) = p at hpre hne hi hj ⊢
    have hsub : ∀ c, (composeFuel fuel (below c (dropKeys p.length (e :: f :: l)))).WellFormed ∧
        ∀ q v, (composeFuel fuel (below c (dropKeys p.length (e :: f :: l)))).get q = some v ↔
          (q, v) ∈ below c (dropKeys p.length (e :: f :: l)) := by
      intro c
      apply ih _ (prefixFree_below c (prefixFree_dropKeys hpre h))
      rintro ⟨k', v'⟩ hm
      rw [mem_below, mem_dropKeys hpre] at hm
      have := hf _ hm
      simp only [length_append, length_cons] at this ⊢
      omega
    have hnn : ∀ {c k' v'}, (c :: k', v') ∈ dropKeys p.length (e :: f :: l) →
        composeFuel fuel (below c (dropKeys p.length (e :: f :: l))) ≠ .null := by
      intro c k' v' hm hnull
      have := ((hsub c).2 k' v').mpr (mem_below.mpr hm)
      rw [hnull] at this
      cases this
    refine ⟨Or.inr (canonical_wrap ⟨⟨i, j, hij, hnn hi, hnn hj⟩, fun c => (hsub c).1⟩), ?_⟩
    intro q' v'
    rw [get_wrap]
    constructor
    · intro hg
      obtain ⟨r, rfl, hr⟩ := get_ext_eq_some hg
      cases r with
      | nil => cases hr
      | cons c r =>
        rw [get_branch_cons, (hsub c).2, mem_below, mem_dropKeys hpre] at hr
        exact hr
    intro hm
    obtain ⟨r, hr⟩ := hpre _ hm
    subst hr
    rw [get_ext_append]
    rw [← mem_dropKeys hpre] at hm
    cases r with
    | nil => exact absurd (mem_map_of_mem hm) hne
    | cons c r => rw [get_branch_cons, (hsub c).2, mem_below]; exact hm

theorem wellFormed_compose {l : List (List ι × V)} (h : PrefixFreeEntries l) :
    (compose l).WellFormed :=
  (composeFuel_spec _ l h fun _ he => length_le_keyBound he).1

/-- The lookups of the reference node are its entries. -/
theorem get_compose {l : List (List ι × V)} (h : PrefixFreeEntries l) (q : List ι) (v : V) :
    (compose l).get q = some v ↔ (q, v) ∈ l :=
  (composeFuel_spec _ l h fun _ he => length_le_keyBound he).2 q v

/-! ## The node of a map -/

/-- A finite map from keys to values. -/
abbrev KeyMap (ι V : Type) := AList fun _ : List ι => V

def entriesOf (m : KeyMap ι V) : List (List ι × V) := m.entries.map fun s => (s.1, s.2)

/-- The reference node of a finite map. -/
def ofMap (m : KeyMap ι V) : Node ι V := compose (entriesOf m)

variable {m : KeyMap ι V}

theorem mem_entriesOf {q : List ι} {v : V} : (q, v) ∈ entriesOf m ↔ m.lookup q = some v := by
  rw [← Option.mem_def, AList.mem_lookup_iff]
  unfold entriesOf
  rw [mem_map]
  constructor
  · rintro ⟨⟨k, w⟩, hm, he⟩
    cases he
    exact hm
  · intro h
    exact ⟨⟨q, v⟩, h, rfl⟩

omit [DecidableEq ι] in
theorem prefixFree_entriesOf (h : PrefixFree {k | k ∈ m}) : PrefixFreeEntries (entriesOf m) := by
  unfold PrefixFreeEntries entriesOf
  rw [pairwise_map]
  have hnd : m.entries.Pairwise fun a b => a.1 ≠ b.1 := by
    have := m.nodupKeys
    rw [NodupKeys, keys, nodup_iff_pairwise_ne, pairwise_map] at this
    exact this
  apply hnd.imp_of_mem
  intro a b ha hb hab
  have hka : a.1 ∈ m := AList.mem_keys.mpr (mem_map_of_mem ha)
  have hkb : b.1 ∈ m := AList.mem_keys.mpr (mem_map_of_mem hb)
  exact ⟨fun hp => hab (h _ hka _ hkb hp), fun hp => hab (h _ hkb _ hka hp).symm⟩

theorem wellFormed_ofMap (h : PrefixFree {k | k ∈ m}) : (ofMap m).WellFormed :=
  wellFormed_compose (prefixFree_entriesOf h)

theorem get_ofMap (h : PrefixFree {k | k ∈ m}) (q : List ι) : (ofMap m).get q = m.lookup q := by
  apply Option.ext
  intro v
  rw [ofMap, get_compose (prefixFree_entriesOf h), mem_entriesOf]

/-- A well-formed node with the lookups of `m` is the reference node of `m`. -/
theorem eq_ofMap {n : Node ι V} (hn : n.WellFormed)
    (h : PrefixFree {k | k ∈ m}) (hg : ∀ q, n.get q = m.lookup q) : n = ofMap m :=
  wellFormed_ext hn (wellFormed_ofMap h) fun q => by rw [hg q, get_ofMap h]

end Compose

end Patricia
