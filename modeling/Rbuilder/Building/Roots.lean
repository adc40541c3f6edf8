/-
  The roots of indexed items.

  `Indexed m kept`: the map `m` has the items `kept i` at the keys of their indices, and no
  others. The trie that is kept between two calls holds such a map: sealing a block writes
  all items anew, adjusting it writes the last item only (`rootAndPlaceholderProof_indexed`).
  The root is the reference root of the map, and the one of `alloy_trie` is as well, for the
  indices are added in the order of their keys.
-/
import Rbuilder.Building.Receipts
import Rbuilder.SparseMpt.MapTrie
import Rbuilder.SparseMpt.RlpUint
import Mathlib.Data.List.GetD

namespace Building

open Patricia (PrefixFree)
open List AList SparseMpt Function

/-! ## Indexed items -/

/-- The trie key of an index. -/
def itemKey (i : Nat) : Nibbles := unpack (indexKey i)

variable {i j idx : Nat}

theorem itemKey_injective (hi : i < 2 ^ 64) (hj : j < 2 ^ 64) (h : itemKey i = itemKey j) : i = j :=
  encodeUint_injective hi hj (unpack_injective h)

theorem itemKey_mem (h : i < 2 ^ 64) : itemKey i ∈ shortStringKeys :=
  encodeUint_mem_shortStringKeys h

/-- The map has the items at their indices. -/
structure Indexed (m : MptMap) (kept : Nat → Option Bytes) : Prop where
  keys : ∀ k ∈ m, ∃ i < 2 ^ 64, k = itemKey i
  items : ∀ i < 2 ^ 64, m.lookup (itemKey i) = kept i

section Indexed

variable {m m' : MptMap} {kept : Nat → Option Bytes}

theorem Indexed.prefixFree (h : Indexed m kept) : PrefixFree {k | k ∈ m} := by
  intro a ha b hb
  obtain ⟨i, hi, rfl⟩ := h.keys a ha
  obtain ⟨j, hj, rfl⟩ := h.keys b hb
  exact prefixFree_shortStringKeys _ (itemKey_mem hi) _ (itemKey_mem hj)

/-- Maps with the same items have the same lookups. -/
theorem Indexed.lookup_eq (h : Indexed m kept) (h' : Indexed m' kept) (k : Nibbles) :
    m.lookup k = m'.lookup k := by
  by_cases hk : ∃ i < 2 ^ 64, k = itemKey i
  · obtain ⟨i, hi, rfl⟩ := hk
    rw [h.items i hi, h'.items i hi]
  · rw [lookup_eq_none.mpr fun hmem => hk (h.keys k hmem),
      lookup_eq_none.mpr fun hmem => hk (h'.keys k hmem)]

theorem indexed_empty : Indexed ∅ fun _ => none :=
  ⟨fun _ hk => absurd hk (notMem_empty _), fun _ _ => lookup_empty _⟩

theorem Indexed.insert (h : Indexed m kept) {i : Nat} (hi : i < 2 ^ 64) (item : Bytes) :
    Indexed (m.insert (itemKey i) item) (update kept i (some item)) where
  keys k hk := by
    obtain rfl | hk := (mem_insert m).mp hk
    · exact ⟨i, hi, rfl⟩
    · exact h.keys k hk
  items j hj := by
    by_cases hij : j = i
    · subst hij
      rw [lookup_insert, update_self]
    · rw [lookup_insert_ne fun heq => hij (itemKey_injective hj hi heq),
        update_of_ne hij, h.items j hj]

end Indexed

/-- Write items at the indices from `idx` on. -/
def overwrite (kept : Nat → Option Bytes) : Nat → List Bytes → Nat → Option Bytes
  | _, [] => kept
  | idx, item :: items => overwrite (update kept idx (some item)) (idx + 1) items

theorem overwrite_apply (kept : Nat → Option Bytes) (idx : Nat) (items : List Bytes) (i : Nat) :
    overwrite kept idx items i =
      if idx ≤ i ∧ i < idx + items.length then items[i - idx]? else kept i := by
  induction items generalizing kept idx with
  | nil =>
    rw [overwrite, if_neg]
    rw [length_nil]
    omega
  | cons item items ih =>
    rw [overwrite, ih, length_cons]
    by_cases hi : i = idx
    · subst hi
      rw [if_neg (by omega), if_pos (by omega), Nat.sub_self, update_self]
      rfl
    by_cases hin : idx + 1 ≤ i ∧ i < idx + 1 + items.length
    · rw [if_pos hin, if_pos (by omega), show i - idx = (i - (idx + 1)) + 1 by omega]
      rfl
    · rw [if_neg hin, if_neg (by omega), update_of_ne hi]

/-- On no items, the list itself. -/
theorem overwrite_none (items : List Bytes) :
    overwrite (fun _ => none) 0 items = fun i => items[i]? := by
  funext i
  rw [overwrite_apply, Nat.zero_add, Nat.sub_zero]
  by_cases hi : i < items.length
  · rw [if_pos ⟨Nat.zero_le _, hi⟩]
  · rw [if_neg fun h => hi h.2, getElem?_eq_none (Nat.le_of_not_lt hi)]

/-- The items are indexed by some map. -/
theorem exists_indexed (items : List Bytes) (hlen : items.length ≤ 2 ^ 64) :
    ∃ m, Indexed m fun i => items[i]? := by
  have hgrow (kept : Nat → Option Bytes) (idx : Nat) (hidx : idx + items.length ≤ 2 ^ 64)
      (hkept : ∃ m, Indexed m kept) : ∃ m, Indexed m (overwrite kept idx items) := by
    induction items generalizing kept idx with
    | nil => exact hkept
    | cons item items ih =>
      obtain ⟨m, hm⟩ := hkept
      rw [length_cons] at hidx hlen
      exact ih (by omega) _ (idx + 1) (by omega) ⟨_, hm.insert (by omega) item⟩
  rw [← overwrite_none]
  exact hgrow _ 0 (by omega) ⟨∅, indexed_empty⟩

/-! ## The trie that is kept -/

/-- The trie holds the items. -/
def TrieKeeps (enc : Encoders) (trie : Trie) (kept : Nat → Option Bytes) : Prop :=
  ∃ m, Trie.Holds (nodeCodec enc.keccak256) Trie.NoRemote shortStringKeys trie m ∧ Indexed m kept

section Kept

variable {enc : Encoders} {trie : Trie} {kept : Nat → Option Bytes}

variable {items proof : List Bytes} {adjust : Bool} {trie' : Trie} {root : B256}

theorem insertItems_keeps (hlen : idx + items.length ≤ 2 ^ 64) (h : TrieKeeps enc trie kept) :
    ∃ trie', insertItems trie idx items = some trie' ∧
      TrieKeeps enc trie' (overwrite kept idx items) := by
  induction items generalizing idx trie kept with
  | nil => exact ⟨trie, rfl, h⟩
  | cons item items ih =>
    obtain ⟨m, hholds, hindexed⟩ := h
    rw [length_cons] at hlen
    have hidx : idx < 2 ^ 64 := by omega
    obtain ⟨trie₁, old, hinsert, -, hholds₁⟩ := Trie.insertNibbleKey_eq_mapInsert
      prefixFree_shortStringKeys hholds (itemKey_mem hidx) item
    obtain ⟨trie', hrest, hkeeps⟩ := ih (show idx + 1 + items.length ≤ 2 ^ 64 by omega)
      ⟨_, hholds₁, hindexed.insert hidx item⟩
    refine ⟨trie', ?_, hkeeps⟩
    have hinsert : trie.insert (indexKey idx) item = (trie₁, .ok old) := hinsert
    rw [insertItems, hinsert]
    exact hrest

/-- What the trie keeps after a call: all items, or those it had with the last one anew. -/
def keptAfter (adjust : Bool) (kept : Nat → Option Bytes) (items : List Bytes) : Nat → Option Bytes :=
  if adjust then update kept (items.length - 1) items.getLast? else fun i => items[i]?

theorem rootAndPlaceholderProofWithCache_eq_some
    (h : rootAndPlaceholderProofWithCache enc trie items adjust = some (trie', root, proof)) :
    ∃ last trie₁, items.getLast? = some last ∧
      (if adjust then insertItems trie (items.length - 1) [last]
        else insertItems trie.clearEmpty 0 items) = some trie₁ ∧
      trie₁.rootHash enc.keccak256 (!adjust) enc.schedule.order {} = (trie', .ok root) := by
  obtain ⟨last, hlast, h⟩ := Option.bind_eq_some_iff.mp h
  -- both branches go on in the same way
  have hrest : ∃ trie₁, (if adjust then insertItems trie (items.length - 1) [last]
      else insertItems trie.clearEmpty 0 items) = some trie₁ ∧
      ((trie₁.rootHash enc.keccak256 (!adjust) enc.schedule.order {}).2.toOption.bind fun root =>
        ((trie₁.rootHash enc.keccak256 (!adjust) enc.schedule.order {}).1.getProofNibblesKey {}
          (unpack (indexKey (items.length - 1)))).toOption.bind fun proof =>
            some ((trie₁.rootHash enc.keccak256 (!adjust) enc.schedule.order {}).1, root,
              proof.proof.map (·.2))) = some (trie', root, proof) := by
    cases adjust with
    | true | false => exact Option.bind_eq_some_iff.mp h
  obtain ⟨trie₁, hinserted, h⟩ := hrest
  refine ⟨last, trie₁, hlast, hinserted, ?_⟩
  generalize trie₁.rootHash enc.keccak256 (!adjust) enc.schedule.order {} = hashed at h
  obtain ⟨trie₂, res⟩ := hashed
  cases res with
  | error e => cases h
  | ok root' =>
    change ((trie₂.getProofNibblesKey {} (unpack (indexKey (items.length - 1)))).toOption.bind
      fun proof => some (trie₂, root', proof.proof.map (·.2))) = some (trie', root, proof) at h
    obtain ⟨proof', -, hres⟩ := Option.bind_eq_some_iff.mp h
    cases hres
    rfl

/-- The root is that of the items which are kept. -/
theorem rootAndPlaceholderProof_indexed (hlen : items.length ≤ 2 ^ 64)
    (h : rootAndPlaceholderProofWithCache enc trie items adjust = some (trie', root, proof))
    (hkeeps : adjust = true → TrieKeeps enc trie kept) :
    TrieKeeps enc trie' (keptAfter adjust kept items) ∧
      ∃ m, Indexed m (keptAfter adjust kept items) ∧ root = mptRoot enc.keccak256 m := by
  obtain ⟨last, trie₁, hlast, hinserted, hhashed⟩ := rootAndPlaceholderProofWithCache_eq_some h
  -- the items that are written
  have hkept : TrieKeeps enc trie₁ (keptAfter adjust kept items) := by
    cases adjust with
    | true =>
      obtain ⟨trie₂, hinsert, hkeeps₂⟩ := insertItems_keeps
        (show items.length - 1 + [last].length ≤ 2 ^ 64 by rw [length_singleton]; omega)
        (hkeeps rfl)
      rw [if_pos rfl, hinsert] at hinserted
      cases hinserted
      rw [keptAfter, if_pos rfl, hlast]
      exact hkeeps₂
    | false =>
      have hempty : TrieKeeps enc trie.clearEmpty fun _ => none :=
        ⟨∅, Trie.holds_newEmpty, indexed_empty⟩
      obtain ⟨trie₂, hinsert, hkeeps₂⟩ := insertItems_keeps
        (show 0 + items.length ≤ 2 ^ 64 by omega) hempty
      rw [if_neg Bool.false_ne_true, hinsert] at hinserted
      cases hinserted
      rw [overwrite_none] at hkeeps₂
      exact hkeeps₂
  obtain ⟨m, hholds, hindexed⟩ := hkept
  obtain ⟨trie₂, hroot, hholds₂, -, -⟩ := Trie.holds_rootHash
    prefixFree_shortStringKeys (fun _ _ _ hfalse => hfalse.elim) hholds
    (!adjust) enc.schedule.perm
  rw [hroot] at hhashed
  cases hhashed
  exact ⟨⟨m, hholds₂, hindexed⟩, m, hindexed, rfl⟩

end Kept

/-! ## The root of `alloy_trie` -/

/-- Of leaves in the order of their keys, `HashBuilder` gives the reference root. -/
def HashBuilderLaw (enc : Encoders) : Prop :=
  ∀ (leaves : List (Nibbles × Bytes)) (target : Nibbles) (m : MptMap),
    leaves.Pairwise (fun a b => a.1 < b.1) → PrefixFree {k | k ∈ m} →
    (∀ k v, m.lookup k = some v ↔ (k, v) ∈ leaves) →
    (enc.hashBuilder leaves target).1 = mptRoot enc.keccak256 m

section Alloy

variable {enc : Encoders} {len i j idx target : Nat}

/-- The indices come in the order of their RLP. -/
theorem rlpRank_adjustIndexForRlp (hij : i < j) (hj : j < len) :
    rlpRank (adjustIndexForRlp i len) < rlpRank (adjustIndexForRlp j len) := by
  unfold rlpRank adjustIndexForRlp
  grind

theorem adjustIndexForRlp_lt (hi : i < len) : adjustIndexForRlp i len < len := by
  unfold adjustIndexForRlp
  grind

/-- Each index comes once. -/
theorem exists_adjustIndexForRlp (h : idx < len) : ∃ i < len, adjustIndexForRlp i len = idx := by
  unfold adjustIndexForRlp
  by_cases hzero : idx = 0
  · exact ⟨min 0x7f (len - 1), by omega, by grind⟩
  · by_cases hsmall : idx ≤ 0x7f
    · exact ⟨idx - 1, by omega, by grind⟩
    · exact ⟨idx, h, by grind⟩

theorem mapM_map_eq_pure {M : Type → Type} [Monad M] [LawfulMonad M] {α β γ : Type} {key : α → β}
    {f : β → M γ} {g : α → γ} {l : List α} (h : ∀ a ∈ l, f (key a) = pure (g a)) :
    (l.map key).mapM f = pure (l.map g) := by
  induction l with
  | nil => exact mapM_nil
  | cons a l ih =>
    rw [map_cons, mapM_cons, h a mem_cons_self, pure_bind,
      ih fun b hb => h b (mem_cons_of_mem _ hb), pure_bind, map_cons]

theorem orderedTrieRootAndProof_indexed (law : HashBuilderLaw enc) {items : List Bytes}
    (hlen : items.length ≤ 2 ^ 64) {root : B256} {proof : List Bytes}
    (h : orderedTrieRootAndProof enc items target = some (root, proof)) :
    ∃ m, Indexed m (fun i => items[i]?) ∧ root = mptRoot enc.keccak256 m := by
  obtain ⟨m, hm⟩ := exists_indexed items hlen
  refine ⟨m, hm, ?_⟩
  let leaf (i : Nat) : Nibbles × Bytes :=
    (itemKey (adjustIndexForRlp i items.length), items.getD (adjustIndexForRlp i items.length) [])
  have hget {i : Nat} (hi : i < items.length) :
      items[adjustIndexForRlp i items.length]? =
        some (items.getD (adjustIndexForRlp i items.length) []) := by
    have hlt := adjustIndexForRlp_lt hi
    rw [getD_eq_getElem _ _ hlt, getElem?_eq_getElem hlt]
  have hleaves : (((range items.length).map id).mapM fun i => do
      let index := adjustIndexForRlp i items.length
      let item ← items[index]?
      return (unpack (indexKey index), item)) = some ((range items.length).map leaf) := by
    refine mapM_map_eq_pure (M := Option) fun i hi => ?_
    rw [mem_range] at hi
    simp only [id_eq, hget hi]
    rfl
  rw [map_id] at hleaves
  unfold orderedTrieRootAndProof at h
  rw [hleaves] at h
  have hroot : root = (enc.hashBuilder ((range items.length).map leaf)
      (unpack (indexKey target))).1 := congrArg Prod.fst (Option.some.inj h).symm
  rw [hroot]
  refine law _ _ m ?_ hm.prefixFree fun k v => ?_
  · -- ascending keys
    rw [pairwise_map]
    refine List.Pairwise.imp_of_mem ?_ (pairwise_lt_range (n := items.length))
    intro i j hi hj hij
    rw [mem_range] at hi hj
    exact unpack_lt (encodeUint_lt
      (Nat.lt_of_lt_of_le (adjustIndexForRlp_lt hi) hlen)
      (Nat.lt_of_lt_of_le (adjustIndexForRlp_lt hj) hlen) (rlpRank_adjustIndexForRlp hij hj))
  rw [mem_map]
  constructor
  · intro hlookup
    obtain ⟨idx, hidx, rfl⟩ := hm.keys k (lookup_isSome.mp (by rw [hlookup]; rfl))
    rw [hm.items idx hidx] at hlookup
    obtain ⟨hlt, hitem⟩ := List.getElem?_eq_some_iff.mp hlookup
    obtain ⟨i, hi, hadjust⟩ := exists_adjustIndexForRlp hlt
    refine ⟨i, mem_range.mpr hi, ?_⟩
    change (itemKey (adjustIndexForRlp i items.length),
      items.getD (adjustIndexForRlp i items.length) []) = _
    rw [hadjust, getD_eq_getElem _ _ hlt, hitem]
  rintro ⟨i, hi, hleaf⟩
  rw [mem_range] at hi
  obtain ⟨rfl, rfl⟩ := Prod.mk.inj hleaf
  rw [hm.items _ (Nat.lt_of_lt_of_le (adjustIndexForRlp_lt hi) hlen), hget hi]

end Alloy

end Building
