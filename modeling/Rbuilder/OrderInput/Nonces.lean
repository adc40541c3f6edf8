/-
  The nonces that an order needs.

  A bundle needs for each signer the lowest nonce of its transactions, which is optional if
  that transaction is. There is one entry for each signer (`nodup_nonces`), and the entries say
  nothing but this (`bundleNonces_summarises`).
-/
import Rbuilder.OrderInput.Replacement
import Mathlib.Data.List.Sort

namespace OrderInput

open SparseMpt
open Building (Tx)

structure Nonce where
  nonce : UInt64
  address : Address
  optional : Bool
  deriving DecidableEq

/-- The entry of the signer, `and_modify` and `or_insert`. -/
def addNonce (nonces : List Nonce) (tx : Tx) (optional : Bool) : List Nonce :=
  if nonces.any (·.address == tx.signer) then
    nonces.map fun n =>
      if n.address = tx.signer ∧ n.nonce > tx.nonce then
        { n with nonce := tx.nonce, optional := optional }
      else n
  else nonces ++ [⟨tx.nonce, tx.signer, optional⟩]

def bundleNonces (txs : List (Tx × Bool)) : List Nonce :=
  let nonces := txs.foldl (fun nonces tx => addNonce nonces tx.1 tx.2) []
  nonces.insertionSort fun a b => ¬ b.address.toList < a.address.toList

def Order.nonces : Order → List Nonce
  | .bundle _ _ b => bundleNonces b.listTxs
  | .tx t => [⟨t.nonce, t.signer, false⟩]
  | .shareBundle _ _ b => bundleNonces b.innerBundle.listTxs

theorem addresses_addNonce (nonces : List Nonce) (tx : Tx) (optional : Bool) :
    (addNonce nonces tx optional).map Nonce.address =
      if tx.signer ∈ nonces.map Nonce.address then nonces.map Nonce.address
      else nonces.map Nonce.address ++ [tx.signer] := by
  unfold addNonce
  by_cases hmem : tx.signer ∈ nonces.map Nonce.address
  · have hany : nonces.any (·.address == tx.signer) = true := by
      obtain ⟨n, hn, haddress⟩ := List.mem_map.mp hmem
      exact List.any_eq_true.mpr ⟨n, hn, by simp [haddress]⟩
    rw [if_pos hany, if_pos hmem, List.map_map]
    refine List.map_congr_left fun n _ => ?_
    dsimp only [Function.comp_apply]
    split_ifs
    · rfl
    · rfl
  have hany : ¬ nonces.any (·.address == tx.signer) = true := by
    intro hany
    obtain ⟨n, hn, haddress⟩ := List.any_eq_true.mp hany
    exact hmem (List.mem_map.mpr ⟨n, hn, by simpa using haddress⟩)
  rw [if_neg hany, if_neg hmem, List.map_append]
  rfl

theorem nodup_bundleNonces (txs : List (Tx × Bool)) :
    ((bundleNonces txs).map Nonce.address).Nodup := by
  have hfold (nonces : List Nonce) (h : (nonces.map Nonce.address).Nodup) :
      ((txs.foldl (fun nonces tx => addNonce nonces tx.1 tx.2) nonces).map Nonce.address).Nodup := by
    induction txs generalizing nonces with
    | nil => exact h
    | cons tx txs ih =>
      refine ih _ ?_
      rw [addresses_addNonce]
      split_ifs with hmem
      · exact h
      · exact List.nodup_append.mpr ⟨h, List.nodup_singleton _, fun a ha b hb heq => hmem (by
          rw [← List.mem_singleton.mp hb, ← heq]
          exact ha)⟩
  exact ((List.perm_insertionSort ..).map _).nodup_iff.mpr (hfold [] List.nodup_nil)

/-- The entry of a signer: the lowest of its nonces, with the flag of the first transaction
    that has it. -/
def Summarises (txs : List (Tx × Bool)) (n : Nonce) : Prop :=
  (∀ e ∈ txs, e.1.signer = n.address → n.nonce ≤ e.1.nonce) ∧
    (txs.find? fun e => e.1.signer = n.address ∧ e.1.nonce = n.nonce).map Prod.snd =
      some n.optional

section

open List

variable {nonces : List Nonce} {tx : Tx} {optional : Bool} {n : Nonce} {txs : List (Tx × Bool)}

theorem mem_addNonce : n ∈ addNonce nonces tx optional ↔
    (n ∈ nonces ∧ ¬ (n.address = tx.signer ∧ n.nonce > tx.nonce)) ∨
      n = ⟨tx.nonce, tx.signer, optional⟩ ∧ (tx.signer ∈ nonces.map Nonce.address →
        ∃ m ∈ nonces, m.address = tx.signer ∧ m.nonce > tx.nonce) := by
  unfold addNonce
  split_ifs with hany
  · have hmem : tx.signer ∈ nonces.map Nonce.address := by simpa using hany
    simp only [hmem, true_imp_iff, mem_map]
    constructor
    · rintro ⟨m, hm, rfl⟩
      split_ifs with hlow
      · exact Or.inr ⟨by rw [hlow.1], m, hm, hlow⟩
      · exact Or.inl ⟨hm, hlow⟩
    · rintro (⟨hn, hlow⟩ | ⟨rfl, m, hm, hlow⟩)
      · exact ⟨n, hn, if_neg hlow⟩
      · exact ⟨m, hm, by rw [if_pos hlow, hlow.1]⟩
  · have hmem : tx.signer ∉ nonces.map Nonce.address := by simpa using hany
    have hne (hn : n ∈ nonces) : n.address ≠ tx.signer := fun h => hmem (h ▸ mem_map_of_mem hn)
    simp only [hmem, false_imp_iff, and_true, mem_append, mem_singleton]
    exact or_congr_left ⟨fun hn => ⟨hn, fun h => hne hn h.1⟩, And.left⟩

theorem summarises_append : Summarises (txs ++ [(tx, optional)]) n ↔
    (Summarises txs n ∧ ¬ (n.address = tx.signer ∧ n.nonce > tx.nonce)) ∨
      n = ⟨tx.nonce, tx.signer, optional⟩ ∧
        ∀ e ∈ txs, e.1.signer = tx.signer → tx.nonce < e.1.nonce := by
  obtain ⟨nonce, address, opt⟩ := n
  simp only [Summarises, find?_append, forall_mem_append, forall_mem_singleton,
    Nonce.mk.injEq, not_and, UInt64.not_lt, find?_singleton]
  cases hfind : txs.find? fun e => e.1.signer = address ∧ e.1.nonce = nonce with
  | some e =>
    have hmem := mem_of_find?_eq_some hfind
    have he : e.1.signer = address ∧ e.1.nonce = nonce := by simpa using find?_some hfind
    grind
  | none =>
    have hno : ∀ e ∈ txs, e.1.signer = address → e.1.nonce ≠ nonce := by
      simpa using hfind
    simp only [Option.map_none, reduceCtorEq, and_false, false_and, false_or, Option.none_or]
    grind

variable (txs : List (Tx × Bool))

/-- What the loop over the transactions has collected. -/
theorem mem_foldl_addNonce :
    let nonces := txs.foldl (fun nonces tx => addNonce nonces tx.1 tx.2) []
    (∀ a, a ∈ nonces.map Nonce.address ↔ a ∈ txs.map (·.1.signer)) ∧
      ∀ n, n ∈ nonces ↔ Summarises txs n := by
  induction txs using List.reverseRecOn with
  | nil => simp [Summarises]
  | append_singleton txs e ih =>
    obtain ⟨haddress, hmem⟩ := ih
    simp only [foldl_append, foldl_cons, foldl_nil]
    refine ⟨fun a => ?_, fun n => ?_⟩
    · simp only [addresses_addNonce, map_append, map_cons, map_nil, haddress]
      grind
    · rw [mem_addNonce, summarises_append, hmem, haddress]
      refine or_congr_right (and_congr_right fun _ => ⟨?_, ?_⟩)
      · intro hlow e' he' hsigner
        obtain ⟨m, hm, haddr, hlt⟩ := hlow (mem_map.mpr ⟨e', he', hsigner⟩)
        exact UInt64.lt_of_lt_of_le hlt (((hmem m).mp hm).1 e' he' (hsigner.trans haddr.symm))
      · intro hlow hold
        obtain ⟨m, hm, haddr⟩ := mem_map.mp ((haddress _).mpr hold)
        obtain ⟨e1, hfind, -⟩ := Option.map_eq_some_iff.mp ((hmem m).mp hm).2
        have h1 : e1.1.signer = m.address ∧ e1.1.nonce = m.nonce := by
          simpa using find?_some hfind
        exact ⟨m, hm, haddr, h1.2 ▸ hlow e1 (mem_of_find?_eq_some hfind) (h1.1.trans haddr)⟩

theorem pairwise_bundleNonces :
    (bundleNonces txs).Pairwise fun a b => a.address.toList < b.address.toList := by
  have htotal : Std.Total fun a b : Nonce => ¬ b.address.toList < a.address.toList :=
    ⟨fun a b => List.le_total a.address.toList b.address.toList⟩
  have htrans : IsTrans Nonce fun a b => ¬ b.address.toList < a.address.toList :=
    ⟨fun a b c (hab : a.address.toList ≤ b.address.toList) hbc => List.le_trans hab hbc⟩
  refine ((pairwise_insertionSort _ _).and (pairwise_map.mp (nodup_bundleNonces txs))).imp ?_
  rintro a b ⟨hle, hne⟩
  exact (List.le_iff_lt_or_eq.mp hle).resolve_right fun h => hne (Vector.toList_inj.mp h)

/-- `bundle_nonces` has one entry for each signer, sorted by address: the lowest nonce, with the
    flag of the first transaction that has it. The order of other transactions does not matter. -/
theorem bundleNonces_summarises :
    (bundleNonces txs).Pairwise (fun a b => a.address.toList < b.address.toList) ∧
    (∀ e ∈ txs, ∃ n ∈ bundleNonces txs, n.address = e.1.signer) ∧
    (∀ n, n ∈ bundleNonces txs ↔ Summarises txs n) ∧
    ∀ txs', txs.Perm txs' →
      (∀ a k, txs.filter (fun e => e.1.signer = a ∧ e.1.nonce = k) =
        txs'.filter fun e => e.1.signer = a ∧ e.1.nonce = k) →
      bundleNonces txs' = bundleNonces txs := by
  have hmem (txs) (n) : n ∈ bundleNonces txs ↔ Summarises txs n :=
    (mem_insertionSort _).trans ((mem_foldl_addNonce txs).2 n)
  refine ⟨pairwise_bundleNonces txs, ?_, hmem txs, ?_⟩
  · intro e he
    obtain ⟨n, hn, haddress⟩ := mem_map.mp
      (((mem_foldl_addNonce txs).1 e.1.signer).mpr (mem_map.mpr ⟨e, he, rfl⟩))
    exact ⟨n, (mem_insertionSort _).mpr hn, haddress⟩
  · intro txs' hperm hfilter
    have hsame (n) : n ∈ bundleNonces txs' ↔ n ∈ bundleNonces txs := by
      simp only [hmem, Summarises, ← head?_filter, hfilter, hperm.mem_iff]
    have hp := (perm_ext_iff_of_nodup (nodup_bundleNonces txs').of_map
      (nodup_bundleNonces txs).of_map).mpr hsame
    refine Perm.eq_of_pairwise ?_ (pairwise_bundleNonces txs') (pairwise_bundleNonces txs) hp
    exact fun a b _ _ hab hba => absurd hba (List.lt_asymm hab)

end

/-- An order needs one nonce of each signer. -/
theorem nodup_nonces (order : Order) : (order.nonces.map Nonce.address).Nodup := by
  cases order with
  | bundle uuid data bundle => exact nodup_bundleNonces _
  | tx t => exact List.nodup_singleton _
  | shareBundle hash data bundle => exact nodup_bundleNonces _

end OrderInput
