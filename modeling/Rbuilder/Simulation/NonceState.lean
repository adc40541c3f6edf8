/-
  What an order waits for.

  The nonces of an order that are above those of the chain do not depend on the tree
  (`neededKeys`). An order is pending on those of them that no result updates yet, and ready
  if there are none (`getOrderNonceState_of_needs`).
-/
import Rbuilder.Simulation.SimTree

namespace Simulation

open SparseMpt
open OrderInput (Order Nonce)
open List

variable {ε : Type}

/-- The nonces above those of the chain, `none` if a mandatory one is below. -/
def neededKeys (env : Env ε) : List Nonce → Except ε (Option (List NonceKey))
  | [] => .ok (some [])
  | nonce :: nonces =>
    match env.nonces nonce.address with
    | .error e => .error e
    | .ok onchainNonce =>
      if onchainNonce = nonce.nonce then neededKeys env nonces
      else if nonce.nonce < onchainNonce then
        if !nonce.optional then .ok none else neededKeys env nonces
      else (neededKeys env nonces).map (Option.map (⟨nonce.address, nonce.nonce⟩ :: ·))

def needs (env : Env ε) (order : Order) : Except ε (Option (List NonceKey)) :=
  neededKeys env order.nonces

/-- A mandatory nonce of the order is below that of the chain. -/
def BelowChain (env : Env ε) (order : Order) : Prop :=
  ∃ nonce ∈ order.nonces, nonce.optional = false ∧
    ∃ onchainNonce, env.nonces nonce.address = .ok onchainNonce ∧ nonce.nonce < onchainNonce

namespace SimTree

/-- No recorded result has been deleted. -/
def SimsKept (tree : SimTree) : Prop :=
  ∀ key simId, tree.simsThatUpdateOneNonce.lookup key = some simId → simId ∈ tree.sims

/-- The keys that no result updates yet. -/
def waiting (tree : SimTree) (keys : List NonceKey) : List NonceKey :=
  keys.filter fun key => key ∉ tree.simsThatUpdateOneNonce

theorem mem_waiting {tree : SimTree} {keys : List NonceKey} {key : NonceKey} :
    key ∈ tree.waiting keys ↔ key ∈ keys ∧ key ∉ tree.simsThatUpdateOneNonce := by
  simp [waiting]

end SimTree

variable {env : Env ε} {keys : List NonceKey} {order : Order}

theorem map_map_eq_ok {α β : Type} {x : Except ε (Option α)} {f : α → β} {y : Option β} :
    x.map (Option.map f) = .ok y ↔ ∃ z, x = .ok z ∧ z.map f = y := by
  cases x <;> simp [Except.map]

theorem address_mem_of_neededKeys {nonces : List Nonce}
    (h : neededKeys env nonces = .ok (some keys)) :
    (keys.map NonceKey.address).Sublist (nonces.map Nonce.address) := by
  fun_induction neededKeys env nonces generalizing keys with
  | case1 =>
    cases h
    exact List.Sublist.slnil
  | case2 => cases h
  | case3 _ _ _ ih => exact (ih h).cons _
  | case4 => cases h
  | case5 _ _ _ _ _ _ _ ih => exact (ih h).cons _
  | case6 _ _ _ _ _ _ ih =>
    obtain ⟨needed, hrest, hkeys⟩ := map_map_eq_ok.mp h
    obtain ⟨rest, rfl, rfl⟩ := Option.map_eq_some_iff.mp hkeys
    exact (ih hrest).cons_cons _

theorem nodup_of_needs (h : needs env order = .ok (some keys)) : keys.Nodup :=
  List.Nodup.of_map _ ((address_mem_of_neededKeys h).nodup (OrderInput.nodup_nonces order))

theorem belowChain_of_needs (h : needs env order = .ok none) : BelowChain env order := by
  unfold needs at h
  unfold BelowChain
  generalize order.nonces = nonces at h ⊢
  fun_induction neededKeys env nonces with
  | case1 | case2 => cases h
  | case3 _ _ _ ih => exact (ih h).imp fun n hn => ⟨mem_cons_of_mem _ hn.1, hn.2⟩
  | case4 nonce _ onchainNonce hnonce _ hlt hoptional =>
    exact ⟨nonce, mem_cons_self, by simpa using hoptional, onchainNonce, hnonce, hlt⟩
  | case5 _ _ _ _ _ _ _ ih => exact (ih h).imp fun n hn => ⟨mem_cons_of_mem _ hn.1, hn.2⟩
  | case6 _ _ _ _ _ _ ih =>
    obtain ⟨needed, hrest, hnone⟩ := map_map_eq_ok.mp h
    rw [Option.map_eq_none_iff.mp hnone] at hrest
    exact (ih hrest).imp fun n hn => ⟨mem_cons_of_mem _ hn.1, hn.2⟩

namespace SimTree

/-- The orders of the results that update the keys. -/
def parentsOf (tree : SimTree) (keys : List NonceKey) : List Order :=
  keys.flatMap fun key =>
    match (tree.simsThatUpdateOneNonce.lookup key).bind tree.sims.lookup with
    | some sim => sim.previousOrders ++ [sim.simulatedOrder.order]
    | none => []

/-- The state of an order that needs the keys. -/
def stateOf (tree : SimTree) (keys : List NonceKey) : OrderNonceState :=
  if (tree.waiting keys).isEmpty then .ready (tree.parentsOf keys)
  else .pendingNonces (tree.waiting keys)

variable {env : Env ε} {tree : SimTree}

theorem nonceLoop_eq (hsims : tree.SimsKept) (nonces : List Nonce)
    (hnodup : (nonces.map Nonce.address).Nodup) (incremented : List Address)
    (hfresh : ∀ nonce ∈ nonces, nonce.address ∉ incremented) (pending : List NonceKey)
    (parents : List Order) :
    nonceLoop env tree nonces incremented pending parents =
      match neededKeys env nonces with
      | .error e => .error (.provider e)
      | .ok none => .ok .invalid
      | .ok (some keys) =>
        .ok (if (pending ++ tree.waiting keys).isEmpty then .ready (parents ++ tree.parentsOf keys)
          else .pendingNonces (pending ++ tree.waiting keys)) := by
  induction nonces generalizing incremented pending parents with
  | nil => simp [nonceLoop, neededKeys, waiting, parentsOf]
  | cons nonce nonces ih =>
    obtain ⟨hhead, htail⟩ := nodup_cons.mp hnodup
    have hrest : ∀ n ∈ nonces, n.address ∉ incremented := fun n hn =>
      hfresh n (mem_cons_of_mem _ hn)
    have hrest' : ∀ n ∈ nonces, n.address ∉ nonce.address :: incremented := by
      intro n hn hmem
      rcases mem_cons.mp hmem with heq | hmem
      · exact hhead (mem_map.mpr ⟨n, hn, heq⟩)
      · exact hrest n hn hmem
    unfold nonceLoop neededKeys
    cases env.nonces nonce.address with
    | error e => rfl
    | ok onchainNonce =>
      dsimp only
      by_cases heq : onchainNonce = nonce.nonce
      · rw [if_pos heq, if_pos heq]
        exact ih htail _ hrest' ..
      rw [if_neg heq, if_neg heq]
      by_cases hlt : nonce.nonce < onchainNonce
      · rw [if_pos hlt, if_pos hlt]
        by_cases hoptional : (!nonce.optional) = true
        · rw [if_pos hoptional, if_pos hoptional]
        · rw [if_neg hoptional, if_neg hoptional]
          exact ih htail _ hrest ..
      rw [if_neg hlt, if_neg hlt, if_neg (hfresh nonce mem_cons_self)]
      cases hlookup : tree.simsThatUpdateOneNonce.lookup ⟨nonce.address, nonce.nonce⟩ with
      | none =>
        -- the key is waited for
        have habsent := AList.lookup_eq_none.mp hlookup
        rw [ih htail _ hrest' ..]
        rcases neededKeys env nonces with e | _ | keys
        · rfl
        · rfl
        · simp [Except.map, waiting, habsent]
      | some simId =>
        -- the key is updated by a recorded result
        have hpresent : (⟨nonce.address, nonce.nonce⟩ : NonceKey) ∈ tree.simsThatUpdateOneNonce :=
          AList.mem_of_lookup hlookup
        obtain ⟨sim, hsim⟩ := AList.exists_lookup (hsims _ _ hlookup)
        simp only [hsim]
        rw [ih htail _ hrest' ..]
        rcases neededKeys env nonces with e | _ | keys
        · rfl
        · rfl
        · simp [Except.map, waiting, parentsOf, hpresent, hlookup, hsim]

/-- `get_order_nonce_state` in terms of what the order needs; it does not panic. -/
theorem getOrderNonceState_eq (hsims : tree.SimsKept) (order : Order) :
    tree.getOrderNonceState env order =
      match needs env order with
      | .error e => .error (.provider e)
      | .ok none => .ok .invalid
      | .ok (some keys) => .ok (tree.stateOf keys) := by
  unfold getOrderNonceState
  rw [nonceLoop_eq hsims _ (OrderInput.nodup_nonces order) [] (by simp) [] []]
  rfl

end SimTree

/-! ### Example -/

/-- A transaction with the nonce. -/
def txWithNonce (nonce : UInt64) : Order :=
  .tx { hash := .replicate 32 nonce.toUInt8, signer := .replicate 20 1, toAddress := none,
        nonce := nonce, gasLimit := 21000, maxFeePerGas := 1, maxPriorityFeePerGas := 1, value := 0,
        txType := .legacy, length := 100, encoding := [] }

/-- A chain where every nonce is zero. -/
def newChain : Env Unit := ⟨fun _ => .ok 0, fun n => n.toUInt64⟩

/-- The second transaction of a signer waits for the first one. -/
example : needs newChain (txWithNonce 1) = .ok (some [⟨.replicate 20 1, 1⟩]) := rfl

end Simulation
