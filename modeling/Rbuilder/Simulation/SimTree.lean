/-
  The tree of simulations.

  `SimTree` hands out orders for simulation. An order that needs nonces above those of the
  chain waits until for each of them the result of some simulation updates just that nonce;
  the orders of that result go ahead of it as its parents.

  Nonces come from the state of the parent block, which may fail. A failed `expect` is a
  panic, and the error logs that report a bug of the tree are kept in `bugs`.
-/
import Rbuilder.OrderInput.Nonces

namespace Simulation

open SparseMpt
open Building (OrderId SimValue)
open OrderInput (Order Nonce)

structure NonceKey where
  address : Address
  nonce : UInt64
  deriving DecidableEq

structure PendingOrder where
  order : Order
  unsatisfiedNonces : Nat

abbrev SimulationId := UInt64

structure SimulationRequest where
  id : SimulationId
  order : Order
  parents : List Order

/-- `SimulatedOrder`, without the trace of the state it used. -/
structure SimulatedOrder where
  order : Order
  simValue : SimValue

/-- `SimulatedResult`, without the time it took. -/
structure SimulatedResult where
  id : SimulationId
  simulatedOrder : SimulatedOrder
  previousOrders : List Order
  noncesAfter : List NonceKey

inductive SimTreeBug where
  | orderNotFound
  | becameInvalid
  | becamePendingAgain

/-- `drawn` counts the random ids. -/
structure SimTree where
  sims : AList fun _ : SimulationId => SimulatedResult := ∅
  simsThatUpdateOneNonce : AList fun _ : NonceKey => SimulationId := ∅
  pendingOrders : AList fun _ : OrderId => PendingOrder := ∅
  pendingNonces : AList fun _ : NonceKey => List OrderId := ∅
  readyOrders : List SimulationRequest := []
  drawn : Nat := 0
  bugs : List SimTreeBug := []

inductive OrderNonceState where
  | invalid
  | pendingNonces (keys : List NonceKey)
  | ready (parents : List Order)

inductive Failure (ε : Type) where
  | provider (error : ε)
  | panic

/-- The nonces of the chain and the random ids. -/
structure Env (ε : Type) where
  nonces : Address → Except ε UInt64
  random : Nat → SimulationId

namespace SimTree

variable {ε : Type}

/-- The loop of `get_order_nonce_state`. -/
def nonceLoop (env : Env ε) (tree : SimTree) :
    List Nonce → List Address → List NonceKey → List Order → Except (Failure ε) OrderNonceState
  | [], _, pendingNonces, parentOrders =>
    .ok (if pendingNonces.isEmpty then .ready parentOrders else .pendingNonces pendingNonces)
  | nonce :: nonces, incremented, pendingNonces, parentOrders =>
    match env.nonces nonce.address with
    | .error e => .error (.provider e)
    | .ok onchainNonce =>
      if onchainNonce = nonce.nonce then
        nonceLoop env tree nonces (nonce.address :: incremented) pendingNonces parentOrders
      else if nonce.nonce < onchainNonce then
        if !nonce.optional then .ok .invalid
        else nonceLoop env tree nonces incremented pendingNonces parentOrders
      else if nonce.address ∈ incremented then
        nonceLoop env tree nonces incremented pendingNonces parentOrders
      else
        let nonceKey : NonceKey := ⟨nonce.address, nonce.nonce⟩
        match tree.simsThatUpdateOneNonce.lookup nonceKey with
        | some simId =>
          match tree.sims.lookup simId with
          | none => .error .panic
          | some sim =>
            nonceLoop env tree nonces (nonce.address :: incremented) pendingNonces
              (parentOrders ++ sim.previousOrders ++ [sim.simulatedOrder.order])
        | none =>
          nonceLoop env tree nonces (nonce.address :: incremented) (pendingNonces ++ [nonceKey])
            parentOrders

section

variable (env : Env ε) (tree : SimTree) (order : Order)

def getOrderNonceState : Except (Failure ε) OrderNonceState :=
  nonceLoop env tree order.nonces [] [] []

/-- A request with a random id. -/
def pushReady (parents : List Order) : SimTree :=
  { tree with
    readyOrders := tree.readyOrders ++ [⟨env.random tree.drawn, order, parents⟩]
    drawn := tree.drawn + 1 }

def pushPendingNonce (id : OrderId) (tree : SimTree) (nonce : NonceKey) : SimTree :=
  { tree with
    pendingNonces :=
      tree.pendingNonces.insert nonce ((tree.pendingNonces.lookup nonce).getD [] ++ [id]) }

def pushOrder : Except (Failure ε) Unit × SimTree :=
  if order.id ∈ tree.pendingOrders then (.ok (), tree)
  else
    match tree.getOrderNonceState env order with
    | .error e => (.error e, tree)
    | .ok .invalid => (.ok (), tree)
    | .ok (.pendingNonces pendingNonces) =>
      let tree := pendingNonces.foldl (pushPendingNonce order.id) tree
      (.ok (), { tree with
        pendingOrders := tree.pendingOrders.insert order.id ⟨order, pendingNonces.length⟩ })
    | .ok (.ready parents) => (.ok (), tree.pushReady env order parents)

end

/-- The loop of calls that stops at the first error. -/
def forEach {α : Type} (f : SimTree → α → Except (Failure ε) Unit × SimTree) :
    List α → SimTree → Except (Failure ε) Unit × SimTree
  | [], tree => (.ok (), tree)
  | a :: l, tree =>
    match f tree a with
    | (.error e, tree) => (.error e, tree)
    | (.ok _, tree) => forEach f l tree

def pushOrders (env : Env ε) (tree : SimTree) (orders : List Order) :
    Except (Failure ε) Unit × SimTree :=
  forEach (pushOrder env) orders tree

def popSimulationTasks (tree : SimTree) (limit : Nat) : List SimulationRequest × SimTree :=
  let limit := min limit tree.readyOrders.length
  (tree.readyOrders.take limit, { tree with readyOrders := tree.readyOrders.drop limit })

/-- `unsatisfied_nonces -= 1`, which wraps. -/
def decrement : Nat → Nat
  | 0 => 2 ^ 64 - 1
  | n + 1 => n

/-- One order that waited for the nonce. -/
def satisfyNonce (state : SimTree × List Order) (id : OrderId) : SimTree × List Order :=
  let (tree, ordersReady) := state
  match tree.pendingOrders.lookup id with
  | some pending =>
    let unsatisfiedNonces := decrement pending.unsatisfiedNonces
    if unsatisfiedNonces = 0 then
      ({ tree with pendingOrders := tree.pendingOrders.erase id }, ordersReady ++ [pending.order])
    else
      ({ tree with
        pendingOrders := tree.pendingOrders.insert id ⟨pending.order, unsatisfiedNonces⟩ }, ordersReady)
  | none => ({ tree with bugs := tree.bugs ++ [.orderNotFound] }, ordersReady)

section

variable (env : Env ε) (tree : SimTree)

/-- One order that has all its nonces. -/
def requestReady (order : Order) : Except (Failure ε) Unit × SimTree :=
  match tree.getOrderNonceState env order with
  | .error e => (.error e, tree)
  | .ok (.ready parents) => (.ok (), tree.pushReady env order parents)
  | .ok .invalid => (.ok (), { tree with bugs := tree.bugs ++ [.becameInvalid] })
  | .ok (.pendingNonces _) => (.ok (), { tree with bugs := tree.bugs ++ [.becamePendingAgain] })

def coinbaseProfit (result : SimulatedResult) : Nat :=
  result.simulatedOrder.simValue.fullProfitInfo.coinbaseProfit

/-- The result takes its nonce, if it is the first or a better one; the orders that are ready.
    `none` is a panic. -/
def recordResult (tree : SimTree) (result : SimulatedResult) : Option (SimTree × List Order) :=
  match result.noncesAfter with
  | [updatedNonce] =>
    match tree.simsThatUpdateOneNonce.lookup updatedNonce with
    | some simId =>
      match tree.sims.lookup simId with
      | none => none
      | some sim =>
        if coinbaseProfit result > coinbaseProfit sim then
          some ({ tree with
            simsThatUpdateOneNonce := tree.simsThatUpdateOneNonce.insert updatedNonce result.id }, [])
        else some (tree, [])
    | none =>
      let tree := { tree with
        simsThatUpdateOneNonce := tree.simsThatUpdateOneNonce.insert updatedNonce result.id }
      match tree.pendingNonces.lookup updatedNonce with
      | some pendingOrders =>
        let tree := { tree with pendingNonces := tree.pendingNonces.erase updatedNonce }
        some (pendingOrders.foldl satisfyNonce (tree, []))
      | none => some (tree, [])
  | _ => some (tree, [])

def processSimulationTaskResult (result : SimulatedResult) : Except (Failure ε) Unit × SimTree :=
  let tree := { tree with sims := tree.sims.insert result.id result }
  match tree.recordResult result with
  | none => (.error .panic, tree)
  | some (tree, ordersReady) => forEach (requestReady env) ordersReady tree

def submitSimulationTasksResults (results : List SimulatedResult) :
    Except (Failure ε) Unit × SimTree :=
  forEach (processSimulationTaskResult env) results tree

end

end SimTree

end Simulation
