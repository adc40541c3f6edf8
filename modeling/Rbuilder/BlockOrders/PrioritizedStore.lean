/-
  The store of orders of a block.

  `PrioritizedOrderStore` keeps the orders that can be executed in a priority queue, and the
  others by the nonces they wait for. Removed orders stay in the lists of those that wait.

  A failed `expect` is an error. The order in which a hash set is iterated is an argument.
-/
import Rbuilder.PriorityQueue
import Rbuilder.Simulation.SimTree
import Mathlib.Data.Finset.Basic

namespace BlockOrders

open SparseMpt
open Building (OrderId)
open OrderInput (Order Nonce)
open Simulation (SimulatedOrder)

structure AccountNonce where
  nonce : UInt64
  account : Address
  deriving DecidableEq

structure OrderStatistics where
  txCount : Int32 := 0
  bundleCount : Int32 := 0
  sbundleCount : Int32 := 0
  deriving DecidableEq

def OrderStatistics.add (statistics : OrderStatistics) : Order → OrderStatistics
  | .bundle _ _ _ => { statistics with bundleCount := statistics.bundleCount + 1 }
  | .tx _ => { statistics with txCount := statistics.txCount + 1 }
  | .shareBundle _ _ _ => { statistics with sbundleCount := statistics.sbundleCount + 1 }

def OrderStatistics.remove (statistics : OrderStatistics) : Order → OrderStatistics
  | .bundle _ _ _ => { statistics with bundleCount := statistics.bundleCount - 1 }
  | .tx _ => { statistics with txCount := statistics.txCount - 1 }
  | .shareBundle _ _ _ => { statistics with sbundleCount := statistics.sbundleCount - 1 }

/-- The part of the trait that the store uses. -/
class OrderPriority (π : Type) extends LinearOrder π where
  new : SimulatedOrder → π

structure PrioritizedOrderStore (π : Type) where
  mainQueue : PriorityQueue OrderId π := .new
  mainQueueNonces : AList fun _ : Address => List OrderId := ∅
  onchainNonces : AList fun _ : Address => UInt64 := ∅
  pendingOrders : AList fun _ : AccountNonce => List OrderId := ∅
  orders : AList fun _ : OrderId => SimulatedOrder := ∅
  ordersStatistics : OrderStatistics := {}

/-- An iteration of a hash set. -/
structure Iteration where
  toList : Finset OrderId → List OrderId
  nodup : ∀ ids, (toList ids).Nodup
  mem_iff : ∀ ids id, id ∈ toList ids ↔ id ∈ ids

instance : Nonempty Iteration := ⟨Finset.toList, Finset.nodup_toList, fun _ _ => Finset.mem_toList⟩

/-- `order from prio queue not found in block orders` -/
inductive Panic where
  | orderNotFound

namespace PrioritizedOrderStore

variable {π : Type}

def new (initialOnchainNonces : List AccountNonce) : PrioritizedOrderStore π :=
  { onchainNonces := initialOnchainNonces.foldl (fun m n => m.insert n.account n.nonce) ∅ }

def onchainNonce (store : PrioritizedOrderStore π) (address : Address) : UInt64 :=
  (store.onchainNonces.lookup address).getD 0

/-- Removes from `orders` and updates statistics. -/
def removeFromOrders (store : PrioritizedOrderStore π) (id : OrderId) :
    Option SimulatedOrder × PrioritizedOrderStore π :=
  match store.orders.lookup id with
  | none => (none, store)
  | some simOrder =>
    (some simOrder, { store with
      orders := store.orders.erase id
      ordersStatistics := store.ordersStatistics.remove simOrder.order })

/-- `retain` on the list of the address, if there is one. -/
def retainOthers (id : OrderId) (lists : AList fun _ : Address => List OrderId) (nonce : Nonce) :
    AList fun _ : Address => List OrderId :=
  match lists.lookup nonce.address with
  | none => lists
  | some ids => lists.insert nonce.address (ids.filter (· ≠ id))

/-- Clean up after some order was removed from `mainQueue`. -/
def removePopedOrder (store : PrioritizedOrderStore π) (id : OrderId) :
    Option SimulatedOrder × PrioritizedOrderStore π :=
  match store.removeFromOrders id with
  | (none, store) => (none, store)
  | (some simOrder, store) =>
    (some simOrder, { store with
      mainQueueNonces :=
        simOrder.order.nonces.foldl (retainOthers simOrder.order.id) store.mainQueueNonces })

def popOrder [OrderPriority π] (store : PrioritizedOrderStore π) (tie : Nat) :
    Except Panic (Option SimulatedOrder × PrioritizedOrderStore π) :=
  match store.mainQueue.pop tie with
  | (none, _) => .ok (none, store)
  | (some (id, _), mainQueue) =>
    match { store with mainQueue := mainQueue }.removePopedOrder id with
    | (none, _) => .error .orderNotFound
    | (some order, store) => .ok (some order, store)

/-- The nonces to wait for, `none` if a mandatory one has passed. -/
def pendingNonces (store : PrioritizedOrderStore π) : List Nonce → Option (List AccountNonce)
  | [] => some []
  | nonce :: nonces =>
    let onchainNonce := store.onchainNonce nonce.address
    if onchainNonce > nonce.nonce ∧ !nonce.optional then none
    else
      (store.pendingNonces nonces).map fun pending =>
        if onchainNonce < nonce.nonce ∧ !nonce.optional then ⟨nonce.nonce, nonce.address⟩ :: pending
        else pending

def pushMainQueueNonce (id : OrderId) (lists : AList fun _ : Address => List OrderId)
    (nonce : Nonce) : AList fun _ : Address => List OrderId :=
  lists.insert nonce.address ((lists.lookup nonce.address).getD [] ++ [id])

def pushPending (id : OrderId) (lists : AList fun _ : AccountNonce => List OrderId)
    (pendingNonce : AccountNonce) : AList fun _ : AccountNonce => List OrderId :=
  let pending := (lists.lookup pendingNonce).getD []
  lists.insert pendingNonce (if id ∈ pending then pending else pending ++ [id])

def insertOrder [OrderPriority π] (store : PrioritizedOrderStore π) (simOrder : SimulatedOrder) :
    PrioritizedOrderStore π :=
  if simOrder.order.id ∈ store.orders then store
  else
    match store.pendingNonces simOrder.order.nonces with
    -- order can't be included because of nonce
    | none => store
    | some pendingNonces =>
      let store :=
        if pendingNonces.isEmpty then
          { store with
            mainQueue := store.mainQueue.push simOrder.order.id (OrderPriority.new simOrder)
            mainQueueNonces :=
              simOrder.order.nonces.foldl (pushMainQueueNonce simOrder.order.id) store.mainQueueNonces }
        else
          { store with
            pendingOrders :=
              pendingNonces.foldl (pushPending simOrder.order.id) store.pendingOrders }
      { store with
        ordersStatistics := store.ordersStatistics.add simOrder.order
        orders := store.orders.insert simOrder.order.id simOrder }

def removeOrder (store : PrioritizedOrderStore π) (id : OrderId) :
    Option SimulatedOrder × PrioritizedOrderStore π :=
  -- we don't remove from pending because pending will clean itself
  if (store.mainQueue.lookup id).isSome then
    ({ store with mainQueue := store.mainQueue.remove id }.removePopedOrder id).2.removeFromOrders id
  else store.removeFromOrders id

/-- The new nonce of an account: its orders of the main queue have to be checked. -/
def setNonce (state : PrioritizedOrderStore π × Finset OrderId) (newNonce : AccountNonce) :
    PrioritizedOrderStore π × Finset OrderId :=
  let (store, invalidatedOrders) := state
  let store :=
    { store with onchainNonces := store.onchainNonces.insert newNonce.account newNonce.nonce }
  match store.mainQueueNonces.lookup newNonce.account with
  | none => (store, invalidatedOrders)
  | some orders =>
    ({ store with mainQueueNonces := store.mainQueueNonces.erase newNonce.account },
      orders.foldl (fun ids id => insert id ids) invalidatedOrders)

/-- `valid && valid_nonces > 0` -/
def retainOrder (store : PrioritizedOrderStore π) : List Nonce → Nat → Bool
  | [], validNonces => validNonces > 0
  | nonce :: nonces, validNonces =>
    let onchainNonce := store.onchainNonce nonce.address
    if onchainNonce > nonce.nonce ∧ !nonce.optional then false
    else if onchainNonce = nonce.nonce then store.retainOrder nonces (validNonces + 1)
    else store.retainOrder nonces validNonces

/-- An order of the main queue is inserted again if it can still be valid. -/
def checkInvalidated [OrderPriority π] (store : PrioritizedOrderStore π) (id : OrderId) :
    Except Panic (PrioritizedOrderStore π) :=
  match { store with mainQueue := store.mainQueue.remove id }.removePopedOrder id with
  | (none, _) => .error .orderNotFound
  | (some order, store) =>
    .ok (if store.retainOrder order.order.nonces 0 then store.insertOrder order else store)

/-- `filter_map` of `removeFromOrders`. -/
def removeAllFromOrders : List OrderId → PrioritizedOrderStore π →
    List SimulatedOrder × PrioritizedOrderStore π
  | [], store => ([], store)
  | id :: ids, store =>
    let (order, store) := store.removeFromOrders id
    let (orders, store) := removeAllFromOrders ids store
    (order.toList ++ orders, store)

/-- The orders that wait for the nonce are inserted again. -/
def insertPending [OrderPriority π] (store : PrioritizedOrderStore π) (newNonce : AccountNonce) :
    PrioritizedOrderStore π :=
  match store.pendingOrders.lookup newNonce with
  | none => store
  | some pending =>
    let (orders, store) := removeAllFromOrders pending
      { store with pendingOrders := store.pendingOrders.erase newNonce }
    orders.foldl insertOrder store

def checkAll [OrderPriority π] : List OrderId → PrioritizedOrderStore π →
    Except Panic (PrioritizedOrderStore π)
  | [], store => .ok store
  | id :: ids, store =>
    match store.checkInvalidated id with
    | .error e => .error e
    | .ok store => checkAll ids store

def updateOnchainNonces [OrderPriority π] (iteration : Iteration)
    (store : PrioritizedOrderStore π) (newNonces : List AccountNonce) :
    Except Panic (PrioritizedOrderStore π) :=
  let (store, invalidatedOrders) := newNonces.foldl setNonce (store, ∅)
  match checkAll (iteration.toList invalidatedOrders) store with
  | .error e => .error e
  | .ok store => .ok (newNonces.foldl insertPending store)

end PrioritizedOrderStore

end BlockOrders
