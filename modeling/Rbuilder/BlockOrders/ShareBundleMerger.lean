/-
  Merging of the share bundles of one user, from `block_orders/share_bundle_merger.rs` and
  `block_orders/multi_share_bundle_merger.rs`.

  Managers and sinks are shared by reference: they are cells of a `World`, and a merger
  holds the positions of its managers and of its sink. Of a sink the calls it got are kept;
  what it returns for a removal is an argument.

  A `ShareBundleMerger` inside a `MultiShareBundleMerger` is referred to by it alone, so it
  is a plain value.
-/
import Rbuilder.BlockOrders.ShareBundle
import Rbuilder.HashMap

namespace BlockOrders.Merging

open SparseMpt
open Building (OrderId ShareBundleInner ShareBundleBody)

/-- The calls of `SimulatedOrderSink`, which the mergers implement as well. -/
inductive SinkCall where
  | insertOrder (order : SimulatedOrder)
  | removeOrder (id : OrderId)

/-! ## All orders that backrun a user's bundle -/

structure MultiBackrunManager where
  lastMultiOrderId : Option OrderId := none
  userBundleHash : B256
  sortedOrders : SortedMap SortKey BrokenDownShareBundle := .empty
  orderKickbacks : AList fun _ : OrderId => Nat := ∅
  orderSink : Nat

/-- The bundle as an item that may be skipped. -/
def skippable (inner : ShareBundleInner) (originalOrderId : OrderId) : ShareBundleBody :=
  match inner with
  | .mk body refund refundConfig _ _ =>
    .bundle (.mk body refund refundConfig true (some originalOrderId))

/-- The items of the merged bundle. -/
def mergedBody (orders : List BrokenDownShareBundle) : List ShareBundleBody :=
  orders.filterMap fun b => b.sbundle.map fun sbundle => skippable sbundle.innerBundle b.simOrder.id

def originalOrders (orders : List BrokenDownShareBundle) : List Order :=
  orders.filterMap fun b => b.sbundle.map fun _ => b.simOrder.order

/-- The body of `merge_orders`, for the values of `sorted_orders`. -/
def mergeValues (keccak : Bytes → B256) (orders : List BrokenDownShareBundle) :
    Option SimulatedOrder :=
  match orders.head? with
  | none => none
  | some highestPaybackOrder =>
    match highestPaybackOrder.sbundle with
    | none => none
    | some bundle =>
      let innerBundle := ShareBundleInner.mk (mergedBody orders) [] [] false none
      let sbundle := ShareBundle.new keccak bundle.block bundle.maxBlock innerBundle bundle.signer
        none (originalOrders orders)
      some ⟨.shareBundle sbundle, highestPaybackOrder.simOrder.simValue⟩

namespace MultiBackrunManager

def new (userBundleHash : B256) (orderSink : Nat) : MultiBackrunManager :=
  { userBundleHash, orderSink }

def cloneWithSink (manager : MultiBackrunManager) (orderSink : Nat) : MultiBackrunManager :=
  { manager with orderSink }

variable (keccak : Bytes → B256)

section

variable (manager : MultiBackrunManager)

def mergeOrders : Option SimulatedOrder := mergeValues keccak manager.sortedOrders.values

/-- The manager and its calls to the sink. -/
def regenerateMultiOrder : MultiBackrunManager × List SinkCall :=
  let removed := manager.lastMultiOrderId.toList.map SinkCall.removeOrder
  if manager.sortedOrders.entries.isEmpty then ({ manager with lastMultiOrderId := none }, removed)
  else
    match manager.mergeOrders keccak with
    | none => (manager, removed)
    | some mergedOrder =>
      ({ manager with lastMultiOrderId := some mergedOrder.id },
        removed ++ [SinkCall.insertOrder mergedOrder])

def insertOrder (order : BrokenDownShareBundle) : MultiBackrunManager × List SinkCall :=
  if order.simOrder.id ∈ manager.orderKickbacks then (manager, [])
  else
    regenerateMultiOrder keccak { manager with
      orderKickbacks := manager.orderKickbacks.insert order.simOrder.id order.userKickback
      sortedOrders := manager.sortedOrders.insert (SortKey.new order) order }

def removeOrder (id : OrderId) : Option SimulatedOrder × MultiBackrunManager × List SinkCall :=
  match manager.orderKickbacks.lookup id with
  | none => (none, manager, [])
  | some userKickback =>
    match manager.sortedOrders.remove ⟨id, userKickback⟩ with
    | (some order, sortedOrders) =>
      let manager := { manager with orderKickbacks := manager.orderKickbacks.erase id, sortedOrders }
      (some order.simOrder, regenerateMultiOrder keccak manager)
    | (none, sortedOrders) =>
      (none, { manager with orderKickbacks := manager.orderKickbacks.erase id, sortedOrders }, [])

end

end MultiBackrunManager

/-! ## Cells -/

structure World where
  managers : List MultiBackrunManager := []
  sinks : List (List SinkCall) := []

namespace World

def send (w : World) (sink : Nat) (calls : List SinkCall) : World :=
  { w with sinks := w.sinks.modify sink (· ++ calls) }

/-- The manager is replaced, after it has made the calls to its sink. -/
def store (w : World) (pointer : Nat) (manager : MultiBackrunManager) (calls : List SinkCall) :
    World :=
  { w with managers := w.managers.set pointer manager }.send manager.orderSink calls

/-- `Rc::new`: the cell is the next one. -/
def alloc (w : World) (manager : MultiBackrunManager) : World :=
  { w with managers := w.managers ++ [manager] }

def newSink (w : World) : World := { w with sinks := w.sinks ++ [[]] }

end World

/-- What is not in the source: the hash, and what a sink that got some calls returns when an
    order is removed. -/
structure Env where
  keccak256 : Bytes → B256
  removed : List SinkCall → OrderId → Option SimulatedOrder

/-! ## The merger -/

structure ShareBundleMerger where
  multiBackrunManagers : AList fun _ : B256 => Nat := ∅
  orderId2MultiBackrunManagers : AList fun _ : OrderId => Nat := ∅
  orderSink : Nat

namespace ShareBundleMerger

def new (orderSink : Nat) : ShareBundleMerger := { orderSink }

/-- `entry(..).or_insert(..)`. -/
def handler (w : World) (merger : ShareBundleMerger) (userBundleHash : B256) :
    Nat × World × ShareBundleMerger :=
  match merger.multiBackrunManagers.lookup userBundleHash with
  | some pointer => (pointer, w, merger)
  | none =>
    (w.managers.length, w.alloc (.new userBundleHash merger.orderSink),
      { merger with
        multiBackrunManagers := merger.multiBackrunManagers.insert userBundleHash w.managers.length })

/-- The id leads to the manager from now on. -/
def setRoute (merger : ShareBundleMerger) (id : OrderId) (pointer : Nat) : ShareBundleMerger :=
  { merger with
    orderId2MultiBackrunManagers := merger.orderId2MultiBackrunManagers.insert id pointer }

def insertOrder (env : Env) (w : World) (merger : ShareBundleMerger) (order : SimulatedOrder) :
    World × ShareBundleMerger :=
  match breakDownBundle env.keccak256 order with
  | none => (w.send merger.orderSink [.insertOrder order], merger)
  | some brokenDown =>
    let (pointer, w, merger) := merger.handler w brokenDown.userBundleHash
    match w.managers[pointer]? with
    | none => (w, merger.setRoute order.id pointer)
    | some manager =>
      let (manager, calls) := manager.insertOrder env.keccak256 brokenDown
      (w.store pointer manager calls, merger.setRoute order.id pointer)

/-- The maps of the merger stay as they are. -/
def removeOrder (env : Env) (w : World) (merger : ShareBundleMerger) (id : OrderId) :
    Option SimulatedOrder × World :=
  match merger.orderId2MultiBackrunManagers.lookup id with
  | none =>
    (env.removed ((w.sinks[merger.orderSink]?).getD []) id, w.send merger.orderSink [.removeOrder id])
  | some pointer =>
    match w.managers[pointer]? with
    | none => (none, w)
    | some manager =>
      let (order, manager, calls) := manager.removeOrder env.keccak256 id
      (order, w.store pointer manager calls)

def call (env : Env) (state : World × ShareBundleMerger) : SinkCall → World × ShareBundleMerger
  | .insertOrder order => state.2.insertOrder env state.1 order
  | .removeOrder id => ((state.2.removeOrder env state.1 id).2, state.2)

/-- One round of the loop: the manager is cloned, but its ids go to the manager itself. -/
def cloneManager (orderSink : Nat) (state : World × ShareBundleMerger)
    (entry : Sigma fun _ : B256 => Nat) : World × ShareBundleMerger :=
  match state.1.managers[entry.2]? with
  | none => state
  | some manager =>
    (state.1.alloc (manager.cloneWithSink orderSink),
      { state.2 with
        multiBackrunManagers := state.2.multiBackrunManagers.insert entry.1 state.1.managers.length
        orderId2MultiBackrunManagers := manager.sortedOrders.entries.foldl
          (fun ids order => ids.insert order.1.orderId entry.2)
          state.2.orderId2MultiBackrunManagers })

def cloneWithSink (hashOrder : HashOrder) (w : World) (merger : ShareBundleMerger)
    (orderSink : Nat) : World × ShareBundleMerger :=
  (hashOrder.order merger.multiBackrunManagers.entries).foldl (cloneManager orderSink)
    (w, new orderSink)

end ShareBundleMerger

/-! ## One merger for each signer -/

structure MultiShareBundleMerger where
  signersMergers : AList fun _ : Address => ShareBundleMerger := ∅
  fallbackMerger : ShareBundleMerger
  insertedOrdersSigners : AList fun _ : OrderId => Option Address := ∅

namespace MultiShareBundleMerger

def new (signers : List Address) (orderSink : Nat) : MultiShareBundleMerger :=
  { signersMergers := signers.foldl (fun mergers signer => mergers.insert signer (.new orderSink)) ∅
    fallbackMerger := .new orderSink }

def getMerger (m : MultiShareBundleMerger) (signer : Option Address) : ShareBundleMerger :=
  match signer with
  | some signer => (m.signersMergers.lookup signer).getD m.fallbackMerger
  | none => m.fallbackMerger

/-- The merger that `getMerger` finds has been changed in place. -/
def setMerger (m : MultiShareBundleMerger) (signer : Option Address) (merger : ShareBundleMerger) :
    MultiShareBundleMerger :=
  match signer with
  | none => { m with fallbackMerger := merger }
  | some signer =>
    if signer ∈ m.signersMergers then
      { m with signersMergers := m.signersMergers.insert signer merger }
    else { m with fallbackMerger := merger }

def insertOrder (env : Env) (w : World) (m : MultiShareBundleMerger) (order : SimulatedOrder) :
    World × MultiShareBundleMerger :=
  let signer := order.order.signer
  let m := { m with insertedOrdersSigners := m.insertedOrdersSigners.insert order.id signer }
  let (w, merger) := (m.getMerger signer).insertOrder env w order
  (w, m.setMerger signer merger)

def removeOrder (env : Env) (w : World) (m : MultiShareBundleMerger) (id : OrderId) :
    Option SimulatedOrder × World :=
  match m.insertedOrdersSigners.lookup id with
  | some signer => (m.getMerger signer).removeOrder env w id
  | none => (none, w)

def cloneMerger (hashOrder : HashOrder) (orderSink : Nat)
    (state : World × AList fun _ : Address => ShareBundleMerger)
    (entry : Sigma fun _ : Address => ShareBundleMerger) :
    World × AList fun _ : Address => ShareBundleMerger :=
  let (w, merger) := entry.2.cloneWithSink hashOrder state.1 orderSink
  (w, state.2.insert entry.1 merger)

def cloneWithSink (hashOrder : HashOrder) (w : World) (m : MultiShareBundleMerger)
    (orderSink : Nat) : World × MultiShareBundleMerger :=
  let (w, signersMergers) := (hashOrder.order m.signersMergers.entries).foldl
    (cloneMerger hashOrder orderSink) (w, ∅)
  let (w, fallbackMerger) := m.fallbackMerger.cloneWithSink hashOrder w orderSink
  (w, { signersMergers, fallbackMerger, insertedOrdersSigners := m.insertedOrdersSigners })

end MultiShareBundleMerger

end BlockOrders.Merging
