/-
  Groups of conflicting orders, from `parallel_builder/groups.rs`.

  `ConflictFinder` keeps the groups of the orders that conflict with each other. For every
  slot, balance and contract that orders use, an index lists the groups that use it. A new
  order is looked up there and combined with the groups it conflicts with: with one group
  under the id of that group, with several under a new id.

  A failed `expect` or `unwrap` is `none`. Keys of groups are sorted in the source, which only
  serves to remove duplicates.
-/
import Rbuilder.OrderInput.Replacement
import Mathlib.Data.Finset.Sort

namespace Parallel

open SparseMpt
open Building (OrderId SimValue)

/-! ## Orders and the state they use -/

structure SlotKey where
  address : Address
  key : B256
  deriving DecidableEq

/-- The state that an order used in its simulation. -/
structure UsedStateTrace where
  readSlotValues : AList fun _ : SlotKey => B256 := ∅
  writtenSlotValues : AList fun _ : SlotKey => B256 := ∅
  readBalances : AList fun _ : Address => Nat := ∅
  receivedAmount : AList fun _ : Address => Nat := ∅
  sentAmount : AList fun _ : Address => Nat := ∅
  createdContracts : List Address := []
  destructedContracts : List Address := []

structure SimulatedOrder where
  order : OrderInput.Order
  simValue : SimValue
  usedStateTrace : Option UsedStateTrace

def SimulatedOrder.id (order : SimulatedOrder) : OrderId := order.order.id

/-! ## Groups -/

/-- Groups as they are passed on. -/
structure ConflictGroup where
  id : Nat
  orders : List SimulatedOrder
  conflictingGroupIds : Finset Nat

structure GroupData where
  orders : List SimulatedOrder
  reads : List SlotKey
  writes : List SlotKey
  balanceReads : List Address
  balanceWrites : List Address
  codeWrites : List Address
  conflictingGroupIds : Finset Nat

def combineGroups (groups : List GroupData) (removedGroupIds : List Nat) : GroupData where
  orders := groups.flatMap GroupData.orders
  reads := (groups.flatMap GroupData.reads).dedup
  writes := (groups.flatMap GroupData.writes).dedup
  balanceReads := (groups.flatMap GroupData.balanceReads).dedup
  balanceWrites := (groups.flatMap GroupData.balanceWrites).dedup
  codeWrites := (groups.flatMap GroupData.codeWrites).dedup
  conflictingGroupIds :=
    groups.foldl (fun ids group => ids ∪ group.conflictingGroupIds) removedGroupIds.toFinset

/-- The group of one order. -/
def newOrderGroup (order : SimulatedOrder) (usedState : UsedStateTrace) : GroupData where
  orders := [order]
  reads := usedState.readSlotValues.keys
  writes := usedState.writtenSlotValues.keys
  balanceReads := usedState.readBalances.keys
  balanceWrites := (usedState.sentAmount.keys ++ usedState.receivedAmount.keys).dedup
  codeWrites := (usedState.createdContracts ++ usedState.destructedContracts).dedup
  conflictingGroupIds := ∅

/-! ## The index -/

section Maps

variable {κ : Type} [DecidableEq κ]

abbrev GroupMap (κ : Type) [DecidableEq κ] := AList fun _ : κ => List Nat

/-- The groups of a key. -/
def GroupMap.groupsOf (map : GroupMap κ) (key : κ) : List Nat := (map.lookup key).getD []

/-- A group is added to the list of a key. With `isNewId` the list is not searched. -/
def pushGroup (groupId : Nat) (isNewId : Bool) (groups : List Nat) : List Nat :=
  if isNewId || !groups.contains groupId then groups ++ [groupId] else groups

def addGroupKeyToMap (groupId : Nat) (isNewId : Bool) (map : GroupMap κ) (key : κ) : GroupMap κ :=
  map.insert key (pushGroup groupId isNewId (map.groupsOf key))

def addGroupToMap (groupId : Nat) (isNewId : Bool) (groupKeys : List κ) (map : GroupMap κ) :
    GroupMap κ :=
  groupKeys.foldl (addGroupKeyToMap groupId isNewId) map

/-- `Vec::swap_remove`: the last element takes the place. -/
def swapRemove (l : List Nat) (idx : Nat) : List Nat :=
  match l.getLast? with
  | some last => (l.set idx last).dropLast
  | none => l

def dropGroup (groupId : Nat) (groups : List Nat) : List Nat :=
  match groups.findIdx? (· == groupId) with
  | some idx => swapRemove groups idx
  | none => groups

def removeGroupKeyFromMap (groupId : Nat) (map : GroupMap κ) (key : κ) : GroupMap κ :=
  map.insert key (dropGroup groupId (map.groupsOf key))

def removeGroupFromMap (groupId : Nat) (groupKeys : List κ) (map : GroupMap κ) : GroupMap κ :=
  groupKeys.foldl (removeGroupKeyFromMap groupId) map

end Maps

/-- Slots by address and key. -/
abbrev SlotMap := AList fun _ : Address => GroupMap B256

namespace SlotMap

def ofAddress (map : SlotMap) (address : Address) : GroupMap B256 := (map.lookup address).getD ∅

def groupsOf (map : SlotMap) (slot : SlotKey) : List Nat :=
  (map.ofAddress slot.address).groupsOf slot.key

/-- The groups of all slots of a contract. -/
def groupsOfAddress (map : SlotMap) (address : Address) : List Nat :=
  (map.ofAddress address).entries.flatMap Sigma.snd

def addGroup (groupId : Nat) (isNewId : Bool) (map : SlotMap) (slot : SlotKey) : SlotMap :=
  map.insert slot.address (addGroupKeyToMap groupId isNewId (map.ofAddress slot.address) slot.key)

def removeGroup (groupId : Nat) (map : SlotMap) (slot : SlotKey) : SlotMap :=
  map.insert slot.address (removeGroupKeyFromMap groupId (map.ofAddress slot.address) slot.key)

end SlotMap

/-! ## The finder -/

structure ConflictFinder where
  groupCounter : Nat := 0
  groupReads : SlotMap := ∅
  groupWrites : SlotMap := ∅
  groupBalanceReads : GroupMap Address := ∅
  groupBalanceWrites : GroupMap Address := ∅
  groupCodeWrites : GroupMap Address := ∅
  groups : AList fun _ : Nat => GroupData := ∅
  orders : Finset OrderId := ∅

namespace ConflictFinder

def new : ConflictFinder := {}

section

variable (finder : ConflictFinder)

def allGroupsInConflict (usedState : UsedStateTrace) : List Nat :=
  let byReads := usedState.readSlotValues.keys.flatMap fun slot =>
    finder.groupWrites.groupsOf slot ++ finder.groupCodeWrites.groupsOf slot.address
  let byWrites := usedState.writtenSlotValues.keys.flatMap fun slot =>
    finder.groupReads.groupsOf slot ++ finder.groupCodeWrites.groupsOf slot.address
  let byBalanceWrites := (usedState.receivedAmount.keys ++ usedState.sentAmount.keys).flatMap
    finder.groupBalanceReads.groupsOf
  let byBalanceReads := usedState.readBalances.keys.flatMap finder.groupBalanceWrites.groupsOf
  let byContracts := (usedState.destructedContracts ++ usedState.createdContracts).flatMap fun address =>
    finder.groupCodeWrites.groupsOf address ++ finder.groupReads.groupsOfAddress address ++
      finder.groupWrites.groupsOfAddress address
  ((byReads ++ byWrites ++ byBalanceWrites ++ byBalanceReads ++ byContracts).insertionSort
    (· ≤ ·)).dedup

def addGroupToIndex (groupId : Nat) (isNewId : Bool) (data : GroupData) : ConflictFinder :=
  { finder with
    groupReads := data.reads.foldl (SlotMap.addGroup groupId isNewId) finder.groupReads
    groupWrites := data.writes.foldl (SlotMap.addGroup groupId isNewId) finder.groupWrites
    groupBalanceReads := addGroupToMap groupId isNewId data.balanceReads finder.groupBalanceReads
    groupBalanceWrites := addGroupToMap groupId isNewId data.balanceWrites finder.groupBalanceWrites
    groupCodeWrites := addGroupToMap groupId isNewId data.codeWrites finder.groupCodeWrites }

def removeGroupFromIndex (groupId : Nat) (data : GroupData) : ConflictFinder :=
  { finder with
    groupReads := data.reads.foldl (SlotMap.removeGroup groupId) finder.groupReads
    groupWrites := data.writes.foldl (SlotMap.removeGroup groupId) finder.groupWrites
    groupBalanceReads := removeGroupFromMap groupId data.balanceReads finder.groupBalanceReads
    groupBalanceWrites := removeGroupFromMap groupId data.balanceWrites finder.groupBalanceWrites
    groupCodeWrites := removeGroupFromMap groupId data.codeWrites finder.groupCodeWrites }

/-- A group under a new id. -/
def insertGroup (data : GroupData) : ConflictFinder :=
  let indexed := { finder with groupCounter := finder.groupCounter + 1 }.addGroupToIndex
    finder.groupCounter true data
  { indexed with groups := finder.groups.insert finder.groupCounter data }

/-- A group that keeps its id. -/
def replaceGroup (groupId : Nat) (data : GroupData) : ConflictFinder :=
  let indexed := finder.addGroupToIndex groupId false data
  { indexed with groups := (finder.groups.erase groupId).insert groupId data }

/-- The groups are taken out one after the other; `none` where the source unwraps a `None`. -/
def takeGroups (groups : AList fun _ : Nat => GroupData) :
    List Nat → Option (List (Nat × GroupData) × AList fun _ : Nat => GroupData)
  | [] => some ([], groups)
  | groupId :: groupIds => do
    let data ← groups.lookup groupId
    let (taken, rest) ← takeGroups (groups.erase groupId) groupIds
    return ((groupId, data) :: taken, rest)

def mergeGroups (groupIds : List Nat) (data : GroupData) :
    Option ConflictFinder := do
  let (conflictingGroups, groups) ← takeGroups finder.groups groupIds
  let finder := conflictingGroups.foldl (fun finder group => finder.removeGroupFromIndex group.1 group.2)
    { finder with groups }
  return finder.insertGroup (combineGroups (conflictingGroups.map Prod.snd ++ [data])
    (conflictingGroups.map Prod.fst))

/-- The group of a new order is combined with the groups that it conflicts with. -/
def joinGroups (data : GroupData) : List Nat → Option ConflictFinder
  | [] => some (finder.insertGroup data)
  | [groupId] => do
    let other ← finder.groups.lookup groupId
    return finder.replaceGroup groupId (combineGroups [data, other] [])
  | groupIds => finder.mergeGroups groupIds data

def addOrder (order : SimulatedOrder) : Option ConflictFinder :=
  if order.id ∈ finder.orders then some finder
  else
    let finder := { finder with orders := insert order.id finder.orders }
    match order.usedStateTrace with
    | none => some finder
    | some usedState =>
      finder.joinGroups (newOrderGroup order usedState) (finder.allGroupsInConflict usedState)

def addOrders (orders : List SimulatedOrder) : Option ConflictFinder :=
  orders.foldlM addOrder finder

def getOrderGroups : List ConflictGroup :=
  (finder.groups.entries.insertionSort (fun a b => a.1 ≤ b.1)).map fun group =>
    ⟨group.1, group.2.orders, group.2.conflictingGroupIds⟩

end

end ConflictFinder

end Parallel
