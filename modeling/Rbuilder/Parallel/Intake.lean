/-
  From the stream of commands to the groups, from `run_order_intake`.

  The intake keeps the live orders in a `SimulatedOrderStore` and passes what is new to the
  `ConflictFinder`, but only from a batch without cancellations. `AgreesBy view intake` says
  that the orders in the groups are those in the store. The batches that keep it so are those
  that leave every order as the finder has it (`batches_agree_iff`).
-/
import Rbuilder.Parallel.OrderGroups
import Rbuilder.Runs

namespace Parallel

open Building (OrderId)
open ConflictFinder List AList

/-! ## The store -/

inductive SimulatedOrderCommand where
  | simulation (order : SimulatedOrder)
  | cancellation (id : OrderId)

namespace SimulatedOrderCommand

def id : SimulatedOrderCommand → OrderId
  | simulation order => order.id
  | cancellation id => id

def order : SimulatedOrderCommand → Option SimulatedOrder
  | simulation order => some order
  | cancellation _ => none

end SimulatedOrderCommand

/-- All orders, and the orders since the last drain if none was removed. -/
structure SimulatedOrderStore where
  orders : AList fun _ : OrderId => SimulatedOrder := ∅
  newOrders : Option (List SimulatedOrder) := some []

namespace SimulatedOrderStore

section

variable (store : SimulatedOrderStore)

def insertOrder (order : SimulatedOrder) : SimulatedOrderStore :=
  { orders := store.orders.insert order.id order
    newOrders := store.newOrders.map fun newOrders => newOrders ++ [order] }

def removeOrder (id : OrderId) : SimulatedOrderStore :=
  { orders := store.orders.erase id, newOrders := none }

def getOrders : List SimulatedOrder := store.orders.entries.map Sigma.snd

def drainNewOrders : Option (List SimulatedOrder) × SimulatedOrderStore :=
  (store.newOrders, { store with newOrders := some [] })

def commandToSink : SimulatedOrderCommand → SimulatedOrderStore
  | .simulation order => store.insertOrder order
  | .cancellation id => store.removeOrder id

def applyNewCommands (commands : List SimulatedOrderCommand) : SimulatedOrderStore :=
  commands.foldl commandToSink store

end

end SimulatedOrderStore

/-! ## The intake -/

structure Intake where
  store : SimulatedOrderStore
  finder : ConflictFinder

namespace Intake

/-- `initialize_orders`: the store is still empty. -/
def start : Option Intake := do
  let store : SimulatedOrderStore := {}
  let finder ← ConflictFinder.new.addOrders store.getOrders
  return ⟨store, finder⟩

/-- One turn of the loop. A batch can be empty where the receiver lagged. -/
def processBatch (intake : Intake) (batch : List SimulatedOrderCommand) : Option Intake :=
  let (newOrders, store) := (intake.store.applyNewCommands batch).drainNewOrders
  match newOrders with
  | some newOrders =>
    if newOrders.isEmpty then some { intake with store }
    else do
      let finder ← intake.finder.addOrders newOrders
      return ⟨store, finder⟩
  | none => some { intake with store }

def runOrderIntake (batches : List (List SimulatedOrderCommand)) : Option Intake := do
  let intake ← start
  batches.foldlM processBatch intake

/-- The orders in the groups. -/
def grouped (intake : Intake) : Set SimulatedOrder :=
  {order | ∃ group ∈ intake.finder.getOrderGroups, order ∈ group.orders}

/-- The orders in the store that have a trace. -/
def live (intake : Intake) : Set SimulatedOrder :=
  {order | order.usedStateTrace ≠ none ∧ order ∈ intake.store.getOrders}

end Intake

/-! ## One batch -/

def SimulatedOrder.traced (order : SimulatedOrder) : Bool := order.usedStateTrace.isSome

section

variable (batch : List SimulatedOrderCommand)

/-- The first command of the batch for the id. -/
def firstCommand (id : OrderId) : Option SimulatedOrderCommand :=
  batch.find? fun command => command.id = id

def lastCommand (id : OrderId) : Option SimulatedOrderCommand :=
  batch.reverse.find? fun command => command.id = id

def onlyOrders : Bool :=
  batch.all fun command => command.order.isSome

end

namespace SimulatedOrderStore

variable {store : SimulatedOrderStore}

theorem applyNewCommands_append_singleton (store : SimulatedOrderStore)
    (batch : List SimulatedOrderCommand) (command : SimulatedOrderCommand) :
    store.applyNewCommands (batch ++ [command]) =
      (store.applyNewCommands batch).commandToSink command := by
  simp [applyNewCommands]

/-- The last command for an id counts. -/
theorem lookup_applyNewCommands (store : SimulatedOrderStore) (batch : List SimulatedOrderCommand)
    (id : OrderId) :
    (store.applyNewCommands batch).orders.lookup id =
      (lastCommand batch id).elim (store.orders.lookup id) SimulatedOrderCommand.order := by
  induction batch using reverseRecOn with
  | nil => rfl
  | append_singleton batch command ih =>
    rw [applyNewCommands_append_singleton]
    unfold lastCommand
    rw [reverse_append, reverse_singleton, singleton_append, find?_cons]
    by_cases heq : command.id = id
    · subst heq
      simp only [decide_true, Option.elim_some]
      cases command with
      | simulation order => exact lookup_insert _
      | cancellation id => exact lookup_erase ..
    simp only [heq, decide_false]
    refine Eq.trans ?_ ih
    cases command with
    | simulation order => exact lookup_insert_ne fun h => heq h.symm
    | cancellation id => exact lookup_erase_ne fun h => heq h.symm

theorem newOrders_applyNewCommands (hnew : store.newOrders = some [])
    (batch : List SimulatedOrderCommand) :
    (store.applyNewCommands batch).newOrders =
      if onlyOrders batch then some (batch.filterMap SimulatedOrderCommand.order) else none := by
  induction batch using reverseRecOn with
  | nil => exact hnew
  | append_singleton batch command ih =>
    rw [applyNewCommands_append_singleton]
    cases command with
    | simulation order =>
      have honly : onlyOrders (batch ++ [.simulation order]) = onlyOrders batch := by
        simp [onlyOrders, SimulatedOrderCommand.order]
      change Option.map _ (store.applyNewCommands batch).newOrders = _
      rw [ih, honly]
      cases onlyOrders batch <;> simp [SimulatedOrderCommand.order]
    | cancellation id =>
      have honly : onlyOrders (batch ++ [.cancellation id]) = false := by
        simp [onlyOrders, SimulatedOrderCommand.order]
      rw [honly]
      rfl

end SimulatedOrderStore

variable {batch : List SimulatedOrderCommand} {id : OrderId}

theorem exists_lastCommand
    (h : id ∈ batch.map SimulatedOrderCommand.id) : ∃ command, lastCommand batch id = some command := by
  obtain ⟨command, hmem, hid⟩ := mem_map.mp h
  exact Option.isSome_iff_exists.mp
    (find?_isSome.mpr ⟨command, mem_reverse.mpr hmem, by simpa using hid⟩)

theorem commands_of_notMem (h : id ∉ batch.map SimulatedOrderCommand.id) :
    firstCommand batch id = none ∧ lastCommand batch id = none := by
  have hne : ∀ command ∈ batch, ¬(decide (command.id = id)) = true := fun command hmem hid =>
    h (mem_map.mpr ⟨command, hmem, by simpa using hid⟩)
  exact ⟨find?_eq_none.mpr hne,
    find?_eq_none.mpr fun command hmem => hne command (mem_reverse.mp hmem)⟩

/-- In a batch of orders the first order of an id is that of the first command. -/
theorem find?_filterMap_order (h : onlyOrders batch = true) (id : OrderId) :
    (batch.filterMap SimulatedOrderCommand.order).find? (fun order => order.id = id) =
      (firstCommand batch id).bind SimulatedOrderCommand.order := by
  induction batch with
  | nil => rfl
  | cons command batch ih =>
    cases command with
    | simulation order =>
      have hrest : onlyOrders batch = true := by
        simpa [onlyOrders, SimulatedOrderCommand.order] using h
      have hcons : (SimulatedOrderCommand.simulation order :: batch).filterMap
          SimulatedOrderCommand.order = order :: batch.filterMap SimulatedOrderCommand.order := rfl
      have hid : (SimulatedOrderCommand.simulation order).id = order.id := rfl
      unfold firstCommand
      rw [hcons, find?_cons, find?_cons, hid]
      by_cases heq : order.id = id
      · simp only [heq, decide_true]
        rfl
      · simp only [heq, decide_false]
        exact ih hrest
    | cancellation id => simp [onlyOrders, SimulatedOrderCommand.order] at h

namespace Intake

variable {intake intake' : Intake} {added : List SimulatedOrder}

/-- The state between two batches. -/
structure Settled (added : List SimulatedOrder) (intake : Intake) : Prop where
  drained : intake.store.newOrders = some []
  ids : ∀ {id order}, intake.store.orders.lookup id = some order → order.id = id
  reached : ConflictFinder.Reached added intake.finder

theorem settled_start : ∃ intake, start = some intake ∧ Settled [] intake :=
  ⟨⟨{}, new⟩, rfl, ⟨rfl, fun hsome => (by cases hsome), rfl⟩⟩

theorem processBatch_eq (h : Settled added intake) (batch : List SimulatedOrderCommand) :
    ∃ finder, intake.processBatch batch =
        some ⟨{ intake.store.applyNewCommands batch with newOrders := some [] }, finder⟩ ∧
      Reached (added ++ if onlyOrders batch then
        batch.filterMap SimulatedOrderCommand.order else []) finder := by
  have hnew := SimulatedOrderStore.newOrders_applyNewCommands h.drained batch
  unfold processBatch SimulatedOrderStore.drainNewOrders
  rw [hnew]
  cases onlyOrders batch with
  | false =>
    refine ⟨intake.finder, rfl, ?_⟩
    rw [if_neg Bool.false_ne_true, append_nil]
    exact h.reached
  | true =>
    obtain ⟨finder, hadd, -, -⟩ :=
      h.reached.inv.addOrders (batch.filterMap SimulatedOrderCommand.order)
    refine ⟨finder, ?_, h.reached.addOrders hadd⟩
    simp only [if_true]
    split_ifs with hempty
    · rw [isEmpty_iff.mp hempty] at hadd
      cases hadd
      rfl
    · rw [hadd]
      rfl

theorem settled_processBatch (h : Settled added intake) (batch : List SimulatedOrderCommand) :
    ∃ intake', intake.processBatch batch = some intake' ∧
      Settled (added ++ if onlyOrders batch then batch.filterMap SimulatedOrderCommand.order else [])
        intake' ∧
      ∀ id, intake'.store.orders.lookup id =
        (lastCommand batch id).elim (intake.store.orders.lookup id) SimulatedOrderCommand.order := by
  obtain ⟨finder, hprocess, hreached⟩ := processBatch_eq h batch
  have hlookup := SimulatedOrderStore.lookup_applyNewCommands intake.store batch
  refine ⟨_, hprocess, ⟨rfl, fun {id order} hsome => ?_, hreached⟩, hlookup⟩
  rw [hlookup] at hsome
  cases hlast : lastCommand batch id with
  | none =>
    rw [hlast] at hsome
    exact h.ids hsome
  | some command =>
    rw [hlast] at hsome
    have hid : command.id = id := by simpa using find?_some hlast
    cases command with
    | simulation order' =>
      cases hsome
      exact hid
    | cancellation id => cases hsome

/-! ## Groups and live orders, id by id -/

variable {β : Type} {view : SimulatedOrder → β}

/-- Orders by their ids, compared by a view that tells ids apart. -/
theorem image_eq_iff (hview : ∀ {order order'}, view order = view order' → order.id = order'.id)
    {p q : OrderId → Option SimulatedOrder} (hp : ∀ {id order}, p id = some order → order.id = id)
    (hq : ∀ {id order}, q id = some order → order.id = id) :
    view '' {order | p order.id = some order} = view '' {order | q order.id = some order} ↔
      ∀ id, (p id).map view = (q id).map view := by
  have hmem : ∀ {p : OrderId → Option SimulatedOrder},
      (∀ {id order}, p id = some order → order.id = id) →
      ∀ order, view order ∈ view '' {order | p order.id = some order} ↔
        (p order.id).map view = some (view order) := by
    intro p hp order
    constructor
    · rintro ⟨order', hsome, heq⟩
      rw [← hview heq, show p order'.id = some order' from hsome, Option.map_some, heq]
    · intro heq
      obtain ⟨order', hsome, heq⟩ := Option.map_eq_some_iff.mp heq
      exact ⟨order', (congrArg p (hp hsome)).trans hsome, heq⟩
  constructor
  · intro heq id
    refine Option.ext fun b => ?_
    -- an image under the view is that of an order with the id
    have hiff : ∀ {p q : OrderId → Option SimulatedOrder},
        (∀ {id order}, p id = some order → order.id = id) →
        (∀ {id order}, q id = some order → order.id = id) →
        view '' {order | p order.id = some order} = view '' {order | q order.id = some order} →
        (p id).map view = some b → (q id).map view = some b := by
      intro p q hp hq heq hb
      obtain ⟨order, hsome, rfl⟩ := Option.map_eq_some_iff.mp hb
      obtain rfl := hp hsome
      exact (hmem hq order).mp (heq ▸ (hmem hp order).mpr hb)
    exact ⟨hiff hp hq heq, hiff hq hp heq.symm⟩
  · intro hall
    ext b
    constructor
    · rintro ⟨order, hsome, rfl⟩
      exact (hmem hq order).mpr (hall order.id ▸ (hmem hp order).mp ⟨order, hsome, rfl⟩)
    · rintro ⟨order, hsome, rfl⟩
      exact (hmem hp order).mpr (hall order.id ▸ (hmem hq order).mp ⟨order, hsome, rfl⟩)

/-- The order that the finder has for the id. -/
def groupedAt (added : List SimulatedOrder) (id : OrderId) : Option SimulatedOrder :=
  (added.find? fun order => order.id = id).filter SimulatedOrder.traced

/-- The order with a trace that is live under the id. -/
def liveAt (intake : Intake) (id : OrderId) : Option SimulatedOrder :=
  (intake.store.orders.lookup id).filter SimulatedOrder.traced

theorem traced_iff {order : SimulatedOrder} : order.traced = true ↔ order.usedStateTrace ≠ none :=
  Option.isSome_iff_ne_none

theorem grouped_eq (h : Settled added intake) :
    intake.grouped = {order | groupedAt added order.id = some order} := by
  ext order
  have hgrouped : order ∈ intake.grouped ↔ order ∈ distinctOrders added := by
    constructor
    · rintro ⟨group, hgroup, hmem⟩
      obtain ⟨data, hlookup, horders, -⟩ := mem_getOrderGroups.mp hgroup
      exact h.reached.inv.mem_nodes hlookup (horders ▸ hmem)
    intro hmem
    obtain ⟨block, ⟨g, data, hlookup, rfl⟩, hmem⟩ := h.reached.inv.components.cover hmem
    exact ⟨⟨g, data.orders, data.conflictingGroupIds⟩,
      mem_getOrderGroups.mpr ⟨data, hlookup, rfl, rfl⟩, hmem⟩
  rw [hgrouped]
  exact ((Option.filter_eq_some_iff).trans (and_comm.trans (and_congr_left' traced_iff))).symm

theorem live_eq (h : Settled added intake) :
    intake.live = {order | intake.liveAt order.id = some order} := by
  ext order
  refine Iff.trans ?_ ((Option.filter_eq_some_iff).trans
    (and_comm.trans (and_congr_left' traced_iff))).symm
  refine and_congr_right fun _ => ?_
  unfold SimulatedOrderStore.getOrders
  rw [mem_map]
  constructor
  · rintro ⟨⟨id, order'⟩, hmem, rfl⟩
    have hlookup : intake.store.orders.lookup id = some order' := mem_lookup_iff.mpr hmem
    obtain rfl := h.ids hlookup
    exact hlookup
  · intro hlookup
    exact ⟨⟨order.id, order⟩, mem_lookup_iff.mp hlookup, rfl⟩

/-- The orders in the groups are the live ones, up to a view. -/
theorem agrees_iff (hview : ∀ {order order'}, view order = view order' → order.id = order'.id)
    (h : Settled added intake) :
    view '' intake.grouped = view '' intake.live ↔
      ∀ id, (groupedAt added id).map view = (intake.liveAt id).map view := by
  rw [grouped_eq h, live_eq h]
  refine image_eq_iff hview ?_ ?_
  · intro id order hsome
    simpa using find?_some (Option.filter_eq_some_iff.mp hsome).1
  · intro id order hsome
    exact h.ids (Option.filter_eq_some_iff.mp hsome).1

/-! ## Runs -/

/-- What is in the groups under an id of the batch after the batch, if the groups have the live
    orders before: the first order of the batch if the finder takes it, else what was live. -/
def groupedAfter (intake : Intake) (batch : List SimulatedOrderCommand) (id : OrderId) :
    Option SimulatedOrder :=
  if onlyOrders batch ∧ id ∉ intake.finder.orders then
    ((firstCommand batch id).bind SimulatedOrderCommand.order).filter SimulatedOrder.traced
  else intake.liveAt id

/-- The last command of the batch for an id leaves the order that is in the groups. -/
def KeepsOrders {β : Type} (view : SimulatedOrder → β) (intake : Intake)
    (batch : List SimulatedOrderCommand) : Prop :=
  ∀ id ∈ batch.map SimulatedOrderCommand.id,
    ((((lastCommand batch id).bind SimulatedOrderCommand.order).filter SimulatedOrder.traced).map view) =
      (intake.groupedAfter batch id).map view

theorem find?_eq_none_of_new (h : Settled added intake) {id : OrderId}
    (hnew : id ∉ intake.finder.orders) :
    added.find? (fun order => order.id = id) = none := by
  refine find?_eq_none.mpr fun order hmem hid => hnew ?_
  exact (h.reached.inv.ids id).mpr ⟨order, hmem, by simpa using hid⟩

theorem groupedAt_append (h : Settled added intake) (batch : List SimulatedOrderCommand) (id : OrderId) :
    groupedAt (added ++ if onlyOrders batch then batch.filterMap SimulatedOrderCommand.order else [])
        id =
      if onlyOrders batch ∧ id ∉ intake.finder.orders then
        ((firstCommand batch id).bind SimulatedOrderCommand.order).filter SimulatedOrder.traced
      else groupedAt added id := by
  unfold groupedAt
  rw [find?_append]
  split_ifs with honly hcond hcond
  · rw [find?_eq_none_of_new h hcond.2, Option.none_or, find?_filterMap_order honly]
  · obtain ⟨order, hmem, hid⟩ :=
      (h.reached.inv.ids id).mp (Classical.not_not.mp fun hnew => hcond ⟨honly, hnew⟩)
    obtain ⟨order', hfind⟩ : ∃ order', added.find? (fun order => order.id = id) = some order' :=
      Option.isSome_iff_exists.mp (find?_isSome.mpr ⟨order, hmem, by simpa using hid⟩)
    rw [hfind, Option.some_or]
  · exact absurd hcond.1 honly
  · rw [find?_nil, Option.or_none]

theorem agrees_processBatch_iff
    (hview : ∀ {order order'}, view order = view order' → order.id = order'.id)
    (h : Settled added intake) (hagrees : view '' intake.grouped = view '' intake.live)
    {batch : List SimulatedOrderCommand} (hprocess : intake.processBatch batch = some intake') :
    view '' intake'.grouped = view '' intake'.live ↔ KeepsOrders view intake batch := by
  obtain ⟨intake₁, hprocess₁, h₁, hlookup⟩ := settled_processBatch h batch
  obtain rfl : intake' = intake₁ := Option.some.inj (hprocess.symm.trans hprocess₁)
  rw [agrees_iff hview h] at hagrees
  have hgrouped : ∀ id, (groupedAt (added ++ if onlyOrders batch then
      batch.filterMap SimulatedOrderCommand.order else []) id).map view =
      (intake.groupedAfter batch id).map view := by
    intro id
    rw [groupedAt_append h]
    unfold groupedAfter
    split_ifs with hcond
    · rfl
    · exact hagrees id
  rw [agrees_iff hview h₁]
  constructor
  · intro hall id hmem
    rw [← hgrouped, hall]
    obtain ⟨command, hlast⟩ := exists_lastCommand hmem
    unfold liveAt
    rw [hlookup, hlast]
    rfl
  intro hkeeps id
  rw [hgrouped]
  unfold liveAt
  rw [hlookup]
  by_cases hmem : id ∈ batch.map SimulatedOrderCommand.id
  · obtain ⟨command, hlast⟩ := exists_lastCommand hmem
    rw [← hkeeps id hmem, hlast]
    rfl
  obtain ⟨hfirst, hlast⟩ := commands_of_notMem hmem
  rw [hlast]
  unfold groupedAfter
  rw [hfirst]
  split_ifs with hcond
  · -- the id is new to the finder, so nothing was live under it
    refine Eq.trans ?_ (hagrees id)
    unfold groupedAt
    rw [find?_eq_none_of_new h hcond.2]
    rfl
  · rfl

theorem runOrderIntake_append_singleton {done : List (List SimulatedOrderCommand)}
    (hrun : runOrderIntake done = some intake) (batch : List SimulatedOrderCommand) :
    runOrderIntake (done ++ [batch]) = intake.processBatch batch := by
  unfold runOrderIntake at hrun ⊢
  obtain ⟨first, hstart, hfold⟩ := Option.bind_eq_some_iff.mp hrun
  rw [hstart, Option.bind_eq_bind, Option.bind_some, foldlM_append, hfold]
  simp

variable (batches : List (List SimulatedOrderCommand))

/-- The intake never panics. -/
theorem exists_settled :
    ∃ intake added, runOrderIntake batches = some intake ∧ Settled added intake := by
  induction batches using reverseRecOn with
  | nil =>
    obtain ⟨intake, hstart, h⟩ := settled_start
    refine ⟨intake, [], ?_, h⟩
    unfold runOrderIntake
    rw [hstart]
    rfl
  | append_singleton batches batch ih =>
    obtain ⟨intake, added, hrun, h⟩ := ih
    obtain ⟨intake', hprocess, h', -⟩ := settled_processBatch h batch
    exact ⟨intake', _, (runOrderIntake_append_singleton hrun batch).trans hprocess, h'⟩

theorem agrees_start (view : SimulatedOrder → β)
    (hrun : runOrderIntake [] = some intake) : view '' intake.grouped = view '' intake.live := by
  cases hrun
  have hgrouped : Intake.grouped ⟨{}, new⟩ = ∅ := by
    refine Set.eq_empty_of_forall_notMem ?_
    rintro order ⟨group, hgroup, -⟩
    cases hgroup
  have hlive : Intake.live ⟨{}, new⟩ = ∅ := by
    refine Set.eq_empty_of_forall_notMem ?_
    rintro order ⟨-, hmem⟩
    cases hmem
  exact congrArg _ (hgrouped.trans hlive.symm)

theorem agrees_iff_keepsOrders
    (hview : ∀ {order order'}, view order = view order' → order.id = order'.id)
    (batches : List (List SimulatedOrderCommand)) :
    (∀ done, done <+: batches → ∀ intake, runOrderIntake done = some intake →
        view '' intake.grouped = view '' intake.live) ↔
      ∀ done batch, done ++ [batch] <+: batches → ∀ intake, runOrderIntake done = some intake →
        KeepsOrders view intake batch := by
  refine Runs.forall_states_iff (fun intake => agrees_start view) (fun done batch hagrees => ?_) batches
  obtain ⟨intake, added, hrun, h⟩ := exists_settled done
  obtain ⟨intake', hprocess, -⟩ := settled_processBatch h batch
  have hstep := agrees_processBatch_iff hview h (hagrees intake hrun) hprocess
  rw [runOrderIntake_append_singleton hrun, hprocess, hrun]
  simpa using hstep

/-- The orders in the groups are the live orders after every batch exactly if every batch leaves
    the orders that are in the groups; likewise for their ids. -/
theorem groups_follow_live_orders_iff :
    (∃ intake, runOrderIntake batches = some intake) ∧
      ((∀ done, done <+: batches → ∀ intake, runOrderIntake done = some intake →
          intake.grouped = intake.live) ↔
        ∀ done batch, done ++ [batch] <+: batches → ∀ intake, runOrderIntake done = some intake →
          KeepsOrders (fun order => order) intake batch) ∧
      ((∀ done, done <+: batches → ∀ intake, runOrderIntake done = some intake →
          SimulatedOrder.id '' intake.grouped = SimulatedOrder.id '' intake.live) ↔
        ∀ done batch, done ++ [batch] <+: batches → ∀ intake, runOrderIntake done = some intake →
          KeepsOrders SimulatedOrder.id intake batch) := by
  obtain ⟨intake, -, hrun, -⟩ := exists_settled batches
  refine ⟨⟨intake, hrun⟩, ?_, agrees_iff_keepsOrders (fun h => h) batches⟩
  have hsame := @agrees_iff_keepsOrders SimulatedOrder (fun order => order)
    (fun h => congrArg SimulatedOrder.id h) batches
  simpa only [Set.image_id'] using hsame

def exampleOrder (n : UInt8) : SimulatedOrder where
  order := .bundle (Vector.replicate 16 n) none ⟨none, none, none, [], [], [], none⟩
  simValue := .new 0 0 .zero []
  usedStateTrace := some {}

/-- A cancelled order stays in its group, and an order that comes with a cancellation is not
    grouped. -/
theorem cancelled_order_still_grouped :
    (∃ intake, runOrderIntake [[.simulation (exampleOrder 1)], [.cancellation (exampleOrder 1).id]] =
      some intake ∧ exampleOrder 1 ∈ intake.grouped ∧ exampleOrder 1 ∉ intake.live) ∧
    ∃ intake, runOrderIntake [[.simulation (exampleOrder 1), .cancellation (exampleOrder 2).id]] =
      some intake ∧ exampleOrder 1 ∉ intake.grouped ∧ exampleOrder 1 ∈ intake.live := by
  refine ⟨⟨_, rfl, ⟨⟨0, [exampleOrder 1], ∅⟩, ?_, List.mem_singleton.mpr rfl⟩, ?_⟩, ⟨_, rfl, ?_, ?_⟩⟩
  · exact List.mem_singleton.mpr rfl
  · rintro ⟨-, hmem⟩
    cases hmem
  · rintro ⟨group, hmem, -⟩
    cases hmem
  · exact ⟨Option.some_ne_none _, List.mem_singleton.mpr rfl⟩

end Intake

end Parallel
