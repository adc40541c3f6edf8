/-
  The job that simulates the orders of a slot.

  The job gets orders and cancellations, sends the orders that are ready to the simulators and
  forwards the results of the orders that are still in flight. An order that was forwarded and
  is cancelled gets a cancellation, but one that is in flight again when it is cancelled does
  not: it is only taken out of flight and stays live (`cancelled_order_stays_live`).

  The channels are open. The counters of orders and replacement keys and the tracer are left out.
-/
import Rbuilder.Simulation.Bookkeeping
import Rbuilder.Runs
import Mathlib.Data.Finset.Basic
import Mathlib.Data.List.Chain

namespace Simulation

open Building (OrderId)
open OrderInput (Order)
open List Finset Option

inductive OrderPoolCommand where
  | insert (order : Order)
  | remove (id : OrderId)

inductive SimulatedOrderCommand where
  | simulation (order : SimulatedOrder)
  | cancellation (id : OrderId)

/-- `simRequests` is the channel to the simulators, `sent` what went downstream. -/
structure SimulationJob where
  simTree : SimTree := {}
  inFlightOrders : Finset OrderId := ∅
  notCancelledSentSimulatedOrders : Finset OrderId := ∅
  simRequests : List SimulationRequest := []
  sent : List SimulatedOrderCommand := []

namespace SimulationJob

variable {ε : Type}

/-- `try_send` of one request; if the channel is full the order is dropped. -/
def sendRequest (capacity : Option Nat) (job : SimulationJob) (request : SimulationRequest) :
    SimulationJob :=
  if ∀ n ∈ capacity, job.simRequests.length < n then
    { job with simRequests := job.simRequests ++ [request] }
  else { job with inFlightOrders := job.inFlightOrders.erase request.order.id }

/-- The loop that takes the ready tasks, 1024 at a time. -/
def sendLoop (capacity : Option Nat) : Nat → SimulationJob → SimulationJob
  | 0, job => job
  | fuel + 1, job =>
    let newSimRequest := (job.simTree.popSimulationTasks 1024).1
    let job' := { job with simTree := (job.simTree.popSimulationTasks 1024).2 }
    if newSimRequest.isEmpty then job'
    else
      -- filter out cancelled orders
      let newSimRequest := newSimRequest.filter fun request => request.order.id ∈ job.inFlightOrders
      sendLoop capacity fuel (newSimRequest.foldl (sendRequest capacity) job')

def sendNewTasksForSimulation (capacity : Option Nat) (job : SimulationJob) : SimulationJob :=
  sendLoop capacity (job.simTree.readyOrders.length + 1) job

/-- One result: the job and the results of orders in flight. -/
def sendResult (state : SimulationJob × List SimulatedResult) (simResult : SimulatedResult) :
    SimulationJob × List SimulatedResult :=
  let (job, validSimulatedOrders) := state
  let id := simResult.simulatedOrder.order.id
  -- skip cancelled orders and remove from in_flight_orders
  if id ∈ job.inFlightOrders then
    let job := { job with inFlightOrders := job.inFlightOrders.erase id }
    -- only send if it's the first time
    if id ∈ job.notCancelledSentSimulatedOrders then (job, validSimulatedOrders ++ [simResult])
    else
      ({ job with
        notCancelledSentSimulatedOrders := insert id job.notCancelledSentSimulatedOrders
        sent := job.sent ++ [.simulation simResult.simulatedOrder] },
        validSimulatedOrders ++ [simResult])
  else (job, validSimulatedOrders)

section

variable (env : Env ε) (job : SimulationJob)

def processNewSimulations (newSimResults : List SimulatedResult) : Bool × SimulationJob :=
  let (job, validSimulatedOrders) := newSimResults.foldl sendResult (job, [])
  match job.simTree.submitSimulationTasksResults env validSimulatedOrders with
  | (.error _, simTree) => (false, { job with simTree := simTree })
  | (.ok _, simTree) => (true, { job with simTree := simTree })

def sendCancel (job : SimulationJob) (id : OrderId) : SimulationJob :=
  -- only send cancel if we sent this id
  if id ∈ job.notCancelledSentSimulatedOrders then
    { job with
      notCancelledSentSimulatedOrders := job.notCancelledSentSimulatedOrders.erase id
      sent := job.sent ++ [.cancellation id] }
  else job

def processOrderCancellation (job : SimulationJob) (id : OrderId) : SimulationJob :=
  if id ∈ job.inFlightOrders then { job with inFlightOrders := job.inFlightOrders.erase id }
  else job.sendCancel id

def processNewOrder (order : Order) : Bool × SimulationJob :=
  match job.simTree.pushOrders env [order] with
  | (.error _, simTree) => (false, { job with simTree := simTree })
  | (.ok _, simTree) =>
    (true, { job with
      simTree := simTree, inFlightOrders := insert order.id job.inFlightOrders })

def processNewCommand : OrderPoolCommand → SimulationJob
  -- an order that is not pushed is ignored
  | .insert order => (job.processNewOrder env order).2
  | .remove id => job.processOrderCancellation id

end

/-- A turn of the loop of the job, or simulators that take requests. -/
inductive Event where
  | command (command : OrderPoolCommand)
  | results (newSimResults : List SimulatedResult)
  | sendTasks
  | simulate (n : Nat)

def Event.run (env : Env ε) (capacity : Option Nat) (job : SimulationJob) : Event → SimulationJob
  | .command c => job.processNewCommand env c
  | .results newSimResults => (job.processNewSimulations env newSimResults).2
  | .sendTasks => job.sendNewTasksForSimulation capacity
  | .simulate n => { job with simRequests := job.simRequests.drop n }

def jobAfter (env : Env ε) (capacity : Option Nat) (events : List Event) : SimulationJob :=
  events.foldl (Event.run env capacity) {}

/-! ## The loops end and the job goes on -/

theorem simTree_sendResults (results : List SimulatedResult)
    (state : SimulationJob × List SimulatedResult) :
    (results.foldl sendResult state).1.simTree = state.1.simTree := by
  induction results generalizing state with
  | nil => rfl
  | cons result results ih =>
    rw [foldl_cons, ih]
    unfold sendResult
    dsimp only
    split_ifs
    · rfl
    · rfl
    · rfl

variable {job job' job'' : SimulationJob}

/-- Sending tasks changes nothing downstream, and orders only leave flight. -/
structure Sends (ε : Type) (job job' : SimulationJob) : Prop where
  exact : ∀ {env : Env ε}, job.simTree.Exact env → job'.simTree.Exact env
  sent : job'.sent = job.sent
  kept : job'.notCancelledSentSimulatedOrders = job.notCancelledSentSimulatedOrders
  inFlight : job'.inFlightOrders ⊆ job.inFlightOrders

theorem Sends.refl (job : SimulationJob) : Sends ε job job :=
  ⟨fun h => h, rfl, rfl, Subset.refl _⟩

theorem Sends.trans (h : Sends ε job job') (h' : Sends ε job' job'') : Sends ε job job'' :=
  ⟨fun hexact => h'.exact (h.exact hexact), h'.sent.trans h.sent, h'.kept.trans h.kept,
    h'.inFlight.trans h.inFlight⟩

theorem sends_sendRequests (capacity : Option Nat) (requests : List SimulationRequest)
    (job : SimulationJob) : Sends ε job (requests.foldl (sendRequest capacity) job) := by
  induction requests generalizing job with
  | nil => exact .refl job
  | cons request requests ih =>
    refine .trans ?_ (ih (sendRequest capacity job request))
    unfold sendRequest
    split_ifs
    · exact ⟨fun h => h, rfl, rfl, Subset.refl _⟩
    · exact ⟨fun h => h, rfl, rfl, erase_subset ..⟩

theorem sends_sendLoop (capacity : Option Nat) (fuel : Nat) (job : SimulationJob) :
    Sends ε job (sendLoop capacity fuel job) := by
  induction fuel generalizing job with
  | zero => exact .refl job
  | succ fuel ih =>
    have hpop : Sends ε job { job with simTree := (job.simTree.popSimulationTasks 1024).2 } :=
      ⟨fun h => h.pop 1024, rfl, rfl, Subset.refl _⟩
    unfold sendLoop
    dsimp only
    split_ifs
    · exact hpop
    · exact hpop.trans ((sends_sendRequests capacity _ _).trans (ih _))

theorem processNewSimulations_eq {env : Env ε} (h : job.simTree.Exact env)
    (results : List SimulatedResult) :
    ∃ simTree, simTree.Exact env ∧ job.processNewSimulations env results =
      (true, { (results.foldl sendResult (job, [])).1 with simTree := simTree }) := by
  have htree := simTree_sendResults results (job, [])
  unfold processNewSimulations
  generalize results.foldl sendResult (job, []) = state at htree
  obtain ⟨job', valid⟩ := state
  dsimp only at htree ⊢
  obtain ⟨hok, hexact⟩ := (htree ▸ h : job'.simTree.Exact env).submit valid
  generalize job'.simTree.submitSimulationTasksResults env valid = out at hok hexact
  obtain ⟨out, simTree⟩ := out
  subst hok
  exact ⟨simTree, hexact, rfl⟩

theorem processNewOrder_eq (env : Env ε) (job : SimulationJob) (order : Order) :
    (job.processNewOrder env order).2 =
        { job with simTree := (job.simTree.pushOrder env order).2 } ∨
      (job.processNewOrder env order).2 =
        { job with
          simTree := (job.simTree.pushOrder env order).2
          inFlightOrders := insert order.id job.inFlightOrders } := by
  unfold processNewOrder
  rw [SimTree.pushOrders_singleton]
  generalize job.simTree.pushOrder env order = out
  obtain ⟨out, simTree⟩ := out
  cases out with
  | error e => exact .inl rfl
  | ok u => exact .inr rfl

theorem exact_run {env : Env ε} (capacity : Option Nat)
    (h : job.simTree.Exact env) (event : Event) : (event.run env capacity job).simTree.Exact env := by
  cases event with
  | command c =>
    cases c with
    | insert order =>
      rcases processNewOrder_eq env job order with heq | heq
      · rw [Event.run, processNewCommand, heq]
        exact h.pushOrder order
      · rw [Event.run, processNewCommand, heq]
        exact h.pushOrder order
    | remove id =>
      rw [Event.run, processNewCommand, processOrderCancellation, sendCancel]
      split_ifs
      · exact h
      · exact h
      · exact h
  | results newSimResults =>
    obtain ⟨simTree, hexact, heq⟩ := processNewSimulations_eq h newSimResults
    rw [Event.run, heq]
    exact hexact
  | sendTasks => exact (sends_sendLoop capacity _ job).exact h
  | simulate n => exact h

section

variable (env : Env ε) (capacity : Option Nat) (events : List Event)
include env capacity events

theorem jobAfter_append_singleton (event : Event) :
    jobAfter env capacity (events ++ [event]) =
      event.run env capacity (jobAfter env capacity events) := by
  unfold jobAfter
  rw [foldl_append, foldl_cons, foldl_nil]

theorem exact_jobAfter : (jobAfter env capacity events).simTree.Exact env := by
  induction events using reverseRecOn with
  | nil => exact SimTree.exact_new env
  | append_singleton events event ih =>
    rw [jobAfter_append_singleton]
    exact exact_run capacity ih event

/-- No result makes the job stop. -/
theorem processNewSimulations_goes_on (results : List SimulatedResult) :
    ((jobAfter env capacity events).processNewSimulations env results).1 = true := by
  obtain ⟨simTree, -, heq⟩ := processNewSimulations_eq (exact_jobAfter env capacity events) results
  rw [heq]

end

/-! ## What went downstream -/

def SimulatedOrderCommand.id : SimulatedOrderCommand → OrderId
  | .simulation order => order.order.id
  | .cancellation id => id

def SimulatedOrderCommand.isSimulation : SimulatedOrderCommand → Bool
  | .simulation _ => true
  | .cancellation _ => false

/-- The commands for the id, `true` for a simulation and `false` for a cancellation. -/
def kindsOf (id : OrderId) (sent : List SimulatedOrderCommand) : List Bool :=
  (sent.filter fun c => SimulatedOrderCommand.id c = id).map SimulatedOrderCommand.isSimulation

/-- Simulation, cancellation, simulation, and so on. -/
def Alternates (kinds : List Bool) : Prop := kinds.IsChain (· ≠ ·) ∧ kinds.head? ≠ some false

/-- The last command for the id is a simulation. -/
def LiveDownstream (id : OrderId) (sent : List SimulatedOrderCommand) : Prop :=
  (kindsOf id sent).getLast? = some true

instance (id : OrderId) (sent : List SimulatedOrderCommand) : Decidable (LiveDownstream id sent) :=
  inferInstanceAs (Decidable (_ = _))

theorem Alternates.append {kinds : List Bool} (h : Alternates kinds) {kind : Bool}
    (hlast : kinds.getLast? = some true ↔ kind = false) : Alternates (kinds ++ [kind]) := by
  refine ⟨isChain_append.mpr ⟨h.1, isChain_singleton _, ?_⟩, ?_⟩
  · rintro x hx y hy rfl
    cases hy
    cases kind with
    | true => cases hlast.mp hx
    | false => cases (hlast.mpr rfl).symm.trans hx
  · cases kinds with
    | nil =>
      intro hhead
      cases hlast.mpr (some.inj hhead)
    | cons k kinds => exact h.2

/-- The sent commands alternate, and the ids kept as sent are those that are live. -/
def Tracks (job : SimulationJob) : Prop :=
  ∀ id, Alternates (kindsOf id job.sent) ∧
    (id ∈ job.notCancelledSentSimulatedOrders ↔ LiveDownstream id job.sent)

theorem Tracks.of_eq (h : Tracks job) (hsent : job'.sent = job.sent)
    (hkept : job'.notCancelledSentSimulatedOrders = job.notCancelledSentSimulatedOrders) :
    Tracks job' := by
  unfold Tracks
  rw [hsent, hkept]
  exact h

theorem kindsOf_snoc (id : OrderId) (sent : List SimulatedOrderCommand) (c : SimulatedOrderCommand) :
    kindsOf id (sent ++ [c]) =
      if SimulatedOrderCommand.id c = id then kindsOf id sent ++ [SimulatedOrderCommand.isSimulation c]
      else kindsOf id sent := by
  by_cases hid : SimulatedOrderCommand.id c = id
  · simp [kindsOf, hid]
  · simp [kindsOf, hid]

/-- Another command is sent: its id becomes live, or not. -/
theorem Tracks.send (h : Tracks job) (c : SimulatedOrderCommand) (kept : Finset OrderId)
    (hother : ∀ id, id ≠ SimulatedOrderCommand.id c →
      (id ∈ kept ↔ id ∈ job.notCancelledSentSimulatedOrders))
    (hnew : SimulatedOrderCommand.id c ∈ kept ↔ SimulatedOrderCommand.isSimulation c = true)
    (hold : SimulatedOrderCommand.id c ∈ job.notCancelledSentSimulatedOrders ↔
      SimulatedOrderCommand.isSimulation c = false) :
    Tracks { job with notCancelledSentSimulatedOrders := kept, sent := job.sent ++ [c] } := by
  intro id
  unfold LiveDownstream
  rw [kindsOf_snoc]
  by_cases hid : SimulatedOrderCommand.id c = id
  · subst hid
    rw [if_pos rfl, getLast?_concat, some_inj]
    exact ⟨(h _).1.append ((h _).2.symm.trans hold), hnew⟩
  · rw [if_neg hid, hother id (Ne.symm hid)]
    exact h id

theorem Tracks.sendResult {state : SimulationJob × List SimulatedResult} (h : Tracks state.1)
    (result : SimulatedResult) : Tracks (sendResult state result).1 := by
  unfold SimulationJob.sendResult
  dsimp only
  split_ifs with hflight hkept
  · exact h.of_eq rfl rfl
  · have htracks : Tracks { state.1 with
        inFlightOrders := state.1.inFlightOrders.erase result.simulatedOrder.order.id } := h
    refine htracks.send (.simulation result.simulatedOrder) _ (fun id hid => ?_) ?_ ?_
    · exact mem_insert.trans (or_iff_right hid)
    · exact iff_of_true (mem_insert_self ..) rfl
    · exact iff_of_false hkept Bool.noConfusion
  · exact h

theorem Tracks.sendCancel (h : Tracks job) (id : OrderId) : Tracks (job.sendCancel id) := by
  unfold SimulationJob.sendCancel
  split_ifs with hkept
  · refine h.send (.cancellation id) _ (fun id' hid => ?_) ?_ ?_
    · exact mem_erase.trans (and_iff_right hid)
    · exact iff_of_false (notMem_erase _ _) Bool.false_ne_true
    · exact iff_of_true hkept rfl
  · exact h

theorem Tracks.sendResults (state : SimulationJob × List SimulatedResult) (h : Tracks state.1)
    (results : List SimulatedResult) : Tracks (results.foldl SimulationJob.sendResult state).1 := by
  induction results generalizing state with
  | nil => exact h
  | cons result results ih => exact ih _ (h.sendResult result)

theorem Tracks.run {env : Env ε} (capacity : Option Nat)
    (hexact : job.simTree.Exact env) (h : Tracks job) (event : Event) :
    Tracks (event.run env capacity job) := by
  cases event with
  | command c =>
    cases c with
    | insert order =>
      rcases processNewOrder_eq env job order with heq | heq
      · rw [Event.run, processNewCommand, heq]
        exact h
      · rw [Event.run, processNewCommand, heq]
        exact h
    | remove id =>
      rw [Event.run, processNewCommand, processOrderCancellation]
      split_ifs
      · exact h
      · exact h.sendCancel id
  | results newSimResults =>
    obtain ⟨simTree, -, heq⟩ := processNewSimulations_eq hexact newSimResults
    rw [Event.run, heq]
    exact Tracks.sendResults (job, []) h newSimResults
  | sendTasks =>
    have hsends : Sends ε job _ := sends_sendLoop capacity (job.simTree.readyOrders.length + 1) job
    exact h.of_eq hsends.sent hsends.kept
  | simulate n => exact h

theorem tracks_jobAfter (env : Env ε) (capacity : Option Nat) (events : List Event) :
    Tracks (jobAfter env capacity events) := by
  induction events using reverseRecOn with
  | nil =>
    intro id
    refine ⟨⟨isChain_nil, by simp [jobAfter, kindsOf]⟩, iff_of_false ?_ ?_⟩
    · exact notMem_empty id
    · simp [LiveDownstream, jobAfter, kindsOf]
  | append_singleton events event ih =>
    rw [jobAfter_append_singleton]
    exact ih.run capacity (exact_jobAfter env capacity events) event

/-! ## Cancellations -/

def OrderPoolCommand.id : OrderPoolCommand → OrderId
  | .insert order => order.id
  | .remove id => id

/-- The command for the id, if the event is one. -/
def Event.commandFor (id : OrderId) : Event → Option OrderPoolCommand
  | .command c => if OrderPoolCommand.id c = id then some c else none
  | _ => none

def lastCommand (id : OrderId) (events : List Event) : Option OrderPoolCommand :=
  (events.filterMap (Event.commandFor id)).getLast?

theorem lastCommand_snoc (id : OrderId) (events : List Event) (event : Event) :
    lastCommand id (events ++ [event]) =
      (Event.commandFor id event).or (lastCommand id events) := by
  unfold lastCommand
  cases hcommand : Event.commandFor id event with
  | none | some c => simp [hcommand]

variable {id : OrderId}

theorem command_of_commandFor {event : Event} {c : OrderPoolCommand}
    (h : Event.commandFor id event = some c) : event = .command c := by
  cases event with
  | command c' =>
    dsimp only [Event.commandFor] at h
    split_ifs at h
    cases h
    rfl
  | results _ | sendTasks | simulate _ => cases h

/-- An order that is not in flight stays as it is. -/
def Still (id : OrderId) (job job' : SimulationJob) : Prop :=
  id ∉ job.inFlightOrders → id ∉ job'.inFlightOrders ∧ kindsOf id job'.sent = kindsOf id job.sent

theorem Still.trans (h : Still id job job')
    (h' : Still id job' job'') : Still id job job'' := fun hout =>
  ⟨(h' (h hout).1).1, (h' (h hout).1).2.trans (h hout).2⟩

theorem still_sendResult (id : OrderId) (state : SimulationJob × List SimulatedResult)
    (result : SimulatedResult) : Still id state.1 (sendResult state result).1 := by
  intro hout
  unfold sendResult
  dsimp only
  split_ifs with hflight hkept
  · exact ⟨fun hmem => hout (mem_of_mem_erase hmem), rfl⟩
  · refine ⟨fun hmem => hout (mem_of_mem_erase hmem), ?_⟩
    have hne : SimulatedOrderCommand.id (.simulation result.simulatedOrder) ≠ id := by
      rintro rfl
      exact hout hflight
    rw [kindsOf_snoc, if_neg hne]
  · exact ⟨hout, rfl⟩

theorem still_sendResults (id : OrderId) (results : List SimulatedResult)
    (state : SimulationJob × List SimulatedResult) :
    Still id state.1 (results.foldl sendResult state).1 := by
  induction results generalizing state with
  | nil => exact fun hout => ⟨hout, rfl⟩
  | cons result results ih => exact (still_sendResult id state result).trans (ih _)

/-- Only a command for the id changes an order that is not in flight. -/
theorem still_run {env : Env ε} (capacity : Option Nat)
    (hexact : job.simTree.Exact env) {event : Event}
    (hcommand : Event.commandFor id event = none) : Still id job (event.run env capacity job) := by
  cases event with
  | command c =>
    have hne : OrderPoolCommand.id c ≠ id := fun heq => by simp [Event.commandFor, heq] at hcommand
    cases c with
    | insert order =>
      intro hout
      rcases processNewOrder_eq env job order with heq | heq
      · rw [Event.run, processNewCommand, heq]
        exact ⟨hout, rfl⟩
      rw [Event.run, processNewCommand, heq]
      refine ⟨fun hmem => ?_, rfl⟩
      rcases mem_insert.mp hmem with rfl | hmem
      · exact hne rfl
      · exact hout hmem
    | remove id' =>
      intro hout
      rw [Event.run, processNewCommand, processOrderCancellation, sendCancel]
      split_ifs
      · exact ⟨fun hmem => hout (mem_of_mem_erase hmem), rfl⟩
      · exact ⟨hout, (kindsOf_snoc ..).trans (if_neg hne)⟩
      · exact ⟨hout, rfl⟩
  | results newSimResults =>
    obtain ⟨simTree, -, heq⟩ := processNewSimulations_eq hexact newSimResults
    rw [Event.run, heq]
    exact still_sendResults id newSimResults (job, [])
  | sendTasks =>
    intro hout
    have hsends : Sends ε job _ := sends_sendLoop capacity (job.simTree.readyOrders.length + 1) job
    exact ⟨fun hmem => hout (hsends.inFlight hmem), by
      rw [Event.run, sendNewTasksForSimulation, hsends.sent]⟩
  | simulate n => exact fun hout => ⟨hout, rfl⟩

variable (env : Env ε) (capacity : Option Nat)

/-- A cancellation: the order is out of flight, and still live only if it was in flight too. -/
theorem remove_run (job : SimulationJob) (id : OrderId) :
    id ∉ (Event.run env capacity job (.command (.remove id))).inFlightOrders ∧
      (id ∈ (Event.run env capacity job (.command (.remove id))).notCancelledSentSimulatedOrders ↔
        id ∈ job.inFlightOrders ∧ id ∈ job.notCancelledSentSimulatedOrders) ∧
      ∃ more, kindsOf id (Event.run env capacity job (.command (.remove id))).sent =
        kindsOf id job.sent ++ more ∧ ∀ kind ∈ more, kind = false := by
  rw [Event.run, processNewCommand, processOrderCancellation, sendCancel]
  split_ifs with hflight hkept
  · exact ⟨notMem_erase _ _, ⟨fun hmem => ⟨hflight, hmem⟩, And.right⟩, [], by simp, by simp⟩
  · exact ⟨hflight, iff_of_false (notMem_erase _ _) fun h => hflight h.1, [false],
      (kindsOf_snoc ..).trans (if_pos rfl), by simp⟩
  · exact ⟨hflight, iff_of_false hkept fun h => hkept h.2, [], by simp, by simp⟩

/-- An order whose last command is its cancellation is not in flight. -/
theorem not_inFlight_of_removed (events : List Event)
    (hlast : lastCommand id events = some (.remove id)) :
    id ∉ (jobAfter env capacity events).inFlightOrders := by
  induction events using reverseRecOn with
  | nil => cases hlast
  | append_singleton events event ih =>
    rw [jobAfter_append_singleton]
    rw [lastCommand_snoc] at hlast
    cases hcommand : Event.commandFor id event with
    | none =>
      rw [hcommand, none_or] at hlast
      exact (still_run capacity (exact_jobAfter env capacity events) hcommand (ih hlast)).1
    | some c =>
      rw [hcommand, some_or, some_inj] at hlast
      subst hlast
      obtain rfl := command_of_commandFor hcommand
      exact (remove_run env capacity _ id).1

/-- The protocol of cancellations, in the state after the events. -/
structure Obeys (events : List Event) : Prop where
  alternates : ∀ id, Alternates (kindsOf id (jobAfter env capacity events).sent)
  notLive : ∀ id, lastCommand id events = some (.remove id) →
    ¬ LiveDownstream id (jobAfter env capacity events).sent
  quiet : ∀ id before after, events = before ++ .command (.remove id) :: after →
    (∀ order, .command (.insert order) ∈ after → order.id ≠ id) →
    ∃ more, kindsOf id (jobAfter env capacity events).sent =
      kindsOf id (jobAfter env capacity (before ++ [.command (.remove id)])).sent ++ more ∧
        ∀ kind ∈ more, kind = false

/-- After a cancellation there is no simulation, until the order is inserted again. -/
theorem quiet_after_remove (id : OrderId) (before after : List Event)
    (hinsert : ∀ order, .command (.insert order) ∈ after → order.id ≠ id) :
    lastCommand id (before ++ .command (.remove id) :: after) = some (.remove id) ∧
      ∃ more, kindsOf id (jobAfter env capacity (before ++ .command (.remove id) :: after)).sent =
        kindsOf id (jobAfter env capacity (before ++ [.command (.remove id)])).sent ++ more ∧
          ∀ kind ∈ more, kind = false := by
  induction after using reverseRecOn with
  | nil =>
    rw [lastCommand_snoc]
    simp [Event.commandFor, OrderPoolCommand.id]
  | append_singleton after event ih =>
    obtain ⟨hlast, more, hmore, hfalse⟩ := ih fun order horder =>
      hinsert order (mem_append_left _ horder)
    rw [← cons_append, ← append_assoc, lastCommand_snoc, jobAfter_append_singleton]
    generalize before ++ Event.command (.remove id) :: after = events at hlast hmore
    cases hcommand : Event.commandFor id event with
    | none =>
      have hstill := still_run capacity (exact_jobAfter env capacity events) hcommand
        (not_inFlight_of_removed env capacity events hlast)
      exact ⟨hlast, more, hstill.2.trans hmore, hfalse⟩
    | some c =>
      obtain rfl := command_of_commandFor hcommand
      have hid : OrderPoolCommand.id c = id := by
        by_contra hne
        simp [Event.commandFor, hne] at hcommand
      cases c with
      | insert order => exact absurd hid (hinsert order (by simp))
      | remove id' =>
        obtain rfl : id' = id := hid
        obtain ⟨-, -, more', hmore', hfalse'⟩ :=
          remove_run env capacity (jobAfter env capacity events) id'
        refine ⟨rfl, more ++ more', by rw [hmore', hmore, append_assoc], fun kind hkind => ?_⟩
        exact (mem_append.mp hkind).elim (hfalse kind) (hfalse' kind)

theorem obeys_iff_notLive (events : List Event) :
    Obeys env capacity events ↔ ∀ id, lastCommand id events = some (.remove id) →
      id ∉ (jobAfter env capacity events).notCancelledSentSimulatedOrders := by
  have htracks := tracks_jobAfter env capacity events
  constructor
  · exact fun h id hlast hkept => h.notLive id hlast ((htracks id).2.mp hkept)
  refine fun h => ⟨fun id => (htracks id).1, fun id hlast hlive =>
    h id hlast ((htracks id).2.mpr hlive), ?_⟩
  rintro id before after rfl hinsert
  exact (quiet_after_remove env capacity id before after hinsert).2

/-- A step keeps to the protocol unless it cancels an order that is in flight and live. -/
theorem obeys_snoc_iff (events : List Event) (event : Event)
    (h : Obeys env capacity events) :
    Obeys env capacity (events ++ [event]) ↔ ∀ id, event = .command (.remove id) →
      ¬ (id ∈ (jobAfter env capacity events).inFlightOrders ∧
        id ∈ (jobAfter env capacity events).notCancelledSentSimulatedOrders) := by
  rw [obeys_iff_notLive] at h ⊢
  rw [jobAfter_append_singleton]
  constructor
  · rintro hnext id rfl hboth
    refine hnext id ?_ ((remove_run env capacity _ id).2.1.mpr hboth)
    rw [lastCommand_snoc]
    simp [Event.commandFor, OrderPoolCommand.id]
  intro hevent id hlast hkept
  rw [lastCommand_snoc] at hlast
  cases hcommand : Event.commandFor id event with
  | none =>
    rw [hcommand, none_or] at hlast
    have hexact := exact_jobAfter env capacity events
    have hstill := still_run capacity hexact hcommand
      (not_inFlight_of_removed env capacity events hlast)
    have htracks := tracks_jobAfter env capacity events
    have hlive := ((htracks.run capacity hexact event) id).2.mp hkept
    unfold LiveDownstream at hlive
    rw [hstill.2] at hlive
    exact h id hlast ((htracks id).2.mpr hlive)
  | some c =>
    rw [hcommand, some_or, some_inj] at hlast
    subst hlast
    obtain rfl := command_of_commandFor hcommand
    exact hevent id rfl ((remove_run env capacity _ id).2.1.mp hkept)

/-- The job keeps to the protocol in every state of a run exactly if no order is cancelled while
    it is both in flight and live downstream. -/
theorem cancellations_obeyed_iff (events : List Event) :
    (∀ done, done <+: events → Obeys env capacity done) ↔
      ∀ done id, done ++ [.command (.remove id)] <+: events →
        ¬ (id ∈ (jobAfter env capacity done).inFlightOrders ∧
          id ∈ (jobAfter env capacity done).notCancelledSentSimulatedOrders) := by
  have hnil : Obeys env capacity [] := by
    rw [obeys_iff_notLive]
    intro id hlast
    cases hlast
  rw [Runs.forall_states_iff hnil (obeys_snoc_iff env capacity)]
  constructor
  · exact fun h done id hpre => h done _ hpre id rfl
  · rintro h done event hpre id rfl
    exact h done id hpre

/-! ### Example -/

/-- The order arrives, is simulated, arrives again and is cancelled. -/
def resubmitted : List Event :=
  [.command (.insert (txWithNonce 0)), .sendTasks, .simulate 1,
    .results [⟨0, ⟨txWithNonce 0, .new 0 0 ⟨0, 0, 0⟩ []⟩, [], [⟨.replicate 20 1, 1⟩]⟩],
    .command (.insert (txWithNonce 0)), .command (.remove (txWithNonce 0).id)]

/-- The cancelled order stays live downstream. -/
theorem cancelled_order_stays_live :
    lastCommand (txWithNonce 0).id resubmitted = some (.remove (txWithNonce 0).id) ∧
      LiveDownstream (txWithNonce 0).id (jobAfter newChain none resubmitted).sent := by
  constructor
  · rfl
  · decide

end SimulationJob

end Simulation
