/-
  Simulation of a list of orders.

  `simulate_all_orders_with_sim_tree` pushes the orders at once or, to debug, shuffled and a
  few in each round. When it returns it was one of the schedules of a `Driver`
  (`simulateAll_run`).
-/
import Rbuilder.Simulation.Confluence

namespace Simulation

open SparseMpt
open Building (OrderId SimValue)
open OrderInput (Order)
open List SimTree AList

/-- `OrderSimResult`; `δ` is the reason why an order fails. -/
inductive OrderSimResult (δ : Type) where
  | success (simValue : SimValue) (nonces : List (Address × UInt64))
  | failed (err : δ)

/-- `simulate_order` with the parents, in the state of the parent block. -/
abbrev Simulate (δ κ : Type) := List Order → Order → Except κ (OrderSimResult δ)

inductive SimError (ε κ : Type) where
  | tree (failure : Failure ε)
  | critical (error : κ)
  | outOfFuel

variable {ε δ κ : Type}

def simulateTasks (simulate : Simulate δ κ) :
    List SimulationRequest → Except κ (List SimulatedResult × List δ)
  | [] => .ok ([], [])
  | task :: tasks =>
    match simulate task.parents task.order with
    | .error e => .error e
    | .ok result =>
      match simulateTasks simulate tasks with
      | .error e => .error e
      | .ok (results, errors) =>
        match result with
        | .failed err => .ok (results, err :: errors)
        | .success simValue nonces =>
          .ok (⟨task.id, ⟨task.order, simValue⟩, task.parents,
            nonces.map fun nonce => ⟨nonce.1, nonce.2⟩⟩ :: results, errors)

/-- The rounds of the loop. -/
def simLoop (env : Env ε) (simulate : Simulate δ κ) (randomizeInsertion : Bool)
    (randomInsertSize : Nat) :
    Nat → SimTree → List Order → List δ → Except (SimError ε κ) (SimTree × List δ)
  | 0, _, _, _ => .error .outOfFuel
  | fuel + 1, tree, orders, simErrors =>
    -- mix new orders into the tree
    let insertSize :=
      if randomizeInsertion && !orders.isEmpty then min randomInsertSize orders.length else 0
    match tree.pushOrders env (orders.take insertSize) with
    | (.error e, _) => .error (.tree e)
    | (.ok _, tree) =>
      let orders := orders.drop insertSize
      let simTasks := (tree.popSimulationTasks 1000).1
      let tree := (tree.popSimulationTasks 1000).2
      if simTasks.isEmpty then
        if randomizeInsertion && !orders.isEmpty then
          simLoop env simulate randomizeInsertion randomInsertSize fuel tree orders simErrors
        else .ok (tree, simErrors)
      else
        match simulateTasks simulate simTasks with
        | .error e => .error (.critical e)
        | .ok (simResults, errors) =>
          match tree.submitSimulationTasksResults env simResults with
          | (.error e, _) => .error (.tree e)
          | (.ok _, tree) =>
            simLoop env simulate randomizeInsertion randomInsertSize fuel tree orders
              (simErrors ++ errors)

/-- The results and the errors. With `randomizeInsertion` the orders are shuffled. -/
def simulateAllOrdersWithSimTree (env : Env ε) (simulate : Simulate δ κ) (fuel : Nat)
    (shuffle : List Order → List Order) (orders : List Order) (randomizeInsertion : Bool) :
    Except (SimError ε κ) (SimTree × List δ) :=
  let randomInsertSize := max (orders.length / 20) 1
  if randomizeInsertion then
    simLoop env simulate true randomInsertSize fuel {} (shuffle orders) []
  else
    match SimTree.pushOrders env {} orders with
    | (.error e, _) => .error (.tree e)
    | (.ok _, tree) => simLoop env simulate false randomInsertSize fuel tree orders []

/-! ## The loop is a schedule -/

namespace Driver

variable {env : Env ε} {simulate : Simulate δ κ} {sim : Order → Option (List NonceKey)}

/-- Whether a simulation succeeds and the nonces it updates depend only on the order. -/
structure Determines (simulate : Simulate δ κ) (sim : Order → Option (List NonceKey)) : Prop where
  success : ∀ {parents order simValue nonces},
    simulate parents order = .ok (.success simValue nonces) →
    sim order = some (nonces.map fun nonce => ⟨nonce.1, nonce.2⟩)
  failed : ∀ {parents order err}, simulate parents order = .ok (.failed err) → sim order = none

theorem Determines.results (hsim : Determines simulate sim) {tasks : List SimulationRequest}
    {results : List SimulatedResult} {errors : List δ}
    (h : simulateTasks simulate tasks = .ok (results, errors)) : Results sim tasks results := by
  induction tasks generalizing results errors with
  | nil => cases h; exact .nil
  | cons task tasks ih =>
    unfold simulateTasks at h
    cases hone : simulate task.parents task.order with
    | error e => rw [hone] at h; cases h
    | ok result =>
      rw [hone] at h
      cases hrest : simulateTasks simulate tasks with
      | error e => rw [hrest] at h; cases h
      | ok rest =>
        rw [hrest] at h
        cases result with
        | success simValue nonces =>
          cases h
          exact .succeeded ⟨rfl, rfl, rfl, hsim.success hone⟩ (ih hrest)
        | failed err =>
          cases h
          exact .failed (hsim.failed hone) (ih hrest)

/-- A loop that returns has run its rounds, each a push, a pop and a submission, until no task
    and no order was left. -/
theorem simLoop_run (hsim : Determines simulate sim) (randomizeInsertion : Bool)
    {randomInsertSize fuel : Nat} {d : Driver} (hout : d.outstanding = []) {orders : List Order}
    (hpush : d.toPush = if randomizeInsertion then orders else []) {simErrors errors : List δ}
    {tree : SimTree}
    (h : simLoop env simulate randomizeInsertion randomInsertSize fuel d.tree orders simErrors =
      .ok (tree, errors)) :
    ∃ d', d'.tree = tree ∧ Relation.ReflTransGen (Step env sim) d d' ∧ d'.Complete := by
  induction fuel generalizing d orders simErrors with
  | zero => cases h
  | succ fuel ih =>
    unfold simLoop at h
    dsimp only at h
    generalize hinsert : (if randomizeInsertion && !orders.isEmpty then
      min randomInsertSize orders.length else 0) = insertSize at h
    generalize hrest : (if randomizeInsertion then orders.drop insertSize else []) = rest
    have hsplit : d.toPush = orders.take insertSize ++ rest := by
      rw [← hrest]
      cases randomizeInsertion with
      | false =>
        rw [← hinsert]
        simpa using hpush
      | true => rw [hpush, if_pos rfl, if_pos rfl, take_append_drop]
    split at h
    next => cases h
    next tree₁ hpushed =>
    have hstep₁ : Step env sim d { d with tree := tree₁, toPush := rest } :=
      .push (hsplit ▸ Perm.refl _) hpushed
    let d₂ := Driver.pop { d with tree := tree₁, toPush := rest } 1000
    have hstep₂ : Step env sim { d with tree := tree₁, toPush := rest } d₂ := .pop 1000 (by omega)
    have hout₂ : d₂.outstanding = (tree₁.popSimulationTasks 1000).1 ++ [] := by
      dsimp only [d₂, Driver.pop]
      rw [hout, nil_append, append_nil]
    split_ifs at h with htasks hmore
    · obtain ⟨d', htree, hrun, hdone⟩ :=
        ih (d := d₂) (by rw [hout₂, isEmpty_iff.mp htasks, nil_append]) hrest.symm h
      exact ⟨d', htree, .head hstep₁ (.head hstep₂ hrun), hdone⟩
    · cases h
      rw [isEmpty_iff.mp htasks] at hout₂
      refine ⟨d₂, rfl, .head hstep₁ (.single hstep₂), ?_, ?_, hout₂⟩
      · dsimp only [d₂, Driver.pop]
        rw [← hrest]
        cases randomizeInsertion with
        | false => rfl
        | true => simpa using hmore
      · have hlength := congrArg length (isEmpty_iff.mp htasks)
        dsimp only [popSimulationTasks] at hlength
        rw [length_take, length_nil] at hlength
        have hready : tree₁.readyOrders = [] := length_eq_zero_iff.mp (by omega)
        dsimp only [d₂, Driver.pop, popSimulationTasks]
        rw [hready, drop_nil]
    · split at h
      next => cases h
      next simResults errors' hresults =>
      split at h
      next => cases h
      next tree₃ hsubmit =>
      have hstep₃ : Step env sim d₂ { d₂ with tree := tree₃, outstanding := [] } :=
        .submit (hout₂ ▸ Perm.refl _) (hsim.results hresults) hsubmit
      obtain ⟨d', htree, hrun, hdone⟩ :=
        ih (d := { d₂ with tree := tree₃, outstanding := [] }) rfl hrest.symm h
      exact ⟨d', htree, .head hstep₁ (.head hstep₂ (.head hstep₃ hrun)), hdone⟩

/-- A simulation of all orders that returns, whether they are inserted at once or shuffled, is a
    schedule of a driver that leaves no task. -/
theorem simulateAll_run (hsim : Determines simulate sim) {shuffle : List Order → List Order}
    (hshuffle : ∀ orders, (shuffle orders).Perm orders) {orders : List Order}
    {randomizeInsertion : Bool} {fuel : Nat} {tree : SimTree} {errors : List δ}
    (h : simulateAllOrdersWithSimTree env simulate fuel shuffle orders randomizeInsertion =
      .ok (tree, errors)) :
    ∃ d, d.tree = tree ∧ Run env sim orders d ∧ d.Complete := by
  unfold simulateAllOrdersWithSimTree at h
  cases randomizeInsertion with
  | true =>
    obtain ⟨d, htree, hrun, hdone⟩ :=
      simLoop_run hsim true (d := { toPush := shuffle orders }) rfl rfl h
    have hperm : orders.Perm ([] ++ shuffle orders) := (hshuffle orders).symm
    exact ⟨d, htree, .head (.push hperm rfl) hrun, hdone⟩
  | false =>
    rw [if_neg Bool.false_ne_true] at h
    split at h
    next => cases h
    next tree₁ hpushed =>
    obtain ⟨d, htree, hrun, hdone⟩ :=
      simLoop_run hsim false (d := { tree := tree₁, toPush := [] }) rfl rfl h
    exact ⟨d, htree, .head (.push ((append_nil orders).symm ▸ Perm.refl _) hpushed) hrun, hdone⟩

/-- Any two schedules of the same orders, run until no task is left, hand out the same orders. -/
theorem requests_independent_of_schedule (env : Env ε) (sim : Order → Option (List NonceKey))
    (orders : List Order) (hids : (orders.map Order.id).Nodup) {d₁ d₂ : Driver}
    (hrun₁ : Run env sim orders d₁) (hdone₁ : d₁.Complete) (hrun₂ : Run env sim orders d₂)
    (hdone₂ : d₂.Complete) (order : Order) : order ∈ d₁.handedOut ↔ order ∈ d₂.handedOut := by
  rw [(hrun₁.sound hids).handedOut_iff hdone₁, (hrun₂.sound hids).handedOut_iff hdone₂]

/-! ### Example -/

/-- Every simulation succeeds and updates the nonces of its order. -/
def succeeding : Simulate Unit Unit := fun _ order =>
  .ok (.success (.new 0 0 ⟨0, 0, 0⟩ []) (order.nonces.map fun n => (n.address, n.nonce + 1)))

def nextNonces (order : Order) : Option (List NonceKey) :=
  some ((order.nonces.map fun n => (n.address, n.nonce + 1)).map fun n => ⟨n.1, n.2⟩)

/-- The second transaction of a signer is simulated, in whichever order the two arrive. -/
theorem requests_independent_of_schedule_shuffled :
    ∃ d₁ d₂ : Driver, Run newChain nextNonces [txWithNonce 0, txWithNonce 1] d₁ ∧ d₁.Complete ∧
      Run newChain nextNonces [txWithNonce 0, txWithNonce 1] d₂ ∧ d₂.Complete ∧
      txWithNonce 1 ∈ d₁.handedOut ∧
      (txWithNonce 1 ∈ d₁.handedOut ↔ txWithNonce 1 ∈ d₂.handedOut) := by
  have hsim : Determines succeeding nextNonces := ⟨fun h => by cases h; rfl, fun h => by cases h⟩
  have hids : ([txWithNonce 0, txWithNonce 1].map Order.id).Nodup := by decide
  have hreturns (randomizeInsertion : Bool) : ∃ tree errors,
      simulateAllOrdersWithSimTree newChain succeeding 4 List.reverse
        [txWithNonce 0, txWithNonce 1] randomizeInsertion = .ok (tree, errors) := by
    cases randomizeInsertion with
    | false | true => exact ⟨_, _, rfl⟩
  obtain ⟨_, _, h₁⟩ := hreturns false
  obtain ⟨d₁, -, hrun₁, hdone₁⟩ := simulateAll_run hsim List.reverse_perm h₁
  obtain ⟨_, _, h₂⟩ := hreturns true
  obtain ⟨d₂, -, hrun₂, hdone₂⟩ := simulateAll_run hsim List.reverse_perm h₂
  refine ⟨d₁, d₂, hrun₁, hdone₁, hrun₂, hdone₂, ?_,
    requests_independent_of_schedule newChain _ _ hids hrun₁ hdone₁
    hrun₂ hdone₂ _⟩
  -- the first transaction needs nothing and updates the nonce that the second one needs
  have hneeds : needs newChain (txWithNonce 0) = .ok (some []) := rfl
  have hfirst : Reached newChain nextNonces [txWithNonce 0, txWithNonce 1] (txWithNonce 0) :=
    .intro (fun _ => txWithNonce 0) (by simp) hneeds (by simp) (by simp)
  have hneeds' : needs newChain (txWithNonce 1) = .ok (some [⟨.replicate 20 1, 1⟩]) := rfl
  rw [(hrun₁.sound hids).handedOut_iff hdone₁]
  refine .intro (fun _ => txWithNonce 0) (by simp) hneeds' (fun _ _ => hfirst) ?_
  intro key hkey
  rw [List.mem_singleton.mp hkey]
  rfl

end Driver

end Simulation
