/-
  The orders that are simulated do not depend on the schedule.

  A `Driver` pushes orders, takes tasks and submits their results, in any order and any
  batches. Whether a simulation succeeds and the nonces it updates depend only on its order.
  The orders it ever takes once nothing is left are those of `Reached`: every nonce that the
  order needs is the only one that some reached order updates.
-/
import Rbuilder.Simulation.Bookkeeping
import Mathlib.Logic.Relation

namespace Simulation

open Building (OrderId)
open OrderInput (Order)
open SimTree List

variable {ε : Type}

/-- The tree, the orders to push, the tasks without a result and the orders of all tasks. -/
structure Driver where
  tree : SimTree := {}
  toPush : List Order
  outstanding : List SimulationRequest := []
  handedOut : List Order := []

/-- The result of a task that succeeds. -/
structure Answers (sim : Order → Option (List NonceKey)) (task : SimulationRequest)
    (result : SimulatedResult) : Prop where
  id : result.id = task.id
  order : result.simulatedOrder.order = task.order
  previousOrders : result.previousOrders = task.parents
  noncesAfter : sim task.order = some result.noncesAfter

/-- The results of the tasks; one that fails has none. -/
inductive Results (sim : Order → Option (List NonceKey)) :
    List SimulationRequest → List SimulatedResult → Prop where
  | nil : Results sim [] []
  | failed {task tasks results} : sim task.order = none → Results sim tasks results →
      Results sim (task :: tasks) results
  | succeeded {task tasks result results} : Answers sim task result → Results sim tasks results →
      Results sim (task :: tasks) (result :: results)

namespace Driver

def pop (d : Driver) (limit : Nat) : Driver :=
  { d with
    tree := (d.tree.popSimulationTasks limit).2
    outstanding := d.outstanding ++ (d.tree.popSimulationTasks limit).1
    handedOut := d.handedOut ++ (d.tree.popSimulationTasks limit).1.map SimulationRequest.order }

/-- A call on the tree that does not fail. -/
inductive Step (env : Env ε) (sim : Order → Option (List NonceKey)) : Driver → Driver → Prop where
  | push {d : Driver} {batch rest : List Order} {tree : SimTree} :
      d.toPush.Perm (batch ++ rest) → d.tree.pushOrders env batch = (.ok (), tree) →
      Step env sim d { d with tree := tree, toPush := rest }
  | pop {d : Driver} (limit : Nat) : 1 ≤ limit → Step env sim d (d.pop limit)
  | submit {d : Driver} {batch rest : List SimulationRequest} {results : List SimulatedResult}
      {tree : SimTree} :
      d.outstanding.Perm (batch ++ rest) → Results sim batch results →
      d.tree.submitSimulationTasksResults env results = (.ok (), tree) →
      Step env sim d { d with tree := tree, outstanding := rest }

def Run (env : Env ε) (sim : Order → Option (List NonceKey)) (orders : List Order) (d : Driver) :
    Prop :=
  Relation.ReflTransGen (Step env sim) { toPush := orders } d

/-- No task is left. -/
structure Complete (d : Driver) : Prop where
  toPush : d.toPush = []
  readyOrders : d.tree.readyOrders = []
  outstanding : d.outstanding = []

end Driver

/-- The orders that can be simulated: each nonce they need is the only one that another of
    them updates. -/
inductive Reached (env : Env ε) (sim : Order → Option (List NonceKey)) (orders : List Order) :
    Order → Prop where
  | intro {order : Order} {keys : List NonceKey} (provider : NonceKey → Order) :
      order ∈ orders → needs env order = .ok (some keys) →
      (∀ key ∈ keys, Reached env sim orders (provider key)) →
      (∀ key ∈ keys, sim (provider key) = some [key]) → Reached env sim orders order

namespace Driver

/-- What holds of every driver that a run reaches. -/
structure Sound (env : Env ε) (sim : Order → Option (List NonceKey)) (orders : List Order)
    (d : Driver) : Prop where
  exact_tree : d.tree.Exact env
  toPush_mem : ∀ order ∈ d.toPush, order ∈ orders
  toPush_nodup : d.toPush.Nodup
  pending_mem : ∀ id pending, d.tree.pendingOrders.lookup id = some pending →
    pending.order ∈ orders ∧ pending.order ∉ d.toPush
  ready_reached : ∀ request ∈ d.tree.readyOrders, Reached env sim orders request.order
  handedOut_reached : ∀ order ∈ d.handedOut, Reached env sim orders order
  outstanding_handedOut : ∀ task ∈ d.outstanding, task.order ∈ d.handedOut
  key_reached : ∀ key ∈ d.tree.simsThatUpdateOneNonce,
    ∃ order, Reached env sim orders order ∧ sim order = some [key]
  accounted : ∀ order ∈ orders, order ∈ d.toPush ∨ needs env order = .ok none ∨
    (∃ n, d.tree.pendingOrders.lookup order.id = some ⟨order, n⟩) ∨
    order ∈ d.tree.readyOrders.map SimulationRequest.order ∨ order ∈ d.handedOut
  answered : ∀ order ∈ d.handedOut, order ∈ d.outstanding.map SimulationRequest.order ∨
    ∀ key, sim order = some [key] → key ∈ d.tree.simsThatUpdateOneNonce

variable {env : Env ε} {sim : Order → Option (List NonceKey)} {orders toPush batch : List Order}

theorem sound_start (hids : (orders.map Order.id).Nodup) :
    Sound env sim orders { toPush := orders } where
  exact_tree := exact_new env
  toPush_mem := fun _ h => h
  toPush_nodup := hids.of_map
  pending_mem := by
    intro id pending h
    cases h
  ready_reached := by simp
  handedOut_reached := by simp
  outstanding_handedOut := by simp
  key_reached := by
    intro key h
    cases h
  accounted := fun _ h => .inl h
  answered := by simp

variable {d d' : Driver} {order : Order} {rest outstanding : List SimulationRequest}

/-- An order whose needed keys are all updated is reached. -/
theorem Sound.reached (hkeys : ∀ key ∈ d.tree.simsThatUpdateOneNonce,
      ∃ order, Reached env sim orders order ∧ sim order = some [key])
    (horder : order ∈ orders) {keys : List NonceKey} (hneeds : needs env order = .ok (some keys))
    (hwaiting : d.tree.waiting keys = []) : Reached env sim orders order := by
  have hupdated : ∀ key ∈ keys, ∃ o, Reached env sim orders o ∧ sim o = some [key] := by
    intro key hkey
    by_contra habsent
    have hmem : key ∈ d.tree.waiting keys :=
      mem_waiting.mpr ⟨hkey, fun hpresent => habsent (hkeys key hpresent)⟩
    rw [hwaiting] at hmem
    cases hmem
  have : Nonempty Order := ⟨order⟩
  choose! provider hprovider using hupdated
  exact .intro provider horder hneeds (fun key hkey => (hprovider key hkey).1) fun key hkey =>
    (hprovider key hkey).2

theorem Sound.perm (h : Sound env sim orders d) (hpush : d.toPush.Perm toPush)
    (hout : d.outstanding.Perm outstanding) :
    Sound env sim orders { d with toPush := toPush, outstanding := outstanding } where
  __ := h
  toPush_mem order horder := h.toPush_mem order (hpush.mem_iff.mpr horder)
  toPush_nodup := hpush.nodup_iff.mp h.toPush_nodup
  pending_mem id pending hpending :=
    ⟨(h.pending_mem id pending hpending).1, fun hmem =>
      (h.pending_mem id pending hpending).2 (hpush.mem_iff.mpr hmem)⟩
  outstanding_handedOut task htask := h.outstanding_handedOut task (hout.mem_iff.mpr htask)
  accounted order horder := (h.accounted order horder).imp_left hpush.mem_iff.mp
  answered order horder := (h.answered order horder).imp_left (hout.map _).mem_iff.mp

/-- Ids are distinct, so an order that is still to push is not pending. -/
theorem Sound.not_pending (h : Sound env sim orders d)
    (hids : (orders.map Order.id).Nodup) (horder : order ∈ d.toPush) :
    order.id ∉ d.tree.pendingOrders := by
  intro hmem
  obtain ⟨pending, hpending⟩ := AList.exists_lookup hmem
  obtain ⟨hpendingMem, hnotPushed⟩ := h.pending_mem _ _ hpending
  have hown := (h.exact_tree.waits _ _ hpending).ownId
  rw [inj_on_of_nodup_map hids hpendingMem (h.toPush_mem order horder) hown] at hnotPushed
  exact hnotPushed horder

theorem Sound.push_one (h : Sound env sim orders d)
    (hids : (orders.map Order.id).Nodup) {rest : List Order}
    (hpush : d.toPush = order :: rest) {tree : SimTree}
    (hok : d.tree.pushOrder env order = (.ok (), tree)) :
    Sound env sim orders { d with tree := tree, toPush := rest } := by
  have horder : order ∈ d.toPush := by
    rw [hpush]
    exact mem_cons_self
  have hrest {o : Order} (ho : o ∈ rest) : o ∈ d.toPush := by
    rw [hpush]
    exact mem_cons_of_mem _ ho
  obtain ⟨hnotRest, hnodup⟩ : order ∉ rest ∧ rest.Nodup := by
    rw [← nodup_cons, ← hpush]
    exact h.toPush_nodup
  have hpendingOld {id : OrderId} {pending : PendingOrder}
      (hpending : d.tree.pendingOrders.lookup id = some pending) :
      pending.order ∈ orders ∧ pending.order ∉ rest :=
    ⟨(h.pending_mem id pending hpending).1, fun ho => (h.pending_mem id pending hpending).2 (hrest ho)⟩
  have haccounted {o : Order} (ho : o ∈ orders) (hne : o ≠ order) : o ∈ rest ∨ needs env o = .ok none ∨
      (∃ n, d.tree.pendingOrders.lookup o.id = some ⟨o, n⟩) ∨
      o ∈ d.tree.readyOrders.map SimulationRequest.order ∨ o ∈ d.handedOut := by
    refine (h.accounted o ho).imp_left fun hmem => ?_
    rw [hpush] at hmem
    exact (mem_cons.mp hmem).resolve_left hne
  have houtcome := pushOrder_outcome env h.exact_tree.simsKept order
  have hexact := h.exact_tree.pushOrder order
  rw [hok] at houtcome hexact
  cases houtcome with
  | alreadyPending hmem => exact absurd hmem (h.not_pending hids horder)
  | invalid hneeds =>
    refine ⟨hexact, fun o ho => h.toPush_mem o (hrest ho), hnodup, fun _ _ => hpendingOld,
      h.ready_reached, h.handedOut_reached, h.outstanding_handedOut, h.key_reached,
      fun o ho => ?_, h.answered⟩
    by_cases heq : o = order
    · exact .inr (.inl (heq ▸ hneeds))
    · exact haccounted ho heq
  | pends keys _ hnew hneeds hwaiting hpends =>
    refine ⟨hexact, fun o ho => h.toPush_mem o (hrest ho), hnodup, fun id pending hpending => ?_,
      ?_, h.handedOut_reached, h.outstanding_handedOut, ?_, fun o ho => ?_, ?_⟩
    · rw [hpends.pendingOrders] at hpending
      obtain ⟨rfl, rfl⟩ | ⟨-, hpending⟩ := AList.lookup_insert_eq_some hpending
      · exact ⟨h.toPush_mem order horder, hnotRest⟩
      · exact hpendingOld hpending
    · rw [hpends.readyOrders]
      exact h.ready_reached
    · rw [hpends.simsThatUpdateOneNonce]
      exact h.key_reached
    · rw [hpends.readyOrders, hpends.pendingOrders]
      by_cases heq : o = order
      · subst heq
        exact .inr (.inr (.inl ⟨_, AList.lookup_insert _⟩))
      have hid : o.id ≠ order.id := fun hid =>
        heq (inj_on_of_nodup_map hids ho (h.toPush_mem order horder) hid)
      rw [AList.lookup_insert_ne hid]
      exact haccounted ho heq
    · rw [hpends.simsThatUpdateOneNonce]
      exact h.answered
  | ready keys _ hneeds hwaiting =>
    have hreached := Sound.reached h.key_reached (h.toPush_mem order horder) hneeds hwaiting
    refine ⟨hexact, fun o ho => h.toPush_mem o (hrest ho), hnodup, fun _ _ => hpendingOld,
      fun request hrequest => ?_, h.handedOut_reached, h.outstanding_handedOut, h.key_reached,
      fun o ho => ?_, h.answered⟩
    · rcases mem_append.mp hrequest with hold | hnew
      · exact h.ready_reached request hold
      · rw [mem_singleton.mp hnew]
        exact hreached
    dsimp only [pushReady]
    rw [map_append, mem_append]
    by_cases heq : o = order
    · exact .inr (.inr (.inr (.inl (.inr (by simp [heq])))))
    rcases haccounted ho heq with hmem | hneeds | hpending | hready | hhanded
    · exact .inl hmem
    · exact .inr (.inl hneeds)
    · exact .inr (.inr (.inl hpending))
    · exact .inr (.inr (.inr (.inl (.inl hready))))
    · exact .inr (.inr (.inr (.inr hhanded)))

theorem Sound.push (hids : (orders.map Order.id).Nodup) {rest : List Order}
    (h : Sound env sim orders { d with toPush := batch ++ rest }) {tree : SimTree}
    (hok : d.tree.pushOrders env batch = (.ok (), tree)) :
    Sound env sim orders { d with tree := tree, toPush := rest } := by
  induction batch generalizing d with
  | nil =>
    cases hok
    exact h
  | cons order batch ih =>
    unfold pushOrders forEach at hok
    cases hstep : d.tree.pushOrder env order with
    | mk out tree₁ =>
      rw [hstep] at hok
      cases out with
      | error e => cases hok
      | ok u => exact ih (d := { d with tree := tree₁ }) (h.push_one hids rfl hstep) hok

theorem Sound.pop (h : Sound env sim orders d) (limit : Nat) :
    Sound env sim orders (d.pop limit) := by
  have hsplit : d.tree.readyOrders =
      (d.tree.popSimulationTasks limit).1 ++ (d.tree.popSimulationTasks limit).2.readyOrders :=
    (take_append_drop ..).symm
  have hpopped {task : SimulationRequest} (htask : task ∈ (d.tree.popSimulationTasks limit).1) :
      task ∈ d.tree.readyOrders := by
    rw [hsplit]
    exact mem_append_left _ htask
  refine ⟨h.exact_tree.pop limit, h.toPush_mem, h.toPush_nodup, h.pending_mem, ?_, ?_, ?_,
    h.key_reached, ?_, ?_⟩
  · intro request hrequest
    exact h.ready_reached request (hsplit ▸ mem_append_right _ hrequest)
  · intro order horder
    rcases mem_append.mp horder with hold | hnew
    · exact h.handedOut_reached order hold
    · obtain ⟨task, htask, rfl⟩ := mem_map.mp hnew
      exact h.ready_reached task (hpopped htask)
  · intro task htask
    rcases mem_append.mp htask with hold | hnew
    · exact mem_append_left _ (h.outstanding_handedOut task hold)
    · exact mem_append_right _ (mem_map_of_mem hnew)
  · intro order horder
    rcases h.accounted order horder with hmem | hneeds | hpending | hready | hhanded
    · exact .inl hmem
    · exact .inr (.inl hneeds)
    · exact .inr (.inr (.inl hpending))
    · rw [hsplit, map_append] at hready
      rcases mem_append.mp hready with hpop | hrest
      · exact .inr (.inr (.inr (.inr (mem_append_right _ hpop))))
      · exact .inr (.inr (.inr (.inl hrest)))
    · exact .inr (.inr (.inr (.inr (mem_append_left _ hhanded))))
  intro order horder
  change order ∈ (d.outstanding ++ _).map SimulationRequest.order ∨ _
  rw [map_append, mem_append]
  rcases mem_append.mp horder with hold | hnew
  · exact (h.answered order hold).imp_left .inl
  · exact .inl (.inr hnew)

/-- A task that fails has no result to wait for. -/
theorem Sound.fail {task : SimulationRequest}
    (h : Sound env sim orders { d with outstanding := task :: rest })
    (hfailed : sim task.order = none) : Sound env sim orders { d with outstanding := rest } where
  __ := h
  outstanding_handedOut t ht := h.outstanding_handedOut t (mem_cons_of_mem _ ht)
  answered := by
    intro order horder
    rcases h.answered order horder with hout | hkeys
    · rcases mem_cons.mp hout with rfl | hout
      · right
        intro key hkey
        rw [hfailed] at hkey
        cases hkey
      · exact .inl hout
    · exact .inr hkeys

theorem Sound.succeed {task : SimulationRequest}
    (h : Sound env sim orders { d with outstanding := task :: rest }) {result : SimulatedResult}
    (hresult : Answers sim task result) :
    Sound env sim orders { d with
      tree := (d.tree.processSimulationTaskResult env result).2, outstanding := rest } := by
  have htask : task.order ∈ d.handedOut := h.outstanding_handedOut task mem_cons_self
  have hexact := h.exact_tree.processResult result
  obtain ⟨tree, requests, hprocess, hrec⟩ := processResult_outcome h.exact_tree result
  rw [hprocess] at hexact ⊢
  have hkeys : ∀ key ∈ tree.simsThatUpdateOneNonce,
      ∃ order, Reached env sim orders order ∧ sim order = some [key] := by
    intro key hkey
    rcases (hrec.updated key).mp hkey with hold | hnew
    · exact h.key_reached key hold
    · exact ⟨task.order, h.handedOut_reached _ htask, by rw [hresult.noncesAfter, hnew]⟩
  have hstays {id : OrderId} {pending : PendingOrder}
      (hpending : tree.pendingOrders.lookup id = some pending) :
      ∃ n, d.tree.pendingOrders.lookup id = some ⟨pending.order, n⟩ := by
    rw [hrec.pendingOrders id] at hpending
    split_ifs at hpending
    · obtain ⟨old, hold, hsatisfied⟩ := Option.bind_eq_some_iff.mp hpending
      unfold satisfied at hsatisfied
      split_ifs at hsatisfied
      cases hsatisfied
      exact ⟨_, hold⟩
    · exact ⟨_, hpending⟩
  refine ⟨hexact, h.toPush_mem, h.toPush_nodup, fun id pending hpending => ?_,
    fun request hrequest => ?_,
    h.handedOut_reached, fun t ht => h.outstanding_handedOut t (mem_cons_of_mem _ ht), hkeys,
    fun order horder => ?_, fun order horder => ?_⟩
  · obtain ⟨n, hold⟩ := hstays hpending
    exact h.pending_mem id ⟨pending.order, n⟩ hold
  · rcases mem_append.mp hrequest with hold | hnew
    · exact h.ready_reached request hold
    -- a new request is for an order that was pending
    obtain ⟨⟨id, n, hpending⟩, keys, hneeds, hwaiting⟩ :=
      hrec.ready_waiting h.exact_tree request.order (mem_map_of_mem hnew)
    exact Sound.reached (d := { d with tree := tree }) hkeys (h.pending_mem id _ hpending).1 hneeds
      hwaiting
  · rw [map_append, mem_append]
    rcases h.accounted order horder with hmem | hneeds | ⟨n, hpending⟩ | hready | hhanded
    · exact .inl hmem
    · exact .inr (.inl hneeds)
    · have hleaves := h.exact_tree.leaves_by_request result hpending
      rw [hprocess] at hleaves
      rcases hleaves with hstill | ⟨-, orders', ⟨requests', hreq, rfl⟩, hfilter⟩
      · exact .inr (.inr (.inl hstill))
      obtain rfl := append_cancel_left hreq
      refine .inr (.inr (.inr (.inl (.inr ?_))))
      have hmem : order ∈ (requests.map SimulationRequest.order).filter fun o => o.id = order.id := by
        rw [hfilter]
        exact mem_singleton_self _
      exact (mem_filter.mp hmem).1
    · exact .inr (.inr (.inr (.inl (.inl hready))))
    · exact .inr (.inr (.inr (.inr hhanded)))
  · have hkept {key : NonceKey} (hkey : key ∈ d.tree.simsThatUpdateOneNonce) :
        key ∈ tree.simsThatUpdateOneNonce := (hrec.updated key).mpr (.inl hkey)
    rcases h.answered order horder with hout | hanswered
    · rcases mem_cons.mp hout with rfl | hout
      · right
        intro key hkey
        rw [hresult.noncesAfter] at hkey
        exact (hrec.updated key).mpr (.inr (Option.some.inj hkey))
      · exact .inl hout
    · exact .inr fun key hkey => hkept (hanswered key hkey)

theorem Sound.submit {batch : List SimulationRequest}
    (h : Sound env sim orders { d with outstanding := batch ++ rest })
    {results : List SimulatedResult} (hresults : Results sim batch results) :
    Sound env sim orders { d with
      tree := (d.tree.submitSimulationTasksResults env results).2, outstanding := rest } := by
  induction hresults generalizing d with
  | nil => exact h
  | failed hfailed _ ih => exact ih (h.fail hfailed)
  | @succeeded task tasks result results hanswers _ ih =>
    have hok := h.exact_tree.processResult_ok result
    have hstep := ih (d := { d with tree := (d.tree.processSimulationTaskResult env result).2 })
      (h.succeed hanswers)
    unfold submitSimulationTasksResults forEach
    cases hprocess : d.tree.processSimulationTaskResult env result with
    | mk out tree =>
      rw [hprocess] at hok hstep
      subst hok
      exact hstep

theorem Sound.step (hids : (orders.map Order.id).Nodup)
    (h : Sound env sim orders d) (hstep : Step env sim d d') : Sound env sim orders d' := by
  cases hstep with
  | push hperm hok => exact (h.perm hperm (Perm.refl _)).push hids hok
  | pop limit _ => exact h.pop limit
  | submit hperm hresults hok =>
    have hsubmit := (h.perm (Perm.refl _) hperm).submit hresults
    rw [hok] at hsubmit
    exact hsubmit

theorem Run.sound (hids : (orders.map Order.id).Nodup) (hrun : Run env sim orders d) :
    Sound env sim orders d := by
  induction hrun with
  | refl => exact sound_start hids
  | tail _ hstep ih => exact ih.step hids hstep

/-- In a complete driver just the reached orders have been handed out. -/
theorem Sound.handedOut_iff (h : Sound env sim orders d) (hdone : d.Complete)
    (order : Order) : order ∈ d.handedOut ↔ Reached env sim orders order := by
  refine ⟨h.handedOut_reached order, fun hreached => ?_⟩
  induction hreached with
  | @intro order keys provider horder hneeds _ hprovider ih =>
    have hupdated : ∀ key ∈ keys, key ∈ d.tree.simsThatUpdateOneNonce := by
      intro key hkey
      rcases h.answered _ (ih key hkey) with houtstanding | hanswered
      · rw [hdone.outstanding] at houtstanding
        cases houtstanding
      · exact hanswered key (hprovider key hkey)
    rcases h.accounted order horder with hpush | hinvalid | ⟨n, hpending⟩ | hready | hhanded
    · rw [hdone.toPush] at hpush
      cases hpush
    · rw [hneeds] at hinvalid
      cases hinvalid
    · -- a pending order waits for a nonce that nothing updates
      obtain ⟨-, ⟨keys', hneeds', hcount, -⟩, hpos⟩ := h.exact_tree.waits _ _ hpending
      rw [hneeds] at hneeds'
      cases hneeds'
      rw [hcount] at hpos
      obtain ⟨key, hkey⟩ := exists_mem_of_length_pos hpos
      obtain ⟨hkey, habsent⟩ := mem_waiting.mp hkey
      exact absurd (hupdated key hkey) habsent
    · rw [hdone.readyOrders] at hready
      cases hready
    · exact hhanded

end Driver

end Simulation
