/-
  The store of orders serves the best order that can be executed.

  Each call keeps the invariant of the store and does not panic. An update keeps every order
  unless a mandatory nonce of it has passed or none of its nonces is that of its account, and
  `popOrder` returns a ready order of the highest priority.
-/
import Rbuilder.BlockOrders.StoreInvariant

namespace BlockOrders

open SparseMpt
open Building (OrderId)
open OrderInput (Order Nonce)
open Simulation (SimulatedOrder)
open AList List PrioritizedOrderStore

namespace PrioritizedOrderStore

variable {π : Type}

/-! ## Orders that leave the main queue -/

theorem mem_retainOthers (id : OrderId) (nonces : List Nonce)
    (lists : AList fun _ : Address => List OrderId) (address : Address) (id' : OrderId) :
    id' ∈ ((nonces.foldl (retainOthers id) lists).lookup address).getD [] ↔
      id' ∈ (lists.lookup address).getD [] ∧ ¬ (id' = id ∧ ∃ n ∈ nonces, n.address = address) := by
  induction nonces generalizing lists with
  | nil => simp
  | cons n nonces ih =>
    rw [foldl_cons, ih, exists_mem_cons_iff, and_or_left, not_or, ← and_assoc]
    unfold retainOthers
    cases hlookup : lists.lookup n.address with
    | none =>
      by_cases heq : address = n.address
      · subst heq
        simp [hlookup]
      · simp [Ne.symm heq]
    | some ids =>
      by_cases heq : address = n.address
      · subst heq
        simp [hlookup, lookup_insert]
      · simp [lookup_insert_ne heq, Ne.symm heq]

/-- The store without an order of the main queue. -/
def withoutQueued (store : PrioritizedOrderStore π) (id : OrderId) (o : SimulatedOrder) :
    PrioritizedOrderStore π :=
  { store with
    mainQueue := store.mainQueue.remove id
    orders := store.orders.erase id
    ordersStatistics := store.ordersStatistics.remove o.order
    mainQueueNonces := o.order.nonces.foldl (retainOthers o.order.id) store.mainQueueNonces }

variable {store store' : PrioritizedOrderStore π} {id id' : OrderId} {o o' : SimulatedOrder}
  {checks : List OrderId} {news newNonces : List AccountNonce} {out out' : List SimulatedOrder}

theorem removePopedOrder_eq (h : store.orders.lookup id = some o) :
    { store with mainQueue := store.mainQueue.remove id }.removePopedOrder id =
      (some o, store.withoutQueued id o) := by
  unfold removePopedOrder
  rw [removeFromOrders_eq, h]
  rfl

theorem lookup_withoutQueued_ne (store : PrioritizedOrderStore π)
    (o : SimulatedOrder) (hid : id' ≠ id) :
    (store.withoutQueued id o).orders.lookup id' = store.orders.lookup id' :=
  lookup_erase_ne hid

theorem onchainNonce_congr
    (h : store'.onchainNonces = store.onchainNonces) : store'.onchainNonce = store.onchainNonce := by
  unfold onchainNonce
  rw [h]

/-- Taking orders out does not look at the lists of those that wait. -/
theorem removeAllFromOrders_pendingOrders (ids : List OrderId) (store : PrioritizedOrderStore π)
    (lists : AList fun _ : AccountNonce => List OrderId) :
    removeAllFromOrders ids { store with pendingOrders := lists } =
      ((removeAllFromOrders ids store).1,
        { (removeAllFromOrders ids store).2 with pendingOrders := lists }) := by
  induction ids generalizing store with
  | nil => rfl
  | cons id ids ih =>
    have hrest := ih (store.removeFromOrders id).2
    unfold removeAllFromOrders
    rw [removeFromOrders_eq] at hrest ⊢
    rw [removeFromOrders_eq]
    dsimp only at hrest ⊢
    rw [hrest]

/-! ## What an update keeps -/

/-- The order may leave the store. -/
def Dropped (nonces : Address → UInt64) (o : SimulatedOrder) : Prop :=
  Passed nonces o ∨ Unmatched nonces o

/-- The nonces are the same, and the orders too but for those that may leave. -/
structure Survives (store store' : PrioritizedOrderStore π) : Prop where
  nonces : store'.onchainNonces = store.onchainNonces
  kept : ∀ id o, store.orders.lookup id = some o →
    store'.orders.lookup id = some o ∨ Dropped store.onchainNonce o
  old : ∀ id o, store'.orders.lookup id = some o → store.orders.lookup id = some o

theorem Survives.refl (store : PrioritizedOrderStore π) : Survives store store :=
  ⟨rfl, fun _ _ hstored => .inl hstored, fun _ _ hstored => hstored⟩

theorem Survives.trans {store'' : PrioritizedOrderStore π} (h : Survives store store')
    (h' : Survives store' store'') : Survives store store'' := by
  refine ⟨h'.nonces.trans h.nonces, fun id o hstored => ?_,
    fun id o hstored => h.old id o (h'.old id o hstored)⟩
  rcases h.kept id o hstored with hstored | hdropped
  · rw [← onchainNonce_congr h.nonces]
    exact h'.kept id o hstored
  · exact .inr hdropped

/-! ## New nonces -/

/-- The store once the new nonces are set. -/
structure NoncesSet (store store' : PrioritizedOrderStore π) (newNonces : List AccountNonce) :
    Prop where
  mainQueue : store'.mainQueue = store.mainQueue
  orders : store'.orders = store.orders
  pendingOrders : store'.pendingOrders = store.pendingOrders
  statistics : store'.ordersStatistics = store.ordersStatistics
  nonceKept : ∀ address, (∀ n ∈ newNonces, n.account ≠ address) →
    store'.onchainNonce address = store.onchainNonce address
  nonceSet : ∀ n ∈ newNonces, ⟨store'.onchainNonce n.account, n.account⟩ ∈ newNonces
  listKept : ∀ address, (∀ n ∈ newNonces, n.account ≠ address) →
    store'.listOf address = store.listOf address
  listRemoved : ∀ n ∈ newNonces, store'.listOf n.account = []

theorem mem_foldl_insert (ids : List OrderId) (set : Finset OrderId) (id : OrderId) :
    id ∈ ids.foldl (fun ids id => Insert.insert id ids) set ↔ id ∈ set ∨ id ∈ ids := by
  induction ids generalizing set with
  | nil => simp
  | cons id' ids ih =>
    rw [foldl_cons, ih, Finset.mem_insert, mem_cons, or_assoc, or_left_comm]

/-- One new nonce. -/
theorem setNonce_eq (store : PrioritizedOrderStore π) (invalidated : Finset OrderId)
    (newNonce : AccountNonce) :
    ∃ store' invalidated', setNonce (store, invalidated) newNonce = (store', invalidated') ∧
      store'.mainQueue = store.mainQueue ∧ store'.orders = store.orders ∧
      store'.pendingOrders = store.pendingOrders ∧
      store'.ordersStatistics = store.ordersStatistics ∧
      (∀ address, store'.onchainNonce address =
        if address = newNonce.account then newNonce.nonce else store.onchainNonce address) ∧
      (∀ address, store'.listOf address =
        if address = newNonce.account then [] else store.listOf address) ∧
      ∀ id, id ∈ invalidated' ↔ id ∈ invalidated ∨ id ∈ store.listOf newNonce.account := by
  unfold setNonce
  dsimp only
  cases hlookup : store.mainQueueNonces.lookup newNonce.account with
  | none =>
    refine ⟨_, _, rfl, rfl, rfl, rfl, rfl, fun _ => getD_lookup_insert .., ?_, ?_⟩
    · intro address
      split_ifs with heq
      · subst heq
        unfold listOf
        rw [hlookup]
        rfl
      · rfl
    · unfold listOf
      simp [hlookup]
  | some ids =>
    refine ⟨_, _, rfl, rfl, rfl, rfl, rfl, fun _ => getD_lookup_insert .., ?_, ?_⟩
    · intro address
      unfold listOf
      rw [lookup_erase_eq_ite]
      split_ifs <;> rfl
    intro id
    unfold listOf
    rw [hlookup]
    exact mem_foldl_insert ids invalidated id

theorem setNonces_eq (newNonces : List AccountNonce) (store : PrioritizedOrderStore π)
    (invalidated : Finset OrderId) :
    ∃ store' invalidated', newNonces.foldl setNonce (store, invalidated) = (store', invalidated') ∧
      NoncesSet store store' newNonces ∧
      ∀ id, id ∈ invalidated' ↔ id ∈ invalidated ∨ ∃ n ∈ newNonces, id ∈ store.listOf n.account := by
  induction newNonces generalizing store invalidated with
  | nil =>
    exact ⟨store, invalidated, rfl, ⟨rfl, rfl, rfl, rfl, fun _ _ => rfl, by simp, fun _ _ => rfl,
      by simp⟩, by simp⟩
  | cons n newNonces ih =>
    obtain ⟨store₁, invalidated₁, hstep, hqueue, horders, hpending, hstatistics, hnonce, hlist, hmem⟩ :=
      setNonce_eq store invalidated n
    obtain ⟨store₂, invalidated₂, hrest, hset, hmem'⟩ := ih store₁ invalidated₁
    have htouched : ∀ n' ∈ n :: newNonces,
        ⟨store₂.onchainNonce n'.account, n'.account⟩ ∈ n :: newNonces ∧
          store₂.listOf n'.account = [] := by
      intro n' hn'
      by_cases hlater : ∃ n'' ∈ newNonces, n''.account = n'.account
      · obtain ⟨n'', hn'', haccount⟩ := hlater
        rw [← haccount]
        exact ⟨mem_cons_of_mem _ (hset.nonceSet n'' hn''), hset.listRemoved n'' hn''⟩
      -- the account is set here for the last time
      have hlast : ∀ n'' ∈ newNonces, n''.account ≠ n'.account := fun n'' hn'' haccount =>
        hlater ⟨n'', hn'', haccount⟩
      obtain rfl : n' = n := (mem_cons.mp hn').resolve_right fun hn' => hlast n' hn' rfl
      rw [hset.nonceKept _ hlast, hnonce, if_pos rfl, hset.listKept _ hlast, hlist, if_pos rfl]
      exact ⟨mem_cons_self, rfl⟩
    refine ⟨store₂, invalidated₂, ?_, ⟨hset.mainQueue.trans hqueue, hset.orders.trans horders,
      hset.pendingOrders.trans hpending, hset.statistics.trans hstatistics, ?_, ?_, ?_, ?_⟩, ?_⟩
    · rw [foldl_cons, hstep, hrest]
    · intro address hne
      rw [hset.nonceKept address fun n' hn' => hne n' (mem_cons_of_mem _ hn'), hnonce,
        if_neg (Ne.symm (hne n mem_cons_self))]
    · exact fun n' hn' => (htouched n' hn').1
    · intro address hne
      rw [hset.listKept address fun n' hn' => hne n' (mem_cons_of_mem _ hn'), hlist,
        if_neg (Ne.symm (hne n mem_cons_self))]
    · exact fun n' hn' => (htouched n' hn').2
    · intro id
      rw [hmem', hmem, exists_mem_cons_iff, or_assoc]
      refine or_congr_right
        (or_congr_right' fun hnot => exists_congr fun n' => and_congr_right fun _ => ?_)
      rw [hlist]
      split_ifs with haccount
      · rw [haccount]
        exact iff_of_false not_mem_nil hnot
      · rfl

variable [OrderPriority π]

/-! ## The orders that an update may invalidate -/

theorem Partial.withoutQueued (h : store.Partial checks [] news)
    (hlookup : store.orders.lookup id = some o) :
    (store.withoutQueued id o).Partial (checks.filter (· ≠ id)) [] news := by
  have hown := h.ownId id o hlookup
  have hqueue (id' : OrderId) : (store.withoutQueued id o).mainQueue.lookup id' =
      if id' = id then none else store.mainQueue.lookup id' := PriorityQueue.lookup_remove ..
  have hlist (address : Address) (id' : OrderId) :
      id' ∈ (store.withoutQueued id o).listOf address ↔ id' ∈ store.listOf address ∧ id' ≠ id := by
    refine (mem_retainOthers ..).trans (and_congr_right fun hmem => not_congr ?_)
    rw [hown]
    refine ⟨And.left, fun hid => ⟨hid, ?_⟩⟩
    subst hid
    exact (h.listed address id' hmem).2 o (.inl hlookup)
  have horders {id' : OrderId} {o' : SimulatedOrder}
      (hstored : (store.withoutQueued id o).orders.lookup id' = some o') :
      id' ≠ id ∧ store.orders.lookup id' = some o' := lookup_erase_eq_some hstored
  refine ⟨fun id' o' hstored => h.ownId id' o' (horders hstored).2, by simp, nodup_nil, ?_, ?_, ?_,
    ?_, ?_⟩
  · intro id' p hp
    rw [hqueue] at hp
    split_ifs at hp with hid
    obtain ⟨o', hholds, hprio, hrest⟩ := h.main id' p hp
    refine ⟨o', ?_, hprio, fun hcheck => ?_⟩
    · exact .inl ((lookup_erase_ne hid).trans (holds_nil.mp hholds))
    · have hcheck' : id' ∉ checks := fun hmem => hcheck (mem_filter.mpr ⟨hmem, by simpa using hid⟩)
      exact ⟨(hrest hcheck').1, fun n hn => (hlist ..).mpr ⟨(hrest hcheck').2 n hn, hid⟩⟩
  · intro id' hid'
    obtain ⟨hmem, hne⟩ := mem_filter.mp hid'
    have hid : id' ≠ id := by simpa using hne
    rw [hqueue, if_neg hid]
    exact ⟨(h.checked id' hmem).1, mem_erase.mpr ⟨hid, (h.checked id' hmem).2⟩⟩
  · intro address id' hid'
    obtain ⟨hmem, hid⟩ := (hlist address id').mp hid'
    rw [hqueue, if_neg hid]
    exact ⟨(h.listed address id' hmem).1, fun o' hholds =>
      (h.listed address id' hmem).2 o' (.inl (horders (holds_nil.mp hholds)).2)⟩
  · intro id' o' hstored hnone
    obtain ⟨hid, hold⟩ := horders hstored
    rw [hqueue, if_neg hid] at hnone
    exact h.waits id' o' hold hnone
  · exact (congrArg (fun s => OrderStatistics.remove s o.order) h.statistics).trans
      (statisticsOf_erase hlookup).symm

/-- What is in the main queue is stored. -/
theorem Partial.queued_stored (h : store.Partial checks [] news)
    {p : π} (hp : store.mainQueue.lookup id = some p) :
    ∃ o, store.orders.lookup id = some o ∧ p = OrderPriority.new o ∧
      (id ∉ checks → Ready store.onchainNonce o) := by
  obtain ⟨o, hholds, hprio, hrest⟩ := h.main id p hp
  exact ⟨o, holds_nil.mp hholds, hprio, fun hcheck => (hrest hcheck).1⟩

theorem Partial.unqueued (h : store.Partial checks [] news) (hid : id ∉ store.orders) :
    store.mainQueue.lookup id = none := by
  refine Option.eq_none_iff_forall_ne_some.mpr fun p hp => ?_
  obtain ⟨o, hstored, -⟩ := h.queued_stored hp
  exact hid (mem_of_lookup hstored)

protected theorem Partial.checkInvalidated
    (h : store.Partial (id :: checks) [] news) (hnodup : id ∉ checks) :
    ∃ store', store.checkInvalidated id = .ok store' ∧ store'.Partial checks [] news ∧
      Survives store store' := by
  obtain ⟨o, hlookup⟩ := exists_lookup (h.checked id mem_cons_self).2
  have hown := h.ownId id o hlookup
  have hwithout := h.withoutQueued hlookup
  have hchecks : (id :: checks).filter (· ≠ id) = checks := by
    rw [filter_cons_of_neg (by simp), filter_eq_self]
    intro id' hid'
    have hne : id' ≠ id := by
      rintro rfl
      exact hnodup hid'
    simpa using hne
  rw [hchecks] at hwithout
  have hothers {id' : OrderId} {o' : SimulatedOrder} (hstored : store.orders.lookup id' = some o') :
      o' = o ∨ (store.withoutQueued id o).orders.lookup id' = some o' := by
    by_cases hid : id' = id
    · rw [hid, hlookup] at hstored
      exact .inl (Option.some.inj hstored).symm
    · exact .inr ((store.lookup_withoutQueued_ne o hid).trans hstored)
  unfold checkInvalidated
  rw [removePopedOrder_eq hlookup]
  dsimp only
  by_cases hretain : (store.withoutQueued id o).retainOrder o.order.nonces 0 = true
  · rw [if_pos hretain]
    -- the order is taken out and inserted again
    have hgone : o.order.id ∉ (store.withoutQueued id o).orders := by
      rw [hown]
      exact fun hmem => (mem_erase.mp hmem).1 rfl
    have hqueue : (store.withoutQueued id o).mainQueue.lookup o.order.id = none := by
      rw [hown]
      exact (PriorityQueue.lookup_remove ..).trans (if_pos rfl)
    obtain ⟨hvalid, hnonces, hheld, hback⟩ :=
      (hwithout.take hgone (by simp) hqueue).insertOrder (by rw [hown]; exact hnodup)
    refine ⟨_, rfl, hvalid, hnonces, fun id' o' hstored => ?_, fun id' o' hstored => ?_⟩
    rotate_left
    · rcases hback id' o' (.inl hstored) with hold | ⟨ho', hid'⟩
      · exact (lookup_erase_eq_some hold).2
      · obtain rfl := mem_singleton.mp ho'
        rwa [← hid', hown]
    have hholds : (store.withoutQueued id o).Holds [o] id' o' := by
      rcases hothers hstored with rfl | hold
      · exact .inr ⟨mem_singleton_self _, h.ownId id' o' hstored⟩
      · exact .inl hold
    exact (hheld id' o' hholds).imp holds_nil.mp .inl
  · rw [if_neg hretain]
    refine ⟨_, rfl, hwithout, rfl, fun id' o' hstored => ?_,
      fun id' o' hstored => (lookup_erase_eq_some hstored).2⟩
    rcases hothers hstored with rfl | hold
    · have hdropped := retainOrder_eq_false _ _ _ (Bool.eq_false_iff.mpr hretain)
      exact .inr (hdropped.imp_right And.right)
    · exact .inl hold

theorem Partial.checkAll
    (h : store.Partial checks [] news) (hnodup : checks.Nodup) :
    ∃ store', checkAll checks store = .ok store' ∧ store'.Partial [] [] news ∧
      Survives store store' := by
  induction checks generalizing store with
  | nil => exact ⟨store, rfl, h, .refl store⟩
  | cons id checks ih =>
    obtain ⟨hhead, htail⟩ := nodup_cons.mp hnodup
    obtain ⟨store₁, hstep, hinv, hsurvives⟩ := h.checkInvalidated hhead
    obtain ⟨store₂, hrest, hinv', hsurvives'⟩ := ih hinv htail
    refine ⟨store₂, ?_, hinv', hsurvives.trans hsurvives'⟩
    unfold checkAll
    rw [hstep]
    exact hrest

/-- Only orders with a transaction of an updated account have to be checked. -/
theorem Valid.setNonces (h : store.Valid)
    (hset : NoncesSet store store' newNonces)
    (hchecks : ∀ id, id ∈ checks ↔ ∃ n ∈ newNonces, id ∈ store.listOf n.account) :
    store'.Partial checks [] newNonces := by
  have hqueue (id : OrderId) : store'.mainQueue.lookup id = store.mainQueue.lookup id := by
    rw [hset.mainQueue]
  have hholds {id : OrderId} {o : SimulatedOrder} : store'.Holds [] id o ↔ store.Holds [] id o := by
    unfold Holds
    rw [hset.orders]
  have hlist {address : Address} {id : OrderId} (hid : id ∈ store'.listOf address) :
      id ∈ store.listOf address := by
    by_cases hupdated : ∃ n ∈ newNonces, n.account = address
    · obtain ⟨n, hn, rfl⟩ := hupdated
      rw [hset.listRemoved n hn] at hid
      cases hid
    · rwa [hset.listKept address fun n hn haccount => hupdated ⟨n, hn, haccount⟩] at hid
  refine ⟨by rw [hset.orders]; exact h.ownId, by simp, nodup_nil, ?_, ?_, ?_, ?_, ?_⟩
  · intro id p hp
    rw [hqueue] at hp
    obtain ⟨o, hold, hprio, hrest⟩ := h.main id p hp
    obtain ⟨hready, hlisted⟩ := hrest not_mem_nil
    refine ⟨o, hholds.mpr hold, hprio, fun hcheck => ?_⟩
    have huntouched {n : Nonce} (hn : n ∈ o.order.nonces) :
        ∀ n' ∈ newNonces, n'.account ≠ n.address := fun n' hn' haccount =>
      hcheck ((hchecks id).mpr ⟨n', hn', haccount ▸ hlisted n hn⟩)
    exact ⟨fun n hn hmandatory => (hset.nonceKept _ (huntouched hn)).trans (hready n hn hmandatory),
      fun n hn => by
        rw [hset.listKept _ (huntouched hn)]
        exact hlisted n hn⟩
  · intro id hid
    obtain ⟨n, -, hmem⟩ := (hchecks id).mp hid
    have hmain := (h.listed _ id hmem).1
    rw [hqueue, hset.orders]
    exact ⟨hmain, not_imp_comm.mp (Partial.unqueued h) hmain⟩
  · intro address id hid
    rw [hqueue]
    exact ⟨(h.listed address id (hlist hid)).1, fun o hold =>
      (h.listed address id (hlist hid)).2 o (hholds.mp hold)⟩
  · intro id o hstored hnone
    rw [hset.orders] at hstored
    rw [hqueue] at hnone
    obtain ⟨n, hn, hmandatory, hwaiting, hne⟩ := h.waits id o hstored hnone
    refine ⟨n, hn, hmandatory, ?_, ?_⟩
    · unfold waitingFor
      rw [hset.pendingOrders]
      exact hwaiting
    by_cases hupdated : ∃ n' ∈ newNonces, n'.account = n.address
    · obtain ⟨n', hn', haccount⟩ := hupdated
      by_cases heq : store'.onchainNonce n.address = n.nonce
      · have hmem := hset.nonceSet n' hn'
        rw [haccount, heq] at hmem
        exact .inr hmem
      · exact .inl heq
    · rw [hset.nonceKept _ fun n' hn' haccount => hupdated ⟨n', hn', haccount⟩]
      exact .inl (hne.resolve_right not_mem_nil)
  · rw [hset.statistics, hset.orders]
    exact h.statistics

/-! ## The orders that wait for the new nonces -/

/-- The orders of the ids are taken out. -/
theorem Partial.removeAll (ids : List OrderId) (h : store.Partial [] out news) :
    ∃ taken, taken.Perm ((removeAllFromOrders ids store).1 ++ out) ∧
      (removeAllFromOrders ids store).2.Partial [] taken news ∧
      (removeAllFromOrders ids store).2.onchainNonces = store.onchainNonces ∧
      (removeAllFromOrders ids store).2.pendingOrders = store.pendingOrders ∧
      (∀ id ∈ ids, id ∉ (removeAllFromOrders ids store).2.orders) ∧
      (∀ id ∉ store.orders, id ∉ (removeAllFromOrders ids store).2.orders) ∧
      ∀ id o, (removeAllFromOrders ids store).2.Holds taken id o ↔ store.Holds out id o := by
  induction ids generalizing store out with
  | nil => exact ⟨out, .refl _, h, rfl, rfl, by simp, fun _ hid => hid, fun _ _ => Iff.rfl⟩
  | cons id ids ih =>
    unfold removeAllFromOrders
    cases hlookup : store.orders.lookup id with
    | none =>
      have hstep : store.removeFromOrders id = (none, store) := by
        unfold removeFromOrders
        rw [hlookup]
      obtain ⟨taken, hperm, hinv, hnonces, hpending, hgone, hnew, hheld⟩ := ih h
      rw [hstep]
      refine ⟨taken, hperm, hinv, hnonces, hpending, fun id' hid' => ?_, hnew, hheld⟩
      rcases mem_cons.mp hid' with rfl | hid'
      · exact hnew _ (lookup_eq_none.mp hlookup)
      · exact hgone id' hid'
    | some o =>
      have hown := h.ownId id o hlookup
      have hone := h.removeFromOrders hlookup not_mem_nil
      have hholds := holds_removeFromOrders out hlookup hown
      rw [removeFromOrders_eq, hlookup] at hone hholds ⊢
      obtain ⟨taken, hperm, hinv, hnonces, hpending, hgone, hnew, hheld⟩ := ih hone
      refine ⟨taken, ?_, hinv, hnonces, hpending, fun id' hid' => ?_, fun id' hid' => ?_,
        fun id' o' => (hheld id' o').trans (hholds id' o')⟩
      · exact hperm.trans perm_middle
      · rcases mem_cons.mp hid' with rfl | hid'
        · exact hnew _ fun hmem => (mem_erase.mp hmem).1 rfl
        · exact hgone id' hid'
      · exact hnew id' fun hmem => hid' (mem_erase.mp hmem).2

/-- All orders that are taken out are inserted again. -/
theorem Partial.insertAll (h : store.Partial [] out news) :
    (out.foldl insertOrder store).Partial [] [] news ∧
      (out.foldl insertOrder store).onchainNonces = store.onchainNonces ∧
      (∀ id o, store.Holds out id o →
        (out.foldl insertOrder store).orders.lookup id = some o ∨
          Passed store.onchainNonce o) ∧
      ∀ id o, (out.foldl insertOrder store).orders.lookup id = some o →
        store.Holds out id o := by
  induction out generalizing store with
  | nil =>
    exact ⟨h, rfl, fun id o hholds => .inl (holds_nil.mp hholds), fun id o => holds_nil.mpr⟩
  | cons o out ih =>
    obtain ⟨hinv, hnonces, hheld, hback⟩ := h.insertOrder not_mem_nil
    obtain ⟨hinv', hnonces', hheld', hback'⟩ := ih hinv
    rw [onchainNonce_congr hnonces] at hheld'
    refine ⟨hinv', hnonces'.trans hnonces, fun id o' hholds => ?_,
      fun id o' hstored => hback id o' (hback' id o' hstored)⟩
    rcases hheld id o' hholds with hholds | hpassed
    · exact hheld' id o' hholds
    · exact .inr hpassed

protected theorem Partial.insertPending {newNonce : AccountNonce}
    (h : store.Partial [] [] (newNonce :: news)) :
    (store.insertPending newNonce).Partial [] [] news ∧
      Survives store (store.insertPending newNonce) := by
  unfold insertPending
  cases hpending : store.pendingOrders.lookup newNonce with
  | none =>
    refine ⟨{ h with waits := ?_ }, .refl store⟩
    intro id o hstored hnone
    obtain ⟨n, hn, hmandatory, hwaiting, hne⟩ := h.waits id o hstored hnone
    refine ⟨n, hn, hmandatory, hwaiting, hne.imp_right fun hnew => ?_⟩
    rcases mem_cons.mp hnew with heq | hnew
    · unfold waitingFor at hwaiting
      rw [heq, hpending] at hwaiting
      cases hwaiting
    · exact hnew
  | some pending =>
    dsimp only
    rw [removeAllFromOrders_pendingOrders]
    obtain ⟨taken, hperm, hinv, hnonces, hlists, hgone, -, hheld⟩ := Partial.removeAll pending h
    rw [append_nil] at hperm
    generalize removeAllFromOrders pending store = result at hperm hinv hnonces hlists hgone hheld
    obtain ⟨orders, store₁⟩ := result
    -- nothing that is still stored waits for the new nonce
    have herased : Partial { store₁ with pendingOrders := store.pendingOrders.erase newNonce } []
        orders news := by
      refine { hinv.perm hperm.symm with waits := ?_ }
      intro id o hstored hnone
      obtain ⟨n, hn, hmandatory, hwaiting, hne⟩ := hinv.waits id o hstored hnone
      have hother : (⟨n.nonce, n.address⟩ : AccountNonce) ≠ newNonce := by
        intro heq
        unfold waitingFor at hwaiting
        rw [heq, hlists, hpending] at hwaiting
        exact hgone id hwaiting (mem_of_lookup hstored)
      refine ⟨n, hn, hmandatory, ?_, hne.imp_right fun hnew => ?_⟩
      · unfold waitingFor at hwaiting ⊢
        rw [lookup_erase_ne hother, ← hlists]
        exact hwaiting
      · exact (mem_cons.mp hnew).resolve_left hother
    have htaken (id : OrderId) (o : SimulatedOrder) :
        Holds { store₁ with pendingOrders := store.pendingOrders.erase newNonce } orders id o ↔
          store.orders.lookup id = some o := by
      refine (or_congr_right (and_congr_left' hperm.mem_iff.symm)).trans ((hheld id o).trans ?_)
      exact holds_nil
    obtain ⟨hvalid, hnonces', hkept, hback⟩ := herased.insertAll
    have hsame : onchainNonce { store₁ with pendingOrders := store.pendingOrders.erase newNonce } =
        store.onchainNonce := onchainNonce_congr hnonces
    rw [hsame] at hkept
    exact ⟨hvalid, hnonces'.trans hnonces, fun id o hstored =>
      (hkept id o ((htaken id o).mpr hstored)).imp_right .inl,
      fun id o hstored => (htaken id o).mp (hback id o hstored)⟩

theorem Partial.insertPendings (h : store.Partial [] [] news) :
    (news.foldl insertPending store).Valid ∧
      Survives store (news.foldl insertPending store) := by
  induction news generalizing store with
  | nil => exact ⟨h, .refl store⟩
  | cons newNonce news ih =>
    obtain ⟨hinv, hsurvives⟩ := h.insertPending
    obtain ⟨hvalid, hsurvives'⟩ := ih hinv
    exact ⟨hvalid, hsurvives.trans hsurvives'⟩

/-! ## Calls -/

/-- The nonces of the accounts are those of an update, and others stay. -/
structure FollowsUpdate (nonces nonces' : Address → UInt64) (newNonces : List AccountNonce) :
    Prop where
  updated : ∀ n ∈ newNonces, (∀ n' ∈ newNonces, n'.account = n.account → n' = n) →
    nonces' n.account = n.nonce
  others : ∀ address, (∀ n ∈ newNonces, n.account ≠ address) → nonces' address = nonces address

/-- An update does not panic, sets the nonces and keeps every order that may still be executed. -/
protected theorem Valid.updateOnchainNonces
    (h : store.Valid) (iteration : Iteration) (newNonces : List AccountNonce) :
    ∃ store', updateOnchainNonces iteration store newNonces = .ok store' ∧
      store'.Valid ∧ FollowsUpdate store.onchainNonce store'.onchainNonce newNonces ∧
      (∀ id o, store.orders.lookup id = some o →
        store'.orders.lookup id = some o ∨ Dropped store'.onchainNonce o) ∧
      ∀ id o, store'.orders.lookup id = some o → store.orders.lookup id = some o := by
  obtain ⟨store₁, invalidated, hset, hnonces, hmem⟩ := setNonces_eq newNonces store ∅
  have hchecks (id : OrderId) : id ∈ iteration.toList invalidated ↔
      ∃ n ∈ newNonces, id ∈ store.listOf n.account := by
    rw [iteration.mem_iff, hmem]
    exact or_iff_right (Finset.notMem_empty id)
  obtain ⟨store₂, hchecked, hinv, hsurvives⟩ :=
    (h.setNonces hnonces hchecks).checkAll (iteration.nodup invalidated)
  obtain ⟨hvalid, hsurvives'⟩ := hinv.insertPendings
  have hall := hsurvives.trans hsurvives'
  refine ⟨newNonces.foldl insertPending store₂, ?_, hvalid, ?_, ?_, ?_⟩
  · unfold updateOnchainNonces
    rw [hset]
    dsimp only
    rw [hchecked]
  · rw [onchainNonce_congr hall.nonces]
    refine ⟨fun n hn honly => ?_, hnonces.nonceKept⟩
    exact congrArg AccountNonce.nonce (honly _ (hnonces.nonceSet n hn) rfl)
  · rw [onchainNonce_congr hall.nonces, ← hnonces.orders]
    exact hall.kept
  · rw [← hnonces.orders]
    exact hall.old

theorem lookup_insertOrder_ne (store : PrioritizedOrderStore π)
    (hid : id ≠ o.order.id) : (store.insertOrder o).orders.lookup id = store.orders.lookup id := by
  by_cases hmem : o.order.id ∈ store.orders
  · rw [insertOrder, if_pos hmem]
  have houtcome := insertOrder_outcome hmem
  generalize store.insertOrder o = store' at houtcome
  cases houtcome with
  | passed _ => rfl
  | ready _ | waits _ _ _ => exact lookup_insert_ne hid

theorem insertOrder_of_stored (h : o.order.id ∈ store.orders) : store.insertOrder o = store := by
  unfold insertOrder
  rw [if_pos h]

protected theorem Valid.insertOrder (h : store.Valid) (o : SimulatedOrder) :
    (store.insertOrder o).Valid ∧ (store.insertOrder o).onchainNonces = store.onchainNonces ∧
      (o.order.id ∉ store.orders → (store.insertOrder o).orders.lookup o.order.id = some o ∨
        Passed store.onchainNonce o) := by
  by_cases hmem : o.order.id ∈ store.orders
  · rw [insertOrder_of_stored hmem]
    exact ⟨h, rfl, fun hnew => absurd hmem hnew⟩
  have htaken := Partial.take h hmem (by simp) (Partial.unqueued h hmem)
  obtain ⟨hvalid, hnonces, hheld, -⟩ := htaken.insertOrder not_mem_nil
  refine ⟨hvalid, hnonces, fun _ => ?_⟩
  exact (hheld o.order.id o (.inr ⟨mem_singleton_self _, rfl⟩)).imp_left holds_nil.mp

/-- A ready order that is stored is in the main queue, with its priority. -/
theorem Valid.queued_of_ready (h : store.Valid)
    (hstored : store.orders.lookup id = some o) (hready : Ready store.onchainNonce o) :
    store.mainQueue.lookup id = some (OrderPriority.new o) := by
  cases hqueue : store.mainQueue.lookup id with
  | none =>
    obtain ⟨n, hn, hmandatory, -, hne⟩ := h.waits id o hstored hqueue
    exact absurd (hready n hn hmandatory) (hne.resolve_right not_mem_nil)
  | some p =>
    obtain ⟨o', hstored', hprio, -⟩ := Partial.queued_stored h hqueue
    rw [hstored] at hstored'
    cases hstored'
    rw [hprio]

/-- What `popOrder` returns and leaves. -/
protected theorem Valid.popOrder (h : store.Valid) (tie : Nat) :
    (store.popOrder tie = .ok (none, store) ∧
        ∀ id o, store.orders.lookup id = some o → ¬ Ready store.onchainNonce o) ∨
      ∃ o, store.popOrder tie = .ok (some o, store.withoutQueued o.order.id o) ∧
        store.orders.lookup o.order.id = some o ∧ Ready store.onchainNonce o ∧
        ∀ id o', store.orders.lookup id = some o' → Ready store.onchainNonce o' →
          (OrderPriority.new o' : π) ≤ OrderPriority.new o := by
  unfold popOrder
  cases hpop : store.mainQueue.pop tie with
  | mk popped queue =>
    cases popped with
    | none =>
      left
      obtain ⟨-, hempty⟩ := PriorityQueue.pop_eq_none hpop
      refine ⟨rfl, fun id o hstored hready => ?_⟩
      have hqueued := h.queued_of_ready hstored hready
      rw [hempty id] at hqueued
      cases hqueued
    | some entry =>
      right
      obtain ⟨id, p⟩ := entry
      obtain ⟨hqueue, hmax, rfl⟩ := PriorityQueue.pop_eq_some hpop
      obtain ⟨o, hstored, hprio, hready⟩ := Partial.queued_stored h hqueue
      obtain rfl : o.order.id = id := h.ownId id o hstored
      refine ⟨o, ?_, hstored, hready not_mem_nil, fun id' o' hstored' hready' => ?_⟩
      · dsimp only
        rw [removePopedOrder_eq hstored]
      · rw [← hprio]
        exact hmax id' _ (h.queued_of_ready hstored' hready')

protected theorem Valid.removeFromOrders (h : store.Valid)
    (hqueue : store.mainQueue.lookup id = none) : (store.removeFromOrders id).2.Valid := by
  cases hlookup : store.orders.lookup id with
  | none =>
    unfold removeFromOrders
    rw [hlookup]
    exact h
  | some o =>
    have hone := Partial.removeFromOrders h hlookup not_mem_nil
    refine hone.forget ?_
    rw [removeFromOrders_eq, h.ownId id o hlookup]
    exact hqueue

/-- A removal takes out the order of the id only. -/
protected theorem Valid.removeOrder (h : store.Valid) (id : OrderId) :
    (store.removeOrder id).2.Valid ∧
      (store.removeOrder id).2.onchainNonces = store.onchainNonces ∧
      (store.removeOrder id).2.orders.lookup id = none ∧
      ∀ id' ≠ id, (store.removeOrder id).2.orders.lookup id' = store.orders.lookup id' := by
  have hgone (store : PrioritizedOrderStore π) :
      (store.removeFromOrders id).2.orders.lookup id = none := by
    rw [removeFromOrders_eq]
    exact lookup_erase ..
  have hothers (store : PrioritizedOrderStore π) {id' : OrderId} (hid' : id' ≠ id) :
      (store.removeFromOrders id).2.orders.lookup id' = store.orders.lookup id' := by
    rw [removeFromOrders_eq]
    exact lookup_erase_ne hid'
  have hnonces (store : PrioritizedOrderStore π) :
      (store.removeFromOrders id).2.onchainNonces = store.onchainNonces := by
    rw [removeFromOrders_eq]
  unfold removeOrder
  split_ifs with hqueued
  · obtain ⟨p, hp⟩ := Option.isSome_iff_exists.mp hqueued
    obtain ⟨o, hstored, -⟩ := Partial.queued_stored h hp
    rw [removePopedOrder_eq hstored]
    have hvalid : (store.withoutQueued id o).Valid := Partial.withoutQueued h hstored
    refine ⟨hvalid.removeFromOrders ?_, hnonces _, hgone _, fun id' hid' => ?_⟩
    · exact (PriorityQueue.lookup_remove ..).trans (if_pos rfl)
    · rw [hothers _ hid', lookup_withoutQueued_ne _ _ hid']
  · have hqueue : store.mainQueue.lookup id = none := by simpa using hqueued
    exact ⟨h.removeFromOrders hqueue, hnonces _, hgone store,
      fun id' => hothers store⟩

inductive Op where
  | insertOrder (simOrder : SimulatedOrder)
  | removeOrder (id : OrderId)
  | popOrder (tie : Nat)
  | updateOnchainNonces (iteration : Iteration) (newNonces : List AccountNonce)

def Op.run (store : PrioritizedOrderStore π) :
    Op → Except Panic (PrioritizedOrderStore π)
  | .insertOrder simOrder => .ok (store.insertOrder simOrder)
  | .removeOrder id => .ok (store.removeOrder id).2
  | .popOrder tie =>
    match store.popOrder tie with
    | .error e => .error e
    | .ok (_, store) => .ok store
  | .updateOnchainNonces iteration newNonces =>
    PrioritizedOrderStore.updateOnchainNonces iteration store newNonces

def runOps : List Op → PrioritizedOrderStore π →
    Except Panic (PrioritizedOrderStore π)
  | [], store => .ok store
  | op :: ops, store =>
    match op.run store with
    | .error e => .error e
    | .ok store => runOps ops store

/-- No call panics, and an order that was not there comes by an insertion only. -/
theorem Valid.run (h : store.Valid) (op : Op) :
    ∃ store', op.run store = .ok store' ∧ store'.Valid ∧
      ∀ id ∉ store.orders, (∀ o, op = .insertOrder o → o.order.id ≠ id) → id ∉ store'.orders := by
  simp only [← lookup_eq_none]
  cases op with
  | insertOrder simOrder =>
    refine ⟨_, rfl, (h.insertOrder simOrder).1, fun id hid hop => ?_⟩
    rwa [lookup_insertOrder_ne _ (hop simOrder rfl).symm]
  | removeOrder id' =>
    obtain ⟨hvalid, -, hgone, hothers⟩ := h.removeOrder id'
    refine ⟨_, rfl, hvalid, fun id hid _ => ?_⟩
    by_cases heq : id = id'
    · rw [heq, hgone]
    · rw [hothers id heq, hid]
  | popOrder tie =>
    rcases h.popOrder tie with ⟨hpop, -⟩ | ⟨o, hpop, hstored, -⟩
    · exact ⟨store, by rw [Op.run, hpop], h, fun _ hid _ => hid⟩
    · refine ⟨_, by rw [Op.run, hpop], Partial.withoutQueued h hstored, fun id hid _ => ?_⟩
      rw [withoutQueued, lookup_erase_eq_ite, hid, ite_self]
  | updateOnchainNonces iteration newNonces =>
    obtain ⟨store', hupdate, hvalid, -, -, hold⟩ := h.updateOnchainNonces iteration newNonces
    refine ⟨store', hupdate, hvalid, fun id hid _ => ?_⟩
    refine Option.eq_none_iff_forall_ne_some.mpr fun o hstored => ?_
    cases hid.symm.trans (hold id o hstored)

theorem Valid.runOps (h : store.Valid) (ops : List Op) :
    ∃ store', runOps ops store = .ok store' ∧ store'.Valid ∧
      ∀ id ∉ store.orders, (∀ o, .insertOrder o ∈ ops → o.order.id ≠ id) → id ∉ store'.orders := by
  induction ops generalizing store with
  | nil => exact ⟨store, rfl, h, fun _ hid _ => hid⟩
  | cons op ops ih =>
    obtain ⟨store₁, hstep, hvalid, habsent⟩ := h.run op
    obtain ⟨store₂, hrest, hvalid', habsent'⟩ := ih hvalid
    refine ⟨store₂, ?_, hvalid', fun id hid hops => ?_⟩
    · unfold runOps
      rw [hstep]
      exact hrest
    · exact habsent' id (habsent id hid fun o ho => hops o (ho ▸ mem_cons_self))
        fun o ho => hops o (mem_cons_of_mem _ ho)

/-- The default `remove_orders` of `SimulatedOrderSink`. -/
def removeOrders : List OrderId → PrioritizedOrderStore π →
    List SimulatedOrder × PrioritizedOrderStore π
  | [], store => ([], store)
  | id :: ids, store =>
    let (order, store) := store.removeOrder id
    let (orders, store) := removeOrders ids store
    (order.toList ++ orders, store)

/-- An order of the main queue has left `orders` before its removal is looked at. -/
theorem Valid.removeOrder_returns (h : store.Valid) (id : OrderId) :
    ∀ o, (store.removeOrder id).1 = some o ↔
      store.orders.lookup id = some o ∧ ¬ Ready store.onchainNonce o := by
  unfold removeOrder
  split_ifs with hqueued
  · obtain ⟨p, hp⟩ := Option.isSome_iff_exists.mp hqueued
    obtain ⟨o, hstored, -, hready⟩ := Partial.queued_stored h hp
    have hgone : (store.withoutQueued id o).orders.lookup id = none := lookup_erase ..
    rw [removePopedOrder_eq hstored]
    intro o'
    rw [removeFromOrders_eq, hgone, hstored]
    simp only [reduceCtorEq, Option.some.injEq, false_iff, not_and, not_not]
    rintro rfl
    exact hready not_mem_nil
  · intro o
    rw [removeFromOrders_eq]
    refine ⟨fun hstored => ⟨hstored, fun hready => hqueued ?_⟩, And.left⟩
    rw [h.queued_of_ready hstored hready]
    rfl

theorem Valid.mem_removeOrders (h : store.Valid) (ids : List OrderId) :
    ∀ o, o ∈ (removeOrders ids store).1 ↔
      ∃ id ∈ ids, store.orders.lookup id = some o ∧ ¬ Ready store.onchainNonce o := by
  induction ids generalizing store with
  | nil => simp [removeOrders]
  | cons id ids ih =>
    intro o
    obtain ⟨hvalid, hnonces, hgone, hothers⟩ := h.removeOrder id
    rw [removeOrders, mem_append, Option.mem_toList, h.removeOrder_returns id o, ih hvalid o,
      onchainNonce_congr hnonces, exists_mem_cons_iff]
    -- the first id is not found again
    refine or_congr_right' fun hfirst => exists_congr fun id' => and_congr_right fun _ => ?_
    by_cases hid : id' = id
    · rw [hid, hgone]
      simpa using hfirst
    · rw [hothers id' hid]

/-- Orders that wait are returned in the order of their ids. -/
theorem Valid.removeOrders_eq {ids : List OrderId} (h : store.Valid) (hnodup : ids.Nodup)
    (hwaits : ∀ id ∈ ids, ∀ o, store.orders.lookup id = some o → ¬ Ready store.onchainNonce o) :
    (removeOrders ids store).1 = ids.filterMap store.orders.lookup := by
  induction ids generalizing store with
  | nil => rfl
  | cons id ids ih =>
    obtain ⟨hfirst, hrest⟩ := forall_mem_cons.mp hwaits
    obtain ⟨hid, htail⟩ := nodup_cons.mp hnodup
    obtain ⟨hvalid, hnonces, -, hothers⟩ := h.removeOrder id
    have hreturned : (store.removeOrder id).1 = store.orders.lookup id := Option.ext fun o =>
      (h.removeOrder_returns id o).trans (and_iff_left_of_imp (hfirst o))
    have hsame : ∀ id' ∈ ids, (store.removeOrder id).2.orders.lookup id' = store.orders.lookup id' :=
      fun id' hid' => hothers id' (ne_of_mem_of_not_mem hid' hid)
    have htaken : (removeOrders ids (store.removeOrder id).2).1 = ids.filterMap store.orders.lookup := by
      rw [ih hvalid htail, filterMap_congr hsame]
      rw [onchainNonce_congr hnonces]
      exact fun id' hid' o hstored => hrest id' hid' o ((hsame id' hid').symm.trans hstored)
    change (store.removeOrder id).1.toList ++ (removeOrders ids (store.removeOrder id).2).1 = _
    rw [hreturned, htaken, filterMap_cons]
    cases store.orders.lookup id with
    | none | some o => rfl

/-- After any calls: `remove_order` returns the order of the id, and `remove_orders` those of
    the ids, if and only if none of them can be executed. The order is gone in either case,
    and does not come back unless it is inserted. -/
theorem removal_reported_iff (initialOnchainNonces : List AccountNonce)
    (ops : List Op) :
    ∃ store : PrioritizedOrderStore π, runOps ops (new initialOnchainNonces) = .ok store ∧
      (∀ id, ((store.removeOrder id).1 = store.orders.lookup id ↔
          ∀ o, store.orders.lookup id = some o → ¬ Ready store.onchainNonce o) ∧
        ∀ later, (∀ o, .insertOrder o ∈ later → o.order.id ≠ id) →
          ∃ store', runOps later (store.removeOrder id).2 = .ok store' ∧
            id ∉ store'.orders ∧ store'.mainQueue.lookup id = none ∧
            ∀ tie o store'', store'.popOrder tie = .ok (some o, store'') → o.order.id ≠ id) ∧
      ∀ ids, ((∀ o, o ∈ (removeOrders ids store).1 ↔ ∃ id ∈ ids, store.orders.lookup id = some o) ↔
          ∀ id ∈ ids, ∀ o, store.orders.lookup id = some o → ¬ Ready store.onchainNonce o) ∧
        (ids.Nodup → ((removeOrders ids store).1 = ids.filterMap store.orders.lookup ↔
          ∀ id ∈ ids, ∀ o, store.orders.lookup id = some o → ¬ Ready store.onchainNonce o)) := by
  obtain ⟨store, hrun, h, -⟩ := (valid_new (π := π) initialOnchainNonces).runOps ops
  refine ⟨store, hrun, fun id => ⟨?_, fun later hlater => ?_⟩, fun ids => ?_⟩
  · have hreturned := h.removeOrder_returns id
    constructor
    · exact fun heq o hstored => ((hreturned o).mp (heq.trans hstored)).2
    · intro hwaits
      refine Option.ext fun o => ?_
      rw [hreturned o]
      exact and_iff_left_of_imp (hwaits o)
  · obtain ⟨hvalid, -, hgone, -⟩ := h.removeOrder id
    obtain ⟨store', hrun', h', habsent⟩ := hvalid.runOps later
    have hid := habsent id (lookup_eq_none.mp hgone) hlater
    refine ⟨store', hrun', hid, Partial.unqueued h' hid, fun tie o store'' hpop hpopped => ?_⟩
    rcases h'.popOrder tie with ⟨hpop', -⟩ | ⟨o', hpop', hstored, -⟩
    all_goals
      rw [hpop] at hpop'
      cases hpop'
    exact hid (hpopped ▸ mem_of_lookup hstored)
  · have hnotReady {o : SimulatedOrder} (hmem : o ∈ (removeOrders ids store).1) :
        ¬ Ready store.onchainNonce o := by
      obtain ⟨-, -, -, hnot⟩ := (h.mem_removeOrders ids o).mp hmem
      exact hnot
    refine ⟨⟨fun heq id hid o hstored => hnotReady ((heq o).mpr ⟨id, hid, hstored⟩), fun hwaits o => ?_⟩,
      fun hnodup => ⟨fun heq id hid o hstored => hnotReady ?_, h.removeOrders_eq hnodup⟩⟩
    · rw [h.mem_removeOrders ids o]
      exact exists_congr fun id => and_congr_right fun hid => and_iff_left_of_imp (hwaits id hid o)
    · rw [heq]
      exact mem_filterMap.mpr ⟨id, hid, hstored⟩

/-- The priority of `OrderMaxProfitPriority`. -/
instance : OrderPriority Nat where
  new simOrder := simOrder.simValue.fullProfitInfo.coinbaseProfit

def mempoolOrder : SimulatedOrder where
  order := .tx
    { hash := Vector.replicate 32 1, signer := Vector.replicate 20 1, toAddress := none, nonce := 0
      gasLimit := 21000, maxFeePerGas := 1, maxPriorityFeePerGas := 1, value := 0
      txType := .legacy, length := 100, encoding := [] }
  simValue := .new 5 0 .zero []

/-- The next transaction of its signer is removed, and nothing is returned. -/
theorem removal_of_ready_order_unreported :
    ∃ store : PrioritizedOrderStore Nat, runOps [.insertOrder mempoolOrder] (new []) = .ok store ∧
      store.orders.lookup mempoolOrder.order.id = some mempoolOrder ∧
      (store.removeOrder mempoolOrder.order.id).1 = none ∧
      (removeOrders [mempoolOrder.order.id] store).1 = [] ∧
      (store.removeOrder mempoolOrder.order.id).2.orders.lookup mempoolOrder.order.id = none :=
  ⟨_, rfl, rfl, rfl, rfl, rfl⟩

end PrioritizedOrderStore

end BlockOrders
