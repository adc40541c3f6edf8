/-
  The containers of the store of orders agree.

  `Partial` is the invariant inside an update: some orders of the main queue are still to be
  checked, some orders are taken out to be inserted again, and the lists of some nonces are
  still to be looked at. With nothing left to do it is the invariant of the store (`Valid`).
-/
import Rbuilder.BlockOrders.PrioritizedStore

namespace BlockOrders

open SparseMpt
open Building (OrderId)
open OrderInput (Order Nonce)
open Simulation (SimulatedOrder)
open AList List

/-! ## Statistics -/

def statisticsOf (orders : AList fun _ : OrderId => SimulatedOrder) : OrderStatistics :=
  orders.entries.foldr (fun entry statistics => statistics.add entry.2.order) {}

theorem OrderStatistics.add_add_comm (s : OrderStatistics) (a b : Order) :
    (s.add a).add b = (s.add b).add a := by
  cases a <;> cases b <;> rfl

theorem OrderStatistics.add_remove (s : OrderStatistics) (order : Order) :
    (s.add order).remove order = s := by
  cases order <;> simp [OrderStatistics.add, OrderStatistics.remove, Int32.add_sub_cancel]

variable {orders : AList fun _ : OrderId => SimulatedOrder} {id : OrderId} {o : SimulatedOrder}

theorem statisticsOf_insert (h : id ∉ orders) (o : SimulatedOrder) :
    statisticsOf (orders.insert id o) = (statisticsOf orders).add o.order := by
  unfold statisticsOf
  rw [entries_insert_of_notMem h, foldr_cons]

theorem statisticsOf_erase (h : orders.lookup id = some o) :
    statisticsOf (orders.erase id) = (statisticsOf orders).remove o.order := by
  have hcomm : LeftCommutative fun (entry : Sigma fun _ : OrderId => SimulatedOrder)
      (s : OrderStatistics) => s.add entry.2.order :=
    ⟨fun a b s => OrderStatistics.add_add_comm s b.2.order a.2.order⟩
  have hperm : statisticsOf orders = (⟨id, o⟩ :: (orders.erase id).entries).foldr
      (fun entry s => s.add entry.2.order) {} := by
    exact (entries_perm_erase h).foldr_eq _
  rw [hperm, foldr_cons, OrderStatistics.add_remove]
  rfl

/-! ## Nonces -/

section

variable (nonces : Address → UInt64) (o : SimulatedOrder)

/-- Every mandatory nonce of the order is that of its account. -/
def Ready : Prop := ∀ n ∈ o.order.nonces, n.optional = false → nonces n.address = n.nonce

/-- A mandatory nonce of the order is below that of its account. -/
def Passed : Prop := ∃ n ∈ o.order.nonces, n.optional = false ∧ n.nonce < nonces n.address

/-- No nonce of the order is that of its account. -/
def Unmatched : Prop := ∀ n ∈ o.order.nonces, nonces n.address ≠ n.nonce

end

theorem Ready.not_passed {nonces : Address → UInt64} (h : Ready nonces o) : ¬ Passed nonces o := by
  rintro ⟨n, hn, hmandatory, hlt⟩
  rw [h n hn hmandatory] at hlt
  exact UInt64.lt_irrefl _ hlt

namespace PrioritizedOrderStore

variable {π : Type}

theorem pendingNonces_eq_none (store : PrioritizedOrderStore π) (nonces : List Nonce) :
    store.pendingNonces nonces = none ↔
      ∃ n ∈ nonces, n.optional = false ∧ n.nonce < store.onchainNonce n.address := by
  induction nonces with
  | nil => simp [pendingNonces]
  | cons n nonces ih =>
    unfold pendingNonces
    by_cases hpassed : store.onchainNonce n.address > n.nonce ∧ (!n.optional) = true
    · rw [if_pos hpassed]
      exact iff_of_true rfl ⟨n, mem_cons_self, by simpa using hpassed.2, hpassed.1⟩
    rw [if_neg hpassed, Option.map_eq_none_iff, ih, exists_mem_cons_iff]
    refine (or_iff_right fun h => hpassed ⟨h.2, ?_⟩).symm
    rw [h.1]
    rfl

variable {store store' : PrioritizedOrderStore π} {o : SimulatedOrder} {out out' : List SimulatedOrder}
  {id : OrderId} {checks : List OrderId} {news keys : List AccountNonce}

/-- The keys that an order waits for. -/
theorem mem_pendingNonces {nonces : List Nonce}
    (h : store.pendingNonces nonces = some keys) (key : AccountNonce) :
    key ∈ keys ↔ ∃ n ∈ nonces, n.optional = false ∧ store.onchainNonce n.address < n.nonce ∧
      key = ⟨n.nonce, n.address⟩ := by
  induction nonces generalizing keys with
  | nil =>
    cases h
    simp
  | cons n nonces ih =>
    unfold pendingNonces at h
    dsimp only at h
    split_ifs at h with hpassed hwaits
    · obtain ⟨rest, hrest, rfl⟩ := Option.map_eq_some_iff.mp h
      have hmandatory : n.optional = false := by simpa using hwaits.2
      rw [exists_mem_cons_iff, ← ih hrest, mem_cons]
      simp [hmandatory, hwaits.1]
    obtain ⟨rest, hrest, rfl⟩ := Option.map_eq_some_iff.mp h
    rw [exists_mem_cons_iff, ← ih hrest]
    refine (or_iff_right fun hn => hwaits ⟨hn.2.1, ?_⟩).symm
    rw [hn.1]
    rfl

theorem ready_of_pendingNonces_nil
    (h : store.pendingNonces o.order.nonces = some []) : Ready store.onchainNonce o := by
  intro n hn hmandatory
  have hnotPassed : ¬ n.nonce < store.onchainNonce n.address := by
    intro hlt
    rw [(pendingNonces_eq_none store _).mpr ⟨n, hn, hmandatory, hlt⟩] at h
    cases h
  have hnotWaiting : ¬ store.onchainNonce n.address < n.nonce := by
    intro hlt
    exact absurd ((mem_pendingNonces h _).mpr ⟨n, hn, hmandatory, hlt, rfl⟩) not_mem_nil
  exact UInt64.le_antisymm (UInt64.not_lt.mp hnotPassed) (UInt64.not_lt.mp hnotWaiting)

theorem retainOrder_eq_false (store : PrioritizedOrderStore π) (nonces : List Nonce)
    (validNonces : Nat) (h : store.retainOrder nonces validNonces = false) :
    (∃ n ∈ nonces, n.optional = false ∧ n.nonce < store.onchainNonce n.address) ∨
      validNonces = 0 ∧ ∀ n ∈ nonces, store.onchainNonce n.address ≠ n.nonce := by
  induction nonces generalizing validNonces with
  | nil =>
    right
    simpa [retainOrder] using h
  | cons n nonces ih =>
    unfold retainOrder at h
    dsimp only at h
    split_ifs at h with hpassed hmatch
    · exact .inl ⟨n, mem_cons_self, by simpa using hpassed.2, hpassed.1⟩
    · rcases ih _ h with ⟨n', hn', hrest⟩ | ⟨hzero, -⟩
      · exact .inl ⟨n', mem_cons_of_mem _ hn', hrest⟩
      · cases hzero
    · rcases ih _ h with ⟨n', hn', hrest⟩ | ⟨hzero, hrest⟩
      · exact .inl ⟨n', mem_cons_of_mem _ hn', hrest⟩
      · exact .inr ⟨hzero, forall_mem_cons.mpr ⟨hmatch, hrest⟩⟩

/-! ## Lists of ids -/

theorem mem_pushMainQueueNonces (id : OrderId) (nonces : List Nonce)
    (lists : AList fun _ : Address => List OrderId) (address : Address) (id' : OrderId) :
    id' ∈ ((nonces.foldl (pushMainQueueNonce id) lists).lookup address).getD [] ↔
      id' ∈ (lists.lookup address).getD [] ∨ id' = id ∧ ∃ n ∈ nonces, n.address = address := by
  induction nonces generalizing lists with
  | nil => simp
  | cons n nonces ih =>
    rw [foldl_cons, ih, exists_mem_cons_iff]
    unfold pushMainQueueNonce
    by_cases heq : address = n.address
    · subst heq
      rw [lookup_insert, Option.getD_some, mem_append, mem_singleton]
      simp only [true_or, and_true, or_assoc]
      exact or_congr_right ⟨fun h => h.elim (fun h => h) And.left, .inl⟩
    · rw [lookup_insert_ne heq]
      simp only [Ne.symm heq, false_or]

theorem mem_pushPendings (id : OrderId) (keys : List AccountNonce)
    (lists : AList fun _ : AccountNonce => List OrderId) (key : AccountNonce) (id' : OrderId) :
    id' ∈ ((keys.foldl (pushPending id) lists).lookup key).getD [] ↔
      id' ∈ (lists.lookup key).getD [] ∨ id' = id ∧ key ∈ keys := by
  induction keys generalizing lists with
  | nil => simp
  | cons k keys ih =>
    rw [foldl_cons, ih, mem_cons]
    unfold pushPending
    by_cases heq : key = k
    · subst heq
      rw [lookup_insert, Option.getD_some]
      simp only [true_or, and_true]
      split_ifs with hmem
      · exact ⟨fun h => h.imp_right And.left, fun h => h.elim .inl fun hid => .inl (hid ▸ hmem)⟩
      · rw [mem_append, mem_singleton, or_assoc]
        exact or_congr_right ⟨fun h => h.elim (fun h => h) And.left, .inl⟩
    · rw [lookup_insert_ne heq]
      simp only [heq, false_or]

/-! ## The invariant -/

section

variable (store : PrioritizedOrderStore π)

/-- The orders of the main queue with a transaction of the account. -/
def listOf (address : Address) : List OrderId := (store.mainQueueNonces.lookup address).getD []

/-- The orders that wait for the nonce. -/
def waitingFor (key : AccountNonce) : List OrderId := (store.pendingOrders.lookup key).getD []

/-- The order is stored, or taken out. -/
def Holds (out : List SimulatedOrder) (id : OrderId) (o : SimulatedOrder) : Prop :=
  store.orders.lookup id = some o ∨ o ∈ out ∧ o.order.id = id

end

theorem holds_nil : store.Holds [] id o ↔ store.orders.lookup id = some o :=
  or_iff_left fun hout => not_mem_nil hout.1

theorem Holds.eq {o' : SimulatedOrder} (houtNew : ∀ o ∈ out, o.order.id ∉ store.orders)
    (hnodup : (out.map fun o => o.order.id).Nodup) (h : store.Holds out id o)
    (h' : store.Holds out id o') : o = o' := by
  have hstored {o o' : SimulatedOrder} (h : store.orders.lookup id = some o) (ho' : o' ∈ out)
      (hid : o'.order.id = id) : False := by
    refine houtNew o' ho' ?_
    rw [hid]
    exact mem_of_lookup h
  rcases h with h | ⟨ho, hid⟩
  · rcases h' with h' | ⟨ho', hid'⟩
    · rw [h] at h'
      exact Option.some.inj h'
    · exact (hstored h ho' hid').elim
  · rcases h' with h' | ⟨ho', hid'⟩
    · exact (hstored h' ho hid).elim
    · exact inj_on_of_nodup_map hnodup ho ho' (hid.trans hid'.symm)

theorem removeFromOrders_eq (store : PrioritizedOrderStore π) (id : OrderId) :
    store.removeFromOrders id = (store.orders.lookup id, { store with
      orders := store.orders.erase id
      ordersStatistics := (store.orders.lookup id).elim store.ordersStatistics fun o =>
        store.ordersStatistics.remove o.order }) := by
  unfold removeFromOrders
  cases hlookup : store.orders.lookup id with
  | some o => rfl
  | none =>
    have herase : store.orders.erase id = store.orders :=
      AList.ext (kerase_of_notMem_keys (lookup_eq_none.mp hlookup))
    rw [herase]
    rfl

/-- What is taken out is still held. -/
theorem holds_removeFromOrders (out : List SimulatedOrder)
    (hlookup : store.orders.lookup id = some o) (hown : o.order.id = id) (id' : OrderId)
    (o' : SimulatedOrder) :
    (store.removeFromOrders id).2.Holds (o :: out) id' o' ↔ store.Holds out id' o' := by
  rw [removeFromOrders_eq, hlookup]
  constructor
  · rintro (hstored | ⟨ho', hid'⟩)
    · exact .inl (lookup_erase_eq_some hstored).2
    rcases mem_cons.mp ho' with rfl | ho'
    · rw [← hid', hown]
      exact .inl hlookup
    · exact .inr ⟨ho', hid'⟩
  rintro (hstored | ⟨ho', hid'⟩)
  · by_cases hid : id' = id
    · rw [hid, hlookup] at hstored
      cases hstored
      exact .inr ⟨mem_cons_self, hown.trans hid.symm⟩
    · exact .inl ((lookup_erase_ne hid).trans hstored)
  · exact .inr ⟨mem_cons_of_mem _ ho', hid'⟩

/-- The orders held once the first one is stored. -/
theorem holds_insert (horders : store'.orders = store.orders.insert o.order.id o)
    (hout : o.order.id ∉ out.map fun o => o.order.id) (hnew : o.order.id ∉ store.orders)
    (id : OrderId) (o' : SimulatedOrder) :
    store'.Holds out id o' ↔ store.Holds (o :: out) id o' := by
  unfold Holds
  rw [horders, mem_cons]
  by_cases hid : id = o.order.id
  · subst hid
    rw [lookup_insert, lookup_eq_none.mpr hnew]
    constructor
    · rintro (hsome | ⟨ho', hid⟩)
      · cases hsome
        exact .inr ⟨.inl rfl, rfl⟩
      · exact .inr ⟨.inr ho', hid⟩
    rintro (hnone | ⟨rfl | ho', hid⟩)
    · cases hnone
    · exact .inl rfl
    · exact absurd (mem_map.mpr ⟨o', ho', hid⟩) hout
  · rw [lookup_insert_ne hid]
    refine or_congr_right (and_congr_left fun hown => (or_iff_right ?_).symm)
    rintro rfl
    exact hid hown.symm

/-- An order that is not in the main queue is not looked at. -/
theorem holds_cons_of_unqueued (hqueue : store.mainQueue.lookup o.order.id = none) (id : OrderId)
    (hid : store.mainQueue.lookup id ≠ none) (o' : SimulatedOrder) :
    store.Holds (o :: out) id o' ↔ store.Holds out id o' := by
  refine or_congr_right (and_congr_left fun hown => mem_cons.trans (or_iff_right ?_))
  rintro rfl
  exact hid (hown ▸ hqueue)

variable [OrderPriority π]

/-- The invariant inside an update. The orders in `checks` may not be ready any more, those in
    `out` are taken out, and `news` are the nonces whose lists are still to be looked at. -/
structure Partial (store : PrioritizedOrderStore π) (checks : List OrderId)
    (out : List SimulatedOrder) (news : List AccountNonce) : Prop where
  ownId : ∀ id o, store.orders.lookup id = some o → o.order.id = id
  outNew : ∀ o ∈ out, o.order.id ∉ store.orders
  outNodup : (out.map fun o => o.order.id).Nodup
  main : ∀ id p, store.mainQueue.lookup id = some p → ∃ o, store.Holds out id o ∧
    p = OrderPriority.new o ∧ (id ∉ checks → Ready store.onchainNonce o ∧
      ∀ n ∈ o.order.nonces, id ∈ store.listOf n.address)
  checked : ∀ id ∈ checks, store.mainQueue.lookup id ≠ none ∧ id ∈ store.orders
  listed : ∀ address, ∀ id ∈ store.listOf address, store.mainQueue.lookup id ≠ none ∧
    ∀ o, store.Holds out id o → ∃ n ∈ o.order.nonces, n.address = address
  waits : ∀ id o, store.orders.lookup id = some o → store.mainQueue.lookup id = none →
    ∃ n ∈ o.order.nonces, n.optional = false ∧ id ∈ store.waitingFor ⟨n.nonce, n.address⟩ ∧
      (store.onchainNonce n.address ≠ n.nonce ∨ ⟨n.nonce, n.address⟩ ∈ news)
  statistics : store.ordersStatistics = statisticsOf store.orders

/-- The invariant of the store. -/
def Valid (store : PrioritizedOrderStore π) : Prop := store.Partial [] [] []

theorem valid_new (initial : List AccountNonce) :
    (new initial : PrioritizedOrderStore π).Valid where
  ownId := by
    intro id o h
    cases h
  outNew := by simp
  outNodup := nodup_nil
  main := by
    intro id p h
    cases h
  checked := by simp
  listed := by
    intro address id h
    cases h
  waits := by
    intro id o h
    cases h
  statistics := rfl

/-- Which orders are taken out matters only for those in the main queue. -/
theorem Partial.of_holds (h : store.Partial checks out news)
    (hnew : ∀ o ∈ out', o.order.id ∉ store.orders)
    (hnodup : (out'.map fun o => o.order.id).Nodup)
    (hholds : ∀ id, store.mainQueue.lookup id ≠ none → ∀ o,
      store.Holds out' id o ↔ store.Holds out id o) : store.Partial checks out' news where
  __ := h
  outNew := hnew
  outNodup := hnodup
  main := by
    intro id p hlookup
    obtain ⟨o, hold, hrest⟩ := h.main id p hlookup
    exact ⟨o, (hholds id (by simp [hlookup]) o).mpr hold, hrest⟩
  listed := by
    intro address id hid
    obtain ⟨hmain, hnonce⟩ := h.listed address id hid
    exact ⟨hmain, fun o hold => hnonce o ((hholds id hmain o).mp hold)⟩

/-- An order that is nowhere can be counted as taken out. -/
theorem Partial.take (h : store.Partial checks out news)
    (hstored : o.order.id ∉ store.orders) (hout : o.order.id ∉ out.map fun o => o.order.id)
    (hqueue : store.mainQueue.lookup o.order.id = none) : store.Partial checks (o :: out) news :=
  h.of_holds (forall_mem_cons.mpr ⟨hstored, h.outNew⟩) (nodup_cons.mpr ⟨hout, h.outNodup⟩)
    (holds_cons_of_unqueued hqueue)

/-- A taken out order that is not in the main queue can be forgotten. -/
theorem Partial.forget (h : store.Partial checks (o :: out) news)
    (hqueue : store.mainQueue.lookup o.order.id = none) : store.Partial checks out news :=
  h.of_holds (forall_mem_cons.mp h.outNew).2 (nodup_cons.mp h.outNodup).2
    fun id hid o' => (holds_cons_of_unqueued hqueue id hid o').symm

theorem Partial.perm (h : store.Partial checks out news) (hperm : out'.Perm out) :
    store.Partial checks out' news :=
  h.of_holds (fun o ho => h.outNew o (hperm.mem_iff.mp ho)) ((hperm.map _).nodup_iff.mpr h.outNodup)
    fun _ _ _ => or_congr_right (and_congr_left' hperm.mem_iff)

/-- A stored order is taken out. -/
protected theorem Partial.removeFromOrders (h : store.Partial checks out news)
    (hlookup : store.orders.lookup id = some o) (hcheck : id ∉ checks) :
    (store.removeFromOrders id).2.Partial checks (o :: out) news := by
  have hown := h.ownId id o hlookup
  have hholds := holds_removeFromOrders out hlookup hown
  rw [removeFromOrders_eq, hlookup] at hholds ⊢
  refine ⟨?_, ?_, ?_, ?_, ?_, ?_, ?_, ?_⟩
  · exact fun id' o' hstored => h.ownId id' o' (lookup_erase_eq_some hstored).2
  · intro o' ho'
    rw [mem_erase]
    rcases mem_cons.mp ho' with rfl | ho'
    · exact fun hmem => hmem.1 hown
    · exact fun hmem => h.outNew o' ho' hmem.2
  · refine nodup_cons.mpr ⟨fun hmem => ?_, h.outNodup⟩
    obtain ⟨o', ho', hid'⟩ := mem_map.mp hmem
    have hid : o'.order.id = id := hid'.trans hown
    refine h.outNew o' ho' ?_
    rw [hid]
    exact mem_of_lookup hlookup
  · intro id' p hqueue
    obtain ⟨o', hold, hrest⟩ := h.main id' p hqueue
    exact ⟨o', (hholds id' o').mpr hold, hrest⟩
  · intro id' hid'
    refine ⟨(h.checked id' hid').1, mem_erase.mpr ⟨?_, (h.checked id' hid').2⟩⟩
    rintro rfl
    exact hcheck hid'
  · intro address id' hid'
    exact ⟨(h.listed address id' hid').1, fun o' hold =>
      (h.listed address id' hid').2 o' ((hholds id' o').mp hold)⟩
  · exact fun id' o' hstored => h.waits id' o' (lookup_erase_eq_some hstored).2
  · rw [statisticsOf_erase hlookup, ← h.statistics]
    rfl

/-! ## An insertion -/

/-- The order goes to the main queue. -/
def toMain (store : PrioritizedOrderStore π) (o : SimulatedOrder) :
    PrioritizedOrderStore π :=
  { store with
    mainQueue := store.mainQueue.push o.order.id (OrderPriority.new o)
    mainQueueNonces := o.order.nonces.foldl (pushMainQueueNonce o.order.id) store.mainQueueNonces
    ordersStatistics := store.ordersStatistics.add o.order
    orders := store.orders.insert o.order.id o }

/-- The order waits for the keys. -/
def toPending (store : PrioritizedOrderStore π) (o : SimulatedOrder) (keys : List AccountNonce) :
    PrioritizedOrderStore π :=
  { store with
    pendingOrders := keys.foldl (pushPending o.order.id) store.pendingOrders
    ordersStatistics := store.ordersStatistics.add o.order
    orders := store.orders.insert o.order.id o }

/-- All that the insertion of a new order can do. -/
inductive InsertOutcome (store : PrioritizedOrderStore π) (o : SimulatedOrder) :
    PrioritizedOrderStore π → Prop where
  | passed : Passed store.onchainNonce o → InsertOutcome store o store
  | ready : Ready store.onchainNonce o → InsertOutcome store o (store.toMain o)
  | waits (keys : List AccountNonce) : store.pendingNonces o.order.nonces = some keys → keys ≠ [] →
      InsertOutcome store o (store.toPending o keys)

theorem insertOrder_outcome
    (hnew : o.order.id ∉ store.orders) : InsertOutcome store o (store.insertOrder o) := by
  unfold insertOrder
  rw [if_neg hnew]
  cases hkeys : store.pendingNonces o.order.nonces with
  | none => exact .passed ((pendingNonces_eq_none store _).mp hkeys)
  | some keys =>
    cases keys with
    | nil => exact .ready (ready_of_pendingNonces_nil hkeys)
    | cons key keys => exact .waits (key :: keys) hkeys (cons_ne_nil _ _)

/-- The first order that is taken out is stored; the queue and the lists are as given. -/
theorem Partial.store_one (h : store.Partial checks (o :: out) news)
    (horders : store'.orders = store.orders.insert o.order.id o)
    (hstatistics : store'.ordersStatistics = store.ordersStatistics.add o.order)
    (hmain : ∀ id p, store'.mainQueue.lookup id = some p → ∃ o', store.Holds (o :: out) id o' ∧
      p = OrderPriority.new o' ∧ (id ∉ checks → Ready store'.onchainNonce o' ∧
        ∀ n ∈ o'.order.nonces, id ∈ store'.listOf n.address))
    (hchecked : ∀ id ∈ checks, store'.mainQueue.lookup id ≠ none)
    (hlisted : ∀ address, ∀ id ∈ store'.listOf address, store'.mainQueue.lookup id ≠ none ∧
      ∀ o', store.Holds (o :: out) id o' → ∃ n ∈ o'.order.nonces, n.address = address)
    (hwaits : ∀ id o', store'.orders.lookup id = some o' → store'.mainQueue.lookup id = none →
      ∃ n ∈ o'.order.nonces, n.optional = false ∧ id ∈ store'.waitingFor ⟨n.nonce, n.address⟩ ∧
        (store'.onchainNonce n.address ≠ n.nonce ∨ ⟨n.nonce, n.address⟩ ∈ news)) :
    store'.Partial checks out news := by
  have hnew : o.order.id ∉ store.orders := h.outNew o mem_cons_self
  obtain ⟨hout, hnodup⟩ := nodup_cons.mp h.outNodup
  have hholds := holds_insert horders hout hnew
  refine ⟨?_, ?_, hnodup, ?_, ?_, ?_, hwaits, ?_⟩
  · intro id o' hstored
    rw [horders] at hstored
    obtain ⟨rfl, rfl⟩ | ⟨-, hstored⟩ := lookup_insert_eq_some hstored
    · rfl
    · exact h.ownId id o' hstored
  · intro o' ho' hmem
    rw [horders, mem_insert] at hmem
    rcases hmem with hid | hmem
    · exact hout (mem_map.mpr ⟨o', ho', hid⟩)
    · exact h.outNew o' (mem_cons_of_mem _ ho') hmem
  · intro id p hlookup
    obtain ⟨o', hold, hrest⟩ := hmain id p hlookup
    exact ⟨o', (hholds id o').mpr hold, hrest⟩
  · intro id hid
    refine ⟨hchecked id hid, ?_⟩
    rw [horders, mem_insert]
    exact .inr (h.checked id hid).2
  · intro address id hid
    exact ⟨(hlisted address id hid).1, fun o' hold =>
      (hlisted address id hid).2 o' ((hholds id o').mp hold)⟩
  · rw [hstatistics, h.statistics, horders, statisticsOf_insert hnew]

theorem Partial.toMain
    (h : store.Partial checks (o :: out) news) (hready : Ready store.onchainNonce o) :
    (store.toMain o).Partial checks out news := by
  have hself : store.Holds (o :: out) o.order.id o := .inr ⟨mem_cons_self, rfl⟩
  have hqueue (id : OrderId) : (store.toMain o).mainQueue.lookup id =
      if id = o.order.id then some (OrderPriority.new o) else store.mainQueue.lookup id :=
    PriorityQueue.lookup_push ..
  have hlist (address : Address) (id : OrderId) : id ∈ (store.toMain o).listOf address ↔
      id ∈ store.listOf address ∨ id = o.order.id ∧ ∃ n ∈ o.order.nonces, n.address = address :=
    mem_pushMainQueueNonces ..
  refine h.store_one rfl rfl ?_ ?_ ?_ ?_
  · intro id p hlookup
    rw [hqueue] at hlookup
    split_ifs at hlookup with hid
    · cases hlookup
      subst hid
      exact ⟨o, hself, rfl, fun _ => ⟨hready, fun n hn => (hlist ..).mpr (.inr ⟨rfl, n, hn, rfl⟩)⟩⟩
    · obtain ⟨o', hholds, hp, hrest⟩ := h.main id p hlookup
      exact ⟨o', hholds, hp, fun hcheck => ⟨(hrest hcheck).1, fun n hn =>
        (hlist ..).mpr (.inl ((hrest hcheck).2 n hn))⟩⟩
  · intro id hid
    rw [hqueue]
    split_ifs
    · exact Option.some_ne_none _
    · exact (h.checked id hid).1
  · intro address id hid
    rw [hqueue]
    rcases (hlist address id).mp hid with hold | ⟨rfl, hnonce⟩
    · obtain ⟨hmain, hnonce⟩ := h.listed address id hold
      refine ⟨?_, hnonce⟩
      split_ifs
      · exact Option.some_ne_none _
      · exact hmain
    rw [if_pos rfl]
    refine ⟨Option.some_ne_none _, fun o' hholds => ?_⟩
    rw [Holds.eq h.outNew h.outNodup hholds hself]
    exact hnonce
  · intro id o' hstored hnone
    rw [hqueue] at hnone
    split_ifs at hnone with hid
    have hold : store.orders.lookup id = some o' := (lookup_insert_ne hid).symm.trans hstored
    exact h.waits id o' hold hnone

theorem Partial.toPending (h : store.Partial checks (o :: out) news)
    (hkeys : store.pendingNonces o.order.nonces = some keys) (hne : keys ≠ []) :
    (store.toPending o keys).Partial checks out news := by
  have hlist (key : AccountNonce) (id : OrderId) : id ∈ (store.toPending o keys).waitingFor key ↔
      id ∈ store.waitingFor key ∨ id = o.order.id ∧ key ∈ keys :=
    mem_pushPendings ..
  refine h.store_one rfl rfl h.main (fun id hid => (h.checked id hid).1) h.listed ?_
  intro id o' hstored hnone
  by_cases hid : id = o.order.id
  · subst hid
    have hsome : some o = some o' := (lookup_insert _).symm.trans hstored
    cases hsome
    obtain ⟨key, hkey⟩ := exists_mem_of_ne_nil keys hne
    obtain ⟨n, hn, hmandatory, hlt, rfl⟩ := (mem_pendingNonces hkeys key).mp hkey
    refine ⟨n, hn, hmandatory, (hlist ..).mpr (.inr ⟨rfl, hkey⟩), .inl fun heq => ?_⟩
    exact UInt64.lt_irrefl _ (heq ▸ hlt)
  · have hold : store.orders.lookup id = some o' := (lookup_insert_ne hid).symm.trans hstored
    obtain ⟨n, hn, hmandatory, hmem, hrest⟩ := h.waits id o' hold hnone
    exact ⟨n, hn, hmandatory, (hlist ..).mpr (.inl hmem), hrest⟩

/-- An order of the main queue that is taken out is still ready. -/
theorem Partial.ready_of_queued (h : store.Partial checks (o :: out) news)
    (hcheck : o.order.id ∉ checks) (hqueue : store.mainQueue.lookup o.order.id ≠ none) :
    Ready store.onchainNonce o := by
  obtain ⟨p, hp⟩ := Option.ne_none_iff_exists'.mp hqueue
  obtain ⟨o', hholds, -, hrest⟩ := h.main _ p hp
  have hself : store.Holds (o :: out) o.order.id o := .inr ⟨mem_cons_self, rfl⟩
  rw [Holds.eq h.outNew h.outNodup hself hholds]
  exact (hrest hcheck).1

/-- A taken out order is inserted again, or dropped because a nonce of it has passed. -/
protected theorem Partial.insertOrder (h : store.Partial checks (o :: out) news)
    (hcheck : o.order.id ∉ checks) : (store.insertOrder o).Partial checks out news ∧
      (store.insertOrder o).onchainNonces = store.onchainNonces ∧
      (∀ id o', store.Holds (o :: out) id o' →
        (store.insertOrder o).Holds out id o' ∨ Passed store.onchainNonce o') ∧
      ∀ id o', (store.insertOrder o).Holds out id o' → store.Holds (o :: out) id o' := by
  have hnew : o.order.id ∉ store.orders := h.outNew o mem_cons_self
  have hout := (nodup_cons.mp h.outNodup).1
  have houtcome := insertOrder_outcome hnew
  generalize store.insertOrder o = store' at houtcome
  cases houtcome with
  | passed hpassed =>
    have hqueue : store.mainQueue.lookup o.order.id = none := by
      by_contra hsome
      exact (h.ready_of_queued hcheck hsome).not_passed hpassed
    refine ⟨h.forget hqueue, rfl, fun id o' hholds => ?_, fun id o' hholds =>
      hholds.imp_right fun hout => ⟨mem_cons_of_mem _ hout.1, hout.2⟩⟩
    rcases hholds with hstored | ⟨ho', hid⟩
    · exact .inl (.inl hstored)
    · rcases mem_cons.mp ho' with rfl | ho'
      · exact .inr hpassed
      · exact .inl (.inr ⟨ho', hid⟩)
  | ready hready =>
    have hholds := @holds_insert π store (store.toMain o) o out rfl hout hnew
    exact ⟨h.toMain hready, rfl, fun id o' hold => .inl ((hholds id o').mpr hold),
      fun id o' => (hholds id o').mp⟩
  | waits keys hkeys hne =>
    have hholds := @holds_insert π store (store.toPending o keys) o out rfl hout hnew
    exact ⟨h.toPending hkeys hne, rfl, fun id o' hold => .inl ((hholds id o').mpr hold),
      fun id o' => (hholds id o').mp⟩

end PrioritizedOrderStore

end BlockOrders
