/-
  The live orders behind the replacement manager.

  `OrderStore` keeps orders by id. The id of a bundle is a hash of what it does, without the
  replacement data, so orders of two keys can have one id, and the manager removes by id: a
  key that cancels or replaces its order takes the order of another key out of the store.
  `orders_of_others_kept_iff` says which calls do that; in a run without them an order that
  a key counts on, or that came without a key, is always live.
-/
import Rbuilder.OrderInput.Replacement
import Rbuilder.Runs
import Mathlib.Data.List.Sort

namespace OrderInput

open SparseMpt
open Building (OrderId)
open AList Event LatestWins Call Option

/-! ## Ids of bundles -/

/-- The hash functions of the ids. -/
structure IdHashes where
  keccak256 : Bytes → B256
  sha256 : Bytes → B256

inductive BundleVersion where
  | v1
  | v2

/-- Seven bits a byte, the lowest first, with a mark on all bytes but the last. -/
def varBytes : Nat → Nat → Bytes
  | 0, _ => []
  | size + 1, n =>
    if n < 128 then [n.toUInt8] else (n % 128 + 128).toUInt8 :: varBytes size (n / 128)

/-- `encode_var_vec` of a `u64`. -/
def encodeVarVec (n : UInt64) : Bytes := varBytes 10 n.toNat

/-- `encode_var_vec` of `n as i64`, where the sign goes to the lowest bit. -/
def encodeVarVecSigned (n : UInt64) : Bytes :=
  encodeVarVec ((n <<< 1) ^^^ (if n < 0x8000000000000000 then 0 else 0xFFFFFFFFFFFFFFFF))

def sortHashes (hashes : List B256) : List B256 :=
  hashes.insertionSort fun a b => ¬ b.toList < a.toList

/-- The first 16 bytes, with the version and the variant of a name based uuid. -/
def uuidFromBuffer (h : IdHashes) (buff : Bytes) : Vector UInt8 16 :=
  let hash := h.sha256 (List.replicate 16 0 ++ buff)
  let res : Vector UInt8 16 := Vector.ofFn fun i => hash[i.val]
  let res := res.set 6 ((res[6] &&& 0x0f) ||| 0x50)
  res.set 8 ((res[8] &&& 0x3f) ||| 0x80)

def uuidV1 (h : IdHashes) (hash : B256) (bundle : Building.Bundle) : Vector UInt8 16 :=
  uuidFromBuffer h (encodeVarVecSigned (bundle.block.getD 0) ++ hash.toList ++
    (sortHashes bundle.revertingTxHashes).flatMap Vector.toList)

/-- What `uuid_v2` hashes. -/
def uuidV2Buffer (hash : B256) (bundle : Building.Bundle) : Bytes :=
  encodeVarVec (bundle.block.getD 0) ++ encodeVarVec (bundle.minTimestamp.getD 0) ++
    encodeVarVec (bundle.maxTimestamp.getD 0xFFFFFFFFFFFFFFFF) ++
    encodeVarVec bundle.revertingTxHashes.length.toUInt64 ++
    encodeVarVec bundle.droppingTxHashes.length.toUInt64 ++ hash.toList ++
    (sortHashes bundle.revertingTxHashes).flatMap Vector.toList ++
    (sortHashes bundle.droppingTxHashes).flatMap Vector.toList ++
    match bundle.refund with
    | some refund =>
      [refund.percent] ++ refund.recipient.toList ++ encodeVarVec 1 ++ refund.txHash.toList
    | none => []

def uuidV2 (h : IdHashes) (hash : B256) (bundle : Building.Bundle) : Vector UInt8 16 :=
  uuidFromBuffer h (uuidV2Buffer hash bundle)

/-- `Bundle::hash_slow`: the bundle with its id. The hashes are sorted in place. -/
def hashSlow (h : IdHashes) (version : BundleVersion)
    (replacementData : Option BundleReplacementData) (bundle : Building.Bundle) : Order :=
  let hash := h.keccak256 (bundle.txs.flatMap fun tx => tx.hash.toList)
  let reverting := sortHashes bundle.revertingTxHashes
  match version with
  | .v1 => .bundle (uuidV1 h hash bundle) replacementData { bundle with revertingTxHashes := reverting }
  | .v2 =>
    .bundle (uuidV2 h hash bundle) replacementData
      { bundle with
        revertingTxHashes := reverting, droppingTxHashes := sortHashes bundle.droppingTxHashes }

/-! ## The store -/

open List

/-- `OrderStore`. -/
abbrev OrderStore := AList fun _ : OrderId => Order

def orderStore : OrderSink OrderStore where
  insertOrder order orders := (true, orders.insert order.id order)
  removeOrder id orders := (true, orders.erase id)

theorem mem_deliver_insertion (orders : OrderStore) (event : Event) (id : OrderId) :
    id ∈ deliver orderStore orders event.insertion ↔
      event.order.map Order.id = some id ∨ id ∈ orders := by
  unfold insertion
  cases event.order with
  | none => simp [deliver]
  | some order =>
    change id ∈ insert order.id order orders ↔ _
    rw [mem_insert, map_some, some_inj, eq_comm]

theorem mem_deliver_removal (orders : OrderStore) (state : BundleReplacementState) (id : OrderId) :
    id ∈ deliver orderStore orders state.removal ↔
      (∀ seq, state ≠ .valid seq id) ∧ id ∈ orders := by
  cases state with
  | cancelled seq => simp [deliver, BundleReplacementState.removal]
  | valid seq orderId =>
    change id ∈ erase orderId orders ↔ _
    rw [mem_erase]
    refine and_congr_left fun _ => ⟨?_, ?_⟩
    · intro hne seq' heq
      cases heq
      exact hne rfl
    · intro hne heq
      exact hne seq (by rw [heq])

/-! ## Orders of others -/

/-- The event is later than the state of its key. -/
def Event.Counts (event : Event) (state : Option BundleReplacementState) : Prop :=
  ∀ s, state = some s → s.sequenceNumber < event.sequenceNumber

variable {event : Event} {calls done : List Call} {call : Call} {key other : OrderReplacementKey}
  {order new : Order}

theorem Event.act_counts {state : Option BundleReplacementState} (h : event.Counts state) :
    event.act state = (event.state, (state.map fun s => s.removal).getD [] ++ event.insertion) := by
  cases state with
  | none => rfl
  | some s => exact act_later (UInt64.not_le.mpr (h s rfl))

theorem Event.act_not_counts {state : Option BundleReplacementState}
    (h : ¬ event.Counts state) : ∃ s, state = some s ∧ event.act state = (s, []) := by
  unfold Counts at h
  push Not at h
  obtain ⟨s, rfl, hnot⟩ := h
  exact ⟨s, rfl, act_ignored (UInt64.not_lt.mp hnot)⟩

/-- The key counts on the order of the id. -/
def HeldBy (m : OrderReplacementManager OrderStore) (key : OrderReplacementKey) (id : OrderId) : Prop :=
  ∃ seq, m.replacementStates.lookup key = some (.valid seq id)

section Step

variable {m : OrderReplacementManager OrderStore} {call : Call} {key : OrderReplacementKey}
  {event : Event}

section

variable (h : call.keyAndEvent = some (key, event))
include h

theorem mem_sink_run (id : OrderId) :
    id ∈ (call.run orderStore m).2.sink ↔
      event.Counts (m.replacementStates.lookup key) ∧ event.order.map Order.id = some id ∨
        id ∈ m.sink ∧ ¬ (event.Counts (m.replacementStates.lookup key) ∧ HeldBy m key id) := by
  rw [run_of_event orderStore m h]
  unfold HeldBy
  by_cases hcounts : event.Counts (m.replacementStates.lookup key)
  · rw [act_counts hcounts]
    rw [deliver_append, mem_deliver_insertion]
    rw [and_iff_right hcounts, and_iff_right hcounts]
    cases m.replacementStates.lookup key with
    | none => simp [deliver]
    | some s =>
      rw [map_some, getD_some, mem_deliver_removal, and_comm]
      simp
  · obtain ⟨s, -, hact⟩ := act_not_counts hcounts
    rw [hact]
    simp [deliver, hcounts]

theorem heldBy_run (id : OrderId) :
    HeldBy (call.run orderStore m).2 key id ↔
      event.Counts (m.replacementStates.lookup key) ∧ event.order.map Order.id = some id ∨
        ¬ event.Counts (m.replacementStates.lookup key) ∧ HeldBy m key id := by
  unfold HeldBy
  rw [run_of_event orderStore m h]
  by_cases hcounts : event.Counts (m.replacementStates.lookup key)
  · rw [act_counts hcounts]
    unfold state
    cases event.order with
    | none | some order => simp [hcounts]
  obtain ⟨s, hs, hact⟩ := act_not_counts hcounts
  rw [hact]
  rw [hs] at hcounts
  simp [hcounts, hs]

theorem heldBy_run_other
    (hne : other ≠ key) (id : OrderId) :
    HeldBy (call.run orderStore m).2 other id ↔ HeldBy m other id := by
  unfold HeldBy
  rw [run_of_event orderStore m h]
  rw [lookup_insert_ne hne]

end

end Step

section

variable (calls : List Call)

/-- The manager after the calls, in front of an empty store. -/
def managerAfter : OrderReplacementManager OrderStore :=
  calls.foldl (fun m call => (call.run orderStore m).2) (.new ∅)

theorem managerAfter_append (call : Call) :
    managerAfter (calls ++ [call]) = (call.run orderStore (managerAfter calls)).2 :=
  foldl_append

/-- An order of the id came without a key. -/
def CameWithoutKey (id : OrderId) : Prop :=
  ∃ order, Call.insertOrder order ∈ calls ∧ order.replacementKeyAndSequenceNumber = none ∧
    order.id = id

/-- The orders that a key counts on and those that came without a key are live. -/
def OrdersLive : Prop :=
  ∀ id, (∃ key, HeldBy (managerAfter calls) key id) ∨ CameWithoutKey calls id →
    id ∈ (managerAfter calls).sink

end

/-- The call withdraws the order of its key and does not put the id back. -/
def Withdraws (m : OrderReplacementManager OrderStore) (call : Call) (key : OrderReplacementKey)
    (id : OrderId) : Prop :=
  ∃ event, call.keyAndEvent = some (key, event) ∧ event.Counts (m.replacementStates.lookup key) ∧
    HeldBy m key id ∧ event.order.map Order.id ≠ some id

/-- What the call withdraws is no order of another key, and none without a key. -/
def SparesOthers (done : List Call) (call : Call) : Prop :=
  ∀ key id, Withdraws (managerAfter done) call key id →
    (∀ other, other ≠ key → ¬ HeldBy (managerAfter done) other id) ∧ ¬ CameWithoutKey done id

theorem cameWithoutKey_append {id : OrderId} :
    CameWithoutKey (calls ++ [call]) id ↔ CameWithoutKey calls id ∨ CameWithoutKey [call] id := by
  unfold CameWithoutKey
  simp only [mem_append, or_and_right, exists_or]

theorem not_cameWithoutKey
    (h : call.keyAndEvent = some (key, event)) (id : OrderId) : ¬ CameWithoutKey [call] id := by
  rintro ⟨order, hmem, hkey, -⟩
  rw [← mem_singleton.mp hmem] at h
  simp [keyAndEvent, hkey] at h

/-- An order without a key only adds to what is live. -/
theorem ordersLive_no_event (hlive : OrdersLive done)
    (h : call.keyAndEvent = none) : OrdersLive (done ++ [call]) := by
  obtain ⟨order, rfl, hrun⟩ := run_of_no_event orderStore (managerAfter done) h
  intro id hid
  rw [managerAfter_append, hrun] at hid ⊢
  change id ∈ insert order.id order _
  rw [mem_insert]
  rw [cameWithoutKey_append] at hid
  rcases hid with hheld | hbefore | ⟨order', hmem, -, rfl⟩
  · exact Or.inr (hlive id (Or.inl hheld))
  · exact Or.inr (hlive id (Or.inr hbefore))
  · cases mem_singleton.mp hmem
    exact Or.inl rfl

/-- One call keeps the orders live exactly if it spares those of others. -/
theorem ordersLive_step (done : List Call) (call : Call) (hlive : OrdersLive done) :
    OrdersLive (done ++ [call]) ↔ SparesOthers done call := by
  cases hcall : call.keyAndEvent with
  | none =>
    refine iff_of_true (ordersLive_no_event hlive hcall) ?_
    rintro key id ⟨event, hevent, -⟩
    rw [hcall] at hevent
    cases hevent
  | some entry =>
    obtain ⟨key, event⟩ := entry
    constructor
    · -- the call took the id out, so nobody else may count on it
      rintro hafter key' id ⟨event', hevent, hcounts, hheld, hput⟩
      cases hcall.symm.trans hevent
      have hgone : id ∉ (managerAfter (done ++ [call])).sink := by
        rw [managerAfter_append, mem_sink_run hcall]
        rintro (⟨-, hput'⟩ | ⟨-, hnot⟩)
        · exact hput hput'
        · exact hnot ⟨hcounts, hheld⟩
      refine ⟨?_, ?_⟩
      · intro other hne hother
        refine hgone (hafter id (Or.inl ⟨other, ?_⟩))
        rw [managerAfter_append, heldBy_run_other hcall hne]
        exact hother
      · intro hbefore
        exact hgone (hafter id (Or.inr (cameWithoutKey_append.mpr (Or.inl hbefore))))
    · intro hspares id hid
      rw [managerAfter_append, mem_sink_run hcall]
      -- the id was live before, and is put back where the call takes it out
      have hkept (hother : ¬ Withdraws (managerAfter done) call key id)
          (hmem : id ∈ (managerAfter done).sink) :
          event.Counts ((managerAfter done).replacementStates.lookup key) ∧
              event.order.map Order.id = some id ∨
            id ∈ (managerAfter done).sink ∧
              ¬ (event.Counts ((managerAfter done).replacementStates.lookup key) ∧
                HeldBy (managerAfter done) key id) := by
        by_cases hput : event.order.map Order.id = some id
        · by_cases hcounts : event.Counts ((managerAfter done).replacementStates.lookup key)
          · exact Or.inl ⟨hcounts, hput⟩
          · exact Or.inr ⟨hmem, fun hboth => hcounts hboth.1⟩
        · exact Or.inr ⟨hmem, fun hboth => hother ⟨event, hcall, hboth.1, hboth.2, hput⟩⟩
      rw [cameWithoutKey_append] at hid
      rcases hid with ⟨other, hheld⟩ | hbefore | hnew
      · rw [managerAfter_append] at hheld
        by_cases hkey : other = key
        · subst hkey
          rcases (heldBy_run hcall id).mp hheld with hnow | ⟨hnot, hbefore⟩
          · exact Or.inl hnow
          · exact Or.inr ⟨hlive id (Or.inl ⟨other, hbefore⟩), fun hboth => hnot hboth.1⟩
        · have hbefore := (heldBy_run_other hcall hkey id).mp hheld
          exact hkept (fun hw => (hspares key id hw).1 other hkey hbefore)
            (hlive id (Or.inl ⟨other, hbefore⟩))
      · exact hkept (fun hw => (hspares key id hw).2 hbefore) (hlive id (Or.inr hbefore))
      · exact (not_cameWithoutKey hcall id hnew).elim

/-- In a run all orders that keys count on, and all that came without a key, are live at all
    times if and only if no call withdraws an order that another key counts on or that came
    without a key. -/
theorem orders_of_others_kept_iff (calls : List Call) :
    (∀ done, done <+: calls → OrdersLive done) ↔
      ∀ done call, done ++ [call] <+: calls → SparesOthers done call := by
  refine Runs.forall_states_iff ?_ ordersLive_step calls
  rintro id (⟨key, seq, hseq⟩ | ⟨order, hmem, -⟩)
  · cases hseq
  · cases hmem

/-! ## What is live -/

/-- The sequence number as a stamp. -/
abbrev Event.stamp (event : Event) : Nat := event.sequenceNumber.toNat

theorem eventsOf_append (key : OrderReplacementKey) (xs ys : List Call) :
    eventsOf key (xs ++ ys) = eventsOf key xs ++ eventsOf key ys :=
  filterMap_append

theorem eventsOf_cons (key : OrderReplacementKey) (call : Call) (calls : List Call) :
    eventsOf key (call :: calls) = (call.eventOf key).toList ++ eventsOf key calls := by
  unfold eventsOf
  cases h : call.eventOf key with
  | none => rw [filterMap_cons_none h]; rfl
  | some event => rw [filterMap_cons_some h]; rfl

theorem latest_append_no_event (h : call.keyAndEvent = none) (key : OrderReplacementKey) :
    latest stamp (eventsOf key (calls ++ [call])) = latest stamp (eventsOf key calls) := by
  rw [eventsOf_append, eventsOf_cons, eventOf, h]
  exact congrArg (latest stamp) (append_nil _)

/-- The events of other keys stay. -/
theorem latest_append_event (h : call.keyAndEvent = some (key, event)) (key' : OrderReplacementKey) :
    latest stamp (eventsOf key' (calls ++ [call])) =
      if key = key' then pick stamp (latest stamp (eventsOf key' calls)) event
      else latest stamp (eventsOf key' calls) := by
  rw [eventsOf_append, eventsOf_cons, eventOf, h, bind_some]
  dsimp only
  split_ifs
  · exact latest_append_singleton ..
  · exact congrArg (latest stamp) (append_nil _)

theorem Event.pick_counts {r : Option Event} (h : event.Counts (r.map state)) :
    pick stamp r event = some event := by
  cases r with
  | none => rfl
  | some e =>
    have hlt := h e.state rfl
    rw [sequenceNumber_state] at hlt
    exact if_neg (UInt64.not_le.mpr hlt)

theorem Event.pick_not_counts {r : Option Event} (h : ¬ event.Counts (r.map state)) :
    pick stamp r event = r := by
  unfold Counts at h
  push Not at h
  obtain ⟨s, hs, hnot⟩ := h
  obtain ⟨e, rfl, rfl⟩ := map_eq_some_iff.mp hs
  rw [sequenceNumber_state] at hnot
  exact if_pos (UInt64.not_lt.mp hnot)

/-- The state of a key is that of its latest event. -/
theorem lookup_managerAfter (calls : List Call) (key : OrderReplacementKey) :
    (managerAfter calls).replacementStates.lookup key =
      (latest stamp (eventsOf key calls)).map state := by
  induction calls using reverseRecOn with
  | nil => rfl
  | append_singleton calls call ih =>
    rw [managerAfter_append]
    cases hcall : call.keyAndEvent with
    | none =>
      obtain ⟨order, -, hrun⟩ := run_of_no_event orderStore (managerAfter calls) hcall
      rw [hrun, latest_append_no_event hcall]
      exact ih
    | some entry =>
      obtain ⟨k, event⟩ := entry
      rw [run_of_event orderStore _ hcall, latest_append_event hcall]
      by_cases hkey : key = k
      · subst hkey
        rw [lookup_insert, ih, if_pos rfl]
        by_cases hcounts : event.Counts ((latest stamp (eventsOf key calls)).map state)
        · rw [act_counts hcounts, pick_counts hcounts]
          rfl
        · obtain ⟨s, hs, hact⟩ := act_not_counts hcounts
          rw [hact, pick_not_counts hcounts, hs]
      · rw [lookup_insert_ne hkey, if_neg (Ne.symm hkey)]
        exact ih

theorem order_of_keyAndEvent (h : (insertOrder order).keyAndEvent = some (key, event)) :
    event.order = some order := by
  obtain ⟨_, -, heq⟩ := map_eq_some_iff.mp h
  cases heq
  rfl

theorem insertOrder_of_event
    (h : call.keyAndEvent = some (key, event)) (horder : event.order = some order) :
    call = .insertOrder order := by
  cases call with
  | insertOrder order' =>
    cases horder.symm.trans (order_of_keyAndEvent h)
    rfl
  | removeBundle data | removeSbundle shareKey =>
    cases h
    cases horder

/-- The order of the latest event was inserted. -/
theorem inserted_of_latest (h : latest stamp (eventsOf key calls) = some event)
    (horder : event.order = some order) :
    insertOrder order ∈ calls ∧ (insertOrder order).keyAndEvent = some (key, event) := by
  have hmem : IsLatest stamp _ _ := isLatest_latest (eventsOf key calls)
  rw [h] at hmem
  obtain ⟨call, hcall, hevent⟩ := mem_filterMap.mp hmem.1
  rw [eventOf_eq_some] at hevent
  cases insertOrder_of_event hevent horder
  exact ⟨hcall, hevent⟩

theorem heldBy_managerAfter {id : OrderId} : HeldBy (managerAfter calls) key id ↔
    ∃ event order, latest stamp (eventsOf key calls) = some event ∧ event.order = some order ∧
      order.id = id := by
  unfold HeldBy
  rw [lookup_managerAfter]
  constructor
  · rintro ⟨seq, hseq⟩
    obtain ⟨event, hlatest, hstate⟩ := map_eq_some_iff.mp hseq
    unfold state at hstate
    split at hstate
    · next order horder =>
      cases hstate
      exact ⟨event, order, hlatest, horder, rfl⟩
    · cases hstate
  · rintro ⟨event, order, hlatest, horder, rfl⟩
    exact ⟨event.sequenceNumber, by rw [hlatest, map_some, state, horder]⟩

/-- Orders of one id are the same order, or of one key. -/
def UniqueIds (calls : List Call) : Prop :=
  ∀ order order', Call.insertOrder order ∈ calls → Call.insertOrder order' ∈ calls →
    order.id = order'.id → order = order' ∨ ∃ key event event',
      (insertOrder order).keyAndEvent = some (key, event) ∧
        (insertOrder order').keyAndEvent = some (key, event')

/-- The order is the latest of its key, or it came without a key. -/
def Live (calls : List Call) (order : Order) : Prop :=
  match (insertOrder order).keyAndEvent with
  | none => insertOrder order ∈ calls
  | some (key, event) => latest stamp (eventsOf key calls) = some event

section Step

variable {m : OrderReplacementManager OrderStore} {call : Call} {key : OrderReplacementKey}
  {event : Event}

theorem sink_run_not_counts (h : call.keyAndEvent = some (key, event))
    (hnot : ¬ event.Counts (m.replacementStates.lookup key)) :
    (call.run orderStore m).2.sink = m.sink := by
  obtain ⟨s, -, hact⟩ := act_not_counts hnot
  rw [run_of_event orderStore m h, hact]
  rfl

theorem lookup_sink_run_inserted (h : call.keyAndEvent = some (key, event))
    (hcounts : event.Counts (m.replacementStates.lookup key)) {order : Order}
    (horder : event.order = some order) :
    (call.run orderStore m).2.sink.lookup order.id = some order := by
  rw [run_of_event orderStore m h, act_counts hcounts]
  rw [deliver_append, insertion, horder]
  exact lookup_insert _

theorem lookup_sink_run_withdrawn {id : OrderId} (hw : Withdraws m call key id) :
    (call.run orderStore m).2.sink.lookup id = none := by
  obtain ⟨event, hcall, hcounts, hheld, hput⟩ := hw
  rw [lookup_eq_none, mem_sink_run hcall]
  rintro (⟨-, hput'⟩ | ⟨-, hnot⟩)
  · exact hput hput'
  · exact hnot ⟨hcounts, hheld⟩

theorem lookup_sink_run_kept (h : call.keyAndEvent = some (key, event))
    (hcounts : event.Counts (m.replacementStates.lookup key)) {id : OrderId}
    (hput : event.order.map Order.id ≠ some id) (hheld : ¬ HeldBy m key id) :
    (call.run orderStore m).2.sink.lookup id = m.sink.lookup id := by
  rw [run_of_event orderStore m h, act_counts hcounts]
  rw [deliver_append]
  have hinserted (orders : OrderStore) :
      (deliver orderStore orders event.insertion).lookup id = orders.lookup id := by
    unfold insertion
    cases horder : event.order with
    | none => rfl
    | some order =>
      refine lookup_insert_ne ?_
      rintro rfl
      exact hput (by rw [horder]; rfl)
  rw [hinserted]
  cases hstate : m.replacementStates.lookup key with
  | none => rfl
  | some s =>
    cases s with
    | cancelled seq => rfl
    | valid seq orderId =>
      refine lookup_erase_ne ?_
      rintro rfl
      exact hheld ⟨seq, hstate⟩

end Step

theorem UniqueIds.of_append (h : UniqueIds (calls ++ [call])) : UniqueIds calls :=
  fun order order' hmem hmem' => h order order' (mem_append_left _ hmem) (mem_append_left _ hmem')

theorem live_iff_inserted (h : (insertOrder order).keyAndEvent = none) :
    Live calls order ↔ insertOrder order ∈ calls := by
  rw [Live, h]

theorem live_iff_latest (h : (insertOrder order).keyAndEvent = some (key, event)) :
    Live calls order ↔ latest stamp (eventsOf key calls) = some event := by
  rw [Live, h]

theorem Live.inserted (h : Live calls order) : insertOrder order ∈ calls := by
  cases hevent : (insertOrder order).keyAndEvent with
  | none => exact (live_iff_inserted hevent).mp h
  | some entry =>
    exact (inserted_of_latest ((live_iff_latest hevent).mp h) (order_of_keyAndEvent hevent)).1

/-- Of the orders with the id of an order with a key, that of the latest event is live. -/
theorem Live.latest_of_id (hlive : Live calls order) (hunique : UniqueIds calls)
    (hnew : insertOrder new ∈ calls) (hkey : (insertOrder new).keyAndEvent = some (key, event))
    (hid : order.id = new.id) :
    ∃ e, latest stamp (eventsOf key calls) = some e ∧ e.order = some order := by
  rcases hunique order new hlive.inserted hnew hid with rfl | ⟨key', e, e', h, h'⟩
  · exact ⟨event, (live_iff_latest hkey).mp hlive, order_of_keyAndEvent hkey⟩
  · cases hkey.symm.trans h'
    exact ⟨e, (live_iff_latest h).mp hlive, order_of_keyAndEvent h⟩

/-- A call that does not insert the order leaves it live, or not, if the latest event of its key
    stays or is another one before and after. -/
theorem live_append (hne : (insertOrder order).keyAndEvent = none → call ≠ insertOrder order)
    (hlatest : ∀ key event, (insertOrder order).keyAndEvent = some (key, event) →
      (latest stamp (eventsOf key (calls ++ [call])) = some event ↔
        latest stamp (eventsOf key calls) = some event)) :
    Live (calls ++ [call]) order ↔ Live calls order := by
  cases hevent : (insertOrder order).keyAndEvent with
  | none =>
    rw [live_iff_inserted hevent, live_iff_inserted hevent, mem_append, mem_singleton]
    exact or_iff_left fun heq => hne hevent heq.symm
  | some entry =>
    rw [live_iff_latest hevent, live_iff_latest hevent]
    exact hlatest _ _ hevent

/-- What the store holds are the live orders. -/
theorem lookup_store_iff (hunique : UniqueIds calls) (order : Order) (id : OrderId) :
    (managerAfter calls).sink.lookup id = some order ↔ order.id = id ∧ Live calls order := by
  induction calls using reverseRecOn generalizing order id with
  | nil =>
    refine iff_of_false (by simp [managerAfter, OrderReplacementManager.new]) ?_
    rintro ⟨-, hlive⟩
    cases hlive.inserted
  | append_singleton calls call ih =>
    have ih := ih hunique.of_append
    have hlast : call ∈ calls ++ [call] := mem_append_right _ (mem_singleton.mpr rfl)
    cases hcall : call.keyAndEvent with
    | none =>
      obtain ⟨new, rfl, hrun⟩ := run_of_no_event orderStore (managerAfter calls) hcall
      have hsink : (managerAfter (calls ++ [.insertOrder new])).sink =
          (managerAfter calls).sink.insert new.id new := by
        rw [managerAfter_append, hrun]
        rfl
      rw [hsink]
      by_cases hid : id = new.id
      · subst hid
        rw [lookup_insert, some_inj]
        constructor
        · rintro rfl
          exact ⟨rfl, (live_iff_inserted hcall).mpr hlast⟩
        · rintro ⟨hid, hlive⟩
          rcases hunique new order hlast hlive.inserted hid.symm with heq | ⟨key, event, _, h, -⟩
          · exact heq
          · cases hcall.symm.trans h
      rw [lookup_insert_ne hid, ih]
      refine and_congr_right fun heq => (live_append ?_ fun key event _ => ?_).symm
      · rintro - hnew
        cases hnew
        exact hid heq.symm
      · rw [latest_append_no_event hcall]
    | some entry =>
      obtain ⟨key, event⟩ := entry
      have hkeyed : (insertOrder order).keyAndEvent = none → call ≠ insertOrder order := by
        rintro hnone rfl
        cases hcall.symm.trans hnone
      rw [managerAfter_append]
      by_cases hcounts : event.Counts ((managerAfter calls).replacementStates.lookup key)
      · have hnow : latest stamp (eventsOf key (calls ++ [call])) = some event := by
          rw [latest_append_event hcall, if_pos rfl,
            pick_counts (lookup_managerAfter calls key ▸ hcounts)]
        by_cases hput : event.order.map Order.id = some id
        · obtain ⟨new, hnew, rfl⟩ := map_eq_some_iff.mp hput
          cases insertOrder_of_event hcall hnew
          rw [lookup_sink_run_inserted hcall hcounts hnew, some_inj]
          constructor
          · rintro rfl
            exact ⟨rfl, (live_iff_latest hcall).mpr hnow⟩
          · rintro ⟨hid, hlive⟩
            obtain ⟨e, he, horder⟩ := hlive.latest_of_id hunique hlast hcall hid
            cases hnow.symm.trans he
            exact Option.some.inj (hnew.symm.trans horder)
        by_cases hheld : HeldBy (managerAfter calls) key id
        · rw [lookup_sink_run_withdrawn ⟨event, hcall, hcounts, hheld, hput⟩]
          refine iff_of_false (by simp) ?_
          rintro ⟨rfl, hlive⟩
          obtain ⟨event', new, hlatest', hnew, hid⟩ := heldBy_managerAfter.mp hheld
          obtain ⟨hmem, hkey⟩ := inserted_of_latest hlatest' hnew
          obtain ⟨e, he, horder⟩ :=
            hlive.latest_of_id hunique (mem_append_left _ hmem) hkey hid.symm
          cases hnow.symm.trans he
          exact hput (by rw [horder, map_some])
        · rw [lookup_sink_run_kept hcall hcounts hput hheld, ih]
          refine and_congr_right fun hid => (live_append hkeyed fun key' event' h => ?_).symm
          subst hid
          by_cases hkey : key = key'
          · subst hkey
            rw [hnow]
            refine iff_of_false ?_ ?_
            · rintro heq
              cases heq
              exact hput (by rw [order_of_keyAndEvent h, map_some])
            · exact fun hlatest' =>
                hheld (heldBy_managerAfter.mpr ⟨_, _, hlatest', order_of_keyAndEvent h, rfl⟩)
          · rw [latest_append_event hcall, if_neg hkey]
      · rw [sink_run_not_counts hcall hcounts, ih]
        refine and_congr_right fun hid => (live_append hkeyed fun key' event' h => ?_).symm
        rw [latest_append_event hcall]
        split_ifs with hkey
        · subst hkey
          rw [pick_not_counts (lookup_managerAfter calls key ▸ hcounts)]
        · rfl

/-! ### Example -/

/-- The key of a sender. -/
def keyOf (signer : UInt8) : BundleReplacementKey :=
  ⟨⟨Vector.replicate 16 7, some (Vector.replicate 20 signer)⟩⟩

/-- The same bundle from each sender, with hash functions that are constant. -/
def bundleFrom (signer : UInt8) : Order :=
  hashSlow ⟨fun _ => .zero, fun _ => .zero⟩ .v2 (some ⟨keyOf signer, 0⟩)
    { block := some 5, minTimestamp := none, maxTimestamp := none, txs := [],
      revertingTxHashes := [], droppingTxHashes := [], refund := none }

/-- Two senders send the same bundle, and one of them cancels: the other one still counts on
    its bundle, which is not live any more. -/
theorem cancellation_removes_order_of_other :
    keyOf 1 ≠ keyOf 2 ∧
      HeldBy (managerAfter [.insertOrder (bundleFrom 1), .insertOrder (bundleFrom 2),
        .removeBundle ⟨keyOf 2, 1⟩]) (.bundle (keyOf 1)) (bundleFrom 1).id ∧
      (bundleFrom 1).id ∉ (managerAfter [.insertOrder (bundleFrom 1),
        .insertOrder (bundleFrom 2), .removeBundle ⟨keyOf 2, 1⟩]).sink := by
  refine ⟨by decide, ⟨0, rfl⟩, ?_⟩
  decide

end OrderInput
