/-
  The pool of all orders and its subscribers.

  `OrderPool` stores what arrives and forwards it to the subscribers of a block. A
  subscriber that comes later gets the stored state first: transactions, cancellations of
  bundles, the orders of the block, cancellations of share bundles, and bundles without a
  block. An order that is known by its id and block is forwarded but not stored again. Time
  is left out: nothing expires here.

  `late_subscriber_agrees`: with a replacement manager for each subscriber, one from the
  start and one that comes later have the same live orders, if an id always comes with the
  same order or an older copy of it, and no event has the sequence number of the state of its
  key where the replay has the two the other way round.
-/
import Rbuilder.OrderInput.LiveOrders
import Rbuilder.LruCache

namespace OrderInput

open Building (OrderId)
open List LatestWins Event

/-! ## The pool -/

structure CancelShareBundle where
  block : UInt64
  key : ShareBundleReplacementKey

inductive ReplaceableOrderPoolCommand where
  | order (order : Order)
  | cancelShareBundle (cancel : CancelShareBundle)
  | cancelBundle (replacementData : BundleReplacementData)

def Order.targetBlock : Order → Option UInt64
  | .bundle _ _ b => b.block
  | .tx _ => none
  | .shareBundle _ _ b => some b.block

def ReplaceableOrderPoolCommand.targetBlock : ReplaceableOrderPoolCommand → Option UInt64
  | .order o => o.targetBlock
  | .cancelShareBundle cancel => some cancel.block
  | .cancelBundle _ => none

/-- The receiver of orders and cancellations, with its answers. -/
structure ReplaceableOrderSink (σ : Type) where
  insertOrder : Order → σ → Bool × σ
  removeBundle : BundleReplacementData → σ → Bool × σ
  removeSbundle : ShareBundleReplacementKey → σ → Bool × σ
  isAlive : σ → Bool

structure BundleBlockStore where
  bundles : List Order := []
  cancelledSbundles : List ShareBundleReplacementKey := []

structure SinkSubscription (σ : Type) where
  sink : σ
  blockNumber : UInt64

structure OrderPool (σ : Type) where
  mempoolTxs : List Order := []
  bundleCancellations : List BundleReplacementData := []
  bundlesByTargetBlock : AList fun _ : UInt64 => BundleBlockStore := ∅
  bundlesForCurrentBlock : List Order := []
  knownOrders : LruCache (OrderId × UInt64) := .new 10000
  sinks : List (Nat × SinkSubscription σ) := []
  nextSinkId : Nat := 0

namespace OrderPool

variable {σ : Type}

section

variable (pool : OrderPool σ)

/-- The store of a block, `entry(block).or_default()`. -/
def blockStore (block : UInt64) : BundleBlockStore :=
  (pool.bundlesByTargetBlock.lookup block).getD {}

def pushBundle (block : UInt64) (order : Order) : OrderPool σ :=
  let store := pool.blockStore block
  { pool with
    bundlesByTargetBlock :=
      pool.bundlesByTargetBlock.insert block { store with bundles := store.bundles ++ [order] } }

/-- The place of an order, by its kind. -/
def storeOrder (order : Order) : OrderPool σ :=
  match order with
  | .tx _ => { pool with mempoolTxs := pool.mempoolTxs ++ [order] }
  | .bundle _ _ bundle =>
    match bundle.block with
    | some block => pool.pushBundle block order
    | none => { pool with bundlesForCurrentBlock := pool.bundlesForCurrentBlock ++ [order] }
  | .shareBundle _ _ bundle => pool.pushBundle bundle.block order

def processOrder (order : Order) : OrderPool σ :=
  let key := (order.id, order.targetBlock.getD 0)
  if pool.knownOrders.contains key then pool
  else
    let pool := pool.storeOrder order
    { pool with knownOrders := pool.knownOrders.put key }

def processRemoveSbundle (cancellation : CancelShareBundle) : OrderPool σ :=
  let store := pool.blockStore cancellation.block
  { pool with
    bundlesByTargetBlock :=
      pool.bundlesByTargetBlock.insert cancellation.block
        { store with cancelledSbundles := store.cancelledSbundles ++ [cancellation.key] } }

def processRemoveBundle (key : BundleReplacementData) : OrderPool σ :=
  { pool with bundleCancellations := pool.bundleCancellations ++ [key] }

end

variable (sink : ReplaceableOrderSink σ)

/-- The call of a command. -/
def send (command : ReplaceableOrderPoolCommand) (s : σ) : Bool × σ :=
  match command with
  | .order order => sink.insertOrder order s
  | .cancelShareBundle cancel => sink.removeSbundle cancel.key s
  | .cancelBundle replacementData => sink.removeBundle replacementData s

/-- What `retain` does with a subscription; `none` where it is dropped. -/
def forward (command : ReplaceableOrderPoolCommand) (sub : SinkSubscription σ) :
    Option (SinkSubscription σ) :=
  if !sink.isAlive sub.sink then none
  else if command.targetBlock.isNone || command.targetBlock == some sub.blockNumber then
    let (sendOk, s) := send sink command sub.sink
    if sendOk then some { sub with sink := s } else none
  else some sub

def processCommand (pool : OrderPool σ) (command : ReplaceableOrderPoolCommand) : OrderPool σ :=
  let pool :=
    match command with
    | .order order => pool.processOrder order
    | .cancelShareBundle cancel => pool.processRemoveSbundle cancel
    | .cancelBundle key => pool.processRemoveBundle key
  { pool with
    sinks := pool.sinks.filterMap fun (id, sub) => (forward sink command sub).map (Prod.mk id) }

def processCommands (pool : OrderPool σ) (commands : List ReplaceableOrderPoolCommand) : OrderPool σ :=
  commands.foldl (processCommand sink) pool

def addSink (pool : OrderPool σ) (blockNumber : UInt64) (s : σ) : Nat × OrderPool σ :=
  let insert := fun s order => (sink.insertOrder order s).2
  let s := pool.mempoolTxs.foldl insert s
  let s := pool.bundleCancellations.foldl (fun s data => (sink.removeBundle data s).2) s
  let s :=
    match pool.bundlesByTargetBlock.lookup blockNumber with
    | some store =>
      store.cancelledSbundles.foldl (fun s key => (sink.removeSbundle key s).2)
        (store.bundles.foldl insert s)
    | none => s
  let s := pool.bundlesForCurrentBlock.foldl insert s
  (pool.nextSinkId,
    { pool with
      nextSinkId := pool.nextSinkId + 1, sinks := pool.sinks ++ [(pool.nextSinkId, ⟨s, blockNumber⟩)] })

end OrderPool

/-- The manager as a subscriber, in front of an `OrderStore`. -/
def managerSink : ReplaceableOrderSink (OrderReplacementManager OrderStore) where
  insertOrder order m := m.insertOrder orderStore order
  removeBundle data m := m.removeBundle orderStore data
  removeSbundle key m := m.removeSbundle orderStore key
  isAlive _ := true

/-! ## What a subscriber gets -/

def ReplaceableOrderPoolCommand.call : ReplaceableOrderPoolCommand → Call
  | .order o => .insertOrder o
  | .cancelShareBundle cancel => .removeSbundle cancel.key
  | .cancelBundle data => .removeBundle data

/-- The command is for all blocks or for this one. -/
def ReplaceableOrderPoolCommand.isFor (block : UInt64) (command : ReplaceableOrderPoolCommand) : Bool :=
  command.targetBlock.isNone || command.targetBlock == some block

/-- The calls that a subscriber of the block gets from the commands. -/
def seenBy (block : UInt64) (commands : List ReplaceableOrderPoolCommand) : List Call :=
  (commands.filter (·.isFor block)).map (·.call)

/-- The calls of `add_sink`. -/
def OrderPool.replay {σ : Type} (pool : OrderPool σ) (block : UInt64) : List Call :=
  pool.mempoolTxs.map .insertOrder ++ pool.bundleCancellations.map .removeBundle ++
    (pool.blockStore block).bundles.map .insertOrder ++
    (pool.blockStore block).cancelledSbundles.map .removeSbundle ++
    pool.bundlesForCurrentBlock.map .insertOrder

open OrderPool (replay blockStore)
open ReplaceableOrderPoolCommand (call)

theorem seenBy_append (block : UInt64) (xs ys : List ReplaceableOrderPoolCommand) :
    seenBy block (xs ++ ys) = seenBy block xs ++ seenBy block ys := by
  unfold seenBy
  rw [filter_append, map_append]

theorem isFor_of_target {command : ReplaceableOrderPoolCommand} {block target : UInt64}
    (h : command.targetBlock = some target) : command.isFor block ↔ block = target := by
  simpa [ReplaceableOrderPoolCommand.isFor, h] using eq_comm

theorem run_orderStore_ok (call : Call) (m : OrderReplacementManager OrderStore) :
    (call.run orderStore m).1 = true := by
  have hremove (state : BundleReplacementState) (s : OrderStore) :
      (state.sendRemoveOrderIfNeeded orderStore s).1 = true := by
    cases state with
    | valid seq id | cancelled seq => rfl
  have hcancel (key : OrderReplacementKey) (seq : UInt64) :
      (m.cancelKey orderStore key seq).1 = true := by
    unfold OrderReplacementManager.cancelKey BundleReplacementState.cancelOrder
    split
    · split_ifs
      · rfl
      · exact hremove ..
    · rfl
  cases call with
  | insertOrder order =>
    change (m.insertOrder orderStore order).1 = true
    unfold OrderReplacementManager.insertOrder BundleReplacementState.insertOrder
    split
    · split
      · split_ifs
        · rfl
        · exact hremove ..
      · rfl
    · rfl
  | removeBundle data | removeSbundle key => exact hcancel ..

variable (command : ReplaceableOrderPoolCommand)

theorem send_managerSink (m : OrderReplacementManager OrderStore) :
    OrderPool.send managerSink command m = command.call.run orderStore m := by
  cases command with
  | order order | cancelShareBundle cancel | cancelBundle data => rfl

/-- A subscriber never fails, and gets the commands for its block. -/
theorem forward_managerSink (calls : List Call) (block : UInt64) :
    OrderPool.forward managerSink command ⟨managerAfter calls, block⟩ =
      some ⟨managerAfter (calls ++ seenBy block [command]), block⟩ := by
  unfold OrderPool.forward
  rw [if_neg (by simp [managerSink])]
  by_cases hfor : command.isFor block
  · have hseen : seenBy block [command] = [command.call] := by simp [seenBy, hfor]
    unfold ReplaceableOrderPoolCommand.isFor at hfor
    rw [if_pos hfor, hseen, managerAfter_append, send_managerSink]
    dsimp only
    rw [if_pos (run_orderStore_ok ..)]
  · have hseen : seenBy block [command] = [] := by simp [seenBy, hfor]
    unfold ReplaceableOrderPoolCommand.isFor at hfor
    rw [if_neg hfor, hseen, append_nil]

/-! ## The replay -/

/-- What the replay has in common with the calls so far. -/
structure Replays {σ : Type} (block : UInt64) (pool : OrderPool σ)
    (done : List ReplaceableOrderPoolCommand) : Prop where
  latest : ∀ key, LatestWins.latest Event.stamp (eventsOf key (pool.replay block)) =
    LatestWins.latest Event.stamp (eventsOf key (seenBy block done))
  orders : ∀ order, (Call.insertOrder order ∈ pool.replay block →
      Call.insertOrder order ∈ seenBy block done) ∧
    ((Call.insertOrder order).keyAndEvent = none → Call.insertOrder order ∈ seenBy block done →
      Call.insertOrder order ∈ pool.replay block)

/-- The ids in the cache and the bundles without a block come from commands, and the store of
    its block has the order of an id in the cache. -/
structure Recorded {σ : Type} (pool : OrderPool σ) (done : List ReplaceableOrderPoolCommand) :
    Prop where
  known : ∀ key ∈ pool.knownOrders.keys, ∃ order,
    ReplaceableOrderPoolCommand.order order ∈ done ∧ key = (order.id, order.targetBlock.getD 0) ∧
      ∀ block, order.targetBlock = some block → order ∈ (pool.blockStore block).bundles
  current : ∀ order ∈ pool.bundlesForCurrentBlock,
    (∃ uuid data bundle, order = .bundle uuid data bundle) ∧ order.targetBlock = none ∧
      ReplaceableOrderPoolCommand.order order ∈ done

/-- A call may come ahead of others unless one of these was the latest, with its sequence
    number. -/
theorem latest_eventsOf_insert {key : OrderReplacementKey} {xs ys calls : List Call} {call : Call}
    (hsame : latest stamp (eventsOf key (xs ++ ys)) = latest stamp (eventsOf key calls))
    (htie : ∀ event y, call.eventOf key = some event → y ∈ eventsOf key ys →
      latest stamp (eventsOf key calls) = some y → y.stamp ≠ event.stamp) :
    latest stamp (eventsOf key (xs ++ call :: ys)) =
      latest stamp (eventsOf key (calls ++ [call])) := by
  rw [eventsOf_append, eventsOf_append, eventsOf_cons, eventsOf_cons]
  rw [eventsOf_append] at hsame
  cases hevent : call.eventOf key with
  | none => simpa [eventsOf] using hsame
  | some event =>
    have hlast : latest stamp (eventsOf key calls ++ [event]) =
        pick stamp (latest stamp (eventsOf key calls)) event :=
      latest_append_singleton ..
    change latest stamp (eventsOf key xs ++ event :: eventsOf key ys) =
      latest stamp (eventsOf key calls ++ [event])
    rw [hlast, ← hsame]
    refine latest_insert _ _ _ fun y hy hstamp => ?_
    have hmem : IsLatest stamp _ _ := isLatest_latest (eventsOf key ys)
    rw [hy] at hmem
    by_contra hnone
    push Not at hnone
    refine htie event y hevent hmem.1 ?_ hstamp
    -- all before are earlier, so this one is the latest of all
    rw [← hsame, latest_append, hy, join]
    cases hx : latest stamp (eventsOf key xs) with
    | none => rfl
    | some x =>
      have hlt := hnone x hx
      rw [pick, if_neg (by rw [hstamp]; exact not_le.mpr hlt)]

section Step

variable {σ : Type} {block : UInt64} {pool pool' : OrderPool σ}
  {done : List ReplaceableOrderPoolCommand} {command : ReplaceableOrderPoolCommand}

theorem seenBy_append_of_isFor (h : command.isFor block) :
    seenBy block (done ++ [command]) = seenBy block done ++ [command.call] := by
  simp [seenBy, h]

/-- The call of the command takes its place in the replay. -/
theorem Replays.insert (h : Replays block pool done) (hfor : command.isFor block) (xs ys : List Call)
    (hbefore : pool.replay block = xs ++ ys) (hafter : pool'.replay block = xs ++ command.call :: ys)
    (htie : ∀ key event y, command.call.eventOf key = some event → y ∈ eventsOf key ys →
      LatestWins.latest stamp (eventsOf key (seenBy block done)) = some y → y.stamp ≠ event.stamp) :
    Replays block pool' (done ++ [command]) := by
  refine ⟨?_, ?_⟩
  · intro key
    rw [hafter, seenBy_append_of_isFor hfor]
    refine latest_eventsOf_insert ?_ (htie key)
    rw [← hbefore]
    exact h.latest key
  intro order
  have horders := h.orders order
  rw [hbefore] at horders
  rw [hafter, seenBy_append_of_isFor hfor]
  simp only [mem_append, mem_cons, not_mem_nil, or_false] at horders ⊢
  tauto

/-- A command that is not for the block leaves the replay. -/
theorem Replays.skip (h : Replays block pool done) (hfor : ¬ command.isFor block)
    (hreplay : pool'.replay block = pool.replay block) : Replays block pool' (done ++ [command]) := by
  have hseen : seenBy block (done ++ [command]) = seenBy block done := by
    simp [seenBy, hfor]
  refine ⟨?_, ?_⟩
  · intro key
    rw [hreplay, hseen]
    exact h.latest key
  · intro order
    rw [hreplay, hseen]
    exact h.orders order

/-- A call that is ignored, or was made before, changes nothing. -/
theorem Replays.again (h : Replays block pool done) (hfor : command.isFor block)
    (hmem : command.call ∈ seenBy block done ∨
      ∃ key event, command.call.keyAndEvent = some (key, event) ∧
      ¬ event.Counts ((managerAfter (seenBy block done)).replacementStates.lookup key)) :
    Replays block pool (done ++ [command]) := by
  refine ⟨?_, ?_⟩
  · intro key
    rw [h.latest, seenBy_append_of_isFor hfor]
    rcases hmem with hmem | ⟨key', event, hevent, hnot⟩
    · rw [eventsOf_append, eventsOf_cons]
      cases hevent : command.call.eventOf key with
      | none => simp [eventsOf]
      | some event => exact (latest_repeated (mem_filterMap.mpr ⟨_, hmem, hevent⟩)).symm
    · rw [latest_append_event hevent]
      split_ifs with hkey
      · subst hkey
        rw [pick_not_counts (lookup_managerAfter _ key' ▸ hnot)]
      · rfl
  intro order
  rw [seenBy_append_of_isFor hfor, mem_append, mem_singleton]
  refine ⟨fun hreplay => .inl ((h.orders order).1 hreplay),
    fun hnone hseen => (h.orders order).2 hnone ?_⟩
  refine hseen.elim (fun hseen => hseen) fun heq => ?_
  rcases hmem with hmem | ⟨key, event, hevent, -⟩
  · rwa [heq]
  · cases hevent.symm.trans (heq ▸ hnone)

/-- A command that takes no bundle out of a store. -/
theorem Recorded.append (h : Recorded pool done) (hknown : pool'.knownOrders = pool.knownOrders)
    (hcurrent : pool'.bundlesForCurrentBlock = pool.bundlesForCurrentBlock)
    (hstores : ∀ block, (pool.blockStore block).bundles ⊆ (pool'.blockStore block).bundles) :
    Recorded pool' (done ++ [command]) := by
  refine ⟨?_, ?_⟩
  · intro key hkey
    obtain ⟨order, hmem, heq, hstored⟩ := h.known key (hknown ▸ hkey)
    exact ⟨order, mem_append_left _ hmem, heq, fun block hblock => hstores _ (hstored block hblock)⟩
  · intro order hmem
    obtain ⟨hbundle, htarget, hdone⟩ := h.current order (hcurrent ▸ hmem)
    exact ⟨hbundle, htarget, mem_append_left _ hdone⟩

theorem storeOrder_frame (pool : OrderPool σ) (order : Order) :
    (pool.storeOrder order).knownOrders = pool.knownOrders ∧
      (pool.storeOrder order).sinks = pool.sinks ∧
      (pool.storeOrder order).nextSinkId = pool.nextSinkId := by
  unfold OrderPool.storeOrder
  split
  · exact ⟨rfl, rfl, rfl⟩
  · split
    · exact ⟨rfl, rfl, rfl⟩
    · exact ⟨rfl, rfl, rfl⟩
  · exact ⟨rfl, rfl, rfl⟩

/-- Orders are stored without a look at the subscribers. -/
theorem processOrder_frame (pool : OrderPool σ) (order : Order) :
    (pool.processOrder order).sinks = pool.sinks ∧
      (pool.processOrder order).nextSinkId = pool.nextSinkId := by
  unfold OrderPool.processOrder
  dsimp only
  split_ifs
  · exact ⟨rfl, rfl⟩
  · exact (storeOrder_frame pool order).2

theorem blockStore_pushBundle (block : UInt64) (pool : OrderPool σ) (target : UInt64) (order : Order) :
    (pool.pushBundle target order).blockStore block =
      if block = target then
        { pool.blockStore block with bundles := (pool.blockStore block).bundles ++ [order] }
      else pool.blockStore block := by
  refine (AList.getD_lookup_insert ..).trans ?_
  split_ifs with h
  · rw [h]
  · rfl

theorem blockStore_processRemoveSbundle (block : UInt64) (pool : OrderPool σ)
    (cancel : CancelShareBundle) :
    (pool.processRemoveSbundle cancel).blockStore block =
      if block = cancel.block then
        { pool.blockStore block with
          cancelledSbundles := (pool.blockStore block).cancelledSbundles ++ [cancel.key] }
      else pool.blockStore block := by
  refine (AList.getD_lookup_insert ..).trans ?_
  split_ifs with h
  · rw [h]
  · rfl

/-- An order goes to the store of its block. -/
theorem mem_bundles_storeOrder {block : UInt64} {pool : OrderPool σ} {order o : Order} :
    o ∈ ((pool.storeOrder order).blockStore block).bundles ↔
      o ∈ (pool.blockStore block).bundles ∨ o = order ∧ order.targetBlock = some block := by
  have hpush (target : UInt64) (htarget : order.targetBlock = some target) :
      o ∈ ((pool.pushBundle target order).blockStore block).bundles ↔
        o ∈ (pool.blockStore block).bundles ∨ o = order ∧ order.targetBlock = some block := by
    rw [blockStore_pushBundle, htarget]
    split_ifs with h
    · simp [h]
    · simp [Ne.symm h]
  have hother (htarget : order.targetBlock = none) : o ∈ (pool.blockStore block).bundles ↔
      o ∈ (pool.blockStore block).bundles ∨ o = order ∧ order.targetBlock = some block := by
    simp [htarget]
  unfold OrderPool.storeOrder
  cases order with
  | tx t => exact hother rfl
  | bundle uuid data bundle =>
    dsimp only
    cases htarget : bundle.block with
    | some target => exact hpush target htarget
    | none => exact hother htarget
  | shareBundle hash data bundle => exact hpush bundle.block rfl

theorem Recorded.processOrder (h : Recorded pool done) (order : Order) :
    Recorded (pool.processOrder order) (done ++ [.order order]) := by
  have hlast : ReplaceableOrderPoolCommand.order order ∈ done ++ [.order order] :=
    mem_append_right _ (mem_singleton.mpr rfl)
  have happend : Recorded pool (done ++ [.order order]) := h.append rfl rfl fun _ => Subset.refl _
  unfold OrderPool.processOrder
  dsimp only
  split_ifs
  · exact happend
  refine ⟨?_, ?_⟩
  · intro key hkey
    rw [(storeOrder_frame pool order).1] at hkey
    rcases LruCache.mem_of_mem_put hkey with heq | hold
    · exact ⟨order, hlast, heq, fun block hblock => mem_bundles_storeOrder.mpr (.inr ⟨rfl, hblock⟩)⟩
    · obtain ⟨o, hmem, heq, hstored⟩ := happend.known key hold
      exact ⟨o, hmem, heq, fun block hblock => mem_bundles_storeOrder.mpr (.inl (hstored block hblock))⟩
  unfold OrderPool.storeOrder
  cases order with
  | tx t => exact happend.current
  | bundle uuid data bundle =>
    dsimp only
    cases hblock : bundle.block with
    | some target => exact happend.current
    | none =>
      intro o ho
      rcases mem_append.mp ho with hold | hnew
      · exact happend.current o hold
      · rw [mem_singleton.mp hnew]
        exact ⟨⟨uuid, data, bundle, rfl⟩, hblock, hlast⟩
  | shareBundle hash data bundle => exact happend.current

theorem Recorded.processCommand (sink : ReplaceableOrderSink σ) (h : Recorded pool done) :
    Recorded (pool.processCommand sink command) (done ++ [command]) := by
  cases command with
  | cancelBundle data => exact h.append rfl rfl fun _ => Subset.refl _
  | cancelShareBundle cancel =>
    refine h.append rfl rfl fun block => ?_
    have hstore := congrArg BundleBlockStore.bundles (blockStore_processRemoveSbundle block pool cancel)
    rw [apply_ite BundleBlockStore.bundles, ite_self] at hstore
    exact fun o ho => hstore.symm ▸ ho
  | order order => exact { h.processOrder order with }

/-! ## Commands that the replay keeps in order -/

/-- The replay has the command ahead of the event that made the state of its key. -/
def ReplayedAhead (done : List ReplaceableOrderPoolCommand) :
    ReplaceableOrderPoolCommand → BundleReplacementState → Prop
  | .cancelBundle _, .valid _ _ => True
  | .order (.bundle _ _ bundle), .valid _ id =>
    bundle.block ≠ none ∧ ∃ order, .order order ∈ done ∧ order.targetBlock = none ∧ order.id = id
  | .order (.shareBundle _ _ _), .cancelled _ => True
  | _, _ => False

/-- The id of an order comes with this order only, or with a copy for the key where this one is
    not later than the state of the key, and the event has another sequence number than this
    state where the replay would turn the two around. -/
structure Unambiguous (block : UInt64) (done : List ReplaceableOrderPoolCommand)
    (command : ReplaceableOrderPoolCommand) : Prop where
  sameOrder : ∀ order order', command = .order order → .order order' ∈ done →
    order'.id = order.id →
      (ReplaceableOrderPoolCommand.order order').isFor block ∨
        order'.targetBlock.getD 0 = order.targetBlock.getD 0 → order' = order ∨
      ∃ key event event', (Call.insertOrder order').keyAndEvent = some (key, event') ∧
        command.call.keyAndEvent = some (key, event) ∧
        ¬ event.Counts ((managerAfter (seenBy block done)).replacementStates.lookup key)
  noTie : ∀ key event state, command.call.keyAndEvent = some (key, event) →
    (managerAfter (seenBy block done)).replacementStates.lookup key = some state →
      state.sequenceNumber = event.sequenceNumber → ¬ ReplayedAhead done command state

variable {key : OrderReplacementKey} {y : Event}

/-- The latest event of a key does not tie with the command. -/
theorem Unambiguous.ne_stamp (h : Unambiguous block done command)
    {event : Event} (hevent : command.call.eventOf key = some event)
    (hlatest : latest stamp (eventsOf key (seenBy block done)) = some y)
    (hahead : ReplayedAhead done command y.state) : y.stamp ≠ event.stamp := by
  intro hstamp
  refine h.noTie key event y.state (Call.eventOf_eq_some.mp hevent) ?_ ?_ hahead
  · rw [lookup_managerAfter, hlatest]
    rfl
  · rw [sequenceNumber_state]
    exact UInt64.toNat_inj.mp hstamp

theorem mem_eventsOf {calls : List Call} :
    y ∈ eventsOf key calls ↔ ∃ call ∈ calls, call.keyAndEvent = some (key, y) := by
  unfold eventsOf
  simp only [mem_filterMap, Call.eventOf_eq_some]

/-- An event of orders makes an order valid. -/
theorem state_of_mem_insertOrder {orders : List Order}
    (h : y ∈ eventsOf key (orders.map .insertOrder)) :
    ∃ order ∈ orders, (∃ seq, order.replacementKeyAndSequenceNumber = some (key, seq)) ∧
      y.state = .valid y.sequenceNumber order.id := by
  obtain ⟨call, hcall, hevent⟩ := mem_eventsOf.mp h
  obtain ⟨order, horder, rfl⟩ := mem_map.mp hcall
  obtain ⟨⟨key', seq⟩, hkey, heq⟩ := Option.map_eq_some_iff.mp hevent
  cases heq
  exact ⟨order, horder, ⟨seq, hkey⟩, rfl⟩

/-- An event of cancelled share bundles. -/
theorem state_of_mem_removeSbundle {keys : List ShareBundleReplacementKey}
    (h : y ∈ eventsOf key (keys.map .removeSbundle)) :
    (∃ shareKey, key = .shareBundle shareKey) ∧ y.state = .cancelled y.sequenceNumber := by
  obtain ⟨call, hcall, hevent⟩ := mem_eventsOf.mp h
  obtain ⟨shareKey, -, rfl⟩ := mem_map.mp hcall
  cases hevent
  exact ⟨⟨shareKey, rfl⟩, rfl⟩

theorem Replays.cancelBundle (h : Replays block pool done) (data : BundleReplacementData)
    (hok : Unambiguous block done (.cancelBundle data)) :
    Replays block (pool.processRemoveBundle data) (done ++ [.cancelBundle data]) := by
  refine h.insert rfl
    (pool.mempoolTxs.map .insertOrder ++ pool.bundleCancellations.map .removeBundle)
    ((pool.blockStore block).bundles.map .insertOrder ++
      (pool.blockStore block).cancelledSbundles.map .removeSbundle ++
      pool.bundlesForCurrentBlock.map .insertOrder) ?_ ?_ ?_
  · simp [replay]
  · simp [replay, OrderPool.processRemoveBundle, blockStore, call]
  intro key event y hevent hy hlatest
  refine hok.ne_stamp hevent hlatest ?_
  have hkey : key = .bundle data.key := by
    cases Call.eventOf_eq_some.mp hevent
    rfl
  rw [eventsOf_append, eventsOf_append, mem_append, mem_append] at hy
  rcases hy with (hy | hy) | hy
  · obtain ⟨order, -, -, hstate⟩ := state_of_mem_insertOrder hy
    rw [hstate]
    trivial
  · obtain ⟨⟨shareKey, hshare⟩, -⟩ := state_of_mem_removeSbundle hy
    rw [hkey] at hshare
    cases hshare
  · obtain ⟨order, -, -, hstate⟩ := state_of_mem_insertOrder hy
    rw [hstate]
    trivial

/-- An event of the bundles without a block. -/
theorem Recorded.state_of_current (h : Recorded pool done)
    (hy : y ∈ eventsOf key (pool.bundlesForCurrentBlock.map .insertOrder)) :
    (∃ bundleKey, key = .bundle bundleKey) ∧ ∃ order, .order order ∈ done ∧
      order.targetBlock = none ∧ y.state = .valid y.sequenceNumber order.id := by
  obtain ⟨order, hmem, ⟨seq, hkey⟩, hstate⟩ := state_of_mem_insertOrder hy
  obtain ⟨⟨uuid, data, bundle, rfl⟩, htarget, hdone⟩ := h.current order hmem
  obtain ⟨data', -, heq⟩ := Option.map_eq_some_iff.mp hkey
  cases heq
  exact ⟨⟨data'.key, rfl⟩, _, hdone, htarget, hstate⟩

theorem Replays.cancelShareBundle (h : Replays block pool done) (hr : Recorded pool done)
    (cancel : CancelShareBundle) :
    Replays block (pool.processRemoveSbundle cancel) (done ++ [.cancelShareBundle cancel]) := by
  have hstore := blockStore_processRemoveSbundle block pool cancel
  have hfor : (ReplaceableOrderPoolCommand.cancelShareBundle cancel).isFor block ↔
      block = cancel.block := isFor_of_target rfl
  by_cases hblock : block = cancel.block
  · rw [if_pos hblock] at hstore
    refine h.insert (hfor.mpr hblock)
      (pool.mempoolTxs.map .insertOrder ++ pool.bundleCancellations.map .removeBundle ++
        (pool.blockStore block).bundles.map .insertOrder ++
        (pool.blockStore block).cancelledSbundles.map .removeSbundle)
      (pool.bundlesForCurrentBlock.map .insertOrder) rfl ?_ ?_
    · unfold replay
      rw [hstore]
      simp [OrderPool.processRemoveSbundle, call]
    intro key event y hevent hy
    obtain ⟨⟨bundleKey, hkey⟩, -⟩ := hr.state_of_current hy
    cases Call.eventOf_eq_some.mp hevent
    cases hkey
  · rw [if_neg hblock] at hstore
    refine h.skip (mt hfor.mp hblock) ?_
    unfold replay
    rw [hstore]
    rfl

/-- An order goes to the end of the orders of its block. -/
theorem Replays.pushBundle (h : Replays block pool done) (order : Order) (target : UInt64)
    (htarget : order.targetBlock = some target)
    (htie : (ReplaceableOrderPoolCommand.order order).isFor block → ∀ key event y,
      (Call.insertOrder order).eventOf key = some event →
      y ∈ eventsOf key ((pool.blockStore block).cancelledSbundles.map .removeSbundle ++
        pool.bundlesForCurrentBlock.map .insertOrder) →
      LatestWins.latest stamp (eventsOf key (seenBy block done)) = some y → y.stamp ≠ event.stamp) :
    Replays block (pool.pushBundle target order) (done ++ [.order order]) := by
  have hstore := blockStore_pushBundle block pool target order
  have hfor : (ReplaceableOrderPoolCommand.order order).isFor block ↔ block = target :=
    isFor_of_target htarget
  by_cases hblock : block = target
  · rw [if_pos hblock] at hstore
    refine h.insert (hfor.mpr hblock)
      (pool.mempoolTxs.map .insertOrder ++ pool.bundleCancellations.map .removeBundle ++
        (pool.blockStore block).bundles.map .insertOrder)
      ((pool.blockStore block).cancelledSbundles.map .removeSbundle ++
        pool.bundlesForCurrentBlock.map .insertOrder) ?_ ?_ ?_
    · simp [replay]
    · unfold replay
      rw [hstore]
      simp [OrderPool.pushBundle, call]
    · exact htie (hfor.mpr hblock)
  · rw [if_neg hblock] at hstore
    refine h.skip (mt hfor.mp hblock) ?_
    unfold replay
    rw [hstore]
    rfl

/-- A new order takes its place. -/
theorem Replays.storeOrder (h : Replays block pool done) (hr : Recorded pool done) (order : Order)
    (hok : (ReplaceableOrderPoolCommand.order order).isFor block →
      Unambiguous block done (.order order)) :
    Replays block (pool.storeOrder order) (done ++ [.order order]) := by
  unfold OrderPool.storeOrder
  cases order with
  | tx t =>
    refine h.insert rfl (pool.mempoolTxs.map .insertOrder)
      (pool.bundleCancellations.map .removeBundle ++
        (pool.blockStore block).bundles.map .insertOrder ++
        (pool.blockStore block).cancelledSbundles.map .removeSbundle ++
        pool.bundlesForCurrentBlock.map .insertOrder) ?_ ?_ ?_
    · simp [replay]
    · simp [replay, blockStore, call]
    · intro key event y hevent
      cases Call.eventOf_eq_some.mp hevent
  | bundle uuid data bundle =>
    dsimp only
    cases htarget : bundle.block with
    | none =>
      have hfor : (ReplaceableOrderPoolCommand.order (.bundle uuid data bundle)).isFor block := by
        simp [ReplaceableOrderPoolCommand.isFor, ReplaceableOrderPoolCommand.targetBlock,
          Order.targetBlock, htarget]
      refine h.insert hfor (pool.replay block) [] (append_nil _).symm ?_ ?_
      · simp [replay, blockStore, call]
      · intro key event y hevent hy
        cases hy
    | some target =>
      refine h.pushBundle _ target htarget ?_
      intro hfor key event y hevent hy hlatest
      refine (hok hfor).ne_stamp hevent hlatest ?_
      rw [eventsOf_append, mem_append] at hy
      rcases hy with hy | hy
      · obtain ⟨⟨shareKey, hshare⟩, -⟩ := state_of_mem_removeSbundle hy
        obtain ⟨⟨key', seq⟩, hkey, heq⟩ := Option.map_eq_some_iff.mp (Call.eventOf_eq_some.mp hevent)
        obtain ⟨data', -, heq'⟩ := Option.map_eq_some_iff.mp hkey
        cases heq
        cases heq'
        cases hshare
      · obtain ⟨-, order, hdone, hnone, hstate⟩ := hr.state_of_current hy
        rw [hstate]
        exact ⟨by rw [htarget]; simp, order, hdone, hnone, rfl⟩
  | shareBundle hash data bundle =>
    refine h.pushBundle _ bundle.block rfl ?_
    intro hfor key event y hevent hy hlatest
    refine (hok hfor).ne_stamp hevent hlatest ?_
    rw [eventsOf_append, mem_append] at hy
    rcases hy with hy | hy
    · obtain ⟨-, hstate⟩ := state_of_mem_removeSbundle hy
      rw [hstate]
      trivial
    obtain ⟨⟨bundleKey, hbundle⟩, -⟩ := hr.state_of_current hy
    obtain ⟨⟨key', seq⟩, hkey, heq⟩ := Option.map_eq_some_iff.mp (Call.eventOf_eq_some.mp hevent)
    obtain ⟨data', -, heq'⟩ := Option.map_eq_some_iff.mp hkey
    cases heq
    cases heq'
    cases hbundle

/-- An order that is known was seen or is ignored, if its id stands for one order of a key. -/
theorem Replays.known (h : Replays block pool done) (hr : Recorded pool done) {order : Order}
    (hknown : pool.knownOrders.contains (order.id, order.targetBlock.getD 0) = true)
    (hfor : (ReplaceableOrderPoolCommand.order order).isFor block)
    (hok : Unambiguous block done (.order order)) : Replays block pool (done ++ [.order order]) := by
  obtain ⟨order', hmem, heq, -⟩ := hr.known _ (LruCache.contains_iff.mp hknown)
  obtain ⟨hid, htarget⟩ := Prod.mk.inj heq
  refine h.again hfor ?_
  rcases hok.sameOrder order order' rfl hmem hid.symm (.inr htarget.symm) with
    rfl | ⟨key, event, -, -, hkey⟩
  · exact .inl (mem_map.mpr ⟨_, mem_filter.mpr ⟨hmem, hfor⟩, rfl⟩)
  · exact .inr ⟨key, event, hkey⟩

/-- One command keeps the replay. -/
theorem Replays.processCommand (sink : ReplaceableOrderSink σ) (h : Replays block pool done)
    (hr : Recorded pool done) (hok : command.isFor block → Unambiguous block done command) :
    Replays block (pool.processCommand sink command) (done ++ [command]) := by
  cases command with
  | cancelBundle data => exact { h.cancelBundle data (hok rfl) with }
  | cancelShareBundle cancel => exact { h.cancelShareBundle hr cancel with }
  | order order =>
    have hreplays : Replays block (pool.processOrder order) (done ++ [.order order]) := by
      unfold OrderPool.processOrder
      by_cases hknown : pool.knownOrders.contains (order.id, order.targetBlock.getD 0) = true
      · rw [if_pos hknown]
        by_cases hfor : (ReplaceableOrderPoolCommand.order order).isFor block
        · exact h.known hr hknown hfor (hok hfor)
        · exact h.skip hfor rfl
      · rw [if_neg hknown]
        exact { h.storeOrder hr order hok with }
    exact { hreplays with }

end Step

/-! ## Subscribers -/

/-- A run of commands in which all commands for the block are unambiguous. -/
def UnambiguousRun (block : UInt64) (commands : List ReplaceableOrderPoolCommand) : Prop :=
  ∀ done command, done ++ [command] <+: commands → command.isFor block →
    Unambiguous block done command

variable {σ : Type} {block : UInt64} (sink : ReplaceableOrderSink σ) (pool : OrderPool σ)

theorem processCommands_append
    (done : List ReplaceableOrderPoolCommand) (command : ReplaceableOrderPoolCommand) :
    pool.processCommands sink (done ++ [command]) =
      (pool.processCommands sink done).processCommand sink command :=
  foldl_append

variable {commands : List ReplaceableOrderPoolCommand}

theorem recorded_processCommands (subs : List (Nat × SinkSubscription σ)) (n : Nat)
    (done : List ReplaceableOrderPoolCommand) :
    Recorded (OrderPool.processCommands sink { sinks := subs, nextSinkId := n } done) done := by
  induction done using reverseRecOn with
  | nil =>
    refine ⟨?_, ?_⟩
    · intro key hkey
      cases hkey
    · intro order horder
      cases horder
  | append_singleton done command ih =>
    rw [processCommands_append]
    exact ih.processCommand sink

theorem replays_processCommands
    (subs : List (Nat × SinkSubscription σ)) (n : Nat)
    (hok : UnambiguousRun block commands) :
    ∀ done, done <+: commands →
      Replays block (OrderPool.processCommands sink { sinks := subs, nextSinkId := n } done) done := by
  refine Runs.forall_states_of_steps ?_ ?_ hok
  · exact ⟨fun key => rfl, fun order => ⟨fun h => h, fun _ h => h⟩⟩
  · intro done command h hcommand
    rw [processCommands_append]
    exact h.processCommand sink (recorded_processCommands sink subs n done) hcommand

theorem nextSinkId_processCommands
    (commands : List ReplaceableOrderPoolCommand) :
    (pool.processCommands sink commands).nextSinkId = pool.nextSinkId := by
  induction commands using reverseRecOn with
  | nil => rfl
  | append_singleton commands command ih =>
    rw [processCommands_append, ← ih]
    cases command with
    | cancelBundle data | cancelShareBundle cancel => rfl
    | order order => exact (processOrder_frame _ order).2

/-- Subscribers of the block get the calls for it. -/
theorem sinks_processCommands (commands : List ReplaceableOrderPoolCommand)
    (pool : OrderPool (OrderReplacementManager OrderStore)) (subs : List (Nat × List Call))
    (hsubs : pool.sinks = subs.map fun sub => (sub.1, ⟨managerAfter sub.2, block⟩)) :
    (pool.processCommands managerSink commands).sinks =
      subs.map fun sub => (sub.1, ⟨managerAfter (sub.2 ++ seenBy block commands), block⟩) := by
  induction commands using reverseRecOn with
  | nil =>
    change pool.sinks = _
    rw [hsubs]
    simp [seenBy]
  | append_singleton commands command ih =>
    have hsinks (p : OrderPool (OrderReplacementManager OrderStore)) :
        (p.processCommand managerSink command).sinks = p.sinks.filterMap fun (id, sub) =>
          (OrderPool.forward managerSink command sub).map (Prod.mk id) := by
      cases command with
      | cancelBundle data | cancelShareBundle cancel => rfl
      | order order =>
        unfold OrderPool.processCommand
        dsimp only
        rw [(processOrder_frame p order).1]
    rw [processCommands_append, hsinks, ih, filterMap_map, ← filterMap_eq_map']
    refine congrArg (filterMap · subs) (funext fun sub => ?_)
    dsimp only [Function.comp_apply]
    rw [forward_managerSink, seenBy_append, append_assoc]
    rfl

theorem addSink_managerSink (pool : OrderPool (OrderReplacementManager OrderStore)) (block : UInt64) :
    (pool.addSink managerSink block (.new ∅)).2.sinks =
      pool.sinks ++ [(pool.nextSinkId, ⟨managerAfter (pool.replay block), block⟩)] := by
  unfold OrderPool.addSink replay blockStore managerAfter
  simp only [foldl_append, foldl_map]
  cases pool.bundlesByTargetBlock.lookup block with
  | none | some store => rfl

theorem UnambiguousRun.uniqueIds
    (hok : UnambiguousRun block commands) : UniqueIds (seenBy block commands) := by
  refine Runs.forall_states_of_steps (P := fun done => UniqueIds (seenBy block done)) ?_ ?_ hok
    commands (prefix_refl _)
  · intro order order' hmem
    cases hmem
  intro done command hunique hcommand
  by_cases hfor : command.isFor block
  · -- an order that was seen before with the id of this one is this one or of its key
    have hold {order order' : Order} (hseen : Call.insertOrder order ∈ seenBy block done)
        (hnew : command.call = .insertOrder order') (hid : order.id = order'.id) :
        order = order' ∨ ∃ key event event', (Call.insertOrder order).keyAndEvent = some (key, event) ∧
          (Call.insertOrder order').keyAndEvent = some (key, event') := by
      obtain ⟨command', hmem, hcall⟩ := mem_map.mp hseen
      obtain ⟨hdone, hfor'⟩ := mem_filter.mp hmem
      cases command' with
      | order o =>
        cases command with
        | order o' =>
          cases hcall
          cases hnew
          exact ((hcommand hfor).sameOrder _ _ rfl hdone hid (.inl hfor')).imp_right
            fun ⟨key, event, event', h, h', _⟩ => ⟨key, event', event, h, h'⟩
        | cancelShareBundle cancel | cancelBundle data => cases hnew
      | cancelShareBundle cancel | cancelBundle data => cases hcall
    rw [seenBy_append_of_isFor hfor]
    intro order order' hmem hmem' hid
    rw [mem_append, mem_singleton] at hmem hmem'
    rcases hmem with hmem | hmem
    · rcases hmem' with hmem' | hmem'
      · exact hunique order order' hmem hmem' hid
      · exact hold hmem hmem'.symm hid
    rcases hmem' with hmem' | hmem'
    · exact (hold hmem' hmem.symm hid.symm).imp Eq.symm
        fun ⟨key, event, event', h, h'⟩ => ⟨key, event', event, h', h⟩
    · rw [← hmem] at hmem'
      cases hmem'
      exact .inl rfl
  · simpa [seenBy, hfor] using hunique

/-- Managers with the same orders and the same latest events have the same live orders. -/
theorem store_eq_of_same {calls calls' : List Call} (hunique : UniqueIds calls)
    (horders : ∀ order, (Call.insertOrder order ∈ calls' → Call.insertOrder order ∈ calls) ∧
      ((Call.insertOrder order).keyAndEvent = none → Call.insertOrder order ∈ calls →
        Call.insertOrder order ∈ calls'))
    (hlatest : ∀ key, latest stamp (eventsOf key calls') =
      latest stamp (eventsOf key calls)) (id : OrderId) :
    (managerAfter calls').sink.lookup id = (managerAfter calls).sink.lookup id := by
  have hunique' : UniqueIds calls' := fun order order' hmem hmem' =>
    hunique order order' ((horders order).1 hmem) ((horders order').1 hmem')
  have hlive (order : Order) : Live calls' order ↔ Live calls order := by
    cases hevent : (Call.insertOrder order).keyAndEvent with
    | none =>
      rw [live_iff_inserted hevent, live_iff_inserted hevent]
      exact ⟨(horders order).1, (horders order).2 hevent⟩
    | some entry => rw [live_iff_latest hevent, live_iff_latest hevent, hlatest]
  ext order
  rw [lookup_store_iff hunique', lookup_store_iff hunique, hlive]

/-- A subscriber from the start and one that comes after some of the commands have the same
    live orders, in every run in which the commands for their block are unambiguous. -/
theorem late_subscriber_agrees (block : UInt64) (early late : List ReplaceableOrderPoolCommand)
    (hok : UnambiguousRun block (early ++ late)) :
    let pool := (OrderPool.addSink managerSink {} block (.new ∅)).2
    let pool := ((pool.processCommands managerSink early).addSink managerSink block (.new ∅)).2
    let pool := pool.processCommands managerSink late
    ∃ first second, pool.sinks = [(0, ⟨first, block⟩), (1, ⟨second, block⟩)] ∧
      ∀ id, first.sink.lookup id = second.sink.lookup id := by
  intro start joined pool
  have hreplays := replays_processCommands managerSink start.sinks start.nextSinkId hok early
    (prefix_append _ _)
  have hearly : (start.processCommands managerSink early).sinks =
      [(0, ⟨managerAfter (seenBy block early), block⟩)] :=
    sinks_processCommands early start [(0, [])] rfl
  have hnext : (start.processCommands managerSink early).nextSinkId = 1 :=
    nextSinkId_processCommands managerSink start early
  have hjoined : joined.sinks = [(0, ⟨managerAfter (seenBy block early), block⟩),
      (1, ⟨managerAfter ((start.processCommands managerSink early).replay block), block⟩)] := by
    rw [addSink_managerSink, hearly, hnext]
    rfl
  refine ⟨_, _, sinks_processCommands late joined [(0, seenBy block early),
    (1, (start.processCommands managerSink early).replay block)] hjoined, ?_⟩
  intro id
  rw [← seenBy_append]
  refine (store_eq_of_same hok.uniqueIds ?_ ?_ id).symm
  · intro order
    rw [seenBy_append, mem_append, mem_append]
    exact ⟨Or.imp_left (hreplays.orders order).1,
      fun hnone => Or.imp_left ((hreplays.orders order).2 hnone)⟩
  intro key
  rw [seenBy_append, eventsOf_append, eventsOf_append, latest_append, latest_append]
  exact congrArg (join stamp · _) (hreplays.latest key)

/-! ### Example -/

/-- One bundle for block 5, sent with the given sequence number. -/
def sentWith (seq : UInt64) : Order :=
  hashSlow ⟨fun _ => .zero, fun _ => .zero⟩ .v2 (some ⟨exampleKey, seq⟩)
    { block := some 5, minTimestamp := none, maxTimestamp := none, txs := [],
      revertingTxHashes := [], droppingTxHashes := [], refund := none }

/-- A subscriber that comes after the cancellation of the bundle. -/
theorem late_subscriber_agrees_cancelled :
    let pool := (OrderPool.addSink managerSink {} 5 (.new ∅)).2
    let pool := ((pool.processCommands managerSink
      [.order (sentWith 0), .cancelBundle ⟨exampleKey, 1⟩]).addSink managerSink 5 (.new ∅)).2
    let pool := pool.processCommands managerSink []
    ∃ first second, pool.sinks = [(0, ⟨first, 5⟩), (1, ⟨second, 5⟩)] ∧
      ∀ id, first.sink.lookup id = second.sink.lookup id := by
  refine late_subscriber_agrees 5 [.order (sentWith 0), .cancelBundle ⟨exampleKey, 1⟩] [] ?_
  unfold UnambiguousRun
  rw [List.append_nil, Runs.forall_steps_cons, Runs.forall_steps_cons]
  refine ⟨fun _ => ⟨?_, ?_⟩, fun _ => ⟨?_, ?_⟩, Runs.forall_steps_nil.mpr trivial⟩
  · intro order order' _ hmem
    cases hmem
  · intro key event state _ hstate
    cases hstate
  · intro order order' horder
    cases horder
  intro key event state hevent hstate hseq
  cases hevent
  have hvalid : state = .valid 0 (sentWith 0).id := (Option.some.inj hstate).symm
  rw [hvalid] at hseq
  exact absurd hseq (by decide)

/-- The bundle is sent, cancelled and sent again: it is live for the subscriber from the
    start, but not for one that comes then. -/
theorem late_subscriber_misses_resubmission :
    let pool := (OrderPool.addSink managerSink {} 5 (.new ∅)).2
    let pool := ((pool.processCommands managerSink
      [.order (sentWith 0), .cancelBundle ⟨exampleKey, 1⟩, .order (sentWith 2)]).addSink managerSink 5
        (.new ∅)).2
    pool.sinks.map (fun sub => (sub.2.sink.sink.lookup (sentWith 2).id).isSome) = [true, false] := by
  decide

end OrderInput
