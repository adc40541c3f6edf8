/-
  Replacing and cancelling orders that arrive out of order.

  `OrderReplacementManager` gets inserts and cancellations of orders with replacement keys
  and passes inserts and removes on to a sink. For each key it keeps the state of the
  highest sequence number it has seen; what does not have a higher one is ignored. What is
  sent for one key are inserts and removes in turn, and in the end the order of the highest
  sequence number is live, whatever the order of arrival.
-/
import Rbuilder.Building.Primitives
import Rbuilder.HashMap
import Rbuilder.LatestWins
import Mathlib.Data.List.AList

namespace OrderInput

open SparseMpt
open Building (OrderId)

/-! ## Orders and keys -/

structure ReplacementKey where
  id : Vector UInt8 16
  signer : Option Address
  deriving DecidableEq

structure BundleReplacementKey where
  key : ReplacementKey
  deriving DecidableEq

structure ShareBundleReplacementKey where
  key : ReplacementKey
  deriving DecidableEq

inductive OrderReplacementKey where
  | bundle (key : BundleReplacementKey)
  | shareBundle (key : ShareBundleReplacementKey)
  deriving DecidableEq

structure ReplacementData (κ : Type) where
  key : κ
  sequenceNumber : UInt64
  deriving DecidableEq

abbrev BundleReplacementData := ReplacementData BundleReplacementKey

abbrev ShareBundleReplacementData := ReplacementData ShareBundleReplacementKey

/-- An order with what identifies it and what it replaces. -/
inductive Order where
  | bundle (uuid : Vector UInt8 16) (replacementData : Option BundleReplacementData)
      (bundle : Building.Bundle)
  | tx (tx : Building.Tx)
  | shareBundle (hash : B256) (replacementData : Option ShareBundleReplacementData)
      (bundle : Building.ShareBundle)

namespace Order

def id : Order → OrderId
  | bundle uuid _ _ => .bundle uuid
  | .tx t => .tx t.hash
  | shareBundle hash _ _ => .shareBundle hash

def replacementKeyAndSequenceNumber : Order → Option (OrderReplacementKey × UInt64)
  | bundle _ replacementData _ => replacementData.map fun r => (.bundle r.key, r.sequenceNumber)
  | tx _ => none
  | shareBundle _ replacementData _ =>
    replacementData.map fun r => (.shareBundle r.key, r.sequenceNumber)

end Order

/-! ## The manager -/

open List Option

/-- The receiver of orders, with its answers. -/
structure OrderSink (σ : Type) where
  insertOrder : Order → σ → Bool × σ
  removeOrder : OrderId → σ → Bool × σ

inductive BundleReplacementState where
  | valid (sequenceNumber : UInt64) (orderId : OrderId)
  | cancelled (sequenceNumber : UInt64)

namespace BundleReplacementState

def sequenceNumber : BundleReplacementState → UInt64
  | valid sequenceNumber _ | cancelled sequenceNumber => sequenceNumber

variable {σ : Type} (sink : OrderSink σ)

def sendRemoveOrderIfNeeded (state : BundleReplacementState) (s : σ) : Bool × σ :=
  match state with
  | valid _ orderId => sink.removeOrder orderId s
  | cancelled _ => (true, s)

def insertOrder (order : Order) (sequenceNumber : UInt64) (state : BundleReplacementState) (s : σ) :
    Bool × BundleReplacementState × σ :=
  if sequenceNumber ≤ state.sequenceNumber then (true, state, s)
  else
    let (removed, s) := state.sendRemoveOrderIfNeeded sink s
    let (inserted, s) := sink.insertOrder order s
    (if inserted then removed else false, valid sequenceNumber order.id, s)

def cancelOrder (sequenceNumber : UInt64) (state : BundleReplacementState) (s : σ) :
    Bool × BundleReplacementState × σ :=
  if sequenceNumber ≤ state.sequenceNumber then (true, state, s)
  else
    let (removed, s) := state.sendRemoveOrderIfNeeded sink s
    (removed, cancelled sequenceNumber, s)

end BundleReplacementState

/-- `SBUNDLE_SEQUENCE_NUMBER`. -/
def sbundleSequenceNumber : UInt64 := 0xFFFFFFFFFFFFFFFF

structure OrderReplacementManager (σ : Type) where
  sink : σ
  replacementStates : AList fun _ : OrderReplacementKey => BundleReplacementState

namespace OrderReplacementManager

variable {σ : Type} (sink : OrderSink σ)

def new (s : σ) : OrderReplacementManager σ := ⟨s, ∅⟩

def insertOrder (order : Order) (m : OrderReplacementManager σ) : Bool × OrderReplacementManager σ :=
  match order.replacementKeyAndSequenceNumber with
  | some (repKey, sequenceNumber) =>
    match m.replacementStates.lookup repKey with
    | some state =>
      let (res, state, s) := state.insertOrder sink order sequenceNumber m.sink
      (res, ⟨s, m.replacementStates.insert repKey state⟩)
    | none =>
      let states := m.replacementStates.insert repKey (.valid sequenceNumber order.id)
      let (res, s) := sink.insertOrder order m.sink
      (res, ⟨s, states⟩)
  | none =>
    let (res, s) := sink.insertOrder order m.sink
    (res, { m with sink := s })

/-- What `remove_bundle` and `remove_sbundle` do. -/
def cancelKey (repKey : OrderReplacementKey) (sequenceNumber : UInt64)
    (m : OrderReplacementManager σ) : Bool × OrderReplacementManager σ :=
  match m.replacementStates.lookup repKey with
  | some state =>
    let (res, state, s) := state.cancelOrder sink sequenceNumber m.sink
    (res, ⟨s, m.replacementStates.insert repKey state⟩)
  | none =>
    (true, { m with
      replacementStates := m.replacementStates.insert repKey (.cancelled sequenceNumber) })

def removeBundle (replacementData : BundleReplacementData) (m : OrderReplacementManager σ) :
    Bool × OrderReplacementManager σ :=
  m.cancelKey sink (.bundle replacementData.key) replacementData.sequenceNumber

def removeSbundle (key : ShareBundleReplacementKey) (m : OrderReplacementManager σ) :
    Bool × OrderReplacementManager σ :=
  m.cancelKey sink (.shareBundle key) sbundleSequenceNumber

end OrderReplacementManager

/-! ## Calls and what they send -/

inductive Call where
  | insertOrder (order : Order)
  | removeBundle (replacementData : BundleReplacementData)
  | removeSbundle (key : ShareBundleReplacementKey)

def Call.run {σ : Type} (sink : OrderSink σ) (m : OrderReplacementManager σ) :
    Call → Bool × OrderReplacementManager σ
  | insertOrder order => m.insertOrder sink order
  | removeBundle replacementData => m.removeBundle sink replacementData
  | removeSbundle key => m.removeSbundle sink key

inductive SinkCall where
  | insert (order : Order)
  | remove (id : OrderId)

/-- A sink with a record of the calls it gets. -/
def OrderSink.recorded {σ : Type} (sink : OrderSink σ) : OrderSink (σ × List SinkCall) where
  insertOrder order s :=
    let (res, s') := sink.insertOrder order s.1
    (res, s', s.2 ++ [.insert order])
  removeOrder id s :=
    let (res, s') := sink.removeOrder id s.1
    (res, s', s.2 ++ [.remove id])

/-- The calls that the sink gets during one call of the manager. -/
def Call.sent {σ : Type} (sink : OrderSink σ) (m : OrderReplacementManager σ) (call : Call) :
    List SinkCall × OrderReplacementManager σ :=
  let (_, m') := call.run sink.recorded ⟨(m.sink, []), m.replacementStates⟩
  (m'.sink.2, ⟨m'.sink.1, m'.replacementStates⟩)

/-- Calls one after the other, each with what it sends. -/
def runCalls {σ : Type} (sink : OrderSink σ) :
    List Call → OrderReplacementManager σ → List (Call × List SinkCall) × OrderReplacementManager σ
  | [], m => ([], m)
  | call :: calls, m =>
    let (sent, m) := call.sent sink m
    let (log, m) := runCalls sink calls m
    ((call, sent) :: log, m)

/-- What a call says about a key: the sequence number, and the order or its cancellation. -/
structure Event where
  sequenceNumber : UInt64
  order : Option Order

def Call.keyAndEvent : Call → Option (OrderReplacementKey × Event)
  | insertOrder order =>
    order.replacementKeyAndSequenceNumber.map fun (key, seq) => (key, ⟨seq, some order⟩)
  | removeBundle r => some (.bundle r.key, ⟨r.sequenceNumber, none⟩)
  | removeSbundle key => some (.shareBundle key, ⟨sbundleSequenceNumber, none⟩)

def Call.eventOf (key : OrderReplacementKey) (call : Call) : Option Event :=
  call.keyAndEvent.bind fun (k, event) => if k = key then some event else none

/-- The events of a key. -/
def eventsOf (key : OrderReplacementKey) (calls : List Call) : List Event :=
  calls.filterMap (Call.eventOf key)

/-- What is sent for a key. -/
def sentFor (key : OrderReplacementKey) (log : List (Call × List SinkCall)) : List SinkCall :=
  (log.filter fun entry => (entry.1.eventOf key).isSome).flatMap Prod.snd

/-- Follow inserts and removes that take turns, each remove of the order that is live; the
    order that is live in the end. -/
def follow : Option Order → List SinkCall → Option (Option Order)
  | live, [] => some live
  | none, .insert order :: rest => follow (some order) rest
  | some order, .remove id :: rest => if order.id = id then follow none rest else none
  | _, _ => none

/-! ## One call -/

/-- The state of a key after an event that counts. -/
def Event.state (event : Event) : BundleReplacementState :=
  match event.order with
  | some order => .valid event.sequenceNumber order.id
  | none => .cancelled event.sequenceNumber

@[simp]
theorem Event.sequenceNumber_state (event : Event) :
    event.state.sequenceNumber = event.sequenceNumber := by
  unfold Event.state
  cases event.order with
  | some order | none => rfl

/-- What is sent when an order is not live any more. -/
def BundleReplacementState.removal : BundleReplacementState → List SinkCall
  | valid _ orderId => [.remove orderId]
  | cancelled _ => []

/-- What is sent for an event that counts. -/
def Event.insertion (event : Event) : List SinkCall := (event.order.map SinkCall.insert).toList

/-- What an event does to the state of its key: an event that is not later is ignored. -/
def Event.act (event : Event) : Option BundleReplacementState → BundleReplacementState × List SinkCall
  | none => (event.state, event.insertion)
  | some state =>
    if event.sequenceNumber ≤ state.sequenceNumber then (state, [])
    else (event.state, state.removal ++ event.insertion)

variable {event : Event} {state : BundleReplacementState}

theorem Event.act_ignored
    (h : event.sequenceNumber ≤ state.sequenceNumber) : event.act (some state) = (state, []) :=
  if_pos h

theorem Event.act_later (h : ¬ event.sequenceNumber ≤ state.sequenceNumber) :
    event.act (some state) = (event.state, state.removal ++ event.insertion) :=
  if_neg h

section Call

variable {σ : Type} (sink : OrderSink σ)

def SinkCall.run (s : σ) : SinkCall → σ
  | insert order => (sink.insertOrder order s).2
  | remove id => (sink.removeOrder id s).2

/-- The sink after the given calls. -/
def deliver (s : σ) (calls : List SinkCall) : σ := calls.foldl (SinkCall.run sink) s

theorem deliver_append (s : σ) (xs ys : List SinkCall) :
    deliver sink s (xs ++ ys) = deliver sink (deliver sink s xs) ys :=
  foldl_append

theorem deliver_recorded (s : σ) (log calls : List SinkCall) :
    deliver sink.recorded (s, log) calls = (deliver sink s calls, log ++ calls) := by
  induction calls generalizing s log with
  | nil => exact congrArg (Prod.mk s) (append_nil log).symm
  | cons call calls ih =>
    have hcall : call.run sink.recorded (s, log) = (call.run sink s, log ++ [call]) := by
      cases call with
      | insert order | remove id => rfl
    change deliver sink.recorded (call.run sink.recorded (s, log)) calls = _
    rw [hcall, ih, append_assoc]
    rfl

theorem sendRemoveOrderIfNeeded_eq (state : BundleReplacementState) (s : σ) :
    (state.sendRemoveOrderIfNeeded sink s).2 = deliver sink s state.removal := by
  cases state with
  | valid seq id | cancelled seq => rfl

theorem insertOrder_eq (order : Order) (seq : UInt64) (state : BundleReplacementState) (s : σ) :
    (state.insertOrder sink order seq s).2 =
      ((Event.act ⟨seq, some order⟩ (some state)).1,
        deliver sink s (Event.act ⟨seq, some order⟩ (some state)).2) := by
  unfold BundleReplacementState.insertOrder
  by_cases hle : seq ≤ state.sequenceNumber
  · rw [if_pos hle, Event.act_ignored hle]
    rfl
  · rw [if_neg hle, Event.act_later hle, deliver_append, ← sendRemoveOrderIfNeeded_eq]
    rfl

theorem cancelOrder_eq (seq : UInt64) (state : BundleReplacementState) (s : σ) :
    (state.cancelOrder sink seq s).2 =
      ((Event.act ⟨seq, none⟩ (some state)).1,
        deliver sink s (Event.act ⟨seq, none⟩ (some state)).2) := by
  unfold BundleReplacementState.cancelOrder
  by_cases hle : seq ≤ state.sequenceNumber
  · rw [if_pos hle, Event.act_ignored hle]
    rfl
  · rw [if_neg hle, Event.act_later hle, deliver_append, ← sendRemoveOrderIfNeeded_eq]
    rfl

variable (m : OrderReplacementManager σ) {call : Call}

theorem cancelKey_eq (key : OrderReplacementKey) (seq : UInt64) :
    (m.cancelKey sink key seq).2 =
      ⟨deliver sink m.sink (Event.act ⟨seq, none⟩ (m.replacementStates.lookup key)).2,
        m.replacementStates.insert key
          (Event.act ⟨seq, none⟩ (m.replacementStates.lookup key)).1⟩ := by
  unfold OrderReplacementManager.cancelKey
  cases m.replacementStates.lookup key with
  | none => rfl
  | some state =>
    have hact := Prod.ext_iff.mp (cancelOrder_eq sink seq state m.sink)
    dsimp only at hact ⊢
    rw [hact.1, hact.2]

variable {key : OrderReplacementKey} {event : Event}

/-- A call of a key acts on the state of the key. -/
theorem Call.run_of_event (h : call.keyAndEvent = some (key, event)) : (call.run sink m).2 =
      ⟨deliver sink m.sink (event.act (m.replacementStates.lookup key)).2,
        m.replacementStates.insert key (event.act (m.replacementStates.lookup key)).1⟩ := by
  cases call with
  | insertOrder order =>
    obtain ⟨⟨key', seq⟩, hkey, heq⟩ := map_eq_some_iff.mp h
    cases heq
    unfold Call.run OrderReplacementManager.insertOrder
    dsimp only
    rw [hkey]
    dsimp only
    cases m.replacementStates.lookup key with
    | none => rfl
    | some state =>
      have hact := Prod.ext_iff.mp (insertOrder_eq sink order seq state m.sink)
      dsimp only at hact ⊢
      rw [hact.1, hact.2]
  | removeBundle data =>
    cases h
    exact cancelKey_eq sink m (.bundle data.key) data.sequenceNumber
  | removeSbundle shareKey =>
    cases h
    exact cancelKey_eq sink m (.shareBundle shareKey) sbundleSequenceNumber

/-- An order without a key is passed on. -/
theorem Call.run_of_no_event (h : call.keyAndEvent = none) :
    ∃ order, call = .insertOrder order ∧
      (call.run sink m).2 = ⟨(sink.insertOrder order m.sink).2, m.replacementStates⟩ := by
  cases call with
  | insertOrder order =>
    have hkey : order.replacementKeyAndSequenceNumber = none := map_eq_none_iff.mp h
    refine ⟨order, rfl, ?_⟩
    unfold Call.run OrderReplacementManager.insertOrder
    dsimp only
    rw [hkey]
  | removeBundle data | removeSbundle key => cases h

theorem Call.sent_of_event (h : call.keyAndEvent = some (key, event)) :
    call.sent sink m =
      ((event.act (m.replacementStates.lookup key)).2, ⟨(call.sent sink m).2.sink,
        m.replacementStates.insert key (event.act (m.replacementStates.lookup key)).1⟩) := by
  unfold Call.sent
  dsimp only
  rw [Call.run_of_event sink.recorded _ h, deliver_recorded]
  rfl

theorem Call.states_of_no_event (h : call.keyAndEvent = none) :
    (call.sent sink m).2.replacementStates = m.replacementStates := by
  obtain ⟨order, -, hrun⟩ :=
    Call.run_of_no_event sink.recorded ⟨(m.sink, []), m.replacementStates⟩ h
  unfold Call.sent
  dsimp only
  rw [hrun]

end Call

/-! ## Runs -/

theorem follow_append (live : Option Order) (xs ys : List SinkCall) :
    follow live (xs ++ ys) = (follow live xs).bind fun live' => follow live' ys := by
  induction xs generalizing live with
  | nil => rfl
  | cons call rest ih =>
    cases live with
    | none =>
      cases call with
      | insert order => exact ih (some order)
      | remove id => rfl
    | some order =>
      cases call with
      | insert next => rfl
      | remove id =>
        rw [cons_append, follow, follow]
        by_cases hid : order.id = id
        · rw [if_pos hid, if_pos hid]
          exact ih none
        · rw [if_neg hid, if_neg hid]
          rfl

/-- The live order is removed, if there is one, and that of the event inserted. -/
theorem follow_act (latest : Option Event) (event : Event) :
    follow (latest.bind Event.order)
      ((latest.map fun l => l.state.removal).getD [] ++ event.insertion) = some event.order := by
  have hinsertion : follow none event.insertion = some event.order := by
    unfold Event.insertion
    cases event.order with
    | none | some order => rfl
  cases latest with
  | none => exact hinsertion
  | some l =>
    rw [bind_some, map_some, getD_some, follow_append]
    unfold Event.state
    cases l.order with
    | none => exact hinsertion
    | some order =>
      change (if order.id = order.id then some none else none).bind _ = _
      rw [if_pos rfl]
      exact hinsertion

/-- The latest of the events made the state, and its order is live. -/
def Agrees (state : Option BundleReplacementState) (events : List Event) (sent : List SinkCall) : Prop :=
  ∃ latest, LatestWins.IsLatest (fun e : Event => e.sequenceNumber.toNat) events latest ∧
    state = latest.map Event.state ∧ follow none sent = some (latest.bind Event.order)

theorem Agrees.act {state : Option BundleReplacementState} {events : List Event}
    {sent : List SinkCall} (h : Agrees state events sent) (event : Event) :
    Agrees (some (event.act state).1) (events ++ [event]) (sent ++ (event.act state).2) := by
  obtain ⟨latest, hlatest, rfl, hfollow⟩ := h
  have hnext := follow_act latest event
  cases latest with
  | none =>
    refine ⟨some event, hlatest.replace fun e he => (by cases he), rfl, ?_⟩
    rw [follow_append, hfollow]
    exact hnext
  | some l =>
    rw [map_some]
    by_cases hle : event.sequenceNumber ≤ l.state.sequenceNumber
    · rw [Event.act_ignored hle, append_nil]
      rw [Event.sequenceNumber_state] at hle
      exact ⟨some l, hlatest.keep hle, rfl, hfollow⟩
    rw [Event.act_later hle]
    rw [Event.sequenceNumber_state] at hle
    refine ⟨some event, hlatest.replace fun e he => ?_, rfl, ?_⟩
    · cases he
      exact Nat.le_of_not_le hle
    · rw [follow_append, hfollow]
      exact hnext

theorem Call.eventOf_eq_some {key : OrderReplacementKey} {call : Call} :
    call.eventOf key = some event ↔ call.keyAndEvent = some (key, event) := by
  unfold Call.eventOf
  cases call.keyAndEvent with
  | none => simp
  | some entry =>
    obtain ⟨k, e⟩ := entry
    by_cases hkey : k = key
    · simp [hkey]
    · simp [hkey]

section Runs

variable {σ : Type} (sink : OrderSink σ) {key : OrderReplacementKey}

/-- A call without an event of the key leaves the state of the key. -/
theorem Call.lookup_of_other {call : Call}
    (h : call.eventOf key = none) (m : OrderReplacementManager σ) :
    (call.sent sink m).2.replacementStates.lookup key = m.replacementStates.lookup key := by
  cases hcall : call.keyAndEvent with
  | none => rw [Call.states_of_no_event sink m hcall]
  | some entry =>
    obtain ⟨k, e⟩ := entry
    have hne : key ≠ k := by
      rintro rfl
      rw [Call.eventOf_eq_some.mpr hcall] at h
      cases h
    rw [Call.sent_of_event sink m hcall]
    exact AList.lookup_insert_ne hne

theorem runCalls_agrees (key : OrderReplacementKey) (calls : List Call)
    (m : OrderReplacementManager σ) {events : List Event} {sent : List SinkCall}
    (h : Agrees (m.replacementStates.lookup key) events sent) :
    Agrees ((runCalls sink calls m).2.replacementStates.lookup key) (events ++ eventsOf key calls)
      (sent ++ sentFor key (runCalls sink calls m).1) := by
  induction calls generalizing m events sent with
  | nil =>
    change Agrees _ (events ++ []) (sent ++ [])
    rwa [append_nil, append_nil]
  | cons call calls ih =>
    cases hevent : call.eventOf key with
    | none =>
      have hrest := ih (call.sent sink m).2
        (by rwa [Call.lookup_of_other sink hevent] : Agrees _ events sent)
      rw [eventsOf, filterMap_cons_none hevent, sentFor, runCalls,
        filter_cons_of_neg (by simp [hevent])]
      exact hrest
    | some event =>
      have hcall := Call.eventOf_eq_some.mp hevent
      have hstep : Agrees ((call.sent sink m).2.replacementStates.lookup key)
          (events ++ [event]) (sent ++ (call.sent sink m).1) := by
        rw [Call.sent_of_event sink m hcall]
        rw [AList.lookup_insert]
        exact h.act event
      have hrest := ih (call.sent sink m).2 hstep
      rw [append_assoc, append_assoc] at hrest
      rw [eventsOf, filterMap_cons_some hevent, sentFor, runCalls,
        filter_cons_of_pos (by simp [hevent]), flatMap_cons]
      exact hrest

/-- For every sink and every sequence of calls, and for each key: inserts and removes of its
    orders take turns. Where the sequence numbers of its events are distinct, the order of the
    event with the highest one is live, and none where that is a cancellation; so it is for
    every arrival of the same events. -/
theorem replacements_resolve_by_sequence_number (s : σ) (calls : List Call)
    (key : OrderReplacementKey) :
    ∃ live, follow none (sentFor key (runCalls sink calls (.new s)).1) = some live ∧
      (LatestWins.DistinctStamps (fun e : Event => e.sequenceNumber.toNat) (eventsOf key calls) →
        (∀ event ∈ eventsOf key calls,
          (∀ e ∈ eventsOf key calls, e.sequenceNumber ≤ event.sequenceNumber) →
            live = event.order) ∧
        (eventsOf key calls = [] → live = none) ∧
        ∀ calls', (eventsOf key calls').Perm (eventsOf key calls) →
          follow none (sentFor key (runCalls sink calls' (.new s)).1) = some live) := by
  have hrun (calls : List Call) : ∃ latest,
      LatestWins.IsLatest (fun e : Event => e.sequenceNumber.toNat) (eventsOf key calls) latest ∧
        follow none (sentFor key (runCalls sink calls (.new s)).1) =
          some (latest.bind Event.order) := by
    obtain ⟨latest, hlatest, -, hfollow⟩ := runCalls_agrees sink key calls (.new s)
      (⟨none, .nil, rfl, rfl⟩ : Agrees _ [] [])
    exact ⟨latest, hlatest, hfollow⟩
  obtain ⟨latest, hlatest, hfollow⟩ := hrun calls
  refine ⟨_, hfollow, fun hdistinct => ⟨?_, ?_, ?_⟩⟩
  · intro event hmem hmax
    have heq : latest = some event := hlatest.eq hdistinct ⟨hmem, hmax⟩
    rw [heq]
    rfl
  · intro hempty
    have heq : latest = none := hlatest.eq hdistinct hempty
    rw [heq]
    rfl
  · intro calls' hperm
    obtain ⟨latest', hlatest', hfollow'⟩ := hrun calls'
    rw [hfollow', hlatest.eq hdistinct (hlatest'.perm hperm)]

/-! ## Cancelling share bundles -/

/-- After an event with the highest number there is, nothing is sent for the key. -/
theorem sentFor_of_highest (calls : List Call) (m : OrderReplacementManager σ)
    (h : m.replacementStates.lookup key = some state)
    (hmax : state.sequenceNumber = sbundleSequenceNumber) :
    sentFor key (runCalls sink calls m).1 = [] := by
  induction calls generalizing m with
  | nil => rfl
  | cons call calls ih =>
    cases hevent : call.eventOf key with
    | none =>
      rw [sentFor, runCalls, filter_cons_of_neg (by simp [hevent])]
      exact ih _ ((Call.lookup_of_other sink hevent m).trans h)
    | some event =>
      have hle : event.sequenceNumber ≤ state.sequenceNumber := by
        rw [hmax]
        exact Nat.le_of_lt_succ event.sequenceNumber.toNat_lt
      have hsent := Call.sent_of_event sink m (Call.eventOf_eq_some.mp hevent)
      rw [h, Event.act_ignored hle] at hsent
      rw [sentFor, runCalls, filter_cons_of_pos (by simp [hevent]), flatMap_cons, hsent]
      exact ih _ (AList.lookup_insert _)

/-- Before the first cancellation of a key its events are inserts. -/
theorem isSome_of_mem_eventsOf {key : ShareBundleReplacementKey} {calls : List Call}
    (hfirst : .removeSbundle key ∉ calls)
    (h : event ∈ eventsOf (.shareBundle key) calls) : event.order.isSome := by
  obtain ⟨call, hmem, hevent⟩ := mem_filterMap.mp h
  have hcall := Call.eventOf_eq_some.mp hevent
  cases call with
  | insertOrder order =>
    obtain ⟨⟨key', seq⟩, -, heq⟩ := map_eq_some_iff.mp hcall
    cases heq
    rfl
  | removeBundle data => cases hcall
  | removeSbundle key' =>
    cases hcall
    exact absurd hmem hfirst

/-- After the calls `before`, the first cancellation of a share bundle and any calls `after`: no
    order of the key is live, and none is sent again, exactly if none came before with the
    highest number there is. -/
theorem sbundle_cancellation_final_iff (s : σ) (before after : List Call)
    (key : ShareBundleReplacementKey) (hfirst : .removeSbundle key ∉ before) :
    (let run := runCalls sink before (.new s)
      let cancelled := (Call.removeSbundle key).sent sink run.2
      follow none (sentFor (.shareBundle key) run.1 ++ cancelled.1) = some none ∧
        sentFor (.shareBundle key) (runCalls sink after cancelled.2).1 = []) ↔
      ∀ event ∈ eventsOf (.shareBundle key) before, event.sequenceNumber ≠ sbundleSequenceNumber := by
  obtain ⟨latest, hlatest, hstate, hfollow⟩ := runCalls_agrees sink (.shareBundle key) before (.new s)
    (⟨none, .nil, rfl, rfl⟩ : Agrees _ [] [])
  rw [nil_append] at hlatest hfollow
  dsimp only
  rw [Call.sent_of_event sink _ rfl, hstate, follow_append, hfollow, bind_some]
  have hcancel := follow_act latest ⟨sbundleSequenceNumber, none⟩
  cases latest with
  | none =>
    have hempty : eventsOf (.shareBundle key) before = [] := hlatest
    rw [hempty]
    refine iff_of_true ⟨rfl, ?_⟩ (fun _ he => absurd he not_mem_nil)
    exact sentFor_of_highest sink after _ (AList.lookup_insert _) rfl
  | some event =>
    obtain ⟨hmem, hmax⟩ := hlatest
    rw [map_some]
    by_cases hle : sbundleSequenceNumber ≤ event.state.sequenceNumber
    · -- the cancellation is ignored, and the order stays live
      obtain ⟨order, horder⟩ := isSome_iff_exists.mp (isSome_of_mem_eventsOf hfirst hmem)
      rw [Event.act_ignored hle]
      rw [Event.sequenceNumber_state] at hle
      refine iff_of_false ?_ fun hbelow => hbelow event hmem (UInt64.le_antisymm ?_ hle)
      · simp [horder, follow]
      · exact Nat.le_of_lt_succ event.sequenceNumber.toNat_lt
    rw [Event.act_later hle]
    rw [Event.sequenceNumber_state] at hle
    refine iff_of_true ⟨hcancel, ?_⟩ fun other hother heq => hle ?_
    · exact sentFor_of_highest sink after _ (AList.lookup_insert _) rfl
    · rw [← heq]
      exact hmax other hother

end Runs

/-! ### Example -/

def exampleKey : BundleReplacementKey := ⟨⟨Vector.replicate 16 7, none⟩⟩

/-- A bundle that replaces what has a lower sequence number. -/
def replacing (seq : UInt64) : Order :=
  .bundle (Vector.replicate 16 seq.toUInt8) (some ⟨exampleKey, seq⟩)
    { block := none, minTimestamp := none, maxTimestamp := none, txs := [], revertingTxHashes := [],
      droppingTxHashes := [], refund := none }

/-- A sink that takes every order. -/
def acceptingSink : OrderSink Unit where
  insertOrder _ s := (true, s)
  removeOrder _ s := (true, s)

/-- The cancellation arrives before the order that it cancels, and last a late order: the one
    of the highest sequence number stays live. -/
theorem replacements_resolve_by_sequence_number_late :
    follow none (sentFor (.bundle exampleKey) (runCalls acceptingSink
      [.removeBundle ⟨exampleKey, 2⟩, .insertOrder (replacing 1), .insertOrder (replacing 4),
        .insertOrder (replacing 3)] (.new ())).1) = some (some (replacing 4)) := by
  obtain ⟨live, hfollow, hresolved⟩ := replacements_resolve_by_sequence_number acceptingSink ()
    [.removeBundle ⟨exampleKey, 2⟩, .insertOrder (replacing 1), .insertOrder (replacing 4),
      .insertOrder (replacing 3)] (.bundle exampleKey)
  have hevents : eventsOf (.bundle exampleKey) [.removeBundle ⟨exampleKey, 2⟩,
      .insertOrder (replacing 1), .insertOrder (replacing 4), .insertOrder (replacing 3)] =
      [⟨2, none⟩, ⟨1, some (replacing 1)⟩, ⟨4, some (replacing 4)⟩, ⟨3, some (replacing 3)⟩] := rfl
  rw [hevents] at hresolved
  have hdistinct : LatestWins.DistinctStamps (fun e : Event => e.sequenceNumber.toNat)
      [⟨2, none⟩, ⟨1, some (replacing 1)⟩, ⟨4, some (replacing 4)⟩, ⟨3, some (replacing 3)⟩] := by
    have hnodup : (map (fun e : Event => e.sequenceNumber.toNat)
        [⟨2, none⟩, ⟨1, some (replacing 1)⟩, ⟨4, some (replacing 4)⟩,
          ⟨3, some (replacing 3)⟩]).Nodup := by decide
    exact fun e he d hd heq => inj_on_of_nodup_map hnodup he hd heq
  have hmax := (hresolved hdistinct).1 ⟨4, some (replacing 4)⟩ (by simp) (by simp)
  rw [hfollow, hmax]

def exampleShareKey : ShareBundleReplacementKey := ⟨⟨Vector.replicate 16 7, none⟩⟩

/-- A share bundle with the sequence number `seq`. -/
def replacingShare (seq : UInt64) : Order :=
  .shareBundle (Vector.replicate 32 seq.toUInt8) (some ⟨exampleShareKey, seq⟩)
    ⟨7, 7, .mk [] [] [] false none⟩

/-- A share bundle with the highest number there is stays live after its cancellation. -/
theorem sbundle_survives_cancellation :
    follow none (sentFor (.shareBundle exampleShareKey) (runCalls acceptingSink
      [.insertOrder (replacingShare 0xFFFFFFFFFFFFFFFF), .removeSbundle exampleShareKey]
        (.new ())).1) = some (some (replacingShare 0xFFFFFFFFFFFFFFFF)) := rfl

theorem sbundle_cancellation_final_iff_low :
    follow none (sentFor (.shareBundle exampleShareKey) (runCalls acceptingSink
        [.insertOrder (replacingShare 1)] (.new ())).1 ++ [.remove (replacingShare 1).id]) = some none ∧
      sentFor (.shareBundle exampleShareKey) (runCalls acceptingSink [.insertOrder (replacingShare 2)]
        (runCalls acceptingSink [.insertOrder (replacingShare 1), .removeSbundle exampleShareKey]
          (.new ())).2).1 = [] :=
  (sbundle_cancellation_final_iff acceptingSink () [.insertOrder (replacingShare 1)]
    [.insertOrder (replacingShare 2)] exampleShareKey (by simp)).mpr (by
      intro event hmem
      obtain rfl : event = ⟨1, some (replacingShare 1)⟩ := mem_singleton.mp hmem
      decide)

end OrderInput
