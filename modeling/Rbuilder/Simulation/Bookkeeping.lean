/-
  The bookkeeping of the tree of simulations is exact.

  `Exact` says that the counter of a pending order is the number of the lists that have its id.
  Each step keeps it (`Exact.pushOrder`, `Exact.processResult`), hence every run does, and an
  order that leaves the pending ones is requested once.
-/
import Rbuilder.Simulation.NonceState

namespace Simulation

open Building (OrderId)
open OrderInput (Order)
open AList List

variable {ε : Type}

namespace SimTree

/-- The ids that wait for the key. -/
def listed (tree : SimTree) (key : NonceKey) : List OrderId :=
  (tree.pendingNonces.lookup key).getD []

/-- The pending order waits for the keys it needs, and is counted once for each of them. -/
structure Waits (env : Env ε) (tree : SimTree) (id : OrderId) (pending : PendingOrder) : Prop where
  ownId : pending.order.id = id
  counted : ∃ keys, needs env pending.order = .ok (some keys) ∧
    pending.unsatisfiedNonces = (tree.waiting keys).length ∧
    ∀ key, id ∈ tree.listed key ↔ key ∈ tree.waiting keys
  positive : 0 < pending.unsatisfiedNonces

structure Exact (env : Env ε) (tree : SimTree) : Prop where
  simsKept : tree.SimsKept
  waits : ∀ id pending, tree.pendingOrders.lookup id = some pending → Waits env tree id pending
  listedPending : ∀ key, ∀ id ∈ tree.listed key, id ∈ tree.pendingOrders
  listedOnce : ∀ key, (tree.listed key).Nodup
  noBug : tree.bugs = []

theorem exact_new (env : Env ε) : Exact env {} where
  simsKept := by
    intro key simId h
    cases h
  waits := by
    intro id pending h
    cases h
  listedPending := by
    intro key id h
    cases h
  listedOnce _ := nodup_nil
  noBug := rfl

theorem listed_of_lookup {tree : SimTree} {key : NonceKey} {ids : List OrderId}
    (h : tree.pendingNonces.lookup key = some ids) : tree.listed key = ids := by
  rw [listed, h, Option.getD_some]

variable {env : Env ε} {tree tree' : SimTree} {key : NonceKey} {id : OrderId} {keys : List NonceKey}
  {order : Order} {pending : PendingOrder} {result : SimulatedResult} {ready : List Order}

theorem Exact.key_fresh (h : Exact env tree)
    (hid : id ∈ tree.listed key) : key ∉ tree.simsThatUpdateOneNonce := by
  obtain ⟨pending, hpending⟩ := exists_lookup (h.listedPending key id hid)
  obtain ⟨keys, -, -, hlisted⟩ := (h.waits id pending hpending).counted
  exact (mem_waiting.mp ((hlisted key).mp hid)).2

theorem Exact.listed_eq_nil (h : Exact env tree)
    (hkey : key ∈ tree.simsThatUpdateOneNonce) : tree.listed key = [] :=
  eq_nil_iff_forall_not_mem.mpr fun _ hid => h.key_fresh hid hkey

/-- The number of lists that have the id. -/
def listCount (tree : SimTree) (id : OrderId) : Nat :=
  tree.pendingNonces.entries.countP fun entry => id ∈ entry.2

theorem listCount_eq (hnodup : keys.Nodup)
    (h : ∀ key, id ∈ tree.listed key ↔ key ∈ keys) : tree.listCount id = keys.length := by
  have hkeys : ((tree.pendingNonces.entries.filter fun entry => id ∈ entry.2).map Sigma.fst).Perm
      keys := by
    have hfst : (tree.pendingNonces.entries.map Sigma.fst).Nodup := tree.pendingNonces.nodupKeys
    refine (perm_ext_iff_of_nodup
      ((filter_sublist.map Sigma.fst).nodup hfst) hnodup).mpr fun key => ?_
    rw [← h key]
    unfold listed
    constructor
    · intro hmem
      obtain ⟨entry, hentry, rfl⟩ := mem_map.mp hmem
      obtain ⟨hentry, hid⟩ := mem_filter.mp hentry
      rw [mem_lookup_iff.mpr hentry]
      exact of_decide_eq_true hid
    intro hid
    cases hlookup : tree.pendingNonces.lookup key with
    | none => rw [hlookup] at hid; cases hid
    | some ids =>
      rw [hlookup] at hid
      exact mem_map.mpr ⟨⟨key, ids⟩, mem_filter.mpr
        ⟨mem_lookup_iff.mp hlookup, decide_eq_true hid⟩, rfl⟩
  rw [listCount, countP_eq_length_filter, ← hkeys.length_eq, length_map]

/-! ## A push -/

/-- The lists after the id is put on those of the keys; nothing else changes. -/
theorem pushPendingNonces_eq (id : OrderId) (keys : List NonceKey) (hnodup : keys.Nodup)
    (tree : SimTree) :
    ∃ lists, keys.foldl (pushPendingNonce id) tree = { tree with pendingNonces := lists } ∧
      ∀ key, (lists.lookup key).getD [] =
        if key ∈ keys then tree.listed key ++ [id] else tree.listed key := by
  induction keys generalizing tree with
  | nil => exact ⟨_, rfl, fun _ => rfl⟩
  | cons key keys ih =>
    obtain ⟨hhead, htail⟩ := nodup_cons.mp hnodup
    obtain ⟨lists, heq, hlists⟩ := ih htail (pushPendingNonce id tree key)
    refine ⟨lists, heq, fun key' => ?_⟩
    have hstep : (pushPendingNonce id tree key).listed key' =
        if key' = key then tree.listed key ++ [id] else tree.listed key' :=
      getD_lookup_insert ..
    rw [hlists key', hstep]
    by_cases hkey : key' = key
    · subst hkey
      rw [if_neg hhead, if_pos rfl, if_pos mem_cons_self]
    · simp only [mem_cons, hkey, false_or, if_false]

/-- The tree with the order pending on the keys. -/
structure PendsOn (tree tree' : SimTree) (order : Order) (keys : List NonceKey) : Prop where
  sims : tree'.sims = tree.sims
  simsThatUpdateOneNonce : tree'.simsThatUpdateOneNonce = tree.simsThatUpdateOneNonce
  pendingOrders : tree'.pendingOrders = tree.pendingOrders.insert order.id ⟨order, keys.length⟩
  listed : ∀ key, tree'.listed key =
    if key ∈ keys then tree.listed key ++ [order.id] else tree.listed key
  readyOrders : tree'.readyOrders = tree.readyOrders
  bugs : tree'.bugs = tree.bugs

/-- All that a push can do. -/
inductive PushOutcome (env : Env ε) (tree : SimTree) (order : Order) :
    Except (Failure ε) Unit × SimTree → Prop where
  | alreadyPending : order.id ∈ tree.pendingOrders → PushOutcome env tree order (.ok (), tree)
  | providerError (e : ε) : needs env order = .error e →
      PushOutcome env tree order (.error (.provider e), tree)
  | invalid : needs env order = .ok none → PushOutcome env tree order (.ok (), tree)
  | pends (keys : List NonceKey) (tree' : SimTree) : order.id ∉ tree.pendingOrders →
      needs env order = .ok (some keys) → tree.waiting keys ≠ [] →
      PendsOn tree tree' order (tree.waiting keys) → PushOutcome env tree order (.ok (), tree')
  | ready (keys : List NonceKey) : order.id ∉ tree.pendingOrders →
      needs env order = .ok (some keys) → tree.waiting keys = [] →
      PushOutcome env tree order (.ok (), tree.pushReady env order (tree.parentsOf keys))

theorem pushOrder_outcome (env : Env ε) (hsims : tree.SimsKept) (order : Order) :
    PushOutcome env tree order (tree.pushOrder env order) := by
  unfold pushOrder
  by_cases hpending : order.id ∈ tree.pendingOrders
  · rw [if_pos hpending]
    exact .alreadyPending hpending
  rw [if_neg hpending, getOrderNonceState_eq hsims]
  cases hneeds : needs env order with
  | error e => exact .providerError e hneeds
  | ok needed =>
    cases needed with
    | none => exact .invalid hneeds
    | some keys =>
      by_cases hwaiting : tree.waiting keys = []
      · simp only [stateOf, hwaiting, isEmpty_nil, if_true]
        exact .ready keys hpending hneeds hwaiting
      have hne : ¬ (tree.waiting keys).isEmpty = true := by simpa using hwaiting
      simp only [stateOf, if_neg hne]
      obtain ⟨lists, heq, hlists⟩ := pushPendingNonces_eq order.id (tree.waiting keys)
        ((nodup_of_needs hneeds).filter _) tree
      rw [heq]
      exact .pends keys _ hpending hneeds hwaiting ⟨rfl, rfl, rfl, hlists, rfl, rfl⟩

theorem Exact.pendsOn (h : Exact env tree) (hfresh : order.id ∉ tree.pendingOrders)
    (hneeds : needs env order = .ok (some keys)) (hwaiting : tree.waiting keys ≠ [])
    (hpends : PendsOn tree tree' order (tree.waiting keys)) : Exact env tree' := by
  have hunlisted (key : NonceKey) : order.id ∉ tree.listed key := fun hid =>
    hfresh (h.listedPending key _ hid)
  have hsame (keys : List NonceKey) : tree'.waiting keys = tree.waiting keys := by
    rw [waiting, waiting, hpends.simsThatUpdateOneNonce]
  have hlisted {id : OrderId} {key : NonceKey} (hid : id ∈ tree'.listed key) :
      id ∈ tree.listed key ∨ key ∈ tree.waiting keys ∧ id = order.id := by
    rw [hpends.listed] at hid
    split_ifs at hid with hkey
    · exact (mem_append.mp hid).imp_right fun hid => ⟨hkey, mem_singleton.mp hid⟩
    · exact .inl hid
  have hkept {id : OrderId} {key : NonceKey} (hid : id ∈ tree.listed key) :
      id ∈ tree'.listed key := by
    rw [hpends.listed]
    split_ifs
    · exact mem_append_left _ hid
    · exact hid
  refine ⟨?_, ?_, ?_, ?_, by rw [hpends.bugs, h.noBug]⟩
  · intro key simId hlookup
    rw [hpends.simsThatUpdateOneNonce] at hlookup
    rw [hpends.sims]
    exact h.simsKept key simId hlookup
  · intro id pending hlookup
    rw [hpends.pendingOrders] at hlookup
    by_cases hid : id = order.id
    · -- the new order is listed for just the keys it waits for
      subst hid
      rw [lookup_insert] at hlookup
      cases hlookup
      refine ⟨rfl, ⟨keys, hneeds, by rw [hsame], fun key => ?_⟩, length_pos_iff.mpr hwaiting⟩
      rw [hsame]
      constructor
      · exact fun hid => (hlisted hid).elim (fun hid => absurd hid (hunlisted key)) And.left
      · intro hkey
        rw [hpends.listed, if_pos hkey]
        exact mem_append_right _ (mem_singleton_self _)
    · rw [lookup_insert_ne hid] at hlookup
      obtain ⟨hown, ⟨keys', hneeds', hcount, hkeys'⟩, hpos⟩ := h.waits id pending hlookup
      refine ⟨hown, ⟨keys', hneeds', by rw [hsame, hcount], fun key => ?_⟩, hpos⟩
      rw [hsame, ← hkeys' key]
      exact ⟨fun hmem => (hlisted hmem).elim (fun hmem => hmem) fun hnew => absurd hnew.2 hid, hkept⟩
  · intro key id hid
    rw [hpends.pendingOrders, mem_insert]
    exact (hlisted hid).symm.imp And.right (h.listedPending key id)
  · intro key
    rw [hpends.listed]
    split_ifs
    · exact nodup_append.mpr ⟨h.listedOnce key, nodup_singleton _, fun id hid id' hid' heq =>
        hunlisted key (by rw [← mem_singleton.mp hid', ← heq]; exact hid)⟩
    · exact h.listedOnce key

/-- The requests do not matter. -/
theorem Exact.setReady (h : Exact env tree) (readyOrders : List SimulationRequest) (drawn : Nat) :
    Exact env { tree with readyOrders, drawn } :=
  ⟨h.simsKept, fun id pending hlookup =>
    let w := h.waits id pending hlookup
    ⟨w.ownId, w.counted, w.positive⟩, h.listedPending, h.listedOnce, h.noBug⟩

theorem Exact.pushOrder (h : Exact env tree) (order : Order) :
    Exact env (tree.pushOrder env order).2 := by
  have houtcome := pushOrder_outcome env h.simsKept order
  generalize tree.pushOrder env order = out at houtcome
  cases houtcome with
  | alreadyPending _ | providerError _ _ | invalid _ => exact h
  | pends keys tree' hfresh hneeds hwaiting hpends => exact h.pendsOn hfresh hneeds hwaiting hpends
  | ready keys _ _ _ => exact h.setReady ..

/-! ## A result -/

/-- What is left pending once one more nonce is satisfied. -/
def satisfied (pending : PendingOrder) : Option PendingOrder :=
  if pending.unsatisfiedNonces = 1 then none
  else some ⟨pending.order, pending.unsatisfiedNonces - 1⟩

/-- The order of the id, if it waits for one nonce only. -/
def lastNonce (tree : SimTree) (id : OrderId) : Option Order :=
  (tree.pendingOrders.lookup id).bind fun pending =>
    if pending.unsatisfiedNonces = 1 then some pending.order else none

theorem satisfyNonce_eq (hpending : tree.pendingOrders.lookup id = some pending)
    (hpos : 0 < pending.unsatisfiedNonces) (ready : List Order) :
    ∃ orders, satisfyNonce (tree, ready) id =
        ({ tree with pendingOrders := orders }, ready ++ (tree.lastNonce id).toList) ∧
      ∀ id', orders.lookup id' =
        if id' = id then satisfied pending else tree.pendingOrders.lookup id' := by
  obtain ⟨n, hn⟩ := Nat.exists_eq_add_of_lt hpos
  have hdecrement : decrement pending.unsatisfiedNonces = pending.unsatisfiedNonces - 1 := by
    rw [hn]
    rfl
  unfold satisfyNonce lastNonce satisfied
  simp only [hpending, hdecrement, Option.bind_some]
  by_cases hone : pending.unsatisfiedNonces = 1
  · refine ⟨tree.pendingOrders.erase id, by simp [hone], fun id' => ?_⟩
    rw [lookup_erase_eq_ite, if_pos hone]
  · have hne : pending.unsatisfiedNonces - 1 ≠ 0 := by omega
    refine ⟨_, by rw [if_neg hne, if_neg hone, Option.toList_none, append_nil], fun id' => ?_⟩
    rw [lookup_insert_eq_ite, if_neg hone]

theorem satisfyNonces_eq (ids : List OrderId) (hnodup : ids.Nodup) (tree : SimTree)
    (hpos : ∀ id ∈ ids, ∃ pending, tree.pendingOrders.lookup id = some pending ∧
      0 < pending.unsatisfiedNonces) (ready : List Order) :
    ∃ orders, ids.foldl satisfyNonce (tree, ready) =
        ({ tree with pendingOrders := orders }, ready ++ ids.filterMap tree.lastNonce) ∧
      ∀ id, orders.lookup id =
        if id ∈ ids then (tree.pendingOrders.lookup id).bind satisfied
        else tree.pendingOrders.lookup id := by
  induction ids generalizing tree ready with
  | nil => exact ⟨tree.pendingOrders, by simp, fun _ => rfl⟩
  | cons id ids ih =>
    obtain ⟨hhead, htail⟩ := nodup_cons.mp hnodup
    obtain ⟨pending, hpending, hcount⟩ := hpos id mem_cons_self
    obtain ⟨orders, hstep, horders⟩ := satisfyNonce_eq hpending hcount ready
    -- the entries of the other ids are as before
    have hother {id' : OrderId} (hid' : id' ∈ ids) :
        orders.lookup id' = tree.pendingOrders.lookup id' := by
      have hne : id' ≠ id := by
        rintro rfl
        exact hhead hid'
      rw [horders id', if_neg hne]
    obtain ⟨orders', hrest, horders'⟩ := ih htail { tree with pendingOrders := orders }
      (fun id' hid' => by
        obtain ⟨pending', hpending', hcount'⟩ := hpos id' (mem_cons_of_mem _ hid')
        exact ⟨pending', (hother hid').trans hpending', hcount'⟩)
      (ready ++ (tree.lastNonce id).toList)
    refine ⟨orders', ?_, fun id' => ?_⟩
    · have hlast : ids.filterMap ({ tree with pendingOrders := orders } : SimTree).lastNonce =
          ids.filterMap tree.lastNonce :=
        filterMap_congr fun id' hid' => by
          unfold lastNonce
          rw [hother hid']
      rw [foldl_cons, hstep, hrest, hlast, append_assoc]
      cases hlastNonce : tree.lastNonce id with
      | none | some order => simp [hlastNonce]
    rw [horders' id']
    by_cases hid : id' = id
    · subst hid
      rw [if_neg hhead, if_pos mem_cons_self, hpending]
      exact (horders id').trans (if_pos rfl)
    · simp only [mem_cons, hid, false_or]
      rw [show (lookup id' ({ tree with pendingOrders := orders } : SimTree).pendingOrders) =
        tree.pendingOrders.lookup id' from (horders id').trans (if_neg hid)]

theorem requestReady_all (orders : List Order) (tree : SimTree) (hsims : tree.SimsKept)
    (hready : ∀ order ∈ orders, ∃ keys, needs env order = .ok (some keys) ∧ tree.waiting keys = []) :
    ∃ requests drawn, forEach (requestReady env) orders tree =
        (.ok (), { tree with readyOrders := tree.readyOrders ++ requests, drawn := drawn }) ∧
      requests.map SimulationRequest.order = orders := by
  induction orders generalizing tree with
  | nil => exact ⟨[], tree.drawn, by simp [forEach], rfl⟩
  | cons order orders ih =>
    obtain ⟨keys, hneeds, hwaiting⟩ := hready order mem_cons_self
    have hstep : requestReady env tree order =
        (.ok (), tree.pushReady env order (tree.parentsOf keys)) := by
      unfold requestReady
      rw [getOrderNonceState_eq hsims, hneeds]
      simp [stateOf, hwaiting]
    obtain ⟨requests, drawn, hrest, horders⟩ :=
      ih (tree.pushReady env order (tree.parentsOf keys)) hsims fun o ho =>
        hready o (mem_cons_of_mem _ ho)
    refine ⟨⟨env.random tree.drawn, order, tree.parentsOf keys⟩ :: requests, drawn, ?_, ?_⟩
    · rw [forEach, hstep]
      dsimp only
      rw [hrest]
      simp [SimTree.pushReady]
    · rw [map_cons, horders]

/-- The orders that wait for the nonce of the result. -/
def released (tree : SimTree) (result : SimulatedResult) : List OrderId :=
  match result.noncesAfter with
  | [key] => tree.listed key
  | _ => []

/-- The tree once the result has its nonce, and the orders that are ready. -/
structure Recorded (tree tree' : SimTree) (result : SimulatedResult) (ready : List Order) :
    Prop where
  simsKept : tree'.SimsKept
  updated : ∀ key, key ∈ tree'.simsThatUpdateOneNonce ↔
    key ∈ tree.simsThatUpdateOneNonce ∨ result.noncesAfter = [key]
  pendingOrders : ∀ id, tree'.pendingOrders.lookup id =
    if id ∈ tree.released result then (tree.pendingOrders.lookup id).bind satisfied
    else tree.pendingOrders.lookup id
  listed : ∀ key, tree'.listed key = if result.noncesAfter = [key] then [] else tree.listed key
  ready : ready = (tree.released result).filterMap tree.lastNonce
  readyOrders : tree'.readyOrders = tree.readyOrders
  bugs : tree'.bugs = tree.bugs

theorem SimsKept.insert_sim (h : tree.SimsKept) (result : SimulatedResult) :
    SimsKept { tree with sims := tree.sims.insert result.id result } := fun key simId hlookup =>
  (mem_insert _).mpr (.inr (h key simId hlookup))

theorem SimsKept.insert_key (h : tree.SimsKept) (key : NonceKey)
    {simId : SimulationId} (hsim : simId ∈ tree.sims) :
    SimsKept { tree with
      simsThatUpdateOneNonce := tree.simsThatUpdateOneNonce.insert key simId } := by
  intro key' simId' hlookup
  obtain ⟨-, rfl⟩ | ⟨-, hlookup⟩ := lookup_insert_eq_some hlookup
  · exact hsim
  · exact h key' simId' hlookup

/-- A result that does not take a nonce changes nothing but the results. -/
theorem recorded_unchanged (h : Exact env tree)
    (result : SimulatedResult) (tree' : SimTree) (hkept : tree'.SimsKept)
    (hupdated : ∀ key, key ∈ tree'.simsThatUpdateOneNonce ↔ key ∈ tree.simsThatUpdateOneNonce)
    (hpending : tree'.pendingOrders = tree.pendingOrders)
    (hlists : tree'.pendingNonces = tree.pendingNonces)
    (hready : tree'.readyOrders = tree.readyOrders) (hbugs : tree'.bugs = tree.bugs)
    (hold : ∀ key, result.noncesAfter = [key] → key ∈ tree.simsThatUpdateOneNonce) :
    Recorded tree tree' result [] := by
  have hreleased : tree.released result = [] := by
    unfold released
    split
    · next key hkey => exact h.listed_eq_nil (hold key hkey)
    · rfl
  refine ⟨hkept, fun key => ?_, fun id => ?_, fun key => ?_, ?_, hready, hbugs⟩
  · rw [hupdated key]
    exact ⟨.inl, fun hor => hor.elim (fun hmem => hmem) (hold key)⟩
  · rw [hreleased, hpending, if_neg not_mem_nil]
  · unfold listed
    rw [hlists]
    split_ifs with hkey
    · exact h.listed_eq_nil (hold key hkey)
    · rfl
  · rw [hreleased]
    rfl

/-- A result that takes a new nonce, whose list is removed. -/
theorem recorded_new (h : Exact env tree) (hkey : result.noncesAfter = [key])
    (lists : AList fun _ : NonceKey => List OrderId)
    (hlists : ∀ key', (lists.lookup key').getD [] = if key' = key then [] else tree.listed key')
    (orders : AList fun _ : OrderId => PendingOrder) (horders : ∀ id, orders.lookup id =
      if id ∈ tree.listed key then (tree.pendingOrders.lookup id).bind satisfied
      else tree.pendingOrders.lookup id) :
    Recorded tree { tree with
        sims := tree.sims.insert result.id result
        simsThatUpdateOneNonce := tree.simsThatUpdateOneNonce.insert key result.id
        pendingNonces := lists
        pendingOrders := orders }
      result ((tree.listed key).filterMap tree.lastNonce) := by
  have hreleased : tree.released result = tree.listed key := by
    unfold released
    rw [hkey]
  refine ⟨?_, fun key' => ?_, fun id => ?_, fun key' => ?_, by rw [hreleased], rfl, rfl⟩
  · exact (h.simsKept.insert_sim result).insert_key key ((mem_insert _).mpr (.inl rfl))
  · rw [mem_insert, hkey, singleton_inj, or_comm, eq_comm]
  · rw [hreleased]
    exact horders id
  · refine (hlists key').trans ?_
    simp only [hkey, cons.injEq, and_true, eq_comm]

theorem recordResult_outcome (h : Exact env tree) (result : SimulatedResult) :
    ∃ tree' ready,
      recordResult { tree with sims := tree.sims.insert result.id result } result =
        some (tree', ready) ∧ Recorded tree tree' result ready := by
  have hkept := h.simsKept.insert_sim result
  unfold recordResult
  split
  · next key hkey =>
    cases hlookup : tree.simsThatUpdateOneNonce.lookup key with
    | some simId =>
      have hmem : key ∈ tree.simsThatUpdateOneNonce := mem_of_lookup hlookup
      have hold (key' : NonceKey) (hkey' : result.noncesAfter = [key']) :
          key' ∈ tree.simsThatUpdateOneNonce := by
        rw [hkey, singleton_inj] at hkey'
        exact hkey' ▸ hmem
      obtain ⟨sim, hsim⟩ := exists_lookup (hkept key simId hlookup)
      simp only [hsim]
      split_ifs
      · refine ⟨_, _, rfl, recorded_unchanged h result _ ?_ (fun key' => ?_) rfl rfl rfl rfl hold⟩
        · exact hkept.insert_key key ((mem_insert _).mpr (.inl rfl))
        · rw [mem_insert]
          exact ⟨fun hor => hor.elim (fun heq => heq ▸ hmem) fun hmem' => hmem', .inr⟩
      · exact ⟨_, _, rfl, recorded_unchanged h result _ hkept (fun _ => Iff.rfl) rfl rfl rfl rfl hold⟩
    | none =>
      dsimp only
      cases hids : tree.pendingNonces.lookup key with
      | none =>
        have hlisted : tree.listed key = [] := by
          unfold listed
          rw [hids]
          rfl
        refine ⟨_, [], rfl, ?_⟩
        have hrecorded := recorded_new h hkey tree.pendingNonces (fun key' => ?_)
          tree.pendingOrders fun id => by rw [hlisted, if_neg not_mem_nil]
        · rwa [hlisted] at hrecorded
        · split_ifs with heq
          · exact heq ▸ hlisted
          · rfl
      | some ids =>
        have hlisted := listed_of_lookup hids
        dsimp only
        obtain ⟨orders, hfold, horders⟩ := satisfyNonces_eq ids (hlisted ▸ h.listedOnce key)
          { tree with
            sims := tree.sims.insert result.id result
            simsThatUpdateOneNonce := tree.simsThatUpdateOneNonce.insert key result.id
            pendingNonces := tree.pendingNonces.erase key }
          (fun id hid => by
            obtain ⟨pending, hpending⟩ := exists_lookup
              (h.listedPending key id (hlisted ▸ hid))
            exact ⟨pending, hpending, (h.waits id pending hpending).positive⟩) []
        rw [hfold]
        refine ⟨_, _, rfl, ?_⟩
        have hrecorded := recorded_new h hkey (tree.pendingNonces.erase key) (fun key' => ?_)
          orders (hlisted ▸ horders)
        · rw [hlisted] at hrecorded
          exact hrecorded
        rw [lookup_erase_eq_ite]
        split_ifs <;> rfl
  · next hne =>
    exact ⟨_, _, rfl, recorded_unchanged h result _ hkept (fun _ => Iff.rfl) rfl rfl rfl rfl
      fun key hkey => absurd hkey (hne key)⟩

section

variable (h : Recorded tree tree' result ready)
include h

theorem Recorded.waiting_eq (keys : List NonceKey) :
    tree'.waiting keys = (tree.waiting keys).filter fun key => result.noncesAfter ≠ [key] := by
  unfold waiting
  rw [filter_filter]
  refine filter_congr fun key _ => ?_
  rw [← Bool.decide_and, decide_eq_decide, h.updated key, not_or, and_comm]

/-- An order that waits for the nonce of the result waits for one nonce less. -/
theorem Recorded.waiting_released
    (hkey : result.noncesAfter = [key])
    (hneeds : needs env order = .ok (some keys)) (hmem : key ∈ tree.waiting keys) :
    (tree'.waiting keys).length = (tree.waiting keys).length - 1 := by
  have hnodup : (tree.waiting keys).Nodup := (nodup_of_needs hneeds).filter _
  have herase : tree'.waiting keys = (tree.waiting keys).erase key := by
    rw [h.waiting_eq, hnodup.erase_eq_filter]
    refine filter_congr fun key' _ => ?_
    rw [hkey]
    by_cases heq : key = key'
    · simp [heq]
    · simp [heq, Ne.symm heq]
  rw [herase, length_erase_of_mem hmem]

/-- An order that does not wait for it waits for the same nonces. -/
theorem Recorded.waiting_kept
    (hkeys : ∀ key ∈ tree.waiting keys, result.noncesAfter ≠ [key]) :
    tree'.waiting keys = tree.waiting keys := by
  rw [h.waiting_eq]
  exact filter_eq_self.mpr fun key hkey => decide_eq_true (hkeys key hkey)

end

theorem mem_released :
    id ∈ tree.released result ↔ ∃ key, result.noncesAfter = [key] ∧ id ∈ tree.listed key := by
  unfold released
  split
  · next key hkey =>
    constructor
    · exact fun hid => ⟨key, hkey, hid⟩
    · rintro ⟨key', hkey', hid⟩
      rw [hkey, singleton_inj] at hkey'
      exact hkey' ▸ hid
  · next hne => exact ⟨fun hid => absurd hid not_mem_nil, fun ⟨key, hkey, _⟩ => absurd hkey (hne key)⟩

theorem Exact.recorded (h : Exact env tree) (hrec : Recorded tree tree' result ready) :
    Exact env tree' := by
  have hlisted {id : OrderId} {key : NonceKey} :
      id ∈ tree'.listed key ↔ result.noncesAfter ≠ [key] ∧ id ∈ tree.listed key := by
    rw [hrec.listed key]
    split_ifs with hkey
    · simp [hkey]
    · exact ⟨fun hid => ⟨hkey, hid⟩, And.right⟩
  have hnewWaiting {keys : List NonceKey} {key : NonceKey} :
      key ∈ tree'.waiting keys ↔ result.noncesAfter ≠ [key] ∧ key ∈ tree.waiting keys := by
    rw [hrec.waiting_eq, mem_filter, decide_eq_true_eq, and_comm]
  refine ⟨hrec.simsKept, ?_, ?_, ?_, by rw [hrec.bugs, h.noBug]⟩
  · intro id pending' hlookup
    rw [hrec.pendingOrders id] at hlookup
    split_ifs at hlookup with hreleased
    · obtain ⟨pending, hpending, hsatisfied⟩ := Option.bind_eq_some_iff.mp hlookup
      obtain ⟨hown, ⟨keys, hneeds, hcount, hkeys⟩, hpos⟩ := h.waits id pending hpending
      unfold satisfied at hsatisfied
      split_ifs at hsatisfied with hone
      cases hsatisfied
      obtain ⟨key, hkey, hid⟩ := mem_released.mp hreleased
      refine ⟨hown, ⟨keys, hneeds, ?_, fun key' => ?_⟩, by dsimp only; omega⟩
      · rw [hrec.waiting_released hkey hneeds ((hkeys key).mp hid), ← hcount]
      · rw [hlisted, hnewWaiting, hkeys key']
    obtain ⟨hown, ⟨keys, hneeds, hcount, hkeys⟩, hpos⟩ := h.waits id pending' hlookup
    refine ⟨hown, ⟨keys, hneeds, ?_, fun key' => ?_⟩, hpos⟩
    · rw [hrec.waiting_kept fun key hkey hnonces =>
        hreleased (mem_released.mpr ⟨key, hnonces, (hkeys key).mpr hkey⟩), hcount]
    · rw [hlisted, hnewWaiting, hkeys key']
  · intro key id hid
    obtain ⟨hkey, hid⟩ := hlisted.mp hid
    obtain ⟨pending, hpending⟩ := exists_lookup (h.listedPending key id hid)
    obtain ⟨-, ⟨keys, hneeds, hcount, hkeys⟩, -⟩ := h.waits id pending hpending
    refine lookup_isSome.mp ?_
    rw [hrec.pendingOrders id, hpending]
    split_ifs with hreleased
    · -- the order waits for two nonces, that of the result and this one
      obtain ⟨key', hkey', hid'⟩ := mem_released.mp hreleased
      have hne : pending.unsatisfiedNonces ≠ 1 := by
        intro hone
        rw [hcount, length_eq_one_iff] at hone
        obtain ⟨only, honly⟩ := hone
        have hfirst := (hkeys key).mp hid
        have hsecond := (hkeys key').mp hid'
        rw [honly, mem_singleton] at hfirst hsecond
        exact hkey (by rw [hkey', hfirst, hsecond])
      rw [Option.bind_some, satisfied, if_neg hne]
      rfl
    · rfl
  · intro key
    rw [hrec.listed key]
    split_ifs
    · exact nodup_nil
    · exact h.listedOnce key

/-- The orders that are ready wait for nothing. -/
theorem Recorded.ready_waiting (h : Exact env tree) (hrec : Recorded tree tree' result ready) :
    ∀ order ∈ ready, (∃ id n, tree.pendingOrders.lookup id = some ⟨order, n⟩) ∧
      ∃ keys, needs env order = .ok (some keys) ∧ tree'.waiting keys = [] := by
  intro order horder
  rw [hrec.ready] at horder
  obtain ⟨id, hid, hlast⟩ := mem_filterMap.mp horder
  obtain ⟨pending, hpending, hone⟩ := Option.bind_eq_some_iff.mp hlast
  split_ifs at hone with hone'
  cases hone
  obtain ⟨key, hkey, hid⟩ := mem_released.mp hid
  obtain ⟨keys, hneeds, hcount, hkeys⟩ := (h.waits id pending hpending).counted
  refine ⟨⟨id, _, hpending⟩, keys, hneeds, length_eq_zero_iff.mp ?_⟩
  rw [hrec.waiting_released hkey hneeds ((hkeys key).mp hid), ← hcount, hone']

/-- All that a result can do: it does not fail, and each order that waits for just its nonce is
    requested. -/
theorem processResult_outcome (h : Exact env tree) (result : SimulatedResult) :
    ∃ tree' requests, tree.processSimulationTaskResult env result =
        (.ok (), { tree' with readyOrders := tree.readyOrders ++ requests }) ∧
      Recorded tree tree' result (requests.map SimulationRequest.order) := by
  obtain ⟨tree₁, ready, hrecord, hrec⟩ := recordResult_outcome h result
  obtain ⟨requests, drawn, hrequests, horders⟩ := requestReady_all ready tree₁ hrec.simsKept
    fun order horder => (hrec.ready_waiting h order horder).2
  refine ⟨{ tree₁ with drawn := drawn }, requests, ?_, ?_⟩
  · unfold processSimulationTaskResult
    dsimp only
    rw [hrecord]
    dsimp only
    rw [hrequests, hrec.readyOrders]
  · rw [horders]
    exact { hrec with }

theorem Exact.processResult (h : Exact env tree)
    (result : SimulatedResult) : Exact env (tree.processSimulationTaskResult env result).2 := by
  obtain ⟨tree', requests, hresult, hrec⟩ := processResult_outcome h result
  rw [hresult]
  exact (h.recorded hrec).setReady ..

/-! ## Runs -/

/-- The steps of the calls. -/
inductive Op where
  | pushOrder (order : Order)
  | pop (limit : Nat)
  | processResult (result : SimulatedResult)

def Op.run (env : Env ε) (tree : SimTree) : Op → Except (Failure ε) Unit × SimTree
  | .pushOrder order => tree.pushOrder env order
  | .pop limit => (.ok (), (tree.popSimulationTasks limit).2)
  | .processResult result => tree.processSimulationTaskResult env result

def treeAfter (env : Env ε) (ops : List Op) : SimTree :=
  ops.foldl (fun tree op => (op.run env tree).2) {}

inductive Call where
  | pushOrders (orders : List Order)
  | popSimulationTasks (limit : Nat)
  | submitSimulationTasksResults (results : List SimulatedResult)

def Call.run (env : Env ε) (tree : SimTree) : Call → Except (Failure ε) Unit × SimTree
  | .pushOrders orders => tree.pushOrders env orders
  | .popSimulationTasks limit => (.ok (), (tree.popSimulationTasks limit).2)
  | .submitSimulationTasksResults results => tree.submitSimulationTasksResults env results

theorem treeAfter_append (env : Env ε) (ops more : List Op) :
    treeAfter env (ops ++ more) =
      more.foldl (fun tree op => (op.run env tree).2) (treeAfter env ops) := by
  unfold treeAfter
  rw [foldl_append]

theorem Exact.pop (h : Exact env tree) (limit : Nat) :
    Exact env (tree.popSimulationTasks limit).2 := h.setReady ..

theorem Exact.run (h : Exact env tree) (op : Op) : Exact env (op.run env tree).2 := by
  cases op with
  | pushOrder order => exact h.pushOrder order
  | pop limit => exact h.pop limit
  | processResult result => exact h.processResult result

theorem exact_treeAfter (env : Env ε) (ops : List Op) : Exact env (treeAfter env ops) := by
  have hrun (tree : SimTree) (h : Exact env tree) :
      Exact env (ops.foldl (fun tree op => (op.run env tree).2) tree) := by
    induction ops generalizing tree with
    | nil => exact h
    | cons op ops ih => exact ih _ (h.run op)
  exact hrun {} (exact_new env)

theorem Exact.pushOrder_no_panic (h : Exact env tree)
    (order : Order) : (tree.pushOrder env order).1 ≠ .error .panic := by
  have houtcome := pushOrder_outcome env h.simsKept order
  generalize tree.pushOrder env order = out at houtcome
  cases houtcome <;> simp

theorem Exact.processResult_ok (h : Exact env tree)
    (result : SimulatedResult) : (tree.processSimulationTaskResult env result).1 = .ok () := by
  obtain ⟨tree', requests, hresult, -⟩ := processResult_outcome h result
  rw [hresult]

theorem Exact.submit (h : Exact env tree) (results : List SimulatedResult) :
    (tree.submitSimulationTasksResults env results).1 = .ok () ∧
      Exact env (tree.submitSimulationTasksResults env results).2 := by
  unfold submitSimulationTasksResults
  induction results generalizing tree with
  | nil => exact ⟨rfl, h⟩
  | cons result results ih =>
    have hok := h.processResult_ok result
    have hexact := h.processResult result
    unfold forEach
    generalize tree.processSimulationTaskResult env result = out at hok hexact
    obtain ⟨out, tree'⟩ := out
    subst hok
    exact ih hexact

theorem pushOrders_singleton (env : Env ε) (tree : SimTree) (order : Order) :
    tree.pushOrders env [order] = tree.pushOrder env order := by
  unfold pushOrders forEach
  generalize tree.pushOrder env order = out
  obtain ⟨out, tree'⟩ := out
  cases out with
  | error e | ok u => rfl

/-- A call is a run of steps, none of which panics. -/
theorem call_eq_steps (env : Env ε) (ops : List Op) (call : Call) :
    (call.run env (treeAfter env ops)).1 ≠ .error .panic ∧
      ∃ more, (call.run env (treeAfter env ops)).2 = treeAfter env (ops ++ more) := by
  have hloop {α : Type} (op : α → Op)
      (hpanic : ∀ tree a, Exact env tree → ((op a).run env tree).1 ≠ .error .panic) (l : List α) :
      (forEach (fun tree a => (op a).run env tree) l (treeAfter env ops)).1 ≠ .error .panic ∧
        ∃ more, (forEach (fun tree a => (op a).run env tree) l (treeAfter env ops)).2 =
          treeAfter env (ops ++ more) := by
    induction l generalizing ops with
    | nil => exact ⟨by simp [forEach], [], by simp [forEach]⟩
    | cons a l ih =>
      have hstep : ((op a).run env (treeAfter env ops)).2 = treeAfter env (ops ++ [op a]) := by
        rw [treeAfter_append]
        rfl
      have hnot := hpanic _ a (exact_treeAfter env ops)
      unfold forEach
      generalize (op a).run env (treeAfter env ops) = out at hstep hnot
      obtain ⟨_ | _, _⟩ := out <;> subst hstep
      · exact ⟨hnot, [op a], rfl⟩
      · obtain ⟨hok, more, hmore⟩ := ih (ops ++ [op a])
        exact ⟨hok, op a :: more, by rw [hmore, append_assoc, singleton_append]⟩
  cases call with
  | pushOrders orders =>
    exact hloop .pushOrder (fun _ order h => h.pushOrder_no_panic order) orders
  | popSimulationTasks limit =>
    exact ⟨by simp [Call.run], [.pop limit], by rw [treeAfter_append]; rfl⟩
  | submitSimulationTasksResults results =>
    refine hloop .processResult (fun tree result h => ?_) results
    rw [Op.run, h.processResult_ok result]
    simp

/-- The orders of the requests that a step puts at the end of the ready ones. -/
def AddsRequests (tree tree' : SimTree) (orders : List Order) : Prop :=
  ∃ requests, tree'.readyOrders = tree.readyOrders ++ requests ∧
    requests.map SimulationRequest.order = orders

theorem filter_filterMap_id (f : OrderId → Option Order)
    (hf : ∀ id order, f id = some order → order.id = id) (ids : List OrderId)
    (hnodup : ids.Nodup) (hid : id ∈ ids) :
    (ids.filterMap f).filter (fun order => order.id = id) = (f id).toList := by
  induction ids with
  | nil => cases hid
  | cons id' ids ih =>
    obtain ⟨hhead, htail⟩ := nodup_cons.mp hnodup
    by_cases heq : id = id'
    · subst heq
      -- the other ids give orders of other ids
      have hrest : (ids.filterMap f).filter (fun order => order.id = id) = [] := by
        refine filter_eq_nil_iff.mpr fun order horder => ?_
        obtain ⟨other, hother, hsome⟩ := mem_filterMap.mp horder
        rw [decide_eq_true_eq, hf other order hsome]
        rintro rfl
        exact hhead hother
      cases hsome : f id with
      | none => simp [hsome, hrest]
      | some order => simp [hsome, hrest, hf id order hsome]
    · have hmem := (mem_cons.mp hid).resolve_left heq
      rw [← ih htail hmem]
      cases hsome : f id' with
      | none => simp [hsome]
      | some order => simp [hsome, hf id' order hsome, Ne.symm heq]

section

variable (h : Exact env tree)
include h

theorem Exact.lastNonce_id
    (hlast : tree.lastNonce id = some order) : order.id = id := by
  obtain ⟨pending, hpending, hsome⟩ := Option.bind_eq_some_iff.mp hlast
  split_ifs at hsome
  cases hsome
  exact (h.waits id pending hpending).ownId

theorem Exact.nodup_released
    (result : SimulatedResult) : (tree.released result).Nodup := by
  unfold released
  split
  · exact h.listedOnce _
  · exact nodup_nil

/-- An order that a result makes leave the pending ones is requested once. -/
theorem Exact.leaves_by_request (result : SimulatedResult)
    (hpending : tree.pendingOrders.lookup id = some pending) :
    (∃ n, (tree.processSimulationTaskResult env result).2.pendingOrders.lookup id =
        some ⟨pending.order, n⟩) ∨
      (tree.processSimulationTaskResult env result).2.pendingOrders.lookup id = none ∧
        ∃ orders, AddsRequests tree (tree.processSimulationTaskResult env result).2 orders ∧
          orders.filter (fun order => order.id = id) = [pending.order] := by
  obtain ⟨tree', requests, hresult, hrec⟩ := processResult_outcome h result
  rw [hresult]
  rw [hrec.pendingOrders id, hpending]
  split_ifs with hreleased
  · rw [Option.bind_some, satisfied]
    split_ifs with hone
    · refine .inr ⟨rfl, _, ⟨requests, rfl, rfl⟩, ?_⟩
      rw [hrec.ready, filter_filterMap_id tree.lastNonce (fun _ _ => h.lastNonce_id) _
        (h.nodup_released result) hreleased]
      simp [lastNonce, hpending, hone]
    · exact .inl ⟨_, rfl⟩
  · exact .inl ⟨_, rfl⟩

theorem Exact.push_not_lost
    (hnew : order.id ∉ tree.pendingOrders) (hvalid : ¬ BelowChain env order)
    (hok : (tree.pushOrder env order).1 = .ok ()) :
    (∃ n, (tree.pushOrder env order).2.pendingOrders =
        tree.pendingOrders.insert order.id ⟨order, n⟩ ∧
        AddsRequests tree (tree.pushOrder env order).2 []) ∨
      (tree.pushOrder env order).2.pendingOrders = tree.pendingOrders ∧
        AddsRequests tree (tree.pushOrder env order).2 [order] := by
  have houtcome := pushOrder_outcome env h.simsKept order
  generalize tree.pushOrder env order = out at houtcome hok ⊢
  cases houtcome with
  | alreadyPending hpending => exact absurd hpending hnew
  | providerError e _ => cases hok
  | invalid hneeds => exact absurd (belowChain_of_needs hneeds) hvalid
  | pends keys tree' _ _ _ hpends =>
    exact .inl ⟨_, hpends.pendingOrders, [], by rw [hpends.readyOrders, append_nil], rfl⟩
  | ready keys _ _ _ => exact .inr ⟨rfl, _, rfl, rfl⟩

/-- A pending order stays, or leaves by one request. -/
theorem Exact.step_not_lost (op : Op)
    (hpending : tree.pendingOrders.lookup id = some pending) :
    (∃ n, (op.run env tree).2.pendingOrders.lookup id = some ⟨pending.order, n⟩) ∨
      (op.run env tree).2.pendingOrders.lookup id = none ∧
        ∃ orders, AddsRequests tree (op.run env tree).2 orders ∧
          orders.filter (fun order => order.id = id) = [pending.order] := by
  cases op with
  | pop limit => exact .inl ⟨_, hpending⟩
  | processResult result => exact h.leaves_by_request result hpending
  | pushOrder order =>
    left
    unfold Op.run
    dsimp only
    have houtcome := pushOrder_outcome env h.simsKept order
    generalize tree.pushOrder env order = out at houtcome
    cases houtcome with
    | alreadyPending _ | providerError _ _ | invalid _ | ready _ _ _ _ => exact ⟨_, hpending⟩
    | pends keys tree' hnew _ _ hpends =>
      have hne : id ≠ order.id := by
        rintro rfl
        exact hnew (mem_of_lookup hpending)
      exact ⟨_, by rw [hpends.pendingOrders, lookup_insert_ne hne, hpending]⟩

end

/-- The bookkeeping is exact after any steps of any calls: the counters and the lists agree, no
    call panics or meets a bug, and no order is lost. -/
theorem nonce_bookkeeping_exact (env : Env ε) (ops : List Op) :
    (∀ id pending, (treeAfter env ops).pendingOrders.lookup id = some pending →
      0 < pending.unsatisfiedNonces ∧
        pending.unsatisfiedNonces = (treeAfter env ops).listCount id) ∧
    (∀ key ids, (treeAfter env ops).pendingNonces.lookup key = some ids → ∀ id ∈ ids,
      id ∈ (treeAfter env ops).pendingOrders ∧ ids.count id = 1 ∧
        key ∉ (treeAfter env ops).simsThatUpdateOneNonce) ∧
    (treeAfter env ops).bugs = [] ∧
    (∀ call : Call, (call.run env (treeAfter env ops)).1 ≠ .error .panic ∧
      ∃ more, (call.run env (treeAfter env ops)).2 = treeAfter env (ops ++ more)) ∧
    (∀ order, order.id ∉ (treeAfter env ops).pendingOrders → ¬ BelowChain env order →
      ((treeAfter env ops).pushOrder env order).1 = .ok () →
      (∃ n, ((treeAfter env ops).pushOrder env order).2.pendingOrders =
          (treeAfter env ops).pendingOrders.insert order.id ⟨order, n⟩ ∧
          AddsRequests (treeAfter env ops) ((treeAfter env ops).pushOrder env order).2 []) ∨
        ((treeAfter env ops).pushOrder env order).2.pendingOrders = (treeAfter env ops).pendingOrders ∧
          AddsRequests (treeAfter env ops) ((treeAfter env ops).pushOrder env order).2 [order]) ∧
    (∀ op id pending, (treeAfter env ops).pendingOrders.lookup id = some pending →
      (∃ n, (treeAfter env (ops ++ [op])).pendingOrders.lookup id = some ⟨pending.order, n⟩) ∨
        (treeAfter env (ops ++ [op])).pendingOrders.lookup id = none ∧
          ∃ orders, AddsRequests (treeAfter env ops) (treeAfter env (ops ++ [op])) orders ∧
            orders.filter (fun order => order.id = id) = [pending.order]) := by
  have h := exact_treeAfter env ops
  refine ⟨fun id pending hpending => ?_, fun key ids hids id hid => ?_, h.noBug, call_eq_steps env ops,
    fun order hnew hvalid hok => h.push_not_lost hnew hvalid hok, fun op id pending hpending => ?_⟩
  · obtain ⟨-, ⟨keys, hneeds, hcount, hkeys⟩, hpos⟩ := h.waits id pending hpending
    exact ⟨hpos, hcount.trans (listCount_eq ((nodup_of_needs hneeds).filter _) hkeys).symm⟩
  · rw [← listed_of_lookup hids] at hid ⊢
    exact ⟨h.listedPending key id hid, List.count_eq_one_of_mem (h.listedOnce key) hid, h.key_fresh hid⟩
  · rw [treeAfter_append]
    exact h.step_not_lost op hpending

end SimTree

end Simulation
