/-
  What a `ShareBundleMerger` sends downstream.

  The orders that are live at the sink are those that cannot be broken down, and for each
  hash of a user's bundle one bundle merged from the live orders of that hash. It does not
  matter how the merger came to its live orders.

  A step keeps that the plain merger holds the live orders (`Tracks`); the merger itself
  stands for a plain one in every run.
-/
import Rbuilder.BlockOrders.Downstream
import Rbuilder.Building.AllOrNothing
import Rbuilder.Simulation.Job

namespace BlockOrders.Merging

open SparseMpt
open Building (OrderId)
open Simulation.SimulationJob (Alternates)
open List Option Function

/-! ## Histories -/

theorem Alternates.of_append {kinds more : List Bool} (h : Alternates (kinds ++ more)) :
    Alternates kinds := by
  refine ⟨(isChain_append.mp h.1).1, ?_⟩
  cases kinds with
  | nil => simp
  | cons kind kinds => exact h.2

theorem Alternates.last_of_true {kinds : List Bool} (h : Alternates (kinds ++ [true])) :
    kinds.getLast? ≠ some true := by
  intro hlast
  exact (isChain_append.mp h.1).2.2 true hlast true rfl rfl

theorem Alternates.last_of_false {kinds : List Bool} (h : Alternates (kinds ++ [false])) :
    kinds.getLast? = some true := by
  cases hlast : kinds.getLast? with
  | none =>
    rw [getLast?_eq_none_iff] at hlast
    subst hlast
    exact absurd rfl h.2
  | some kind =>
    have hne := (isChain_append.mp h.1).2.2 kind hlast false rfl
    cases kind with
    | false => exact absurd rfl hne
    | true => rfl

section

variable (id : OrderId) (calls : List SinkCall)

theorem kindsOf_append (c : SinkCall) :
    kindsOf id (calls ++ [c]) =
      if c.id = id then kindsOf id calls ++ [c.isInsert] else kindsOf id calls := by
  unfold kindsOf
  by_cases hid : c.id = id
  · simp [hid]
  · simp [hid]

theorem kindsOf_insertOrder (order : SimulatedOrder) :
    kindsOf id (calls ++ [.insertOrder order]) =
      if order.id = id then kindsOf id calls ++ [true] else kindsOf id calls :=
  kindsOf_append id calls (.insertOrder order)

theorem kindsOf_removeOrder (id' : OrderId) :
    kindsOf id (calls ++ [.removeOrder id']) =
      if id' = id then kindsOf id calls ++ [false] else kindsOf id calls :=
  kindsOf_append id calls (.removeOrder id')

end

/-- The hash does not depend on the simulation. -/
theorem userBundleHash_eq_of_order_eq (keccak : Bytes → B256) {a b : SimulatedOrder}
    (h : a.order = b.order) :
    (breakDownBundle keccak a).map BrokenDownShareBundle.userBundleHash =
      (breakDownBundle keccak b).map BrokenDownShareBundle.userBundleHash := by
  unfold breakDownBundle
  rw [h]
  split
  · split
    · rfl
    · unfold breakDownUserTxBundle
      split_ifs <;> rfl
    unfold breakDownBackrunBundle
    split
    · rfl
    · split_ifs <;> rfl
  · rfl

/-- Orders with the same id are the same, but perhaps for the simulation. -/
def SameOrder (orders : List SimulatedOrder) : Prop :=
  ∀ a ∈ orders, ∀ b ∈ orders, a.id = b.id → a.order = b.order

/-- The merger holds the live orders, and their merged bundles are live downstream. -/
structure Tracks {α : Type} (keccak : Bytes → B256) (view : SimulatedOrder → α)
    (calls : List SinkCall) (plain : PlainMerger) (sent : List SinkCall) : Prop where
  nodup : ((liveAfter calls).map SimulatedOrder.id).Nodup
  live : ∀ id, (kindsOf id calls).getLast? = some true ↔ ∃ o ∈ liveAfter calls, o.id = id
  groups : ∀ hash, (plain.group hash).Holds keccak (ordersOf keccak hash (liveAfter calls))
  routes : ∀ id hash, plain.routes id = some hash ↔ ∃ o ∈ inserted calls, o.id = id ∧
    (breakDownBundle keccak o).map BrokenDownShareBundle.userBundleHash = some hash
  down : viewed (tag view) (liveAfter sent) = expected keccak (tag view) (liveAfter calls)

section Steps

variable {α : Type} {keccak : Bytes → B256} {view : SimulatedOrder → α}
  {calls sent : List SinkCall} {plain : PlainMerger}

theorem tracks_nil : Tracks keccak view [] {} [] where
  nodup := nodup_nil
  live id := by simp [kindsOf, liveAfter]
  groups hash := MultiBackrunManager.holds_new hash 0
  routes id hash := by simp [inserted]
  down := rfl

theorem Tracks.insertOrder (h : Tracks keccak view calls plain sent) {order : SimulatedOrder}
    (hkinds : Alternates (kindsOf order.id (calls ++ [.insertOrder order])))
    (horders : SameOrder (inserted (calls ++ [.insertOrder order])))
    (hsame : SameView view (inserted sent)) :
    Tracks keccak view (calls ++ [.insertOrder order]) (plain.insertOrder keccak order).1
      (sent ++ (plain.insertOrder keccak order).2) := by
  have hlive : liveAfter (calls ++ [.insertOrder order]) = order :: liveAfter calls :=
    liveAfter_append ..
  have hinserted : inserted (calls ++ [.insertOrder order]) = inserted calls ++ [order] :=
    filterMap_append
  have hnotLive : ¬∃ o ∈ liveAfter calls, o.id = order.id := by
    rw [← h.live]
    apply Alternates.last_of_true
    rw [kindsOf_insertOrder, if_pos rfl] at hkinds
    exact hkinds
  have hnodup : ((order :: liveAfter calls).map SimulatedOrder.id).Nodup :=
    nodup_cons.mpr ⟨fun hmem => hnotLive (mem_map.mp hmem), h.nodup⟩
  have hids : ∀ id, (kindsOf id (calls ++ [.insertOrder order])).getLast? = some true ↔
      ∃ o ∈ order :: liveAfter calls, o.id = id := by
    intro id
    rw [kindsOf_insertOrder]
    by_cases hid : order.id = id
    · rw [if_pos hid, getLast?_concat]
      exact iff_of_true rfl ⟨order, mem_cons_self, hid⟩
    · rw [if_neg hid, h.live id]
      simp [hid]
  cases hbroken : breakDownBundle keccak order with
  | none =>
    have hplain : plain.insertOrder keccak order = (plain, [.insertOrder order]) := by
      simp only [PlainMerger.insertOrder, hbroken]
    rw [hplain]
    refine ⟨hlive ▸ hnodup, hlive ▸ hids, fun hash => ?_, fun id hash => ?_, ?_⟩
    · rw [hlive, ordersOf_cons_none keccak hbroken]
      exact h.groups hash
    · rw [h.routes, hinserted]
      simp [or_and_right, exists_or, hbroken]
    · rw [hlive, liveAfter_append, expected_cons_none hbroken, ← h.down]
      exact viewed_cons order (liveAfter sent)
  | some b =>
    have hplain : plain.insertOrder keccak order =
        ((plain.setGroup b.userBundleHash
          ((plain.group b.userBundleHash).insertOrder keccak b).1).setRoute
          order.id b.userBundleHash, ((plain.group b.userBundleHash).insertOrder keccak b).2) := by
      simp only [PlainMerger.insertOrder, hbroken]
    have horders' : ordersOf keccak b.userBundleHash (order :: liveAfter calls) =
        b :: ordersOf keccak b.userBundleHash (liveAfter calls) := by
      rw [ordersOf_cons_some keccak hbroken, if_pos rfl]
    have hmergeable : Mergeable (b :: ordersOf keccak b.userBundleHash (liveAfter calls)) :=
      horders' ▸ mergeable_ordersOf hnodup b.userBundleHash
    obtain ⟨hholds, hsent⟩ := (h.groups b.userBundleHash).insertOrder hmergeable
    rw [hplain]
    refine ⟨hlive ▸ hnodup, hlive ▸ hids, fun hash => ?_, fun id hash => ?_, ?_⟩
    · rw [hlive]
      change ((plain.setGroup ..).group hash).Holds ..
      rw [PlainMerger.group_setGroup]
      by_cases heq : hash = b.userBundleHash
      · rw [if_pos heq, heq, horders']
        exact hholds
      · rw [if_neg heq, ordersOf_cons_some keccak hbroken, if_neg (Ne.symm heq)]
        exact h.groups hash
    · rw [hinserted]
      change update plain.routes order.id _ id = some hash ↔ _
      by_cases hid : id = order.id
      · subst hid
        rw [update_self]
        constructor
        · intro hhash
          exact ⟨order, mem_append_right _ (mem_singleton.mpr rfl), rfl, hbroken ▸ hhash⟩
        rintro ⟨o, ho, hid, hhash⟩
        -- an earlier order of the id is the same order
        have heq := horders o (hinserted ▸ ho) order
          (hinserted ▸ mem_append_right _ (mem_singleton.mpr rfl)) hid
        rw [userBundleHash_eq_of_order_eq keccak heq, hbroken] at hhash
        exact hhash
      · rw [update_of_ne hid, h.routes]
        simp [or_and_right, exists_or, Ne.symm hid]
    · rw [hlive, hsent, expected_eq hnodup b.userBundleHash, expectedBut_cons hbroken, horders']
      exact map_liveAfter_resend hsame (h.down.trans (expected_eq h.nodup b.userBundleHash))

theorem Tracks.removeOrder (h : Tracks keccak view calls plain sent) {id : OrderId}
    (hkinds : Alternates (kindsOf id (calls ++ [.removeOrder id])))
    (horders : SameOrder (inserted calls)) (hsame : SameView view (inserted sent)) :
    Tracks keccak view (calls ++ [.removeOrder id]) (plain.removeOrder keccak id).1
      (sent ++ (plain.removeOrder keccak id).2) := by
  obtain ⟨order, horder, rfl⟩ : ∃ o ∈ liveAfter calls, o.id = id := by
    rw [← h.live]
    apply Alternates.last_of_false
    rw [kindsOf_removeOrder, if_pos rfl] at hkinds
    exact hkinds
  have hinserted : inserted (calls ++ [.removeOrder order.id]) = inserted calls := by
    simp [inserted, SinkCall.order?]
  have hmem := mem_inserted_of_mem_liveAfter horder
  have hperm := perm_eraseP h.nodup horder rfl
  have hlive : liveAfter (calls ++ [.removeOrder order.id]) =
      (liveAfter calls).eraseP fun o => o.id = order.id := liveAfter_append ..
  rw [← hlive] at hperm
  have hcons : ((order :: liveAfter (calls ++ [.removeOrder order.id])).map SimulatedOrder.id).Nodup :=
    (hperm.map _).nodup_iff.mp h.nodup
  obtain ⟨hnotMem, hnodup⟩ := nodup_cons.mp hcons
  have hids : ∀ id, (kindsOf id (calls ++ [.removeOrder order.id])).getLast? = some true ↔
      ∃ o ∈ liveAfter (calls ++ [.removeOrder order.id]), o.id = id := by
    intro id
    rw [kindsOf_removeOrder]
    by_cases hid : order.id = id
    · rw [if_pos hid, getLast?_concat]
      refine iff_of_false (by simp) fun ⟨o, ho, hoid⟩ => hnotMem ?_
      exact mem_map.mpr ⟨o, ho, hoid.trans hid.symm⟩
    · rw [if_neg hid, h.live id]
      simp [hperm.mem_iff, hid]
  -- the id has the hash of the order, and no other
  have hroute : plain.routes order.id =
      (breakDownBundle keccak order).map BrokenDownShareBundle.userBundleHash := by
    refine ext fun hash => ?_
    rw [h.routes]
    constructor
    · rintro ⟨o, ho, hid, hhash⟩
      rwa [userBundleHash_eq_of_order_eq keccak (horders o ho order hmem hid)] at hhash
    · exact fun hhash => ⟨order, hmem, rfl, hhash⟩
  have hroutes : ∀ id hash, plain.routes id = some hash ↔
      ∃ o ∈ inserted (calls ++ [.removeOrder order.id]), o.id = id ∧
        (breakDownBundle keccak o).map BrokenDownShareBundle.userBundleHash = some hash := by
    rw [hinserted]
    exact h.routes
  have hgroups := fun hash => (h.groups hash).perm (mergeable_ordersOf h.nodup hash)
    (ordersOf_perm hperm hash)
  have hdown := h.down.trans (expected_perm h.nodup hperm)
  cases hbroken : breakDownBundle keccak order with
  | none =>
    rw [hbroken] at hroute
    have hplain : plain.removeOrder keccak order.id = (plain, [.removeOrder order.id]) := by
      simp only [PlainMerger.removeOrder, hroute, map_none]
    rw [hplain]
    refine ⟨hnodup, hids, fun hash => ?_, hroutes, ?_⟩
    · rw [← ordersOf_cons_none keccak hbroken]
      exact hgroups hash
    rw [liveAfter_append]
    apply map_eraseP fun a ha b hb =>
      hsame a (mem_inserted_of_mem_liveAfter ha) b (mem_inserted_of_mem_liveAfter hb)
    rw [hdown, expected_cons_none hbroken]
  | some b =>
    rw [hbroken] at hroute
    have hplain : plain.removeOrder keccak order.id =
        (plain.setGroup b.userBundleHash
          ((plain.group b.userBundleHash).removeOrder keccak order.id).2.1,
          ((plain.group b.userBundleHash).removeOrder keccak order.id).2.2) := by
      simp only [PlainMerger.removeOrder, hroute, map_some]
    have hcons' := ordersOf_cons_some keccak hbroken b.userBundleHash
      (liveAfter (calls ++ [.removeOrder order.id]))
    rw [if_pos rfl] at hcons'
    have hgroup := hgroups b.userBundleHash
    rw [hcons'] at hgroup
    obtain ⟨hholds, hsent⟩ :=
      hgroup.removeOrder (hcons' ▸ mergeable_ordersOf hcons b.userBundleHash)
    rw [(breakDownBundle_eq_some hbroken).1] at hholds hsent
    rw [hplain]
    refine ⟨hnodup, hids, fun hash => ?_, hroutes, ?_⟩
    · rw [PlainMerger.group_setGroup]
      by_cases heq : hash = b.userBundleHash
      · rw [if_pos heq, heq]
        exact hholds
      rw [if_neg heq]
      have hother := ordersOf_cons_some keccak hbroken hash
        (liveAfter (calls ++ [.removeOrder order.id]))
      rw [if_neg (Ne.symm heq)] at hother
      exact hother ▸ hgroups hash
    · rw [expected_eq hcons b.userBundleHash, hcons', expectedBut_cons hbroken] at hdown
      rw [hsent, expected_eq hnodup b.userBundleHash]
      exact map_liveAfter_resend hsame hdown

end Steps

/-! ## Runs -/

/-- A merger at the first sink, and nothing else. -/
def start : World × ShareBundleMerger := ({ sinks := [[]] }, .new 0)

/-- The calls that the sink got. -/
def sentBy (env : Env) (calls : List SinkCall) : List SinkCall :=
  ((calls.foldl (ShareBundleMerger.call env) start).1.sinks[0]?).getD []

/-- `view` does not tell apart orders with the same id that the sink got. -/
structure History {α : Type} (env : Env) (view : SimulatedOrder → α) (calls : List SinkCall) :
    Prop where
  alternates : ∀ id, Alternates (kindsOf id calls)
  orders : SameOrder (inserted calls)
  sent : SameView view (inserted (sentBy env calls))

/-- The state after the calls stands for a plain merger that tracks them. -/
def Follows {α : Type} (env : Env) (view : SimulatedOrder → α) (calls : List SinkCall)
    (state : World × ShareBundleMerger) : Prop :=
  ∃ plain sent, Represents state.1 (only state.2) 0 plain ∧ state.1.sinks = [sent] ∧
    (∀ id, (plain none).routes id = none → state.2.orderId2MultiBackrunManagers.lookup id = none) ∧
    (SameView view (inserted sent) → Tracks env.keccak256 view calls (plain none) sent)

section Runs

variable {α : Type} {env : Env} {view : SimulatedOrder → α} {calls : List SinkCall}
  {state : World × ShareBundleMerger}

theorem follows_start : Follows env view [] start := by
  refine ⟨fun _ => {}, [], ⟨?_, ?_, ?_, ?_, ?_⟩, rfl, fun id _ => rfl, fun _ => tracks_nil⟩
  · intro k m hk
    rw [(only_eq_some_iff.mp hk).2]
    rfl
  · intro k m hash pointer hk hlookup
    rw [(only_eq_some_iff.mp hk).2] at hlookup
    cases hlookup
  · exact fun _ _ => rfl
  · intro k m hash k' m' hash' pointer hk hlookup
    rw [(only_eq_some_iff.mp hk).2] at hlookup
    cases hlookup
  · intro k m id hash hk hroute
    cases hroute

theorem inserted_subset (calls more : List SinkCall) : inserted calls ⊆ inserted (calls ++ more) := by
  unfold inserted
  rw [filterMap_append]
  exact subset_append_left ..

theorem SameView.of_append {sent more : List SinkCall}
    (h : SameView view (inserted (sent ++ more))) : SameView view (inserted sent) :=
  fun a ha b hb => h a (inserted_subset sent more ha) b (inserted_subset sent more hb)

theorem Follows.insertOrder (h : Follows env view calls state) {order : SimulatedOrder}
    (hkinds : Alternates (kindsOf order.id (calls ++ [.insertOrder order])))
    (horders : SameOrder (inserted (calls ++ [.insertOrder order]))) :
    Follows env view (calls ++ [.insertOrder order])
      (ShareBundleMerger.call env state (.insertOrder order)) := by
  obtain ⟨plain, sent, hrep, hsinks, hroutes, htracks⟩ := h
  obtain ⟨hrep', hstep⟩ := hrep.insertOrder (only_eq_some_iff.mpr ⟨rfl, rfl⟩) env order
  rw [update_only] at hrep'
  refine ⟨_, sent ++ ((plain none).insertOrder env.keccak256 order).2, hrep', ?_, ?_, ?_⟩
  · exact hstep.sinks.trans (by rw [hsinks]; rfl)
  · intro id hid
    rw [update_self, PlainMerger.routes_insertOrder] at hid
    split_ifs at hid with hcond
    · simp [isSome_iff_ne_none.mp hcond.2] at hid
    · refine (lookup_insertOrder fun heq => ?_).trans (hroutes id hid)
      exact not_isSome_iff_eq_none.mp fun hsome => hcond ⟨heq, hsome⟩
  · intro hsame
    exact (htracks hsame.of_append).insertOrder hkinds horders hsame.of_append

theorem Follows.removeOrder (h : Follows env view calls state) {id : OrderId}
    (hkinds : Alternates (kindsOf id (calls ++ [.removeOrder id])))
    (horders : SameOrder (inserted calls)) :
    Follows env view (calls ++ [.removeOrder id])
      (ShareBundleMerger.call env state (.removeOrder id)) := by
  obtain ⟨plain, sent, hrep, hsinks, hroutes, htracks⟩ := h
  obtain ⟨hrep', hstep⟩ := hrep.removeOrder (only_eq_some_iff.mpr ⟨rfl, rfl⟩) env (hroutes id)
  refine ⟨_, sent ++ ((plain none).removeOrder env.keccak256 id).2, hrep', ?_, ?_, ?_⟩
  · exact hstep.sinks.trans (by rw [hsinks]; rfl)
  · intro id' hid
    rw [update_self, PlainMerger.routes_removeOrder] at hid
    exact hroutes id' hid
  · intro hsame
    exact (htracks hsame.of_append).removeOrder hkinds horders hsame.of_append

theorem follows (halternates : ∀ id, Alternates (kindsOf id calls))
    (horders : SameOrder (inserted calls)) :
    Follows env view calls (calls.foldl (ShareBundleMerger.call env) start) := by
  induction calls using reverseRecOn with
  | nil => exact follows_start
  | append_singleton calls c ih =>
    rw [foldl_append]
    have hbefore : SameOrder (inserted calls) := fun a ha b hb =>
      horders a (inserted_subset calls [c] ha) b (inserted_subset calls [c] hb)
    have hih := ih (fun id => ?_) hbefore
    · cases c with
      | insertOrder order => exact hih.insertOrder (halternates order.id) horders
      | removeOrder id => exact hih.removeOrder (halternates id) hbefore
    have hkinds := halternates id
    rw [kindsOf_append] at hkinds
    split_ifs at hkinds
    · exact Alternates.of_append hkinds
    · exact hkinds

theorem History.tracks (h : History env view calls) :
    ∃ plain, Tracks env.keccak256 view calls plain (sentBy env calls) := by
  have hfollows : Follows env view calls (calls.foldl (ShareBundleMerger.call env) start) :=
    follows h.alternates h.orders
  obtain ⟨plain, sent, -, hsinks, -, htracks⟩ := hfollows
  have hsent : sentBy env calls = sent := by
    unfold sentBy
    rw [hsinks]
    rfl
  exact ⟨plain none, hsent ▸ htracks (hsent ▸ h.sent)⟩

theorem History.down (h : History env view calls) :
    viewed view (liveAfter (sentBy env calls)) = expected env.keccak256 view (liveAfter calls) := by
  obtain ⟨plain, htracks⟩ := h.tracks
  have hdown := congrArg (Multiset.map (Option.map Prod.snd)) htracks.down
  rw [map_viewed, map_expected] at hdown
  exact hdown

end Runs

/-- The orders live downstream are the live orders that cannot be broken down, and one bundle
    for each hash, merged from the live orders of the hash. -/
theorem downstream_depends_on_live_orders {α : Type} (env : Env) (view : SimulatedOrder → α)
    (calls : List SinkCall) (h : History env view calls) :
    (∃ merged : B256 → SimulatedOrder,
      (∀ hash ∈ hashesOf env.keccak256 (liveAfter calls),
        MergedFrom env.keccak256 (ordersOf env.keccak256 hash (liveAfter calls)) (merged hash)) ∧
      Multiset.map view (liveAfter (sentBy env calls)) =
        Multiset.map view (rejected env.keccak256 (liveAfter calls)) +
          (hashesOf env.keccak256 (liveAfter calls)).val.map fun hash => view (merged hash)) ∧
    ∀ calls', History env view calls' → (liveAfter calls').Perm (liveAfter calls) →
      Multiset.map view (liveAfter (sentBy env calls')) =
        Multiset.map view (liveAfter (sentBy env calls)) := by
  have hsome : Function.Injective (Multiset.map (some : α → Option α)) :=
    Multiset.map_injective (some_injective α)
  have hviewed : ∀ orders : List SimulatedOrder,
      Multiset.map some (Multiset.map view orders) = viewed view orders :=
    fun orders => Multiset.map_map _ _ _
  obtain ⟨plain, htracks⟩ := h.tracks
  constructor
  · have hmerged : ∀ hash : B256, ∃ merged, hash ∈ hashesOf env.keccak256 (liveAfter calls) →
        mergeOf env.keccak256 (ordersOf env.keccak256 hash (liveAfter calls)) = some merged ∧
          MergedFrom env.keccak256 (ordersOf env.keccak256 hash (liveAfter calls)) merged := by
      intro hash
      by_cases hhash : hash ∈ hashesOf env.keccak256 (liveAfter calls)
      · obtain ⟨merged, hmerged⟩ := mergedFrom_mergeOf env.keccak256
          (mergeable_ordersOf htracks.nodup hash) (mem_hashesOf.mp hhash)
        exact ⟨merged, fun _ => hmerged⟩
      · -- any order will do for a hash without live orders
        exact ⟨⟨.shareBundle (.new env.keccak256 0 0 (.mk [] [] [] false none) none none []),
          .new 0 0 .zero []⟩, fun hmem => absurd hmem hhash⟩
    choose merged hmerged using hmerged
    refine ⟨merged, fun hash hhash => (hmerged hash hhash).2, hsome ?_⟩
    rw [hviewed, h.down, Multiset.map_add, hviewed, Multiset.map_map]
    unfold expected
    congr 1
    exact Multiset.map_congr rfl fun hash hhash => congrArg _ (hmerged hash hhash).1
  · intro calls' h' hperm
    obtain ⟨plain', htracks'⟩ := h'.tracks
    apply hsome
    rw [hviewed, hviewed, h.down, h'.down, expected_perm htracks'.nodup hperm]

/-! A transaction, a bundle of a user and a backrun of it are inserted, and the transaction is
    removed. -/

open Building (ShareBundleInner user userTx shop)

def exampleEnv : Env := ⟨Building.sampleHash, fun _ _ => none⟩

def exampleTxOrder : SimulatedOrder := ⟨.tx (userTx 0 shop 0), .new 0 0 .zero []⟩

def userInner : ShareBundleInner := .mk [.tx ⟨userTx 0 shop 0, .notAllowed⟩] [] [] false none

def exampleUserBundle : SimulatedOrder :=
  ⟨.shareBundle (.new exampleEnv.keccak256 1 1 userInner none none []), .new 0 0 .zero []⟩

def exampleBackrun : SimulatedOrder :=
  ⟨.shareBundle (.new exampleEnv.keccak256 1 1 (.mk [.bundle userInner,
    .tx ⟨userTx 1 shop 0, .notAllowed⟩] [⟨0, 90⟩] [] false none) none none []),
    .new 9 9 .zero [(user, 5)]⟩

def exampleCalls : List SinkCall :=
  [.insertOrder exampleTxOrder, .insertOrder exampleUserBundle, .insertOrder exampleBackrun,
    .removeOrder exampleTxOrder.id]

theorem history_exampleCalls : History exampleEnv SimulatedOrder.order exampleCalls where
  alternates := by
    intro id
    by_cases hid : id ∈ exampleCalls.map SinkCall.id
    · have hall : ∀ id ∈ exampleCalls.map SinkCall.id, kindsOf id exampleCalls = [true] ∨
          kindsOf id exampleCalls = [true, false] := by decide
      rcases hall id hid with hkinds | hkinds <;> rw [hkinds]
      · exact ⟨by decide, by decide⟩
      · exact ⟨by decide, by decide⟩
    have hkinds : kindsOf id exampleCalls = [] := by
      rw [kindsOf, filter_eq_nil_iff.mpr fun c hc hcid => hid (mem_map.mpr ⟨c, hc, by simpa using hcid⟩)]
      rfl
    rw [hkinds]
    exact ⟨IsChain.nil, by decide⟩
  orders := by
    have hnodup : ((inserted exampleCalls).map SimulatedOrder.id).Nodup := by decide
    exact fun a ha b hb hid => congrArg _ (inj_on_of_nodup_map hnodup ha hb hid)
  sent := by
    have hnodup : ((inserted (sentBy exampleEnv exampleCalls)).map SimulatedOrder.id).Nodup := by decide
    exact fun a ha b hb hid => congrArg _ (inj_on_of_nodup_map hnodup ha hb hid)

/-- The two bundles are merged into one. -/
theorem downstream_depends_on_live_orders_backrun :
    History exampleEnv SimulatedOrder.order exampleCalls ∧ ∃ merged,
      MergedFrom exampleEnv.keccak256
        ([exampleBackrun, exampleUserBundle].filterMap (breakDownBundle exampleEnv.keccak256)) merged ∧
      Multiset.map SimulatedOrder.order (liveAfter (sentBy exampleEnv exampleCalls)) =
        {merged.order} := by
  obtain ⟨⟨merged, hmerged, hdown⟩, -⟩ := downstream_depends_on_live_orders exampleEnv
    SimulatedOrder.order exampleCalls history_exampleCalls
  have hhashes : hashesOf exampleEnv.keccak256 (liveAfter exampleCalls) = {(userTx 0 shop 0).hash} := rfl
  rw [hhashes] at hmerged hdown
  exact ⟨history_exampleCalls, _, hmerged _ (Finset.mem_singleton_self _), hdown⟩

end BlockOrders.Merging
