/-
  A merger and its clone get the same calls.

  The clone has managers of its own, but its ids lead to those of the merger that was cloned,
  and the ids of that merger may in turn lead to removed orders or to the managers of the
  merger it was cloned from. So the two are independent as long as no id from before the
  clone is removed (`cloned_merger_independent_iff`). An id that was inserted again after the
  clone leads to a manager of the merger it was inserted into.

  Both are compared with the same plain mergers (`Twin`).
-/
import Rbuilder.Runs
import Rbuilder.Building.AllOrNothing
import Rbuilder.BlockOrders.MergedOrders
import Rbuilder.BlockOrders.MergerStates

namespace BlockOrders.Merging

open SparseMpt
open Building (OrderId)
open Function PlainMerger List Merger Option

/-! ## Independence -/

/-- Calls to the clone make the calls to its sink that they make to the sink of `m` when `m`
    gets them. They change no manager from before the clone, and calls to `m` change no
    manager but those of `m`. -/
def Independent (env : Env) (w : World) (m : Merger) (sink : Nat) (cloned : World × Merger)
    (calls : List SinkCall) : Prop :=
  let onClone := calls.foldl (call env) cloned
  let onOriginal := calls.foldl (call env) (cloned.1, m)
  (∃ sent, onClone.1.sinks = w.sinks.modify sink (· ++ sent) ∧
    onOriginal.1.sinks = w.sinks.modify m.orderSink (· ++ sent)) ∧
  (∀ pointer < w.managers.length, onClone.1.managers[pointer]? = w.managers[pointer]?) ∧
  ∀ pointer < cloned.1.managers.length, ¬Owns m.parts pointer →
    onOriginal.1.managers[pointer]? = cloned.1.managers[pointer]?

namespace Merger

section

variable (m : Merger) (calls : List SinkCall)

/-- The slots from which orders are removed after the calls. -/
def slotsAfter : OrderId → Option (Option Address) :=
  calls.foldl (fun slots c => match c with
    | .insertOrder order => Function.update slots order.id (some (m.slotOf order.order.signer))
    | .removeOrder _ => slots) m.slotFor

/-- An order with the id came to the slot, and it was broken down. -/
def Readded (env : Env) (m : Merger) (calls : List SinkCall) (k : Option Address) (id : OrderId) :
    Prop :=
  ∃ order, .insertOrder order ∈ calls ∧ order.id = id ∧ m.slotOf order.order.signer = k ∧
    breakDownBundle env.keccak256 order ≠ none

/-- An id that `m` knew at the clone is only removed if it was inserted again. -/
def SafeCall (env : Env) (m : Merger) (calls : List SinkCall) : SinkCall → Prop
  | .insertOrder _ => True
  | .removeOrder id => ∀ k part, m.slotsAfter calls id = some k → m.parts k = some part →
    id ∈ part.orderId2MultiBackrunManagers → m.Readded env calls k id

theorem slotsAfter_insertOrder (order : SimulatedOrder) :
    m.slotsAfter (calls ++ [.insertOrder order]) =
      update (m.slotsAfter calls) order.id (some (m.slotOf order.order.signer)) := by
  unfold slotsAfter
  rw [foldl_append]
  rfl

theorem slotsAfter_removeOrder (id : OrderId) :
    m.slotsAfter (calls ++ [.removeOrder id]) = m.slotsAfter calls := by
  unfold slotsAfter
  rw [foldl_append]
  rfl

end

variable {env : Env} {m : Merger} {calls : List SinkCall} {k : Option Address}

theorem readded_insertOrder {order : SimulatedOrder} {id : OrderId} :
    m.Readded env (calls ++ [.insertOrder order]) k id ↔
      m.Readded env calls k id ∨ (order.id = id ∧ m.slotOf order.order.signer = k ∧
        breakDownBundle env.keccak256 order ≠ none) := by
  simp only [Readded, mem_append, mem_singleton, SinkCall.insertOrder.injEq, or_and_right,
    exists_or, exists_eq_left]

theorem readded_removeOrder {id' : OrderId} {id : OrderId} :
    m.Readded env (calls ++ [.removeOrder id']) k id ↔ m.Readded env calls k id := by
  simp [Readded]

end Merger

variable {id : OrderId} {w : World}

theorem PlainMerger.routes_insertOrder_eq_none {keccak : Bytes → B256} {m : PlainMerger}
    {order : SimulatedOrder} : (m.insertOrder keccak order).1.routes id = none ↔
      (id = order.id → breakDownBundle keccak order = none) ∧ m.routes id = none := by
  rw [routes_insertOrder]
  cases hbroken : breakDownBundle keccak order with
  | none => simp
  | some brokenDown =>
    by_cases hid : id = order.id
    · simp [hid]
    · simp [hid]

theorem routes_update_removeOrder (keccak : Bytes → B256) (plain : Option Address → PlainMerger)
    (k : Option Address) (id : OrderId) (k' : Option Address) :
    (update plain k ((plain k).removeOrder keccak id).1 k').routes = (plain k').routes := by
  by_cases heq : k' = k
  · rw [heq, update_self, routes_removeOrder]
  · rw [update_of_ne heq]

/-! ## One of the two -/

/-- What the merger `m` became, as seen from the plain mergers. -/
structure Side (w : World) (m : Merger) (sink : Nat) (slots : OrderId → Option (Option Address))
    (plain : Option Address → PlainMerger) (sent : List SinkCall) (state : World × Merger) : Prop where
  consistent : state.1.Consistent
  represents : Represents state.1 state.2.parts sink plain
  stepped : Stepped w m.parts sink state.1 state.2.parts sent
  slotOf_eq : state.2.slotOf = m.slotOf
  slotFor_eq : state.2.slotFor = slots
  /-- The references stay, and an id that the plain merger does not have leads where it did. -/
  part : ∀ {k part'}, state.2.parts k = some part' → ∃ part, m.parts k = some part ∧
    (∀ {hash pointer}, part.multiBackrunManagers.lookup hash = some pointer →
      part'.multiBackrunManagers.lookup hash = some pointer) ∧
    ∀ {id}, (plain k).routes id = none →
      part'.orderId2MultiBackrunManagers.lookup id = part.orderId2MultiBackrunManagers.lookup id

namespace Side

variable {w : World} {m : Merger} {sink : Nat} {slots : OrderId → Option (Option Address)}
  {plain : Option Address → PlainMerger} {sent : List SinkCall} {state : World × Merger}

section

variable (h : Side w m sink slots plain sent state) (env : Env)
include h env

theorem insertOrder (order : SimulatedOrder) :
    let k := m.slotOf order.order.signer
    Side w m sink (update slots order.id (some k))
      (update plain k ((plain k).insertOrder env.keccak256 order).1)
      (sent ++ ((plain k).insertOrder env.keccak256 order).2)
      (call env state (.insertOrder order)) := by
  obtain ⟨w', m'⟩ := state
  obtain ⟨part', hk, hworld, hparts, hslotOf, hslotFor⟩ := call_insertOrder env w' m' order
  have hsame : m'.slotOf = m.slotOf := h.slotOf_eq
  rw [hsame] at hk hparts hslotFor
  obtain ⟨hrep, hstep⟩ := h.represents.insertOrder hk env order
  refine ⟨?_, ?_, ?_, hslotOf.trans hsame, ?_, ?_⟩
  · rw [hworld]
    exact consistent_insertOrder h.consistent
  · rw [hworld, hparts]
    exact hrep
  · rw [hworld, hparts]
    exact h.stepped.trans hstep
  · rw [hslotFor]
    exact congrArg (fun slots => update slots order.id _) h.slotFor_eq
  intro k' part'' hk'
  rw [hparts] at hk'
  rcases update_eq_some_iff.mp hk' with ⟨rfl, rfl⟩ | ⟨hne, hk'⟩
  · obtain ⟨part, hpart, hgrows, hroute⟩ := h.part hk
    refine ⟨part, hpart, fun hlookup => lookup_managers_insertOrder (hgrows hlookup), fun hid => ?_⟩
    rw [update_self] at hid
    obtain ⟨hcond, hid⟩ := routes_insertOrder_eq_none.mp hid
    exact (lookup_insertOrder hcond).trans (hroute hid)
  · rw [update_of_ne hne]
    exact h.part hk'

theorem removeOrder_none {id : OrderId} (hslot : slots id = none) :
    Side w m sink slots plain sent (call env state (.removeOrder id)) := by
  obtain ⟨w', m'⟩ := state
  have hslot' : m'.slotFor id = none := (congrFun h.slotFor_eq id).trans hslot
  rw [call_removeOrder_none env w' hslot']
  exact h

theorem removeOrder_some {id : OrderId} {k : Option Address} (hslot : slots id = some k)
    (hvacant : ∀ {part}, m.parts k = some part → (plain k).routes id = none →
      part.orderId2MultiBackrunManagers.lookup id = none) :
    Side w m sink slots (update plain k ((plain k).removeOrder env.keccak256 id).1)
      (sent ++ ((plain k).removeOrder env.keccak256 id).2)
      (call env state (.removeOrder id)) := by
  obtain ⟨w', m'⟩ := state
  have hslot' : m'.slotFor id = some k := (congrFun h.slotFor_eq id).trans hslot
  obtain ⟨part', hk, hcall⟩ := call_removeOrder_some env w' hslot'
  obtain ⟨part, hpart, -, hroute⟩ := h.part hk
  obtain ⟨hrep, hstep⟩ := h.represents.removeOrder hk env fun hid =>
    (hroute hid).trans (hvacant hpart hid)
  rw [hcall]
  refine ⟨(removeOrder_cells h.consistent env part' id).1, hrep, h.stepped.trans hstep, h.slotOf_eq,
    h.slotFor_eq, fun {k' part''} hk' => ?_⟩
  obtain ⟨part₀, hpart₀, hgrows, hroute⟩ := h.part hk'
  refine ⟨part₀, hpart₀, hgrows, fun hid => hroute ?_⟩
  rwa [routes_update_removeOrder] at hid

end

end Side

/-! ## What a removal does -/

variable {m : ShareBundleMerger} {pointer i sink : Nat} {manager : MultiBackrunManager}

section

variable (env : Env) (hlookup : m.orderId2MultiBackrunManagers.lookup id = some pointer)
  (hcell : w.managers[pointer]? = some manager) (hconsistent : manager.Consistent)
include env hlookup hcell hconsistent

theorem removeOrder_changes (hid : manager.HasId id) :
    (m.removeOrder env w id).2.managers[pointer]? ≠ some manager := by
  obtain ⟨userKickback, hkickback⟩ := (hconsistent.hasId_iff id).mp hid
  rw [removeOrder_of_some hlookup hcell]
  have hset : (w.managers.set pointer (manager.removeOrder env.keccak256 id).2.1)[pointer]? =
      some (manager.removeOrder env.keccak256 id).2.1 :=
    List.getElem?_set_self (List.getElem?_eq_some_iff.mp hcell).1
  exact fun heq => MultiBackrunManager.removeOrder_ne env.keccak256 hkickback
    (some.inj (hset.symm.trans heq))

/-- No call is made if the id leads to a manager that does not have it. -/
theorem removeOrder_silent (hid : ¬manager.HasId id) :
    (m.removeOrder env w id).2.sinks = w.sinks := by
  have hkickback : manager.orderKickbacks.lookup id = none := by
    refine eq_none_iff_forall_ne_some.mpr fun userKickback hkickback => ?_
    exact hid ((hconsistent.hasId_iff id).mpr ⟨userKickback, hkickback⟩)
  rw [removeOrder_of_some hlookup hcell, MultiBackrunManager.removeOrder_of_none _ hkickback]
  exact modify_append_nil ..

end

theorem modify_append_inj {α : Type} {l : List (List α)} (hi : i < l.length) {xs ys : List α}
    (h : l.modify i (· ++ xs) = l.modify i (· ++ ys)) : xs = ys := by
  have hget := congrArg (fun l => l[i]?) h
  simp only [getElem?_modify_eq, getElem?_eq_getElem hi, Option.map_eq_map, Option.map_some,
    Option.some.injEq, append_cancel_left_eq] at hget
  exact hget

/-! ## Both -/

/-- A merger of a reachable state, and its clone. -/
structure CloneState (w : World) (m : Merger) (sink : Nat) (w' : World) (c : Merger) : Prop where
  sane : Sane w m
  consistent : w.Consistent
  consistent' : w'.Consistent
  sink_lt : sink < w.sinks.length
  clone : CloneOf w m.parts sink w' c.parts
  slotOf_eq : c.slotOf = m.slotOf
  slotFor_eq : c.slotFor = m.slotFor

theorem Reachable.cloneState {env : Env} {ms : List Merger} {m : Merger}
    (h : Reachable env w ms) (hi : ms[i]? = some m) (hashOrder : HashOrder)
    (hsink : sink < w.sinks.length) :
    CloneState w m sink (m.cloneWithSink hashOrder w sink).1 (m.cloneWithSink hashOrder w sink).2 := by
  have hsane := h.saneWorld.sane hi
  have hconsistent := h.saneWorld.consistent
  obtain ⟨hclone, hslotOf, hslotFor⟩ := cloneOf_cloneWithSink hashOrder hsane.valid sink
  exact ⟨hsane, hconsistent, hconsistent.extends hclone.world, hsink, hclone, hslotOf, hslotFor⟩

/-- The same plain mergers describe the merger and its clone after the same calls. -/
structure Twin (env : Env) (w : World) (m : Merger) (sink : Nat) (w' : World) (c : Merger)
    (calls : List SinkCall) (plain : Option Address → PlainMerger) (sent : List SinkCall) : Prop where
  original : Side w' m m.orderSink (m.slotsAfter calls) plain sent
    (calls.foldl (call env) (w', m))
  clone : Side w' c sink (m.slotsAfter calls) plain sent (calls.foldl (call env) (w', c))
  routes : ∀ {k id}, (plain k).routes id ≠ none ↔ m.Readded env calls k id
  /-- Orders with an id that was not inserted again were there at the clone. -/
  ids : ∀ {k hash manager id}, (plain k).groups hash = some manager → manager.HasId id →
    (plain k).routes id = none →
    ∃ manager₀, (snapshot w m.parts k).groups hash = some manager₀ ∧ manager₀.HasId id

namespace CloneState

variable {env : Env} {w w' : World} {m c : Merger} {sink : Nat} {calls sent : List SinkCall}
  {plain : Option Address → PlainMerger}

section

variable (h : CloneState w m sink w' c)
include h

theorem representsOriginal :
    Represents w' m.parts m.orderSink (snapshot w m.parts) := by
  have hrep := h.sane.represents
  refine { hrep with group := fun {k part hash pointer} hk hlookup => ?_ }
  obtain ⟨manager, hgroup, hcell⟩ := hrep.group hk hlookup
  exact ⟨manager, hgroup, h.clone.world.getElem?_eq_some hcell⟩

theorem twin_nil :
    Twin env w m sink w' c [] (snapshot w m.parts) [] where
  original := ⟨h.consistent', h.representsOriginal, .refl .., rfl, rfl,
    fun hk => ⟨_, hk, fun hlookup => hlookup, fun _ => rfl⟩⟩
  clone := ⟨h.consistent', h.clone.represents, .refl .., rfl, h.slotFor_eq,
    fun hk => ⟨_, hk, fun hlookup => hlookup, fun _ => rfl⟩⟩
  routes := by simp [snapshot, Readded]
  ids hgroup hid _ := ⟨_, hgroup, hid⟩

theorem twin_insertOrder (ht : Twin env w m sink w' c calls plain sent)
    (order : SimulatedOrder) :
    let k := m.slotOf order.order.signer
    Twin env w m sink w' c (calls ++ [.insertOrder order])
      (update plain k ((plain k).insertOrder env.keccak256 order).1)
      (sent ++ ((plain k).insertOrder env.keccak256 order).2) := by
  intro k
  refine ⟨?_, ?_, ?_, ?_⟩
  · rw [foldl_append, slotsAfter_insertOrder]
    exact ht.original.insertOrder env order
  · rw [foldl_append, slotsAfter_insertOrder]
    have hclone := ht.clone.insertOrder env order
    rw [h.slotOf_eq] at hclone
    exact hclone
  · intro k' id
    rw [readded_insertOrder, ← ht.routes]
    by_cases heq : k' = k
    · subst heq
      rw [update_self, ne_eq, routes_insertOrder_eq_none]
      simp only [k, not_and_or, Classical.not_imp, true_and, eq_comm (a := id)]
      exact or_comm
    · rw [update_of_ne heq]
      exact (or_iff_left fun hnew => heq hnew.2.1.symm).symm
  intro k' hash manager id hgroup hid hroute
  by_cases heq : k' = k
  · subst heq
    rw [update_self] at hgroup hroute
    obtain ⟨hcond, hroute⟩ := routes_insertOrder_eq_none.mp hroute
    rcases hasId_insertOrder hgroup hid with ⟨hnew, hbroken⟩ | ⟨manager', hgroup', hid'⟩
    · exact absurd (hcond hnew) hbroken
    · exact ht.ids hgroup' hid' hroute
  · rw [update_of_ne heq] at hgroup hroute
    exact ht.ids hgroup hid hroute

variable {k : Option Address} {id : OrderId} {copy part : ShareBundleMerger} {call : SinkCall}

/-- An id that is not in the original is not in the clone. -/
theorem lookup_clone_eq_none (hpart : m.parts k = some part) (hcopy : c.parts k = some copy)
    (hnone : part.orderId2MultiBackrunManagers.lookup id = none) :
    copy.orderId2MultiBackrunManagers.lookup id = none := by
  refine eq_none_iff_forall_ne_some.mpr fun pointer hlookup => ?_
  obtain ⟨part₀, hpart₀, hcopied⟩ := h.clone.part hcopy
  cases hpart.symm.trans hpart₀
  obtain ⟨hash, manager, hmem, hcell, hid⟩ := hcopied.route hlookup
  exact h.sane.listed hpart ((mem_entries_iff ..).mp hmem) hcell hid hnone

section

variable (ht : Twin env w m sink w' c calls plain sent)
include ht

theorem twin_removeOrder (hsafe : m.SafeCall env calls (.removeOrder id)) :
    ∃ plain' sent', Twin env w m sink w' c (calls ++ [.removeOrder id]) plain' sent' := by
  cases hslot : m.slotsAfter calls id with
  | none =>
    refine ⟨plain, sent, ?_, ?_, ?_, ht.ids⟩
    · rw [foldl_append, slotsAfter_removeOrder]
      exact ht.original.removeOrder_none env hslot
    · rw [foldl_append, slotsAfter_removeOrder]
      exact ht.clone.removeOrder_none env hslot
    · intro k id'
      rw [readded_removeOrder]
      exact ht.routes
  | some k =>
    have hvacant : ∀ {part}, m.parts k = some part → (plain k).routes id = none →
        part.orderId2MultiBackrunManagers.lookup id = none := by
      intro part hpart hroute
      by_contra hlookup
      have hmem : id ∈ part.orderId2MultiBackrunManagers :=
        AList.lookup_isSome.mp (isSome_iff_ne_none.mpr hlookup)
      exact ht.routes.mpr (hsafe k part hslot hpart hmem) hroute
    refine ⟨update plain k ((plain k).removeOrder env.keccak256 id).1,
      sent ++ ((plain k).removeOrder env.keccak256 id).2, ?_, ?_, ?_, ?_⟩
    · rw [foldl_append, slotsAfter_removeOrder]
      exact ht.original.removeOrder_some env hslot hvacant
    · rw [foldl_append, slotsAfter_removeOrder]
      refine ht.clone.removeOrder_some env hslot fun hcopy hroute => ?_
      obtain ⟨part, hpart, -⟩ := h.clone.part hcopy
      exact h.lookup_clone_eq_none hpart hcopy (hvacant hpart hroute)
    · intro k' id'
      rw [readded_removeOrder, routes_update_removeOrder]
      exact ht.routes
    intro k' hash manager id' hgroup hid hroute
    rw [routes_update_removeOrder] at hroute
    by_cases heq : k' = k
    · subst heq
      rw [update_self] at hgroup
      obtain ⟨manager', hgroup', hid'⟩ := hasId_removeOrder hgroup hid
      exact ht.ids hgroup' hid' hroute
    · rw [update_of_ne heq] at hgroup
      exact ht.ids hgroup hid hroute

theorem independent : Independent env w m sink (w', c) calls := by
  refine ⟨⟨sent, ?_, ?_⟩, fun pointer hlt => ?_, fun pointer hlt hown => ?_⟩
  · rw [← h.clone.world.sinks]
    exact ht.clone.stepped.sinks
  · rw [← h.clone.world.sinks]
    exact ht.original.stepped.sinks
  · refine (ht.clone.stepped.kept pointer fun hown => ?_).trans (h.clone.world.getElem? hlt)
    rcases ht.clone.stepped.fresh pointer hown with hown | hle
    · exact absurd hlt (not_lt.mpr (h.clone.le_of_owns hown))
    · exact absurd hlt (not_lt.mpr (h.clone.world.length_le.trans hle))
  refine ht.original.stepped.kept pointer fun hown' => ?_
  rcases ht.original.stepped.fresh pointer hown' with hown' | hle
  · exact hown hown'
  · exact absurd hlt (not_lt.mpr hle)

/-- If the calls to the clone keep the managers from before, it did not know the id. -/
theorem lookup_clone_of_kept (hslot : m.slotsAfter calls id = some k)
    (hroute : (plain k).routes id = none)
    (hkept : ∀ pointer < w.managers.length,
      (Merger.call env (calls.foldl (Merger.call env) (w', c)) (.removeOrder id)).1.managers[pointer]? =
        w.managers[pointer]?)
    (hcopy : c.parts k = some copy) : copy.orderId2MultiBackrunManagers.lookup id = none := by
  refine eq_none_iff_forall_ne_some.mpr fun pointer hlookup => ?_
  obtain ⟨part, hpart, hcopied⟩ := h.clone.part hcopy
  obtain ⟨hash, manager, -, hcell, hid⟩ := hcopied.route hlookup
  have hlt := (List.getElem?_eq_some_iff.mp hcell).1
  have hbefore := (h.independent ht).2.1 pointer hlt
  obtain ⟨copy', hcopy', hcall⟩ := call_removeOrder_some env _
    ((congrFun ht.clone.slotFor_eq id).trans hslot)
  obtain ⟨_, hcopy₀, -, hsame⟩ := ht.clone.part hcopy'
  cases hcopy.symm.trans hcopy₀
  refine removeOrder_changes env ((hsame hroute).trans hlookup) (hbefore.trans hcell)
    (h.consistent manager (List.mem_of_getElem? hcell)) hid ?_
  rw [← hcell, ← hkept pointer hlt]
  exact congrArg (fun state => state.1.managers[pointer]?) hcall.symm

/-- The clone passes on the removal of an id that it does not know. -/
theorem sinks_clone_removeOrder (hslot : m.slotsAfter calls id = some k)
    (hroute : (plain k).routes id = none)
    (hnone : ∀ {copy}, c.parts k = some copy → copy.orderId2MultiBackrunManagers.lookup id = none) :
    (Merger.call env (calls.foldl (Merger.call env) (w', c)) (.removeOrder id)).1.sinks =
      w.sinks.modify sink (· ++ (sent ++ [.removeOrder id])) := by
  obtain ⟨copy', hcopy', hcall⟩ := call_removeOrder_some env _
    ((congrFun ht.clone.slotFor_eq id).trans hslot)
  obtain ⟨copy, hcopy, -, hsame⟩ := ht.clone.part hcopy'
  have hworld : (copy'.removeOrder env (calls.foldl (call env) (w', c)).1 id).2 =
      (calls.foldl (call env) (w', c)).1.send copy'.orderSink [.removeOrder id] :=
    removeOrder_of_none ((hsame hroute).trans (hnone hcopy))
  rw [ht.clone.represents.sink_eq hcopy'] at hworld
  rw [congrArg (fun state => state.1.sinks) hcall, hworld, ← modify_append_append,
    ← h.clone.world.sinks, ← ht.clone.stepped.sinks]
  rfl

theorem safeCall_of_independent
    (hind : Independent env w m sink (w', c) (calls ++ [.removeOrder id])) :
    m.SafeCall env calls (.removeOrder id) := by
  intro k part hslot hpart hmem
  by_contra hnew
  have hroute : (plain k).routes id = none := not_not.mp fun hne => hnew (ht.routes.mp hne)
  obtain ⟨pointer, hlookup⟩ := AList.exists_lookup hmem
  obtain ⟨⟨sent', hclone, horiginal⟩, hkeptClone, hkeptOriginal⟩ := hind
  rw [foldl_append] at hclone horiginal hkeptClone hkeptOriginal
  have hnone : ∀ {copy}, c.parts k = some copy → copy.orderId2MultiBackrunManagers.lookup id = none :=
    h.lookup_clone_of_kept ht hslot hroute hkeptClone
  have hsent : sent' = sent ++ [.removeOrder id] := by
    refine modify_append_inj h.sink_lt (hclone.symm.trans ?_)
    exact h.sinks_clone_removeOrder ht hslot hroute hnone
  -- the manager that the id leads to in the original
  obtain ⟨part', hpart', hcall⟩ := call_removeOrder_some env _
    ((congrFun ht.original.slotFor_eq id).trans hslot)
  obtain ⟨_, hpart₀, hgrows, hsame⟩ := ht.original.part hpart'
  cases hpart.symm.trans hpart₀
  have hlookup' := (hsame hroute).trans hlookup
  have hlt : pointer < w'.managers.length :=
    (h.sane.route_lt hpart hlookup).trans_le h.clone.world.length_le
  obtain ⟨manager, hcell⟩ : ∃ manager,
      (calls.foldl (call env) (w', m)).1.managers[pointer]? = some manager :=
    ⟨_, getElem?_eq_getElem (hlt.trans_le ht.original.stepped.length_le)⟩
  have hconsistent := ht.original.consistent manager (mem_of_getElem? hcell)
  by_cases hid : manager.HasId id
  · by_cases hown : Owns m.parts pointer
    · -- the order was there at the clone, so the clone knows the id
      obtain ⟨hash, hhash⟩ := h.sane.route_own hpart hlookup hown
      obtain ⟨manager', hgroup, hcell'⟩ := ht.original.represents.group hpart' (hgrows hhash)
      cases hcell.symm.trans hcell'
      obtain ⟨manager₀, hgroup₀, hid₀⟩ := ht.ids hgroup hid hroute
      obtain ⟨pointer₀, hpointer₀, hcell₀⟩ := (snapshot_groups hpart).mp hgroup₀
      obtain ⟨copy, hcopy⟩ := h.clone.present hpart
      obtain ⟨_, hpart₁, hcopied⟩ := h.clone.part hcopy
      cases hpart.symm.trans hpart₁
      exact hcopied.routed ((mem_entries_iff _ ⟨hash, pointer₀⟩).mpr hpointer₀) hcell₀ hid₀ (hnone hcopy)
    -- a manager of another merger is changed
    have hbefore := (h.independent ht).2.2 pointer hlt hown
    refine removeOrder_changes env hlookup' hcell hconsistent hid ?_
    rw [← hcell, hbefore, ← hkeptOriginal pointer hlt hown]
    exact congrArg (fun state => state.1.managers[pointer]?) hcall.symm
  · -- the original makes no call
    have hsilent : w.sinks.modify m.orderSink (· ++ sent') = w.sinks.modify m.orderSink (· ++ sent) := by
      rw [← horiginal, ← h.clone.world.sinks, ← ht.original.stepped.sinks,
        ← removeOrder_silent env hlookup' hcell hconsistent hid]
      exact congrArg (fun state => state.1.sinks) hcall
    have heq := modify_append_inj h.sane.sink_lt hsilent
    rw [hsent] at heq
    simp at heq

theorem safeCall_of_independent_call (hind : Independent env w m sink (w', c) (calls ++ [call])) :
    m.SafeCall env calls call := by
  cases call with
  | insertOrder order => trivial
  | removeOrder id => exact h.safeCall_of_independent ht hind

theorem twin_call (hsafe : m.SafeCall env calls call) :
    ∃ plain' sent', Twin env w m sink w' c (calls ++ [call]) plain' sent' := by
  cases call with
  | insertOrder order => exact ⟨_, _, h.twin_insertOrder ht order⟩
  | removeOrder id => exact h.twin_removeOrder ht hsafe

end

theorem independent_iff_safeCall (calls : List SinkCall) :
    (∀ done, done <+: calls → Independent env w m sink (w', c) done) ↔
      ∀ done call, done ++ [call] <+: calls → m.SafeCall env done call := by
  have hnil : ∃ plain sent, Twin env w m sink w' c [] plain sent := ⟨_, _, h.twin_nil⟩
  constructor
  · intro hind done call hpre
    have htwins := Runs.forall_states_of_steps
      (P := fun done => ∃ plain sent, Twin env w m sink w' c done plain sent)
      (Q := fun done call => Independent env w m sink (w', c) (done ++ [call])) hnil
      (fun done call ⟨_, _, ht⟩ hind => h.twin_call ht (h.safeCall_of_independent_call ht hind))
      (fun done call hpre => hind _ hpre)
    obtain ⟨_, _, ht⟩ := htwins done ((prefix_append done [call]).trans hpre)
    exact h.safeCall_of_independent_call ht (hind _ hpre)
  intro hsafe done hpre
  obtain ⟨_, _, ht⟩ := Runs.forall_states_of_steps
    (P := fun done => ∃ plain sent, Twin env w m sink w' c done plain sent) (Q := m.SafeCall env) hnil
    (fun done call ⟨_, _, ht⟩ hsafe => h.twin_call ht hsafe) hsafe done hpre
  exact h.independent ht

end

end CloneState

/-- After each of the calls a merger of a reachable state and its clone are independent exactly
    if no call removes an id that the merger knew at the clone and that was not inserted again. -/
theorem cloned_merger_independent_iff (env : Env) (hashOrder : HashOrder) {w : World}
    {ms : List Merger} {i : Nat} {m : Merger} (h : Reachable env w ms) (hi : ms[i]? = some m)
    {sink : Nat} (hsink : sink < w.sinks.length) (calls : List SinkCall) :
    (∀ done, done <+: calls → Independent env w m sink (m.cloneWithSink hashOrder w sink) done) ↔
      ∀ done call, done ++ [call] <+: calls → m.SafeCall env done call :=
  (h.cloneState hi hashOrder hsink).independent_iff_safeCall calls

/-! ## A user bundle that both have -/

/-- Two sinks and a merger that got a user bundle. -/
def exampleState : World × Merger :=
  call exampleEnv ((({} : World).newSink).newSink, .single (.new 0)) (.insertOrder exampleUserBundle)

theorem reachable_exampleState : Reachable exampleEnv exampleState.1 [exampleState.2] := by
  have hsinks : Reachable exampleEnv (({} : World).newSink).newSink [] := .newSink (.newSink .start)
  have hmerger : Reachable exampleEnv (({} : World).newSink).newSink [.single (.new 0)] :=
    .newMerger hsinks (by decide)
  exact Reachable.call (i := 0) (.insertOrder exampleUserBundle) hmerger rfl

/-- The bundle is removed from the clone, but it goes from the original, and the call is made to
    the sink of the original. -/
theorem cloned_merger_independent_fails :
    Reachable exampleEnv exampleState.1 [exampleState.2] ∧
      ¬Independent exampleEnv exampleState.1 exampleState.2 1
        (exampleState.2.cloneWithSink Building.insertionOrder exampleState.1 1)
        [.removeOrder exampleUserBundle.id] := by
  refine ⟨reachable_exampleState, ?_⟩
  rintro ⟨⟨sent, hclone, -⟩, -⟩
  have hlog : (exampleState.1.sinks.modify 1 (· ++ sent))[0]? = exampleState.1.sinks[0]? :=
    List.getElem?_modify_ne _ _ (by decide)
  rw [← hclone] at hlog
  have hlength := congrArg (Option.map List.length) hlog
  revert hlength
  decide

/-- The bundle may be removed after it was inserted again. -/
theorem cloned_merger_independent_reinserted :
    Reachable exampleEnv exampleState.1 [exampleState.2] ∧
      ∀ done, done <+: [.insertOrder exampleUserBundle, .removeOrder exampleUserBundle.id] →
        Independent exampleEnv exampleState.1 exampleState.2 1
          (exampleState.2.cloneWithSink Building.insertionOrder exampleState.1 1) done := by
  refine ⟨reachable_exampleState, ?_⟩
  refine (cloned_merger_independent_iff exampleEnv Building.insertionOrder reachable_exampleState
    (i := 0) rfl (by decide) _).mpr ?_
  simp only [Runs.forall_steps_cons, Runs.forall_steps_nil, and_true]
  refine ⟨trivial, fun k part hslot _ _ => ?_⟩
  have hk : exampleState.2.slotOf exampleUserBundle.order.signer = k := by
    have hlast := congrFun (slotsAfter_insertOrder exampleState.2 [] exampleUserBundle)
      exampleUserBundle.id
    exact some.inj (hlast.symm.trans hslot)
  exact ⟨exampleUserBundle, List.mem_singleton.mpr rfl, rfl, hk, by decide⟩

end BlockOrders.Merging
