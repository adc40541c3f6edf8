/-
  What adding an order does to the groups.

  The new order is merged with the groups that it conflicts with, and the other groups stay
  (`Merged`). This is the one fact about `addOrder` from which the rest is derived.
-/
import Rbuilder.Components
import Rbuilder.Parallel.GroupIndex

namespace Parallel

open SparseMpt
open Building (OrderId)
open AList List

/-! ## Conflicts -/

/-- The accesses of two orders that cannot be exchanged. -/
inductive Access.Clashes : Access → Access → Prop
  | slot (slot : SlotKey) : Clashes (.read slot) (.write slot)
  | readOf (slot : SlotKey) : Clashes (.read slot) (.code slot.address)
  | writeOf (slot : SlotKey) : Clashes (.write slot) (.code slot.address)
  | balance (address : Address) : Clashes (.balanceRead address) (.balanceWrite address)
  | contract (address : Address) : Clashes (.code address) (.code address)

/-- An order reads a slot that the other one writes, reads or writes a slot of a contract that
    the other one creates or destroys, reads a balance that the other one changes, or creates or
    destroys the same contract. -/
def Conflicts (order order' : SimulatedOrder) : Prop :=
  ∃ x y, order.Has x ∧ order'.Has y ∧ x.Clashes y

def orderSet (data : GroupData) : Set SimulatedOrder := {order | order ∈ data.orders}

namespace GroupData

/-- The keys of a group are those of its orders. -/
structure Describes (data : GroupData) : Prop where
  keys : data.KeysNodup
  nodup : data.orders.Nodup
  nonempty : data.orders ≠ []
  has : ∀ access, data.Has access ↔ ∃ order ∈ data.orders, order.Has access

end GroupData

theorem describes_newOrderGroup {order : SimulatedOrder} {usedState : UsedStateTrace}
    (htrace : order.usedStateTrace = some usedState) : (newOrderGroup order usedState).Describes where
  keys := ⟨keys_nodup _, keys_nodup _, keys_nodup _, nodup_dedup _, nodup_dedup _⟩
  nodup := nodup_singleton _
  nonempty := cons_ne_nil _ _
  has := by
    intro access
    have hhas : order.Has access ↔ usedState.Has access := by
      simp only [SimulatedOrder.Has, htrace, Option.some.injEq, exists_eq_left']
    have horders : (newOrderGroup order usedState).orders = [order] := rfl
    simp only [horders, mem_singleton, exists_eq_left, hhas]
    cases access with
    | read slot | write slot | balanceRead address => exact Iff.rfl
    | balanceWrite address => simp [GroupData.Has, newOrderGroup, UsedStateTrace.Has, AList.mem_keys]
    | code address => simp [GroupData.Has, newOrderGroup, UsedStateTrace.Has]

theorem has_combineGroups (groups : List GroupData) (removedGroupIds : List Nat) (access : Access) :
    (combineGroups groups removedGroupIds).Has access ↔ ∃ group ∈ groups, group.Has access := by
  cases access <;> simp [GroupData.Has, combineGroups]

theorem mem_conflictingGroupIds_combineGroups (groups : List GroupData) (removedGroupIds : List Nat)
    (r : Nat) :
    r ∈ (combineGroups groups removedGroupIds).conflictingGroupIds ↔
      r ∈ removedGroupIds ∨ ∃ group ∈ groups, r ∈ group.conflictingGroupIds := by
  have hfold : ∀ ids : Finset Nat,
      r ∈ groups.foldl (fun ids group => ids ∪ group.conflictingGroupIds) ids ↔
        r ∈ ids ∨ ∃ group ∈ groups, r ∈ group.conflictingGroupIds := by
    induction groups with
    | nil => simp
    | cons group groups ih =>
      intro ids
      rw [foldl_cons, ih, Finset.mem_union, or_assoc, exists_mem_cons_iff]
  exact (hfold _).trans (by rw [mem_toFinset])

theorem describes_combineGroups {groups : List GroupData} (removedGroupIds : List Nat)
    (hgroups : ∀ group ∈ groups, group.Describes) (hnonempty : groups ≠ [])
    (hdisjoint : groups.Pairwise fun group group' => ∀ order ∈ group.orders, order ∉ group'.orders) :
    (combineGroups groups removedGroupIds).Describes where
  keys := ⟨nodup_dedup _, nodup_dedup _, nodup_dedup _, nodup_dedup _,
    nodup_dedup _⟩
  nodup := by
    refine nodup_flatMap.mpr ⟨fun group hgroup => (hgroups group hgroup).nodup, ?_⟩
    exact hdisjoint.imp fun hd order hmem hmem' => hd order hmem hmem'
  nonempty := by
    obtain ⟨group, hgroup⟩ := exists_mem_of_ne_nil groups hnonempty
    obtain ⟨order, horder⟩ := exists_mem_of_ne_nil _ (hgroups group hgroup).nonempty
    exact ne_nil_of_mem (mem_flatMap.mpr ⟨group, hgroup, horder⟩)
  has := by
    intro access
    rw [has_combineGroups]
    constructor
    · rintro ⟨group, hgroup, hhas⟩
      obtain ⟨order, horder, hhas⟩ := ((hgroups group hgroup).has access).mp hhas
      exact ⟨order, mem_flatMap.mpr ⟨group, hgroup, horder⟩, hhas⟩
    · rintro ⟨order, horder, hhas⟩
      obtain ⟨group, hgroup, horder⟩ := mem_flatMap.mp horder
      exact ⟨group, hgroup, ((hgroups group hgroup).has access).mpr ⟨order, horder, hhas⟩⟩

/-! ## The groups in conflict with an order -/

namespace ConflictFinder

variable {finder : ConflictFinder} {P : Nat → Access → Prop}

theorem mem_allGroupsInConflict (h : finder.Lists P) (usedState : UsedStateTrace) (g : Nat) :
    g ∈ finder.allGroupsInConflict usedState ↔
      ∃ x y, usedState.Has x ∧ P g y ∧ (x.Clashes y ∨ y.Clashes x) := by
  have hread : ∀ slot, g ∈ finder.groupReads.groupsOf slot ↔ P g (.read slot) :=
    fun slot => h.mem (.read slot) g
  have hwrite : ∀ slot, g ∈ finder.groupWrites.groupsOf slot ↔ P g (.write slot) :=
    fun slot => h.mem (.write slot) g
  have hbalanceRead : ∀ address, g ∈ finder.groupBalanceReads.groupsOf address ↔
      P g (.balanceRead address) := fun address => h.mem (.balanceRead address) g
  have hbalanceWrite : ∀ address, g ∈ finder.groupBalanceWrites.groupsOf address ↔
      P g (.balanceWrite address) := fun address => h.mem (.balanceWrite address) g
  have hcode : ∀ address, g ∈ finder.groupCodeWrites.groupsOf address ↔ P g (.code address) :=
    fun address => h.mem (.code address) g
  unfold allGroupsInConflict
  simp only [mem_dedup, mem_insertionSort, mem_append, mem_flatMap, mem_groupsOfAddress,
    hread, hwrite, hbalanceRead, hbalanceWrite, hcode]
  constructor
  · rintro ((((⟨slot, hx, hy | hy⟩ | ⟨slot, hx, hy | hy⟩) | ⟨address, hx, hy⟩) | ⟨address, hx, hy⟩) |
      ⟨address, hx, (hy | ⟨key, hy⟩) | ⟨key, hy⟩⟩)
    · exact ⟨.read slot, .write slot, hx, hy, Or.inl (.slot slot)⟩
    · exact ⟨.read slot, .code slot.address, hx, hy, Or.inl (.readOf slot)⟩
    · exact ⟨.write slot, .read slot, hx, hy, Or.inr (.slot slot)⟩
    · exact ⟨.write slot, .code slot.address, hx, hy, Or.inl (.writeOf slot)⟩
    · exact ⟨.balanceWrite address, .balanceRead address, hx.symm, hy, Or.inr (.balance address)⟩
    · exact ⟨.balanceRead address, .balanceWrite address, hx, hy, Or.inl (.balance address)⟩
    · exact ⟨.code address, .code address, hx.symm, hy, Or.inl (.contract address)⟩
    · exact ⟨.code address, .read ⟨address, key⟩, hx.symm, hy, Or.inr (.readOf ⟨address, key⟩)⟩
    · exact ⟨.code address, .write ⟨address, key⟩, hx.symm, hy, Or.inr (.writeOf ⟨address, key⟩)⟩
  · rintro ⟨x, y, hx, hy, hclash | hclash⟩
    · cases hclash with
      | slot slot => exact Or.inl (Or.inl (Or.inl (Or.inl ⟨slot, hx, Or.inl hy⟩)))
      | readOf slot => exact Or.inl (Or.inl (Or.inl (Or.inl ⟨slot, hx, Or.inr hy⟩)))
      | writeOf slot => exact Or.inl (Or.inl (Or.inl (Or.inr ⟨slot, hx, Or.inr hy⟩)))
      | balance address => exact Or.inl (Or.inr ⟨address, hx, hy⟩)
      | contract address => exact Or.inr ⟨address, hx.symm, Or.inl (Or.inl hy)⟩
    cases hclash with
    | slot slot => exact Or.inl (Or.inl (Or.inl (Or.inr ⟨slot, hx, Or.inl hy⟩)))
    | readOf slot => exact Or.inr ⟨slot.address, hx.symm, Or.inl (Or.inr ⟨slot.key, hy⟩)⟩
    | writeOf slot => exact Or.inr ⟨slot.address, hx.symm, Or.inr ⟨slot.key, hy⟩⟩
    | balance address => exact Or.inl (Or.inl (Or.inr ⟨address, hx.symm, hy⟩))
    | contract address => exact Or.inr ⟨address, hx.symm, Or.inl (Or.inl hy)⟩

/-! ## Merging -/

/-- A live group has the access. -/
def Uses (finder : ConflictFinder) (g : Nat) (access : Access) : Prop :=
  ∃ data, finder.groups.lookup g = some data ∧ data.Has access

structure Sound (finder : ConflictFinder) : Prop where
  describes : ∀ {g data}, finder.groups.lookup g = some data → data.Describes
  lists : finder.Lists finder.Uses
  unique : ∀ {g data g' data' order}, finder.groups.lookup g = some data →
    finder.groups.lookup g' = some data' → order ∈ data.orders → order ∈ data'.orders → g = g'
  lt_counter : ∀ {g data}, finder.groups.lookup g = some data → g < finder.groupCounter

/-- The order and the groups `merged` became the group `groupId`. -/
structure Merged (finder : ConflictFinder) (order : SimulatedOrder) (merged : List Nat)
    (finder' : ConflictFinder) (groupId : Nat) (data : GroupData) : Prop where
  lookup : ∀ g, finder'.groups.lookup g =
    if g = groupId then some data else if g ∈ merged then none else finder.groups.lookup g
  lists : finder'.Lists finder'.Uses
  describes : data.Describes
  mem_orders : ∀ order', order' ∈ data.orders ↔ order' = order ∨
    ∃ g ∈ merged, ∃ data', finder.groups.lookup g = some data' ∧ order' ∈ data'.orders
  mem_conflictingGroupIds : ∀ r, r ∈ data.conflictingGroupIds ↔ (r ∈ merged ∧ r ≠ groupId) ∨
    ∃ g ∈ merged, ∃ data', finder.groups.lookup g = some data' ∧ r ∈ data'.conflictingGroupIds
  id_cases : merged = [groupId] ∨ groupId = finder.groupCounter
  counter_le : finder.groupCounter ≤ finder'.groupCounter
  lt_counter : groupId < finder'.groupCounter
  orders_eq : finder'.orders = finder.orders

variable {data data' other : GroupData}

/-- A group under a new id. -/
theorem Lists.insertGroup (h : finder.Lists finder.Uses) (hdata : data.Describes)
    (hcounter : finder.groups.lookup finder.groupCounter = none) :
    (finder.insertGroup data).Lists (finder.insertGroup data).Uses := by
  have hlists : ({ finder with groupCounter := finder.groupCounter + 1 } : ConflictFinder).Lists
      finder.Uses := ⟨h.nodup, h.mem⟩
  have hadded := hlists.addGroupToIndex finder.groupCounter true hdata.keys fun _ access huses => by
    obtain ⟨data', hlookup, -⟩ := huses
    rw [hcounter] at hlookup
    cases hlookup
  refine Lists.congr ⟨hadded.nodup, hadded.mem⟩ fun g access => ?_
  change _ ↔ ∃ data', (finder.groups.insert finder.groupCounter data).lookup g = some data' ∧ _
  by_cases heq : g = finder.groupCounter
  · subst heq
    simp [lookup_insert, Uses, hcounter]
  · simp [lookup_insert_ne heq, Uses, heq]

/-- A group that got more orders. -/
theorem Lists.replaceGroup {g : Nat}
    (h : finder.Lists finder.Uses) (hlookup : finder.groups.lookup g = some data)
    (hdata : data'.Describes) (hhas : ∀ access, data.Has access → data'.Has access) :
    (finder.replaceGroup g data').Lists (finder.replaceGroup g data').Uses := by
  have hadded := h.addGroupToIndex g false hdata.keys fun hid => absurd hid Bool.false_ne_true
  refine Lists.congr ⟨hadded.nodup, hadded.mem⟩ fun g' access => ?_
  change _ ↔ ∃ data'', ((finder.groups.erase g).insert g data').lookup g' = some data'' ∧ _
  by_cases heq : g' = g
  · subst heq
    simp only [lookup_insert, Uses, hlookup, Option.some.injEq, exists_eq_left', true_and]
    exact or_iff_right_of_imp (hhas access)
  · simp [lookup_insert_ne heq, lookup_erase_ne heq, Uses, heq]

theorem takeGroups_spec {groups : AList fun _ : Nat => GroupData} {groupIds : List Nat}
    (hnodup : groupIds.Nodup) (hlive : ∀ g ∈ groupIds, ∃ data, groups.lookup g = some data) :
    ∃ taken rest, takeGroups groups groupIds = some (taken, rest) ∧ taken.map Prod.fst = groupIds ∧
      (∀ group ∈ taken, groups.lookup group.1 = some group.2) ∧
      ∀ g, rest.lookup g = if g ∈ groupIds then none else groups.lookup g := by
  induction groupIds generalizing groups with
  | nil => exact ⟨[], groups, rfl, rfl, fun _ hmem => absurd hmem not_mem_nil, fun g => by simp⟩
  | cons groupId groupIds ih =>
    obtain ⟨hnot, hnodup⟩ := nodup_cons.mp hnodup
    obtain ⟨data, hlookup⟩ := hlive groupId mem_cons_self
    have hne : ∀ g ∈ groupIds, g ≠ groupId := fun g hg heq => hnot (heq ▸ hg)
    have hlive' : ∀ g ∈ groupIds, ∃ data, (groups.erase groupId).lookup g = some data := by
      intro g hg
      rw [lookup_erase_ne (hne g hg)]
      exact hlive g (mem_cons_of_mem _ hg)
    obtain ⟨taken, rest, htake, hids, htaken, hrest⟩ := ih hnodup hlive'
    refine ⟨(groupId, data) :: taken, rest, ?_, ?_, ?_, ?_⟩
    · simp only [takeGroups, hlookup, htake, Option.bind_eq_bind, Option.bind_some, pure]
    · rw [map_cons, hids]
    · intro group hgroup
      rcases mem_cons.mp hgroup with rfl | hgroup
      · exact hlookup
      · rw [← htaken group hgroup, lookup_erase_ne]
        exact hne _ (hids ▸ mem_map_of_mem hgroup)
    intro g
    rw [hrest, lookup_erase_eq_ite]
    by_cases heq : g = groupId <;> simp [heq]

/-- The groups that are taken out leave the index. -/
theorem Lists.removeGroups {groups : List (Nat × GroupData)} (h : finder.Lists P)
    (hgroups : ∀ group ∈ groups, group.2.Describes) :
    (groups.foldl (fun finder group => finder.removeGroupFromIndex group.1 group.2) finder).Lists
      fun g access => P g access ∧ ∀ group ∈ groups, ¬(g = group.1 ∧ group.2.Has access) := by
  induction groups generalizing finder P with
  | nil => exact h.congr fun g access => by simp
  | cons group groups ih =>
    have hfirst := h.removeGroupFromIndex group.1 (hgroups group mem_cons_self).keys
    have hrest := ih hfirst fun group' hgroup' => hgroups group' (mem_cons_of_mem _ hgroup')
    exact hrest.congr fun g access => by rw [forall_mem_cons, and_assoc]

theorem foldl_removeGroupFromIndex (finder : ConflictFinder) (groups : List (Nat × GroupData)) :
    let finder' := groups.foldl (fun finder group => finder.removeGroupFromIndex group.1 group.2) finder
    finder'.groups = finder.groups ∧ finder'.groupCounter = finder.groupCounter ∧
      finder'.orders = finder.orders := by
  induction groups generalizing finder with
  | nil => exact ⟨rfl, rfl, rfl⟩
  | cons group groups ih => exact ih (finder.removeGroupFromIndex group.1 group.2)

section Merge

theorem exists_mem_taken {P : GroupData → Prop} (taken : List (Nat × GroupData)) (data : GroupData) :
    (∃ group ∈ taken.map Prod.snd ++ [data], P group) ↔ P data ∨ ∃ group ∈ taken, P group.2 := by
  constructor
  · rintro ⟨group, hgroup, hP⟩
    rcases mem_append.mp hgroup with hgroup | hgroup
    · obtain ⟨group, htaken, rfl⟩ := mem_map.mp hgroup
      exact Or.inr ⟨group, htaken, hP⟩
    · exact Or.inl (mem_singleton.mp hgroup ▸ hP)
  · rintro (hP | ⟨group, htaken, hP⟩)
    · exact ⟨data, mem_append_right _ mem_cons_self, hP⟩
    · exact ⟨group.2, mem_append_left _ (mem_map_of_mem htaken), hP⟩

variable {order : SimulatedOrder} {usedState : UsedStateTrace}

theorem Sound.lookup_counter (h : finder.Sound) : finder.groups.lookup finder.groupCounter = none :=
  Option.eq_none_iff_forall_ne_some.mpr fun _ hlookup => lt_irrefl _ (h.lt_counter hlookup)

section

variable (h : finder.Sound) (htrace : order.usedStateTrace = some usedState)
include h htrace

theorem Sound.merged_insertGroup :
    Merged finder order [] (finder.insertGroup (newOrderGroup order usedState)) finder.groupCounter
      (newOrderGroup order usedState) where
  lookup g := by
    change (finder.groups.insert finder.groupCounter _).lookup g = _
    rw [lookup_insert_eq_ite, if_neg not_mem_nil]
  lists := h.lists.insertGroup (describes_newOrderGroup htrace) h.lookup_counter
  describes := describes_newOrderGroup htrace
  mem_orders order' := by simp [newOrderGroup]
  mem_conflictingGroupIds r := by simp [newOrderGroup]
  id_cases := Or.inr rfl
  counter_le := Nat.le_succ _
  lt_counter := Nat.lt_succ_self _
  orders_eq := rfl

theorem Sound.merged_replaceGroup {g : Nat} (hlookup : finder.groups.lookup g = some other)
    (hfresh : order ∉ other.orders) :
    Merged finder order [g]
      (finder.replaceGroup g (combineGroups [newOrderGroup order usedState, other] [])) g
      (combineGroups [newOrderGroup order usedState, other] []) := by
  have hdescribes : (combineGroups [newOrderGroup order usedState, other] []).Describes := by
    refine describes_combineGroups [] ?_ (cons_ne_nil _ _) ?_
    · simpa using ⟨describes_newOrderGroup htrace, h.describes hlookup⟩
    · simpa [newOrderGroup] using hfresh
  refine ⟨fun g' => ?_, ?_, hdescribes, fun order' => ?_, fun r => ?_, ?_, Nat.le_refl _, ?_, rfl⟩
  · change ((finder.groups.erase g).insert g _).lookup g' = _
    rw [lookup_insert_eq_ite, lookup_erase_eq_ite]
    simp only [mem_singleton]
  · refine h.lists.replaceGroup hlookup hdescribes fun access hhas => ?_
    exact (has_combineGroups ..).mpr ⟨other, by simp, hhas⟩
  · simp [combineGroups, newOrderGroup, hlookup]
  · rw [mem_conflictingGroupIds_combineGroups]
    simp [newOrderGroup, hlookup]
  · exact Or.inl rfl
  · exact h.lt_counter hlookup

theorem Sound.merged_mergeGroups {groupIds : List Nat} (hnodup : groupIds.Nodup)
    (hlive : ∀ g ∈ groupIds, ∃ data, finder.groups.lookup g = some data)
    (hfresh : ∀ {g data}, finder.groups.lookup g = some data → order ∉ data.orders) :
    ∃ finder' data, finder.mergeGroups groupIds (newOrderGroup order usedState) = some finder' ∧
      Merged finder order groupIds finder' finder.groupCounter data := by
  obtain ⟨taken, rest, htake, hids, htaken, hrest⟩ := takeGroups_spec hnodup hlive
  let removed := taken.foldl (fun finder group => finder.removeGroupFromIndex group.1 group.2)
    { finder with groups := rest }
  let data := combineGroups (taken.map Prod.snd ++ [newOrderGroup order usedState]) (taken.map Prod.fst)
  obtain ⟨hgroups, hcounter, horders⟩ : removed.groups = rest ∧
      removed.groupCounter = finder.groupCounter ∧ removed.orders = finder.orders :=
    foldl_removeGroupFromIndex { finder with groups := rest } taken
  have hmem : ∀ {g}, g ∈ groupIds ↔ ∃ data, (g, data) ∈ taken := by simp [← hids]
  have hlookup : ∀ {g data}, (g, data) ∈ taken → finder.groups.lookup g = some data :=
    fun hmem => htaken _ hmem
  have htakenIff : ∀ P : GroupData → Prop, (∃ group ∈ taken, P group.2) ↔
      ∃ g ∈ groupIds, ∃ data, finder.groups.lookup g = some data ∧ P data := by
    intro P
    constructor
    · rintro ⟨group, hgroup, hP⟩
      exact ⟨group.1, hmem.mpr ⟨group.2, hgroup⟩, group.2, htaken group hgroup, hP⟩
    rintro ⟨g, hg, data, hdata, hP⟩
    obtain ⟨data', hgroup⟩ := hmem.mp hg
    cases hdata.symm.trans (hlookup hgroup)
    exact ⟨_, hgroup, hP⟩
  have hdescribes : data.Describes := by
    refine describes_combineGroups _ ?_ (by simp) ?_
    · intro group hgroup
      rcases mem_append.mp hgroup with hgroup | hgroup
      · obtain ⟨⟨g, group⟩, htaken, rfl⟩ := mem_map.mp hgroup
        exact h.describes (hlookup htaken)
      · rw [mem_singleton.mp hgroup]
        exact describes_newOrderGroup htrace
    refine pairwise_append.mpr ⟨?_, pairwise_singleton .., ?_⟩
    · have hne : taken.Pairwise fun group group' => group.1 ≠ group'.1 :=
        pairwise_map.mp (hids ▸ hnodup)
      refine pairwise_map.mpr (hne.imp_of_mem fun {group group'} hgroup hgroup' hne order' ho ho' => ?_)
      exact hne (h.unique (htaken group hgroup) (htaken group' hgroup') ho ho')
    intro group hgroup group' hgroup' order' ho ho'
    obtain ⟨⟨g, group⟩, htaken, rfl⟩ := mem_map.mp hgroup
    rw [mem_singleton.mp hgroup'] at ho'
    rw [mem_singleton.mp ho'] at ho
    exact hfresh (hlookup htaken) ho
  have hlists : removed.Lists removed.Uses := by
    have hbase : ({ finder with groups := rest } : ConflictFinder).Lists finder.Uses :=
      ⟨h.lists.nodup, h.lists.mem⟩
    refine (hbase.removeGroups fun group hgroup => h.describes (htaken group hgroup)).congr
      fun g access => ?_
    simp only [Uses, hgroups, hrest]
    by_cases hg : g ∈ groupIds
    · obtain ⟨data', htaken'⟩ := hmem.mp hg
      rw [if_pos hg]
      refine iff_of_false ?_ (by simp)
      rintro ⟨⟨data'', hdata'', hhas⟩, hall⟩
      cases hdata''.symm.trans (hlookup htaken')
      exact hall _ htaken' ⟨rfl, hhas⟩
    · rw [if_neg hg]
      refine and_iff_left fun group hgroup heq => ?_
      exact hg (hmem.mpr ⟨group.2, heq.1 ▸ hgroup⟩)
  have hnone : removed.groups.lookup removed.groupCounter = none := by
    rw [hgroups, hcounter, hrest]
    split_ifs
    · rfl
    · exact h.lookup_counter
  refine ⟨removed.insertGroup data, data, ?_, ?_⟩
  · simp only [mergeGroups, htake, Option.bind_eq_bind, Option.bind_some, pure, removed, data]
  refine ⟨fun g => ?_, hlists.insertGroup hdescribes hnone, hdescribes, fun order' => ?_, fun r => ?_,
    Or.inr rfl, ?_, ?_, horders⟩
  · change (removed.groups.insert removed.groupCounter data).lookup g = _
    rw [hgroups, hcounter, lookup_insert_eq_ite, hrest]
  · have horders' : order' ∈ data.orders ↔ order' ∈ (newOrderGroup order usedState).orders ∨
        ∃ group ∈ taken, order' ∈ group.2.orders :=
      mem_flatMap.trans (exists_mem_taken taken _)
    rw [horders', htakenIff fun data' => order' ∈ data'.orders]
    exact or_congr_left mem_singleton
  · have hne : ∀ r ∈ groupIds, r ≠ finder.groupCounter := by
      rintro r hr rfl
      obtain ⟨data', hdata'⟩ := hlive _ hr
      exact lt_irrefl _ (h.lt_counter hdata')
    rw [mem_conflictingGroupIds_combineGroups, exists_mem_taken, hids,
      htakenIff fun data' => r ∈ data'.conflictingGroupIds, and_iff_left_of_imp (hne r)]
    exact or_congr_right (or_iff_right (Finset.notMem_empty r))
  · exact hcounter.ge.trans (Nat.le_succ _)
  · exact Nat.lt_succ_of_le hcounter.ge

end

/-- The id of an order is noted. -/
def noteOrder (finder : ConflictFinder) (id : OrderId) : ConflictFinder :=
  { finder with orders := insert id finder.orders }

theorem addOrder_of_none (h : order.id ∉ finder.orders) (htrace : order.usedStateTrace = none) :
    finder.addOrder order = some (finder.noteOrder order.id) := by
  unfold addOrder
  rw [if_neg h, htrace]
  rfl

theorem Sound.noteOrder (h : finder.Sound) (id : OrderId) : (finder.noteOrder id).Sound :=
  ⟨h.describes, ⟨h.lists.nodup, h.lists.mem⟩, h.unique, h.lt_counter⟩

theorem Sound.exists_merged (h : finder.Sound) (hnew : order.id ∉ finder.orders)
    (htrace : order.usedStateTrace = some usedState)
    (hfresh : ∀ {g data}, finder.groups.lookup g = some data → order ∉ data.orders) :
    ∃ finder' groupId data, finder.addOrder order = some finder' ∧
      Merged (finder.noteOrder order.id) order (finder.allGroupsInConflict usedState) finder' groupId
        data := by
  have hnoted := h.noteOrder order.id
  have hlive : ∀ g ∈ finder.allGroupsInConflict usedState,
      ∃ data, finder.groups.lookup g = some data := by
    intro g hg
    obtain ⟨_, _, _, ⟨data, hdata, -⟩, -⟩ := (mem_allGroupsInConflict h.lists usedState g).mp hg
    exact ⟨data, hdata⟩
  have hnodup : (finder.allGroupsInConflict usedState).Nodup := nodup_dedup _
  have hadd : finder.addOrder order = (finder.noteOrder order.id).joinGroups
      (newOrderGroup order usedState) (finder.allGroupsInConflict usedState) := by
    unfold addOrder
    rw [if_neg hnew, htrace]
    rfl
  rw [hadd]
  rcases hids : finder.allGroupsInConflict usedState with _ | ⟨g, _ | ⟨g', groupIds⟩⟩
  · exact ⟨_, _, _, rfl, hnoted.merged_insertGroup htrace⟩
  · obtain ⟨other, hother⟩ := hlive g (hids ▸ mem_cons_self)
    refine ⟨_, g, _, ?_, hnoted.merged_replaceGroup htrace hother (hfresh hother)⟩
    have hnotedOther : (finder.noteOrder order.id).groups.lookup g = some other := hother
    simp only [joinGroups, hnotedOther]
    rfl
  · obtain ⟨finder', data, hmerge, hmerged⟩ := hnoted.merged_mergeGroups htrace (hids ▸ hnodup)
      (hids ▸ hlive) hfresh
    exact ⟨finder', _, data, hmerge, hmerged⟩

end Merge

end ConflictFinder

end Parallel
