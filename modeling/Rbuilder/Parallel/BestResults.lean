/-
  The best result of each group, from `results_aggregator.rs`, and the orders that the block
  assembler takes from them.

  Results come in for groups as they were at any time (`Snapshot`). A group that absorbed others
  replaces their results if its own is better. A result of an absorbed group is only compared
  with the results of the groups that it absorbed itself, not with that of the group that
  absorbed it. `best_results_exclusive_iff` says which arrivals lead to both being kept.
-/
import Mathlib.Algebra.BigOperators.Group.Finset.Basic
import Mathlib.Order.Lattice.Nat
import Rbuilder.Parallel.OrderGroups
import Rbuilder.Runs

namespace Parallel

open Building (OrderId)
open ConflictFinder List Nat

/-! ## Results -/

/-- The orders of a group in sequence, by index and with their profits. -/
structure ResolutionResult where
  totalProfit : Nat
  sequenceOfOrders : List (Nat × Nat)
  deriving DecidableEq

structure BestResults where
  data : AList fun _ : Nat => ResolutionResult × ConflictGroup := ∅
  version : UInt64 := 0

/-- The ids one after the other. They come in hash order in the source. -/
def ConflictGroup.conflictingIdList (group : ConflictGroup) : List Nat :=
  (List.range (group.conflictingGroupIds.sup (fun c => c) + 1)).filter (· ∈ group.conflictingGroupIds)

theorem ConflictGroup.mem_conflictingIdList {group : ConflictGroup} {c : Nat} :
    c ∈ group.conflictingIdList ↔ c ∈ group.conflictingGroupIds := by
  unfold ConflictGroup.conflictingIdList
  rw [mem_filter, decide_eq_true_iff, mem_range]
  refine and_iff_right_of_imp fun hmem => lt_succ_of_le ?_
  exact Finset.le_sup (f := fun c => c) hmem

namespace BestResults

section

variable (best : BestResults)

/-- The groups that the new one takes the place of; `none` if one of them is as good. -/
def groupsToRemove (sequenceOfOrders : ResolutionResult) (conflictingGroupIds : List Nat) :
    Option (List Nat) :=
  conflictingGroupIds.foldlM (fun toRemove conflictingId =>
    match best.data.lookup conflictingId with
    | some existing =>
      if sequenceOfOrders.totalProfit > existing.1.totalProfit then some (toRemove ++ [conflictingId])
      else none
    | none => some toRemove) []

/-- The entry of the group: whether it was updated, the old profit and the entries. -/
def updateEntry (groupId : Nat) (sequenceOfOrders : ResolutionResult) (orderGroup : ConflictGroup) :
    Bool × Nat × AList fun _ : Nat => ResolutionResult × ConflictGroup :=
  match best.data.lookup groupId with
  | some entry =>
    if sequenceOfOrders.totalProfit > entry.1.totalProfit then
      (true, entry.1.totalProfit, best.data.insert groupId (sequenceOfOrders, orderGroup))
    else (false, 0, best.data)
  | none => (true, 0, best.data.insert groupId (sequenceOfOrders, orderGroup))

def updateBestResult (groupId : Nat) (sequenceOfOrders : ResolutionResult)
    (orderGroup : ConflictGroup) : (Bool × Nat) × BestResults :=
  match best.groupsToRemove sequenceOfOrders orderGroup.conflictingIdList with
  | none => ((false, 0), best)
  | some toRemove =>
    let (updated, oldProfit, data) := best.updateEntry groupId sequenceOfOrders orderGroup
    let data := toRemove.foldl (fun data conflictingId => data.erase conflictingId) data
    ((updated, oldProfit),
      ⟨data, if updated || !toRemove.isEmpty then best.version + 1 else best.version⟩)

/-- The results in the order of the map. -/
def getResults : List (ResolutionResult × ConflictGroup) :=
  best.data.entries.map Sigma.snd

end

end BestResults

/-! ## Updates -/

namespace BestResults

variable {best : BestResults} {result : ResolutionResult} {group : ConflictGroup}

section

variable (best : BestResults)

/-- A stored group of the list is worth at least the new result. -/
def AsGood (result : ResolutionResult) (ids : List Nat) : Prop :=
  ∃ c ∈ ids, ∃ entry, best.data.lookup c = some entry ∧ result.totalProfit ≤ entry.1.totalProfit

/-- The profit that is stored for the group. -/
def profitOf (g : Nat) : Nat := (best.data.lookup g).elim 0 fun entry => entry.1.totalProfit

theorem groupsToRemove_spec (result : ResolutionResult) (ids : List Nat) :
    (best.groupsToRemove result ids = none ∧ best.AsGood result ids) ∨
      ∃ toRemove, best.groupsToRemove result ids = some toRemove ∧ ¬best.AsGood result ids ∧
        ∀ c, c ∈ toRemove ↔ c ∈ ids ∧ best.data.lookup c ≠ none := by
  induction ids using reverseRecOn with
  | nil => exact Or.inr ⟨[], rfl, fun ⟨c, hc, _⟩ => not_mem_nil hc, fun c => by simp⟩
  | append_singleton ids c ih =>
    unfold groupsToRemove at ih ⊢
    rw [foldlM_append]
    rcases ih with ⟨hnone, c', hc', hgood⟩ | ⟨toRemove, hsome, hbetter, hmem⟩
    · rw [hnone]
      exact Or.inl ⟨rfl, c', mem_append_left _ hc', hgood⟩
    rw [hsome, Option.bind_eq_bind, Option.bind_some, foldlM_cons]
    have hlast : best.AsGood result (ids ++ [c]) → ∃ entry, best.data.lookup c = some entry ∧
        result.totalProfit ≤ entry.1.totalProfit := by
      rintro ⟨c', hc', hgood⟩
      rcases mem_append.mp hc' with hc' | hc'
      · exact absurd ⟨c', hc', hgood⟩ hbetter
      · exact mem_singleton.mp hc' ▸ hgood
    cases hlookup : best.data.lookup c with
    | none =>
      refine Or.inr ⟨toRemove, rfl, fun hgood => ?_, fun c' => (hmem c').trans ?_⟩
      · obtain ⟨entry, hentry, -⟩ := hlast hgood
        cases hlookup.symm.trans hentry
      rw [mem_append, mem_singleton, or_and_right]
      refine (or_iff_left ?_).symm
      rintro ⟨rfl, hpresent⟩
      exact hpresent hlookup
    | some existing =>
      dsimp only
      split_ifs with hgt
      · refine Or.inr ⟨toRemove ++ [c], rfl, fun hgood => ?_, fun c' => ?_⟩
        · obtain ⟨entry, hentry, hle⟩ := hlast hgood
          cases hlookup.symm.trans hentry
          exact not_lt.mpr hle hgt
        rw [mem_append, mem_append, mem_singleton, hmem, or_and_right]
        refine or_congr_right (iff_self_and.mpr ?_)
        rintro rfl
        simp [hlookup]
      · exact Or.inl ⟨rfl, c, mem_append_right _ mem_cons_self, existing, hlookup, not_lt.mp hgt⟩

theorem lookup_updateEntry (g : Nat) (result : ResolutionResult) (group : ConflictGroup) :
    ∃ entry, (entry = (result, group) ∨ best.data.lookup g = some entry) ∧
      entry.1.totalProfit = max result.totalProfit (best.profitOf g) ∧
      ∀ k, (best.updateEntry g result group).2.2.lookup k =
        if k = g then some entry else best.data.lookup k := by
  have hinsert := (AList.lookup_insert_eq_ite best.data g · (result, group))
  unfold updateEntry profitOf
  cases hlookup : best.data.lookup g with
  | none => exact ⟨(result, group), Or.inl rfl, (max_zero _).symm, hinsert⟩
  | some entry =>
    dsimp only [Option.elim_some]
    split_ifs with hgt
    · exact ⟨(result, group), Or.inl rfl, (max_eq_left (le_of_lt hgt)).symm, hinsert⟩
    refine ⟨entry, Or.inr rfl, (max_eq_right (not_lt.mp hgt)).symm, fun k => ?_⟩
    split_ifs with heq
    · rw [heq, hlookup]
    · rfl

/-- An update leaves everything as it is if a conflicting group is as good. Else the conflicting
    groups go and the group has an entry. -/
theorem lookup_updateBestResult (result : ResolutionResult) {group : ConflictGroup}
    (hself : group.id ∉ group.conflictingGroupIds) :
    ((best.updateBestResult group.id result group).2 = best ∧
        best.AsGood result group.conflictingIdList) ∨
      ¬best.AsGood result group.conflictingIdList ∧
        ∃ entry, (entry = (result, group) ∨ best.data.lookup group.id = some entry) ∧
          entry.1.totalProfit = max result.totalProfit (best.profitOf group.id) ∧
          ∀ k, (best.updateBestResult group.id result group).2.data.lookup k =
            if k ∈ group.conflictingGroupIds then none
            else if k = group.id then some entry else best.data.lookup k := by
  unfold updateBestResult
  rcases best.groupsToRemove_spec result group.conflictingIdList with
    ⟨hnone, hgood⟩ | ⟨toRemove, hsome, hbetter, hmem⟩
  · rw [hnone]
    exact Or.inl ⟨rfl, hgood⟩
  rw [hsome]
  obtain ⟨entry, hentry, hprofit, hlookup⟩ := best.lookup_updateEntry group.id result group
  refine Or.inr ⟨hbetter, entry, hentry, hprofit, fun k => ?_⟩
  rw [AList.lookup_foldl_erase, hlookup]
  by_cases hk : k ∈ group.conflictingGroupIds
  · have hne : k ≠ group.id := fun heq => hself (heq ▸ hk)
    rw [if_pos hk, if_neg hne]
    by_cases hpresent : best.data.lookup k = none
    · rw [hpresent, ite_self]
    · rw [if_pos ((hmem k).mpr ⟨ConflictGroup.mem_conflictingIdList.mpr hk, hpresent⟩)]
  · rw [if_neg hk, if_neg fun hremove =>
      hk (ConflictGroup.mem_conflictingIdList.mp ((hmem k).mp hremove).1)]

/-! ## The value of the results -/

/-- No two groups of which one absorbed the other. -/
def Exclusive : Prop :=
  ∀ g entry g' entry', best.data.lookup g = some entry → best.data.lookup g' = some entry' →
    g ∉ entry'.2.conflictingGroupIds

def totalProfit : Nat := ∑ g ∈ best.data.keys.toFinset, best.profitOf g

end

theorem totalProfit_eq_sum {groups : Finset Nat} (h : best.data.keys.toFinset ⊆ groups) :
    best.totalProfit = ∑ g ∈ groups, best.profitOf g := by
  refine Finset.sum_subset h fun g _ hg => ?_
  unfold profitOf
  rw [AList.lookup_eq_none.mpr fun hmem => hg (mem_toFinset.mpr hmem)]
  rfl

/-- An update does not lower the value of the results exactly if a group that it would remove is as
    good as the new one, or the groups it removes are not worth more than what the group gains. -/
theorem update_keeps_value_iff (best : BestResults) (result : ResolutionResult)
    {group : ConflictGroup} (hself : group.id ∉ group.conflictingGroupIds) :
    best.totalProfit ≤ (best.updateBestResult group.id result group).2.totalProfit ↔
      best.AsGood result group.conflictingIdList ∨
        best.profitOf group.id + ∑ c ∈ group.conflictingGroupIds, best.profitOf c ≤
          max result.totalProfit (best.profitOf group.id) := by
  rcases best.lookup_updateBestResult result hself with ⟨heq, hgood⟩ |
    ⟨hbetter, entry, -, hprofit, hlookup⟩
  · rw [heq]
    exact iff_of_true le_rfl (Or.inl hgood)
  rw [or_iff_right hbetter]
  generalize (best.updateBestResult group.id result group).2 = after at hlookup
  have hafter (k : Nat) : after.profitOf k = if k ∈ group.conflictingGroupIds then 0
      else if k = group.id then entry.1.totalProfit else best.profitOf k := by
    unfold profitOf
    rw [hlookup]
    split_ifs <;> rfl
  -- the groups outside of `touched` keep their profits
  let touched := insert group.id group.conflictingGroupIds
  let groups := best.data.keys.toFinset ∪ after.data.keys.toFinset ∪ touched
  have hsub : touched ⊆ groups := Finset.subset_union_right
  have hrest : ∑ g ∈ groups \ touched, after.profitOf g = ∑ g ∈ groups \ touched, best.profitOf g := by
    refine Finset.sum_congr rfl fun g hg => ?_
    have hg' := (Finset.mem_sdiff.mp hg).2
    rw [Finset.mem_insert, not_or] at hg'
    rw [hafter, if_neg hg'.2, if_neg hg'.1]
  have hremoved : ∑ c ∈ group.conflictingGroupIds, after.profitOf c = 0 :=
    Finset.sum_eq_zero fun c hc => by rw [hafter, if_pos hc]
  rw [totalProfit_eq_sum (Finset.subset_union_left.trans Finset.subset_union_left),
    totalProfit_eq_sum (Finset.subset_union_right.trans Finset.subset_union_left),
    ← Finset.sum_sdiff hsub, ← Finset.sum_sdiff hsub, hrest, Finset.sum_insert hself,
    Finset.sum_insert hself, hremoved, hafter group.id, if_neg hself, if_pos rfl, hprofit,
    add_le_add_iff_left, add_zero]

/-- The results of two groups that do not conflict with each other. -/
def twoGroups : BestResults :=
  ((({} : BestResults).updateBestResult 0 ⟨8, []⟩ ⟨0, [], ∅⟩).2.updateBestResult 1 ⟨8, []⟩
    ⟨1, [], ∅⟩).2

theorem absorbing_group_loses_value :
    twoGroups.Exclusive ∧ ¬twoGroups.totalProfit ≤
      (twoGroups.updateBestResult 2 ⟨10, []⟩ ⟨2, [], {0, 1}⟩).2.totalProfit := by
  refine ⟨fun g entry g' entry' _ hlookup' => ?_, by decide⟩
  have hempty : ∀ e ∈ twoGroups.data.entries, e.2.2.conflictingGroupIds = ∅ := by decide
  rw [hempty _ (AList.mem_lookup_iff.mp hlookup')]
  exact Finset.notMem_empty g

theorem absorbing_group_keeps_value :
    twoGroups.totalProfit ≤ (twoGroups.updateBestResult 2 ⟨16, []⟩ ⟨2, [], {0, 1}⟩).2.totalProfit :=
  (@update_keeps_value_iff twoGroups ⟨16, []⟩ ⟨2, [], {0, 1}⟩ (by decide)).mpr (Or.inr (by decide))

end BestResults

/-! ## The block assembler -/

/-- The next order of the first group that has one, and what is left. -/
def takeNext : List (ResolutionResult × ConflictGroup) →
    Option ((Nat × ConflictGroup) × List (ResolutionResult × ConflictGroup))
  | [] => none
  | (result, group) :: rest =>
    match result.sequenceOfOrders with
    | [] => (takeNext rest).map fun next => (next.1, (result, group) :: next.2)
    | (orderIdx, _) :: sequence =>
      some ((orderIdx, group), ({ result with sequenceOfOrders := sequence }, group) :: rest)

section

variable (results : List (ResolutionResult × ConflictGroup))

/-- The orders that are still to be taken, in sequence. -/
def remaining : List (Nat × ConflictGroup) :=
  results.flatMap fun result => result.1.sequenceOfOrders.map fun order => (order.1, result.2)

theorem takeNext_spec :
    match takeNext results with
    | none => remaining results = []
    | some (next, rest) => remaining results = next :: remaining rest := by
  induction results with
  | nil => rfl
  | cons result results ih =>
    obtain ⟨⟨totalProfit, sequence⟩, group⟩ := result
    cases sequence with
    | cons order sequence => rfl
    | nil =>
      unfold takeNext
      generalize takeNext results = next at ih
      cases next with
      | none | some next => exact ih

/-- The orders that the loop of `build_new_block` commits. An index that is not in the group
    panics. -/
def loopOrders (results : List (ResolutionResult × ConflictGroup)) : Option (List SimulatedOrder) :=
  match _hnext : takeNext results with
  | none => some []
  | some ((orderIdx, group), rest) => do
    let order ← group.orders[orderIdx]?
    let orders ← loopOrders rest
    return order :: orders
termination_by (remaining results).length
decreasing_by
  have hremaining := takeNext_spec results
  rw [_hnext] at hremaining
  rw [hremaining]
  exact lt_succ_self _

/-- `build_new_block`: the best group first. -/
def buildNewBlock : Option (List SimulatedOrder) :=
  loopOrders (results.insertionSort fun a b => b.1.totalProfit ≤ a.1.totalProfit)

theorem loopOrders_eq :
    loopOrders results = (remaining results).mapM fun next => next.2.orders[next.1]? := by
  fun_induction loopOrders results with
  | case1 results hnext =>
    have hremaining := takeNext_spec results
    rw [hnext] at hremaining
    rw [hremaining]
    rfl
  | case2 results orderIdx group rest hnext ih =>
    have hremaining := takeNext_spec results
    rw [hnext] at hremaining
    rw [hremaining, mapM_cons, ih]

end

/-! ## Groups at different times -/

/-- A group as it was after some of the orders. -/
def Snapshot (orders : List SimulatedOrder) (group : ConflictGroup) : Prop :=
  ∃ earlier finder, earlier <+: orders ∧ ConflictFinder.Reached earlier finder ∧
    group ∈ finder.getOrderGroups

theorem distinctOrders_mono {earlier orders : List SimulatedOrder} (h : earlier <+: orders) :
    distinctOrders earlier ⊆ distinctOrders orders := by
  obtain ⟨later, rfl⟩ := h
  rintro order ⟨htrace, hfind⟩
  refine ⟨htrace, ?_⟩
  rw [find?_append, hfind, Option.some_or]

section Snapshots

variable {orders : List SimulatedOrder} {group group' : ConflictGroup} {order : SimulatedOrder}

section

variable (h : Snapshot orders group)
include h

theorem Snapshot.mem_distinctOrders (hmem : order ∈ group.orders) :
    order ∈ distinctOrders orders := by
  obtain ⟨earlier, finder, hpre, hreached, hgroup⟩ := h
  obtain ⟨data, hlookup, horders, -⟩ := mem_getOrderGroups.mp hgroup
  exact distinctOrders_mono hpre (hreached.inv.mem_nodes hlookup (horders ▸ hmem))

theorem Snapshot.nodup : group.orders.Nodup := by
  obtain ⟨earlier, finder, -, hreached, hgroup⟩ := h
  obtain ⟨data, hlookup, horders, -⟩ := mem_getOrderGroups.mp hgroup
  exact horders ▸ (hreached.inv.describes hlookup).nodup

theorem Snapshot.id_notMem : group.id ∉ group.conflictingGroupIds := by
  obtain ⟨earlier, finder, -, hreached, hgroup⟩ := h
  obtain ⟨data, hlookup, -, hids⟩ := mem_getOrderGroups.mp hgroup
  intro hmem
  cases (hreached.inv.retired hlookup (hids ▸ hmem)).1.symm.trans hlookup

/-- Of two groups with an order in common, one has the id of the other if they are not the same. -/
theorem Snapshot.of_mem (h' : Snapshot orders group')
    (hmem : order ∈ group.orders) (hmem' : order ∈ group'.orders) :
    group.id = group'.id ∨ group.id ∈ group'.conflictingGroupIds ∨
      group'.id ∈ group.conflictingGroupIds := by
  -- the earlier group grew into the later one
  have hlater : ∀ {group group' : ConflictGroup} {earlier later : List SimulatedOrder}
      {finder finder' : ConflictFinder}, Reached earlier finder →
      Reached (earlier ++ later) finder' → group ∈ finder.getOrderGroups →
      group' ∈ finder'.getOrderGroups → order ∈ group.orders → order ∈ group'.orders →
      group.id = group'.id ∨ group.id ∈ group'.conflictingGroupIds := by
    intro group group' earlier later finder finder' hreached hreached' hgroup hgroup' hmem hmem'
    obtain ⟨data, hlookup, horders, -⟩ := mem_getOrderGroups.mp hgroup
    obtain ⟨data', hlookup', horders', hids'⟩ := mem_getOrderGroups.mp hgroup'
    rw [horders] at hmem
    rw [horders'] at hmem'
    rcases hreached.grows hreached' hlookup with ⟨data₁, hlookup₁, hsubset, -⟩ |
      ⟨g, data₁, hlookup₁, hid, hsubset, -⟩
    · exact Or.inl (hreached'.inv.unique hlookup₁ hlookup' (hsubset hmem) hmem')
    · obtain rfl := hreached'.inv.unique hlookup₁ hlookup' (hsubset hmem) hmem'
      cases hlookup₁.symm.trans hlookup'
      exact Or.inr (hids' ▸ hid)
  obtain ⟨earlier, finder, hpre, hreached, hgroup⟩ := h
  obtain ⟨earlier', finder', hpre', hreached', hgroup'⟩ := h'
  rcases prefix_or_prefix_of_prefix hpre hpre' with ⟨later, rfl⟩ | ⟨later, rfl⟩
  · rcases hlater hreached hreached' hgroup hgroup' hmem hmem' with heq | hid
    · exact Or.inl heq
    · exact Or.inr (Or.inl hid)
  · rcases hlater hreached' hreached hgroup' hgroup hmem' hmem with heq | hid
    · exact Or.inl heq.symm
    · exact Or.inr (Or.inr hid)

/-- A group that absorbed another one has the ids of that one. -/
theorem Snapshot.absorbs (h' : Snapshot orders group')
    (hid : group.id ∈ group'.conflictingGroupIds) :
    group.conflictingGroupIds ⊆ group'.conflictingGroupIds := by
  obtain ⟨earlier, finder, hpre, hreached, hgroup⟩ := h
  obtain ⟨earlier', finder', hpre', hreached', hgroup'⟩ := h'
  obtain ⟨data, hlookup, -, hids⟩ := mem_getOrderGroups.mp hgroup
  obtain ⟨data', hlookup', -, hids'⟩ := mem_getOrderGroups.mp hgroup'
  rw [hids'] at hid
  rcases prefix_or_prefix_of_prefix hpre hpre' with ⟨later, rfl⟩ | ⟨later, rfl⟩
  · rcases hreached.grows hreached' hlookup with ⟨data₁, hlookup₁, -⟩ |
      ⟨g, data₁, hlookup₁, hid₁, -, hsubset⟩
    · cases (hreached'.inv.retired hlookup' hid).1.symm.trans hlookup₁
    obtain rfl := hreached'.inv.disjoint hlookup₁ hlookup' hid₁ hid
    cases hlookup₁.symm.trans hlookup'
    rw [hids, hids']
    exact hsubset
  -- the id is retired before the group is looked at
  rcases hreached'.grows hreached hlookup' with ⟨data₁, hlookup₁, -, hsame⟩ |
    ⟨g, data₁, hlookup₁, -, -, hsubset⟩
  · cases (hreached.inv.retired hlookup₁ (hsame ▸ hid)).1.symm.trans hlookup
  · cases (hreached.inv.retired hlookup₁ (hsubset hid)).1.symm.trans hlookup

end

end Snapshots

/-! ## Arrivals -/

/-- A result for a group of the history: a sequence of orders of the group. -/
structure Arrival (orders : List SimulatedOrder) where
  group : ConflictGroup
  result : ResolutionResult
  snapshot : Snapshot orders group
  valid : ∀ order ∈ result.sequenceOfOrders, order.1 < group.orders.length
  nodup : (result.sequenceOfOrders.map Prod.fst).Nodup

namespace BestResults

variable {orders : List SimulatedOrder}

def afterArrivals (arrivals : List (Arrival orders)) : BestResults :=
  arrivals.foldl (fun best arrival =>
    (best.updateBestResult arrival.group.id arrival.result arrival.group).2) {}

/-- Every entry came in under the id of its group. -/
def Arrived (orders : List SimulatedOrder) (best : BestResults) : Prop :=
  ∀ g entry, best.data.lookup g = some entry →
    ∃ arrival : Arrival orders, arrival.group.id = g ∧ entry = (arrival.result, arrival.group)

variable {best : BestResults} {results : List (ResolutionResult × ConflictGroup)}

theorem Arrived.update (h : Arrived orders best) (arrival : Arrival orders) :
    Arrived orders (best.updateBestResult arrival.group.id arrival.result arrival.group).2 := by
  rcases best.lookup_updateBestResult arrival.result arrival.snapshot.id_notMem with ⟨heq, -⟩ |
    ⟨-, entry, hentry, -, hlookup⟩
  · rw [heq]
    exact h
  intro g entry' hsome
  rw [hlookup] at hsome
  split_ifs at hsome with hremoved heq
  · cases hsome
    subst heq
    rcases hentry with rfl | hold
    · exact ⟨arrival, rfl, rfl⟩
    · exact h _ _ hold
  · exact h g entry' hsome

theorem exclusive_update_iff (h : Arrived orders best) (hexclusive : best.Exclusive)
    (arrival : Arrival orders) :
    (best.updateBestResult arrival.group.id arrival.result arrival.group).2.Exclusive ↔
      ∀ g entry, best.data.lookup g = some entry → arrival.group.id ∉ entry.2.conflictingGroupIds := by
  rcases best.lookup_updateBestResult arrival.result arrival.snapshot.id_notMem with
    ⟨heq, c, hc, existing, hexisting, -⟩ | ⟨-, entry, hentry, -, hlookup⟩
  · rw [heq]
    refine iff_of_true hexclusive fun g entry hsome hmem => ?_
    -- the group that is as good would be absorbed by the same group
    obtain ⟨arrival', -, rfl⟩ := h g entry hsome
    exact hexclusive c existing g _ hexisting hsome
      (arrival.snapshot.absorbs arrival'.snapshot hmem (ConflictGroup.mem_conflictingIdList.mp hc))
  have hself : arrival.group.id ∉ arrival.group.conflictingGroupIds := arrival.snapshot.id_notMem
  constructor
  · intro hafter g entry' hsome hmem
    obtain ⟨arrival', hid, rfl⟩ := h g entry' hsome
    have hne : g ≠ arrival.group.id := by
      rintro rfl
      exact hexclusive _ _ _ _ hsome hsome hmem
    have hkept : g ∉ arrival.group.conflictingGroupIds := by
      intro hg
      have hown := arrival.snapshot.absorbs arrival'.snapshot hmem hg
      exact arrival'.snapshot.id_notMem (hid ▸ hown)
    refine hafter arrival.group.id entry g _ ?_ ?_ hmem
    · rw [hlookup, if_neg hself, if_pos rfl]
    · rw [hlookup, if_neg hkept, if_neg hne]
      exact hsome
  · intro hcond g entry₁ g' entry₂ hsome hsome' hmem
    rw [hlookup] at hsome hsome'
    split_ifs at hsome hsome' with hg heq hg' heq' hg' heq'
    · cases hsome'
      subst heq
      rcases hentry with rfl | hold
      · exact hg hmem
      · exact hcond _ _ hold hmem
    · subst heq
      exact hcond _ _ hsome' hmem
    · cases hsome'
      rcases hentry with rfl | hold
      · exact hg hmem
      · exact hexclusive _ _ _ _ hsome hold hmem
    · exact hexclusive _ _ _ _ hsome hsome' hmem

/-! ## What is handed to the assembler -/

/-- The orders of a result in sequence. -/
def resultOrders (result : ResolutionResult × ConflictGroup) : List SimulatedOrder :=
  (result.1.sequenceOfOrders.map Prod.fst).filterMap fun orderIdx => result.2.orders[orderIdx]?

variable {result entry entry' : ResolutionResult × ConflictGroup}

theorem mem_of_mem_resultOrders {order : SimulatedOrder}
    (h : order ∈ resultOrders result) : order ∈ result.2.orders := by
  obtain ⟨orderIdx, -, hsome⟩ := mem_filterMap.mp h
  exact mem_of_getElem? hsome

theorem nodup_resultOrders (arrival : Arrival orders) :
    ((resultOrders (arrival.result, arrival.group)).map SimulatedOrder.id).Nodup := by
  refine List.Nodup.map_on ?_ (arrival.nodup.filterMap ?_)
  · intro order hmem order' hmem' hid
    exact eq_of_mem_distinctOrders (arrival.snapshot.mem_distinctOrders (mem_of_mem_resultOrders hmem))
      (arrival.snapshot.mem_distinctOrders (mem_of_mem_resultOrders hmem')) hid
  intro i j order hi hj
  have hi' : arrival.group.orders[i]? = some order := hi
  exact (List.getElem?_inj (List.getElem?_eq_some_iff.mp hi').1 arrival.snapshot.nodup).mp
    (hi'.trans hj.symm)

theorem disjoint_resultOrders (h : Arrived orders best) (hexclusive : best.Exclusive) {g g' : Nat}
    (hlookup : best.data.lookup g = some entry) (hlookup' : best.data.lookup g' = some entry')
    (hne : g ≠ g') : ((resultOrders entry).map SimulatedOrder.id).Disjoint
      ((resultOrders entry').map SimulatedOrder.id) := by
  intro id hmem hmem'
  obtain ⟨order, horder, rfl⟩ := mem_map.mp hmem
  obtain ⟨order', horder', hid⟩ := mem_map.mp hmem'
  obtain ⟨arrival, rfl, rfl⟩ := h g entry hlookup
  obtain ⟨arrival', rfl, rfl⟩ := h g' entry' hlookup'
  have hin := mem_of_mem_resultOrders horder
  have hin' := mem_of_mem_resultOrders horder'
  obtain rfl := eq_of_mem_distinctOrders (arrival'.snapshot.mem_distinctOrders hin')
    (arrival.snapshot.mem_distinctOrders hin) hid
  rcases arrival.snapshot.of_mem arrival'.snapshot hin hin' with heq | hmem | hmem
  · exact hne heq
  · exact hexclusive _ _ _ _ hlookup hlookup' hmem
  · exact hexclusive _ _ _ _ hlookup' hlookup hmem

theorem mapM_eq_filterMap {α β : Type} {f : α → Option β} {l : List α}
    (h : ∀ a ∈ l, ∃ b, f a = some b) : l.mapM f = some (l.filterMap f) := by
  induction l with
  | nil => rfl
  | cons a l ih =>
    obtain ⟨b, hb⟩ := h a mem_cons_self
    rw [mapM_cons, hb, ih fun a hmem => h a (mem_cons_of_mem _ hmem), filterMap_cons_some hb]
    rfl

theorem loopOrders_eq_flatMap
    (h : ∀ result ∈ results, ∀ order ∈ result.1.sequenceOfOrders, order.1 < result.2.orders.length) :
    loopOrders results = some (results.flatMap resultOrders) := by
  have hvalid : ∀ next ∈ remaining results, ∃ order, next.2.orders[next.1]? = some order := by
    intro next hnext
    obtain ⟨result, hresult, hnext⟩ := mem_flatMap.mp hnext
    obtain ⟨order, horder, rfl⟩ := mem_map.mp hnext
    exact ⟨_, getElem?_eq_getElem (h result hresult order horder)⟩
  rw [loopOrders_eq, mapM_eq_filterMap hvalid]
  unfold remaining resultOrders
  rw [filterMap_flatMap]
  simp only [filterMap_map]
  rfl

/-- While the groups are exclusive, every order is handed over once. -/
theorem buildNewBlock_nodup (h : Arrived orders best) (hexclusive : best.Exclusive)
    (hperm : results.Perm best.getResults) :
    ∃ handed, buildNewBlock results = some handed ∧ (handed.map SimulatedOrder.id).Nodup := by
  have hsorted : (results.insertionSort fun a b => b.1.totalProfit ≤ a.1.totalProfit).Perm
      best.getResults := (perm_insertionSort ..).trans hperm
  have hentry : ∀ entry ∈ best.data.entries, best.data.lookup entry.1 = some entry.2 :=
    fun entry hmem => AList.mem_lookup_iff.mpr hmem
  have harrival : ∀ result ∈ best.getResults, ∃ arrival : Arrival orders,
      result = (arrival.result, arrival.group) := by
    intro result hmem
    obtain ⟨entry, hin, rfl⟩ := mem_map.mp hmem
    obtain ⟨arrival, -, heq⟩ := h _ _ (hentry entry hin)
    exact ⟨arrival, heq⟩
  refine ⟨_, loopOrders_eq_flatMap fun result hmem => ?_, ?_⟩
  · obtain ⟨arrival, rfl⟩ := harrival result (hsorted.mem_iff.mp hmem)
    exact arrival.valid
  rw [map_flatMap]
  refine ((hsorted.flatMap_right _).nodup_iff).mpr (nodup_flatMap.mpr ⟨fun result hmem => ?_, ?_⟩)
  · obtain ⟨arrival, rfl⟩ := harrival result hmem
    exact nodup_resultOrders arrival
  have hkeys : best.data.entries.Pairwise fun entry entry' => entry.1 ≠ entry'.1 :=
    pairwise_map.mp best.data.keys_nodup
  refine pairwise_map.mpr (hkeys.imp_of_mem fun {entry entry'} hmem hmem' hne => ?_)
  exact disjoint_resultOrders h hexclusive (hentry entry hmem) (hentry entry' hmem') hne

/-! ## Runs -/

theorem afterArrivals_append_singleton (done : List (Arrival orders)) (arrival : Arrival orders) :
    afterArrivals (done ++ [arrival]) =
      ((afterArrivals done).updateBestResult arrival.group.id arrival.result arrival.group).2 := by
  simp [afterArrivals]

variable (arrivals : List (Arrival orders))

theorem arrived_afterArrivals :
    Arrived orders (afterArrivals arrivals) := by
  induction arrivals using reverseRecOn with
  | nil =>
    intro g entry hlookup
    cases hlookup
  | append_singleton arrivals arrival ih =>
    rw [afterArrivals_append_singleton]
    exact ih.update arrival

/-- A group is never kept together with one that it absorbed exactly if no result arrives for a
    group while the result of a group that absorbed it is kept. Then no order is handed to the
    assembler twice. -/
theorem best_results_exclusive_iff :
    ((∀ done, done <+: arrivals → (afterArrivals done).Exclusive) ↔
      ∀ done arrival, done ++ [arrival] <+: arrivals →
        ∀ g entry, (afterArrivals done).data.lookup g = some entry →
          arrival.group.id ∉ entry.2.conflictingGroupIds) ∧
    ∀ done, done <+: arrivals → (afterArrivals done).Exclusive →
      ∀ results, results.Perm (afterArrivals done).getResults →
        ∃ handed, buildNewBlock results = some handed ∧ (handed.map SimulatedOrder.id).Nodup := by
  refine ⟨?_, fun done _ hexclusive results =>
    buildNewBlock_nodup (arrived_afterArrivals done) hexclusive⟩
  refine Runs.forall_states_iff ?_ (fun done arrival hexclusive => ?_) arrivals
  · intro g entry g' entry' hlookup
    cases hlookup
  · rw [afterArrivals_append_singleton]
    exact exclusive_update_iff (arrived_afterArrivals done) hexclusive arrival

/-! ## A late result -/

/-- An order that creates contracts. -/
def creator (n : UInt8) (contracts : List UInt8) : SimulatedOrder where
  order := .bundle (Vector.replicate 16 n) none ⟨none, none, none, [], [], [], none⟩
  simValue := .new 0 0 .zero []
  usedStateTrace := some { createdContracts := contracts.map fun c => Vector.replicate 20 c }

/-- The third order joins the groups of the first two. -/
def mergingOrders : List SimulatedOrder := [creator 1 [7], creator 2 [8], creator 3 [7, 8]]

/-- A result for the group of all orders. -/
def mergedArrival : Arrival mergingOrders where
  group := ⟨2, mergingOrders, {0, 1}⟩
  result := ⟨5, [(0, 1), (1, 1), (2, 3)]⟩
  snapshot := ⟨mergingOrders, _, List.prefix_refl _, rfl, List.mem_singleton.mpr rfl⟩
  valid := by decide
  nodup := by decide

/-- A result for the first order, from before the groups were merged. -/
def lateArrival : Arrival mergingOrders where
  group := ⟨0, [creator 1 [7]], ∅⟩
  result := ⟨1, [(0, 1)]⟩
  snapshot := ⟨[creator 1 [7]], _, ⟨[creator 2 [8], creator 3 [7, 8]], rfl⟩, rfl,
    List.mem_singleton.mpr rfl⟩
  valid := by decide
  nodup := by decide

/-- The late result is kept beside that of the merged group, and its order is handed over twice. -/
theorem late_result_kept :
    ¬(afterArrivals [mergedArrival, lateArrival]).Exclusive ∧
      ∃ handed, buildNewBlock (afterArrivals [mergedArrival, lateArrival]).getResults = some handed ∧
        ¬(handed.map SimulatedOrder.id).Nodup := by
  constructor
  · intro hexclusive
    exact hexclusive 0 (lateArrival.result, lateArrival.group) 2
      (mergedArrival.result, mergedArrival.group)
      rfl rfl (by decide)
  · refine ⟨_, loopOrders_eq_flatMap ?_, ?_⟩
    · decide
    · decide

end BestResults

end Parallel
