/-
  Tasks for the groups, from `conflict_task_generator.rs`.

  `processGroups` gets all groups after each batch of orders. It creates tasks for a group with
  several orders and sends the result of a group with one order, when the group is new or has
  changed, and forgets the groups that were absorbed. What it does to the entry, the tasks and
  the results of one id is one function of these three (`View`), because no id is touched on
  behalf of another group than its own and the one that absorbed it.
-/
import Rbuilder.Parallel.BestResults

namespace Parallel

open ConflictFinder List

/-! ## Tasks -/

inductive TaskPriority where
  | low
  | medium
  | high
  deriving DecidableEq

inductive Algorithm where
  | greedy
  | reverseGreedy
  | length
  | allPermutations
  | random (seed : UInt64) (count : Nat)
  deriving DecidableEq

/-- A task; the time of creation is left out. -/
structure ConflictTask where
  groupIdx : Nat
  algorithm : Algorithm
  priority : TaskPriority
  group : ConflictGroup

def maxLengthForAllPermutations : Nat := 3

def numberOfRandomTasks : Nat := 50

def getTasksForGroup (group : ConflictGroup) (priority : TaskPriority) (safeSortingOnly : Bool) :
    List ConflictTask :=
  [⟨group.id, .greedy, priority, group⟩] ++
    if group.orders.length ≤ maxLengthForAllPermutations && !safeSortingOnly then
      [⟨group.id, .allPermutations, priority, group⟩]
    else
      (if !safeSortingOnly then
        [⟨group.id, .random group.id.toUInt64 numberOfRandomTasks, .low, group⟩] else []) ++
      [⟨group.id, .length, .low, group⟩] ++
      if !safeSortingOnly then [⟨group.id, .reverseGreedy, .low, group⟩] else []

/-! ## The generator -/

/-- `==` of orders. It reads more of an order than is modelled; orders that are equal have the
    same id. -/
structure OrderEq where
  eq : SimulatedOrder → SimulatedOrder → Bool
  refl : ∀ order, eq order order = true
  id_eq : ∀ {order order'}, eq order order' = true → order.id = order'.id

def OrderEq.byId : OrderEq where
  eq order order' := order.id = order'.id
  refl _ := decide_eq_true rfl
  id_eq := of_decide_eq_true

structure ConflictTaskGenerator where
  existingGroups : AList fun _ : Nat => ConflictGroup := ∅
  taskQueue : List ConflictTask := []
  sent : List (Nat × ResolutionResult × ConflictGroup) := []
  safeSortingOnly : Bool

def SimulatedOrder.coinbaseProfit (order : SimulatedOrder) : Nat :=
  order.simValue.fullProfitInfo.coinbaseProfit

/-- The sum of the highest profits, which wraps. -/
def sumTopNProfits (orders : List SimulatedOrder) (n : Nat) : Nat :=
  (((orders.map SimulatedOrder.coinbaseProfit).insertionSort (· ≥ ·)).take n).sum % 2 ^ 256

def thresholdForSignificantChange : Nat := 20

def numberOfTopOrders : Nat := 10

def hasSignificantChanges (newGroup existingGroup : ConflictGroup) : Bool :=
  let newTopProfit := sumTopNProfits newGroup.orders numberOfTopOrders
  let existingTopProfit := sumTopNProfits existingGroup.orders numberOfTopOrders
  if newTopProfit = existingTopProfit then false
  else if newTopProfit > existingTopProfit then
    let threshold := existingTopProfit * thresholdForSignificantChange % 2 ^ 256 / 100
    newTopProfit - existingTopProfit > threshold
  else false

def groupHasChanged (orderEq : OrderEq) (newGroup existingGroup : ConflictGroup) : Bool :=
  if newGroup.orders.length ≠ existingGroup.orders.length then true
  else (newGroup.orders.zip existingGroup.orders).any fun orders => !orderEq.eq orders.1 orders.2

/-- The result of the only order of a group. -/
def singleOrderResult (order : SimulatedOrder) : ResolutionResult :=
  ⟨order.coinbaseProfit, [(0, order.coinbaseProfit)]⟩

namespace ConflictTaskGenerator

section

variable (gen : ConflictTaskGenerator)

def cancelTasksForGroup (groupId : Nat) : ConflictTaskGenerator :=
  { gen with taskQueue := gen.taskQueue.filter fun task => task.groupIdx ≠ groupId }

def createNewTasks (newGroup : ConflictGroup) (priority : TaskPriority) : ConflictTaskGenerator :=
  { gen with taskQueue := gen.taskQueue ++ getTasksForGroup newGroup priority gen.safeSortingOnly }

def updateTasks (groupId : Nat) (newGroup : ConflictGroup) (priority : TaskPriority) :
    ConflictTaskGenerator :=
  (gen.cancelTasksForGroup groupId).createNewTasks newGroup priority

def processSingleOrderGroup (groupId : Nat) (group : ConflictGroup) (order : SimulatedOrder) :
    ConflictTaskGenerator :=
  { gen with sent := gen.sent ++ [(groupId, singleOrderResult order, group)] }

def processMultiOrderGroup (groupId : Nat) (newGroup : ConflictGroup) : ConflictTaskGenerator :=
  match gen.existingGroups.lookup groupId with
  | some existingGroup =>
    let priority := if hasSignificantChanges newGroup existingGroup then .high else .medium
    gen.updateTasks groupId newGroup priority
  | none => gen.createNewTasks newGroup .high

/-- The group is new or has changed. -/
def shouldProcess (orderEq : OrderEq) (gen : ConflictTaskGenerator) (newGroup : ConflictGroup) : Bool :=
  match gen.existingGroups.lookup newGroup.id with
  | some existingGroup => groupHasChanged orderEq newGroup existingGroup
  | none => true

def processOrders (newGroup : ConflictGroup) : ConflictTaskGenerator :=
  match newGroup.orders with
  | [order] => gen.processSingleOrderGroup newGroup.id newGroup order
  | _ => gen.processMultiOrderGroup newGroup.id newGroup

def processSingleGroup (orderEq : OrderEq) (gen : ConflictTaskGenerator) (newGroup : ConflictGroup) :
    ConflictTaskGenerator :=
  if gen.shouldProcess orderEq newGroup then
    let gen := gen.processOrders newGroup
    { gen with existingGroups := gen.existingGroups.insert newGroup.id newGroup }
  else gen

/-- The existing groups that the group absorbed. -/
def subsetIds (group : ConflictGroup) : List Nat :=
  gen.existingGroups.keys.filter (· ∈ group.conflictingGroupIds)

def addProcessedGroups (newGroup : ConflictGroup) (processedGroups : Finset Nat) : Finset Nat :=
  insert newGroup.id ((gen.subsetIds newGroup).toFinset ∪ processedGroups)

def removeGroup (groupId : Nat) : ConflictTaskGenerator :=
  { gen with existingGroups := gen.existingGroups.erase groupId }.cancelTasksForGroup groupId

def removeConflictingSubsetGroups (supersetGroup : ConflictGroup) : ConflictTaskGenerator :=
  (gen.subsetIds supersetGroup).foldl removeGroup gen

end

/-- One turn of the loop, with the groups that have been processed. -/
def processGroup (orderEq : OrderEq) (state : ConflictTaskGenerator × Finset Nat)
    (newGroup : ConflictGroup) : ConflictTaskGenerator × Finset Nat :=
  if newGroup.id ∈ state.2 then state
  else
    let gen := state.1.processSingleGroup orderEq newGroup
    let processedGroups := gen.addProcessedGroups newGroup state.2
    (if newGroup.conflictingGroupIds.Nonempty then gen.removeConflictingSubsetGroups newGroup else gen,
      processedGroups)

def processGroups (orderEq : OrderEq) (gen : ConflictTaskGenerator) (newGroups : List ConflictGroup) :
    ConflictTaskGenerator :=
  let sortedGroups := newGroups.insertionSort fun a b => b.orders.length ≤ a.orders.length
  (sortedGroups.foldl (processGroup orderEq) (gen, ∅)).1

/-! ## One id -/

/-- What the generator has for one id. -/
structure View where
  existing : Option ConflictGroup
  tasks : List ConflictTask
  sent : List (Nat × ResolutionResult × ConflictGroup)

def view (gen : ConflictTaskGenerator) (g : Nat) : View where
  existing := gen.existingGroups.lookup g
  tasks := gen.taskQueue.filter fun task => task.groupIdx = g
  sent := gen.sent.filter fun message => message.1 = g

/-- The id has the entry, the tasks and the result of the group. -/
structure View.Current (group : ConflictGroup) (view : View) : Prop where
  existing : view.existing = some group
  tasks : ∀ task ∈ view.tasks, task.group = group
  greedy : 2 ≤ group.orders.length →
    (view.tasks.filter fun task => task.algorithm = .greedy).length = 1
  sent : ∀ order, group.orders = [order] → view.sent = [(group.id, singleOrderResult order, group)]

def View.Gone (view : View) : Prop := view.existing = none ∧ view.tasks = []

variable {gen gen' : ConflictTaskGenerator} {orderEq : OrderEq} {group old : ConflictGroup}
  {g : Nat}

section

variable (group : ConflictGroup) (priority : TaskPriority) (safe : Bool)

theorem mem_getTasksForGroup :
    ∀ task ∈ getTasksForGroup group priority safe, task.groupIdx = group.id ∧ task.group = group := by
  unfold getTasksForGroup
  split_ifs <;> simp

theorem greedy_getTasksForGroup :
    ((getTasksForGroup group priority safe).filter fun task => task.algorithm = .greedy).length = 1 := by
  unfold getTasksForGroup
  split_ifs <;> rfl

theorem filter_getTasksForGroup :
    (getTasksForGroup group priority safe).filter (fun task => task.groupIdx = g) =
      if g = group.id then getTasksForGroup group priority safe else [] := by
  split_ifs with heq
  · exact filter_eq_self.mpr fun task hmem => by
      simp [heq, (mem_getTasksForGroup _ _ _ task hmem).1]
  · refine filter_eq_nil_iff.mpr fun task hmem => ?_
    simpa [(mem_getTasksForGroup _ _ _ task hmem).1] using Ne.symm heq

end

variable (gen) (group)

theorem view_createNewTasks (priority : TaskPriority) (g : Nat) :
    (gen.createNewTasks group priority).view g = { gen.view g with
      tasks := (gen.view g).tasks ++
        if g = group.id then getTasksForGroup group priority gen.safeSortingOnly else [] } := by
  simp only [view, createNewTasks, filter_append, filter_getTasksForGroup]

theorem view_cancelTasksForGroup (id g : Nat) :
    (gen.cancelTasksForGroup id).view g =
      { gen.view g with tasks := if g = id then [] else (gen.view g).tasks } := by
  simp only [view, cancelTasksForGroup, filter_filter, View.mk.injEq, true_and, and_true]
  split_ifs with heq
  · exact filter_eq_nil_iff.mpr fun task _ => by simp [heq]
  · refine filter_congr fun task _ => ?_
    by_cases hid : task.groupIdx = g <;> simp [hid, heq]

theorem view_processSingleOrderGroup (order : SimulatedOrder) (g : Nat) :
    (gen.processSingleOrderGroup group.id group order).view g = { gen.view g with
      sent := (gen.view g).sent ++
        if g = group.id then [(group.id, singleOrderResult order, group)] else [] } := by
  simp only [view, processSingleOrderGroup, filter_append, View.mk.injEq, true_and]
  by_cases heq : g = group.id <;> simp [heq, eq_comm]

/-- The tasks of a group take the place of those of the group before. -/
theorem view_processMultiOrderGroup (g : Nat) :
    ∃ priority, (gen.processMultiOrderGroup group.id group).view g = { gen.view g with
      tasks := if g = group.id then
          (if (gen.view g).existing = none then (gen.view g).tasks else []) ++
            getTasksForGroup group priority gen.safeSortingOnly
        else (gen.view g).tasks } := by
  unfold processMultiOrderGroup
  by_cases heq : g = group.id
  · subst heq
    rcases hold : gen.existingGroups.lookup group.id with _ | old
    · refine ⟨.high, ?_⟩
      rw [view_createNewTasks]
      simp [view, hold]
    refine ⟨if hasSignificantChanges group old then .high else .medium, ?_⟩
    dsimp only
    rw [updateTasks, view_createNewTasks, view_cancelTasksForGroup]
    simp [view, hold, cancelTasksForGroup]
  · refine ⟨.high, ?_⟩
    split <;> simp [updateTasks, view_createNewTasks, view_cancelTasksForGroup, heq]

theorem view_removeGroup (id g : Nat) :
    (gen.removeGroup id).view g = if g = id then ⟨none, [], (gen.view g).sent⟩ else gen.view g := by
  rw [removeGroup, view_cancelTasksForGroup]
  split_ifs with heq
  · subst heq
    simp [view]
  · simp [view, AList.lookup_erase_ne heq]

theorem view_foldl_removeGroup (ids : List Nat) (g : Nat) :
    (ids.foldl removeGroup gen).view g =
      if g ∈ ids then ⟨none, [], (gen.view g).sent⟩ else gen.view g := by
  induction ids generalizing gen with
  | nil => rfl
  | cons id ids ih =>
    rw [foldl_cons, ih, view_removeGroup]
    by_cases heq : g = id <;> by_cases hmem : g ∈ ids <;> simp [heq, hmem]

/-- The ids that the group absorbed are forgotten, and the others stay. -/
theorem view_removeConflictingSubsetGroups (g : Nat) :
    (g ∉ group.conflictingGroupIds → (gen.removeConflictingSubsetGroups group).view g = gen.view g) ∧
      (((gen.view g).existing = none → (gen.view g).tasks = []) → g ∈ group.conflictingGroupIds →
        ((gen.removeConflictingSubsetGroups group).view g).Gone ∧
          ((gen.removeConflictingSubsetGroups group).view g).sent = (gen.view g).sent) := by
  unfold removeConflictingSubsetGroups
  rw [view_foldl_removeGroup]
  have hmem : g ∈ gen.subsetIds group ↔ (gen.view g).existing ≠ none ∧
      g ∈ group.conflictingGroupIds := by
    rw [subsetIds, mem_filter, ← AList.mem_keys, decide_eq_true_iff]
    exact and_congr_left' (AList.lookup_isSome.symm.trans Option.isSome_iff_ne_none)
  constructor
  · intro hnot
    rw [if_neg fun hg => hnot (hmem.mp hg).2]
  intro htasks hconf
  split_ifs with hg
  · exact ⟨⟨rfl, rfl⟩, rfl⟩
  · have hnone := Classical.not_not.mp fun hsome => hg (hmem.mpr ⟨hsome, hconf⟩)
    exact ⟨⟨hnone, htasks hnone⟩, rfl⟩

variable {gen group}

theorem processOrders_of_single {order : SimulatedOrder} (h : group.orders = [order]) :
    gen.processOrders group = gen.processSingleOrderGroup group.id group order := by
  simp only [processOrders, h]

theorem processOrders_of_multi (h : ∀ order, group.orders ≠ [order]) :
    gen.processOrders group = gen.processMultiOrderGroup group.id group := by
  unfold processOrders
  split
  · exact absurd ‹_› (h _)
  · rfl

theorem view_processSingleGroup (h : gen.shouldProcess orderEq group = true) :
    (gen.processSingleGroup orderEq group).view g =
      { (gen.processOrders group).view g with
        existing := if g = group.id then some group
          else ((gen.processOrders group).view g).existing } := by
  unfold processSingleGroup
  rw [if_pos h]
  by_cases heq : g = group.id
  · subst heq
    simp [view]
  · simp [view, heq, AList.lookup_insert_ne heq]

/-- Another id is left as it is. -/
theorem view_processSingleGroup_of_ne (hne : g ≠ group.id) :
    (gen.processSingleGroup orderEq group).view g = gen.view g := by
  by_cases hshould : gen.shouldProcess orderEq group = true
  · rw [view_processSingleGroup hshould]
    by_cases hsingle : ∃ order, group.orders = [order]
    · obtain ⟨order, horders⟩ := hsingle
      simp [processOrders_of_single horders, view_processSingleOrderGroup, hne]
    · obtain ⟨priority, hview⟩ := gen.view_processMultiOrderGroup group g
      simp [processOrders_of_multi (not_exists.mp hsingle), hview, hne]
  · rw [processSingleGroup, if_neg hshould]

/-- A new group, or one with other orders than before. -/
theorem current_of_shouldProcess (h : gen.shouldProcess orderEq group = true)
    (htasks : (gen.view group.id).existing = none → (gen.view group.id).tasks = [])
    (hsingle : ∀ order, group.orders = [order] →
      (gen.view group.id).tasks = [] ∧ (gen.view group.id).sent = []) :
    View.Current group ((gen.processSingleGroup orderEq group).view group.id) := by
  rw [view_processSingleGroup h]
  by_cases hone : ∃ order, group.orders = [order]
  · obtain ⟨order, horders⟩ := hone
    obtain ⟨hnone, hsent⟩ := hsingle order horders
    rw [processOrders_of_single horders, view_processSingleOrderGroup, if_pos rfl, if_pos rfl]
    dsimp only
    rw [hnone, hsent]
    refine ⟨rfl, by simp, fun hlen => absurd hlen (by simp [horders]), fun order' horder' => ?_⟩
    cases horders.symm.trans horder'
    rfl
  obtain ⟨priority, hview⟩ := gen.view_processMultiOrderGroup group group.id
  have hempty :
      (if (gen.view group.id).existing = none then (gen.view group.id).tasks else []) = [] := by
    split_ifs with hnone
    · exact htasks hnone
    · rfl
  rw [processOrders_of_multi (not_exists.mp hone), hview, if_pos rfl, if_pos rfl]
  rw [hempty, nil_append]
  exact ⟨rfl, fun task hmem => (mem_getTasksForGroup _ _ _ task hmem).2,
    fun _ => greedy_getTasksForGroup .., fun order horder => absurd ⟨order, horder⟩ hone⟩

/-! ## All groups -/

theorem orders_eq_of_not_changed (h : groupHasChanged orderEq group old = false)
    (hinj : ∀ order ∈ group.orders, ∀ order' ∈ old.orders, order.id = order'.id → order = order') :
    group.orders = old.orders := by
  unfold groupHasChanged at h
  split_ifs at h with hlen
  have hlength := Classical.not_not.mp hlen
  refine ext_getElem hlength fun i hi hi' => ?_
  have hzip : (group.orders[i], old.orders[i]) ∈ group.orders.zip old.orders := by
    refine mem_iff_getElem.mpr ⟨i, by simp [hi, hi'], by simp⟩
  have heq := any_eq_false.mp h _ hzip
  exact hinj _ (getElem_mem hi) _ (getElem_mem hi') (orderEq.id_eq (by simpa using heq))

theorem groupHasChanged_self (h : group.orders = old.orders) :
    groupHasChanged orderEq group old = false := by
  unfold groupHasChanged
  rw [h, if_neg (by simp), any_eq_false]
  intro orders hmem
  obtain ⟨i, hi, rfl⟩ := mem_iff_getElem.mp hmem
  simp [orderEq.refl]

/-- From the groups of one call to those of the next. -/
structure Follows (before after : List ConflictGroup) : Prop where
  nodup : (after.map ConflictGroup.id).Nodup
  separate : ∀ group ∈ after, ∀ group' ∈ after, group.id ∉ group'.conflictingGroupIds
  kept : ∀ old ∈ before, (∃ group ∈ after, group.id = old.id ∧ old.orders ⊆ group.orders ∧
      group.conflictingGroupIds = old.conflictingGroupIds) ∨
    ∃ group ∈ after, old.id ∈ group.conflictingGroupIds
  retired : ∀ old ∈ before, ∀ r ∈ old.conflictingGroupIds, ∃ group ∈ after, r ∈ group.conflictingGroupIds
  orders : ∀ old ∈ before, old.orders ≠ [] ∧ old.orders.Nodup
  inj : ∀ old ∈ before, ∀ group ∈ after, ∀ order ∈ group.orders, ∀ order' ∈ old.orders,
    order.id = order'.id → order = order'

/-- The generator has what belongs to the groups. -/
structure Tracks (groups : List ConflictGroup) (gen : ConflictTaskGenerator) : Prop where
  current : ∀ group ∈ groups, View.Current group (gen.view group.id)
  gone : ∀ g, (∀ group ∈ groups, group.id ≠ g) → (gen.view g).Gone
  sent : ∀ g, (gen.view g).sent ≠ [] → ∃ group ∈ groups, group.id = g ∨ g ∈ group.conflictingGroupIds

theorem Tracks.tasks {groups : List ConflictGroup} (h : Tracks groups gen) (g : Nat) :
    (gen.view g).existing = none → (gen.view g).tasks = [] := by
  intro hnone
  by_cases hlive : ∃ group ∈ groups, group.id = g
  · obtain ⟨group, hgroup, rfl⟩ := hlive
    cases (h.current group hgroup).existing.symm.trans hnone
  · push Not at hlive
    exact (h.gone g hlive).2

section Step

variable {before after done : List ConflictGroup}

/-- A group is processed on top of what belongs to the groups before. -/
theorem Tracks.process (h : Tracks before gen) (hf : Follows before after) (hgroup : group ∈ after)
    (hsame : gen'.view group.id = gen.view group.id) :
    View.Current group ((gen'.processSingleGroup orderEq group).view group.id) := by
  have htasks := h.tasks group.id
  rw [← hsame] at htasks
  by_cases hold : ∃ old ∈ before, old.id = group.id
  · obtain ⟨old, hmem, hid⟩ := hold
    have hcurrent := h.current old hmem
    rw [hid, ← hsame] at hcurrent
    have hlookup : gen'.existingGroups.lookup group.id = some old := hcurrent.existing
    obtain ⟨hsubset, hconf⟩ : old.orders ⊆ group.orders ∧
        group.conflictingGroupIds = old.conflictingGroupIds := by
      rcases hf.kept old hmem with ⟨group', hgroup', hid', hrest⟩ | ⟨group', hgroup', habsorbed⟩
      · obtain rfl := inj_on_of_nodup_map hf.nodup hgroup' hgroup (hid'.trans hid)
        exact hrest
      · exact absurd (hid ▸ habsorbed) (hf.separate group hgroup group' hgroup')
    by_cases hshould : gen'.shouldProcess orderEq group = true
    · refine current_of_shouldProcess hshould htasks fun order horder => ?_
      -- the only order was there before, so that nothing has changed
      obtain ⟨hne, hnodup⟩ := hf.orders old hmem
      rw [horder] at hsubset
      have horders : group.orders = old.orders := by
        obtain ⟨n, hn⟩ := subset_singleton_iff.mp hsubset
        rw [hn] at hne hnodup
        have hone : n = 1 := le_antisymm (nodup_replicate.mp hnodup) (by
          rw [Nat.one_le_iff_ne_zero]
          rintro rfl
          exact hne rfl)
        rw [horder, hn, hone, replicate_one]
      simp [shouldProcess, hlookup, groupHasChanged_self horders] at hshould
    · have hchanged : groupHasChanged orderEq group old = false := by
        simpa [shouldProcess, hlookup] using hshould
      have hsamegroup : group = old := by
        have horders := orders_eq_of_not_changed hchanged (hf.inj old hmem group hgroup)
        cases group
        cases old
        simp_all
      rw [processSingleGroup, if_neg hshould]
      obtain rfl := hsamegroup
      exact hcurrent
  · push Not at hold
    have hgone := h.gone group.id hold
    rw [← hsame] at hgone
    have hshould : gen'.shouldProcess orderEq group = true := by
      simp only [shouldProcess, show gen'.existingGroups.lookup group.id = none from hgone.1]
    refine current_of_shouldProcess hshould htasks fun order _ => ⟨hgone.2, ?_⟩
    by_contra hsent
    rw [hsame] at hsent
    obtain ⟨old, hmem, hid | hretired⟩ := h.sent group.id hsent
    · exact hold old hmem hid
    · obtain ⟨group', hgroup', habsorbed⟩ := hf.retired old hmem _ hretired
      exact hf.separate group hgroup group' hgroup' habsorbed

/-- The groups in `done` have been processed. -/
structure Partway (gen : ConflictTaskGenerator) (done : List ConflictGroup)
    (state : ConflictTaskGenerator × Finset Nat) : Prop where
  current : ∀ group ∈ done, View.Current group (state.1.view group.id)
  gone : ∀ group ∈ done, ∀ g ∈ group.conflictingGroupIds,
    (state.1.view g).Gone ∧ (state.1.view g).sent = (gen.view g).sent
  same : ∀ g, (∀ group ∈ done, group.id ≠ g ∧ g ∉ group.conflictingGroupIds) →
    state.1.view g = gen.view g
  processed : ∀ g ∈ state.2, ∃ group ∈ done, group.id = g ∨ g ∈ group.conflictingGroupIds

theorem Partway.step (h : Tracks before gen) (hf : Follows before after)
    (hdone : ∀ group ∈ done, group ∈ after) {state : ConflictTaskGenerator × Finset Nat}
    (hp : Partway gen done state) (hgroup : group ∈ after) (hnew : group ∉ done) :
    Partway gen (done ++ [group]) (processGroup orderEq state group) := by
  have hfresh : ∀ other ∈ done, other.id ≠ group.id ∧ group.id ∉ other.conflictingGroupIds := by
    intro other hother
    refine ⟨fun heq => hnew ?_, hf.separate group hgroup other (hdone other hother)⟩
    rwa [← inj_on_of_nodup_map hf.nodup (hdone other hother) hgroup heq]
  have hprocessed : group.id ∉ state.2 := by
    intro hmem
    obtain ⟨other, hother, heq | hconf⟩ := hp.processed _ hmem
    · exact (hfresh other hother).1 heq
    · exact (hfresh other hother).2 hconf
  let gen₁ := state.1.processSingleGroup orderEq group
  let gen₂ := if group.conflictingGroupIds.Nonempty then gen₁.removeConflictingSubsetGroups group
    else gen₁
  have hstate : processGroup orderEq state group = (gen₂, gen₁.addProcessedGroups group state.2) :=
    if_neg hprocessed
  have hview₁ : ∀ g, g ≠ group.id → gen₁.view g = state.1.view g :=
    fun g hne => view_processSingleGroup_of_ne hne
  have hview₂ : ∀ g, g ∉ group.conflictingGroupIds → gen₂.view g = gen₁.view g := by
    intro g hg
    simp only [gen₂]
    split_ifs
    · exact (view_removeConflictingSubsetGroups gen₁ group g).1 hg
    · rfl
  have hcurrent : View.Current group (gen₁.view group.id) :=
    h.process hf hgroup (hp.same group.id hfresh)
  have hremoved : ∀ g ∈ group.conflictingGroupIds,
      (gen₂.view g).Gone ∧ (gen₂.view g).sent = (gen.view g).sent := by
    intro g hg
    have hlive : ∀ other ∈ after, other.id ≠ g :=
      fun other hother heq => hf.separate other hother group hgroup (heq ▸ hg)
    obtain ⟨htasks, hsent⟩ : ((state.1.view g).existing = none → (state.1.view g).tasks = []) ∧
        (state.1.view g).sent = (gen.view g).sent := by
      by_cases hother : ∃ other ∈ done, g ∈ other.conflictingGroupIds
      · obtain ⟨other, hmem, hconf⟩ := hother
        obtain ⟨hgone, hsent⟩ := hp.gone other hmem g hconf
        exact ⟨fun _ => hgone.2, hsent⟩
      · push Not at hother
        rw [hp.same g fun other hmem => ⟨hlive other (hdone other hmem), hother other hmem⟩]
        exact ⟨h.tasks g, rfl⟩
    rw [← hview₁ g (hlive group hgroup).symm] at htasks hsent
    have hview := (view_removeConflictingSubsetGroups gen₁ group g).2 htasks hg
    have hgen₂ : gen₂ = gen₁.removeConflictingSubsetGroups group := if_pos ⟨g, hg⟩
    rw [hgen₂]
    exact ⟨hview.1, hview.2.trans hsent⟩
  have hkept : ∀ g, g ≠ group.id → g ∉ group.conflictingGroupIds → gen₂.view g = state.1.view g :=
    fun g hne hg => (hview₂ g hg).trans (hview₁ g hne)
  rw [hstate]
  refine ⟨fun other hmem => ?_, fun other hmem g hg => ?_, fun g hg => ?_, fun g hg => ?_⟩
  · rcases mem_append.mp hmem with hmem | hmem
    · rw [hkept _ (hfresh other hmem).1 (hf.separate other (hdone other hmem) group hgroup)]
      exact hp.current other hmem
    · obtain rfl := mem_singleton.mp hmem
      rw [hview₂ _ (hf.separate other hgroup other hgroup)]
      exact hcurrent
  · by_cases hown : g ∈ group.conflictingGroupIds
    · exact hremoved g hown
    rcases mem_append.mp hmem with hmem | hmem
    · have hne : g ≠ group.id := fun heq => (hfresh other hmem).2 (heq ▸ hg)
      rw [hkept g hne hown]
      exact hp.gone other hmem g hg
    · exact absurd (mem_singleton.mp hmem ▸ hg) hown
  · obtain ⟨hne, hown⟩ := hg group (mem_append_right _ (mem_singleton.mpr rfl))
    rw [hkept g hne.symm hown]
    exact hp.same g fun other hmem => hg other (mem_append_left _ hmem)
  rcases Finset.mem_insert.mp hg with rfl | hg
  · exact ⟨group, mem_append_right _ (mem_singleton.mpr rfl), Or.inl rfl⟩
  rcases Finset.mem_union.mp hg with hg | hg
  · have hconf := (mem_filter.mp (mem_toFinset.mp hg)).2
    exact ⟨group, mem_append_right _ (mem_singleton.mpr rfl), Or.inr (decide_eq_true_iff.mp hconf)⟩
  · obtain ⟨other, hmem, hother⟩ := hp.processed g hg
    exact ⟨other, mem_append_left _ hmem, hother⟩

/-- One call takes the generator from the groups before to the groups after. -/
theorem Tracks.processGroups (h : Tracks before gen) (hf : Follows before after) :
    Tracks after (gen.processGroups orderEq after) := by
  let sorted := after.insertionSort fun a b => b.orders.length ≤ a.orders.length
  have hperm : sorted.Perm after := perm_insertionSort ..
  have hmem : ∀ {group}, group ∈ sorted ↔ group ∈ after := hperm.mem_iff
  have hfold : ∀ todo done, done ++ todo = sorted → ∀ state, Partway gen done state →
      Partway gen sorted (todo.foldl (processGroup orderEq) state) := by
    intro todo
    induction todo with
    | nil =>
      intro done hsplit state hp
      rw [append_nil] at hsplit
      exact hsplit ▸ hp
    | cons group todo ih =>
      intro done hsplit state hp
      have hnodup : (done ++ group :: todo).Nodup := by
        rw [hsplit]
        exact hperm.nodup_iff.mpr (Nodup.of_map _ hf.nodup)
      refine ih (done ++ [group]) (by rw [append_assoc]; exact hsplit) _ ?_
      refine hp.step h hf (fun other hother => hmem.mp ?_) (hmem.mp ?_) fun hdone => ?_
      · exact hsplit ▸ mem_append_left _ hother
      · exact hsplit ▸ mem_append_right _ mem_cons_self
      · exact (nodup_append.mp hnodup).2.2 group hdone group mem_cons_self rfl
  have hp := hfold sorted [] rfl (gen, ∅) ⟨by simp, by simp, fun _ _ => rfl, by simp⟩
  -- an id that the groups do not know now was not known before
  have hunknown : ∀ g, (∀ group ∈ after, group.id ≠ g ∧ g ∉ group.conflictingGroupIds) →
      (gen.processGroups orderEq after).view g = gen.view g ∧
        ∀ old ∈ before, old.id ≠ g ∧ g ∉ old.conflictingGroupIds := by
    intro g hg
    refine ⟨hp.same g fun group hgroup => hg group (hmem.mp hgroup),
      fun old hold => ⟨?_, fun hretired => ?_⟩⟩
    · rintro rfl
      rcases hf.kept old hold with ⟨group, hgroup, hid, -⟩ | ⟨group, hgroup, hid⟩
      · exact (hg group hgroup).1 hid
      · exact (hg group hgroup).2 hid
    · obtain ⟨group, hgroup, hid⟩ := hf.retired old hold g hretired
      exact (hg group hgroup).2 hid
  refine ⟨fun group hgroup => hp.current group (hmem.mpr hgroup), fun g hlive => ?_, fun g hsent => ?_⟩
  · by_cases hconf : ∃ group ∈ sorted, g ∈ group.conflictingGroupIds
    · obtain ⟨group, hgroup, hg⟩ := hconf
      exact (hp.gone group hgroup g hg).1
    push Not at hconf
    obtain ⟨hview, hbefore⟩ :=
      hunknown g fun group hgroup => ⟨hlive group hgroup, hconf group (hmem.mpr hgroup)⟩
    rw [hview]
    exact h.gone g fun old hold => (hbefore old hold).1
  by_contra hnot
  push Not at hnot
  obtain ⟨hview, hbefore⟩ := hunknown g hnot
  rw [hview] at hsent
  obtain ⟨old, hold, heq | hretired⟩ := h.sent g hsent
  · exact (hbefore old hold).1 heq
  · exact (hbefore old hold).2 hretired

end Step

/-! ## Runs -/

theorem follows_of_reached {earlier later : List SimulatedOrder} {finder finder' : ConflictFinder}
    (h : Reached earlier finder) (h' : Reached (earlier ++ later) finder') :
    Follows finder.getOrderGroups finder'.getOrderGroups := by
  have hsnapshot : ∀ group ∈ finder.getOrderGroups, Snapshot (earlier ++ later) group :=
    fun group hgroup => ⟨earlier, finder, prefix_append .., h, hgroup⟩
  have hsnapshot' : ∀ group ∈ finder'.getOrderGroups, Snapshot (earlier ++ later) group :=
    fun group hgroup => ⟨_, finder', prefix_refl _, h', hgroup⟩
  have hmem : ∀ {g data}, finder'.groups.lookup g = some data →
      (⟨g, data.orders, data.conflictingGroupIds⟩ : ConflictGroup) ∈ finder'.getOrderGroups :=
    fun hlookup => mem_getOrderGroups.mpr ⟨_, hlookup, rfl, rfl⟩
  refine ⟨nodup_getOrderGroups finder', fun group hgroup group' hgroup' hconf => ?_,
    fun old hold => ?_, fun old hold r hr => ?_, fun old hold => ?_, ?_⟩
  · exact ((h'.mem_conflictingGroupIds_group hgroup' _).mp hconf).1 group hgroup rfl
  · obtain ⟨data, hlookup, horders, hids⟩ := mem_getOrderGroups.mp hold
    rw [horders, hids]
    rcases h.grows h' hlookup with ⟨data', hlookup', hsubset, hsame⟩ | ⟨g, data', hlookup', hid, -⟩
    · exact Or.inl ⟨_, hmem hlookup', rfl, hsubset, hsame⟩
    · exact Or.inr ⟨_, hmem hlookup', hid⟩
  · obtain ⟨data, hlookup, -, hids⟩ := mem_getOrderGroups.mp hold
    rw [hids] at hr
    rcases h.grows h' hlookup with ⟨data', hlookup', -, hsame⟩ | ⟨g, data', hlookup', -, -, hsubset⟩
    · exact ⟨_, hmem hlookup', hsame ▸ hr⟩
    · exact ⟨_, hmem hlookup', hsubset hr⟩
  · obtain ⟨data, hlookup, horders, -⟩ := mem_getOrderGroups.mp hold
    exact ⟨horders ▸ (h.inv.describes hlookup).nonempty, (hsnapshot old hold).nodup⟩
  · intro old hold group hgroup order horder order' horder' hid
    exact eq_of_mem_distinctOrders ((hsnapshot' group hgroup).mem_distinctOrders horder)
      ((hsnapshot old hold).mem_distinctOrders horder') hid

/-- Each batch of orders, and the call with the groups after it. -/
def processBatches (orderEq : OrderEq) (safeSortingOnly : Bool) (batches : List (List SimulatedOrder)) :
    Option (ConflictFinder × ConflictTaskGenerator) :=
  batches.foldlM (fun state batch => do
    let finder ← state.1.addOrders batch
    return (finder, state.2.processGroups orderEq finder.getOrderGroups))
    (ConflictFinder.new, { safeSortingOnly })

theorem tracks_processBatches (orderEq : OrderEq) (safeSortingOnly : Bool)
    (batches : List (List SimulatedOrder)) :
    ∃ finder gen, processBatches orderEq safeSortingOnly batches = some (finder, gen) ∧
      Reached batches.flatten finder ∧ Tracks finder.getOrderGroups gen := by
  induction batches using reverseRecOn with
  | nil =>
    refine ⟨_, _, rfl, rfl, ?_, fun _ _ => ⟨rfl, rfl⟩, fun _ hsent => absurd rfl hsent⟩
    intro group hgroup
    cases hgroup
  | append_singleton batches batch ih =>
    obtain ⟨finder, gen, hrun, hreached, htracks⟩ := ih
    obtain ⟨finder', hadd, -⟩ := hreached.inv.addOrders batch
    have hreached' := hreached.addOrders hadd
    refine ⟨finder', gen.processGroups orderEq finder'.getOrderGroups, ?_, ?_,
      htracks.processGroups (follows_of_reached hreached hreached')⟩
    · unfold processBatches at hrun ⊢
      rw [foldlM_append, hrun]
      simp [hadd]
    · rwa [flatten_append, flatten_singleton]

/-- After every batch the generator has the live groups with their current orders, only tasks for
    them, the greedy task of each group of several orders once, and one result of each group of
    one order was sent. -/
theorem tasks_track_live_groups (orderEq : OrderEq) (safeSortingOnly : Bool)
    (batches : List (List SimulatedOrder)) :
    ∃ finder gen, processBatches orderEq safeSortingOnly batches = some (finder, gen) ∧
      (∀ g group, gen.existingGroups.lookup g = some group ↔
        group ∈ finder.getOrderGroups ∧ group.id = g) ∧
      (∀ task ∈ gen.taskQueue, task.group ∈ finder.getOrderGroups ∧ task.groupIdx = task.group.id) ∧
      (∀ group ∈ finder.getOrderGroups, 2 ≤ group.orders.length →
        (gen.taskQueue.filter fun task =>
          task.algorithm = .greedy && task.groupIdx = group.id).length = 1) ∧
      ∀ group ∈ finder.getOrderGroups, ∀ order, group.orders = [order] →
        (gen.sent.filter fun message => message.1 = group.id) =
          [(group.id, ⟨order.coinbaseProfit, [(0, order.coinbaseProfit)]⟩, group)] := by
  obtain ⟨finder, gen, hrun, -, h⟩ := tracks_processBatches orderEq safeSortingOnly batches
  refine ⟨finder, gen, hrun, fun g group => ⟨fun hlookup => ?_, ?_⟩, fun task hmem => ?_,
    fun group hgroup hlen => ?_,
    fun group hgroup order horder => (h.current group hgroup).sent order horder⟩
  · by_cases hlive : ∃ group ∈ finder.getOrderGroups, group.id = g
    · obtain ⟨group', hgroup', rfl⟩ := hlive
      cases hlookup.symm.trans (h.current group' hgroup').existing
      exact ⟨hgroup', rfl⟩
    · push Not at hlive
      cases hlookup.symm.trans (h.gone g hlive).1
  · rintro ⟨hgroup, rfl⟩
    exact (h.current group hgroup).existing
  · have hview : task ∈ (gen.view task.groupIdx).tasks := List.mem_filter.mpr ⟨hmem, by simp⟩
    by_cases hlive : ∃ group ∈ finder.getOrderGroups, group.id = task.groupIdx
    · obtain ⟨group, hgroup, hid⟩ := hlive
      have hcurrent := h.current group hgroup
      rw [hid] at hcurrent
      rw [hcurrent.tasks task hview]
      exact ⟨hgroup, hid.symm⟩
    · push Not at hlive
      rw [(h.gone _ hlive).2] at hview
      cases hview
  · have hgreedy := (h.current group hgroup).greedy hlen
    rwa [view, List.filter_filter] at hgreedy

open BestResults (mergingOrders mergedArrival) in
/-- The task of the group that the third order makes of the others. -/
theorem tasks_track_live_groups_merged :
    ∃ finder gen, processBatches .byId false (mergingOrders.map ([·])) = some (finder, gen) ∧
      finder.getOrderGroups = [mergedArrival.group] ∧
      (gen.taskQueue.filter fun task => task.algorithm = .greedy && task.groupIdx = 2).length = 1 := by
  obtain ⟨finder, gen, hrun, -, -, hgreedy, -⟩ :=
    tasks_track_live_groups .byId false (mergingOrders.map ([·]))
  have hgroups : (processBatches .byId false (mergingOrders.map ([·]))).map (·.1.getOrderGroups) =
      some [mergedArrival.group] := rfl
  rw [hrun] at hgroups
  have hlive : finder.getOrderGroups = [mergedArrival.group] := Option.some.inj hgroups
  refine ⟨finder, gen, hrun, hlive, hgreedy mergedArrival.group ?_ (by decide)⟩
  rw [hlive]
  exact List.mem_singleton_self _

end ConflictTaskGenerator

end Parallel
