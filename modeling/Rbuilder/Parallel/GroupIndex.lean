/-
  The index of the groups.

  An order accesses slots, balances and contracts (`Access`), and the five maps of the finder
  are one map from accesses to groups (`groupsAt`). `Lists finder P`: the index lists for each
  access just the groups with `P`, each of them once.
-/
import Rbuilder.Parallel.Groups
import Mathlib.Data.List.Perm.Basic

namespace Parallel

open SparseMpt List

/-- A use of the state that may conflict with others. -/
inductive Access where
  | read (slot : SlotKey)
  | write (slot : SlotKey)
  | balanceRead (address : Address)
  | balanceWrite (address : Address)
  | code (address : Address)

def UsedStateTrace.Has (usedState : UsedStateTrace) : Access → Prop
  | .read slot => slot ∈ usedState.readSlotValues
  | .write slot => slot ∈ usedState.writtenSlotValues
  | .balanceRead address => address ∈ usedState.readBalances
  | .balanceWrite address => address ∈ usedState.sentAmount ∨ address ∈ usedState.receivedAmount
  | .code address => address ∈ usedState.createdContracts ∨ address ∈ usedState.destructedContracts

def SimulatedOrder.Has (order : SimulatedOrder) (access : Access) : Prop :=
  ∃ usedState, order.usedStateTrace = some usedState ∧ usedState.Has access

namespace GroupData

def Has (data : GroupData) : Access → Prop
  | .read slot => slot ∈ data.reads
  | .write slot => slot ∈ data.writes
  | .balanceRead address => address ∈ data.balanceReads
  | .balanceWrite address => address ∈ data.balanceWrites
  | .code address => address ∈ data.codeWrites

structure KeysNodup (data : GroupData) : Prop where
  reads : data.reads.Nodup
  writes : data.writes.Nodup
  balanceReads : data.balanceReads.Nodup
  balanceWrites : data.balanceWrites.Nodup
  codeWrites : data.codeWrites.Nodup

end GroupData

def ConflictFinder.groupsAt (finder : ConflictFinder) : Access → List Nat
  | .read slot => finder.groupReads.groupsOf slot
  | .write slot => finder.groupWrites.groupsOf slot
  | .balanceRead address => finder.groupBalanceReads.groupsOf address
  | .balanceWrite address => finder.groupBalanceWrites.groupsOf address
  | .code address => finder.groupCodeWrites.groupsOf address

/-! ## Lists of groups -/

variable {groups : List Nat}

theorem mem_pushGroup {groupId g : Nat} {isNewId : Bool} :
    g ∈ pushGroup groupId isNewId groups ↔ g ∈ groups ∨ g = groupId := by
  unfold pushGroup
  split_ifs with hpush
  · simp
  · simp only [Bool.or_eq_true, Bool.not_eq_true', not_or] at hpush
    have hmem : groupId ∈ groups := by simpa using hpush.2
    exact (or_iff_left_of_imp fun heq => heq ▸ hmem).symm

theorem nodup_pushGroup {groupId : Nat} {isNewId : Bool} (h : groups.Nodup)
    (hnew : isNewId = true → groupId ∉ groups) : (pushGroup groupId isNewId groups).Nodup := by
  unfold pushGroup
  split_ifs with hpush
  · have hnot : groupId ∉ groups := by
      rcases Bool.or_eq_true_iff.mp hpush with hid | hid
      · exact hnew hid
      · simpa using hid
    exact nodup_append.mpr ⟨h, nodup_singleton _, fun a ha b hb heq =>
      hnot (mem_singleton.mp hb ▸ heq ▸ ha)⟩
  · exact h

theorem swapRemove_perm {l : List Nat} {idx : Nat} (hidx : idx < l.length) :
    (swapRemove l idx).Perm (l.eraseIdx idx) := by
  induction l using reverseRecOn with
  | nil => exact absurd hidx (Nat.not_lt_zero _)
  | append_singleton init last _ =>
    unfold swapRemove
    rw [getLast?_concat]
    rw [length_append, length_singleton] at hidx
    change ((init ++ [last]).set idx last).dropLast.Perm _
    rcases Nat.lt_succ_iff_lt_or_eq.mp hidx with hlt | rfl
    · rw [set_append_left _ _ hlt, dropLast_concat, eraseIdx_append_of_lt_length hlt]
      exact (set_perm_cons_eraseIdx hlt last).trans (perm_append_singleton ..).symm
    have hset : (init ++ [last]).set init.length last = init ++ [last] := by simp
    have herase : (init ++ [last]).eraseIdx init.length = init := by
      rw [eraseIdx_append_of_length_le (Nat.le_refl _)]
      simp
    rw [hset, dropLast_concat, herase]

theorem dropGroup_spec (h : groups.Nodup) (groupId : Nat) :
    (dropGroup groupId groups).Nodup ∧ ∀ g, g ∈ dropGroup groupId groups ↔ g ∈ groups ∧ g ≠ groupId := by
  unfold dropGroup
  cases hfind : groups.findIdx? (· == groupId) with
  | none =>
    have hnot : ∀ g ∈ groups, g ≠ groupId := by simpa using findIdx?_eq_none_iff.mp hfind
    exact ⟨h, fun g => ⟨fun hg => ⟨hg, hnot g hg⟩, fun hg => hg.1⟩⟩
  | some idx =>
    obtain ⟨hidx, hget, -⟩ := findIdx?_eq_some_iff_getElem.mp hfind
    have hget : groups[idx] = groupId := by simpa using hget
    have hperm := swapRemove_perm hidx
    have herase : groups.eraseIdx idx = groups.erase groupId := by
      rw [← hget, h.erase_getElem]
    rw [herase] at hperm
    exact ⟨hperm.nodup_iff.mpr (h.erase groupId), fun g => by
      rw [hperm.mem_iff, h.mem_erase_iff, and_comm]⟩

/-! ## Maps of groups -/

section Maps

variable {κ : Type} [DecidableEq κ]

/-- A map is changed at several keys, all different. -/
theorem view_foldl {M : Type} (view : M → κ → List Nat) (step : M → κ → M)
    (change : List Nat → List Nat)
    (hstep : ∀ map key key', view (step map key) key' =
      if key' = key then change (view map key) else view map key')
    {keys : List κ} (hkeys : keys.Nodup) (map : M) (key : κ) :
    (key ∈ keys → view (keys.foldl step map) key = change (view map key)) ∧
      (key ∉ keys → view (keys.foldl step map) key = view map key) := by
  induction keys generalizing map with
  | nil => exact ⟨fun hmem => absurd hmem not_mem_nil, fun _ => rfl⟩
  | cons first keys ih =>
    obtain ⟨hfirst, hkeys⟩ := nodup_cons.mp hkeys
    obtain ⟨hin, hout⟩ := ih hkeys (step map first)
    by_cases heq : key = first
    · subst heq
      have hview := hout hfirst
      rw [hstep, if_pos rfl] at hview
      exact ⟨fun _ => hview, fun hnot => absurd mem_cons_self hnot⟩
    · rw [hstep, if_neg heq] at hin hout
      rw [mem_cons, or_iff_right heq]
      exact ⟨hin, hout⟩

theorem groupsOf_insert (map : GroupMap κ) (key : κ) (groups : List Nat) (key' : κ) :
    GroupMap.groupsOf (map.insert key groups) key' =
      if key' = key then groups else map.groupsOf key' :=
  AList.getD_lookup_insert ..

variable (map : SlotMap)

theorem ofAddress_insert (address : Address) (slots : GroupMap B256)
    (address' : Address) :
    SlotMap.ofAddress (map.insert address slots) address' =
      if address' = address then slots else map.ofAddress address' :=
  AList.getD_lookup_insert ..

/-- The list of one slot is changed. -/
theorem slotGroupsOf_insert (slot : SlotKey) (groups : List Nat) (slot' : SlotKey) :
    SlotMap.groupsOf (map.insert slot.address ((map.ofAddress slot.address).insert slot.key groups))
      slot' = if slot' = slot then groups else map.groupsOf slot' := by
  unfold SlotMap.groupsOf
  rw [ofAddress_insert]
  by_cases haddress : slot'.address = slot.address
  · rw [if_pos haddress, groupsOf_insert]
    by_cases hkey : slot'.key = slot.key
    · have heq : slot' = slot := by
        cases slot'
        cases haddress
        cases hkey
        rfl
      rw [if_pos hkey, if_pos heq]
    · rw [if_neg hkey, if_neg fun heq => hkey (congrArg SlotKey.key heq), haddress]
  · rw [if_neg haddress, if_neg fun heq => haddress (congrArg SlotKey.address heq)]

theorem mem_groupsOfAddress (address : Address) (g : Nat) :
    g ∈ map.groupsOfAddress address ↔ ∃ key, g ∈ map.groupsOf ⟨address, key⟩ := by
  unfold SlotMap.groupsOfAddress SlotMap.groupsOf GroupMap.groupsOf
  simp only [mem_flatMap]
  constructor
  · rintro ⟨⟨key, groups⟩, hmem, hg⟩
    have hlookup : (map.ofAddress address).lookup key = some groups := AList.mem_lookup_iff.mpr hmem
    refine ⟨key, ?_⟩
    rw [hlookup]
    exact hg
  rintro ⟨key, hg⟩
  cases hlookup : (map.ofAddress address).lookup key with
  | none =>
    rw [hlookup] at hg
    exact absurd hg not_mem_nil
  | some groups =>
    rw [hlookup] at hg
    exact ⟨⟨key, groups⟩, AList.mem_lookup_iff.mp hlookup, hg⟩

end Maps

/-! ## The index of the finder -/

namespace ConflictFinder

variable {finder : ConflictFinder} {groupId : Nat} {data : GroupData}

theorem groupsAt_addGroupToIndex (hdata : data.KeysNodup) (isNewId : Bool) (access : Access) :
    (data.Has access → (finder.addGroupToIndex groupId isNewId data).groupsAt access =
        pushGroup groupId isNewId (finder.groupsAt access)) ∧
      (¬data.Has access → (finder.addGroupToIndex groupId isNewId data).groupsAt access =
        finder.groupsAt access) := by
  have hslots := fun {keys : List SlotKey} (hkeys : keys.Nodup) => view_foldl SlotMap.groupsOf
    (SlotMap.addGroup groupId isNewId) (pushGroup groupId isNewId)
    (fun map slot => slotGroupsOf_insert map slot _) hkeys
  have haddresses := fun {keys : List Address} (hkeys : keys.Nodup) => view_foldl GroupMap.groupsOf
    (addGroupKeyToMap groupId isNewId) (pushGroup groupId isNewId)
    (fun map key => groupsOf_insert map key _) hkeys
  cases access with
  | read slot => exact hslots hdata.reads _ slot
  | write slot => exact hslots hdata.writes _ slot
  | balanceRead address => exact haddresses hdata.balanceReads _ address
  | balanceWrite address => exact haddresses hdata.balanceWrites _ address
  | code address => exact haddresses hdata.codeWrites _ address

theorem groupsAt_removeGroupFromIndex (hdata : data.KeysNodup) (access : Access) :
    (data.Has access → (finder.removeGroupFromIndex groupId data).groupsAt access =
        dropGroup groupId (finder.groupsAt access)) ∧
      (¬data.Has access → (finder.removeGroupFromIndex groupId data).groupsAt access =
        finder.groupsAt access) := by
  have hslots := fun {keys : List SlotKey} (hkeys : keys.Nodup) => view_foldl SlotMap.groupsOf
    (SlotMap.removeGroup groupId) (dropGroup groupId)
    (fun map slot => slotGroupsOf_insert map slot _) hkeys
  have haddresses := fun {keys : List Address} (hkeys : keys.Nodup) => view_foldl GroupMap.groupsOf
    (removeGroupKeyFromMap groupId) (dropGroup groupId)
    (fun map key => groupsOf_insert map key _) hkeys
  cases access with
  | read slot => exact hslots hdata.reads _ slot
  | write slot => exact hslots hdata.writes _ slot
  | balanceRead address => exact haddresses hdata.balanceReads _ address
  | balanceWrite address => exact haddresses hdata.balanceWrites _ address
  | code address => exact haddresses hdata.codeWrites _ address

/-- The index lists the groups with `P`, each once. -/
structure Lists (finder : ConflictFinder) (P : Nat → Access → Prop) : Prop where
  nodup : ∀ access, (finder.groupsAt access).Nodup
  mem : ∀ access g, g ∈ finder.groupsAt access ↔ P g access

variable {P P' : Nat → Access → Prop}

theorem Lists.congr (h : finder.Lists P)
    (hiff : ∀ g access, P g access ↔ P' g access) : finder.Lists P' :=
  ⟨h.nodup, fun access g => (h.mem access g).trans (hiff g access)⟩

theorem Lists.addGroupToIndex (h : finder.Lists P) (groupId : Nat) (isNewId : Bool)
    (hdata : data.KeysNodup) (hnew : isNewId = true → ∀ access, ¬P groupId access) :
    (finder.addGroupToIndex groupId isNewId data).Lists
      fun g access => P g access ∨ (g = groupId ∧ data.Has access) := by
  refine ⟨fun access => ?_, fun access g => ?_⟩
  · obtain ⟨hin, hout⟩ := groupsAt_addGroupToIndex hdata isNewId access
    by_cases hhas : data.Has access
    · rw [hin hhas]
      exact nodup_pushGroup (h.nodup access) fun hid hmem => hnew hid access ((h.mem access _).mp hmem)
    · rw [hout hhas]
      exact h.nodup access
  obtain ⟨hin, hout⟩ := groupsAt_addGroupToIndex hdata isNewId access
  by_cases hhas : data.Has access
  · rw [hin hhas, mem_pushGroup, h.mem, and_iff_left hhas]
  · rw [hout hhas, h.mem, or_iff_left fun hg => hhas hg.2]

theorem Lists.removeGroupFromIndex (h : finder.Lists P) (groupId : Nat) (hdata : data.KeysNodup) :
    (finder.removeGroupFromIndex groupId data).Lists
      fun g access => P g access ∧ ¬(g = groupId ∧ data.Has access) := by
  refine ⟨fun access => ?_, fun access g => ?_⟩
  · obtain ⟨hin, hout⟩ := groupsAt_removeGroupFromIndex hdata access
    by_cases hhas : data.Has access
    · rw [hin hhas]
      exact (dropGroup_spec (h.nodup access) groupId).1
    · rw [hout hhas]
      exact h.nodup access
  obtain ⟨hin, hout⟩ := groupsAt_removeGroupFromIndex hdata access
  by_cases hhas : data.Has access
  · rw [hin hhas, (dropGroup_spec (h.nodup access) groupId).2, h.mem, and_iff_left hhas]
  · rw [hout hhas, h.mem, and_iff_left fun hg => hhas hg.2]

end ConflictFinder

end Parallel
