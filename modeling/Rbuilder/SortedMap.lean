/-
  Maps sorted by their keys.

  The entries are a list in the order of the keys, each key once. Two maps with the same
  entries in any order are the same map.
-/
import Mathlib.Order.Defs.LinearOrder
import Mathlib.Data.List.Sort

structure SortedMap (κ ν : Type) [LinearOrder κ] where
  entries : List (κ × ν)
  sorted : entries.Pairwise fun a b => a.1 < b.1

namespace SortedMap

open List

variable {κ ν : Type} [LinearOrder κ]

def empty : SortedMap κ ν := ⟨[], List.Pairwise.nil⟩

/-- The value of a key that is there is replaced. -/
def insertEntry (key : κ) (value : ν) : List (κ × ν) → List (κ × ν)
  | [] => [(key, value)]
  | entry :: rest =>
    if key < entry.1 then (key, value) :: entry :: rest
    else if key = entry.1 then (key, value) :: rest
    else entry :: insertEntry key value rest

variable {key : κ} {entries : List (κ × ν)} {m : SortedMap κ ν}

theorem mem_of_mem_insertEntry {value : ν} {entry : κ × ν}
    (h : entry ∈ insertEntry key value entries) : entry = (key, value) ∨ entry ∈ entries := by
  induction entries with
  | nil => exact Or.inl (mem_singleton.mp h)
  | cons first rest ih =>
    unfold insertEntry at h
    split_ifs at h with hlt heq
    · exact mem_cons.mp h
    · exact (mem_cons.mp h).imp_right (mem_cons_of_mem _)
    · rcases mem_cons.mp h with hfirst | hrest
      · exact Or.inr (hfirst ▸ mem_cons_self)
      · exact (ih hrest).imp_right (mem_cons_of_mem _)

theorem sorted_insertEntry (key : κ) (value : ν) (h : entries.Pairwise fun a b => a.1 < b.1) :
    (insertEntry key value entries).Pairwise fun a b => a.1 < b.1 := by
  induction entries with
  | nil => exact pairwise_singleton ..
  | cons first rest ih =>
    obtain ⟨hfirst, hrest⟩ := pairwise_cons.mp h
    unfold insertEntry
    split_ifs with hlt heq
    · refine pairwise_cons.mpr ⟨fun entry hentry => ?_, h⟩
      rcases mem_cons.mp hentry with rfl | hentry
      · exact hlt
      · exact hlt.trans (hfirst entry hentry)
    · exact pairwise_cons.mpr ⟨fun entry hentry => heq ▸ hfirst entry hentry, hrest⟩
    refine pairwise_cons.mpr ⟨fun entry hentry => ?_, ih hrest⟩
    rcases mem_of_mem_insertEntry hentry with rfl | hentry
    · exact lt_of_le_of_ne (not_lt.mp hlt) (Ne.symm heq)
    · exact hfirst entry hentry

section

variable (m : SortedMap κ ν)

def insert (key : κ) (value : ν) : SortedMap κ ν :=
  ⟨insertEntry key value m.entries, sorted_insertEntry key value m.sorted⟩

/-- The value of the key, and the map without it. -/
def remove (key : κ) : Option ν × SortedMap κ ν :=
  ((m.entries.find? fun entry => entry.1 = key).map Prod.snd,
    ⟨m.entries.filter fun entry => entry.1 ≠ key, m.sorted.filter _⟩)

def values : List ν := m.entries.map Prod.snd

theorem eq_of_fst_eq {a b : κ × ν} (ha : a ∈ m.entries) (hb : b ∈ m.entries) (hkey : a.1 = b.1) :
    a = b := by
  have hnodup : (m.entries.map Prod.fst).Nodup :=
    pairwise_map.mpr (m.sorted.imp fun hlt => ne_of_lt hlt)
  exact inj_on_of_nodup_map hnodup ha hb hkey

end

theorem perm_insertEntry (value : ν) (hnew : ∀ entry ∈ entries, entry.1 ≠ key) :
    (insertEntry key value entries).Perm ((key, value) :: entries) := by
  induction entries with
  | nil => exact Perm.refl _
  | cons first rest ih =>
    have hne : key ≠ first.1 := (hnew first mem_cons_self).symm
    unfold insertEntry
    split_ifs with hlt
    · exact Perm.refl _
    · have hrest := ih fun entry hentry => hnew entry (mem_cons_of_mem _ hentry)
      exact (hrest.cons first).trans (Perm.swap ..)

theorem perm_insert (value : ν) (hnew : ∀ entry ∈ m.entries, entry.1 ≠ key) :
    (m.insert key value).entries.Perm ((key, value) :: m.entries) :=
  perm_insertEntry value hnew

theorem remove_of_mem {value : ν} (h : (key, value) ∈ m.entries) :
    (m.remove key).1 = some value ∧ m.entries.Perm ((key, value) :: (m.remove key).2.entries) := by
  constructor
  · have hfind : m.entries.find? (fun entry => entry.1 = key) = some (key, value) := by
      cases hf : m.entries.find? fun entry => entry.1 = key with
      | none => simpa using find?_eq_none.mp hf _ h
      | some entry =>
        have hkey : entry.1 = key := by simpa using find?_some hf
        rw [m.eq_of_fst_eq (mem_of_find?_eq_some hf) h hkey]
    unfold remove
    rw [hfind]
    rfl
  have hnodup : m.entries.Nodup := m.sorted.imp fun hlt heq => absurd (heq ▸ hlt) (lt_irrefl _)
  refine (perm_ext_iff_of_nodup hnodup ?_).mpr fun entry => ?_
  · refine nodup_cons.mpr ⟨fun hmem => ?_, hnodup.filter _⟩
    simpa using (mem_filter.mp hmem).2
  change entry ∈ m.entries ↔ entry ∈ (key, value) :: m.entries.filter _
  by_cases hkey : entry.1 = key
  · have heq : entry ∈ m.entries ↔ entry = (key, value) :=
      ⟨fun hentry => m.eq_of_fst_eq hentry h hkey, fun heq => heq ▸ h⟩
    simp [heq, hkey]
  · have hne : entry ≠ (key, value) := fun heq => hkey (heq ▸ rfl)
    simp [hne, hkey]

/-- Sorted entries are determined by which they are. -/
theorem entries_eq_of_perm
    (hperm : m.entries.Perm entries) (hsorted : entries.Pairwise fun a b => a.1 < b.1) :
    m.entries = entries := by
  refine Perm.eq_of_pairwise (fun a b _ _ hab hba => ?_) m.sorted hsorted hperm
  exact absurd hab (lt_asymm hba)

end SortedMap
