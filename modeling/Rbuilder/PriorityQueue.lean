/-
  Priority queues.

  A queue holds items with their priorities, each item once. `pop` takes one of the items of
  the highest priority; which of several ones a heap has on top is the argument `tie`.
-/
import Rbuilder.HashMap
import Mathlib.Data.List.MinMax

structure PriorityQueue (κ π : Type) where
  priorities : AList fun _ : κ => π

namespace PriorityQueue

open List

variable {κ π : Type} [DecidableEq κ]

def new : PriorityQueue κ π := ⟨∅⟩

variable (q : PriorityQueue κ π)

/-- An item that is there gets the new priority. -/
def push (item : κ) (priority : π) : PriorityQueue κ π :=
  ⟨q.priorities.insert item priority⟩

def lookup (item : κ) : Option π := q.priorities.lookup item

def remove (item : κ) : PriorityQueue κ π := ⟨q.priorities.erase item⟩

variable [LinearOrder π]

/-- The items of the highest priority. -/
def maxima : List (Sigma fun _ : κ => π) :=
  q.priorities.entries.filter fun entry => q.priorities.entries.all fun other => other.2 ≤ entry.2

def pop (tie : Nat) : Option (κ × π) × PriorityQueue κ π :=
  match q.maxima[tie % q.maxima.length]? with
  | none => (none, q)
  | some entry => (some (entry.1, entry.2), q.remove entry.1)

omit [LinearOrder π] in
theorem lookup_push (item item' : κ) (priority : π) :
    (q.push item priority).lookup item' = if item' = item then some priority else q.lookup item' := by
  unfold push lookup
  rw [AList.lookup_insert_eq_ite]

omit [LinearOrder π] in
theorem lookup_remove (item item' : κ) :
    (q.remove item).lookup item' = if item' = item then none else q.lookup item' := by
  unfold remove lookup
  rw [AList.lookup_erase_eq_ite]

variable {q} {q' : PriorityQueue κ π} {item : κ} {p : π} {tie : Nat}

theorem mem_maxima {entry : Sigma fun _ : κ => π} (h : entry ∈ q.maxima) :
    q.lookup entry.1 = some entry.2 ∧ ∀ item p, q.lookup item = some p → p ≤ entry.2 := by
  obtain ⟨hmem, hmax⟩ := mem_filter.mp h
  refine ⟨AList.mem_lookup_iff.mpr hmem, fun item p hp => ?_⟩
  exact of_decide_eq_true (all_eq_true.mp hmax ⟨item, p⟩ (AList.mem_lookup_iff.mp hp))

theorem maxima_ne_nil (h : q.lookup item = some p) : q.maxima ≠ [] := by
  have hmem : (⟨item, p⟩ : Sigma fun _ : κ => π) ∈ q.priorities.entries := AList.mem_lookup_iff.mp h
  cases hmax : q.priorities.entries.argmax Sigma.snd with
  | none =>
    rw [argmax_eq_none.mp hmax] at hmem
    cases hmem
  | some entry =>
    have hentry : entry ∈ q.maxima := mem_filter.mpr ⟨argmax_mem hmax,
      all_eq_true.mpr fun other hother => decide_eq_true (le_of_mem_argmax hother hmax)⟩
    exact ne_nil_of_mem hentry

/-- What is popped has the highest priority. -/
theorem pop_eq_some (h : q.pop tie = (some (item, p), q')) :
    q.lookup item = some p ∧ (∀ item' p', q.lookup item' = some p' → p' ≤ p) ∧ q' = q.remove item := by
  unfold pop at h
  split at h
  · cases h
  · next entry hentry =>
    cases h
    obtain ⟨hlookup, hmax⟩ := mem_maxima (mem_of_getElem? hentry)
    exact ⟨hlookup, hmax, rfl⟩

/-- Nothing is popped only from an empty queue. -/
theorem pop_eq_none (h : q.pop tie = (none, q')) : q' = q ∧ ∀ item, q.lookup item = none := by
  unfold pop at h
  split at h
  · next hnone =>
    cases h
    refine ⟨rfl, fun item => ?_⟩
    by_contra hsome
    obtain ⟨p, hp⟩ := Option.ne_none_iff_exists'.mp hsome
    have hlength := length_pos_iff.mpr (maxima_ne_nil hp)
    have hlt := Nat.mod_lt tie hlength
    rw [getElem?_eq_none_iff] at hnone
    omega
  · cases h

end PriorityQueue
