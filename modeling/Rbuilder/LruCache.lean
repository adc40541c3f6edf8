/-
  A cache of keys that forgets the least recently used one.

  `contains` does not count as a use; `put` does. A key that is in the cache was put.
-/
import Mathlib.Data.List.Basic

/-- The keys, the most recently used first. -/
structure LruCache (κ : Type) where
  cap : Nat
  keys : List κ

namespace LruCache

variable {κ : Type} [DecidableEq κ]

def new (cap : Nat) : LruCache κ := ⟨cap, []⟩

def contains (cache : LruCache κ) (key : κ) : Bool := key ∈ cache.keys

def put (cache : LruCache κ) (key : κ) : LruCache κ :=
  if key ∈ cache.keys then { cache with keys := key :: cache.keys.erase key }
  else { cache with keys := (key :: cache.keys).take cache.cap }

theorem contains_iff {cache : LruCache κ} {key : κ} :
    cache.contains key = true ↔ key ∈ cache.keys :=
  decide_eq_true_iff

theorem mem_of_mem_put {cache : LruCache κ} {key k : κ} (h : k ∈ (cache.put key).keys) :
    k = key ∨ k ∈ cache.keys := by
  unfold put at h
  by_cases hmem : key ∈ cache.keys
  · rw [if_pos hmem] at h
    rcases List.mem_cons.mp h with heq | hrest
    · exact Or.inl heq
    · exact Or.inr (List.mem_of_mem_erase hrest)
  · rw [if_neg hmem] at h
    exact List.mem_cons.mp (List.mem_of_mem_take h)

end LruCache
