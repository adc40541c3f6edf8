/-
  Hash maps: lookups and entries after an insertion or a removal.

  A hash map is iterated in some order of its entries, and tasks that run at once finish in
  some order. What is proved for every `HashOrder` holds whatever the hasher and the
  scheduler do.
-/
import Mathlib.Data.List.AList

/-- An order in which hash maps are iterated and tasks are run. -/
structure HashOrder where
  order : {α : Type} → List α → List α
  perm : ∀ {α : Type} (l : List α), (order l).Perm l

namespace AList

open List

variable {α β : Type} [DecidableEq α] {s : AList fun _ : α => β} {a a' : α} {b b' : β}

theorem exists_lookup (h : a ∈ s) : ∃ b, s.lookup a = some b :=
  Option.isSome_iff_exists.mp (lookup_isSome.mpr h)

theorem mem_of_lookup (h : s.lookup a = some b) : a ∈ s := lookup_isSome.mp (by rw [h]; rfl)

theorem lookup_insert_eq_ite (s : AList fun _ : α => β) (a a' : α) (b : β) :
    (s.insert a b).lookup a' = if a' = a then some b else s.lookup a' := by
  by_cases heq : a' = a
  · rw [heq, lookup_insert, if_pos rfl]
  · rw [lookup_insert_ne heq, if_neg heq]

theorem getD_lookup_insert (s : AList fun _ : α => β) (a a' : α) (b d : β) :
    ((s.insert a b).lookup a').getD d = if a' = a then b else (s.lookup a').getD d := by
  rw [lookup_insert_eq_ite]
  split <;> rfl

theorem lookup_insert_eq_some (h : (s.insert a b).lookup a' = some b') :
    a' = a ∧ b' = b ∨ a' ≠ a ∧ s.lookup a' = some b' := by
  rw [lookup_insert_eq_ite] at h
  split_ifs at h with heq
  · exact .inl ⟨heq, (Option.some.inj h).symm⟩
  · exact .inr ⟨heq, h⟩

/-- A new key takes nothing away. -/
theorem lookup_insert_of_new (hnew : s.lookup a = none) (h : s.lookup a' = some b') :
    (s.insert a b).lookup a' = some b' := by
  rw [lookup_insert_ne, h]
  rintro rfl
  cases hnew.symm.trans h

theorem lookup_erase_eq_ite (s : AList fun _ : α => β) (a a' : α) :
    (s.erase a).lookup a' = if a' = a then none else s.lookup a' := by
  split_ifs with heq
  · rw [heq, lookup_erase]
  · exact lookup_erase_ne heq

theorem lookup_erase_eq_some (h : (s.erase a).lookup a' = some b') :
    a' ≠ a ∧ s.lookup a' = some b' := by
  rw [lookup_erase_eq_ite] at h
  split_ifs at h with heq
  exact ⟨heq, h⟩

theorem lookup_foldl_erase (l : List α) (s : AList fun _ : α => β) (a : α) :
    (l.foldl (fun s a => s.erase a) s).lookup a = if a ∈ l then none else s.lookup a := by
  induction l generalizing s with
  | nil => rfl
  | cons a' l ih =>
    rw [foldl_cons, ih, lookup_erase_eq_ite]
    by_cases heq : a = a' <;> simp [heq]

theorem length_keys_insert (s : AList fun _ : α => β) (a : α) (b : β) :
    (s.insert a b).keys.length = if a ∈ s then s.keys.length else s.keys.length + 1 := by
  rw [keys_insert, length_cons, length_erase]
  split_ifs <;> grind [mem_keys]

theorem entries_perm_erase (h : s.lookup a = some b) :
    s.entries.Perm (⟨a, b⟩ :: (s.erase a).entries) := by
  have hmem : Sigma.mk a b ∈ s.entries := mem_lookup_iff.mp h
  obtain ⟨b', l₁, l₂, _, hl, her⟩ := exists_of_kerase (mem_keys_of_mem hmem)
  have hb' : s.lookup a = some b' := by
    apply mem_lookup_iff.mpr
    rw [hl]
    exact mem_append_right _ mem_cons_self
  obtain rfl : b' = b := Option.some.inj (hb'.symm.trans h)
  show s.entries.Perm (⟨a, b'⟩ :: s.entries.kerase a)
  rw [her, hl]
  exact perm_middle

end AList
