/-
  Logs of writes over a base map.

  `Patched f g log`: the map `g` is the base map `f` with the writes of `log` made, each
  key written at most once. A log can be permuted, a write to a fresh key can be added to
  it, and any of its writes can be undone by writing back what the base has. What a log
  describes is determined by its writes (`Patched.eq`).
-/
import Mathlib.Data.List.Perm.Basic
import Mathlib.Data.List.Nodup
import Mathlib.Logic.Function.Basic

namespace UndoLog

open Function List

variable {κ ν : Type}

/-- `g` is `f` with the writes of the log. -/
structure Patched (f g : κ → Option ν) (log : List (κ × Option ν)) : Prop where
  nodup : (log.map Prod.fst).Nodup
  written : ∀ e ∈ log, g e.1 = e.2
  unwritten : ∀ q, q ∉ log.map Prod.fst → g q = f q

variable {f g g' : κ → Option ν} {log log' : List (κ × Option ν)}

theorem Patched.nil (f : κ → Option ν) : Patched f f [] :=
  ⟨nodup_nil, fun _ h => absurd h not_mem_nil, fun _ _ => rfl⟩

theorem Patched.perm (h : Patched f g log) (hp : log.Perm log') : Patched f g log' where
  nodup := (hp.map Prod.fst).nodup_iff.mp h.nodup
  written e he := h.written e (hp.mem_iff.mpr he)
  unwritten q hq := h.unwritten q fun hm => hq ((hp.map Prod.fst).mem_iff.mp hm)

/-- Two maps with the same writes over the same base are the same. -/
theorem Patched.eq (h : Patched f g log) (h' : Patched f g' log') (hp : log.Perm log') :
    g = g' := by
  have h := h.perm hp
  funext q
  by_cases hq : q ∈ log'.map Prod.fst
  · obtain ⟨e, he, rfl⟩ := mem_map.mp hq
    rw [h.written e he, h'.written e he]
  · rw [h.unwritten q hq, h'.unwritten q hq]

/-- Writes that leave the base as it is do not count. -/
theorem Patched.absorb (h : Patched f g log) (h' : Patched f g' log')
    (hsub : ∀ e ∈ log', e ∈ log) (hrest : ∀ e ∈ log, e ∈ log' ∨ f e.1 = e.2) : g = g' := by
  funext q
  by_cases hq' : q ∈ log'.map Prod.fst
  · obtain ⟨e, he, rfl⟩ := mem_map.mp hq'
    rw [h.written e (hsub e he), h'.written e he]
  rw [h'.unwritten q hq']
  by_cases hq : q ∈ log.map Prod.fst
  · obtain ⟨e, he, rfl⟩ := mem_map.mp hq
    have hsame := (hrest e he).resolve_left fun he' => hq' (mem_map_of_mem he')
    rw [h.written e he, hsame]
  · exact h.unwritten q hq

variable [DecidableEq κ]

theorem Patched.write (h : Patched f g log) {k : κ} (hk : k ∉ log.map Prod.fst) (v : Option ν) :
    Patched f (update g k v) ((k, v) :: log) where
  nodup := nodup_cons.mpr ⟨hk, h.nodup⟩
  written e he := by
    rcases mem_cons.mp he with rfl | he
    · exact update_self ..
    · have hne : e.1 ≠ k := fun heq => hk (heq ▸ mem_map_of_mem he)
      rw [update_of_ne hne, h.written e he]
  unwritten q hq := by
    rw [map_cons, mem_cons, not_or] at hq
    rw [update_of_ne hq.1, h.unwritten q hq.2]

theorem Patched.undo {k : κ} {v : Option ν} (h : Patched f g ((k, v) :: log)) :
    Patched f (update g k (f k)) log where
  nodup := (nodup_cons.mp h.nodup).2
  written e he := by
    have hk : k ∉ log.map Prod.fst := (nodup_cons.mp h.nodup).1
    have hne : e.1 ≠ k := fun heq => hk (heq ▸ mem_map_of_mem he)
    rw [update_of_ne hne, h.written e (mem_cons_of_mem _ he)]
  unwritten q hq := by
    by_cases hqk : q = k
    · rw [hqk, update_self]
    rw [update_of_ne hqk]
    apply h.unwritten
    rw [map_cons, mem_cons, not_or]
    exact ⟨hqk, hq⟩

/-- The writes of a log made one after the other. -/
theorem patched_foldl (f : κ → Option ν) (log : List (κ × Option ν))
    (h : (log.map Prod.fst).Nodup) :
    Patched f (log.foldl (fun g e => update g e.1 e.2) f) log := by
  have hgen : ∀ (rest done : List (κ × Option ν)) (g : κ → Option ν), Patched f g done →
      ((rest ++ done).map Prod.fst).Nodup →
      Patched f (rest.foldl (fun g e => update g e.1 e.2) g) (rest ++ done) := by
    intro rest
    induction rest with
    | nil => intro done g hg _; exact hg
    | cons e rest ih =>
      intro done g hg hnd
      have hperm : (rest ++ e :: done).Perm (e :: rest ++ done) := perm_middle
      have hnd' := (hperm.map Prod.fst).nodup_iff.mpr hnd
      have hfresh : e.1 ∉ done.map Prod.fst := by
        rw [map_append, map_cons] at hnd'
        exact (nodup_cons.mp (nodup_append.mp hnd').2.1).1
      exact (ih (e :: done) _ (hg.write hfresh e.2) hnd').perm hperm
  simpa using hgen log [] f (Patched.nil f) (by simpa using h)

end UndoLog
