/-
  States with a journal of what was merged into them, and forks that can be rolled back.

  A fork counts the entries merged since it was made. A rollback point is a value of the
  counter; rolling back to it undoes as many entries as the counter has grown since.
  Points nest: a computation may set one, run parts that set and use their own, and roll
  back over all of them.

  `f.Extends f'`: the fork `f'` is `f` with entries merged into it and counted. From any
  such `f'` the point taken at `f` leads back to `f` (`rollback_holds`), so a computation
  that rolls back when it reports an error leaves the fork as it found it
  (`executeWithRollback_holds`), whatever it merged and rolled back on the way.
-/
import Rbuilder.Rollback.Exec

namespace Rollback

/-- The merged entries, the latest first. -/
structure Journal (δ : Type) where
  entries : List δ := []
  deriving DecidableEq

namespace Journal

variable {δ : Type}

def push (j : Journal δ) (d : δ) : Journal δ := ⟨d :: j.entries⟩

/-- Undo the last `n` entries. -/
def revert (j : Journal δ) (n : Nat) : Journal δ := ⟨j.entries.drop n⟩

@[simp] theorem revert_zero (j : Journal δ) : j.revert 0 = j := rfl

@[simp] theorem revert_push (j : Journal δ) (d : δ) (n : Nat) :
    (j.push d).revert (n + 1) = j.revert n := rfl

end Journal

/-- A state that is being changed, with the number of entries merged since the fork. -/
structure Fork (δ : Type) where
  state : Journal δ
  rollbacks : Nat := 0

namespace Fork

variable {δ C E α : Type}

def push (f : Fork δ) (d : δ) : Fork δ := ⟨f.state.push d, f.rollbacks + 1⟩

def rollbackPoint : Exec (Fork δ) C E Nat := fun f => (.ok f.rollbacks, f)

/-- Back to the point. A point of the future is a failed assertion. -/
def rollback (point : Nat) : Exec (Fork δ) C E Unit := fun f =>
  if point ≤ f.rollbacks then
    (.ok (), ⟨f.state.revert (f.rollbacks - point), point⟩)
  else (.panic "incorrect rollback", f)

/-- Run `m`; if it reports an error, roll back what it merged. -/
def executeWithRollback (m : Exec (Fork δ) C E α) : Exec (Fork δ) C E α := do
  let point ← rollbackPoint
  match ← m.attempt with
  | .ok a => pure a
  | .error e =>
    rollback point
    .fail e

/-- `f'` is `f` with entries merged and counted. -/
def Extends (f f' : Fork δ) : Prop :=
  ∃ ds : List δ, f'.state.entries = ds ++ f.state.entries ∧ f'.rollbacks = f.rollbacks + ds.length

theorem Extends.refl (f : Fork δ) : f.Extends f := ⟨[], rfl, rfl⟩

variable {f f' : Fork δ} {Q : α → Fork δ → Prop} {R : E → Fork δ → Prop}

/-- The point taken at `f` leads back to `f`. -/
theorem rollback_holds {Q : Unit → Fork δ → Prop} (h : f.Extends f') (hQ : Q () f) :
    (rollback f.rollbacks : Exec (Fork δ) C E Unit).Holds f' Q R := by
  obtain ⟨ds, hds, hn⟩ := h
  have hback : (⟨f'.state.revert (f'.rollbacks - f.rollbacks), f.rollbacks⟩ : Fork δ) = f := by
    have hlen : f'.rollbacks - f.rollbacks = ds.length := by omega
    rw [hlen, Journal.revert, hds, List.drop_left]
  unfold Exec.Holds rollback
  rw [if_pos (by omega), hback]
  exact hQ

/-- A computation that rolls back its errors reports them on the fork it started from. -/
theorem executeWithRollback_holds {m : Exec (Fork δ) C E α}
    (h : m.Holds f Q fun _ f' => f.Extends f') :
    (executeWithRollback m).Holds f Q fun _ f' => f' = f := by
  refine .bind (.bind (.attempt (h.mono ?_ ?_)))
  · intro a f' hQ
    exact .pure hQ
  · intro e f' hext
    exact .bind (rollback_holds hext (.fail rfl))

end Fork

end Rollback
