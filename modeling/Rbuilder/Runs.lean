/-
  Properties of every state of a run, and of a call that may fail.

  A run is a list of steps, and a state is given by the steps done so far. Where a state
  that is fine stays fine exactly if the next step meets a condition, all states of a run
  are fine exactly if all its steps meet the condition (`forall_states_iff`).

  A call returns the state it leaves and a value or an error. `Gives P Q` says what holds of
  both; a program that goes on with the result of the call is reasoned about by the cases of
  `Gives.elim`.
-/
import Mathlib.Data.List.Induction

namespace Runs

open List

variable {α : Type} {P : List α → Prop} {Q : List α → α → Prop}

theorem forall_states_of_steps (hnil : P []) (hstep : ∀ done a, P done → Q done a → P (done ++ [a]))
    {l : List α} (hQ : ∀ done a, done ++ [a] <+: l → Q done a) : ∀ done, done <+: l → P done := by
  intro done
  induction done using reverseRecOn with
  | nil => exact fun _ => hnil
  | append_singleton done a ih =>
    intro hpre
    exact hstep done a (ih ((prefix_append done [a]).trans hpre)) (hQ done a hpre)

theorem forall_states_iff (hnil : P []) (hstep : ∀ done a, P done → (P (done ++ [a]) ↔ Q done a))
    (l : List α) : (∀ done, done <+: l → P done) ↔ ∀ done a, done ++ [a] <+: l → Q done a := by
  refine ⟨?_, forall_states_of_steps hnil fun done a hP hQ => (hstep done a hP).mpr hQ⟩
  intro hP done a hpre
  exact (hstep done a (hP done ((prefix_append done [a]).trans hpre))).mp (hP _ hpre)

/-! ## The steps of a given run -/

theorem forall_steps_nil : (∀ done a, done ++ [a] <+: ([] : List α) → Q done a) ↔ True := by
  refine iff_of_true (fun done a hpre => ?_) trivial
  have hlen := hpre.length_le
  simp at hlen

theorem forall_steps_cons (b : α) (l : List α) :
    (∀ done a, done ++ [a] <+: b :: l → Q done a) ↔
      Q [] b ∧ ∀ done a, done ++ [a] <+: l → Q (b :: done) a := by
  constructor
  · intro h
    refine ⟨h [] b ?_, fun done a hpre => h (b :: done) a ?_⟩
    · exact cons_prefix_cons.mpr ⟨rfl, nil_prefix⟩
    · exact cons_prefix_cons.mpr ⟨rfl, hpre⟩
  rintro ⟨hfirst, hrest⟩ done a hpre
  cases done with
  | nil =>
    cases (cons_prefix_cons.mp hpre).1
    exact hfirst
  | cons c done =>
    obtain ⟨rfl, htail⟩ := cons_prefix_cons.mp hpre
    exact hrest done a htail

end Runs

section

variable {σ α ε : Type} {P : σ → α → Prop} {Q : σ → ε → Prop}

/-- The state and the value satisfy `P`, or the state and the error `Q`. -/
def Gives (P : σ → α → Prop) (Q : σ → ε → Prop) : σ × Except ε α → Prop
  | (s, .ok a) => P s a
  | (s, .error e) => Q s e

@[elab_as_elim]
theorem Gives.elim {motive : σ × Except ε α → Prop} {out : σ × Except ε α} (h : Gives P Q out)
    (ok : ∀ s a, P s a → motive (s, .ok a)) (error : ∀ s e, Q s e → motive (s, .error e)) :
    motive out := by
  obtain ⟨s, res⟩ := out
  cases res with
  | ok a => exact ok s a h
  | error e => exact error s e h

end
