/-
  Two contributions lowered together, from `backtest/redistribute/redistribution_algo.rs`.

  `adjust_contributions` takes `delta` off the sum of two values so that the squares of what is
  left have the least sum. Of two pairs with one sum, the one with the values closer together has
  the smaller squares (`sq_add_sq_le`), so it is enough that no pair of the allowed ones is closer.
-/
import Mathlib.Tactic.Linarith
import Mathlib.Data.Int.Lemmas

namespace Redistribution

/-- `adjust_contributions` once its two values are in order; `none` where an assertion fails. -/
def adjustOrdered (a b delta : Int) : Option (Int × Int) :=
  if a + b ≤ delta then
    some (0, 0)
  else
    let parabolaMin := (delta - b + a).tdiv 2
    let leftBound := max (delta - b) 0
    let rightBound := min a delta
    let aMin :=
      if parabolaMin ≤ leftBound then leftBound
      else if leftBound < parabolaMin ∧ parabolaMin ≤ rightBound then parabolaMin
      else rightBound
    let aNew := a - aMin
    let bNew := b - (delta - aMin)
    if 0 ≤ aNew ∧ 0 ≤ bNew ∧ aNew + bNew ≤ a + b - delta then some (aNew, bNew) else none

def adjustContributions (a b delta : Int) : Option (Int × Int) :=
  if a ≤ b then adjustOrdered a b delta else (adjustOrdered b a delta).map Prod.swap

/-- What may be left of `a` and `b`. -/
structure Allowed (a b delta : Int) (left : Int × Int) : Prop where
  first : 0 ≤ left.1 ∧ left.1 ≤ a
  second : 0 ≤ left.2 ∧ left.2 ≤ b
  sum : left.1 + left.2 = max (a + b - delta) 0

variable {a b delta : Int}

theorem Allowed.swap {left : Int × Int} (h : Allowed a b delta left) :
    Allowed b a delta left.swap :=
  ⟨h.second, h.first, by rw [Prod.fst_swap, Prod.snd_swap, add_comm, h.sum, add_comm a b]⟩

theorem sq_add_sq_le {x y x' y' : Int} (hsum : x + y = x' + y')
    (h : (x - y).natAbs ≤ (x' - y').natAbs) : x ^ 2 + y ^ 2 ≤ x' ^ 2 + y' ^ 2 := by
  have hsq : (x - y) ^ 2 ≤ (x' - y') ^ 2 := Int.natAbs_le_iff_sq_le.mp h
  have hsums : (x + y) ^ 2 = (x' + y') ^ 2 := by rw [hsum]
  linarith

theorem adjustOrdered_spec (ha : 0 ≤ a) (hab : a ≤ b) (hdelta : 0 ≤ delta) :
    ∃ left, adjustOrdered a b delta = some left ∧ Allowed a b delta left ∧
      ∀ other, Allowed a b delta other → (left.1 - left.2).natAbs ≤ (other.1 - other.2).natAbs := by
  unfold adjustOrdered
  by_cases hall : a + b ≤ delta
  · exact ⟨(0, 0), if_pos hall, ⟨by omega, by omega, by omega⟩, fun _ _ => Nat.zero_le _⟩
  rw [if_neg hall]
  dsimp only
  -- the division may truncate up or down
  have hhalf : (delta - b + a - 2 * (delta - b + a).tdiv 2).natAbs ≤ 1 := by
    rw [← Int.tmod_def, Int.natAbs_tmod]
    exact Nat.le_of_lt_succ (Nat.mod_lt _ Nat.two_pos)
  generalize (delta - b + a).tdiv 2 = parabolaMin at hhalf ⊢
  generalize haMin : (if parabolaMin ≤ max (delta - b) 0 then max (delta - b) 0
    else if max (delta - b) 0 < parabolaMin ∧ parabolaMin ≤ min a delta then parabolaMin
    else min a delta) = aMin
  have hbounds : max (delta - b) 0 ≤ aMin ∧ aMin ≤ min a delta := by
    split_ifs at haMin <;> omega
  refine ⟨_, if_pos (by omega), ⟨by omega, by omega, by omega⟩, ?_⟩
  intro other hother
  have hfirst := hother.first
  have hsecond := hother.second
  have hsum := hother.sum
  -- where the minimum is not taken, the left bound is at most one off or no pair is closer
  split_ifs at haMin <;> omega

theorem adjust_contributions_optimal (ha : 0 ≤ a) (hb : 0 ≤ b)
    (hdelta : 0 ≤ delta) :
    ∃ left, adjustContributions a b delta = some left ∧ Allowed a b delta left ∧
      ∀ other, Allowed a b delta other →
        left.1 ^ 2 + left.2 ^ 2 ≤ other.1 ^ 2 + other.2 ^ 2 := by
  unfold adjustContributions
  split_ifs with hab
  · obtain ⟨left, hadjust, hleft, hclosest⟩ := adjustOrdered_spec ha hab hdelta
    refine ⟨left, hadjust, hleft, fun other hother => ?_⟩
    exact sq_add_sq_le (hleft.sum.trans hother.sum.symm) (hclosest other hother)
  · obtain ⟨left, hadjust, hleft, hclosest⟩ := adjustOrdered_spec hb (le_of_not_ge hab) hdelta
    refine ⟨left.swap, by rw [hadjust]; rfl, hleft.swap, fun other hother => ?_⟩
    have hle := sq_add_sq_le (hleft.sum.trans hother.swap.sum.symm) (hclosest _ hother.swap)
    rw [Prod.fst_swap, Prod.snd_swap] at hle ⊢
    linarith

theorem adjust_contributions_of_odd_rest : ∃ left, adjustContributions 75 100 30 = some left ∧
    Allowed 75 100 30 left ∧ ∀ other, Allowed 75 100 30 other →
      left.1 ^ 2 + left.2 ^ 2 ≤ other.1 ^ 2 + other.2 ^ 2 :=
  adjust_contributions_optimal (by decide) (by decide) (by decide)

end Redistribution
