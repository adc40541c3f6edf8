/-
  `mismatch` of `eth-sparse-mpt/src/utils.rs`: the first index where two slices
  differ, found eight elements at a time. `mismatch_eq` is its specification: the
  length of the common prefix.
-/
import Rbuilder.SparseMpt.Rlp
import Mathlib.Data.List.TakeWhile

namespace SparseMpt

open Patricia List

variable {α : Type} [DecidableEq α]

/-- `slice::chunks_exact`. -/
def chunksExact (n : Nat) (xs : List α) : List (List α) :=
  (List.range (xs.length / n)).map fun i => (xs.drop (i * n)).take n

def mismatchChunks (n : Nat) (xs ys : List α) : Nat :=
  let off := (((chunksExact n xs).zip (chunksExact n ys)).takeWhile fun c => c.1 == c.2).length * n
  off + (((xs.drop off).zip (ys.drop off)).takeWhile fun c => c.1 == c.2).length

def mismatch (xs ys : List α) : Nat := mismatchChunks 8 xs ys

theorem length_takeWhile_zip (xs ys : List α) :
    ((xs.zip ys).takeWhile fun c => c.1 == c.2).length = (commonPrefix xs ys).length := by
  induction xs generalizing ys with
  | nil => simp [commonPrefix]
  | cons a xs ih =>
    cases ys with
    | nil => simp [commonPrefix]
    | cons b ys =>
      simp only [zip_cons_cons, takeWhile_cons, commonPrefix]
      by_cases h : a = b
      · subst h
        simp [ih]
      · simp [h]

theorem commonPrefix_append (p xs ys : List α) :
    commonPrefix (p ++ xs) (p ++ ys) = p ++ commonPrefix xs ys := by
  induction p with
  | nil => rfl
  | cons a p ih => simp [commonPrefix, ih]

/-- Equal leading chunks are equal leading elements. -/
theorem take_eq_of_chunks (n : Nat) (xs ys : List α) (k : Nat)
    (hk : k ≤ (((chunksExact n xs).zip (chunksExact n ys)).takeWhile fun c => c.1 == c.2).length) :
    xs.take (k * n) = ys.take (k * n) := by
  induction k with
  | zero => simp
  | succ k ih =>
    have hlt : k < (((chunksExact n xs).zip (chunksExact n ys)).takeWhile
        fun c => c.1 == c.2).length := hk
    have hmem := getElem_mem hlt
    have heq := mem_takeWhile_imp hmem
    have hpre := takeWhile_prefix
      (l := (chunksExact n xs).zip (chunksExact n ys)) (fun c => c.1 == c.2)
    rw [hpre.getElem hlt, getElem_zip] at heq
    simp only [chunksExact, getElem_map, getElem_range, beq_iff_eq] at heq
    rw [Nat.succ_mul, take_add, take_add, ih (by omega), heq]

theorem mismatch_eq (xs ys : List α) : mismatch xs ys = (commonPrefix xs ys).length := by
  unfold mismatch mismatchChunks
  simp only [length_takeWhile_zip]
  generalize hk : (((chunksExact 8 xs).zip (chunksExact 8 ys)).takeWhile
    fun c => c.1 == c.2).length = k
  have htake := take_eq_of_chunks 8 xs ys k (by rw [hk])
  have hlen : k * 8 ≤ xs.length := by
    have h1 : k ≤ xs.length / 8 := by
      rw [← hk]
      refine ( takeWhile_prefix _).length_le.trans ?_
      simp [chunksExact]
    exact (Nat.mul_le_mul_right 8 h1).trans (Nat.div_mul_le_self ..)
  have hx := take_append_drop (k * 8) xs
  have hy := take_append_drop (k * 8) ys
  rw [← htake] at hy
  have : commonPrefix xs ys = xs.take (k * 8) ++ commonPrefix (xs.drop (k * 8)) (ys.drop (k * 8)) := by
    conv_lhs => rw [← hx, ← hy]
    exact commonPrefix_append ..
  rw [this, length_append, length_take, Nat.min_eq_left hlen]

end SparseMpt
