import Mathlib.Algebra.BigOperators.Intervals
import Mathlib.Algebra.BigOperators.Ring.Finset
import Mathlib.Algebra.Order.BigOperators.Group.Finset
import Mathlib.Data.Real.Basic
import Mathlib.Tactic.FieldSimp
import Mathlib.Tactic.Ring

/-!
# Triangular factors

A positive definite matrix `M` of order `r` is factored column by column into a lower triangular
`S`; `Factor r S M j` says that the first `j` columns are done, with positive diagonals. The next
pivot is then the value of the quadratic form of `M` at a vector that the columns before are
orthogonal to, and so positive (`Factor.pivot_pos`). With all columns done the two triangular
systems of `S` solve the system of `M` (`Factor.solves`).
-/

namespace NssFactory.Triangular

open Finset

variable {r j : Nat} {S M : Nat → Nat → ℝ}

structure PositiveDefinite (r : Nat) (M : Nat → Nat → ℝ) : Prop where
  symm : ∀ i < r, ∀ k < r, M i k = M k i
  pos : ∀ x : Nat → ℝ, (∃ i < r, x i ≠ 0) → 0 < ∑ i ∈ range r, x i * ∑ k ∈ range r, M i k * x k

/-- The lower triangle. -/
def lower (S : Nat → Nat → ℝ) (i t : Nat) : ℝ := if t ≤ i then S i t else 0

/-- The first `j` columns of `S` are those of the factor of `M`. -/
def Factor (r : Nat) (S M : Nat → Nat → ℝ) (j : Nat) : Prop :=
  ∀ k < j, 0 < S k k ∧ ∀ i, k ≤ i → i < r → ∑ t ∈ range k, S i t * S k t + S i k * S k k = M i k

/-- Back substitution succeeds. -/
theorem upper_solvable (r : Nat) {S : Nat → Nat → ℝ} (hS : ∀ k < r, S k k ≠ 0) (y : Nat → ℝ) :
    ∃ x : Nat → ℝ, ∀ k < r, S k k * x k + ∑ i ∈ Ico (k + 1) r, S i k * x i = y k := by
  -- from the last unknown down
  have key : ∀ n ≤ r, ∃ x : Nat → ℝ, ∀ k, r - n ≤ k → k < r →
      S k k * x k + ∑ i ∈ Ico (k + 1) r, S i k * x i = y k := by
    intro n
    induction n with
    | zero => exact fun _ => ⟨0, fun k _ _ => by omega⟩
    | succ n ih =>
      intro hn
      obtain ⟨x, hx⟩ := ih (by omega)
      obtain ⟨k, hk⟩ : ∃ k, k = r - (n + 1) := ⟨_, rfl⟩
      have hrest : ∀ k', k ≤ k' → ∀ v, ∑ i ∈ Ico (k' + 1) r, S i k' * Function.update x k v i =
          ∑ i ∈ Ico (k' + 1) r, S i k' * x i := by
        intro k' hk' v
        refine sum_congr rfl fun i hi => ?_
        rw [Function.update_of_ne (by have := (mem_Ico.mp hi).1; omega)]
      refine ⟨Function.update x k ((y k - ∑ i ∈ Ico (k + 1) r, S i k * x i) / S k k), fun k' hk' hr => ?_⟩
      rw [hrest k' (by omega)]
      by_cases heq : k' = k
      · subst heq
        have := hS k' hr
        rw [Function.update_self]
        field_simp
        ring
      · rw [Function.update_of_ne heq]
        exact hx k' (by omega) hr
  obtain ⟨x, hx⟩ := key r (Nat.le_refl r)
  exact ⟨x, fun k hk => hx k (by omega) hk⟩

theorem sum_lower {x : Nat → ℝ} {t : Nat} (ht : t < r) :
    ∑ i ∈ range r, lower S i t * x i = S t t * x t + ∑ i ∈ Ico (t + 1) r, S i t * x i := by
  have hbefore : ∑ i ∈ range t, lower S i t * x i = 0 := by
    refine sum_eq_zero fun i hi => ?_
    rw [lower, if_neg (by have := mem_range.mp hi; omega), zero_mul]
  have hafter : ∑ i ∈ Ico (t + 1) r, lower S i t * x i = ∑ i ∈ Ico (t + 1) r, S i t * x i := by
    refine sum_congr rfl fun i hi => ?_
    rw [lower, if_pos (by have := (mem_Ico.mp hi).1; omega)]
  rw [← sum_range_add_sum_Ico _ (show t + 1 ≤ r from ht), sum_range_succ, hbefore, hafter, zero_add, lower,
    if_pos (Nat.le_refl t)]

/-- A factored column, as a product over the columns before `j`. -/
theorem Factor.entry (h : Factor r S M j) {i k : Nat} (hki : k ≤ i) (hkj : k < j) (hi : i < r) :
    ∑ t ∈ range j, lower S i t * lower S k t = M i k := by
  have hbefore : ∑ t ∈ range k, lower S i t * lower S k t = ∑ t ∈ range k, S i t * S k t := by
    refine sum_congr rfl fun t ht => ?_
    have ht := mem_range.mp ht
    rw [lower, lower, if_pos (by omega), if_pos (by omega)]
  have hafter : ∑ t ∈ Ico (k + 1) j, lower S i t * lower S k t = 0 := by
    refine sum_eq_zero fun t ht => ?_
    have ht := (mem_Ico.mp ht).1
    rw [lower, lower, if_neg (show ¬t ≤ k by omega), mul_zero]
  rw [← sum_range_add_sum_Ico _ (show k + 1 ≤ j from hkj), sum_range_succ, hbefore, hafter, add_zero, lower,
    lower, if_pos hki, if_pos (Nat.le_refl k)]
  exact (h k hkj).2 i hki hi

/-- The pivot of column `j`. -/
def pivot (S M : Nat → Nat → ℝ) (j : Nat) : ℝ := M j j - ∑ t ∈ range j, S j t * S j t

theorem Factor.corner (h : Factor r S M j) (hsymm : ∀ i < r, ∀ k < r, M i k = M k i) {i k : Nat} (hi : i ≤ j)
    (hk : k ≤ j) (hj : j < r) :
    M i k = ∑ t ∈ range j, lower S i t * lower S k t + if i = j ∧ k = j then pivot S M j else 0 := by
  by_cases hlast : i = j ∧ k = j
  · obtain ⟨rfl, rfl⟩ := hlast
    have hrow : ∑ t ∈ range k, lower S k t * lower S k t = ∑ t ∈ range k, S k t * S k t := by
      refine sum_congr rfl fun t ht => ?_
      rw [lower, if_pos (by have := mem_range.mp ht; omega)]
    rw [if_pos ⟨rfl, rfl⟩, hrow, pivot]
    ring
  · rw [if_neg hlast, add_zero]
    rcases Nat.le_total k i with hki | hik
    · exact (h.entry hki (by omega) (by omega)).symm
    · rw [hsymm i (by omega) k (by omega), ← h.entry hik (by omega) (by omega)]
      exact sum_congr rfl fun t _ => mul_comm _ _

/-- The pivots of a positive definite matrix are positive. -/
theorem Factor.pivot_pos (h : Factor r S M j) (hM : PositiveDefinite r M) (hj : j < r) : 0 < pivot S M j := by
  -- a vector that ends with a one at `j`, orthogonal to the columns before
  obtain ⟨x, hx⟩ := upper_solvable r (S := fun i k => if k < j ∧ i ≤ j then S i k else if i = k then 1 else 0)
    (fun k _ => by
      split
      · rename_i hkj
        exact (h k hkj.1).1.ne'
      · rw [if_pos rfl]
        exact one_ne_zero) (fun k => if k = j then 1 else 0)
  have hlate : ∀ k, j ≤ k → k < r → x k = if k = j then 1 else 0 := by
    intro k hk hr
    have hzero : ∑ i ∈ Ico (k + 1) r, (if k < j ∧ i ≤ j then S i k else if i = k then 1 else 0) * x i = 0 := by
      refine sum_eq_zero fun i hi => ?_
      have hi := (mem_Ico.mp hi).1
      rw [if_neg (by omega), if_neg (by omega), zero_mul]
    rw [← hx k hr, hzero, if_neg (by omega), if_pos rfl, one_mul, add_zero]
  have horth : ∀ t < j, ∑ i ∈ range r, lower S i t * x i = 0 := by
    intro t ht
    have hsum : ∑ i ∈ Ico (t + 1) r, (if t < j ∧ i ≤ j then S i t else if i = t then 1 else 0) * x i =
        ∑ i ∈ Ico (t + 1) r, S i t * x i := by
      refine sum_congr rfl fun i hi => ?_
      have hi := mem_Ico.mp hi
      by_cases hij : i ≤ j
      · rw [if_pos ⟨ht, hij⟩]
      · rw [hlate i (by omega) hi.2, if_neg (show ¬i = j by omega), mul_zero, mul_zero]
    have htx := hx t (by omega)
    rw [hsum, if_pos ⟨ht, ht.le⟩, if_neg (by omega)] at htx
    rw [sum_lower (by omega), htx]
  have hrow : ∀ i ≤ j, ∑ k ∈ range r, M i k * x k = if i = j then pivot S M j else 0 := by
    intro i hi
    have hterm : ∀ k ∈ range r, M i k * x k = ∑ t ∈ range j, lower S i t * (lower S k t * x k) +
        if k = j then (if i = j then pivot S M j else 0) else 0 := by
      intro k hk
      have hk := mem_range.mp hk
      by_cases hkj : k ≤ j
      · rw [h.corner hM.symm hi hkj hj, add_mul, sum_mul]
        congr 1
        · exact sum_congr rfl fun t _ => mul_assoc _ _ _
        · by_cases hk : k = j
          · rw [if_pos hk, hlate k (by omega) (by omega), if_pos hk, mul_one]
            simp only [hk, and_true]
          · rw [if_neg hk, if_neg fun h => hk h.2, zero_mul]
      · rw [hlate k (by omega) hk, if_neg (by omega), mul_zero, if_neg (by omega), add_zero]
        refine (sum_eq_zero fun t _ => ?_).symm
        rw [mul_zero, mul_zero]
    rw [sum_congr rfl hterm, sum_add_distrib, sum_comm, sum_ite_eq' (range r) j, if_pos (mem_range.mpr hj)]
    have hzero : ∑ t ∈ range j, ∑ k ∈ range r, lower S i t * (lower S k t * x k) = 0 := by
      refine sum_eq_zero fun t ht => ?_
      rw [← mul_sum, horth t (mem_range.mp ht), mul_zero]
    rw [hzero, zero_add]
  have hform : ∑ i ∈ range r, x i * ∑ k ∈ range r, M i k * x k = pivot S M j := by
    have hterm : ∀ i ∈ range r, x i * ∑ k ∈ range r, M i k * x k = if i = j then pivot S M j else 0 := by
      intro i hi
      by_cases hij : i ≤ j
      · rw [hrow i hij]
        by_cases hi : i = j
        · rw [if_pos hi, hlate i (by omega) (by omega), if_pos hi, one_mul]
        · rw [if_neg hi, mul_zero]
      · rw [hlate i (by omega) (mem_range.mp hi), if_neg (by omega), zero_mul, if_neg (by omega)]
    rw [sum_congr rfl hterm, sum_ite_eq' (range r) j, if_pos (mem_range.mpr hj)]
  rw [← hform]
  refine hM.pos x ⟨j, hj, ?_⟩
  rw [hlate j (Nat.le_refl j) hj, if_pos rfl]
  exact one_ne_zero

/-- Forward and back substitution solve the system. -/
theorem Factor.solves (h : Factor r S M r) (hsymm : ∀ i < r, ∀ k < r, M i k = M k i) {b x y : Nat → ℝ}
    (hforward : ∀ i < r, ∑ k ∈ range i, S i k * y k + S i i * y i = b i)
    (hback : ∀ k < r, S k k * x k + ∑ i ∈ Ico (k + 1) r, S i k * x i = y k) :
    ∀ i < r, ∑ k ∈ range r, M i k * x k = b i := by
  intro i hi
  have hentry : ∀ k < r, M i k = ∑ t ∈ range r, lower S i t * lower S k t := by
    intro k hk
    rcases Nat.le_total k i with hki | hik
    · exact (h.entry hki hk hi).symm
    · rw [hsymm i hi k hk, ← h.entry hik hi hk]
      exact sum_congr rfl fun t _ => mul_comm _ _
  have hrow : ∑ t ∈ range r, lower S i t * y t = b i := by
    have hbefore : ∑ t ∈ range i, lower S i t * y t = ∑ t ∈ range i, S i t * y t := by
      refine sum_congr rfl fun t ht => ?_
      rw [lower, if_pos (by have := mem_range.mp ht; omega)]
    have hafter : ∑ t ∈ Ico (i + 1) r, lower S i t * y t = 0 := by
      refine sum_eq_zero fun t ht => ?_
      rw [lower, if_neg (by have := (mem_Ico.mp ht).1; omega), zero_mul]
    rw [← sum_range_add_sum_Ico _ (show i + 1 ≤ r from hi), sum_range_succ, hbefore, hafter, add_zero, lower,
      if_pos (Nat.le_refl i)]
    exact hforward i hi
  calc ∑ k ∈ range r, M i k * x k
      = ∑ k ∈ range r, ∑ t ∈ range r, lower S i t * (lower S k t * x k) := by
        refine sum_congr rfl fun k hk => ?_
        rw [hentry k (mem_range.mp hk), sum_mul]
        exact sum_congr rfl fun t _ => mul_assoc _ _ _
    _ = ∑ t ∈ range r, lower S i t * ∑ k ∈ range r, lower S k t * x k := by
        rw [sum_comm]
        exact sum_congr rfl fun t _ => (mul_sum _ _ _).symm
    _ = ∑ t ∈ range r, lower S i t * y t := by
        refine sum_congr rfl fun t ht => ?_
        rw [sum_lower (mem_range.mp ht), hback t (mem_range.mp ht)]
    _ = b i := hrow

end NssFactory.Triangular
