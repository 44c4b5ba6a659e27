import Mathlib.Analysis.InnerProductSpace.PiL2
import Mathlib.Tactic.Linarith
import Mathlib.Tactic.Ring

/-!
# The best approximation of rank one

Of all products `d a^T`, the first term of a singular value decomposition is as close to a matrix
as any (`rank_one_best`). Matrices are functions of the row and the column, and `dot n` is the
inner product of the first `n` entries. Bessel's inequality on both sides bounds the bilinear
form of the matrix by its first singular value.
-/

namespace NssFactory.RankOne

open Finset

def dot (n : Nat) (f g : Nat → ℝ) : ℝ := ∑ i ∈ range n, f i * g i

theorem dot_self_nonneg (n : Nat) (f : Nat → ℝ) : 0 ≤ dot n f f :=
  sum_nonneg fun i _ => mul_self_nonneg (f i)

theorem dot_smul_left (n : Nat) (c : ℝ) (f g : Nat → ℝ) : dot n (fun i => c * f i) g = c * dot n f g := by
  unfold dot
  rw [mul_sum]
  exact sum_congr rfl fun i _ => mul_assoc _ _ _

theorem dot_smul_right (n : Nat) (c : ℝ) (f g : Nat → ℝ) : dot n f (fun i => c * g i) = c * dot n f g := by
  unfold dot
  rw [mul_sum]
  exact sum_congr rfl fun i _ => mul_left_comm _ _ _

/-- The first `p` of the vectors are orthonormal. -/
def OrthonormalFirst (n p : Nat) (u : Nat → Nat → ℝ) : Prop :=
  ∀ a < p, ∀ b < p, dot n (u a) (u b) = if a = b then 1 else 0

theorem bessel {n p : Nat} {u : Nat → Nat → ℝ} (hu : OrthonormalFirst n p u) (d : Nat → ℝ) :
    ∑ r ∈ range p, dot n (u r) d ^ 2 ≤ dot n d d := by
  let vec : (Nat → ℝ) → EuclideanSpace ℝ (Fin n) := fun f => WithLp.toLp 2 fun i => f i
  have hinner : ∀ f g : Nat → ℝ, inner ℝ (vec f) (vec g) = dot n f g := by
    intro f g
    rw [PiLp.inner_apply, dot, ← Fin.sum_univ_eq_sum_range (fun i => f i * g i) n]
    exact sum_congr rfl fun i _ => mul_comm _ _
  have horthonormal : Orthonormal ℝ fun r : Fin p => vec (u r) := by
    rw [orthonormal_iff_ite]
    intro a b
    rw [hinner, hu a a.isLt b b.isLt]
    exact if_congr Fin.ext_iff.symm rfl rfl
  have hbessel := horthonormal.sum_inner_products_le (vec d) (s := univ)
  rw [← real_inner_self_eq_norm_sq, hinner] at hbessel
  rw [← Fin.sum_univ_eq_sum_range (fun r => dot n (u r) d ^ 2) p]
  refine le_trans (sum_le_sum fun r _ => ?_) hbessel
  rw [hinner, Real.norm_eq_abs, sq_abs]

section Decomposition

variable {m n p : Nat} {E u v : Nat → Nat → ℝ} {s : Nat → ℝ}

/-- The bilinear form of a matrix with `m` rows and `n` columns. -/
def form (m n : Nat) (E : Nat → Nat → ℝ) (d a : Nat → ℝ) : ℝ :=
  ∑ t ∈ range n, ∑ i ∈ range m, E i t * (d i * a t)

/-- The distance of a matrix from `d a^T`, squared. -/
def distance (m n : Nat) (E : Nat → Nat → ℝ) (d a : Nat → ℝ) : ℝ :=
  ∑ t ∈ range n, ∑ i ∈ range m, (E i t - d i * a t) ^ 2

theorem distance_eq (d a : Nat → ℝ) : distance m n E d a =
    (∑ t ∈ range n, ∑ i ∈ range m, E i t ^ 2) - 2 * form m n E d a + dot m d d * dot n a a := by
  have hproduct : dot m d d * dot n a a = ∑ t ∈ range n, ∑ i ∈ range m, (d i * a t) ^ 2 := by
    unfold dot
    rw [mul_comm, sum_mul_sum]
    exact sum_congr rfl fun t _ => sum_congr rfl fun i _ => by ring
  unfold distance form
  rw [hproduct, mul_sum, ← sum_sub_distrib, ← sum_add_distrib]
  refine sum_congr rfl fun t _ => ?_
  rw [mul_sum, ← sum_sub_distrib, ← sum_add_distrib]
  exact sum_congr rfl fun i _ => by ring

/-- Singular values in order and singular vectors. -/
structure Decomposes (m n p : Nat) (E : Nat → Nat → ℝ) (u : Nat → Nat → ℝ) (s : Nat → ℝ)
    (v : Nat → Nat → ℝ) : Prop where
  entry : ∀ i < m, ∀ t < n, E i t = ∑ r ∈ range p, u r i * s r * v r t
  left : OrthonormalFirst m p u
  right : OrthonormalFirst n p v
  nonneg : ∀ r < p, 0 ≤ s r
  first : ∀ r < p, s r ≤ s 0

theorem Decomposes.form_eq (h : Decomposes m n p E u s v) (d a : Nat → ℝ) :
    form m n E d a = ∑ r ∈ range p, s r * (dot m (u r) d * dot n (v r) a) := by
  have hterm : ∀ r, s r * (dot m (u r) d * dot n (v r) a) =
      ∑ t ∈ range n, ∑ i ∈ range m, u r i * s r * v r t * (d i * a t) := by
    intro r
    unfold dot
    rw [mul_comm (∑ i ∈ range m, _), sum_mul_sum, mul_sum]
    refine sum_congr rfl fun t _ => ?_
    rw [mul_sum]
    exact sum_congr rfl fun i _ => by ring
  simp only [hterm]
  rw [sum_comm]
  refine sum_congr rfl fun t ht => ?_
  rw [sum_comm]
  refine sum_congr rfl fun i hi => ?_
  rw [h.entry i (mem_range.mp hi) t (mem_range.mp ht), sum_mul]

theorem Decomposes.form_sq_le (h : Decomposes m n p E u s v) (d a : Nat → ℝ) :
    form m n E d a ^ 2 ≤ s 0 ^ 2 * (dot m d d * dot n a a) := by
  rw [h.form_eq]
  calc (∑ r ∈ range p, s r * (dot m (u r) d * dot n (v r) a)) ^ 2
      = (∑ r ∈ range p, (s r * dot m (u r) d) * dot n (v r) a) ^ 2 := by
        congr 1
        exact sum_congr rfl fun r _ => by ring
    _ ≤ (∑ r ∈ range p, (s r * dot m (u r) d) ^ 2) * ∑ r ∈ range p, dot n (v r) a ^ 2 :=
        sum_mul_sq_le_sq_mul_sq _ _ _
    _ ≤ (s 0 ^ 2 * dot m d d) * dot n a a := by
        refine mul_le_mul ?_ (bessel h.right a) (sum_nonneg fun r _ => sq_nonneg _)
          (mul_nonneg (sq_nonneg _) (dot_self_nonneg m d))
        refine le_trans (sum_le_sum fun r hr => ?_)
          (by rw [← mul_sum]; exact mul_le_mul_of_nonneg_left (bessel h.left d) (sq_nonneg _))
        rw [mul_pow]
        have hr := mem_range.mp hr
        exact mul_le_mul_of_nonneg_right (pow_le_pow_left₀ (h.nonneg r hr) (h.first r hr) 2) (sq_nonneg _)
    _ = s 0 ^ 2 * (dot m d d * dot n a a) := mul_assoc _ _ _

theorem Decomposes.form_first (h : Decomposes m n p E u s v) (hp : 0 < p) :
    form m n E (u 0) (v 0) = s 0 := by
  rw [h.form_eq, sum_eq_single 0]
  · rw [h.left 0 hp 0 hp, h.right 0 hp 0 hp, if_pos rfl, mul_one, mul_one]
  · intro r hr hne
    rw [h.left r (mem_range.mp hr) 0 hp, if_neg hne, zero_mul, mul_zero]
  · intro hmem
    exact absurd (mem_range.mpr hp) hmem

theorem form_smul_right (c : ℝ) (d a : Nat → ℝ) :
    form m n E d (fun t => c * a t) = c * form m n E d a := by
  unfold form
  rw [mul_sum]
  refine sum_congr rfl fun t _ => ?_
  rw [mul_sum]
  exact sum_congr rfl fun i _ => by ring

theorem Decomposes.rank_one_best (h : Decomposes m n p E u s v) (hp : 0 < p) (d a : Nat → ℝ) :
    distance m n E (u 0) (fun t => s 0 * v 0 t) ≤ distance m n E d a := by
  have hbound := h.form_sq_le d a
  have hbest : distance m n E (u 0) (fun t => s 0 * v 0 t) =
      (∑ t ∈ range n, ∑ i ∈ range m, E i t ^ 2) - s 0 ^ 2 := by
    rw [distance_eq, form_smul_right, h.form_first hp, dot_smul_left, dot_smul_right,
      h.left 0 hp 0 hp, h.right 0 hp 0 hp, if_pos rfl]
    ring
  have hproduct : 0 ≤ dot m d d * dot n a a := mul_nonneg (dot_self_nonneg m d) (dot_self_nonneg n a)
  -- twice the form is at most the sum of the squares that bound its square
  have hform : 2 * form m n E d a ≤ s 0 ^ 2 + dot m d d * dot n a a := by
    by_contra hlt
    rw [not_le] at hlt
    have hsum : 0 ≤ s 0 ^ 2 + dot m d d * dot n a a := add_nonneg (sq_nonneg _) hproduct
    nlinarith [sq_nonneg (s 0 ^ 2 - dot m d d * dot n a a)]
  rw [hbest, distance_eq]
  linarith

end Decomposition

end NssFactory.RankOne
