import Mathlib.Algebra.CharZero.Defs
import Mathlib.LinearAlgebra.Matrix.NonsingularInverse
import Mathlib.LinearAlgebra.Matrix.Trace

/-!
# Functions of a symmetric matrix

`apply s V` is `Vᵀ diag(s) V`, the matrix with the orthonormal rows of `V` as eigenvectors and the
values `s`. A matrix may have several such forms; what a function of the values makes of it does not
depend on the form (`apply_congr`), and neither does how many values have a property (`card_congr`).
-/

namespace NssFactory.Spectral

open Matrix

variable {ι R : Type*} [Fintype ι] [DecidableEq ι] [CommRing R] {V W : Matrix ι ι R} {s t : ι → R}

def apply (s : ι → R) (V : Matrix ι ι R) : Matrix ι ι R := Vᵀ * diagonal s * V

theorem apply_entry (i j : ι) : apply s V i j = ∑ k, V k i * s k * V k j := by
  rw [apply, Matrix.mul_apply]
  simp only [Matrix.mul_diagonal, Matrix.transpose_apply]

/-- The rows of `V` are eigenvectors. -/
theorem mul_apply (hV : V * Vᵀ = 1) : V * apply s V = diagonal s * V := by
  rw [apply, ← Matrix.mul_assoc, ← Matrix.mul_assoc, hV, Matrix.one_mul]

theorem apply_eq_iff (hV : V * Vᵀ = 1) {M : Matrix ι ι R} : M = apply s V ↔ V * M = diagonal s * V := by
  have hV' : Vᵀ * V = 1 := mul_eq_one_comm.mp hV
  constructor
  · rintro rfl
    exact mul_apply hV
  · intro h
    rw [apply, Matrix.mul_assoc, ← h, ← Matrix.mul_assoc, hV', Matrix.one_mul]

/-- Eigenvectors of different values are orthogonal. -/
theorem cross [IsDomain R] (hV : V * Vᵀ = 1) (hW : W * Wᵀ = 1) (h : apply s V = apply t W) (i j : ι)
    (hne : s i ≠ t j) : (V * Wᵀ) i j = 0 := by
  have hboth : diagonal s * (V * Wᵀ) = V * Wᵀ * diagonal t := by
    rw [← Matrix.mul_assoc, ← mul_apply hV, h, apply, Matrix.mul_assoc V, Matrix.mul_assoc _ W, hW,
      Matrix.mul_one, Matrix.mul_assoc V]
  have hentry := congrFun (congrFun hboth i) j
  rw [Matrix.diagonal_mul, Matrix.mul_diagonal] at hentry
  have hzero : (s i - t j) * (V * Wᵀ) i j = 0 := by
    rw [sub_mul, hentry, mul_comm (t j), sub_self]
  exact (mul_eq_zero.mp hzero).resolve_left (sub_ne_zero.mpr hne)

theorem apply_congr [IsDomain R] (hV : V * Vᵀ = 1) (hW : W * Wᵀ = 1) (h : apply s V = apply t W)
    (f : R → R) : apply (fun i => f (s i)) V = apply (fun i => f (t i)) W := by
  have hW' : Wᵀ * W = 1 := mul_eq_one_comm.mp hW
  have hboth : diagonal (fun i => f (s i)) * (V * Wᵀ) = V * Wᵀ * diagonal fun i => f (t i) := by
    ext i j
    rw [Matrix.diagonal_mul, Matrix.mul_diagonal]
    by_cases hij : s i = t j
    · rw [hij, mul_comm]
    · rw [cross hV hW h i j hij, mul_zero, zero_mul]
  symm
  rw [apply_eq_iff hV]
  calc V * apply (fun i => f (t i)) W = V * Wᵀ * diagonal (fun i => f (t i)) * W := by
        rw [apply, ← Matrix.mul_assoc, ← Matrix.mul_assoc]
    _ = diagonal (fun i => f (s i)) * (V * (Wᵀ * W)) := by
        rw [← hboth, Matrix.mul_assoc, Matrix.mul_assoc V]
    _ = diagonal (fun i => f (s i)) * V := by rw [hW', Matrix.mul_one]

theorem trace_apply (hV : V * Vᵀ = 1) : (apply s V).trace = ∑ i, s i := by
  rw [apply, Matrix.trace_mul_comm, ← Matrix.mul_assoc, hV, Matrix.one_mul, Matrix.trace_diagonal]

theorem card_congr [IsDomain R] [CharZero R] (hV : V * Vᵀ = 1) (hW : W * Wᵀ = 1) (h : apply s V = apply t W)
    (p : R → Prop) [DecidablePred p] :
    (Finset.univ.filter fun i => p (s i)).card = (Finset.univ.filter fun i => p (t i)).card := by
  have htrace := congrArg Matrix.trace (apply_congr hV hW h fun x => if p x then 1 else 0)
  rw [trace_apply hV, trace_apply hW, Finset.sum_boole, Finset.sum_boole] at htrace
  exact Nat.cast_injective htrace

end NssFactory.Spectral
