import Mathlib.Data.Int.Basic

/-!
# Half-sample reflection

A line of `n` samples is continued beyond its ends by its mirror image, the end samples
repeated: `-1` is `0`, `n` is `n - 1`, and the whole has period `2 n`.
-/

namespace NssFactory.Mirror

/-- The sample that stands at `x`. -/
def reflect (n x : Int) : Int := if x % (2 * n) < n then x % (2 * n) else 2 * n - 1 - x % (2 * n)

variable {n x : Int}

theorem reflect_of_mod_lt (h : x % (2 * n) < n) : reflect n x = x % (2 * n) := if_pos h

theorem reflect_mem (hn : 1 ≤ n) : 0 ≤ reflect n x ∧ reflect n x < n := by
  have h₀ := Int.emod_nonneg x (show 2 * n ≠ 0 by omega)
  have h₁ := Int.emod_lt_of_pos x (show 0 < 2 * n by omega)
  rw [reflect]
  split_ifs <;> omega

theorem reflect_self (h₀ : 0 ≤ x) (h₁ : x < n) : reflect n x = x := by
  have hmod : x % (2 * n) = x := Int.emod_eq_of_lt h₀ (by omega)
  rw [reflect_of_mod_lt (by omega), hmod]

/-- The mirror stands half a sample before the first. -/
theorem reflect_neg (hn : 1 ≤ n) : reflect n (-x - 1) = reflect n x := by
  have h₀ := Int.emod_nonneg x (show 2 * n ≠ 0 by omega)
  have h₁ := Int.emod_lt_of_pos x (show 0 < 2 * n by omega)
  have hmod : (-x - 1) % (2 * n) = 2 * n - 1 - x % (2 * n) := by
    have hx := Int.emod_add_mul_ediv x (2 * n)
    rw [show -x - 1 = 2 * n - 1 - x % (2 * n) + 2 * n * (-(x / (2 * n)) - 1) by
      rw [Int.mul_sub, Int.mul_neg]
      omega, Int.add_mul_emod_self_left]
    exact Int.emod_eq_of_lt (by omega) (by omega)
  rw [reflect, reflect, hmod]
  split_ifs <;> omega

end NssFactory.Mirror
