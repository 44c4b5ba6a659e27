import Mathlib.Data.Rat.Defs
import Mathlib.Algebra.Order.Ring.Rat
import Mathlib.Tactic.Linarith

/-!
# Double precision

`Doubles` is what programs rely on of `double`: its operations round to nearest, so that a sum
or a difference is never on the other side of a double than the exact one (`add_not_lt`,
`sub_le`). Nothing is said of the other operations, nor of comparisons with NaN.
-/

namespace NssFactory

structure Doubles (Single : Type) where
  D : Type
  isFinite : D → Bool
  /-- The value of a finite double. -/
  real : D → ℚ
  lt : D → D → Bool
  le : D → D → Bool
  eq : D → D → Bool
  add : D → D → D
  sub : D → D → D
  mul : D → D → D
  div : D → D → D
  /-- `std::fma` -/
  fma : D → D → D → D
  neg : D → D
  abs : D → D
  sqrt : D → D
  ofNat : Nat → D
  /-- `0x1p-24` -/
  ulp : D
  ofSingle : Single → D
  toSingle : D → Single
  finiteSingle : Single → Bool
  zero_finite : isFinite (ofNat 0) = true
  zero_real : real (ofNat 0) = 0
  single_finite : ∀ v, finiteSingle v = true → isFinite (ofSingle v) = true
  lt_iff : ∀ {x y}, isFinite x = true → isFinite y = true → (lt x y = true ↔ real x < real y)
  eq_iff : ∀ {x y}, isFinite x = true → isFinite y = true → (eq x y = true ↔ real x = real y)
  add_not_lt : ∀ {x y z}, isFinite x = true → isFinite y = true → isFinite z = true → real z ≤ real x + real y →
    lt (add x y) z = false
  sub_le : ∀ {x y z}, isFinite x = true → isFinite y = true → isFinite z = true → real x - real y ≤ real z →
    le (sub x y) z = true

end NssFactory
