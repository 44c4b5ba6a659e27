import NssFactory.Cpu.Gemm

/-!
# Float operations

What the solvers do with floats beside products. The arithmetic is left open; a loop over rows works
in vectors of `N` while a whole one is left and then row by row.
-/

namespace NssFactory.Cpu

/-- A comparison with a NaN is false. -/
structure FloatOps (F : Type) (N : Nat) extends Gemm.Ops F N where
  sub : F → F → F
  div : F → F → F
  sqrt : F → F
  abs : F → F
  lt : F → F → Bool
  le : F → F → Bool
  eq : F → F → Bool
  isFinite : F → Bool
  lit : ℚ → F
  zero_not_lt : lt zero zero = false

namespace FloatOps

variable {F : Type} {N : Nat} (o : FloatOps F N)

def one : F := o.lit 1

/-- `std::min` and `std::max` -/
def min (x y : F) : F := if o.lt y x then y else x

def max (x y : F) : F := if o.lt x y then y else x

def positive (x : F) : Bool := o.lt o.zero x && o.isFinite x

end FloatOps

/-- Whether row `i` of `m` lies in a whole vector. -/
def inVector (N m i : Nat) : Bool := decide (i < m / N * N)

end NssFactory.Cpu
