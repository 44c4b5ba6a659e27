import Mathlib.Algebra.Order.Chebyshev
import Mathlib.Analysis.SpecialFunctions.Pow.NNReal
import NssFactory.Lib.Loops
import NssFactory.Lib.Numerals
import NssFactory.Lib.Triangular

/-!
# The ADMM of TWSC, in exact arithmetic

`twsc_solve` finds coefficients `C`, their shrunk copy `Z` and a dual for a group of patches. Each
iteration solves `(G + rho/2 columns[j]) C[j] = rhs[j]` for every column `j`: by a division where
the Gram matrix `G` is almost diagonal, else in a basis of eigenvectors, and where the residual of
that is too large by Cholesky factors of each shifted `G`.

The arithmetic is that of the reals, where `isfinite` holds of everything. Matrices are functions of
the row and the column of their column-major storage, and the eigensolver is a parameter.
-/

namespace NssFactory.Cpu.TwscSolve

open Finset

attribute [local instance] Numerals.two

abbrev Mat := Nat → Nat → ℝ

def kTwscMaxRows : Nat := 768
def kTwscMaxColumns : Nat := 256

noncomputable section

def kTwscNoiseFloor : ℝ := 1e-6

/-- `std::numeric_limits<double>::epsilon()` -/
def epsilon : ℝ := 2⁻¹ ^ 52

inductive Error
  | options
  | shape
  | spectrum
  | rowPrecision
  | eigen
  | indefinite
  | columnNoise
  | fallback
  | residual
  | overflow
  deriving DecidableEq

def Error.what : Error → String
  | options => "nss.TWSC: invalid ADMM iterations/rho/mu/tol"
  | shape => "nss.TWSC: unsupported full solver shape"
  | spectrum => "nss.TWSC: invalid spectrum"
  | rowPrecision => "nss.TWSC: invalid row precision"
  | eigen => "nss.TWSC: symmetric eigendecomposition failed residual gate"
  | indefinite => "nss.TWSC: indefinite weighted Gram matrix"
  | columnNoise => "nss.TWSC: invalid column noise"
  | fallback => "nss.TWSC: Sylvester fallback failed"
  | residual => "nss.TWSC: Sylvester residual exceeds 1e-10"
  | overflow => "nss.TWSC: ADMM rho overflow"

/-- `if (bad) throw` -/
def refuse (bad : Prop) [Decidable bad] (e : Error) : Except Error Unit := if bad then .error e else .ok ()

structure TwscSolverOptions where
  iterations : Nat
  rho : ℝ
  mu : ℝ
  tolerance : ℝ

def checkOptions (o : TwscSolverOptions) : Except Error Unit :=
  refuse (o.iterations < 1 ∨ 1000 < o.iterations ∨ ¬0 < o.rho ∨ o.mu < 1 ∨ ¬0 < o.tolerance) .options

/-! ### Products -/

/-- The sum of the squares of a matrix. -/
def norm2 (rows cols : Nat) (X : Mat) : ℝ := ∑ j ∈ range cols, ∑ i ∈ range rows, X i j * X i j

/-- `A B`, with `k` columns in `A` -/
def gemmNN (k : Nat) (A B : Mat) : Mat := fun i j => ∑ t ∈ range k, A i t * B t j

/-- `Aᵀ B`, with `m` rows in both -/
def gemmTN (m : Nat) (A B : Mat) : Mat := fun i j => ∑ t ∈ range m, A t i * B t j

/-! ### Cholesky -/

def set (s : Mat) (i j : Nat) (v : ℝ) : Mat := fun i' j' => if i' = i ∧ j' = j then v else s i' j'

/-- Column `j` of the factor, over that column of `scratch`. -/
def factorColumn (r : Nat) (shift : ℝ) (scratch : Mat) (j : Nat) : Option Mat :=
  let diagonal := scratch j j + shift - ∑ k ∈ range j, scratch j k * scratch j k
  if 0 < diagonal then
    some ((List.range' (j + 1) (r - (j + 1))).foldl (fun s i =>
      set s i j ((s i j - ∑ k ∈ range j, s i k * s j k) / s j j)) (set scratch j j (√diagonal)))
  else none

/-- The two substitutions, in place in `x`. -/
def forward (r : Nat) (s : Mat) (b x : Nat → ℝ) : Nat → ℝ :=
  (List.range r).foldl (fun x i => Function.update x i ((b i - ∑ k ∈ range i, s i k * x k) / s i i)) x

def backward (r : Nat) (s : Mat) (x : Nat → ℝ) : Nat → ℝ :=
  (List.range r).reverse.foldl (fun x i =>
    Function.update x i ((x i - ∑ k ∈ Ico (i + 1) r, s k i * x k) / s i i)) x

def choleskyColumn (a : Mat) (shift : ℝ) (r : Nat) (b x : Nat → ℝ) : Option (Nat → ℝ) := do
  let scratch ← (List.range r).foldlM (factorColumn r shift) a
  return backward r scratch (forward r scratch b x)

/-! ### The system -/

/-- The arguments that stay as they are. -/
structure Group where
  m : Nat
  n : Nat
  r : Nat
  y : Mat
  dictionary : Mat
  spectrum : Nat → ℝ
  rowPrecision : Nat → ℝ
  columnSigma : Nat → ℝ

/-- What is computed before the first iteration. -/
structure System where
  m : Nat
  n : Nat
  r : Nat
  atoms : Mat
  gram : Mat
  gramNorm : ℝ
  offNorm : ℝ
  diagonal : Bool
  eigenvalues : Nat → ℝ
  eigenvectors : Mat
  data : Mat
  columns : Nat → ℝ

abbrev Eigen := Mat → Nat → Option ((Nat → ℝ) × Mat)

/-- The checks made while the atoms are weighted. -/
def checkAtoms (g : Group) : Except Error Unit :=
  (List.range g.r).forM fun k => do
    refuse (¬0 ≤ g.spectrum k) .spectrum
    (List.range g.m).forM fun i => refuse (¬0 < g.rowPrecision i) .rowPrecision

def weightedAtoms (g : Group) : Mat := fun i k => g.dictionary i k * g.spectrum k

/-- The Gram matrix, each pair of entries replaced by its average. -/
def gramMatrix (g : Group) : Mat :=
  let gram := gemmTN g.m (weightedAtoms g) fun i k => weightedAtoms g i k * g.rowPrecision i
  fun i j => if i = j then gram i j else 0.5 * (gram i j + gram j i)

/-- The eigensolver is not called on the diagonal path. -/
def basis (diagonal : Bool) (eigen : Eigen) (r : Nat) (gram : Mat) : Except Error ((Nat → ℝ) × Mat) :=
  if diagonal then .ok (fun i => gram i i, fun _ _ => 0)
  else match eigen gram r with
    | some basis => .ok basis
    | none => .error .eigen

def prepare (generic : Bool) (eigen : Eigen) (g : Group) (o : TwscSolverOptions) : Except Error System := do
  checkOptions o
  refuse (g.m < 1 ∨ kTwscMaxRows < g.m ∨ g.n < 1 ∨ kTwscMaxColumns < g.n ∨ g.r < 1 ∨ min g.m g.n < g.r) .shape
  checkAtoms g
  let gram := gramMatrix g
  let gramNorm := √(norm2 g.r g.r gram)
  let offNorm := √(norm2 g.r g.r fun i j => if i = j then 0 else gram i j)
  let diagonal := !generic && decide (offNorm ≤ 1e-12 * gramNorm)
  let basis ← basis diagonal eigen g.r gram
  (List.range g.r).forM fun i => refuse (basis.1 i < -64 * epsilon * g.r * gramNorm) .indefinite
  let data := gemmTN g.m (weightedAtoms g) fun i j => g.y i j * g.rowPrecision i
  (List.range g.n).forM fun j => refuse (¬0 ≤ g.columnSigma j) .columnNoise
  return ⟨g.m, g.n, g.r, weightedAtoms g, gram, gramNorm, offNorm, diagonal,
    fun i => max (basis.1 i) 0, basis.2, data, fun j => max (g.columnSigma j) kTwscNoiseFloor⟩

/-! ### An iteration -/

structure TwscSolverStats where
  iterations : Nat
  converged : Bool
  primal : ℝ
  coefficientChange : ℝ
  auxiliaryChange : ℝ
  sylvesterResidual : ℝ

structure State where
  rho : ℝ
  coefficients : Mat
  auxiliary : Mat
  dual : Mat
  stats : TwscSolverStats

def initial (o : TwscSolverOptions) : State :=
  ⟨o.rho, fun _ _ => 0, fun _ _ => 0, fun _ _ => 0, ⟨0, false, 0, 0, 0, 0⟩⟩

/-- What is added to the diagonal of the Gram matrix for column `j`. -/
def System.shift (s : System) (rho : ℝ) (j : Nat) : ℝ := 0.5 * rho * s.columns j

def System.rhs (s : System) (st : State) : Mat :=
  fun i j => s.data i j + 0.5 * (st.rho * st.auxiliary i j - st.dual i j) * s.columns j

def System.eigenSolve (s : System) (rho : ℝ) (rhs : Mat) : Mat :=
  if s.diagonal then fun i j => rhs i j / (s.eigenvalues i + s.shift rho j)
  else gemmNN s.r s.eigenvectors fun i j =>
    gemmTN s.r s.eigenvectors rhs i j / (s.eigenvalues i + s.shift rho j)

/-- The size the residual is measured against. -/
def System.scale (s : System) (rho : ℝ) (C rhs : Mat) : ℝ :=
  (s.gramNorm + √(∑ j ∈ range s.n, s.shift rho j * s.shift rho j)) * √(norm2 s.r s.n C) + √(norm2 s.r s.n rhs)

/-- The residual of the equation, as the general formula measures it. -/
def System.generalResidual (s : System) (rho : ℝ) (C rhs : Mat) : ℝ :=
  let error := √(norm2 s.r s.n fun i j => gemmNN s.r s.gram C i j + s.shift rho j * C i j - rhs i j)
  let denominator := s.scale rho C rhs
  if denominator = 0 then error else error / denominator

/-- What `residual` returns: a bound on the diagonal path. -/
def System.residual (s : System) (rho : ℝ) (C rhs : Mat) : ℝ :=
  if s.diagonal then
    let bound := s.offNorm * √(norm2 s.r s.n C) + 16 * epsilon * √(norm2 s.r s.n rhs)
    let scale := s.scale rho C rhs
    if scale = 0 then bound else bound / scale
  else s.generalResidual rho C rhs

/-- Every column by its own factor. -/
def System.choleskyColumns (s : System) (rho : ℝ) (rhs C : Mat) : Except Error Mat :=
  (List.range s.n).foldlM (fun C j =>
    match choleskyColumn s.gram (s.shift rho j) s.r (fun i => rhs i j) (fun i => C i j) with
    | some x => .ok fun i j' => if j' = j then x i else C i j'
    | none => .error .fallback) C

/-- The coefficients of an iteration and the residual they are accepted with. -/
def System.solveColumns (s : System) (rho : ℝ) (rhs : Mat) : Except Error (Mat × ℝ) := do
  let C := s.eigenSolve rho rhs
  let error := s.residual rho C rhs
  if 1e-10 < error then
    let C ← s.choleskyColumns rho rhs C
    let error := s.residual rho C rhs
    refuse (1e-10 < error) .residual
    return (C, error)
  else return (C, error)

/-- `std::copysign` -/
def copysign (x y : ℝ) : ℝ := if y < 0 then -|x| else |x|

def shrink (rho temp : ℝ) : ℝ := copysign (max (|temp| - 1 / rho) 0) temp

/-- The shrinkage, the changes and the dual, once the columns are solved. -/
def System.advance (s : System) (o : TwscSolverOptions) (iteration : Nat) (st : State) (C : Mat) (error : ℝ) :
    State :=
  let Z := fun i j => shrink st.rho (C i j + st.dual i j / st.rho)
  let primal := √(norm2 s.r s.n fun i j => C i j - Z i j)
  let coefficientChange := √(norm2 s.r s.n fun i j => C i j - st.coefficients i j)
  let auxiliaryChange := √(norm2 s.r s.n fun i j => Z i j - st.auxiliary i j)
  let converged := decide (primal ≤ o.tolerance) && decide (coefficientChange ≤ o.tolerance) &&
    decide (auxiliaryChange ≤ o.tolerance)
  { rho := st.rho, coefficients := C, auxiliary := Z,
    dual := if converged then st.dual else fun i j => st.dual i j + st.rho * (C i j - Z i j),
    stats := ⟨iteration + 1, converged, primal, coefficientChange, auxiliaryChange,
      max st.stats.sylvesterResidual error⟩ }

def System.iterate (s : System) (o : TwscSolverOptions) (iteration : Nat) (st : State) : Except Error State := do
  let solved ← s.solveColumns st.rho (s.rhs st)
  return s.advance o iteration st solved.1 solved.2

/-- The iterations that are left, from `iteration` on. -/
def System.iterations (s : System) (o : TwscSolverOptions) : Nat → Nat → State → Except Error State
  | 0, _, st => .ok st
  | left + 1, iteration, st => do
    let st ← s.iterate o iteration st
    if st.stats.converged then return st
    if iteration + 1 < o.iterations then
      let rho := st.rho * o.mu
      refuse (¬0 < rho) .overflow
      s.iterations o left (iteration + 1) { st with rho }
    else s.iterations o left (iteration + 1) st

def twscSolve (generic : Bool) (eigen : Eigen) (g : Group) (o : TwscSolverOptions) :
    Except Error (Mat × TwscSolverStats) := do
  let s ← prepare generic eigen g o
  let st ← s.iterations o o.iterations 0 (initial o)
  return (gemmNN s.r s.atoms st.coefficients, st.stats)

end

/-! ## The Cholesky solve -/

section Cholesky

open Triangular

variable {r : Nat} {a : Mat} {shift : ℝ} {b : Nat → ℝ}

theorem set_self (s : Mat) (i j : Nat) (v : ℝ) : set s i j v i j = v := if_pos ⟨rfl, rfl⟩

theorem set_other {s : Mat} {i j i' j' : Nat} {v : ℝ} (h : ¬(i' = i ∧ j' = j)) : set s i j v i' j' = s i' j' :=
  if_neg h

/-- The entries below the diagonal of column `j`, after `count` of them. -/
theorem column_loop (s : Mat) (j count : Nat) (i k : Nat) :
    (List.range' (j + 1) count).foldl (fun s i =>
      set s i j ((s i j - ∑ k ∈ range j, s i k * s j k) / s j j)) s i k =
      if k = j ∧ j + 1 ≤ i ∧ i < j + 1 + count then (s i j - ∑ t ∈ range j, s i t * s j t) / s j j else s i k := by
  induction count generalizing i k with
  | zero => rw [if_neg (by omega)]; rfl
  | succ count ih =>
    rw [List.range'_concat, List.foldl_append, List.foldl_cons, List.foldl_nil, Nat.one_mul]
    by_cases hnew : i = j + 1 + count ∧ k = j
    · obtain ⟨rfl, rfl⟩ := hnew
      rw [set_self, if_pos (by omega), ih, ih, if_neg (by omega), if_neg (by omega)]
      congr 2
      refine sum_congr rfl fun t ht => ?_
      have ht := mem_range.mp ht
      rw [ih, ih, if_neg (by omega), if_neg (by omega)]
    · rw [set_other hnew, ih]
      congr 1
      simp only [eq_iff_iff]
      omega

/-- The matrix `cholesky_column` factors. -/
def shifted (a : Mat) (shift : ℝ) : Mat := fun i k => a i k + if i = k then shift else 0

/-- The columns that have not been factored are still those of `a`. -/
def Untouched (a s : Mat) (j : Nat) : Prop := ∀ i k, j ≤ k → s i k = a i k

theorem factorColumn_step {s : Mat} {j : Nat} (hM : PositiveDefinite r (shifted a shift))
    (hs : Factor r s (shifted a shift) j) (ha : Untouched a s j) (hj : j < r) :
    ∃ s', factorColumn r shift s j = some s' ∧ Factor r s' (shifted a shift) (j + 1) ∧ Untouched a s' (j + 1) := by
  have hpivot : s j j + shift - ∑ k ∈ range j, s j k * s j k = pivot s (shifted a shift) j := by
    rw [pivot, shifted, if_pos rfl, ha j j (Nat.le_refl j)]
  have hpos := hs.pivot_pos hM hj
  have hvalue : ∀ i k, (List.range' (j + 1) (r - (j + 1))).foldl (fun s i =>
      set s i j ((s i j - ∑ k ∈ range j, s i k * s j k) / s j j))
        (set s j j (√(pivot s (shifted a shift) j))) i k =
      if k = j ∧ j < i ∧ i < r then
        (a i j - ∑ t ∈ range j, s i t * s j t) / √(pivot s (shifted a shift) j)
      else if k = j ∧ i = j then √(pivot s (shifted a shift) j) else s i k := by
    intro i k
    rw [column_loop]
    by_cases hbelow : k = j ∧ j < i ∧ i < r
    · rw [if_pos (by omega), if_pos hbelow, set_self, set_other (by omega), ha i j (Nat.le_refl j)]
      congr 2
      refine sum_congr rfl fun t ht => ?_
      have ht := mem_range.mp ht
      rw [set_other (by omega), set_other (by omega)]
    · rw [if_neg (by omega), if_neg hbelow]
      by_cases hdiag : k = j ∧ i = j
      · rw [if_pos hdiag, hdiag.1, hdiag.2, set_self]
      · rw [if_neg hdiag, set_other (by omega)]
  have hrun : factorColumn r shift s j = some ((List.range' (j + 1) (r - (j + 1))).foldl (fun s i =>
      set s i j ((s i j - ∑ k ∈ range j, s i k * s j k) / s j j))
        (set s j j (√(pivot s (shifted a shift) j)))) := by
    rw [factorColumn, hpivot, if_pos hpos]
  refine ⟨_, hrun, ?_, ?_⟩
  · intro k hk
    have hroot := Real.sqrt_pos.mpr hpos
    have hsq : √(pivot s (shifted a shift) j) * √(pivot s (shifted a shift) j) = pivot s (shifted a shift) j :=
      Real.mul_self_sqrt hpos.le
    -- the entries of the columns before `j`
    have hold : ∀ i, ∀ t < j, (if t = j ∧ j < i ∧ i < r then
        (a i j - ∑ t ∈ range j, s i t * s j t) / √(pivot s (shifted a shift) j)
        else if t = j ∧ i = j then √(pivot s (shifted a shift) j) else s i t) = s i t := by
      intro i t ht
      rw [if_neg (by omega), if_neg (by omega)]
    simp only [hvalue]
    by_cases hkj : k = j
    · subst hkj
      rw [if_neg (by omega), if_pos ⟨rfl, rfl⟩]
      refine ⟨hroot, fun i hki hi => ?_⟩
      rw [sum_congr rfl fun t ht => by rw [hold i t (mem_range.mp ht), hold k t (mem_range.mp ht)]]
      by_cases hik : i = k
      · subst hik
        rw [if_neg (by omega), if_pos ⟨rfl, rfl⟩, hsq, pivot]
        ring
      · rw [if_pos (by omega), div_mul_cancel₀ _ hroot.ne', shifted, if_neg hik]
        ring
    · obtain ⟨hdiag, hentry⟩ := hs k (by omega)
      rw [hold k k (by omega)]
      refine ⟨hdiag, fun i hki hi => ?_⟩
      rw [hold i k (by omega), ← hentry i hki hi]
      congr 1
      refine sum_congr rfl fun t ht => ?_
      have ht := mem_range.mp ht
      rw [hold i t (by omega), hold k t (by omega)]
  · intro i k hk
    rw [hvalue, if_neg (by omega), if_neg (by omega)]
    exact ha i k (by omega)

theorem factor_exists (hM : PositiveDefinite r (shifted a shift)) :
    ∃ s, (List.range r).foldlM (factorColumn r shift) a = some s ∧ Factor r s (shifted a shift) r := by
  have key : ∀ j ≤ r, ∃ s, (List.range j).foldlM (factorColumn r shift) a = some s ∧
      Factor r s (shifted a shift) j ∧ Untouched a s j := by
    intro j
    induction j with
    | zero => exact fun _ => ⟨a, rfl, fun k hk => absurd hk (by omega), fun _ _ _ => rfl⟩
    | succ j ih =>
      intro hj
      obtain ⟨s, hrun, hs, ha⟩ := ih (by omega)
      obtain ⟨s', hstep, hs', ha'⟩ := factorColumn_step hM hs ha (by omega)
      refine ⟨s', ?_, hs', ha'⟩
      rw [List.range_succ, List.foldlM_append, hrun, Option.bind_eq_bind, Option.bind_some, List.foldlM_cons,
        hstep]
      rfl
  obtain ⟨s, hrun, hs, -⟩ := key r (Nat.le_refl r)
  exact ⟨s, hrun, hs⟩

theorem forward_solves {s : Mat} {x : Nat → ℝ} (hs : ∀ k < r, s k k ≠ 0) :
    ∀ k < r, ∑ t ∈ range k, s k t * forward r s b x t + s k k * forward r s b x k = b k := by
  have key : ∀ n ≤ r, ∀ k < n, ∑ t ∈ range k, s k t * forward n s b x t + s k k * forward n s b x k = b k := by
    intro n
    induction n with
    | zero => intro _ k hk; omega
    | succ n ih =>
      intro hn k hk
      have hold : ∀ t, t ≠ n → forward (n + 1) s b x t = forward n s b x t := by
        intro t ht
        rw [forward, List.range_succ, List.foldl_append, List.foldl_cons, List.foldl_nil, Function.update_of_ne ht]
        rfl
      have hnew : forward (n + 1) s b x n = (b n - ∑ t ∈ range n, s n t * forward n s b x t) / s n n := by
        rw [forward, List.range_succ, List.foldl_append, List.foldl_cons, List.foldl_nil, Function.update_self]
        rfl
      have hsum : ∑ t ∈ range k, s k t * forward (n + 1) s b x t = ∑ t ∈ range k, s k t * forward n s b x t :=
        sum_congr rfl fun t ht => by rw [hold t (by have := mem_range.mp ht; omega)]
      rw [hsum]
      by_cases hkn : k = n
      · subst hkn
        rw [hnew, mul_div_cancel₀ _ (hs k (by omega))]
        ring
      · rw [hold k hkn]
        exact ih (by omega) k (by omega)
  exact key r (Nat.le_refl r)

theorem backward_solves {s : Mat} {y : Nat → ℝ} (hs : ∀ k < r, s k k ≠ 0) :
    ∀ k < r, s k k * backward r s y k + ∑ i ∈ Ico (k + 1) r, s i k * backward r s y i = y k := by
  -- the unknowns from `n` on are solved, the others still hold the right-hand side
  have key : ∀ n ≤ r, ∀ x : Nat → ℝ,
      (∀ k, n ≤ k → k < r → s k k * x k + ∑ i ∈ Ico (k + 1) r, s i k * x i = y k) → (∀ k < n, x k = y k) →
      ∀ k < r, s k k * (List.range n).reverse.foldl (fun x i =>
          Function.update x i ((x i - ∑ k ∈ Ico (i + 1) r, s k i * x k) / s i i)) x k +
        ∑ i ∈ Ico (k + 1) r, s i k * (List.range n).reverse.foldl (fun x i =>
          Function.update x i ((x i - ∑ k ∈ Ico (i + 1) r, s k i * x k) / s i i)) x i = y k := by
    intro n
    induction n with
    | zero => exact fun _ x hx _ k hk => hx k (Nat.zero_le k) hk
    | succ n ih =>
      intro hn x hx hy
      rw [List.range_succ, List.reverse_append, List.reverse_singleton, List.singleton_append, List.foldl_cons]
      refine ih (by omega) _ ?_ ?_
      · intro k hk hkr
        have hsum : ∀ v, ∑ i ∈ Ico (k + 1) r, s i k * Function.update x n v i = ∑ i ∈ Ico (k + 1) r, s i k * x i := by
          intro v
          refine sum_congr rfl fun i hi => ?_
          rw [Function.update_of_ne (by have := (mem_Ico.mp hi).1; omega)]
        rw [hsum]
        by_cases hkn : k = n
        · subst hkn
          rw [Function.update_self, mul_div_cancel₀ _ (hs k (by omega)), hy k (by omega)]
          ring
        · rw [Function.update_of_ne hkn]
          exact hx k (by omega) hkr
      · intro k hk
        rw [Function.update_of_ne (by omega)]
        exact hy k (by omega)
  exact key r (Nat.le_refl r) y (fun k hk hkr => by omega) fun _ _ => rfl

/-- Positive semidefinite, of order `r`. -/
structure PositiveSemidefinite (r : Nat) (a : Mat) : Prop where
  symm : ∀ i < r, ∀ k < r, a i k = a k i
  nonneg : ∀ x : Nat → ℝ, 0 ≤ ∑ i ∈ range r, x i * ∑ k ∈ range r, a i k * x k

theorem sum_shifted {x : Nat → ℝ} {i : Nat} (hi : i < r) :
    ∑ k ∈ range r, shifted a shift i k * x k = ∑ k ∈ range r, a i k * x k + shift * x i := by
  have hterm : ∀ k ∈ range r, shifted a shift i k * x k = a i k * x k + if i = k then shift * x k else 0 := by
    intro k _
    rw [shifted]
    split <;> ring
  rw [sum_congr rfl hterm, sum_add_distrib, sum_ite_eq, if_pos (mem_range.mpr hi)]

theorem PositiveSemidefinite.shifted (h : PositiveSemidefinite r a) (hshift : 0 < shift) :
    PositiveDefinite r (shifted a shift) := by
  refine ⟨fun i hi k hk => ?_, fun x hx => ?_⟩
  · rw [TwscSolve.shifted, TwscSolve.shifted, h.symm i hi k hk]
    simp only [eq_comm]
  · obtain ⟨i, hi, hxi⟩ := hx
    have hform : ∑ i ∈ range r, x i * ∑ k ∈ range r, TwscSolve.shifted a shift i k * x k =
        ∑ i ∈ range r, x i * ∑ k ∈ range r, a i k * x k + shift * ∑ i ∈ range r, x i * x i := by
      rw [mul_sum, ← sum_add_distrib]
      refine sum_congr rfl fun i hi => ?_
      rw [sum_shifted (mem_range.mp hi)]
      ring
    have hsquares : 0 < ∑ i ∈ range r, x i * x i :=
      sum_pos' (fun i _ => mul_self_nonneg _) ⟨i, mem_range.mpr hi, mul_self_pos.mpr hxi⟩
    rw [hform]
    have hnonneg := h.nonneg x
    have hproduct := mul_pos hshift hsquares
    linarith

/-- The factor exists and the substitutions give the solution. -/
theorem choleskyColumn_solves (h : PositiveSemidefinite r a) (hshift : 0 < shift) (b x : Nat → ℝ) :
    ∃ c, choleskyColumn a shift r b x = some c ∧
      ∀ i < r, ∑ k ∈ range r, a i k * c k + shift * c i = b i := by
  have hM := h.shifted hshift
  obtain ⟨s, hrun, hs⟩ := factor_exists hM
  have hdiag : ∀ k < r, s k k ≠ 0 := fun k hk => (hs k hk).1.ne'
  refine ⟨backward r s (forward r s b x), ?_, fun i hi => ?_⟩
  · rw [choleskyColumn, hrun]
    rfl
  · rw [← sum_shifted hi]
    exact hs.solves hM.symm (forward_solves hdiag) (backward_solves hdiag) i hi

end Cholesky

/-! ## What `prepare` ensures -/

section Prepare

theorem refuse_eq_ok {bad : Prop} [Decidable bad] {e : Error} : refuse bad e = .ok () ↔ ¬bad := by
  unfold refuse
  split
  · rename_i h
    exact ⟨nofun, fun hn => absurd h hn⟩
  · rename_i h
    exact ⟨fun _ => h, fun _ => rfl⟩

/-- In exact arithmetic the averages change nothing. -/
theorem gramMatrix_eq (g : Group) (i j : Nat) :
    gramMatrix g i j = ∑ t ∈ range g.m, weightedAtoms g t i * weightedAtoms g t j * g.rowPrecision t := by
  have hentry : ∀ i j, gemmTN g.m (weightedAtoms g) (fun i k => weightedAtoms g i k * g.rowPrecision i) i j =
      ∑ t ∈ range g.m, weightedAtoms g t i * weightedAtoms g t j * g.rowPrecision t :=
    fun i j => sum_congr rfl fun t _ => (mul_assoc _ _ _).symm
  have hsymm : ∑ t ∈ range g.m, weightedAtoms g t j * weightedAtoms g t i * g.rowPrecision t =
      ∑ t ∈ range g.m, weightedAtoms g t i * weightedAtoms g t j * g.rowPrecision t :=
    sum_congr rfl fun t _ => by rw [mul_comm (weightedAtoms g t j)]
  unfold gramMatrix
  rw [hentry, hentry, hsymm]
  split
  · rfl
  · ring

theorem gramMatrix_semidefinite {g : Group} (hrow : ∀ t < g.m, 0 < g.rowPrecision t) :
    PositiveSemidefinite g.r (gramMatrix g) := by
  refine ⟨fun i _ k _ => ?_, fun x => ?_⟩
  · rw [gramMatrix_eq, gramMatrix_eq]
    exact sum_congr rfl fun t _ => by rw [mul_comm (weightedAtoms g t i)]
  · -- the form is a weighted sum of squares
    have hform : ∑ i ∈ range g.r, x i * ∑ k ∈ range g.r, gramMatrix g i k * x k =
        ∑ t ∈ range g.m, g.rowPrecision t * (∑ i ∈ range g.r, weightedAtoms g t i * x i) ^ 2 := by
      calc ∑ i ∈ range g.r, x i * ∑ k ∈ range g.r, gramMatrix g i k * x k
          = ∑ i ∈ range g.r, ∑ k ∈ range g.r, ∑ t ∈ range g.m,
              g.rowPrecision t * ((weightedAtoms g t i * x i) * (weightedAtoms g t k * x k)) := by
            refine sum_congr rfl fun i _ => ?_
            rw [mul_sum]
            refine sum_congr rfl fun k _ => ?_
            rw [gramMatrix_eq, sum_mul, mul_sum]
            exact sum_congr rfl fun t _ => by ring
        _ = ∑ i ∈ range g.r, ∑ t ∈ range g.m, ∑ k ∈ range g.r,
              g.rowPrecision t * ((weightedAtoms g t i * x i) * (weightedAtoms g t k * x k)) :=
            sum_congr rfl fun i _ => sum_comm
        _ = ∑ t ∈ range g.m, ∑ i ∈ range g.r, ∑ k ∈ range g.r,
              g.rowPrecision t * ((weightedAtoms g t i * x i) * (weightedAtoms g t k * x k)) := sum_comm
        _ = ∑ t ∈ range g.m, g.rowPrecision t * (∑ i ∈ range g.r, weightedAtoms g t i * x i) ^ 2 := by
            refine sum_congr rfl fun t _ => ?_
            rw [sq, sum_mul_sum, mul_sum]
            exact sum_congr rfl fun i _ => (mul_sum _ _ _).symm
    rw [hform]
    exact sum_nonneg fun t ht => mul_nonneg (hrow t (mem_range.mp ht)).le (sq_nonneg _)

/-- A diagonal entry is a value of the form. -/
theorem PositiveSemidefinite.diagonal_nonneg {r : Nat} {a : Mat} (h : PositiveSemidefinite r a) {i : Nat}
    (hi : i < r) : 0 ≤ a i i := by
  have hform := h.nonneg fun k => if k = i then 1 else 0
  simp only [mul_ite, mul_one, mul_zero, ite_mul, one_mul, zero_mul, sum_ite_eq', mem_range, hi, if_true] at hform
  exact hform

/-- The system as the iterations find it. -/
structure Prepared (s : System) : Prop where
  shape : 1 ≤ s.n
  columns_pos : ∀ j, 0 < s.columns j
  semidefinite : PositiveSemidefinite s.r s.gram
  gramNorm_nonneg : 0 ≤ s.gramNorm
  offNorm_eq : s.offNorm = √(norm2 s.r s.r fun i j => if i = j then 0 else s.gram i j)
  small : s.diagonal = true → s.offNorm ≤ 1e-12 * s.gramNorm
  eigenvalues_eq : s.diagonal = true → ∀ i < s.r, s.eigenvalues i = s.gram i i

/-- The options `check_options` lets through. -/
structure Valid (o : TwscSolverOptions) : Prop where
  iterations : 1 ≤ o.iterations
  rho : 0 < o.rho
  mu : 1 ≤ o.mu

theorem prepare_spec {generic : Bool} {eigen : Eigen} {g : Group} {o : TwscSolverOptions} {s : System}
    (h : prepare generic eigen g o = .ok s) : Valid o ∧ Prepared s := by
  unfold prepare at h
  obtain ⟨_, ho, h⟩ := Loops.bind_eq_ok.mp h
  obtain ⟨_, hshape, h⟩ := Loops.bind_eq_ok.mp h
  obtain ⟨_, hatoms, h⟩ := Loops.bind_eq_ok.mp h
  obtain ⟨basis, hbasis, h⟩ := Loops.bind_eq_ok.mp h
  obtain ⟨_, _, h⟩ := Loops.bind_eq_ok.mp h
  obtain ⟨_, _, h⟩ := Loops.bind_eq_ok.mp h
  have ho := refuse_eq_ok.mp ho
  have hshape := refuse_eq_ok.mp hshape
  push Not at ho hshape
  have hrow : ∀ t < g.m, 0 < g.rowPrecision t := by
    intro t ht
    obtain ⟨_, _, hrows⟩ := Loops.bind_eq_ok.mp (Loops.forM_eq_ok.mp hatoms 0 (List.mem_range.mpr (by omega)))
    have := refuse_eq_ok.mp (Loops.forM_eq_ok.mp hrows t (List.mem_range.mpr ht))
    push Not at this
    exact this
  have hgram := gramMatrix_semidefinite hrow
  cases h
  refine ⟨⟨by omega, ho.2.2.1, ho.2.2.2.1⟩, ⟨show 1 ≤ g.n by omega, fun j => ?_, hgram, Real.sqrt_nonneg _, rfl, fun hd => ?_,
    fun hd i hi => ?_⟩⟩
  · exact lt_max_of_lt_right (by norm_num [kTwscNoiseFloor])
  · simp only [Bool.and_eq_true, decide_eq_true_eq] at hd
    exact hd.2
  · rw [TwscSolve.basis, if_pos hd] at hbasis
    cases hbasis
    exact max_eq_left (hgram.diagonal_nonneg hi)

end Prepare

/-! ## The residual -/

section Residual

variable {s : System} {rho : ℝ}

theorem norm2_congr {rows cols : Nat} {X Y : Mat} (h : ∀ i < rows, ∀ j < cols, X i j = Y i j) :
    norm2 rows cols X = norm2 rows cols Y :=
  sum_congr rfl fun j hj => sum_congr rfl fun i hi => by rw [h i (mem_range.mp hi) j (mem_range.mp hj)]

theorem norm2_nonneg (rows cols : Nat) (X : Mat) : 0 ≤ norm2 rows cols X :=
  sum_nonneg fun _ _ => sum_nonneg fun _ _ => mul_self_nonneg _

/-- The Frobenius norm of a product. -/
theorem norm2_gemmNN_le (r n : Nat) (E C : Mat) : norm2 r n (gemmNN r E C) ≤ norm2 r r E * norm2 r n C := by
  have hentry : ∀ i j, gemmNN r E C i j * gemmNN r E C i j ≤
      (∑ t ∈ range r, E i t * E i t) * ∑ t ∈ range r, C t j * C t j := by
    intro i j
    have h := sum_mul_sq_le_sq_mul_sq (range r) (fun t => E i t) fun t => C t j
    simp only [sq] at h
    exact h
  have hrows : ∑ i ∈ range r, ∑ t ∈ range r, E i t * E i t = norm2 r r E := sum_comm
  calc norm2 r n (gemmNN r E C)
      ≤ ∑ j ∈ range n, ∑ i ∈ range r, (∑ t ∈ range r, E i t * E i t) * ∑ t ∈ range r, C t j * C t j :=
        sum_le_sum fun j _ => sum_le_sum fun i _ => hentry i j
    _ = norm2 r r E * norm2 r n C := by
        rw [← hrows, norm2, mul_sum]
        exact sum_congr rfl fun j _ => (sum_mul _ _ _).symm

theorem Prepared.shift_pos (hs : Prepared s) (hrho : 0 < rho) (j : Nat) : 0 < s.shift rho j := by
  have := hs.columns_pos j
  unfold System.shift
  positivity

theorem scale_nonneg (hs : Prepared s) (rho : ℝ) (C rhs : Mat) : 0 ≤ s.scale rho C rhs := by
  have := hs.gramNorm_nonneg
  unfold System.scale
  positivity

/-- Only a zero solution of a zero right-hand side has nothing to be measured against. -/
theorem norm_eq_zero_of_scale (hs : Prepared s) (hrho : 0 < rho) (C rhs : Mat) (h : s.scale rho C rhs = 0) :
    √(norm2 s.r s.n C) = 0 ∧ √(norm2 s.r s.n rhs) = 0 := by
  have hshifts : 0 < ∑ j ∈ range s.n, s.shift rho j * s.shift rho j :=
    sum_pos (fun j _ => mul_self_pos.mpr (hs.shift_pos hrho j).ne') ⟨0, mem_range.mpr hs.shape⟩
  have hroot := Real.sqrt_pos.mpr hshifts
  have hfactor : 0 < s.gramNorm + √(∑ j ∈ range s.n, s.shift rho j * s.shift rho j) :=
    add_pos_of_nonneg_of_pos hs.gramNorm_nonneg hroot
  have hproduct : 0 ≤ (s.gramNorm + √(∑ j ∈ range s.n, s.shift rho j * s.shift rho j)) * √(norm2 s.r s.n C) :=
    mul_nonneg hfactor.le (Real.sqrt_nonneg _)
  have hrhs := Real.sqrt_nonneg (norm2 s.r s.n rhs)
  unfold System.scale at h
  have hzero : (s.gramNorm + √(∑ j ∈ range s.n, s.shift rho j * s.shift rho j)) * √(norm2 s.r s.n C) = 0 := by
    linarith
  exact ⟨(mul_eq_zero.mp hzero).resolve_left hfactor.ne', by linarith⟩

/-- On the diagonal path what is left of the equation is the product with the rest of the matrix. -/
theorem diagonal_error_le (hs : Prepared s) (hrho : 0 < rho) (hd : s.diagonal = true) (rhs : Mat) :
    √(norm2 s.r s.n fun i j => gemmNN s.r s.gram (s.eigenSolve rho rhs) i j +
      s.shift rho j * s.eigenSolve rho rhs i j - rhs i j) ≤
      s.offNorm * √(norm2 s.r s.n (s.eigenSolve rho rhs)) := by
  have hentry : ∀ i < s.r, ∀ j < s.n, gemmNN s.r s.gram (s.eigenSolve rho rhs) i j +
      s.shift rho j * s.eigenSolve rho rhs i j - rhs i j =
      gemmNN s.r (fun i t => if i = t then 0 else s.gram i t) (s.eigenSolve rho rhs) i j := by
    intro i hi j _
    have hshift := hs.shift_pos hrho j
    have hdiag := hs.semidefinite.diagonal_nonneg hi
    have hsolve : s.eigenSolve rho rhs i j = rhs i j / (s.gram i i + s.shift rho j) := by
      rw [System.eigenSolve, if_pos hd, hs.eigenvalues_eq hd i hi]
    have hrhs : (s.gram i i + s.shift rho j) * s.eigenSolve rho rhs i j = rhs i j := by
      rw [hsolve, mul_div_cancel₀ _ (by linarith)]
    have hsplit : gemmNN s.r s.gram (s.eigenSolve rho rhs) i j =
        gemmNN s.r (fun i t => if i = t then 0 else s.gram i t) (s.eigenSolve rho rhs) i j +
          s.gram i i * s.eigenSolve rho rhs i j := by
      have hterm : ∀ t ∈ range s.r, s.gram i t * s.eigenSolve rho rhs t j =
          (if i = t then 0 else s.gram i t) * s.eigenSolve rho rhs t j +
            if i = t then s.gram i t * s.eigenSolve rho rhs t j else 0 := by
        intro t _
        split <;> ring
      rw [gemmNN, gemmNN, sum_congr rfl hterm, sum_add_distrib, sum_ite_eq, if_pos (mem_range.mpr hi)]
    rw [hsplit, ← hrhs]
    ring
  rw [norm2_congr hentry, hs.offNorm_eq, ← Real.sqrt_mul (norm2_nonneg _ _ _)]
  exact Real.sqrt_le_sqrt (norm2_gemmNN_le _ _ _ _)

/-- The bound dominates the residual, and passes the test. -/
theorem diagonal_residual (hs : Prepared s) (hrho : 0 < rho) (hd : s.diagonal = true) (rhs : Mat) :
    s.generalResidual rho (s.eigenSolve rho rhs) rhs ≤ s.residual rho (s.eigenSolve rho rhs) rhs ∧
      s.residual rho (s.eigenSolve rho rhs) rhs ≤ 1e-10 := by
  have herror := diagonal_error_le hs hrho hd rhs
  have hscale := scale_nonneg hs rho (s.eigenSolve rho rhs) rhs
  have hsmall := hs.small hd
  have hzero := norm_eq_zero_of_scale hs hrho (s.eigenSolve rho rhs) rhs
  have hC := Real.sqrt_nonneg (norm2 s.r s.n (s.eigenSolve rho rhs))
  have hrhs := Real.sqrt_nonneg (norm2 s.r s.n rhs)
  have hroot := Real.sqrt_nonneg (∑ j ∈ range s.n, s.shift rho j * s.shift rho j)
  have heps : (0 : ℝ) ≤ 16 * epsilon ∧ 16 * epsilon ≤ 1e-10 := by
    unfold epsilon
    norm_num
  unfold System.generalResidual System.residual
  rw [if_pos hd]
  dsimp only
  generalize hc : √(norm2 s.r s.n (s.eigenSolve rho rhs)) = c at *
  generalize he : √(norm2 s.r s.n rhs) = e at *
  have hbound : s.offNorm * c ≤ s.offNorm * c + 16 * epsilon * e := by
    have := mul_nonneg heps.1 hrhs
    linarith
  by_cases h0 : s.scale rho (s.eigenSolve rho rhs) rhs = 0
  · obtain ⟨hc0, he0⟩ := hzero h0
    rw [if_pos h0, if_pos h0]
    refine ⟨herror.trans hbound, ?_⟩
    rw [hc0, he0]
    norm_num
  · have hpos : 0 < s.scale rho (s.eigenSolve rho rhs) rhs := lt_of_le_of_ne hscale (Ne.symm h0)
    rw [if_neg h0, if_neg h0]
    refine ⟨div_le_div_of_nonneg_right (herror.trans hbound) hscale, ?_⟩
    rw [div_le_iff₀ hpos, System.scale, hc, he]
    have hgram := hs.gramNorm_nonneg
    have hoff : s.offNorm * c ≤ 1e-12 * s.gramNorm * c := mul_le_mul_of_nonneg_right hsmall hC
    have hrest : 16 * epsilon * e ≤ 1e-10 * e := mul_le_mul_of_nonneg_right heps.2 hrhs
    have hroots := mul_nonneg hroot hC
    have hgrams := mul_nonneg hgram hC
    nlinarith

/-- A solution has no residual. -/
theorem generalResidual_eq_zero {C rhs : Mat}
    (h : ∀ i < s.r, ∀ j < s.n, gemmNN s.r s.gram C i j + s.shift rho j * C i j = rhs i j) :
    s.generalResidual rho C rhs = 0 := by
  have herror : norm2 s.r s.n (fun i j => gemmNN s.r s.gram C i j + s.shift rho j * C i j - rhs i j) = 0 := by
    rw [norm2_congr (Y := fun _ _ => 0) fun i hi j hj => by rw [h i hi j hj, sub_self]]
    simp [norm2]
  unfold System.generalResidual
  dsimp only
  rw [herror, Real.sqrt_zero, zero_div, ite_self]

/-- The fallback always succeeds, with a solution. -/
theorem choleskyColumns_solves (hs : Prepared s) (hrho : 0 < rho) (rhs C : Mat) :
    ∃ C', s.choleskyColumns rho rhs C = .ok C' ∧
      ∀ i < s.r, ∀ j < s.n, gemmNN s.r s.gram C' i j + s.shift rho j * C' i j = rhs i j := by
  have key : ∀ n, ∃ C', (List.range n).foldlM (fun (C : Mat) j =>
      match choleskyColumn s.gram (s.shift rho j) s.r (fun i => rhs i j) (fun i => C i j) with
      | some x => Except.ok (fun i j' => if j' = j then x i else C i j')
      | none => .error Error.fallback) C = .ok C' ∧
      ∀ i < s.r, ∀ j < n, gemmNN s.r s.gram C' i j + s.shift rho j * C' i j = rhs i j := by
    intro n
    induction n with
    | zero => exact ⟨C, rfl, fun _ _ j hj => by omega⟩
    | succ n ih =>
      obtain ⟨C', hrun, hC'⟩ := ih
      obtain ⟨x, hx, hsolves⟩ := choleskyColumn_solves hs.semidefinite (hs.shift_pos hrho n) (fun i => rhs i n)
        fun i => C' i n
      refine ⟨fun i j => if j = n then x i else C' i j, ?_, fun i hi j hj => ?_⟩
      · rw [List.range_succ, List.foldlM_append, hrun, Loops.ok_bind, List.foldlM_cons, hx]
        rfl
      · by_cases hjn : j = n
        · subst hjn
          simp only [gemmNN, if_true]
          exact hsolves i hi
        · simp only [gemmNN, if_neg hjn]
          exact hC' i hi j (by omega)
  exact key s.n

/-- The outcomes of the solve: accepted as it is, or replaced by the fallback. -/
theorem solveColumns_spec (hs : Prepared s) (hrho : 0 < rho) (rhs : Mat) :
    ∃ C error, s.solveColumns rho rhs = .ok (C, error) ∧ s.generalResidual rho C rhs ≤ error ∧ error ≤ 1e-10 ∧
      (s.diagonal = true → C = s.eigenSolve rho rhs) := by
  by_cases haccept : 1e-10 < s.residual rho (s.eigenSolve rho rhs) rhs
  · have hd : ¬s.diagonal = true := fun hd => absurd haccept (not_lt.mpr (diagonal_residual hs hrho hd rhs).2)
    obtain ⟨C, hrun, hC⟩ := choleskyColumns_solves hs hrho rhs (s.eigenSolve rho rhs)
    have hzero : s.residual rho C rhs = 0 := by
      rw [System.residual, if_neg hd, generalResidual_eq_zero hC]
    refine ⟨C, 0, ?_, (generalResidual_eq_zero hC).le, by norm_num, fun h => absurd h hd⟩
    unfold System.solveColumns
    dsimp only
    rw [if_pos haccept, hrun, Loops.ok_bind, hzero, refuse, if_neg (by norm_num)]
    rfl
  · refine ⟨s.eigenSolve rho rhs, s.residual rho (s.eigenSolve rho rhs) rhs, ?_, ?_, not_lt.mp haccept, fun _ => rfl⟩
    · unfold System.solveColumns
      dsimp only
      rw [if_neg haccept]
      rfl
    · cases hd : s.diagonal with
      | true => exact (diagonal_residual hs hrho hd rhs).1
      | false =>
        rw [System.residual, if_neg (by simp [hd])]

end Residual

/-! ## The iterations -/

section Iterations

variable {s : System} {o : TwscSolverOptions}

/-- The proximal point of `t |.|`. -/
noncomputable def softThreshold (t x : ℝ) : ℝ := if t < x then x - t else if x < -t then x + t else 0

theorem shrink_eq {rho temp : ℝ} (hrho : 0 < rho) : shrink rho temp = softThreshold (1 / rho) temp := by
  have ht : 0 < 1 / rho := one_div_pos.mpr hrho
  unfold shrink copysign softThreshold
  rw [abs_of_nonneg (le_max_right _ _)]
  by_cases hneg : temp < 0
  · rw [if_pos hneg, abs_of_neg hneg, if_neg (by linarith)]
    split
    · rw [max_eq_left (by linarith)]
      ring
    · rw [max_eq_right (by linarith), neg_zero]
  · rw [if_neg hneg, abs_of_nonneg (not_lt.mp hneg)]
    split
    · rw [max_eq_left (by linarith)]
    · rw [max_eq_right (by linarith), if_neg (by linarith)]

/-- What iteration `iteration` makes of the state `st`. -/
structure Iterated (s : System) (o : TwscSolverOptions) (iteration : Nat) (st st' : State) : Prop where
  solved : s.generalResidual st.rho st'.coefficients (s.rhs st) ≤ 1e-10
  reported : s.generalResidual st.rho st'.coefficients (s.rhs st) ≤ st'.stats.sylvesterResidual
  kept : st.stats.sylvesterResidual ≤ st'.stats.sylvesterResidual
  division : s.diagonal = true → st'.coefficients = s.eigenSolve st.rho (s.rhs st)
  shrunk : ∀ i j, st'.auxiliary i j = softThreshold (1 / st.rho) (st'.coefficients i j + st.dual i j / st.rho)
  dual : st'.stats.converged = false →
    ∀ i j, st'.dual i j = st.dual i j + st.rho * (st'.coefficients i j - st'.auxiliary i j)
  rho : st'.rho = st.rho
  number : st'.stats.iterations = iteration + 1
  primal : st'.stats.primal = √(norm2 s.r s.n fun i j => st'.coefficients i j - st'.auxiliary i j)
  coefficientChange :
    st'.stats.coefficientChange = √(norm2 s.r s.n fun i j => st'.coefficients i j - st.coefficients i j)
  auxiliaryChange : st'.stats.auxiliaryChange = √(norm2 s.r s.n fun i j => st'.auxiliary i j - st.auxiliary i j)
  converged : st'.stats.converged = true ↔ st'.stats.primal ≤ o.tolerance ∧
    st'.stats.coefficientChange ≤ o.tolerance ∧ st'.stats.auxiliaryChange ≤ o.tolerance

/-- In exact arithmetic no iteration throws. -/
theorem iterate_spec (hs : Prepared s) (iteration : Nat) {st : State} (hrho : 0 < st.rho) :
    ∃ st', s.iterate o iteration st = .ok st' ∧ Iterated s o iteration st st' := by
  obtain ⟨C, error, hrun, hle, hsmall, hdivision⟩ := solveColumns_spec hs hrho (s.rhs st)
  have hstep : s.iterate o iteration st = .ok (s.advance o iteration st C error) := by
    rw [System.iterate, hrun]
    rfl
  refine ⟨_, hstep, ?_⟩
  constructor
  · exact hle.trans hsmall
  · exact hle.trans (le_max_right _ _)
  · exact le_max_left _ _
  · exact hdivision
  · intro i j
    exact shrink_eq hrho
  · intro hconverged i j
    unfold System.advance at hconverged ⊢
    dsimp only at hconverged ⊢
    rw [hconverged]
    rfl
  · rfl
  · rfl
  · rfl
  · rfl
  · rfl
  · simp only [System.advance, Bool.and_eq_true, decide_eq_true_eq, and_assoc]

/-- The iterations of a run so far, and the state the next one starts from. -/
inductive Performed (s : System) (o : TwscSolverOptions) : List (State × State) → State → Prop
  | start : Performed s o [] (initial o)
  | next {history : List (State × State)} {st st' : State} : Performed s o history st →
      s.iterate o history.length st = .ok st' → st'.stats.converged = false → history.length + 1 < o.iterations →
      Performed s o (history ++ [(st, st')]) { st' with rho := st'.rho * o.mu }

theorem Performed.rho_pos {history : List (State × State)} {st : State} (h : Performed s o history st)
    (hs : Prepared s) (ho : Valid o) : 0 < st.rho := by
  induction h with
  | start => exact ho.rho
  | next hprev hstep _ _ ih =>
    obtain ⟨st', hrun, hst'⟩ := iterate_spec (s := s) (o := o) hs _ ih
    rw [hrun] at hstep
    cases hstep
    have hmu := ho.mu
    have hrho := hst'.rho ▸ ih
    exact mul_pos hrho (by linarith)

/-- An iteration of a run. -/
theorem Performed.iterated {history : List (State × State)} {st st' : State} (h : Performed s o history st)
    (hs : Prepared s) (ho : Valid o) (hstep : s.iterate o history.length st = .ok st') :
    Iterated s o history.length st st' := by
  obtain ⟨st'', hrun, hst''⟩ := iterate_spec (s := s) (o := o) hs history.length (h.rho_pos hs ho)
  rw [hrun] at hstep
  cases hstep
  exact hst''

/-- The residual that is reported covers every iteration before. -/
theorem Performed.covered {history : List (State × State)} {st : State} (h : Performed s o history st)
    (hs : Prepared s) (ho : Valid o) : ∀ p ∈ history,
      s.generalResidual p.1.rho p.2.coefficients (s.rhs p.1) ≤ st.stats.sylvesterResidual := by
  induction h with
  | start => exact fun p hp => absurd hp List.not_mem_nil
  | next hprev hstep _ _ ih =>
    intro p hp
    have hlast := hprev.iterated hs ho hstep
    rcases List.mem_append.mp hp with hp | hp
    · exact (ih p hp).trans hlast.kept
    · obtain rfl := List.mem_singleton.mp hp
      exact hlast.reported

/-- How the iterations end. -/
structure Ended (s : System) (o : TwscSolverOptions) (history : List (State × State)) (st out : State) : Prop where
  performed : Performed s o history st
  last : s.iterate o history.length st = .ok out
  ended : out.stats.converged = true ∨ history.length + 1 = o.iterations

theorem iterations_ended (hs : Prepared s) (ho : Valid o) (left : Nat) {history : List (State × State)} {st : State}
    (h : Performed s o history st) (hleft : history.length + (left + 1) = o.iterations) :
    ∃ out, s.iterations o (left + 1) history.length st = .ok out ∧ ∃ history st, Ended s o history st out := by
  induction left generalizing history st with
  | zero =>
    obtain ⟨st', hrun, hst'⟩ := iterate_spec (s := s) (o := o) hs history.length (h.rho_pos hs ho)
    refine ⟨st', ?_, history, st, h, hrun, .inr (by omega)⟩
    rw [System.iterations, hrun, Loops.ok_bind]
    split
    · rfl
    · rw [if_neg (by omega)]
      rfl
  | succ left ih =>
    obtain ⟨st', hrun, hst'⟩ := iterate_spec (s := s) (o := o) hs history.length (h.rho_pos hs ho)
    rw [System.iterations, hrun, Loops.ok_bind]
    cases hconverged : st'.stats.converged with
    | true => exact ⟨st', rfl, history, st, h, hrun, .inl hconverged⟩
    | false =>
      have hnext := Performed.next h hrun hconverged (by omega)
      have hrho : 0 < st'.rho * o.mu := hnext.rho_pos hs ho
      have hlength : (history ++ [(st, st')]).length = history.length + 1 := by simp
      rw [if_neg (by simp), if_pos (by omega)]
      dsimp only
      rw [refuse, if_neg (not_not.mpr hrho), Loops.ok_bind, ← hlength]
      exact ih hnext (by omega)

/-- On every input the checks admit, whatever the eigensolver returns: each iteration solves its
equation to the reported residual, the solve ends with the last of them, and the fallback is exact. -/
theorem twscSolve_sound (generic : Bool) (eigen : Eigen) (g : Group) (o : TwscSolverOptions) :
    (∀ s, prepare generic eigen g o = .ok s →
      (∀ history st, Performed s o history st →
        ∃ st', s.iterate o history.length st = .ok st' ∧ Iterated s o history.length st st') ∧
      ∃ history st out, Ended s o history st out ∧
        twscSolve generic eigen g o = .ok (gemmNN s.r s.atoms out.coefficients, out.stats) ∧
        ∀ p ∈ history ++ [(st, out)],
          s.generalResidual p.1.rho p.2.coefficients (s.rhs p.1) ≤ out.stats.sylvesterResidual) ∧
    ∀ r a, PositiveSemidefinite r a → ∀ shift, 0 < shift → ∀ b x : Nat → ℝ,
      ∃ c, choleskyColumn a shift r b x = some c ∧ ∀ i < r, ∑ k ∈ range r, a i k * c k + shift * c i = b i := by
  refine ⟨fun s hprepare => ?_, fun r a ha shift hshift b x => choleskyColumn_solves ha hshift b x⟩
  obtain ⟨ho, hs⟩ := prepare_spec hprepare
  refine ⟨fun history st h => iterate_spec hs history.length (h.rho_pos hs ho), ?_⟩
  obtain ⟨left, hleft⟩ : ∃ left, o.iterations = left + 1 := ⟨o.iterations - 1, by have := ho.iterations; omega⟩
  obtain ⟨out, hrun, history, st, hended⟩ :=
    iterations_ended (s := s) (o := o) hs ho left Performed.start (by simp [hleft])
  refine ⟨history, st, out, hended, ?_, ?_⟩
  · rw [twscSolve, hprepare, Loops.ok_bind, hleft]
    rw [List.length_nil] at hrun
    rw [hrun]
    rfl
  · have hlast := hended.performed.iterated hs ho hended.last
    intro p hp
    rcases List.mem_append.mp hp with hp | hp
    · exact (hended.performed.covered hs ho p hp).trans hlast.kept
    · obtain rfl := List.mem_singleton.mp hp
      exact hlast.reported

/-- One patch of one pixel. -/
def single : Group :=
  ⟨1, 1, 1, fun _ _ => 1, fun _ _ => 1, fun _ => 1, fun _ => 1, fun _ => 0⟩

theorem prepare_single : ∃ s, prepare false (fun _ _ => none) single ⟨1, 1, 1, 1⟩ = .ok s := by
  have hgram : gramMatrix single 0 0 = 1 := by
    rw [gramMatrix_eq]
    simp [single, weightedAtoms]
  have hdiagonal : (!false && decide (√(norm2 1 1 fun i j => if i = j then 0 else gramMatrix single i j) ≤
      1e-12 * √(norm2 1 1 (gramMatrix single)))) = true := by
    have hzero : norm2 1 1 (fun i j => if i = j then 0 else gramMatrix single i j) = 0 := by simp [norm2]
    rw [hzero, Real.sqrt_zero]
    exact decide_eq_true (by positivity)
  have hatoms : checkAtoms single = .ok () :=
    Loops.forM_eq_ok.mpr fun k _ => Loops.bind_eq_ok.mpr ⟨(), refuse_eq_ok.mpr (by simp [single]),
      Loops.forM_eq_ok.mpr fun i _ => refuse_eq_ok.mpr (by simp [single])⟩
  have hdefinite : ∀ i ∈ List.range 1,
      ¬gramMatrix single i i < -64 * epsilon * (1 : Nat) * √(norm2 1 1 (gramMatrix single)) := by
    intro i hi
    obtain rfl : i = 0 := by simpa using hi
    have hnorm := Real.sqrt_nonneg (norm2 1 1 (gramMatrix single))
    have hepsilon : 0 ≤ 64 * epsilon * √(norm2 1 1 (gramMatrix single)) := by
      unfold epsilon
      positivity
    rw [hgram, not_lt]
    push_cast
    linarith
  unfold prepare
  refine ⟨_, Loops.bind_eq_ok.mpr ⟨(), refuse_eq_ok.mpr (by norm_num), Loops.bind_eq_ok.mpr
    ⟨(), refuse_eq_ok.mpr (by decide), Loops.bind_eq_ok.mpr ⟨(), hatoms, Loops.bind_eq_ok.mpr
      ⟨_, if_pos hdiagonal, Loops.bind_eq_ok.mpr ⟨(), ?_, Loops.bind_eq_ok.mpr ⟨(), ?_, rfl⟩⟩⟩⟩⟩⟩⟩
  · exact Loops.forM_eq_ok.mpr fun i hi => refuse_eq_ok.mpr (hdefinite i hi)
  · exact Loops.forM_eq_ok.mpr fun j _ => refuse_eq_ok.mpr (by simp [single])

theorem twscSolve_sound_single : ∃ out, twscSolve false (fun _ _ => none) single ⟨1, 1, 1, 1⟩ = .ok out := by
  obtain ⟨s, hs⟩ := prepare_single
  obtain ⟨-, history, st, out, -, hrun, -⟩ := (twscSolve_sound false (fun _ _ => none) single ⟨1, 1, 1, 1⟩).1 s hs
  exact ⟨_, hrun⟩

end Iterations

end NssFactory.Cpu.TwscSolve
