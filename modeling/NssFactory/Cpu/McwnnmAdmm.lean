import NssFactory.Cpu.FloatOps
import NssFactory.Cpu.SvdFinish
import NssFactory.Lib.Loops

/-!
# The two paths of the MCWNNM solver

`McwnnmAdmm` alternates a weighted average `X`, a shrunk copy `Z` and a dual `A` of a group `Y`. The
general path shrinks the singular values of `X + A / rho`. A tall group of eight columns goes another
way first, through the eigenvectors of its Gram matrix (`gramShrink8`), and that way gives up where
its guards are not met. The general path then starts again over the same work area.

Both are `admm` with another shrinkage. The eigensolver and the SVD are parameters; a matrix is a
function of the row and the column, zero outside the area that holds it.

Neither writes the group before its end (`admm_untouched`), so that the second start is as good as a
first (`general_same`), and both keep to the penalties (`admm_completed`).
-/

namespace NssFactory.Cpu.McwnnmAdmm

open Finset
open SvdFinish (Svd assign)

abbrev Mat (F : Type) := Nat → Nat → F

def kSvdMaxM : Int := 256
def kSvdMaxN : Int := 32

/-- What `jacobi_svd_8` returns; a column of `u` or `v` is a vector, and a row of `vt`. -/
structure Eigen (F : Type) where
  u : Mat F
  s : Nat → F
  vt : Mat F
  v : Mat F

/-- What `svd_economy` writes and whether it returns 0. -/
structure SvdOutcome (F : Type) extends Svd F where
  ok : Bool
  scratch : Nat → F

structure Solvers (F : Type) where
  jacobiSvd8 : Mat F → Eigen F
  svdEconomy : (m n : Nat) → Mat F → SvdOutcome F

/-- The group and the work area; `scratch` is the work area from `svd_work` on. -/
structure Memory (F : Type) where
  Y : Mat F
  X : Mat F
  Z : Mat F
  A : Mat F
  Temp : Mat F
  U : Mat F
  S : Nat → F
  Vt : Mat F
  w2 : Nat → F
  scratch : Nat → F

/-- The arguments after the checks. -/
structure Args (F : Type) where
  m : Nat
  n : Nat
  nch : Nat
  sigma : Nat → F
  admmIter : Nat
  rho : F
  mu : F

section Code

variable {F : Type} {N : Nat} (o : FloatOps F N)

/-- A matrix of `m` rows and `n` columns. -/
def cells (m n : Nat) (f : Mat F) : Mat F := fun i j => if i < m ∧ j < n then f i j else o.zero

/-! ### Elementwise steps -/

/-- The smallest usable sigma, or zero. -/
def smallest (nch : Nat) (sigma : Nat → F) : F :=
  (List.range nch).foldl (fun smin c =>
    if o.positive (sigma c) then if o.eq smin o.zero then sigma c else o.min smin (sigma c) else smin) o.zero

/-- The weights, a run of rows for each channel, and the smallest sigma. -/
def channelWeightDiag (w2 : Nat → F) (m nch : Nat) (sigma : Nat → F) : (Nat → F) × F :=
  if m < 1 ∨ nch < 1 ∨ m % nch ≠ 0 then (w2, o.zero)
  else
    let smin := smallest o nch sigma
    if o.lt o.zero smin then
      (fun i =>
        let c := i / (m / nch)
        let sc := if o.positive (sigma c) then sigma c else o.mul smin (o.lit (1 / 1000000))
        if i < m then o.mul (o.div smin sc) (o.div smin sc) else o.zero, smin)
    else (w2, o.zero)

/-- Element `i` of `X`. -/
def weighted (m : Nat) (rho w y z a : F) (i : Nat) : F :=
  let rho2 := o.mul (o.lit (1 / 2)) rho
  let invRho := o.div o.one rho
  let reciprocal := o.div o.one (o.add w rho2)
  let pull := o.mul rho2 (o.sub z (o.mul a invRho))
  if inVector N m i then o.mul (o.mulAdd w y pull) reciprocal
  else o.mul (o.add (o.mul w y) pull) reciprocal

/-- Element `i` of the dual. -/
def dual (m : Nat) (rho x z a : F) (i : Nat) : F :=
  if inVector N m i then o.mulAdd rho (o.sub x z) a else o.add a (o.mul rho (o.sub x z))

def admmWeightedX (m n : Nat) (rho : F) (mem : Memory F) : Memory F :=
  if o.positive rho then
    { mem with X := cells o m n fun i j => weighted o m rho (mem.w2 i) (mem.Y i j) (mem.Z i j) (mem.A i j) i }
  else mem

def dualAdd (m n : Nat) (rho : F) (mem : Memory F) : Memory F :=
  { mem with A := cells o m n fun i j => dual o m rho (mem.X i j) (mem.Z i j) (mem.A i j) i }

/-- The dual and the next `X` in one pass: an element of `X` is computed from the element of the
dual that has just been. -/
def admmDualAddWeightedX (m n : Nat) (rhoDual rhoX : F) (mem : Memory F) : Memory F :=
  if o.positive rhoDual && o.positive rhoX then
    let element := fun i j =>
      let anew := dual o m rhoDual (mem.X i j) (mem.Z i j) (mem.A i j) i
      (anew, weighted o m rhoX (mem.w2 i) (mem.Y i j) (mem.Z i j) anew i)
    { mem with A := cells o m n fun i j => (element i j).1, X := cells o m n fun i j => (element i j).2 }
  else mem

def tempXp (m n : Nat) (invRho : F) (mem : Memory F) : Memory F :=
  { mem with Temp := cells o m n fun i j =>
      if inVector N m i then o.mulAdd invRho (mem.A i j) (mem.X i j)
      else o.add (mem.X i j) (o.mul (mem.A i j) invRho) }

def copyBack (m n : Nat) (mem : Memory F) : Memory F := { mem with Y := assign m n mem.Y mem.Z }

/-! ### The shrinkages -/

/-- The loop of `sv_shrink` from `k` on, with the number of values that are left. -/
def svShrinkFrom (constant : F) (S : Nat → F) (k : Nat) : Nat → (Nat → F) × Nat
  | 0 => (S, k)
  | left + 1 =>
    let s := S k
    let tmp := o.sub (o.mul s s) constant
    if o.lt o.zero tmp then
      svShrinkFrom constant (Function.update S k (o.mul (o.add s (o.sqrt tmp)) (o.lit (1 / 2)))) (k + 1) left
    else (S, k)

def svShrink (S : Nat → F) (n : Nat) (constant : F) (startK : Nat) : (Nat → F) × Nat :=
  if n < 1 then (S, 0) else svShrinkFrom o constant S (min startK n) (n - min startK n)

/-- `gemm_nn_hwy`, entry by entry (`Gemm.gemmNN_eq`); it stores them all. -/
def gemmNn (m n k : Nat) (a b : Mat F) : Mat F :=
  cells o m n fun i j => Gemm.entryNN o.toOps m k i (a i) fun t => b t j

/-- `AᵀA`, each entry above the diagonal stored a second time below it. Columns that are taken four
at a time have the same chain as single ones. -/
def gramMatrix (m : Nat) (input : Mat F) : Mat F := fun a b =>
  Gemm.quadChain o.toOps m (fun i => input i (min a b)) fun i => input i (max a b)

/-- The left and the right vector of each value above the band point the same way. -/
def gramSpectrumIsPsd8 (e : Eigen F) (uncertainty : F) : Bool :=
  (List.range 8).all fun k => !o.lt uncertainty (e.s k) ||
    let pair := fun i => o.add (o.mul (e.u i k) (e.v i k)) (o.mul (e.u (i + 1) k) (e.v (i + 1) k))
    let agreement := o.add (o.add (pair 0) (pair 2)) (o.add (pair 4) (pair 6))
    o.isFinite agreement && !o.lt agreement o.zero

/-- The entry of the symmetric matrix that the group is multiplied by. -/
def transformEntry (e : Eigen F) (factor : Nat → F) (kept a b : Nat) : F :=
  (List.range kept).foldl (fun value k => o.add value (o.mul (o.mul (e.vt k a) (factor k)) (e.vt k b))) o.zero

/-- The kept values and the shrunk matrix, or nothing where a guard is not met. -/
def gramShrink8 (jacobiSvd8 : Mat F → Eigen F) (input : Mat F) (m : Nat) (constant : F) (startK : Nat) :
    Option (Nat × Mat F) :=
  let e := jacobiSvd8 (gramMatrix o m input)
  let uncertainty := o.mul (o.lit (2 / 100000)) (o.max (o.max (e.s 0) constant) (o.lit (1 / 10 ^ 20)))
  let shrunk := svShrink o (fun k => o.sqrt (e.s k)) 8 constant startK
  let factor := fun k =>
    let original := o.sqrt (e.s k)
    if o.lt (o.lit (1 / 10 ^ 20)) original then o.div (shrunk.1 k) original else o.zero
  let transform := fun a b => transformEntry o e factor shrunk.2 (min a b) (max a b)
  if ((List.range 8).any fun k => !o.isFinite (e.s k) || o.lt (e.s k) o.zero) then none
  else if !gramSpectrumIsPsd8 o e uncertainty then none
  else if ((List.range' (min startK 8) (8 - min startK 8)).any fun k =>
    o.le (o.abs (o.sub (e.s k) constant)) uncertainty) then none
  else if ((List.range 8).any fun b => (List.range (b + 1)).any fun a => !o.isFinite (transform a b)) then none
  else some (shrunk.2, gemmNn o m 8 8 input transform)

/-- From `Temp` to `Z`, or the memory as it is given up. -/
abbrev Shrinkage (F : Type) := F → Memory F → Except (Memory F) (Nat × Memory F)

def gramShrinkage (solvers : Solvers F) (m : Nat) : Shrinkage F := fun constant mem =>
  match gramShrink8 o solvers.jacobiSvd8 mem.Temp m constant 0 with
  | some (kept, Z) => .ok (kept, { mem with Z })
  | none => .error mem

/-- What `svd_mn` and `svd_economy` take from the work area, in order. -/
def svdMnTakes (m n : Nat) : List Nat := [n * n, n * n, n * n, m * n, n, m * n]

def svdTakes (m n : Nat) : List Nat :=
  if m < n then [m * n, n * m, n * max n m, m * n] ++ svdMnTakes n m else m * n :: svdMnTakes m n

/-- The kept values go into the vectors of the shorter side. -/
def scaleVectors (m n kept : Nat) (mem : Memory F) : Memory F :=
  if m < n then
    { mem with U := fun i t => if t < kept then o.mul (mem.U i t) (mem.S t) else mem.U i t }
  else
    { mem with Vt := fun t j => if t < kept then o.mul (mem.Vt t j) (mem.S t) else mem.Vt t j }

def reconstruct (m n kept : Nat) (mem : Memory F) : Memory F :=
  if kept = 0 then { mem with Z := cells o m n fun _ _ => o.zero }
  else
    let mem := scaleVectors o m n kept mem
    { mem with Z := gemmNn o m n kept mem.U mem.Vt }

def svdShrinkage (solvers : Solvers F) (m n startK : Nat) : Shrinkage F := fun constant mem =>
  let r := solvers.svdEconomy m n mem.Temp
  let mem := { mem with
    U := r.U, S := r.S, Vt := r.Vt,
    scratch := fun i => if i < (svdTakes m n).sum then r.scratch i else mem.scratch i }
  if r.ok then
    let shrunk := svShrink o mem.S (min m n) constant startK
    .ok (shrunk.2, reconstruct o m n shrunk.2 { mem with S := shrunk.1 })
  else .error mem

/-! ### The iterations -/

structure State (F : Type) where
  rho : F
  kept : Nat
  mem : Memory F

/-- `X` of the first iteration, and `Temp`. -/
def enter (a : Args F) (it : Nat) (s : State F) : Memory F :=
  tempXp o a.m a.n (o.div o.one s.rho) (if it = 0 then admmWeightedX o a.m a.n s.rho s.mem else s.mem)

def Args.nextRho (a : Args F) (rho : F) : F := o.min (o.lit 10000) (o.mul a.mu rho)

/-- The dual, and `X` of the next iteration where there is one. -/
def leave (a : Args F) (it : Nat) (rho : F) (mem : Memory F) : Memory F :=
  if it + 1 < a.admmIter then admmDualAddWeightedX o a.m a.n rho (a.nextRho o rho) mem
  else dualAdd o a.m a.n rho mem

def iterate (shrink : Shrinkage F) (a : Args F) (C : F) (s : State F) (it : Nat) :
    Except (Memory F) (State F) := do
  let shrunk ← shrink (o.mul C (o.div (o.lit 2) s.rho)) (enter o a it s)
  if o.positive (a.nextRho o s.rho) then .ok ⟨a.nextRho o s.rho, shrunk.1, leave o a it s.rho shrunk.2⟩
  else .error shrunk.2

def iterations (shrink : Shrinkage F) (a : Args F) (C : F) (count : Nat) (s : State F) :
    Except (Memory F) (State F) :=
  (List.range count).foldlM (iterate o shrink a C) s

def Args.constant (a : Args F) (smin : F) : F :=
  o.mul (o.mul (o.mul (o.lit 8) (o.sqrt (o.mul (o.lit 2) (o.lit a.n)))) smin) smin

/-- The memory and the penalty before the first iteration. -/
def start (a : Args F) (mem : Memory F) : State F :=
  ⟨a.rho, 0, { mem with
    w2 := (channelWeightDiag o mem.w2 a.m a.nch a.sigma).1
    Z := cells o a.m a.n fun _ _ => o.zero
    A := cells o a.m a.n fun _ _ => o.zero }⟩

/-- `full` is returned where no channel is filtered. -/
def admm (shrink : Shrinkage F) (full : Nat) (a : Args F) (mem : Memory F) :
    Except (Memory F) (Nat × Memory F) :=
  let weights := channelWeightDiag o mem.w2 a.m a.nch a.sigma
  if o.lt o.zero weights.2 then do
    let s ← iterations o shrink a (a.constant o weights.2) a.admmIter (start o a mem)
    return (s.kept, copyBack a.m a.n s.mem)
  else .ok (full, { mem with w2 := weights.1 })

def mcwnnmAdmmGram8 (solvers : Solvers F) (a : Args F) (mem : Memory F) : Except (Memory F) (Nat × Memory F) :=
  admm o (gramShrinkage o solvers a.m) 8 { a with n := 8 } mem

/-- The part of `McwnnmAdmm` after the Gram path. -/
def general (solvers : Solvers F) (startK : Nat) (a : Args F) (mem : Memory F) :
    Except (Memory F) (Nat × Memory F) :=
  admm o (svdShrinkage o solvers a.m a.n startK) (min a.m a.n) a mem

/-! ### The entry points -/

/-- The arguments of `mcwnnm_admm`; `none` is a null pointer. -/
structure Call (F : Type) where
  m : Int
  n : Int
  lda : Int
  nch : Int
  sigma : Option (Nat → F)
  admmIter : Int
  rho : F
  mu : F
  svStartK : Int
  workFloats : Option Int

/-- The floats that the SVD is left. -/
def svdFloats (m n : Nat) : Nat := m * n * 6 + n * n * 8 + n + 256

def admmWorkFloats (m n : Nat) : Nat := 4 * m * n + m * n + n + n * n + m + svdFloats m n

def Call.refused (c : Call F) : Bool :=
  decide (c.m < 1 ∨ c.n < 1 ∨ c.lda < c.m ∨ c.nch < 1 ∨ c.m % c.nch ≠ 0 ∨ kSvdMaxM < c.m ∨ kSvdMaxN < c.n ∨
    c.admmIter < 1) || !o.lt o.zero c.rho || !o.isFinite c.rho || !o.isFinite c.mu || o.lt c.mu o.one ||
    !c.workFloats.any fun floats => (admmWorkFloats c.m.toNat c.n.toNat : Int) ≤ floats

def Call.args (c : Call F) (sigma : Nat → F) : Args F :=
  ⟨c.m.toNat, c.n.toNat, c.nch.toNat, sigma, c.admmIter.toNat, c.rho, c.mu⟩

/-- `std::clamp(sv_start_k, 0, min(m, n))` -/
def Call.startK (c : Call F) : Nat := min c.svStartK.toNat (min c.m.toNat c.n.toNat)

/-- Whether the Gram path is tried. -/
def Call.tall (c : Call F) : Bool := decide (c.n = 8 ∧ 192 ≤ c.m ∧ c.svStartK = 0)

/-- The value that is returned, `none` for -1, and the memory. -/
def returned : Except (Memory F) (Nat × Memory F) → Option Nat × Memory F
  | .ok (kept, mem) => (some kept, mem)
  | .error mem => (none, mem)

def mcwnnmAdmm (solvers : Solvers F) (c : Call F) (mem : Memory F) : Option Nat × Memory F :=
  match c.sigma with
  | none => (none, mem)
  | some sigma =>
    if c.refused o then (none, mem)
    else if c.tall then
      match mcwnnmAdmmGram8 o solvers (c.args sigma) mem with
      | .ok r => returned (.ok r)
      | .error mem => returned (general o solvers c.startK (c.args sigma) mem)
    else returned (general o solvers c.startK (c.args sigma) mem)

end Code

/-! ## What a path leaves alone -/

section Frame

variable {F : Type} {N : Nat} {o : FloatOps F N} {a : Args F} {C : F} {it first : Nat}

/-- A shrinkage reads the group and the iterates and does not write them, nor what lies from `first`
on past the room of the SVD. -/
structure Kept (first : Nat) (mem mem' : Memory F) : Prop where
  Y : mem'.Y = mem.Y
  X : mem'.X = mem.X
  A : mem'.A = mem.A
  w2 : mem'.w2 = mem.w2
  scratch : ∀ i, first ≤ i → mem'.scratch i = mem.scratch i

def Keeps (first : Nat) (shrink : Shrinkage F) : Prop :=
  ∀ c mem, Loops.Ends (Kept first mem) (fun r => Kept first mem r.2) (shrink c mem)

theorem Kept.refl (mem : Memory F) : Kept first mem mem := ⟨rfl, rfl, rfl, rfl, fun _ _ => rfl⟩

theorem gramShrinkage_keeps (solvers : Solvers F) (m first : Nat) : Keeps first (gramShrinkage o solvers m) := by
  intro c mem
  unfold gramShrinkage
  cases gramShrink8 o solvers.jacobiSvd8 mem.Temp m c 0 with
  | none => exact Kept.refl mem
  | some r => exact ⟨rfl, rfl, rfl, rfl, fun _ _ => rfl⟩

theorem reconstruct_kept (m n kept first : Nat) (mem : Memory F) : Kept first mem (reconstruct o m n kept mem) := by
  unfold reconstruct scaleVectors
  split
  · exact ⟨rfl, rfl, rfl, rfl, fun _ _ => rfl⟩
  · dsimp only
    split <;> exact ⟨rfl, rfl, rfl, rfl, fun _ _ => rfl⟩

theorem svdShrinkage_keeps (solvers : Solvers F) (m n startK : Nat) :
    Keeps (svdTakes m n).sum (svdShrinkage o solvers m n startK) := by
  intro c mem
  have hroom : ∀ i, (svdTakes m n).sum ≤ i →
      (if i < (svdTakes m n).sum then (solvers.svdEconomy m n mem.Temp).scratch i else mem.scratch i) =
        mem.scratch i := fun i hi => if_neg (by omega)
  unfold svdShrinkage
  dsimp only
  split
  · have h := reconstruct_kept (o := o) m n (svShrink o (solvers.svdEconomy m n mem.Temp).S (min m n) c startK).2
      (svdTakes m n).sum
      { mem with
        U := (solvers.svdEconomy m n mem.Temp).U
        S := (svShrink o (solvers.svdEconomy m n mem.Temp).S (min m n) c startK).1
        Vt := (solvers.svdEconomy m n mem.Temp).Vt
        scratch := fun i =>
          if i < (svdTakes m n).sum then (solvers.svdEconomy m n mem.Temp).scratch i else mem.scratch i }
    exact ⟨h.Y, h.X, h.A, h.w2, fun i hi => (h.scratch i hi).trans (hroom i hi)⟩
  · exact ⟨rfl, rfl, rfl, rfl, hroom⟩

/-- The group, and the work area from `first` on. -/
def Untouched (first : Nat) (mem mem' : Memory F) : Prop :=
  mem'.Y = mem.Y ∧ ∀ i, first ≤ i → mem'.scratch i = mem.scratch i

theorem enter_untouched (s : State F) : Untouched first s.mem (enter o a it s) := by
  unfold enter tempXp admmWeightedX
  split
  · split <;> exact ⟨rfl, fun _ _ => rfl⟩
  · exact ⟨rfl, fun _ _ => rfl⟩

theorem leave_untouched (rho : F) (mem : Memory F) : Untouched first mem (leave o a it rho mem) := by
  unfold leave dualAdd admmDualAddWeightedX
  split
  · split <;> exact ⟨rfl, fun _ _ => rfl⟩
  · exact ⟨rfl, fun _ _ => rfl⟩

theorem Untouched.trans {mem mem' mem'' : Memory F} (h : Untouched first mem mem') (h' : Untouched first mem' mem'') :
    Untouched first mem mem'' :=
  ⟨h'.1.trans h.1, fun i hi => (h'.2 i hi).trans (h.2 i hi)⟩

theorem iterate_untouched {shrink : Shrinkage F} (hshrink : Keeps first shrink) (s : State F) (it : Nat) :
    Loops.Ends (Untouched first s.mem) (fun s' => Untouched first s.mem s'.mem) (iterate o shrink a C s it) := by
  have hkept := hshrink (o.mul C (o.div (o.lit 2) s.rho)) (enter o a it s)
  have henter : Untouched first s.mem (enter o a it s) := enter_untouched s
  unfold iterate
  cases hrun : shrink (o.mul C (o.div (o.lit 2) s.rho)) (enter o a it s) with
  | error mem =>
    rw [hrun] at hkept
    exact henter.trans ⟨hkept.Y, hkept.scratch⟩
  | ok r =>
    rw [hrun] at hkept
    have hshrunk : Untouched first s.mem r.2 := henter.trans ⟨hkept.Y, hkept.scratch⟩
    rw [Loops.ok_bind]
    split
    · exact hshrunk.trans (leave_untouched s.rho r.2)
    · exact hshrunk

/-- No path writes the group before its end. -/
theorem iterations_untouched {shrink : Shrinkage F} (hshrink : Keeps first shrink) (count : Nat) (s : State F) :
    Loops.Ends (Untouched first s.mem) (fun s' => Untouched first s.mem s'.mem)
      (iterations o shrink a C count s) := by
  refine Loops.Ends.foldlM ⟨rfl, fun _ _ => rfl⟩ fun s' hs' it _ => ?_
  have hround := iterate_untouched (o := o) (a := a) (C := C) hshrink s' it
  cases hrun : iterate o shrink a C s' it with
  | error mem =>
    rw [hrun] at hround
    exact hs'.trans hround
  | ok s'' =>
    rw [hrun] at hround
    exact hs'.trans hround

/-- A path that gives up leaves the group, and each leaves the work area from `first` on. -/
theorem admm_untouched {shrink : Shrinkage F} (hshrink : Keeps first shrink) (full : Nat) (mem : Memory F) :
    Loops.Ends (Untouched first mem) (fun r => ∀ i, first ≤ i → r.2.scratch i = mem.scratch i)
      (admm o shrink full a mem) := by
  unfold admm
  dsimp only
  split
  · exact (iterations_untouched hshrink a.admmIter (start o a mem)).bind fun s hs => hs.2
  · exact fun _ _ => rfl

theorem admm_error_Y {shrink : Shrinkage F} (hshrink : Keeps first shrink) {full : Nat} {mem mem' : Memory F}
    (h : admm o shrink full a mem = .error mem') : mem'.Y = mem.Y := by
  have hends := admm_untouched (o := o) (a := a) hshrink full mem
  rw [h] at hends
  exact hends.1

theorem svdTakes_le (m n : Nat) : (svdTakes m n).sum ≤ svdFloats m n := by
  unfold svdTakes svdMnTakes svdFloats
  split
  · rename_i h
    rw [max_eq_left h.le]
    have hsquare : m * m ≤ n * n := Nat.mul_le_mul h.le h.le
    simp only [List.cons_append, List.nil_append, List.sum_cons, List.sum_nil]
    rw [Nat.mul_comm n m]
    omega
  · simp only [List.sum_cons, List.sum_nil]
    omega

theorem gram8_untouched (solvers : Solvers F) (first : Nat) (mem : Memory F) :
    Loops.Ends (Untouched first mem) (fun r => ∀ i, first ≤ i → r.2.scratch i = mem.scratch i)
      (mcwnnmAdmmGram8 o solvers a mem) :=
  admm_untouched (gramShrinkage_keeps solvers a.m first) 8 mem

theorem general_untouched (solvers : Solvers F) (startK : Nat) (mem : Memory F) :
    Loops.Ends (Untouched (svdTakes a.m a.n).sum mem)
      (fun r => ∀ i, (svdTakes a.m a.n).sum ≤ i → r.2.scratch i = mem.scratch i) (general o solvers startK a mem) :=
  admm_untouched (svdShrinkage_keeps solvers a.m a.n startK) (min a.m a.n) mem

theorem general_returned (solvers : Solvers F) (startK : Nat) (mem : Memory F) :
    ((returned (general o solvers startK a mem)).1 = none →
      (returned (general o solvers startK a mem)).2.Y = mem.Y) ∧
    ∀ i, svdFloats a.m a.n ≤ i → (returned (general o solvers startK a mem)).2.scratch i = mem.scratch i := by
  have hroom := svdTakes_le a.m a.n
  have hends := general_untouched (o := o) (a := a) solvers startK mem
  cases hrun : general o solvers startK a mem with
  | ok r =>
    rw [hrun] at hends
    exact ⟨nofun, fun i hi => hends i (by omega)⟩
  | error mem' =>
    rw [hrun] at hends
    exact ⟨fun _ => hends.1, fun i hi => hends.2 i (by omega)⟩

/-- A refused call and one that gives up leave the group; no call writes the work area past what
the SVD is left. -/
theorem mcwnnmAdmm_untouched (solvers : Solvers F) (c : Call F) (mem : Memory F) :
    ((mcwnnmAdmm o solvers c mem).1 = none → (mcwnnmAdmm o solvers c mem).2.Y = mem.Y) ∧
      ∀ i, svdFloats c.m.toNat c.n.toNat ≤ i → (mcwnnmAdmm o solvers c mem).2.scratch i = mem.scratch i := by
  unfold mcwnnmAdmm
  split
  · exact ⟨fun _ => rfl, fun _ _ => rfl⟩
  · rename_i sigma _
    split
    · exact ⟨fun _ => rfl, fun _ _ => rfl⟩
    · split
      · have hends := gram8_untouched (o := o) (a := c.args sigma) solvers (svdFloats c.m.toNat c.n.toNat) mem
        cases hgram : mcwnnmAdmmGram8 o solvers (c.args sigma) mem with
        | ok r =>
          rw [hgram] at hends
          exact ⟨nofun, hends⟩
        | error mem' =>
          rw [hgram] at hends
          obtain ⟨hY, hscratch⟩ := general_returned (o := o) (a := c.args sigma) solvers c.startK mem'
          exact ⟨fun h => (hY h).trans hends.1, fun i hi => (hscratch i hi).trans (hends.2 i hi)⟩
      · exact general_returned solvers c.startK mem

end Frame

/-! ## Two runs side by side -/

section Simulation

variable {F : Type} {N : Nat} {o : FloatOps F N} {a : Args F} {C : F} {it first : Nat} {shrink shrink' : Shrinkage F}

/-- What an iteration reads of the memory before it: `X` only after the first. -/
structure Live (it : Nat) (mem mem' : Memory F) : Prop where
  Y : mem.Y = mem'.Y
  A : mem.A = mem'.A
  Z : mem.Z = mem'.Z
  w2 : mem.w2 = mem'.w2
  X : 0 < it → mem.X = mem'.X

structure Alike (o : FloatOps F N) (it : Nat) (s s' : State F) : Prop where
  rho : s.rho = s'.rho
  kept : s.kept = s'.kept
  positive : o.positive s.rho = true
  live : Live it s.mem s'.mem

/-- What a shrinkage is given. -/
structure Given (mem mem' : Memory F) : Prop where
  Y : mem.Y = mem'.Y
  X : mem.X = mem'.X
  A : mem.A = mem'.A
  w2 : mem.w2 = mem'.w2
  Temp : mem.Temp = mem'.Temp

theorem enter_given {s s' : State F} (h : Alike o it s s') : Given (enter o a it s) (enter o a it s') := by
  obtain ⟨hrho, -, hpositive, hY, hA, hZ, hw2, hX⟩ := h
  have hpositive' : o.positive s'.rho = true := hrho ▸ hpositive
  unfold enter admmWeightedX tempXp
  rw [if_pos hpositive, if_pos hpositive', ← hrho, ← hY, ← hA, ← hZ, ← hw2]
  by_cases hit : it = 0
  · rw [if_pos hit, if_pos hit]
    exact ⟨rfl, rfl, rfl, rfl, rfl⟩
  · rw [if_neg hit, if_neg hit]
    have hX := hX (by omega)
    exact ⟨hY, hX, hA, hw2, by dsimp only; rw [hX, hA]⟩

/-- Where the first shrinkage succeeds, the second does, with the same result. -/
def Follows (r r' : Except (Memory F) (Nat × Memory F)) : Prop :=
  ∀ kept mem, r = .ok (kept, mem) → ∃ mem', r' = .ok (kept, mem') ∧ mem.Z = mem'.Z

theorem leave_live {rho : F} {mem mem' : Memory F} (h : Live 1 mem mem') :
    Live (it + 1) (leave o a it rho mem) (leave o a it rho mem') := by
  obtain ⟨hY, hA, hZ, hw2, hX⟩ := h
  have hX := hX (by omega)
  unfold leave admmDualAddWeightedX dualAdd
  rw [← hY, ← hA, ← hZ, ← hw2, ← hX]
  split
  · split
    · exact ⟨rfl, rfl, rfl, rfl, fun _ => rfl⟩
    · exact ⟨hY, hA, hZ, hw2, fun _ => hX⟩
  · exact ⟨rfl, rfl, rfl, rfl, fun _ => rfl⟩

theorem iterate_alike
    (hkept : Keeps first shrink) (hkept' : Keeps first shrink')
    {s s' t : State F} (h : Alike o it s t)
    (hfollows : ∀ mem, Given (enter o a it s) mem →
      Follows (shrink (o.mul C (o.div (o.lit 2) s.rho)) (enter o a it s))
        (shrink' (o.mul C (o.div (o.lit 2) s.rho)) mem))
    (hrun : iterate o shrink a C s it = .ok s') :
    ∃ t', iterate o shrink' a C t it = .ok t' ∧ Alike o (it + 1) s' t' := by
  have hgiven := enter_given (a := a) h
  obtain ⟨⟨kept, mem⟩, hshrunk, hrest⟩ := Loops.bind_eq_ok.mp hrun
  obtain ⟨mem', hshrunk', hZ⟩ := hfollows _ hgiven kept mem hshrunk
  have hframe := hkept (o.mul C (o.div (o.lit 2) s.rho)) (enter o a it s)
  have hframe' := hkept' (o.mul C (o.div (o.lit 2) s.rho)) (enter o a it t)
  rw [hshrunk] at hframe
  rw [hshrunk'] at hframe'
  have hlive : Live 1 mem mem' :=
    ⟨by rw [hframe.Y, hframe'.Y, hgiven.Y], by rw [hframe.A, hframe'.A, hgiven.A], hZ,
      by rw [hframe.w2, hframe'.w2, hgiven.w2], fun _ => by rw [hframe.X, hframe'.X, hgiven.X]⟩
  split at hrest
  · rename_i hpositive
    cases hrest
    refine ⟨⟨a.nextRho o s.rho, kept, leave o a it s.rho mem'⟩, ?_, rfl, rfl, hpositive, leave_live hlive⟩
    rw [iterate, ← h.rho, hshrunk', Loops.ok_bind, if_pos hpositive]
  · cases hrest

/-- One more round of a loop over `List.range`. -/
theorem iterations_succ (count : Nat) (s : State F) :
    iterations o shrink a C (count + 1) s =
      iterations o shrink a C count s >>= fun s => iterate o shrink a C s count := by
  unfold iterations
  rw [List.range_succ, List.foldlM_append]
  cases (List.range count).foldlM (iterate o shrink a C) s with
  | error mem => rfl
  | ok s' =>
    rw [Loops.ok_bind, Loops.ok_bind, List.foldlM_cons]
    cases iterate o shrink a C s' count <;> rfl

theorem iterations_alike
    (hkept : Keeps first shrink) (hkept' : Keeps first shrink')
    {s t : State F} (h : Alike o 0 s t) (count : Nat)
    (hfollows : ∀ it < count, ∀ s', iterations o shrink a C it s = .ok s' → ∀ mem, Given (enter o a it s') mem →
      Follows (shrink (o.mul C (o.div (o.lit 2) s'.rho)) (enter o a it s'))
        (shrink' (o.mul C (o.div (o.lit 2) s'.rho)) mem)) :
    ∀ s', iterations o shrink a C count s = .ok s' →
      ∃ t', iterations o shrink' a C count t = .ok t' ∧ Alike o count s' t' := by
  induction count with
  | zero =>
    intro s' hs'
    cases hs'
    exact ⟨t, rfl, h⟩
  | succ count ih =>
    intro s' hs'
    rw [iterations_succ] at hs'
    obtain ⟨s₁, hs₁, hs'⟩ := Loops.bind_eq_ok.mp hs'
    obtain ⟨t₁, ht₁, halike⟩ := ih (fun it hit => hfollows it (by omega)) s₁ hs₁
    obtain ⟨t', ht', halike'⟩ := iterate_alike hkept hkept' halike (hfollows count (by omega) s₁ hs₁) hs'
    exact ⟨t', by rw [iterations_succ, ht₁, Loops.ok_bind, ht'], halike'⟩

/-- Weights that are used do not depend on what their area held. -/
theorem channelWeightDiag_congr {w w' : Nat → F} {m nch : Nat} {sigma : Nat → F}
    (h : o.lt o.zero (channelWeightDiag o w m nch sigma).2 = true) :
    channelWeightDiag o w m nch sigma = channelWeightDiag o w' m nch sigma := by
  unfold channelWeightDiag at h ⊢
  dsimp only at h ⊢
  split
  · rename_i hshape
    rw [if_pos hshape, o.zero_not_lt] at h
    cases h
  · rename_i hshape
    rw [if_neg hshape] at h
    split
    · rfl
    · rename_i hsmin
      rw [if_neg hsmin, o.zero_not_lt] at h
      cases h

theorem start_alike {mem mem' : Memory F} (hY : mem.Y = mem'.Y) (hrho : o.positive a.rho = true)
    (hsmin : o.lt o.zero (channelWeightDiag o mem.w2 a.m a.nch a.sigma).2 = true) :
    Alike o 0 (start o a mem) (start o a mem') := by
  refine ⟨rfl, rfl, hrho, hY, rfl, rfl, ?_, fun h => absurd h (by omega)⟩
  exact congrArg Prod.fst (channelWeightDiag_congr hsmin)

/-- Two runs of the solver over groups that agree. -/
theorem admm_follows
    (hkept : Keeps first shrink) (hkept' : Keeps first shrink')
    {full : Nat} {mem mem' mem₁ : Memory F} {kept : Nat} (hY : mem.Y = mem'.Y) (hrho : o.positive a.rho = true)
    (hfollows : ∀ C, C = a.constant o (channelWeightDiag o mem.w2 a.m a.nch a.sigma).2 →
      ∀ it < a.admmIter, ∀ s', iterations o shrink a C it (start o a mem) = .ok s' →
        ∀ entered, Given (enter o a it s') entered →
          Follows (shrink (o.mul C (o.div (o.lit 2) s'.rho)) (enter o a it s'))
            (shrink' (o.mul C (o.div (o.lit 2) s'.rho)) entered))
    (hrun : admm o shrink full a mem = .ok (kept, mem₁)) :
    ∃ mem₂, admm o shrink' full a mem' = .ok (kept, mem₂) ∧ mem₁.Y = mem₂.Y := by
  unfold admm at hrun ⊢
  dsimp only at hrun ⊢
  by_cases hsmin : o.lt o.zero (channelWeightDiag o mem.w2 a.m a.nch a.sigma).2 = true
  · rw [if_pos hsmin] at hrun
    rw [← channelWeightDiag_congr hsmin, if_pos hsmin]
    obtain ⟨s, hs, hreturn⟩ := Loops.bind_eq_ok.mp hrun
    cases hreturn
    obtain ⟨t, ht, halike⟩ := iterations_alike hkept hkept' (start_alike hY hrho hsmin) a.admmIter
      (hfollows _ rfl) s hs
    refine ⟨copyBack a.m a.n t.mem, ?_, ?_⟩
    · rw [ht, Loops.ok_bind, halike.kept]
      rfl
    · rw [copyBack, copyBack, halike.live.Y, halike.live.Z]
  · rw [if_neg hsmin] at hrun
    cases hrun
    have hsmin' : ¬o.lt o.zero (channelWeightDiag o mem'.w2 a.m a.nch a.sigma).2 = true := by
      intro h
      rw [channelWeightDiag_congr h] at h
      exact hsmin h
    rw [if_neg hsmin']
    exact ⟨_, rfl, hY⟩

/-- The SVD sees `Temp` alone. -/
theorem svdShrinkage_follows (solvers : Solvers F) (m n startK : Nat) (c : F) {mem mem' : Memory F}
    (h : mem.Temp = mem'.Temp) :
    Follows (svdShrinkage o solvers m n startK c mem) (svdShrinkage o solvers m n startK c mem') := by
  intro kept mem₁ hrun
  unfold svdShrinkage at hrun ⊢
  dsimp only at hrun ⊢
  rw [← h]
  split at hrun
  · rename_i hok
    rw [if_pos hok]
    cases hrun
    refine ⟨_, rfl, ?_⟩
    unfold reconstruct scaleVectors
    split
    · rfl
    · dsimp only
      split <;> rfl
  · cases hrun

/-- What the general path returns depends on the group, not on the work area. -/
theorem general_same (solvers : Solvers F) (startK : Nat) {mem mem' : Memory F} (hY : mem.Y = mem'.Y)
    (hrho : o.positive a.rho = true) :
    (returned (general o solvers startK a mem)).1 = (returned (general o solvers startK a mem')).1 ∧
      (returned (general o solvers startK a mem)).2.Y = (returned (general o solvers startK a mem')).2.Y := by
  have hkept : Keeps (svdTakes a.m a.n).sum (svdShrinkage o solvers a.m a.n startK) :=
    svdShrinkage_keeps solvers a.m a.n startK
  have hfollows : ∀ {mem mem' : Memory F}, mem.Y = mem'.Y → ∀ kept mem₁,
      general o solvers startK a mem = .ok (kept, mem₁) →
        ∃ mem₂, general o solvers startK a mem' = .ok (kept, mem₂) ∧ mem₁.Y = mem₂.Y := by
    intro mem mem' hY kept mem₁ hrun
    exact admm_follows hkept hkept hY hrho
      (fun C _ it _ s' _ entered hgiven => svdShrinkage_follows solvers a.m a.n startK _ hgiven.Temp) hrun
  cases hrun : general o solvers startK a mem with
  | ok r =>
    obtain ⟨mem₂, hrun', hsame⟩ := hfollows hY r.1 r.2 hrun
    rw [hrun']
    exact ⟨rfl, hsame⟩
  | error mem₁ =>
    cases hrun' : general o solvers startK a mem' with
    | ok r =>
      obtain ⟨mem₂, hrun'', -⟩ := hfollows hY.symm r.1 r.2 hrun'
      rw [hrun] at hrun''
      cases hrun''
    | error mem₂ =>
      have h₁ : mem₁.Y = mem.Y := admm_error_Y hkept hrun
      have h₂ : mem₂.Y = mem'.Y := admm_error_Y hkept hrun'
      exact ⟨rfl, h₁.trans (hY.trans h₂.symm)⟩

end Simulation

/-! ## The penalty -/

section Penalty

variable {F : Type} {N : Nat} {o : FloatOps F N} {a : Args F} {C : F} {shrink : Shrinkage F} {s s' : State F}

theorem iterate_rho {it : Nat} (h : iterate o shrink a C s it = .ok s') :
    s'.rho = a.nextRho o s.rho ∧ o.positive s'.rho = true := by
  obtain ⟨r, -, hrest⟩ := Loops.bind_eq_ok.mp h
  split at hrest
  · rename_i hpositive
    cases hrest
    exact ⟨rfl, hpositive⟩
  · cases hrest

/-- A run passes through all its iterations, each with its own penalty. -/
theorem iterations_rho {count : Nat} (h : iterations o shrink a C count s = .ok s') {it : Nat} (hit : it ≤ count) :
    ∃ t, iterations o shrink a C it s = .ok t ∧ t.rho = (a.nextRho o)^[it] s.rho ∧
      (o.positive s.rho = true → o.positive t.rho = true) := by
  induction count generalizing s' it with
  | zero =>
    obtain rfl : it = 0 := by omega
    exact ⟨s, rfl, rfl, fun h => h⟩
  | succ count ih =>
    have hwhole := h
    rw [iterations_succ] at h
    obtain ⟨t, ht, hlast⟩ := Loops.bind_eq_ok.mp h
    by_cases hend : it = count + 1
    · subst hend
      obtain ⟨t', ht', hrho, -⟩ := ih ht (Nat.le_refl count)
      rw [ht] at ht'
      cases ht'
      obtain ⟨hnext, hpositive⟩ := iterate_rho hlast
      refine ⟨s', hwhole, ?_, fun _ => hpositive⟩
      rw [hnext, hrho, Function.iterate_succ_apply']
    · exact ih ht (by omega)

/-- The fused pass is the dual and then the next `X`. -/
theorem admmDualAddWeightedX_eq (m n : Nat) {rhoDual rhoX : F} (hdual : o.positive rhoDual = true)
    (hX : o.positive rhoX = true) (mem : Memory F) :
    admmDualAddWeightedX o m n rhoDual rhoX mem = admmWeightedX o m n rhoX (dualAdd o m n rhoDual mem) := by
  have helement : (cells o m n fun i j => weighted o m rhoX (mem.w2 i) (mem.Y i j) (mem.Z i j)
        (dual o m rhoDual (mem.X i j) (mem.Z i j) (mem.A i j) i) i) =
      cells o m n fun i j => weighted o m rhoX (mem.w2 i) (mem.Y i j) (mem.Z i j)
        (cells o m n (fun i j => dual o m rhoDual (mem.X i j) (mem.Z i j) (mem.A i j) i) i j) i := by
    funext i j
    unfold cells
    split
    · rename_i hin
      dsimp only
      rw [if_pos hin]
    · rfl
  unfold admmDualAddWeightedX admmWeightedX dualAdd
  rw [if_pos (by rw [hdual, hX]; rfl), if_pos hX]
  dsimp only
  rw [helement]

/-- An iteration with its penalty, its last step taken as two. -/
structure Iterated (o : FloatOps F N) (shrink : Shrinkage F) (a : Args F) (C : F) (it : Nat) (s s' : State F) : Prop where
  penalty : s.rho = (fun rho => o.min (o.lit 10000) (o.mul a.mu rho))^[it] a.rho
  steps : ∃ mem, shrink (o.mul C (o.div (o.lit 2) s.rho)) (enter o a it s) = .ok (s'.kept, mem) ∧
    s'.mem = if it + 1 < a.admmIter then admmWeightedX o a.m a.n s'.rho (dualAdd o a.m a.n s.rho mem)
      else dualAdd o a.m a.n s.rho mem
  next : s'.rho = o.min (o.lit 10000) (o.mul a.mu s.rho)

theorem iterations_iterated {count it : Nat} (h : iterations o shrink a C count s = .ok s') (hs : s.rho = a.rho)
    (hrho : o.positive a.rho = true) (hit : it < count) :
    ∃ t t', iterations o shrink a C it s = .ok t ∧ iterations o shrink a C (it + 1) s = .ok t' ∧
      Iterated o shrink a C it t t' := by
  obtain ⟨t', ht', -, -⟩ := iterations_rho h hit
  have hlast := ht'
  rw [iterations_succ] at hlast
  obtain ⟨t, ht, hlast⟩ := Loops.bind_eq_ok.mp hlast
  obtain ⟨t₁, ht₁, hpenalty, hpositive⟩ := iterations_rho ht (Nat.le_refl it)
  rw [ht] at ht₁
  cases ht₁
  have hpositive := hpositive (hs ▸ hrho)
  obtain ⟨hnext, hpositive'⟩ := iterate_rho hlast
  obtain ⟨r, hshrunk, hrest⟩ := Loops.bind_eq_ok.mp hlast
  have hnext' : o.positive (a.nextRho o t.rho) = true := hnext ▸ hpositive'
  rw [if_pos hnext'] at hrest
  cases hrest
  refine ⟨t, _, ht, ht', hs ▸ hpenalty, ⟨r.2, hshrunk, ?_⟩, rfl⟩
  dsimp only [leave]
  split
  · exact admmDualAddWeightedX_eq a.m a.n hpositive hnext' r.2
  · rfl

/-- What a completed run has done: nothing where no channel is filtered, else every iteration with
its penalty and the final copy. -/
def Completed (o : FloatOps F N) (shrink : Shrinkage F) (full : Nat) (a : Args F) (mem : Memory F) (kept : Nat)
    (mem' : Memory F) : Prop :=
  let smin := (channelWeightDiag o mem.w2 a.m a.nch a.sigma).2
  (o.lt o.zero smin = false ∧ kept = full ∧ mem'.Y = mem.Y) ∨
    ∃ s', iterations o shrink a (a.constant o smin) a.admmIter (start o a mem) = .ok s' ∧ kept = s'.kept ∧
      mem'.Y = assign a.m a.n s'.mem.Y s'.mem.Z ∧
      ∀ it < a.admmIter, ∃ t t', iterations o shrink a (a.constant o smin) it (start o a mem) = .ok t ∧
        iterations o shrink a (a.constant o smin) (it + 1) (start o a mem) = .ok t' ∧
        Iterated o shrink a (a.constant o smin) it t t'

theorem admm_completed {full kept : Nat} {mem mem' : Memory F} (hrho : o.positive a.rho = true)
    (h : admm o shrink full a mem = .ok (kept, mem')) : Completed o shrink full a mem kept mem' := by
  unfold admm at h
  dsimp only at h
  split at h
  · obtain ⟨s', hs', hreturn⟩ := Loops.bind_eq_ok.mp h
    cases hreturn
    exact .inr ⟨s', hs', rfl, rfl, fun it hit => iterations_iterated hs' rfl hrho hit⟩
  · rename_i hsmin
    cases h
    exact .inl ⟨Bool.not_eq_true _ ▸ hsmin, rfl, rfl⟩

end Penalty

end NssFactory.Cpu.McwnnmAdmm
