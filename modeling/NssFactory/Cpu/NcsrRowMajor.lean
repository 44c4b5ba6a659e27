import NssFactory.Lib.Numerals
import NssFactory.Cpu.Gemm

/-!
# Row-major codes

The batch path of the NCSR filter keeps the code of patch column `j` on atom `i` at `Brm[i*n + j]`,
so that a row of codes is contiguous, and fuses the passes over a row. The filter of one group has
it at `B[i + j*r]` and gathers each row.

A row becomes `codeRow` of itself in both (`centralizeRow_apply`). The row-major pass takes the
weights and their sum as `NcsrGroupWeights` left them, where `NcsrCentralizeCodes` clamps the
weights and adds them again: `codeWeights_eq`.
-/

namespace NssFactory.Cpu.NcsrRowMajor

open Tiles

def kSvdMaxN : Nat := 32

/-- The float operations of the filter. -/
structure Ops (α : Type) (N : Nat) extends Gemm.Ops α N where
  sub : α → α → α
  div : α → α → α
  sqrt : α → α
  exp : α → α
  abs : α → α
  copySign : α → α → α
  lt : α → α → Bool
  isFinite : α → Bool
  ofNat : Nat → α
  one : α
  minusOne : α
  two : α
  epsilon : α
  mapConstant : α
  zero_not_lt : lt zero zero = false
  one_not_lt : lt one zero = false

section Code

variable {α : Type} {N : Nat} (o : Ops α N)

/-- `std::max` -/
def Ops.max (x y : α) : α := if o.lt x y then y else x

/-! ### Strided copies -/

/-- `dst[j] = src[j * stride]` -/
def gatherStrided (N : Nat) (dst src : Nat → α) (stride n : Nat) : Nat → α :=
  sweep N 0 n (fun j _ => src (j * stride)) dst

/-- `dst[first + j * stride] = src[j]` -/
def scatterStrided (N : Nat) (dst : Nat → α) (first stride n : Nat) (src : Nat → α) : Nat → α :=
  let vectors := (starts N 0 n).flatMap fun j =>
    (List.finRange N).map fun l : Fin N => ((j + l) * stride + first, src (j + l))
  let rest := (List.range' (stop N 0 n) (n - stop N 0 n)).map fun j => (j * stride + first, src j)
  Lines.storeAll (vectors ++ rest) dst

/-! ### Weights -/

def ssdVec (a b : Nat → α) (n : Nat) : α :=
  if n < 1 then o.zero
  else
    let acc := (starts N 0 n).foldl (fun (acc : Fin N → α) i l =>
      o.mulAdd (o.sub (a (i + l)) (b (i + l))) (o.sub (a (i + l)) (b (i + l))) (acc l)) fun _ => o.zero
    (List.range' (stop N 0 n) (n - stop N 0 n)).foldl (fun s i =>
      o.add s (o.mul (o.sub (a i) (b i)) (o.sub (a i) (b i)))) (o.reduceSum acc)

/-- `distance[col]`, measured where the match has none. -/
def columnDistance (colDist : Option (Nat → α)) (group : Nat → α) (m lda col : Nat) : α :=
  match colDist with
  | some d => d col
  | none => if 0 < col then ssdVec o (fun i => group (col * lda + i)) group m else o.zero

/-- The weights and their sum; a refused call leaves `weights` as it is. -/
def ncsrGroupWeights (colDist : Option (Nat → α)) (group : Nat → α) (m n lda : Nat) (h : α)
    (weights : Nat → α) : (Nat → α) × α :=
  if n < 1 ∨ kSvdMaxN < n ∨ o.lt o.zero h = false ∨ o.isFinite h = false ∨
      (colDist.isNone ∧ (m < 1 ∨ lda < m)) then (weights, o.zero)
  else
    let distance := columnDistance o colDist group m lda
    let scale := o.div o.minusOne h
    -- a partial vector is loaded and stored by its first `count` lanes
    let weights := (List.range ((n + N - 1) / N)).foldl (fun (w : Nat → α) k i =>
      let col := k * N
      let count := if n - col < N then n - col else N
      if col ≤ i ∧ i < col + count then o.exp (o.mul (distance i) scale) else w i) weights
    (weights, (List.range n).foldl (fun sum col => o.add sum (weights col)) o.zero)

/-- The bandwidth `h` for patches of `m` pixels. -/
def bandwidth (m : Nat) (sigma : α) : α :=
  o.max (o.mul (o.mul (o.mul o.two (o.ofNat m)) sigma) sigma) o.epsilon

/-- Equal weights where the sum is not positive. -/
def usable (n : Nat) (g : (Nat → α) × α) : (Nat → α) × α :=
  if o.lt o.zero g.2 then g else (fun j => if j < n then o.one else g.1 j, o.ofNat n)

/-! ### A row of codes -/

/-- The threshold of a row, from its second moment about the weighted mean. -/
def rowTau (n : Nat) (weights : Nat → α) (inverse sigma2 : α) (row : Nat → α) : α :=
  let mean := o.mul ((List.range n).foldl (fun s col => o.add s (o.mul (weights col) (row col))) o.zero) inverse
  let variance := (List.range n).foldl (fun v col =>
    o.add v (o.mul (o.sub (row col) mean) (o.sub (row col) mean))) o.zero
  o.div (o.mul o.mapConstant sigma2) (o.add (o.sqrt (o.div variance (o.ofNat n))) o.epsilon)

def weightedSum (n : Nat) (w row : Nat → α) : α :=
  let s := (starts N 0 n).foldl (fun s j =>
    o.add s (o.reduceSum fun l : Fin N => o.mul (w (j + l)) (row (j + l)))) o.zero
  (List.range' (stop N 0 n) (n - stop N 0 n)).foldl (fun s j => o.add s (o.mul (w j) (row j))) s

/-- The value `SoftThreshold` puts in place of `v`. -/
def shrink (t v : α) : α :=
  if o.lt t (o.abs v) then o.copySign (o.sub (o.abs v) t) v else o.zero

def softThreshold (x : Nat → α) (base n : Nat) (tau : α) : Nat → α :=
  if n < 1 then x
  else
    let t := if o.isFinite tau && o.lt o.zero tau then tau else o.zero
    sweep N base n (fun _ v => shrink o t v) x

/-- The row of `n` codes at `base`: centred at `beta`, thresholded and moved back. -/
def centralizeRow (B : Nat → α) (base n : Nat) (w : Nat → α) (inverse ti : α) : Nat → α :=
  let beta := o.mul (weightedSum o n w fun j => B (base + j)) inverse
  let B := sweep N base n (fun _ v => o.sub v beta) B
  let B := softThreshold o B base n ti
  sweep N base n (fun _ v => o.add v beta) B

/-! ### The column-major filter -/

/-- What `NcsrCentralizeCodes` makes of `col_w`. -/
def codeWeights (n : Nat) (colW : Option (Nat → α)) : (Nat → α) × α :=
  let w := fun j => match colW with
    | some c => o.max (c j) o.zero
    | none => o.one
  let wsum := (List.range n).foldl (fun s j => o.add s (w j)) o.zero
  if o.lt o.zero wsum then (w, wsum) else (fun _ => o.one, o.ofNat n)

/-- `row` is the buffer a row is gathered in. -/
def ncsrCentralizeCodes (B : Nat → α) (r n ldb : Nat) (tau : α) (colW rowTau : Option (Nat → α))
    (row : Nat → α) : Nat → α :=
  if r < 1 ∨ n < 1 ∨ ldb < r ∨ kSvdMaxN < r ∨ kSvdMaxN < n then B
  else
    let w := codeWeights o n colW
    let inv := o.div o.one w.2
    ((List.range r).foldl (fun (s : (Nat → α) × (Nat → α)) i =>
      let row := gatherStrided N s.2 (fun x => s.1 (i + x)) ldb n
      let row := centralizeRow o row 0 n w.1 inv (match rowTau with | some t => t i | none => tau)
      (scatterStrided N s.1 i ldb n row, row)) (B, row)).1

/-- What the local arrays hold before they are written. -/
structure Locals (α : Type) where
  weights : Nat → α
  rowTau : Nat → α
  row : Nat → α
  codeRow : Nat → α

def finishNcsrCodes (group : Nat → α) (m n lda : Nat) (sigma : α) (distance : Option (Nat → α))
    (B : Nat → α) (locals : Locals α) : Nat → α :=
  if o.lt o.zero sigma = false ∨ o.isFinite sigma = false then B
  else
    let r := min m n
    let w := usable o n (ncsrGroupWeights o distance group m n lda (bandwidth o m sigma) locals.weights)
    let inverse := o.div o.one w.2
    let taus := ((List.range r).foldl (fun (s : (Nat → α) × (Nat → α)) i =>
      let row := gatherStrided N s.1 (fun x => B (i + x)) r n
      (row, Function.update s.2 i (rowTau o n w.1 inverse (o.mul sigma sigma) row))) (locals.row, locals.rowTau)).2
    ncsrCentralizeCodes o B r n r (o.abs sigma) (some w.1) (some taus) locals.codeRow

def groupCenterAdd (group : Nat → α) (m n lda : Nat) (mean : Nat → α) : Nat → α :=
  if m < 1 ∨ n < 1 ∨ lda < m then group
  else (List.range n).foldl (fun group j => sweep N (j * lda) m (fun i v => o.add v (mean i)) group) group

/-- `M` where every address holds a value. -/
def present (M : Nat → α) : Gemm.Mem α := fun x => some (M x)

/-- Projection on `U`, the codes and the reconstruction of one group; `B` is the memory for the
codes. -/
def columnMajor (avx2 : Bool) (U mean : Nat → α) (m n lda : Nat) (sigma : α) (distance : Option (Nat → α))
    (B : Nat → α) (locals : Locals α) (group : Nat → α) : Option (Nat → α) := do
  let r := min m n
  let codes ← Gemm.gemmTN o.toOps m n r (present U) m (present group) lda r
  let B := finishNcsrCodes o group m n lda sigma distance (Lines.storeAll codes B) locals
  let entries ← Gemm.gemmNN o.toOps avx2 m n r (present U) m (present B) r lda
  return groupCenterAdd o (Lines.storeAll entries group) m n lda mean

/-! ### The row-major kernels -/

/-- The codes of a patch `bj`, stored to column `j` of `Brm`. -/
def projectColumn (U bj : Nat → α) (m n r j : Nat) : List (Nat × α) :=
  let quads := (starts 4 0 r).flatMap fun t =>
    let acc := (starts N 0 m).foldl (fun (acc : Fin 4 → Fin N → α) i q l =>
      o.mulAdd (U ((t + q) * m + (i + l))) (bj (i + l)) (acc q l)) fun _ _ => o.zero
    let s := (List.range' (stop N 0 m) (m - stop N 0 m)).foldl (fun (s : Fin 4 → α) i q =>
      o.add (s q) (o.mul (U ((t + q) * m + i)) (bj i))) fun q => o.reduceSum (acc q)
    (List.finRange 4).map fun q : Fin 4 => ((t + q) * n + j, s q)
  let rest := (List.range' (stop 4 0 r) (r - stop 4 0 r)).map fun t =>
    -- `DotN`, written out
    (t * n + j, Gemm.dotChain o.toOps m (fun i => U (t * m + i)) bj)
  quads ++ rest

def ncsrProjectRM (U group : Nat → α) (m n lda : Nat) (Brm : Nat → α) : Nat → α :=
  if m < 1 ∨ n < 1 ∨ lda < m ∨ kSvdMaxN < n then Brm
  else
    Lines.storeAll ((List.range n).flatMap fun j =>
      projectColumn o U (fun i => group (j * lda + i)) m n (min m n) j) Brm

def ncsrFinishCodesRM (Brm : Nat → α) (r n : Nat) (sigma : α) (colDist : Option (Nat → α))
    (group : Nat → α) (m lda : Nat) (weights : Nat → α) : Nat → α :=
  if r < 1 ∨ n < 1 ∨ kSvdMaxN < r ∨ kSvdMaxN < n then Brm
  else if o.lt o.zero sigma = false ∨ o.isFinite sigma = false then Brm
  else
    let w := usable o n (ncsrGroupWeights o colDist group m n lda (bandwidth o m sigma) weights)
    let inverse := o.div o.one w.2
    (List.range r).foldl (fun Brm i =>
      let ti := rowTau o n w.1 inverse (o.mul sigma sigma) fun j => Brm (i * n + j)
      centralizeRow o Brm (i * n) n w.1 inverse ti) Brm

/-- Patch `j` from its codes and the mean of the group. -/
def reconstructColumn (m n lda r : Nat) (U Brm mean : Nat → α) (j : Nat) : List (Nat × α) :=
  let quads := (starts (4 * N) 0 m).flatMap fun i =>
    let acc := (List.range r).foldl (fun (acc : Fin 4 → Fin N → α) t q l =>
      o.mulAdd (U (t * m + (i + q * N + l))) (Brm (t * n + j)) (acc q l)) fun _ _ => o.zero
    (List.finRange 4).flatMap fun q : Fin 4 => (List.finRange N).map fun l : Fin N =>
      (j * lda + (i + q * N + l), o.add (acc q l) (mean (i + q * N + l)))
  let i := stop (4 * N) 0 m
  let vectors := (starts N i m).flatMap fun i =>
    let acc := (List.range r).foldl (fun (acc : Fin N → α) t l =>
      o.mulAdd (U (t * m + (i + l))) (Brm (t * n + j)) (acc l)) fun _ => o.zero
    (List.finRange N).map fun l : Fin N => (j * lda + (i + l), o.add (acc l) (mean (i + l)))
  let i := stop N i m
  let rows := (List.range' i (m - i)).map fun i =>
    let sum := (List.range r).foldl (fun s t => o.add s (o.mul (U (t * m + i)) (Brm (t * n + j)))) o.zero
    (j * lda + i, o.add sum (mean i))
  quads ++ vectors ++ rows

def ncsrReconstructRM (group : Nat → α) (m n lda : Nat) (U Brm mean : Nat → α) : Nat → α :=
  if m < 1 ∨ n < 1 ∨ lda < m ∨ kSvdMaxN < n then group
  else Lines.storeAll ((List.range n).flatMap (reconstructColumn o m n lda (min m n) U Brm mean)) group

/-- The three kernels one after the other, as the batch path runs them. -/
def rowMajor (U mean : Nat → α) (m n lda : Nat) (sigma : α) (distance : Option (Nat → α))
    (B weights group : Nat → α) : Nat → α :=
  let r := min m n
  let B := ncsrProjectRM o U group m n lda B
  let B := ncsrFinishCodesRM o B r n sigma distance group m lda weights
  ncsrReconstructRM o group m n lda U B mean

end Code

/-! ## What a row becomes -/

section Rows

variable {α : Type} {N : Nat} (o : Ops α N)

/-- The code that takes the place of code `j` of a row. -/
def codeRow (n : Nat) (w : Nat → α) (inverse ti : α) (row : Nat → α) (j : Nat) : α :=
  let beta := o.mul (weightedSum o n w row) inverse
  let t := if o.isFinite ti && o.lt o.zero ti then ti else o.zero
  o.add (shrink o t (o.sub (row j) beta)) beta

variable {o} {n : Nat} {w w' row row' : Nat → α} {inverse ti : α}

theorem weightedSum_congr (hw : ∀ j < n, w j = w' j) (hrow : ∀ j < n, row j = row' j) :
    weightedSum o n w row = weightedSum o n w' row' := by
  have hstop : stop N 0 n ≤ n := stop_le (Nat.zero_le n)
  have hvectors : (starts N 0 n).foldl (fun s j =>
      o.add s (o.reduceSum fun l : Fin N => o.mul (w (j + l)) (row (j + l)))) o.zero =
      (starts N 0 n).foldl (fun s j =>
        o.add s (o.reduceSum fun l : Fin N => o.mul (w' (j + l)) (row' (j + l)))) o.zero := by
    refine List.foldl_ext _ _ _ fun s j hj => congrArg _ (congrArg _ (funext fun l => ?_))
    have hj := (mem_starts hj).2.1
    have := l.isLt
    rw [hw (j + l) (by omega), hrow (j + l) (by omega)]
  unfold weightedSum
  dsimp only
  rw [hvectors]
  refine List.foldl_ext _ _ _ fun s j hj => ?_
  have hj := List.mem_range'_1.mp hj
  rw [hw j (by omega), hrow j (by omega)]

theorem rowTau_congr {sigma2 : α} (hw : ∀ j < n, w j = w' j) (hrow : ∀ j < n, row j = row' j) :
    rowTau o n w inverse sigma2 row = rowTau o n w' inverse sigma2 row' := by
  have hmean : (List.range n).foldl (fun s col => o.add s (o.mul (w col) (row col))) o.zero =
      (List.range n).foldl (fun s col => o.add s (o.mul (w' col) (row' col))) o.zero := by
    refine List.foldl_ext _ _ _ fun s j hj => ?_
    rw [hw j (List.mem_range.mp hj), hrow j (List.mem_range.mp hj)]
  have hvariance : ∀ mean, (List.range n).foldl (fun v col =>
      o.add v (o.mul (o.sub (row col) mean) (o.sub (row col) mean))) o.zero =
      (List.range n).foldl (fun v col =>
        o.add v (o.mul (o.sub (row' col) mean) (o.sub (row' col) mean))) o.zero := by
    intro mean
    refine List.foldl_ext _ _ _ fun v j hj => ?_
    rw [hrow j (List.mem_range.mp hj)]
  unfold rowTau
  dsimp only
  rw [hmean, hvariance]

theorem codeRow_congr (hw : ∀ j < n, w j = w' j) (hrow : ∀ j < n, row j = row' j) {j : Nat} (hj : j < n) :
    codeRow o n w inverse ti row j = codeRow o n w' inverse ti row' j := by
  unfold codeRow
  dsimp only
  rw [weightedSum_congr hw hrow, hrow j hj]

/-- Centring, threshold and moving back, each in place. -/
theorem centralizeRow_apply {B : Nat → α} {base : Nat} (hn : 1 ≤ n) (i : Nat) :
    centralizeRow o B base n w inverse ti i =
      if base ≤ i ∧ i < base + n then codeRow o n w inverse ti (fun j => B (base + j)) (i - base)
      else B i := by
  unfold centralizeRow softThreshold codeRow
  dsimp only
  rw [if_neg (show ¬n < 1 by omega), sweep_apply]
  split
  · rename_i hi
    rw [sweep_apply, if_pos hi, sweep_apply, if_pos hi, Nat.add_sub_cancel' hi.1]
  · rename_i hi
    rw [sweep_apply, if_neg hi, sweep_apply, if_neg hi]

/-! ### Strided copies -/

theorem gatherStrided_apply {dst src : Nat → α} {stride j : Nat} (hj : j < n) :
    gatherStrided N dst src stride n j = src (j * stride) := by
  rw [gatherStrided, sweep_apply, if_pos (by omega), Nat.sub_zero]

theorem scatterStrided_apply {dst src : Nat → α} {first stride i j : Nat} (hfirst : first < stride)
    (hi : i < stride) (hj : j < n) :
    scatterStrided N dst first stride n src (j * stride + i) =
      if i = first then src j else dst (j * stride + i) := by
  have hvectors : ((starts N 0 n).flatMap fun j =>
      (List.finRange N).map fun l : Fin N => ((j + l) * stride + first, src (j + l))) =
      (List.range' 0 (stop N 0 n)).map fun j => (j * stride + first, src j) := by
    have hlanes : ∀ j, ((List.finRange N).map fun l : Fin N => ((j + l) * stride + first, src (j + l))) =
        (List.range' j N).map fun j => (j * stride + first, src j) := by
      intro j
      rw [range'_eq_finRange, List.map_map]
      rfl
    rw [List.flatMap_congr fun j _ => hlanes j, ← List.map_flatMap, starts_flatMap, Nat.sub_zero]
  have hall := range_tiles (Nat.zero_le (stop N 0 n)) (stop_le (Nat.zero_le n))
  rw [Nat.sub_zero, Nat.sub_zero] at hall
  unfold scatterStrided
  rw [hvectors, ← List.map_append, hall, ← List.range_eq_range']
  exact Lines.storeAll_column hj hi hfirst

end Rows

/-! ## The weights -/

section Weights

variable {α : Type} {N : Nat} {o : Ops α N} {colDist : Option (Nat → α)} {group weights : Nat → α}
  {m n lda : Nat} {h : α}

/-- The vectors of the exponential reach every weight. -/
theorem exp_vectors (f w : Nat → α) (hN : 0 < N) {i : Nat} (hi : i < n) :
    (List.range ((n + N - 1) / N)).foldl (fun (w : Nat → α) k i =>
      let col := k * N
      let count := if n - col < N then n - col else N
      if col ≤ i ∧ i < col + count then f i else w i) w i = f i := by
  -- after `k` vectors the weights below `k * N` are final
  have key : ∀ k, i < k * N → (List.range k).foldl (fun (w : Nat → α) k i =>
      let col := k * N
      let count := if n - col < N then n - col else N
      if col ≤ i ∧ i < col + count then f i else w i) w i = f i := by
    intro k
    induction k with
    | zero => intro hk; omega
    | succ k ih =>
      intro hk
      have hsucc : (k + 1) * N = k * N + N := by ring
      rw [List.range_succ, List.foldl_append, List.foldl_cons, List.foldl_nil]
      dsimp only
      by_cases hlate : k * N ≤ i
      · rw [if_pos]
        split <;> omega
      · rw [if_neg (by omega)]
        exact ih (by omega)
  refine key _ ?_
  have hdiv := Nat.div_add_mod (n + N - 1) N
  have hmod := Nat.mod_lt (n + N - 1) hN
  rw [Nat.mul_comm] at hdiv
  omega

/-- Either the call is refused, or every weight is an exponential and the sum is theirs; what the
array held before does not matter. -/
theorem ncsrGroupWeights_cases (o : Ops α N) (colDist : Option (Nat → α)) (group : Nat → α)
    (m n lda : Nat) (h : α) (hN : 0 < N) :
    (∀ weights : Nat → α, ncsrGroupWeights o colDist group m n lda h weights = (weights, o.zero)) ∨
      ∃ e : Nat → α, ∀ weights : Nat → α,
        (∀ j < n, (ncsrGroupWeights o colDist group m n lda h weights).1 j = o.exp (e j)) ∧
        (ncsrGroupWeights o colDist group m n lda h weights).2 =
          (List.range n).foldl (fun sum j => o.add sum (o.exp (e j))) o.zero := by
  unfold ncsrGroupWeights
  split
  · exact .inl fun _ => rfl
  · refine .inr ⟨fun j => o.mul (columnDistance o colDist group m lda j) (o.div o.minusOne h), fun weights => ?_⟩
    have hvector := fun j (hj : j < n) => exp_vectors (n := n)
      (fun j => o.exp (o.mul (columnDistance o colDist group m lda j) (o.div o.minusOne h))) weights hN hj
    refine ⟨hvector, List.foldl_ext _ _ _ fun s j hj => ?_⟩
    rw [← hvector j (List.mem_range.mp hj)]

theorem usable_congr (o : Ops α N) (colDist : Option (Nat → α)) (group : Nat → α) (m n lda : Nat) (h : α)
    (hN : 0 < N) (weights weights' : Nat → α) :
    (usable o n (ncsrGroupWeights o colDist group m n lda h weights)).2 =
        (usable o n (ncsrGroupWeights o colDist group m n lda h weights')).2 ∧
      ∀ j < n, (usable o n (ncsrGroupWeights o colDist group m n lda h weights)).1 j =
        (usable o n (ncsrGroupWeights o colDist group m n lda h weights')).1 j := by
  cases ncsrGroupWeights_cases o colDist group m n lda h hN with
  | inl hrefused =>
    rw [hrefused, hrefused, usable, usable, if_neg (by simp [o.zero_not_lt]), if_neg (by simp [o.zero_not_lt])]
    refine ⟨rfl, fun j hj => ?_⟩
    dsimp only
    rw [if_pos hj, if_pos hj]
  | inr hexp =>
    obtain ⟨e, he⟩ := hexp
    obtain ⟨hweight, hsum⟩ := he weights
    obtain ⟨hweight', hsum'⟩ := he weights'
    unfold usable
    rw [hsum, hsum']
    split
    · exact ⟨hsum.trans hsum'.symm, fun j hj => (hweight j hj).trans (hweight' j hj).symm⟩
    · refine ⟨rfl, fun j hj => ?_⟩
      dsimp only
      rw [if_pos hj, if_pos hj]

/-- The float of a small count is the sum of as many ones. -/
def CountsOnes (o : Ops α N) : Prop :=
  ∀ k, 1 ≤ k → k ≤ kSvdMaxN → (List.range k).foldl (fun s _ => o.add s o.one) o.zero = o.ofNat k

/-- Clamping the weights and adding them again changes neither them nor their sum. -/
theorem codeWeights_eq (o : Ops α N) (colDist : Option (Nat → α)) (group : Nat → α) (m lda : Nat) (h : α)
    (weights : Nat → α) (hN : 0 < N) (hexp : ∀ x, o.lt (o.exp x) o.zero = false) (hones : CountsOnes o)
    (hn : 1 ≤ n) (hmax : n ≤ kSvdMaxN) :
    let w := usable o n (ncsrGroupWeights o colDist group m n lda h weights)
    (codeWeights o n (some w.1)).2 = w.2 ∧ ∀ j < n, (codeWeights o n (some w.1)).1 j = w.1 j := by
  have hcases := ncsrGroupWeights_cases o colDist group m n lda h hN
  dsimp only
  unfold usable
  generalize hg : ncsrGroupWeights o colDist group m n lda h weights = g
  by_cases hsum : o.lt o.zero g.2
  · rw [if_pos hsum]
    cases hcases with
    | inl hrefused =>
      rw [← hg, hrefused, o.zero_not_lt] at hsum
      exact absurd hsum (by decide)
    | inr hcases =>
      obtain ⟨e, he⟩ := hcases
      obtain ⟨hweight, htotal⟩ := he weights
      rw [hg] at hweight htotal
      have hmax : ∀ j < n, o.max (g.1 j) o.zero = g.1 j := by
        intro j hj
        rw [hweight j hj, Ops.max, hexp]
        rfl
      have hfold : (List.range n).foldl (fun s j => o.add s (o.max (g.1 j) o.zero)) o.zero = g.2 := by
        rw [htotal]
        refine List.foldl_ext _ _ _ fun s j hj => ?_
        rw [hmax j (List.mem_range.mp hj), hweight j (List.mem_range.mp hj)]
      unfold codeWeights
      dsimp only
      rw [hfold, if_pos hsum]
      exact ⟨rfl, hmax⟩
  · rw [if_neg hsum]
    have hone : o.max o.one o.zero = o.one := by
      rw [Ops.max, o.one_not_lt]
      rfl
    have hfold : (List.range n).foldl (fun s j =>
        o.add s (o.max (if j < n then o.one else g.1 j) o.zero)) o.zero = o.ofNat n := by
      rw [← hones n hn hmax]
      refine List.foldl_ext _ _ _ fun s j hj => ?_
      rw [if_pos (List.mem_range.mp hj), hone]
    unfold codeWeights
    dsimp only
    rw [hfold]
    split
    · refine ⟨rfl, fun j hj => ?_⟩
      dsimp only
      rw [if_pos hj, hone]
    · refine ⟨rfl, fun j hj => ?_⟩
      rw [if_pos hj]

end Weights

/-! ## The codes -/

section Codes

variable {α : Type} {N : Nat} {o : Ops α N} {r n : Nat}

/-- A pass over rows that takes each row from itself alone. -/
theorem foldl_rows {σ : Type} (get : σ → Nat → Nat → α) (out : Nat → (Nat → α) → Nat → α) (step : σ → Nat → σ)
    (hout : ∀ i row row', (∀ j < n, row j = row' j) → ∀ j < n, out i row j = out i row' j)
    (hstep : ∀ s, ∀ k < r, ∀ i < r, ∀ j < n,
      get (step s k) i j = if i = k then out k (get s k) j else get s i j) (s : σ) :
    ∀ i < r, ∀ j < n, get ((List.range r).foldl step s) i j = out i (get s i) j := by
  -- the rows before `k` are done, the others are as they were
  have key : ∀ k ≤ r, ∀ i < r, ∀ j < n, get ((List.range k).foldl step s) i j =
      if i < k then out i (get s i) j else get s i j := by
    intro k
    induction k with
    | zero => intro _ i _ j _; rw [if_neg (by omega)]; rfl
    | succ k ih =>
      intro hk i hi j hj
      rw [List.range_succ, List.foldl_append, List.foldl_cons, List.foldl_nil, hstep _ k (by omega) i hi j hj]
      by_cases hik : i = k
      · subst hik
        rw [if_pos rfl, if_pos (by omega)]
        refine hout i _ _ (fun j hj => ?_) j hj
        rw [ih (by omega) i hi j hj, if_neg (by omega)]
      · rw [if_neg hik, ih (by omega) i hi j hj]
        congr 1
        simp only [eq_iff_iff]
        omega
  intro i hi j hj
  rw [key r (Nat.le_refl r) i hi j hj, if_pos hi]

/-- The same codes, by columns and by rows. -/
def Transposed (r n : Nat) (B Brm : Nat → α) : Prop := ∀ i < r, ∀ j < n, B (i + j * r) = Brm (i * n + j)

/-- The thresholds of the rows of `B`. -/
theorem taus_apply {B row taus : Nat → α} (f : (Nat → α) → α)
    (hf : ∀ row row' : Nat → α, (∀ j < n, row j = row' j) → f row = f row') {i : Nat} (hi : i < r) :
    ((List.range r).foldl (fun (s : (Nat → α) × (Nat → α)) i =>
      let row := gatherStrided N s.1 (fun x => B (i + x)) r n
      (row, Function.update s.2 i (f row))) (row, taus)).2 i = f fun j => B (i + j * r) := by
  have key : ∀ k, i < k → ((List.range k).foldl (fun (s : (Nat → α) × (Nat → α)) i =>
      let row := gatherStrided N s.1 (fun x => B (i + x)) r n
      (row, Function.update s.2 i (f row))) (row, taus)).2 i = f fun j => B (i + j * r) := by
    intro k
    induction k with
    | zero => intro hk; omega
    | succ k ih =>
      intro hk
      rw [List.range_succ, List.foldl_append, List.foldl_cons, List.foldl_nil]
      dsimp only
      by_cases hik : i = k
      · subst hik
        rw [Function.update_self]
        exact hf _ _ fun j hj => gatherStrided_apply hj
      · rw [Function.update_of_ne hik]
        exact ih (by omega)
  exact key r hi

theorem ncsrCentralizeCodes_apply {B row : Nat → α} {tau : α} {w taus : Nat → α} (hr : 1 ≤ r) (hn : 1 ≤ n)
    (hrmax : r ≤ kSvdMaxN) (hnmax : n ≤ kSvdMaxN) :
    ∀ i < r, ∀ j < n, ncsrCentralizeCodes o B r n r tau (some w) (some taus) row (i + j * r) =
      codeRow o n (codeWeights o n (some w)).1 (o.div o.one (codeWeights o n (some w)).2) (taus i)
        (fun j => B (i + j * r)) j := by
  unfold ncsrCentralizeCodes
  rw [if_neg (by omega)]
  dsimp only
  refine foldl_rows (fun (s : (Nat → α) × (Nat → α)) i j => s.1 (i + j * r))
    (fun i row j => codeRow o n (codeWeights o n (some w)).1 (o.div o.one (codeWeights o n (some w)).2)
      (taus i) row j) _ (fun i row row' h j hj => codeRow_congr (fun _ _ => rfl) h hj) ?_ (B, row)
  intro s k hk i hi j hj
  dsimp only
  rw [Nat.add_comm i, scatterStrided_apply hk hi hj]
  split
  · rw [centralizeRow_apply hn, if_pos (by omega), Nat.sub_zero]
    refine codeRow_congr (fun _ _ => rfl) (fun j hj => ?_) hj
    rw [Nat.zero_add, gatherStrided_apply hj]
  · rfl

theorem ncsrFinishCodesRM_apply {Brm group weights : Nat → α} {sigma : α} {colDist : Option (Nat → α)}
    {m lda : Nat} (hn : 1 ≤ n) (hsigma : ¬(o.lt o.zero sigma = false ∨ o.isFinite sigma = false))
    (hr : 1 ≤ r) (hrmax : r ≤ kSvdMaxN) (hnmax : n ≤ kSvdMaxN) :
    let w := usable o n (ncsrGroupWeights o colDist group m n lda (bandwidth o m sigma) weights)
    ∀ i < r, ∀ j < n, ncsrFinishCodesRM o Brm r n sigma colDist group m lda weights (i * n + j) =
      codeRow o n w.1 (o.div o.one w.2)
        (rowTau o n w.1 (o.div o.one w.2) (o.mul sigma sigma) fun j => Brm (i * n + j))
        (fun j => Brm (i * n + j)) j := by
  intro w
  unfold ncsrFinishCodesRM
  rw [if_neg (by omega), if_neg hsigma]
  dsimp only
  refine foldl_rows (fun (M : Nat → α) i j => M (i * n + j))
    (fun _ row j => codeRow o n w.1 (o.div o.one w.2)
      (rowTau o n w.1 (o.div o.one w.2) (o.mul sigma sigma) row) row j) _ ?_ ?_ Brm
  · intro i row row' h j hj
    rw [rowTau_congr (fun _ _ => rfl) h]
    exact codeRow_congr (fun _ _ => rfl) h hj
  · intro M k hk i hi j hj
    rw [centralizeRow_apply hn]
    by_cases hik : i = k
    · subst hik
      rw [if_pos (by omega), if_pos rfl, Nat.add_sub_cancel_left]
    · rw [if_neg ?_, if_neg hik]
      intro hin
      have hrow := congrArg (· / n) (show i * n + j = k * n + (i * n + j - k * n) by omega)
      rw [Lines.div_row hj, Lines.div_row (by omega)] at hrow
      exact hik hrow

/-- The two passes over the codes keep them transposed. -/
theorem finish_transposed {m : Nat} (lda : Nat) {B Brm : Nat → α} (group : Nat → α) (sigma : α)
    (distance : Option (Nat → α)) (locals : Locals α) (weights : Nat → α) (hN : 0 < N) (hexp : ∀ x, o.lt (o.exp x) o.zero = false) (hones : CountsOnes o)
    (hn : 1 ≤ n) (hmax : n ≤ kSvdMaxN) (hB : Transposed (min m n) n B Brm) :
    Transposed (min m n) n (finishNcsrCodes o group m n lda sigma distance B locals)
      (ncsrFinishCodesRM o Brm (min m n) n sigma distance group m lda weights) := by
  intro i hi j hj
  by_cases hsigma : o.lt o.zero sigma = false ∨ o.isFinite sigma = false
  · rw [finishNcsrCodes, if_pos hsigma, ncsrFinishCodesRM, if_neg (by omega), if_pos hsigma]
    exact hB i hi j hj
  · rw [ncsrFinishCodesRM_apply hn hsigma (by omega) (by omega) hmax i hi j hj, finishNcsrCodes, if_neg hsigma]
    dsimp only
    rw [ncsrCentralizeCodes_apply (by omega) hn (by omega) hmax i hi j hj, taus_apply _
      (fun _ _ h => rowTau_congr (fun _ _ => rfl) h) hi]
    obtain ⟨hsum, hweights⟩ := codeWeights_eq o distance group m lda (bandwidth o m sigma)
      locals.weights hN hexp hones hn hmax
    obtain ⟨hsame, hfill⟩ := usable_congr o distance group m n lda (bandwidth o m sigma) hN
      locals.weights weights
    rw [hsum, hsame, rowTau_congr hfill fun j hj => hB i hi j hj]
    exact codeRow_congr (fun j hj => (hweights j hj).trans (hfill j hj)) (fun j hj => hB i hi j hj) hj

end Codes

/-! ## The products -/

section Products

variable {α : Type} {N : Nat} {o : Ops α N} {m n lda : Nat} {U Brm group mean : Nat → α}

/-- Four columns side by side, each the chain of `GemmTN`. -/
theorem project_quad (t : Nat) (b : Nat → α) (q : Fin 4) :
    ((List.range' (stop N 0 m) (m - stop N 0 m)).foldl (fun (s : Fin 4 → α) i q =>
      o.add (s q) (o.mul (U ((t + q) * m + i)) (b i))) fun q => o.reduceSum
        ((starts N 0 m).foldl (fun (acc : Fin 4 → Fin N → α) i q l =>
          o.mulAdd (U ((t + q) * m + (i + l))) (b (i + l)) (acc q l)) (fun _ _ => o.zero) q)) q =
      Gemm.quadChain o.toOps m (fun i => U ((t + q) * m + i)) b := by
  have hvectors := foldl_at (fun (q : Fin 4) (acc : Fin N → α) i l =>
    o.mulAdd (U ((t + q) * m + (i + l))) (b (i + l)) (acc l)) (fun _ _ => o.zero) (starts N 0 m) q
  rw [Gemm.quadChain, ← hvectors]
  exact (List.foldl_hom (fun s : Fin 4 → α => s q) fun _ _ => rfl).symm

theorem projectColumn_eq (b : Nat → α) (r j : Nat) :
    projectColumn o U b m n r j = (List.range r).map fun t =>
      (t * n + j, Gemm.entryTN o.toOps m (decide (r - r % 4 ≤ t)) (fun i => U (t * m + i)) b) := by
  have hstop : stop 4 0 r = r - r % 4 := by
    unfold stop
    omega
  have hsplit := range_tiles (show 0 ≤ stop 4 0 r by omega) (show stop 4 0 r ≤ r by omega)
  rw [Nat.sub_zero, Nat.sub_zero] at hsplit
  have hrun : List.range' 0 (stop 4 0 r) = (starts 4 0 r).flatMap fun t => List.range' t 4 := by
    rw [starts_flatMap, Nat.sub_zero]
  rw [projectColumn, List.range_eq_range', ← hsplit, List.map_append]
  refine congrArg₂ _ ?_ ?_
  · have hquad : ∀ t ∈ starts 4 0 r, ((List.finRange 4).map fun q : Fin 4 => ((t + q) * n + j,
        (List.range' (stop N 0 m) (m - stop N 0 m)).foldl (fun (s : Fin 4 → α) i q =>
          o.add (s q) (o.mul (U ((t + q) * m + i)) (b i))) (fun q => o.reduceSum
            ((starts N 0 m).foldl (fun (acc : Fin 4 → Fin N → α) i q l =>
              o.mulAdd (U ((t + q) * m + (i + l))) (b (i + l)) (acc q l)) (fun _ _ => o.zero) q)) q)) =
        (List.range' t 4).map fun t =>
          (t * n + j, Gemm.entryTN o.toOps m (decide (r - r % 4 ≤ t)) (fun i => U (t * m + i)) b) := by
      intro t ht
      obtain ⟨-, ht, x, rfl⟩ := mem_starts ht
      rw [range'_eq_finRange (0 + x * 4) 4, List.map_map]
      refine List.map_congr_left fun q _ => ?_
      have := q.isLt
      rw [Function.comp_apply, Gemm.entryTN, decide_eq_false (by omega), project_quad]
      rfl
    rw [hrun, List.map_flatMap]
    exact List.flatMap_congr hquad
  · refine List.map_congr_left fun t ht => ?_
    have ht := List.mem_range'_1.mp ht
    rw [Gemm.entryTN, decide_eq_true (by omega)]
    rfl

/-- `Brm` holds the codes `GemmTN` computes, transposed. -/
theorem ncsrProjectRM_apply (hm : 1 ≤ m) (hn : 1 ≤ n) (hlda : m ≤ lda) (hmax : n ≤ kSvdMaxN) :
    ∀ t < min m n, ∀ j < n, ncsrProjectRM o U group m n lda Brm (t * n + j) =
      Gemm.entryTN o.toOps m (decide (min m n - min m n % 4 ≤ t)) (fun i => U (t * m + i))
        fun i => group (j * lda + i) := by
  intro t ht j hj
  unfold ncsrProjectRM
  rw [if_neg (by omega), List.flatMap_congr fun j _ => projectColumn_eq _ _ j,
    Lines.storeAll_of_mem fun x => Gemm.entryTN o.toOps m (decide (min m n - min m n % 4 ≤ x / n))
      (fun i => U (x / n * m + i)) fun i => group (x % n * lda + i)]
  · rw [Lines.div_row hj, Lines.mod_row hj]
  · intro s hs
    obtain ⟨j, hj, hs⟩ := List.mem_flatMap.mp hs
    obtain ⟨t, -, rfl⟩ := List.mem_map.mp hs
    rw [List.mem_range] at hj
    rw [Lines.div_row hj, Lines.mod_row hj]
  · rw [List.map_flatMap, List.mem_flatMap]
    refine ⟨j, List.mem_range.mpr hj, ?_⟩
    rw [List.map_map, List.mem_map]
    exact ⟨t, List.mem_range.mpr ht, rfl⟩

variable (o m n U Brm mean) in
/-- A pixel of patch `j`. -/
def pixel (j i : Nat) : α :=
  o.add (Gemm.entryNN o.toOps m (min m n) i (fun t => U (t * m + i)) fun t => Brm (t * n + j)) (mean i)

/-- Runs of complete vectors are pixels. -/
theorem fused_pixels {lo len : Nat} (j : Nat) (h : lo + len ≤ m / N * N) :
    ((List.range' lo len).map fun i => (j * lda + i,
      o.add (Gemm.fused o.toOps (min m n) (fun t => U (t * m + i)) fun t => Brm (t * n + j)) (mean i))) =
      (List.range' lo len).map fun i => (j * lda + i, pixel o m n U Brm mean j i) := by
  refine List.map_congr_left fun i hi => ?_
  have hi := List.mem_range'_1.mp hi
  rw [pixel, Gemm.entryNN, if_pos (by omega)]

theorem reconstructColumn_eq (hN : 0 < N) (j : Nat) :
    reconstructColumn o m n lda (min m n) U Brm mean j =
      (List.range m).map fun i => (j * lda + i, pixel o m n U Brm mean j i) := by
  have hle4 : stop (4 * N) 0 m ≤ m := stop_le (Nat.zero_le m)
  have h4 : stop (4 * N) 0 m = m / (4 * N) * 4 * N := by
    rw [stop, Nat.sub_zero, Nat.zero_add, Nat.mul_assoc]
  have hle : stop N (stop (4 * N) 0 m) m ≤ m := stop_le hle4
  have hge : stop (4 * N) 0 m ≤ stop N (stop (4 * N) 0 m) m := le_stop
  have hstop : stop N (stop (4 * N) 0 m) m = m / N * N := by
    rw [h4] at hle4 ⊢
    exact stop_zero_mul hN hle4
  have hsplit : List.range m = List.range' 0 (stop (4 * N) 0 m) ++
      (List.range' (stop (4 * N) 0 m) (stop N (stop (4 * N) 0 m) m - stop (4 * N) 0 m) ++
        List.range' (stop N (stop (4 * N) 0 m) m) (m - stop N (stop (4 * N) 0 m) m)) := by
    have h := range_tiles (Nat.zero_le (stop (4 * N) 0 m)) hle4
    rw [Nat.sub_zero, Nat.sub_zero] at h
    rw [range_tiles hge hle, h, List.range_eq_range']
  rw [reconstructColumn, hsplit, List.map_append, List.map_append, List.append_assoc]
  refine congrArg₂ _ ?_ (congrArg₂ _ ?_ ?_)
  · rw [← fused_pixels j (by omega), ← Nat.sub_zero (stop (4 * N) 0 m), ← starts_flatMap, List.map_flatMap]
    refine List.flatMap_congr fun i _ => ?_
    rw [← finRange_flatMap]
    refine List.flatMap_congr fun q _ => List.map_congr_left fun l _ => ?_
    refine congrArg (Prod.mk _) (congrArg (fun s => o.add s _) ?_)
    exact (List.foldl_hom (fun acc : Fin 4 → Fin N → α => acc q l) fun _ _ => rfl).symm
  · rw [← fused_pixels j (by omega), ← starts_flatMap, List.map_flatMap]
    refine List.flatMap_congr fun i _ => ?_
    rw [range'_eq_finRange, List.map_map]
    refine List.map_congr_left fun l _ => ?_
    refine congrArg (Prod.mk _) (congrArg (fun s => o.add s _) ?_)
    exact (List.foldl_hom (fun acc : Fin N → α => acc l) fun _ _ => rfl).symm
  · refine List.map_congr_left fun i hi => ?_
    have hi := List.mem_range'_1.mp hi
    rw [pixel, Gemm.entryNN, if_neg (by omega)]
    rfl

/-- Every pixel of the group, and nothing else. -/
theorem ncsrReconstructRM_apply (hN : 0 < N) (hm : 1 ≤ m) (hn : 1 ≤ n) (hlda : m ≤ lda) (hmax : n ≤ kSvdMaxN)
    (x : Nat) : ncsrReconstructRM o group m n lda U Brm mean x =
      if x / lda < n ∧ x % lda < m then pixel o m n U Brm mean (x / lda) (x % lda) else group x := by
  have hvalue : ∀ s ∈ (List.range n).flatMap fun j =>
      (List.range m).map fun i => (j * lda + i, pixel o m n U Brm mean j i),
      s.2 = pixel o m n U Brm mean (s.1 / lda) (s.1 % lda) := by
    intro s hs
    obtain ⟨j, -, hs⟩ := List.mem_flatMap.mp hs
    obtain ⟨i, hi, rfl⟩ := List.mem_map.mp hs
    rw [List.mem_range] at hi
    rw [Lines.div_row (by omega), Lines.mod_row (by omega)]
  unfold ncsrReconstructRM
  rw [if_neg (by omega), List.flatMap_congr fun j _ => reconstructColumn_eq hN j,
    Lines.storeAll_apply (fun x => pixel o m n U Brm mean (x / lda) (x % lda)) hvalue]
  congr 1
  simp only [List.map_flatMap, List.map_map, List.mem_flatMap, List.mem_map, List.mem_range,
    Function.comp_apply, eq_iff_iff]
  constructor
  · rintro ⟨j, hj, i, hi, rfl⟩
    rw [Lines.div_row (by omega), Lines.mod_row (by omega)]
    exact ⟨hj, hi⟩
  · rintro ⟨hj, hi⟩
    exact ⟨x / lda, hj, x % lda, hi, Nat.div_add_mod' x lda⟩

/-- The mean is added to every pixel. -/
theorem groupCenterAdd_apply (hm : 1 ≤ m) (hn : 1 ≤ n) (hlda : m ≤ lda) (x : Nat) :
    groupCenterAdd o group m n lda mean x =
      if x / lda < n ∧ x % lda < m then o.add (group x) (mean (x % lda)) else group x := by
  have key : ∀ k, (List.range k).foldl (fun group j =>
      sweep N (j * lda) m (fun i v => o.add v (mean i)) group) group x =
      if x / lda < k ∧ x % lda < m then o.add (group x) (mean (x % lda)) else group x := by
    intro k
    induction k with
    | zero => rw [if_neg fun h => Nat.not_lt_zero _ h.1]; rfl
    | succ k ih =>
      rw [List.range_succ, List.foldl_append, List.foldl_cons, List.foldl_nil, sweep_apply, ih]
      by_cases hx : k * lda ≤ x ∧ x < k * lda + m
      · obtain ⟨i, rfl⟩ : ∃ i, x = k * lda + i := ⟨x - k * lda, by omega⟩
        rw [if_pos hx, Lines.div_row (by omega), Lines.mod_row (by omega), if_neg (by omega),
          if_pos (by omega), Nat.add_sub_cancel_left]
      · rw [if_neg hx]
        congr 1
        rw [eq_iff_iff]
        have hdiv := Nat.div_add_mod' x lda
        constructor
        · rintro ⟨hlt, hmod⟩
          exact ⟨by omega, hmod⟩
        · rintro ⟨hlt, hmod⟩
          refine ⟨?_, hmod⟩
          have hne : x / lda ≠ k := by
            rintro rfl
            omega
          omega
  unfold groupCenterAdd
  rw [if_neg (by omega)]
  exact key n

end Products

/-! ## The two paths -/

section Paths

variable {α : Type} {N : Nat}

/-- Whatever the buffers and the local arrays of the two paths hold before, the row-major kernels
leave in the group what the column-major filter leaves there, and that one does not fault. -/
theorem columnMajor_eq_rowMajor (o : Ops α N) (hN : 0 < N)
    (hcomm : ∀ x y z, o.mulAdd x y z = o.mulAdd y x z) (hexp : ∀ x, o.lt (o.exp x) o.zero = false)
    (hones : CountsOnes o) (avx2 : Bool) (U mean : Nat → α) (m n lda : Nat) (hlda : m ≤ lda)
    (hmax : n ≤ kSvdMaxN) (sigma : α) (distance : Option (Nat → α)) (B Brm weights group : Nat → α)
    (locals : Locals α) :
    columnMajor o avx2 U mean m n lda sigma distance B locals group =
      some (rowMajor o U mean m n lda sigma distance Brm weights group) := by
  by_cases hempty : m < 1 ∨ n < 1
  · rw [columnMajor, Gemm.gemmTN, if_pos (by omega), Option.bind_eq_bind, Option.bind_some]
    dsimp only
    rw [Gemm.gemmNN, if_pos (by omega), Option.bind_some, groupCenterAdd, if_pos (by omega), rowMajor,
      ncsrReconstructRM, if_pos (by omega)]
    rfl
  · have hm : 1 ≤ m := by omega
    have hn : 1 ≤ n := by omega
    obtain ⟨codes, hcodes, -, -, hstore⟩ := Gemm.gemmTN_eq o.toOps m lda (min m n) hm hn
      (show 1 ≤ min m n by omega) (present U) (present group) (fun t i => U (t * m + i))
      (fun j i => group (j * lda + i)) (Nat.le_refl _) (fun _ _ _ _ => rfl) (fun _ _ _ _ => rfl)
    have hproject : Transposed (min m n) n (Lines.storeAll codes B) (ncsrProjectRM o U group m n lda Brm) := by
      intro i hi j hj
      rw [ncsrProjectRM_apply hm hn hlda hmax i hi j hj, Nat.add_comm]
      exact (hstore B).1 j hj i hi
    have hfinish := finish_transposed lda group sigma distance locals weights hN hexp hones hn hmax hproject
    obtain ⟨entries, hentries, -, -, hstore'⟩ := Gemm.gemmNN_eq o.toOps hN hcomm (min m n) m (min m n) lda hm hn
      (present U) (present (finishNcsrCodes o group m n lda sigma distance (Lines.storeAll codes B) locals)) avx2
      (fun i t => U (t * m + i))
      (fun j t => ncsrFinishCodesRM o (ncsrProjectRM o U group m n lda Brm) (min m n) n sigma distance
        group m lda weights (t * n + j)) hlda
      (fun i _ t _ => by rw [Nat.add_comm]; rfl) (fun j hj t ht => congrArg some (hfinish t ht j hj))
    rw [columnMajor, hcodes, Option.bind_eq_bind, Option.bind_some]
    dsimp only
    rw [hentries, Option.bind_some]
    refine congrArg some (funext fun x => ?_)
    rw [rowMajor, ncsrReconstructRM_apply hN hm hn hlda hmax, groupCenterAdd_apply hm hn hlda]
    split
    · rename_i hx
      have hentry := (hstore' group).1 (x / lda) hx.1 (x % lda) hx.2
      rw [Nat.div_add_mod'] at hentry
      dsimp only at hentry
      rw [hentry, if_neg (show ¬min m n = 0 by omega)]
      rfl
    · rename_i hx
      refine (hstore' group).2 x ?_
      rintro j hj i hi rfl
      rw [Lines.div_row (by omega), Lines.mod_row (by omega)] at hx
      exact hx ⟨hj, hi⟩

attribute [local instance] Numerals.single

theorem one_not_lt_zero : decide ((1 : Int) < 0) = false := rfl

theorem zero_not_lt_zero : decide ((0 : Int) < 0) = false := rfl

/-- Integers, with vectors of one lane. -/
def intOps : Ops Int 1 where
  zero := 0
  add x y := x + y
  mul x y := x * y
  mulAdd x y z := x * y + z
  reduceSum v := v 0
  sub x y := x - y
  div x y := x / y
  sqrt x := x
  exp x := if 0 ≤ x then 1 else 0
  abs x := if x < 0 then -x else x
  copySign x y := if y < 0 then -x else x
  lt x y := decide (x < y)
  isFinite _ := true
  ofNat n := n
  one := 1
  minusOne := -1
  two := 2
  epsilon := 1
  mapConstant := 0
  zero_not_lt := zero_not_lt_zero
  one_not_lt := one_not_lt_zero

theorem intOps_countsOnes : CountsOnes intOps := by
  intro k _ _
  induction k with
  | zero => rfl
  | succ k ih =>
    rw [List.range_succ, List.foldl_append]
    cases k with
    | zero => rfl
    | succ k =>
      rw [ih (by omega) (by omega)]
      rfl

/-- Two patches of three pixels with a row of padding. -/
theorem columnMajor_eq_rowMajor_three :
    columnMajor intOps true (fun x => x) (fun x => x) 3 2 4 1 (some fun x => x) (fun _ => 0)
        ⟨fun _ => 7, fun _ => 7, fun _ => 7, fun _ => 7⟩ (fun x => 3 * x) =
      some (rowMajor intOps (fun x => x) (fun x => x) 3 2 4 1 (some fun x => x) (fun _ => 1) (fun _ => 2)
        fun x => 3 * x) :=
  columnMajor_eq_rowMajor intOps (by decide) (fun x y z => by simp [intOps, Int.mul_comm])
    (fun x => by simp only [intOps]; split <;> rfl) intOps_countsOnes true _ _ 3 2 4 (by decide) (by decide) 1 _
    _ _ _ _ _

/-- An addition under which one is not the sum of one one, and a division that is not one. -/
def skewOps : Ops Int 1 :=
  { intOps with
    add := fun x y => x + 2 * y
    div := fun x y => x * y
    exp := fun _ => 0 }

/-- A group of one patch of one pixel whose weight is zero, and a group whose columns overlap. -/
theorem columnMajor_ne_rowMajor :
    ((∀ x y z, skewOps.mulAdd x y z = skewOps.mulAdd y x z) ∧ (∀ x y, skewOps.mul x y = skewOps.mul y x) ∧
      (∀ x, skewOps.lt (skewOps.exp x) skewOps.zero = false) ∧
      columnMajor skewOps false (fun _ => 1) (fun _ => 0) 1 1 1 1 (some fun _ => 0) (fun _ => 0)
          ⟨fun _ => 0, fun _ => 0, fun _ => 0, fun _ => 0⟩ (fun _ => 5) ≠
        some (rowMajor skewOps (fun _ => 1) (fun _ => 0) 1 1 1 1 (some fun _ => 0) (fun _ => 0) (fun _ => 0)
          fun _ => 5)) ∧
    columnMajor intOps false (fun _ => 1) (fun _ => 0) 2 1 1 1 (some fun _ => 0) (fun _ => 0)
        ⟨fun _ => 0, fun _ => 0, fun _ => 0, fun _ => 0⟩ (fun _ => 5) ≠
      some (rowMajor intOps (fun _ => 1) (fun _ => 0) 2 1 1 1 (some fun _ => 0) (fun _ => 0) (fun _ => 0)
        fun _ => 5) := by
  -- the first pixel of the group tells them apart
  have hfirst : ∀ {a : Option (Nat → Int)} {b : Nat → Int}, a.map (fun f => f 0) ≠ some (b 0) → a ≠ some b := by
    rintro a b h rfl
    exact h rfl
  refine ⟨⟨fun x y z => ?_, fun x y => Int.mul_comm x y, fun _ => rfl, hfirst (by decide)⟩, hfirst (by decide)⟩
  simp [skewOps, intOps, Int.mul_comm]

end Paths

end NssFactory.Cpu.NcsrRowMajor
