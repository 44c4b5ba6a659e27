import NssFactory.Cpu.Match
import NssFactory.Lib.Visits

/-!
# The batched kernels

`cpu/batch.cpp`: a batch visits its items in buckets of one shape, and where a lane kernel takes
several matrices at once it hands it the items of a bucket together. A failed item is recorded
by its original index and the others go on.

The numerical kernels are parameters (`MatchKernels`, `Bm3dKernel`, `SvdKernel`,
`McwnnmKernel`); a lane kernel that succeeds gives a matrix what the single one gives it. A
batch checks its items itself, more strictly than the single calls do: `batches_independent` is
about the items it admits, `batch_needs_work` is one that only the single call takes. Null
arrays and negative counts, which the functions refuse with -1, are not lists of items.
-/

namespace NssFactory.Cpu

open Visits

def kBmMaxGroup : Int := 64
def kSvdMaxM : Int := 256
def kSvdMaxN : Int := 32
def kSvdBatch8MaxM : Int := 64

/-! ## Buckets and failures -/

section

variable {α : Type*}

/-- The index of a failed item in `first_error`; the smallest one stays. -/
def recordBatchFailure (originalIndex firstError : Nat) : Nat :=
  let code := originalIndex + 1
  if firstError = 0 ∨ code < firstError then code else firstError

/-- What a batch does about the outcome of an item. -/
def note (firstError index : Nat) (ok : Bool) : Nat :=
  if ok then firstError else recordBatchFailure index firstError

/-- The comparison that `bucket_order` sorts by: by `less`, then by index. -/
def bucketLess (less : α → α → Bool) (items : List α) (a b : Nat) : Bool :=
  match items[a]?, items[b]? with
  | some x, some y => if less x y then true else if less y x then false else decide (a < b)
  | _, _ => false

def bucketOrder (less : α → α → Bool) (items : List α) : List Nat :=
  (List.range items.length).insertionSort fun a b => bucketLess less items b a = false

/-- 0 when no item fails, and otherwise the smallest index of one that does, plus one. -/
def firstFailure (ok : List Bool) : Nat :=
  match ok.findIdx? (!·) with
  | none => 0
  | some i => i + 1

/-- A batch that takes its items one by one in the order of the buckets. -/
def itemBatch (less : α → α → Bool) (f : α → α × Bool) (items : List α) : List α × Nat :=
  (bucketOrder less items).foldl (visit f note) (items, 0)

/-- The test that ends a bucket, on indices. -/
def sameAt (same : α → α → Bool) (items : List α) (a b : Nat) : Bool :=
  match items[a]?, items[b]? with
  | some x, some y => same x y
  | _, _ => false

/-- A batch that hands the eligible items of a bucket to a lane kernel. -/
def laneBatch (less same : α → α → Bool) (eligible : α → Bool) (f : α → α × Bool)
    (lanes : List α → List (α × Bool)) (items : List α) : List α × Nat :=
  (buckets (sameAt same items) (bucketOrder less items)).foldl
    (laneBucket eligible f note lanes) (items, 0)

def setStatus (status : Option Int) (value : Int) : Option Int := status.map fun _ => value

end

/-! ## Block matching -/

structure SearchConfig where
  block : Int
  step : Int
  group : Int
  bmRange : Int
  radius : Int
  psNum : Int
  psRange : Int
  validTBegin : Int
  validTEnd : Int

structure MatchBatchItem where
  bx : Int
  by_ : Int
  block : Int
  bmRange : Int
  group : Int
  avx2Features : Nat

/-- What a matcher returns, and what it leaves at the start of `out`: no more than the capacity
that a batch asks of `out`. -/
structure Found (group : Int) where
  count : Int
  out : List Match
  fits : 0 < group → (out.length : Int) ≤ min group kBmMaxGroup

/-- The matchers, over planes of a type `P`. -/
structure MatchKernels (P : Type*) where
  spatialMatch : P → (stride width height bx by_ block bmRange : Int) → (group : Int) →
    (avx2Features : Nat) → Found group
  spatialMatchNch : List P → (strides : List Int) → (nch width height bx by_ block bmRange : Int) →
    (group : Int) → Found group
  predictiveMatch : List P → (strides : List Int) → (ntemp width height bx by_ t0 : Int) →
    (cfg : SearchConfig) → (avx2Features : Nat) → Found cfg.group
  predictiveMatchNch : List P → (strides : List Int) → (nch ntemp width height bx by_ t0 : Int) →
    (cfg : SearchConfig) → Found cfg.group

def matchCapacityValid (group matchStride : Int) : Bool :=
  decide (0 < group ∧ min group kBmMaxGroup ≤ matchStride)

/-- `matches` and `counts` of a call. -/
structure MatchOutput where
  matchBuf : List Match
  counts : List Int

/-- Assignments to consecutive elements from `offset` on. -/
def writeAt (buffer : List Match) (offset : Nat) : List Match → List Match
  | [] => buffer
  | m :: ms => writeAt (buffer.set offset m) (offset + 1) ms

/-- The body of the loops over `order`. -/
def matchItem (search : (item : MatchBatchItem) → Found item.group) (matchStride : Int)
    (items : List MatchBatchItem) (s : MatchOutput × Nat) (index : Nat) : MatchOutput × Nat :=
  match items[index]? with
  | none => s
  | some item =>
    if !matchCapacityValid item.group matchStride then
      ({ s.1 with counts := s.1.counts.set index 0 }, recordBatchFailure index s.2)
    else
      let found := search item
      let out : MatchOutput :=
        ⟨writeAt s.1.matchBuf (index * matchStride.toNat) found.out,
          s.1.counts.set index found.count⟩
      (out, if found.count ≤ 0 then recordBatchFailure index s.2 else s.2)

def matchLessShape (a b : MatchBatchItem) : Bool :=
  if a.block ≠ b.block then decide (a.block < b.block)
  else if a.group ≠ b.group then decide (a.group < b.group)
  else decide (a.bmRange < b.bmRange)

/-- The common form of the four match batches. -/
def matchBatch (search : (item : MatchBatchItem) → Found item.group)
    (items : List MatchBatchItem) (out : MatchOutput) (matchStride : Int) : MatchOutput × Int :=
  if items = [] then (out, 0)
  else if matchStride < 1 then (out, -1)
  else
    let (out, firstError) :=
      (bucketOrder matchLessShape items).foldl (matchItem search matchStride items) (out, 0)
    (out, firstError)

variable {P : Type*} (kernels : MatchKernels P)

def spatialMatchBatch (ref : P) (stride width height : Int) (items : List MatchBatchItem)
    (out : MatchOutput) (matchStride : Int) : MatchOutput × Int :=
  matchBatch (fun item => kernels.spatialMatch ref stride width height item.bx item.by_ item.block
    item.bmRange item.group item.avx2Features) items out matchStride

def spatialMatchNchBatch (refs : List P) (strides : List Int) (nch width height : Int)
    (items : List MatchBatchItem) (out : MatchOutput) (matchStride : Int) : MatchOutput × Int :=
  matchBatch (fun item => kernels.spatialMatchNch refs strides nch width height item.bx item.by_
    item.block item.bmRange item.group) items out matchStride

/-- The configuration with the shape of an item. -/
def SearchConfig.local_ (cfg : SearchConfig) (item : MatchBatchItem) : SearchConfig :=
  { cfg with block := item.block, group := item.group, bmRange := item.bmRange }

def predictiveMatchBatch (refs : List P) (strides : List Int) (ntemp width height t0 : Int)
    (cfg : SearchConfig) (items : List MatchBatchItem) (out : MatchOutput) (matchStride : Int) :
    MatchOutput × Int :=
  matchBatch (fun item => kernels.predictiveMatch refs strides ntemp width height item.bx item.by_
    t0 (cfg.local_ item) item.avx2Features) items out matchStride

def predictiveMatchNchBatch (refs : List P) (strides : List Int) (nch ntemp width height t0 : Int)
    (cfg : SearchConfig) (items : List MatchBatchItem) (out : MatchOutput) (matchStride : Int) :
    MatchOutput × Int :=
  matchBatch (fun item => kernels.predictiveMatchNch refs strides nch ntemp width height item.bx
    item.by_ t0 (cfg.local_ item)) items out matchStride

/-! ## BM3D groups -/

section Bm3d

variable {G W : Type*}

def bmAllowedBlock (v : Int) : Bool :=
  v == 1 || v == 2 || v == 4 || v == 8 || v == 12 || v == 16 || v == 32

def bmAllowedGroup (v : Int) : Bool :=
  v == 1 || v == 2 || v == 4 || v == 8 || v == 16 || v == 32 || v == 64

structure Bm3dFilterBatchItem (G W : Type*) where
  patches : Option G
  lda : Int
  group : Int
  k : Int
  block : Int
  sigma : F32
  wiener : Bool
  refPatches : Option G
  /-- Where the weight goes. -/
  weight : Option W
  /-- Whether there is a work area. -/
  work : Bool
  status : Option Int

structure Bm3dKernel (G W : Type*) where
  /-- `1.f` -/
  one : W
  filter : (lda group k block : Int) → (sigma : F32) → (wiener : Bool) → (refPatches : Option G) →
    G → G × W

variable (kernel : Bm3dKernel G W)

def bm3dFilterGroup (patches : Option G) (lda group k block : Int) (sigma : F32) (wiener : Bool)
    (refPatches : Option G) (weight : Option W) (work : Bool) : Option G × Option W :=
  match patches with
  | none => (none, weight.map fun _ => kernel.one)
  | some g =>
    if !bmAllowedGroup group || !bmAllowedBlock block || decide (k < 1) || !work then
      (some g, weight.map fun _ => kernel.one)
    else
      let (g, w) := kernel.filter lda group k block sigma wiener refPatches g
      (some g, weight.map fun _ => w)

namespace Bm3dFilterBatchItem

variable (item : Bm3dFilterBatchItem G W)

/-- An item before anything is done. -/
def reset : Bm3dFilterBatchItem G W := { item with status := setStatus item.status 0 }

/-- The checks of the batch. -/
def admitted : Bool :=
  item.k == 0 ||
    !(item.patches.isNone || item.weight.isNone || !item.work || !bmAllowedBlock item.block ||
      !bmAllowedGroup item.group || decide (item.lda < item.block * item.block) ||
      decide (item.k < 1) || decide (item.k > item.group) || decide (item.block < 1)) &&
    !(item.wiener && item.refPatches.isNone)

def less (a b : Bm3dFilterBatchItem G W) : Bool :=
  if a.block ≠ b.block then decide (a.block < b.block)
  else if a.group ≠ b.group then decide (a.group < b.group)
  else if a.k ≠ b.k then decide (a.k < b.k)
  else !a.wiener && b.wiener

/-- The item after a single call of its own; with `k = 0` it is done as it is. -/
def single : Bm3dFilterBatchItem G W × Bool :=
  if item.k == 0 then ({ item with status := setStatus item.status 1 }, true)
  else
    let (patches, weight) := bm3dFilterGroup kernel item.patches item.lda item.group item.k
      item.block item.sigma item.wiener (if item.wiener then item.refPatches else none)
      item.weight item.work
    ({ item with patches := patches, weight := weight, status := setStatus item.status 1 }, true)

def process : Bm3dFilterBatchItem G W × Bool :=
  if !item.admitted then (item, false) else item.single kernel

end Bm3dFilterBatchItem

def bm3dFilterGroupBatch (items : List (Bm3dFilterBatchItem G W)) :
    List (Bm3dFilterBatchItem G W) × Nat :=
  itemBatch Bm3dFilterBatchItem.less (·.process kernel)
    (items.map (·.reset))

end Bm3d

/-! ## WNNM and NCSR groups -/

section Svd

variable {G M V W D : Type*}

/-- Several decompositions in the lanes of one call. When the call succeeds, a matrix whose
singular values are finite has the decomposition that `svd` gives it. -/
structure LaneSvd (svd : (m n lda : Int) → G → Option V) (finite : V → Bool) where
  run : (m : Int) → List (Int × G) → Option (List V)
  length_eq : ∀ {m gs vs}, run m gs = some vs → vs.length = gs.length
  agrees : ∀ {m gs vs}, run m gs = some vs → ∀ lda g v, ((lda, g), v) ∈ gs.zip vs →
    finite v = true → svd m 8 lda g = some v

/-- The numerical kernels of a group: a matrix `G`, the mean `M` of its columns, a decomposition
`V`, a weight `W` and column distances `D`. -/
structure SvdKernel (G M V W D : Type*) where
  groupCenterSub : (m n lda : Int) → G → G × M
  groupCenterAdd : (m n lda : Int) → G → M → G
  /-- `none` is a nonzero return. -/
  svdEconomy : (m n lda : Int) → G → Option V
  finiteSingularValues : V → Bool
  svdEconomy8BatchSv : LaneSvd svdEconomy finiteSingularValues
  svdEconomy8BatchU : LaneSvd svdEconomy finiteSingularValues
  finishWnnm : (m n lda : Int) → (sigma : F32) → (residual adaptive : Int) → G → V → Option M → G × W
  finishSv : (m n lda : Int) → (sigma : F32) → (residual adaptive : Int) → G → V → Option M → G × W
  finishSv_eq : finishSv = finishWnnm
  finishNcsr : (m n lda : Int) → (sigma : F32) → (colDist : Option D) → G → V → M → G
  finishNcsrBatchItem : (m n lda : Int) → (sigma : F32) → (colDist : Option D) → G → V → M → G
  finishNcsrBatchItem_eq : finishNcsrBatchItem = finishNcsr

variable (kernel : SvdKernel G M V W D)

def wnnmShrinkWorkFloats (m n : Int) : Int :=
  (m * n + n + n * n + m) + (m * n * 6 + n * n * 8 + n + 256)

def ncsrFilterWorkFloats (m n : Int) : Int :=
  (m * n + n + n * n + m + m * n) + (m * n * 6 + n * n * 8 + n + 256)

structure WnnmShrinkBatchItem (G W : Type*) where
  group : Option G
  m : Int
  n : Int
  lda : Int
  sigma : F32
  residual : Int
  adaptive : Int
  adaptiveWeight : Option W
  work : Bool
  workFloats : Int
  status : Option Int

/-- The mean is taken off a residual group only. -/
def wnnmCenter (m n lda residual : Int) (g : G) : G × Option M :=
  if residual ≠ 0 then
    let (g, mean) := kernel.groupCenterSub m n lda g
    (g, some mean)
  else (g, none)

/-- From the decomposition on: a failure puts the mean back. -/
def wnnmSolve (m n lda : Int) (sigma : F32) (residual adaptive : Int) (weight : Option W) (g : G)
    (mean : Option M) : G × Option W × Bool :=
  match kernel.svdEconomy m n lda g with
  | none =>
    (match mean with | some mean => kernel.groupCenterAdd m n lda g mean | none => g, weight, false)
  | some v =>
    let (g, w) := kernel.finishWnnm m n lda sigma residual adaptive g v mean
    (g, weight.map fun _ => w, true)

/-- The single call. A work area that is missing or too small is replaced by one of its own. -/
def wnnmShrink (group : Option G) (m n lda : Int) (sigma : F32) (residual adaptive : Int)
    (weight : Option W) : Option G × Option W × Bool :=
  match group with
  | none => (none, weight, false)
  | some g =>
    if lda < m ∨ n ≤ 0 ∨ m ≤ 0 ∨ kSvdMaxM < m ∨ kSvdMaxN < n then (some g, weight, false)
    else
      let (g, mean) := wnnmCenter kernel m n lda residual g
      let (g, weight, ok) := wnnmSolve kernel m n lda sigma residual adaptive weight g mean
      (some g, weight, ok)

namespace WnnmShrinkBatchItem

variable (item : WnnmShrinkBatchItem G W)

/-- An item before anything is done. -/
def reset : WnnmShrinkBatchItem G W := { item with status := setStatus item.status 0 }

def less (a b : WnnmShrinkBatchItem G W) : Bool :=
  if a.m ≠ b.m then decide (a.m < b.m)
  else if a.n ≠ b.n then decide (a.n < b.n)
  else if a.residual ≠ b.residual then decide (a.residual < b.residual)
  else decide (a.adaptive < b.adaptive)

/-- Of one bucket. -/
def same (a b : WnnmShrinkBatchItem G W) : Bool :=
  !(b.m != a.m || b.n != a.n || b.residual != a.residual || b.adaptive != a.adaptive)

def admitted : Bool :=
  !(item.group.isNone || decide (item.m < 1) || decide (item.n < 1) || decide (item.lda < item.m) ||
    !item.work || decide (item.workFloats < 1))

/-- Fit for the lanes. -/
def eligible : Bool :=
  item.admitted && (item.n == 8 && decide (8 ≤ item.m) && decide (item.m ≤ kSvdBatch8MaxM) &&
    decide (wnnmShrinkWorkFloats item.m item.n ≤ item.workFloats))

/-- The item with what was made of its group. -/
def settle (result : Option G × Option W × Bool) : WnnmShrinkBatchItem G W × Bool :=
  ({ item with
      group := result.1
      adaptiveWeight := result.2.1
      status := if result.2.2 then setStatus item.status 1 else item.status }, result.2.2)

def single : WnnmShrinkBatchItem G W × Bool :=
  item.settle (wnnmShrink kernel item.group item.m item.n item.lda item.sigma item.residual
    item.adaptive item.adaptiveWeight)

def process : WnnmShrinkBatchItem G W × Bool :=
  if !item.admitted then (item, false) else item.single kernel

/-- The scalar path from the decomposition on. -/
def retry (g : G) (mean : Option M) : WnnmShrinkBatchItem G W × Bool :=
  let (g, weight, ok) := wnnmSolve kernel item.m item.n item.lda item.sigma item.residual
    item.adaptive item.adaptiveWeight g mean
  item.settle (some g, weight, ok)

/-- An item after the lane kernel: its values may still be unusable. -/
def finish (g : G) (mean : Option M) (v : V) : WnnmShrinkBatchItem G W × Bool :=
  if kernel.finiteSingularValues v then
    let (g, w) := kernel.finishSv item.m item.n item.lda item.sigma item.residual item.adaptive g v
      mean
    item.settle (some g, item.adaptiveWeight.map fun _ => w, true)
  else item.retry kernel g mean

/-- The items of a bucket that go through the lanes together. -/
def lanes (batch : List (WnnmShrinkBatchItem G W)) : List (WnnmShrinkBatchItem G W × Bool) :=
  match batch with
  | [] => []
  | first :: _ =>
    let centred := batch.filterMap fun item => item.group.map fun g =>
      (item, wnnmCenter kernel item.m item.n item.lda item.residual g)
    match kernel.svdEconomy8BatchSv.run first.m (centred.map fun c => (c.1.lda, c.2.1)) with
    | none => centred.map fun c => c.1.retry kernel c.2.1 c.2.2
    | some vs => (centred.zip vs).map fun c => c.1.1.finish kernel c.1.2.1 c.1.2.2 c.2

end WnnmShrinkBatchItem

def wnnmShrinkBatch (items : List (WnnmShrinkBatchItem G W)) :
    List (WnnmShrinkBatchItem G W) × Nat :=
  laneBatch WnnmShrinkBatchItem.less WnnmShrinkBatchItem.same (·.eligible) (·.process kernel)
    (WnnmShrinkBatchItem.lanes kernel)
    (items.map (·.reset))

structure NcsrFilterBatchItem (G D : Type*) where
  group : Option G
  m : Int
  n : Int
  lda : Int
  sigma : F32
  colDist : Option D
  work : Bool
  workFloats : Int
  status : Option Int

/-- `pca_project` and what follows it: a failure puts the mean back. -/
def ncsrSolve (m n lda : Int) (sigma : F32) (colDist : Option D) (g : G) (mean : M) : G × Bool :=
  match kernel.svdEconomy m n lda g with
  | none => (kernel.groupCenterAdd m n lda g mean, false)
  | some v => (kernel.finishNcsr m n lda sigma colDist g v mean, true)

/-- The single call. -/
def ncsrFilterGroup (group : Option G) (m n lda : Int) (sigma : F32) (colDist : Option D)
    (work : Bool) (workFloats : Int) : Option G × Bool :=
  match group with
  | none => (none, false)
  | some g =>
    if n ≤ 0 ∨ m ≤ 0 ∨ lda < m ∨ kSvdMaxM < m ∨ kSvdMaxN < n then (some g, false)
    else if !work ∨ workFloats < ncsrFilterWorkFloats m n then (some g, false)
    else
      let (g, mean) := kernel.groupCenterSub m n lda g
      let (g, ok) := ncsrSolve kernel m n lda sigma colDist g mean
      (some g, ok)

namespace NcsrFilterBatchItem

variable (item : NcsrFilterBatchItem G D)

/-- An item before anything is done. -/
def reset : NcsrFilterBatchItem G D := { item with status := setStatus item.status 0 }

def less (a b : NcsrFilterBatchItem G D) : Bool :=
  if a.m ≠ b.m then decide (a.m < b.m) else decide (a.n < b.n)

def same (a b : NcsrFilterBatchItem G D) : Bool := b.m == a.m && b.n == a.n

def admitted : Bool :=
  !(item.group.isNone || !item.work || decide (item.m < 1) || decide (item.n < 1) ||
    decide (item.lda < item.m) || decide (item.workFloats < 1))

def eligible : Bool :=
  item.admitted && (item.n == 8 && decide (8 ≤ item.m) && decide (item.m ≤ kSvdBatch8MaxM) &&
    decide (ncsrFilterWorkFloats item.m item.n ≤ item.workFloats))

def settle (result : Option G × Bool) : NcsrFilterBatchItem G D × Bool :=
  ({ item with
      group := result.1
      status := if result.2 then setStatus item.status 1 else item.status }, result.2)

def single : NcsrFilterBatchItem G D × Bool :=
  item.settle (ncsrFilterGroup kernel item.group item.m item.n item.lda item.sigma item.colDist
    item.work item.workFloats)

def process : NcsrFilterBatchItem G D × Bool :=
  if !item.admitted then (item, false) else item.single kernel

/-- An item after the lane kernel; `none` where the kernel failed as a whole. -/
def finish (m n : Int) (g : G) (mean : M) (v : Option V) : NcsrFilterBatchItem G D × Bool :=
  let usable := v.filter kernel.finiteSingularValues
  match usable with
  | some v =>
    item.settle (some (kernel.finishNcsrBatchItem item.m item.n item.lda item.sigma item.colDist g
      v mean), true)
  | none =>
    match kernel.svdEconomy m n item.lda g with
    | none => item.settle (some (kernel.groupCenterAdd m n item.lda g mean), false)
    | some v =>
      item.settle (some (kernel.finishNcsrBatchItem item.m item.n item.lda item.sigma item.colDist
        g v mean), true)

def lanes (batch : List (NcsrFilterBatchItem G D)) : List (NcsrFilterBatchItem G D × Bool) :=
  match batch with
  | [] => []
  | first :: _ =>
    let centred := batch.filterMap fun item => item.group.map fun g =>
      (item, kernel.groupCenterSub first.m first.n item.lda g)
    match kernel.svdEconomy8BatchU.run first.m (centred.map fun c => (c.1.lda, c.2.1)) with
    | none => centred.map fun c => c.1.finish kernel first.m first.n c.2.1 c.2.2 none
    | some vs =>
      (centred.zip vs).map fun c => c.1.1.finish kernel first.m first.n c.1.2.1 c.1.2.2 (some c.2)

end NcsrFilterBatchItem

def ncsrFilterGroupBatch (items : List (NcsrFilterBatchItem G D)) :
    List (NcsrFilterBatchItem G D) × Nat :=
  laneBatch NcsrFilterBatchItem.less NcsrFilterBatchItem.same (·.eligible) (·.process kernel)
    (NcsrFilterBatchItem.lanes kernel)
    (items.map (·.reset))

end Svd

/-! ## MCWNNM groups -/

section Mcwnnm

variable {G M W : Type*}

structure McwnnmFilterBatchItem (G W : Type*) where
  group : Option G
  m : Int
  n : Int
  lda : Int
  nch : Int
  sigma : Option (List F32)
  admmIter : Int
  rho : F32
  mu : F32
  residual : Int
  adaptive : Int
  adaptiveWeight : Option W
  work : Bool
  workFloats : Int
  avx2Gemm : Bool
  status : Option Int

structure McwnnmKernel (G M W : Type*) where
  one : W
  /-- `1.f / kept` -/
  reciprocal : Int → W
  groupCenterSub : (m n lda : Int) → G → G × M
  groupCenterAdd : (m n lda : Int) → G → M → G
  /-- The group after the iterations and the number of values kept, negative on failure. -/
  admm : (m n lda nch : Int) → (sigma : Option (List F32)) → (admmIter : Int) → (rho mu : F32) →
    (soft : Bool) → (work : Bool) → (workFloats : Int) → (avx2Gemm : Bool) → G → G × Int

variable (kernel : McwnnmKernel G M W)

/-- The single call. -/
def mcwnnmFilterGroup (group : Option G) (m n lda nch : Int) (sigma : Option (List F32))
    (admmIter : Int) (rho mu : F32) (residual adaptive : Int) (weight : Option W) (work : Bool)
    (workFloats : Int) (avx2Gemm : Bool) : Option G × Option W × Bool :=
  match group with
  | none => (none, weight, false)
  | some g =>
    if m < 1 ∨ n < 1 ∨ lda < m ∨ kSvdMaxM < m ∨ kSvdMaxN < n then (some g, weight, false)
    else
      let (g, mean) : G × Option M :=
        if residual ≠ 0 then
          let (g, mean) := kernel.groupCenterSub m n lda g
          (g, some mean)
        else (g, none)
      let (g, kept) := kernel.admm m n lda nch sigma admmIter rho mu (residual == 0) work workFloats
        avx2Gemm g
      let g := match mean with
        | some mean => kernel.groupCenterAdd m n lda g mean
        | none => g
      if kept < 0 then (some g, weight, false)
      else
        let anySigma : Bool := match sigma with
          | none => false
          | some sigma => (sigma.take nch.toNat).any fun v => decide (0 < v.value) && v.isFiniteBits
        let w := if adaptive ≠ 0 ∧ anySigma ∧ 0 < kept then kernel.reciprocal kept else kernel.one
        (some g, weight.map fun _ => w, true)

namespace McwnnmFilterBatchItem

variable (item : McwnnmFilterBatchItem G W)

/-- An item before anything is done. -/
def reset : McwnnmFilterBatchItem G W := { item with status := setStatus item.status 0 }

def less (a b : McwnnmFilterBatchItem G W) : Bool :=
  if a.m ≠ b.m then decide (a.m < b.m)
  else if a.n ≠ b.n then decide (a.n < b.n)
  else decide (a.residual < b.residual)

def admitted : Bool :=
  !(decide (item.m < 1) || decide (item.n < 1) || item.group.isNone || item.sigma.isNone ||
    !item.work || decide (item.workFloats < 1))

def single : McwnnmFilterBatchItem G W × Bool :=
  let (group, weight, ok) := mcwnnmFilterGroup kernel item.group item.m item.n item.lda item.nch
    item.sigma item.admmIter item.rho item.mu item.residual item.adaptive item.adaptiveWeight
    item.work item.workFloats item.avx2Gemm
  ({ item with
      group := group
      adaptiveWeight := weight
      status := if ok then setStatus item.status 1 else item.status }, ok)

def process : McwnnmFilterBatchItem G W × Bool :=
  if !item.admitted then (item, false) else item.single kernel

end McwnnmFilterBatchItem

def mcwnnmFilterGroupBatch (items : List (McwnnmFilterBatchItem G W)) :
    List (McwnnmFilterBatchItem G W) × Nat :=
  itemBatch McwnnmFilterBatchItem.less (·.process kernel)
    (items.map (·.reset))

end Mcwnnm

/-! ## The return value -/

section

variable {α : Type*} {f : α → α × Bool} {items : List α} {c : Nat} {is order : List Nat}

/-- Entry `i` fails. -/
def Fails (f : α → α × Bool) (items : List α) (i : Nat) : Prop :=
  ∃ a, items[i]? = some a ∧ (f a).2 = false

/-- What has been recorded after some items: the least failure, or what was there before. -/
theorem notes_spec : (notes f note items c is = 0 ↔ c = 0 ∧ ∀ i ∈ is, ¬Fails f items i) ∧
    (∀ i, notes f note items c is = i + 1 → c = i + 1 ∨ i ∈ is ∧ Fails f items i) ∧
    (∀ i ∈ is, Fails f items i → notes f note items c is ≤ i + 1) ∧
    (c ≠ 0 → notes f note items c is ≤ c) := by
  induction is generalizing c with
  | nil => simp [notes]
  | cons i is ih =>
    have hcons : notes f note items c (i :: is) =
        notes f note items (match items[i]? with | none => c | some a => note c i (f a).2) is := rfl
    rw [hcons]
    by_cases hf : Fails f items i
    · obtain ⟨a, hget, hfail⟩ := id hf
      simp only [hget, hfail, note, Bool.false_eq_true, if_false]
      obtain ⟨hzero, hsucc, hle, hbound⟩ := ih (c := recordBatchFailure i c)
      have hne : recordBatchFailure i c ≠ 0 := by
        unfold recordBatchFailure
        simp only
        split <;> omega
      have hrec : recordBatchFailure i c ≤ i + 1 ∧ (c ≠ 0 → recordBatchFailure i c ≤ c) ∧
          (recordBatchFailure i c = i + 1 ∨ recordBatchFailure i c = c) := by
        unfold recordBatchFailure
        simp only
        split <;> omega
      have hbound := hbound hne
      refine ⟨⟨fun h => absurd (hzero.mp h).1 hne, fun h => ?_⟩, fun j hj => ?_, fun j hj hfj => ?_,
        fun hc => ?_⟩
      · exact absurd hf (h.2 i List.mem_cons_self)
      · rcases hsucc j hj with h | ⟨hmem, hfj⟩
        · rcases hrec.2.2 with heq | heq
          · have : j = i := by omega
            exact .inr ⟨this ▸ List.mem_cons_self, this ▸ hf⟩
          · exact .inl (heq.symm.trans h)
        · exact .inr ⟨List.mem_cons_of_mem _ hmem, hfj⟩
      · rcases List.mem_cons.mp hj with rfl | hj
        · omega
        · exact hle j hj hfj
      · have := hrec.2.1 hc
        omega
    · have hsame : (match items[i]? with | none => c | some a => note c i (f a).2) = c := by
        cases hget : items[i]? with
        | none => rfl
        | some a =>
          have hok : (f a).2 = true := by
            cases h : (f a).2 with
            | true => rfl
            | false => exact absurd ⟨a, hget, h⟩ hf
          simp only [note, hok, if_true]
      rw [hsame]
      obtain ⟨hzero, hsucc, hle, hbound⟩ := ih (c := c)
      refine ⟨hzero.trans ⟨fun h => ⟨h.1, ?_⟩, fun h => ⟨h.1, ?_⟩⟩, fun j hj => ?_,
        fun j hj hfj => ?_, hbound⟩
      · exact fun j hj => (List.mem_cons.mp hj).elim (fun h => h ▸ hf) (h.2 j)
      · exact fun j hj => h.2 j (List.mem_cons_of_mem _ hj)
      · exact (hsucc j hj).imp_right fun h => ⟨List.mem_cons_of_mem _ h.1, h.2⟩
      · rcases List.mem_cons.mp hj with rfl | hj
        · exact absurd hfj hf
        · exact hle j hj hfj

/-- All items in any order: the failures that are recorded come to the smallest index. -/
theorem notes_eq (h : order.Perm (List.range items.length)) :
    notes f note items 0 order = firstFailure (items.map fun a => (f a).2) := by
  obtain ⟨hzero, hsucc, hle, -⟩ := @notes_spec _ f items 0 order
  have hmem : ∀ i, Fails f items i → i ∈ order := by
    rintro i ⟨a, hget, -⟩
    rw [h.mem_iff, List.mem_range]
    exact (List.getElem?_eq_some_iff.mp hget).1
  unfold firstFailure
  cases hfind : (items.map fun a => (f a).2).findIdx? (!·) with
  | none =>
    rw [List.findIdx?_eq_none_iff] at hfind
    refine hzero.mpr ⟨rfl, fun i _ hf => ?_⟩
    obtain ⟨a, hget, hfail⟩ := hf
    have := hfind _ (List.mem_map_of_mem (List.mem_of_getElem? hget))
    rw [hfail] at this
    cases this
  | some i =>
    obtain ⟨hi, hfail, hbefore⟩ := List.findIdx?_eq_some_iff_getElem.mp hfind
    rw [List.length_map] at hi
    rw [List.getElem_map, Bool.not_eq_true'] at hfail
    have hf : Fails f items i := ⟨items[i], List.getElem?_eq_getElem hi, hfail⟩
    have hbound := hle i (hmem i hf) hf
    cases hcode : notes f note items 0 order with
    | zero => exact absurd hf ((hzero.mp hcode).2 i (hmem i hf))
    | succ j =>
      obtain hbad | ⟨-, a, hget, hfailj⟩ := hsucc j hcode
      · cases hbad
      · -- nothing before `i` fails
        have hij : ¬j < i := by
          intro hji
          have hok := hbefore j hji
          obtain ⟨hj, ha⟩ := List.getElem?_eq_some_iff.mp hget
          rw [List.getElem_map, ha, hfailj] at hok
          exact hok rfl
        simp only
        omega

theorem bucketOrder_perm (less : α → α → Bool) :
    (bucketOrder less items).Perm (List.range items.length) := List.perm_insertionSort _ _

theorem visits_eq (h : order.Perm (List.range items.length)) :
    order.foldl (visit f note) (items, 0) =
      (items.map fun a => (f a).1, firstFailure (items.map fun a => (f a).2)) := by
  refine Prod.ext (foldl_visit_perm h) ?_
  rw [foldl_visit_snd (h.nodup_iff.mpr List.nodup_range)]
  exact notes_eq h

theorem itemBatch_eq (less : α → α → Bool) : itemBatch less f items =
    (items.map fun a => (f a).1, firstFailure (items.map fun a => (f a).2)) :=
  visits_eq (bucketOrder_perm less)

/-- The items of a bucket are the same as the first of them. -/
theorem bucket_same {same : α → α → Bool} {bucket is : List Nat} {l : List α}
    (hrefl : ∀ a, same a a = true) (hb : bucket ∈ buckets (sameAt same items) is)
    (hl : ∀ a ∈ l, ∃ i ∈ bucket, items[i]? = some a) (hne : l ≠ []) :
    ∃ first, ∀ a ∈ l, same first a = true := by
  obtain ⟨i, hi⟩ := same_of_mem_buckets hb
  -- the first index of the bucket names an item
  have hfirst : ∀ a ∈ l, ∃ first, items[i]? = some first ∧ same first a = true := by
    intro a ha
    obtain ⟨j, hj, hget⟩ := hl a ha
    rcases hi j hj with rfl | hsame
    · exact ⟨a, hget, hrefl a⟩
    · unfold sameAt at hsame
      cases hget' : items[i]? with
      | none => simp [hget'] at hsame
      | some first =>
        simp only [hget', hget] at hsame
        exact ⟨first, rfl, hsame⟩
  obtain ⟨a, ha⟩ := List.exists_mem_of_ne_nil l hne
  obtain ⟨first, hget, -⟩ := hfirst a ha
  refine ⟨first, fun b hb => ?_⟩
  obtain ⟨first', hget', hsame⟩ := hfirst b hb
  rw [hget] at hget'
  cases hget'
  exact hsame

/-- Buckets and lanes make no difference when the lane kernel gives items of one shape, each,
what they get alone. -/
theorem laneBatch_eq {less same : α → α → Bool} {eligible : α → Bool}
    {lanes : List α → List (α × Bool)} (hrefl : ∀ a, same a a = true)
    (hlanes : ∀ l, (∀ a ∈ l, eligible a = true) →
      (l ≠ [] → ∃ first, ∀ a ∈ l, same first a = true) → lanes l = l.map f) :
    laneBatch less same eligible f lanes items =
      (items.map fun a => (f a).1, firstFailure (items.map fun a => (f a).2)) := by
  have horder : (bucketOrder less items).Perm (List.range items.length) := bucketOrder_perm less
  have hnodup : (buckets (sameAt same items) (bucketOrder less items)).flatten.Nodup := by
    rw [buckets_flatten]
    exact horder.nodup_iff.mpr List.nodup_range
  obtain ⟨is, hperm, heq⟩ := foldl_buckets (f := f) (s := (items, 0)) hnodup fun bucket hb l hl =>
    hlanes l (fun a ha => (hl a ha).1) (bucket_same hrefl hb fun a ha => (hl a ha).2)
  unfold laneBatch
  rw [heq]
  rw [buckets_flatten] at hperm
  exact visits_eq (hperm.trans horder)

end

/-! ## The lane kernels -/

section Lanes

variable {G M V W D : Type*} (kernel : SvdKernel G M V W D)

section

variable {α γ δ : Type*} {l : List α} {k : α → Option γ} {h : α → γ → δ}

/-- The items whose group is there, beside what is read of it. -/
theorem map_fst_filterMap (hl : ∀ a ∈ l, (k a).isSome = true) :
    (l.filterMap fun a => (k a).map fun g => (a, h a g)).map Prod.fst = l := by
  rw [List.map_filterMap]
  have hsome : ∀ a ∈ l, ((k a).map fun g => (a, h a g)).map Prod.fst = some a := by
    intro a ha
    obtain ⟨g, hg⟩ := Option.isSome_iff_exists.mp (hl a ha)
    rw [hg]
    rfl
  rw [List.filterMap_congr hsome, List.filterMap_some]

theorem mem_filterMap_group {c : α × δ} (hc : c ∈ l.filterMap fun a => (k a).map fun g =>
    (a, h a g)) : c.1 ∈ l ∧ ∃ g, k c.1 = some g ∧ c.2 = h c.1 g := by
  obtain ⟨a, ha, hmap⟩ := List.mem_filterMap.mp hc
  obtain ⟨g, hg, rfl⟩ := Option.map_eq_some_iff.mp hmap
  exact ⟨ha, g, hg, rfl⟩

end

namespace LaneSvd

variable {kernel} {svd : (m n lda : Int) → G → Option V} {finite : V → Bool}
  (lane : LaneSvd svd finite) {α : Type*} {cs : List α} {key : α → Int × G} {m : Int}
  {vs : List V}

theorem map_fst_zip (h : lane.run m (cs.map key) = some vs) : (cs.zip vs).map Prod.fst = cs := by
  apply List.map_fst_zip
  rw [lane.length_eq h, List.length_map]

theorem svd_of_mem_zip (h : lane.run m (cs.map key) = some vs) {c : α} {v : V}
    (hc : (c, v) ∈ cs.zip vs) (hv : finite v = true) : svd m 8 (key c).1 (key c).2 = some v := by
  refine lane.agrees h (key c).1 (key c).2 v ?_ hv
  rw [List.zip_map_left]
  exact List.mem_map.mpr ⟨(c, v), hc, rfl⟩

end LaneSvd

namespace WnnmShrinkBatchItem

variable {kernel} {item : WnnmShrinkBatchItem G W} {l : List (WnnmShrinkBatchItem G W)} {g : G}

theorem eligible_iff : item.eligible = true ↔ item.admitted = true ∧ item.n = 8 ∧ 8 ≤ item.m ∧
    item.m ≤ kSvdBatch8MaxM ∧ wnnmShrinkWorkFloats item.m item.n ≤ item.workFloats := by
  simp only [eligible, Bool.and_eq_true, beq_iff_eq, decide_eq_true_eq, and_assoc]

theorem admitted_iff : item.admitted = true ↔ item.group.isSome = true ∧ 1 ≤ item.m ∧ 1 ≤ item.n ∧
    item.m ≤ item.lda ∧ item.work = true ∧ 1 ≤ item.workFloats := by
  simp only [admitted, Bool.not_eq_true', Bool.or_eq_false_iff, Bool.not_eq_false',
    Option.isNone_eq_false_iff, decide_eq_false_iff_not, Int.not_lt, and_assoc]

/-- For an item of the lanes the single call comes down to the scalar path. -/
theorem process_eq_retry (he : item.eligible = true) (hg : item.group = some g) :
    item.process kernel =
      item.retry kernel (wnnmCenter kernel item.m item.n item.lda item.residual g).1
        (wnnmCenter kernel item.m item.n item.lda item.residual g).2 := by
  obtain ⟨hadm, hn, hm, hmax, -⟩ := eligible_iff.mp he
  obtain ⟨-, -, -, hlda, -, -⟩ := admitted_iff.mp hadm
  have hshape : ¬(item.lda < item.m ∨ item.n ≤ 0 ∨ item.m ≤ 0 ∨ kSvdMaxM < item.m ∨
      kSvdMaxN < item.n) := by
    unfold kSvdBatch8MaxM at hmax
    unfold kSvdMaxM kSvdMaxN
    omega
  unfold process single wnnmShrink retry
  simp only [hadm, Bool.not_true, Bool.false_eq_true, if_false, hg, if_neg hshape]

/-- Usable values of the lanes are those of the single decomposition. -/
theorem finish_eq_retry {mean : Option M} {v : V}
    (hv : kernel.finiteSingularValues v = true →
      kernel.svdEconomy item.m item.n item.lda g = some v) :
    item.finish kernel g mean v = item.retry kernel g mean := by
  unfold finish
  cases hfinite : kernel.finiteSingularValues v with
  | false => rfl
  | true =>
    unfold retry wnnmSolve
    simp only [if_true, hv hfinite, kernel.finishSv_eq]

theorem lanes_eq (hl : ∀ a ∈ l, a.eligible = true)
    (hsame : l ≠ [] → ∃ first, ∀ a ∈ l, same first a = true) :
    lanes kernel l = l.map (·.process kernel) := by
  cases l with
  | nil => rfl
  | cons first rest =>
    obtain ⟨bucket, hsame⟩ := hsame (List.cons_ne_nil _ _)
    have hm : ∀ a ∈ first :: rest, a.m = first.m := by
      have hbucket : ∀ a ∈ first :: rest, a.m = bucket.m := by
        intro a ha
        have := hsame a ha
        simp only [same, Bool.not_eq_true', Bool.or_eq_false_iff, bne_eq_false_iff_eq] at this
        exact this.1.1.1
      intro a ha
      rw [hbucket a ha, hbucket first List.mem_cons_self]
    have hfst := map_fst_filterMap (k := WnnmShrinkBatchItem.group)
      (h := fun item g => wnnmCenter kernel item.m item.n item.lda item.residual g)
      fun a ha => (admitted_iff.mp (eligible_iff.mp (hl a ha)).1).1
    unfold lanes
    simp only
    generalize hcs : (first :: rest).filterMap (fun item => item.group.map fun g =>
      (item, wnnmCenter kernel item.m item.n item.lda item.residual g)) = cs at hfst ⊢
    have hmem : ∀ c ∈ cs, c.1.process kernel = c.1.retry kernel c.2.1 c.2.2 := by
      intro c hc
      rw [← hcs] at hc
      obtain ⟨ha, g, hg, hcentre⟩ := mem_filterMap_group hc
      rw [hcentre]
      exact process_eq_retry (hl _ ha) hg
    rw [← hfst, List.map_map]
    cases hrun : kernel.svdEconomy8BatchSv.run first.m (cs.map fun c => (c.1.lda, c.2.1)) with
    | none => exact List.map_congr_left fun c hc => (hmem c hc).symm
    | some vs =>
      have hzip := kernel.svdEconomy8BatchSv.map_fst_zip hrun
      conv_rhs => rw [← hzip, List.map_map]
      apply List.map_congr_left
      intro c hc
      obtain ⟨c, v⟩ := c
      have hcs' : c ∈ cs := (List.of_mem_zip hc).1
      have hitem : c.1 ∈ first :: rest := hfst ▸ List.mem_map_of_mem hcs'
      simp only [Function.comp_apply]
      rw [hmem c hcs']
      refine finish_eq_retry fun hv => ?_
      rw [hm _ hitem, (eligible_iff.mp (hl _ hitem)).2.1]
      exact kernel.svdEconomy8BatchSv.svd_of_mem_zip hrun hc hv

end WnnmShrinkBatchItem

namespace NcsrFilterBatchItem

variable {kernel} {item : NcsrFilterBatchItem G D} {l : List (NcsrFilterBatchItem G D)}
  {g g' : G} {mean : M}

theorem eligible_iff : item.eligible = true ↔ item.admitted = true ∧ item.n = 8 ∧ 8 ≤ item.m ∧
    item.m ≤ kSvdBatch8MaxM ∧ ncsrFilterWorkFloats item.m item.n ≤ item.workFloats := by
  simp only [eligible, Bool.and_eq_true, beq_iff_eq, decide_eq_true_eq, and_assoc]

theorem admitted_iff : item.admitted = true ↔ item.group.isSome = true ∧ item.work = true ∧
    1 ≤ item.m ∧ 1 ≤ item.n ∧ item.m ≤ item.lda ∧ 1 ≤ item.workFloats := by
  simp only [admitted, Bool.not_eq_true', Bool.or_eq_false_iff, Bool.not_eq_false',
    Option.isNone_eq_false_iff, decide_eq_false_iff_not, Int.not_lt, and_assoc]

/-- Without the lane kernel an item of the lanes takes the path of the single call. -/
theorem process_eq_finish (he : item.eligible = true) (hg : item.group = some g)
    (hcentre : kernel.groupCenterSub item.m item.n item.lda g = (g', mean)) :
    item.process kernel = item.finish kernel item.m item.n g' mean none := by
  obtain ⟨hadm, hn, hm, hmax, hfloats⟩ := eligible_iff.mp he
  obtain ⟨-, hwork, -, -, hlda, -⟩ := admitted_iff.mp hadm
  have hshape : ¬(item.n ≤ 0 ∨ item.m ≤ 0 ∨ item.lda < item.m ∨ kSvdMaxM < item.m ∨
      kSvdMaxN < item.n) := by
    unfold kSvdBatch8MaxM at hmax
    unfold kSvdMaxM kSvdMaxN
    omega
  have hroom : ¬((!item.work) = true ∨
      item.workFloats < ncsrFilterWorkFloats item.m item.n) := by
    rw [hwork]
    simp only [Bool.not_true, Bool.false_eq_true, false_or]
    omega
  unfold process single ncsrFilterGroup
  simp only [hadm, Bool.not_true, Bool.false_eq_true, if_false, hg, if_neg hshape, if_neg hroom,
    hcentre]
  unfold finish ncsrSolve
  simp only [Option.filter_none, kernel.finishNcsrBatchItem_eq]
  cases kernel.svdEconomy item.m item.n item.lda g' <;> rfl

/-- Usable values of the lanes are those of the single decomposition. -/
theorem finish_eq_none {v : V} (hv : kernel.finiteSingularValues v = true →
    kernel.svdEconomy item.m item.n item.lda g = some v) :
    item.finish kernel item.m item.n g mean (some v) =
      item.finish kernel item.m item.n g mean none := by
  unfold finish
  cases hfinite : kernel.finiteSingularValues v with
  | false => simp only [Option.filter_some, hfinite, Bool.false_eq_true, if_false, Option.filter_none]
  | true => simp only [Option.filter_some, hfinite, if_true, Option.filter_none, hv hfinite]

theorem lanes_eq (hl : ∀ a ∈ l, a.eligible = true)
    (hsame : l ≠ [] → ∃ first, ∀ a ∈ l, same first a = true) :
    lanes kernel l = l.map (·.process kernel) := by
  cases l with
  | nil => rfl
  | cons first rest =>
    obtain ⟨bucket, hsame⟩ := hsame (List.cons_ne_nil _ _)
    have hshape : ∀ a ∈ first :: rest, first.m = a.m ∧ first.n = a.n := by
      have hbucket : ∀ a ∈ first :: rest, a.m = bucket.m ∧ a.n = bucket.n := by
        intro a ha
        simpa only [same, Bool.and_eq_true, beq_iff_eq] using hsame a ha
      intro a ha
      obtain ⟨hm, hn⟩ := hbucket a ha
      obtain ⟨hm', hn'⟩ := hbucket first List.mem_cons_self
      exact ⟨hm'.trans hm.symm, hn'.trans hn.symm⟩
    have hfst := map_fst_filterMap (k := NcsrFilterBatchItem.group)
      (h := fun item g => kernel.groupCenterSub first.m first.n item.lda g)
      fun a ha => (admitted_iff.mp (eligible_iff.mp (hl a ha)).1).1
    unfold lanes
    simp only
    generalize hcs : (first :: rest).filterMap (fun item => item.group.map fun g =>
      (item, kernel.groupCenterSub first.m first.n item.lda g)) = cs at hfst ⊢
    have hmem : ∀ c ∈ cs,
        c.1.process kernel = c.1.finish kernel first.m first.n c.2.1 c.2.2 none := by
      intro c hc
      rw [← hcs] at hc
      obtain ⟨ha, g, hg, hcentre⟩ := mem_filterMap_group hc
      obtain ⟨hm, hn⟩ := hshape _ ha
      rw [hm, hn] at hcentre ⊢
      exact process_eq_finish (hl _ ha) hg hcentre.symm
    rw [← hfst, List.map_map]
    cases hrun : kernel.svdEconomy8BatchU.run first.m (cs.map fun c => (c.1.lda, c.2.1)) with
    | none => exact List.map_congr_left fun c hc => (hmem c hc).symm
    | some vs =>
      have hzip := kernel.svdEconomy8BatchU.map_fst_zip hrun
      conv_rhs => rw [← hzip, List.map_map]
      apply List.map_congr_left
      intro c hc
      obtain ⟨c, v⟩ := c
      have hcs' : c ∈ cs := (List.of_mem_zip hc).1
      have hitem : c.1 ∈ first :: rest := hfst ▸ List.mem_map_of_mem hcs'
      simp only [Function.comp_apply]
      obtain ⟨hm, hn⟩ := hshape _ hitem
      rw [hmem c hcs', hm, hn]
      refine finish_eq_none fun hv => ?_
      rw [(eligible_iff.mp (hl _ hitem)).2.1, ← hm]
      exact kernel.svdEconomy8BatchU.svd_of_mem_zip hrun hc hv

end NcsrFilterBatchItem

end Lanes

/-! ## The output of the matchers -/

section Cells

variable {buffer ms : List Match} {offset stride i j p n : Nat}

@[simp] theorem writeAt_length : (writeAt buffer offset ms).length = buffer.length := by
  induction ms generalizing buffer offset with
  | nil => rfl
  | cons m ms ih => rw [writeAt, ih, List.length_set]

theorem writeAt_getElem?_outside (h : p < offset ∨ offset + ms.length ≤ p) :
    (writeAt buffer offset ms)[p]? = buffer[p]? := by
  induction ms generalizing buffer offset with
  | nil => rfl
  | cons m ms ih =>
    rw [List.length_cons] at h
    rw [writeAt, ih (by omega), List.getElem?_set_ne (by omega)]

theorem writeAt_getElem?_inside (hfit : offset + ms.length ≤ buffer.length) (h : p < ms.length) :
    (writeAt buffer offset ms)[offset + p]? = ms[p]? := by
  induction ms generalizing buffer offset p with
  | nil => cases h
  | cons m ms ih =>
    rw [List.length_cons] at hfit h
    rw [writeAt]
    cases p with
    | zero =>
      rw [writeAt_getElem?_outside (by omega), Nat.add_zero, List.getElem?_set_self (by omega)]
      rfl
    | succ p =>
      have hsucc : offset + (p + 1) = offset + 1 + p := by omega
      rw [hsucc, ih (by rw [List.length_set]; omega) (by omega), List.getElem?_cons_succ]

/-- The part of `matches` that belongs to item `i`. -/
def slot (buffer : List Match) (stride i : Nat) : List Match :=
  (buffer.drop (i * stride)).take stride

theorem slot_getElem? : (slot buffer stride i)[p]? =
    if p < stride then buffer[i * stride + p]? else none := by
  unfold slot
  rw [List.getElem?_take, List.getElem?_drop]

/-- An item writes into its own part only. -/
theorem slot_writeAt_ne (hne : i ≠ j) (hms : ms.length ≤ stride) :
    slot (writeAt buffer (i * stride) ms) stride j = slot buffer stride j := by
  apply List.ext_getElem?
  intro p
  rw [slot_getElem?, slot_getElem?]
  by_cases hp : p < stride
  · rw [if_pos hp, if_pos hp]
    apply writeAt_getElem?_outside
    rcases Nat.lt_or_gt_of_ne hne with hij | hij
    · have hle : (i + 1) * stride ≤ j * stride := Nat.mul_le_mul_right _ hij
      rw [Nat.succ_mul] at hle
      omega
    · have hle : (j + 1) * stride ≤ i * stride := Nat.mul_le_mul_right _ hij
      rw [Nat.succ_mul] at hle
      omega
  · rw [if_neg hp, if_neg hp]

theorem slot_writeAt_self (hi : i < n) (hfit : n * stride ≤ buffer.length)
    (hms : ms.length ≤ stride) :
    slot (writeAt buffer (i * stride) ms) stride i =
      ms ++ (slot buffer stride i).drop ms.length := by
  have hle : (i + 1) * stride ≤ n * stride := Nat.mul_le_mul_right _ hi
  rw [Nat.succ_mul] at hle
  apply List.ext_getElem?
  intro p
  rw [slot_getElem?]
  by_cases hp : p < ms.length
  · rw [if_pos (by omega), writeAt_getElem?_inside (by omega) hp, List.getElem?_append_left hp]
  · have hp' : ms.length ≤ p := Nat.not_lt.mp hp
    rw [List.getElem?_append_right hp', List.getElem?_drop, Nat.add_sub_cancel' hp', slot_getElem?]
    by_cases hps : p < stride
    · rw [if_pos hps, if_pos hps, writeAt_getElem?_outside (by omega)]
    · rw [if_neg hps, if_neg hps]

/-- The items with the outputs that belong to them. -/
def cells (items : List MatchBatchItem) (stride : Nat) (out : MatchOutput) :
    List (MatchBatchItem × List Match × Option Int) :=
  items.mapIdx fun i item => (item, slot out.matchBuf stride i, out.counts[i]?)

variable (search : (item : MatchBatchItem) → Found item.group) {matchStride : Int}
  {items : List MatchBatchItem} {s : MatchOutput × Nat}

/-- What becomes of one item and its outputs. -/
def matchCell (matchStride : Int) (c : MatchBatchItem × List Match × Option Int) :
    (MatchBatchItem × List Match × Option Int) × Bool :=
  if !matchCapacityValid c.1.group matchStride then ((c.1, c.2.1, c.2.2.map fun _ => 0), false)
  else
    let found := search c.1
    ((c.1, found.out ++ c.2.1.drop found.out.length, c.2.2.map fun _ => found.count),
      decide (0 < found.count))

theorem found_length_le {item : MatchBatchItem} (h : matchCapacityValid item.group matchStride = true) :
    (search item).out.length ≤ matchStride.toNat := by
  simp only [matchCapacityValid, decide_eq_true_eq] at h
  have := (search item).fits h.1
  omega

variable {search}

@[simp] theorem matchItem_length {index : Nat} :
    (matchItem search matchStride items s index).1.matchBuf.length = s.1.matchBuf.length := by
  unfold matchItem
  split
  · rfl
  · split
    · rfl
    · exact writeAt_length

/-- The body of the loop is a visit of the item's cell. -/
theorem cells_matchItem {index : Nat}
    (hfit : items.length * matchStride.toNat ≤ s.1.matchBuf.length) :
    (cells items matchStride.toNat (matchItem search matchStride items s index).1,
        (matchItem search matchStride items s index).2) =
      visit (matchCell search matchStride) note (cells items matchStride.toNat s.1, s.2) index := by
  cases hget : items[index]? with
  | none =>
    have hcell : (cells items matchStride.toNat s.1)[index]? = none := by
      rw [cells, List.getElem?_mapIdx, hget]
      rfl
    unfold matchItem visit
    simp only [hget, hcell]
  | some item =>
    have hi : index < items.length := (List.getElem?_eq_some_iff.mp hget).1
    have hcell : (cells items matchStride.toNat s.1)[index]? =
        some (item, slot s.1.matchBuf matchStride.toNat index, s.1.counts[index]?) := by
      rw [cells, List.getElem?_mapIdx, hget]
      rfl
    have hlen : index < (cells items matchStride.toNat s.1).length :=
      (List.getElem?_eq_some_iff.mp hcell).1
    -- the cells after the body: the item's own one is new
    have hset : ∀ (out : MatchOutput) (c : MatchBatchItem × List Match × Option Int),
        (item, slot out.matchBuf matchStride.toNat index, out.counts[index]?) = c →
        (∀ j, index ≠ j → slot out.matchBuf matchStride.toNat j =
          slot s.1.matchBuf matchStride.toNat j ∧ out.counts[j]? = s.1.counts[j]?) →
        cells items matchStride.toNat out = (cells items matchStride.toNat s.1).set index c := by
      intro out c hc hothers
      apply List.ext_getElem?
      intro j
      by_cases hj : index = j
      · subst hj
        rw [List.getElem?_set_self hlen, cells, List.getElem?_mapIdx, hget, ← hc]
        rfl
      · rw [List.getElem?_set_ne hj, cells, cells, List.getElem?_mapIdx, List.getElem?_mapIdx,
          (hothers j hj).1, (hothers j hj).2]
    unfold matchItem visit put matchCell
    simp only [hget, hcell]
    cases hvalid : matchCapacityValid item.group matchStride with
    | false =>
      simp only [Bool.not_false, if_true, note, Bool.false_eq_true, if_false]
      refine Prod.ext (hset _ _ ?_ fun j hj => ⟨rfl, List.getElem?_set_ne hj⟩) rfl
      rw [List.getElem?_set_self']
      rfl
    | true =>
      simp only [Bool.not_true, Bool.false_eq_true, if_false]
      have hlen := found_length_le search hvalid
      refine Prod.ext (hset _ _ ?_ fun j hj => ⟨slot_writeAt_ne hj hlen, List.getElem?_set_ne hj⟩) ?_
      · rw [slot_writeAt_self hi hfit hlen, List.getElem?_set_self']
        rfl
      · unfold note
        by_cases hcount : 0 < (search item).count
        · rw [if_neg (by omega), if_pos (by simpa using hcount)]
        · rw [if_pos (by omega), if_neg (by simpa using hcount)]

/-- So a run over all the items is a batch on the cells. -/
theorem cells_foldl_matchItem {is : List Nat}
    (hfit : items.length * matchStride.toNat ≤ s.1.matchBuf.length) :
    (cells items matchStride.toNat (is.foldl (matchItem search matchStride items) s).1,
        (is.foldl (matchItem search matchStride items) s).2) =
      is.foldl (visit (matchCell search matchStride) note)
        (cells items matchStride.toNat s.1, s.2) := by
  induction is generalizing s with
  | nil => rfl
  | cons i is ih =>
    rw [List.foldl_cons, List.foldl_cons, ih (by rw [matchItem_length]; exact hfit),
      cells_matchItem hfit]

end Cells

/-! ## Results -/

/-- A batch of matchers: each item has the count and the matches of its own call at the start of
its own part of `matches`; an item that is not admitted has a count of 0 and no match. -/
def MatchIndependent (search : (item : MatchBatchItem) → Found item.group)
    (batch : List MatchBatchItem → MatchOutput → Int → MatchOutput × Int) : Prop :=
  ∀ (items : List MatchBatchItem) (out : MatchOutput) (matchStride : Int), 1 ≤ matchStride →
    items.length * matchStride.toNat ≤ out.matchBuf.length → items.length ≤ out.counts.length →
    let result := batch items out matchStride
    result.2 = firstFailure (items.map fun item =>
        matchCapacityValid item.group matchStride && decide (0 < (search item).count)) ∧
      ∀ i item, items[i]? = some item →
        if matchCapacityValid item.group matchStride then
          result.1.counts[i]? = some (search item).count ∧
            slot result.1.matchBuf matchStride.toNat i =
              (search item).out ++
                (slot out.matchBuf matchStride.toNat i).drop (search item).out.length
        else
          result.1.counts[i]? = some 0 ∧
            slot result.1.matchBuf matchStride.toNat i = slot out.matchBuf matchStride.toNat i

theorem matchBatch_independent (search : (item : MatchBatchItem) → Found item.group) :
    MatchIndependent search (matchBatch search) := by
  intro items out matchStride hstride hfit hcounts
  by_cases hnil : items = []
  · subst hnil
    refine ⟨?_, fun i item h => by cases h⟩
    simp [matchBatch, firstFailure]
  · have hcells := @cells_foldl_matchItem search matchStride items (out, 0)
      (bucketOrder matchLessShape items) hfit
    have hlength : (cells items matchStride.toNat out).length = items.length := List.length_mapIdx
    rw [visits_eq (by rw [hlength]; exact bucketOrder_perm _)] at hcells
    simp only
    unfold matchBatch
    rw [if_neg hnil, if_neg (by omega)]
    generalize (bucketOrder matchLessShape items).foldl (matchItem search matchStride items)
      (out, 0) = s at hcells ⊢
    obtain ⟨hitems, hcode⟩ := Prod.mk.inj hcells
    refine ⟨?_, fun i item hget => ?_⟩
    · show (s.2 : Int) = _
      rw [hcode]
      congr 2
      apply List.ext_getElem?
      intro i
      rw [List.getElem?_map, List.getElem?_map, cells, List.getElem?_mapIdx]
      cases items[i]? with
      | none => rfl
      | some item =>
        simp only [Option.map_some, matchCell]
        cases matchCapacityValid item.group matchStride <;> rfl
    · have hi : i < items.length := (List.getElem?_eq_some_iff.mp hget).1
      obtain ⟨count, hcount⟩ : ∃ count, out.counts[i]? = some count :=
        ⟨_, List.getElem?_eq_getElem (by omega)⟩
      have hcell := congrArg (·[i]?) hitems
      simp only [cells, List.getElem?_map, List.getElem?_mapIdx, hget, Option.map_some,
        Option.some.injEq, hcount] at hcell
      unfold matchCell at hcell
      cases hvalid : matchCapacityValid item.group matchStride with
      | false =>
        simp only [hvalid, Bool.not_false, if_true, Option.map_some] at hcell
        obtain ⟨-, hslot, hcount⟩ := Prod.mk.inj hcell |>.imp_right Prod.mk.inj
        exact ⟨hcount, hslot⟩
      | true =>
        simp only [hvalid, Bool.not_true, Bool.false_eq_true, if_false, Option.map_some] at hcell
        obtain ⟨-, hslot, hcount⟩ := Prod.mk.inj hcell |>.imp_right Prod.mk.inj
        exact ⟨hcount, hslot⟩

/-- A batch of groups: each item that is admitted is as its single call leaves it, with its
status; an item that is not admitted is left alone with a status of 0. -/
def Independent {α : Type*} (batch : List α → List α × Nat) (admitted : α → Bool)
    (reset : α → α) (single : α → α × Bool) : Prop :=
  ∀ items : List α,
    let own := (items.map reset).map fun item => if admitted item then single item else (item, false)
    batch items = (own.map Prod.fst, firstFailure (own.map Prod.snd))

section Results

variable {P G M V W D : Type*}

/-- An item is processed as its single call does it, when it is admitted. -/
theorem independent_of_process {α : Type*} {batch : List α → List α × Nat} {admitted : α → Bool}
    {reset : α → α} {single process : α → α × Bool}
    (hprocess : ∀ item, process item = if !admitted item then (item, false) else single item)
    (hbatch : ∀ items, batch items = ((items.map reset).map fun a => (process a).1,
      firstFailure ((items.map reset).map fun a => (process a).2))) :
    Independent batch admitted reset single := by
  intro items
  have hown : ∀ item, (if admitted item then single item else (item, false)) = process item := by
    intro item
    rw [hprocess]
    cases admitted item <;> rfl
  simp only [hown, List.map_map]
  rw [hbatch, List.map_map, List.map_map]
  rfl

theorem wnnmShrinkBatch_independent (kernel : SvdKernel G M V W D) :
    Independent (wnnmShrinkBatch kernel) (·.admitted) (·.reset) (·.single kernel) :=
  independent_of_process (fun _ => rfl) fun _ =>
    laneBatch_eq (fun a => by simp [WnnmShrinkBatchItem.same]) fun _ =>
      WnnmShrinkBatchItem.lanes_eq

theorem ncsrFilterGroupBatch_independent (kernel : SvdKernel G M V W D) :
    Independent (ncsrFilterGroupBatch kernel) (·.admitted) (·.reset) (·.single kernel) :=
  independent_of_process (fun _ => rfl) fun _ =>
    laneBatch_eq (fun a => by simp [NcsrFilterBatchItem.same]) fun _ =>
      NcsrFilterBatchItem.lanes_eq

/-- Every batch gives the items it admits what their single calls give them, and 0 or the
smallest failing index plus one. -/
theorem batches_independent (kernels : MatchKernels P) (bm3d : Bm3dKernel G W)
    (svd : SvdKernel G M V W D) (mcwnnm : McwnnmKernel G M W) :
    (∀ ref stride width height, MatchIndependent
      (fun item => kernels.spatialMatch ref stride width height item.bx item.by_ item.block
        item.bmRange item.group item.avx2Features)
      (spatialMatchBatch kernels ref stride width height)) ∧
    (∀ refs strides nch width height, MatchIndependent
      (fun item => kernels.spatialMatchNch refs strides nch width height item.bx item.by_
        item.block item.bmRange item.group)
      (spatialMatchNchBatch kernels refs strides nch width height)) ∧
    (∀ refs strides ntemp width height t0 cfg, MatchIndependent
      (fun item => kernels.predictiveMatch refs strides ntemp width height item.bx item.by_ t0
        (cfg.local_ item) item.avx2Features)
      (predictiveMatchBatch kernels refs strides ntemp width height t0 cfg)) ∧
    (∀ refs strides nch ntemp width height t0 cfg, MatchIndependent
      (fun item => kernels.predictiveMatchNch refs strides nch ntemp width height item.bx item.by_
        t0 (cfg.local_ item))
      (predictiveMatchNchBatch kernels refs strides nch ntemp width height t0 cfg)) ∧
    Independent (bm3dFilterGroupBatch bm3d) (·.admitted) (·.reset) (·.single bm3d) ∧
    Independent (wnnmShrinkBatch svd) (·.admitted) (·.reset) (·.single svd) ∧
    Independent (ncsrFilterGroupBatch svd) (·.admitted) (·.reset) (·.single svd) ∧
    Independent (mcwnnmFilterGroupBatch mcwnnm) (·.admitted) (·.reset) (·.single mcwnnm) := by
  refine ⟨?_, ?_, ?_, ?_, ?_, wnnmShrinkBatch_independent svd,
    ncsrFilterGroupBatch_independent svd, ?_⟩
  · exact fun ref stride width height => matchBatch_independent _
  · exact fun refs strides nch width height => matchBatch_independent _
  · exact fun refs strides ntemp width height t0 cfg => matchBatch_independent _
  · exact fun refs strides nch ntemp width height t0 cfg => matchBatch_independent _
  · exact independent_of_process (fun _ => rfl) fun _ => itemBatch_eq _
  · exact independent_of_process (fun _ => rfl) fun _ => itemBatch_eq _

end Results

/-! ## An item that only the single call takes -/

/-- A kernel that leaves every matrix alone and has no lanes. -/
def idleKernel : SvdKernel Unit Unit Unit Unit Unit where
  groupCenterSub _ _ _ g := (g, ())
  groupCenterAdd _ _ _ g _ := g
  svdEconomy _ _ _ _ := some ()
  finiteSingularValues _ := true
  svdEconomy8BatchSv := ⟨fun _ _ => none, nofun, nofun⟩
  svdEconomy8BatchU := ⟨fun _ _ => none, nofun, nofun⟩
  finishWnnm _ _ _ _ _ _ g _ _ := (g, ())
  finishSv _ _ _ _ _ _ g _ _ := (g, ())
  finishSv_eq := rfl
  finishNcsr _ _ _ _ _ g _ _ := g
  finishNcsrBatchItem _ _ _ _ _ g _ _ := g
  finishNcsrBatchItem_eq := rfl

/-- A group without a work area. -/
def withoutWork : WnnmShrinkBatchItem Unit Unit where
  group := some ()
  m := 4
  n := 2
  lda := 4
  sigma := 0
  residual := 0
  adaptive := 0
  adaptiveWeight := none
  work := false
  workFloats := 0
  status := some 0

/-- `wnnm_shrink` has a work area of its own where the caller has none; the batch does not
admit the item. -/
theorem batch_needs_work : ¬∀ items : List (WnnmShrinkBatchItem Unit Unit),
    let own := (items.map (·.reset)).map (·.single idleKernel)
    (wnnmShrinkBatch idleKernel items).1 = own.map Prod.fst ∧
      (wnnmShrinkBatch idleKernel items).2 = firstFailure (own.map Prod.snd) := by
  intro h
  have hcode := (h [withoutWork]).2
  revert hcode
  decide

end NssFactory.Cpu
