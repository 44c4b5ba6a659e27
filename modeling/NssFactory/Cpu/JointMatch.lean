import Mathlib.Data.List.TakeWhile
import NssFactory.Cpu.TemporalSearch
import NssFactory.Lib.Lanes

/-!
# Spatial searches of neighbouring jobs

`SpatialMatchJoint` of `cpu/bm/match_joint.cpp` against `spatial_match` of `cpu/bm/ssd.cpp`. The
joint search takes up to four jobs of one block size together and compares a candidate in each
lane of a vector; the single search has the pixels of one candidate in the lanes (`ssdBlock`).

The operations on floats are parameters (`VectorOps`), with the order in which a reduction adds
its lanes. `spatialMatchJoint_eq` says that the jobs get what the single search gives them one by
one. The windows' ends are taken without overflow.
-/

namespace NssFactory.Cpu

open Loops Match

/-! ## Vectors -/

/-- What the vector code is compiled for. -/
inductive Target where
  | neon
  | avx3
  | avx2
  | sse
  | emu128
  | scalar
  deriving DecidableEq, Repr

namespace Target

/-- `HWY_LANES(float)` -/
def lanes : Target → Int
  | .neon => 4
  | .avx3 => 16
  | .avx2 => 8
  | .sse => 4
  | .emu128 => 4
  | .scalar => 1

def native (target : Target) : Bool := decide (target ≠ .emu128 ∧ target ≠ .scalar)

theorem lanes_pos (target : Target) : 0 < target.lanes := by cases target <;> decide

end Target

/-- The sum of the buckets, in the order of Highway's `ReduceSum`. -/
def reduceSsdBuckets {V : Type*} (target : Target) (zero : V) (add : V → V → V)
    (values : Int → V) : V :=
  match target with
  | .emu128 => (Int.range 0 4).foldl (fun sum i => add sum (values i)) zero
  | .scalar => values 0
  | .neon => add (add (values 0) (values 1)) (add (values 2) (values 3))
  | .avx3 =>
    let a := add (add (values 0) (values 4)) (add (values 12) (values 8))
    let b := add (add (values 1) (values 5)) (add (values 13) (values 9))
    let c := add (add (values 2) (values 6)) (add (values 14) (values 10))
    let d := add (add (values 3) (values 7)) (add (values 15) (values 11))
    add (add a d) (add b c)
  | .avx2 =>
    add (add (add (values 0) (values 4)) (add (values 3) (values 7)))
      (add (add (values 1) (values 5)) (add (values 2) (values 6)))
  | .sse => add (add (values 0) (values 3)) (add (values 1) (values 2))

/-- What sums of squares by `mulAdd` hold. -/
inductive Accumulated (mulAdd : F32 → F32 → F32 → F32) : F32 → Prop where
  | zero : Accumulated mulAdd F32.zero
  | mulAdd (d : F32) {a : F32} (h : Accumulated mulAdd a) : Accumulated mulAdd (mulAdd d d a)

/-- The operations on the lanes of vectors. -/
structure VectorOps (target : Target) where
  sub : F32 → F32 → F32
  add : F32 → F32 → F32
  mulAdd : F32 → F32 → F32 → F32
  reduceSum : (Int → F32) → F32
  sub_zero : sub F32.zero F32.zero = F32.zero
  mulAdd_zero : ∀ a, Accumulated mulAdd a → mulAdd F32.zero F32.zero a = a
  /-- The order in which a native target adds. -/
  reduceSum_eq : target.native = true → ∀ values,
    reduceSum values = reduceSsdBuckets target F32.zero add values

/-- The elements from `p` on. -/
def loadU (p : Int → F32) (x : Int) : Int → F32 := fun i => p (x + i)

/-- The first `n` elements from `p` on, and zeros behind them. -/
def loadN (p : Int → F32) (x n : Int) : Int → F32 := fun i => if i < n then p (x + i) else F32.zero

/-! ## The single search -/

section Single

variable {target : Target} (ops : VectorOps target)

/-- `acc + (v - w)²` in each lane. -/
def accumulate (acc v w : Int → F32) : Int → F32 :=
  fun i => ops.mulAdd (ops.sub (v i) (w i)) (ops.sub (v i) (w i)) (acc i)

/-- A row of a block: whole vectors, and one that holds the rest. -/
def ssdRow (pa pb : Int → F32) (block : Int) (acc : Int → F32) : Int → F32 :=
  let acc := (List.range (rounds target.lanes 0 block)).foldl
    (fun acc (k : Nat) => accumulate ops acc (loadU pa (k * target.lanes))
      (loadU pb (k * target.lanes))) acc
  let x := vectorEnd target.lanes 0 block
  let rem := block - x
  if rem > 0 then accumulate ops acc (loadN pa x rem) (loadN pb x rem) else acc

/-- `std::numeric_limits<float>::max()` -/
def fltMax : F32 := 0x7f7fffff#32

/-- `SsdBlock` of a block without a leaf of its own, as 4 and 8 have. -/
def ssdBlock (a : Int → F32) (sa : Int) (b : Int → F32) (sb block : Int) : F32 :=
  if block < 1 ∨ sa < block ∨ sb < block then fltMax
  else ops.reduceSum ((Int.range 0 block).foldl
    (fun acc y => ssdRow ops (loadU a (y * sa)) (loadU b (y * sb)) block acc) fun _ => F32.zero)

/-- The search of the blocks that have kernels of their own, on `ref` with the place clamped. -/
abbrev OwnKernel := (ref : Int → F32) → (stride width height cx cy block bmRange : Int) →
  (group : Int) → (avx2Features : Nat) → Found group

theorem collectSpatial_length (width height bx by_ block bmRange group : Int)
    (distance : Int → Int → F32) (h : 0 < group) :
    ((collectSpatial width height bx by_ block bmRange group distance).length : Int) ≤
      min group kBmMaxGroup := by
  by_cases hvalid : 1 ≤ block ∧ block ≤ width ∧ block ≤ height
  · obtain ⟨hblock, hwidth, hheight⟩ := hvalid
    exact (collectSpatial_result distance width height bx by_ block bmRange group hblock hwidth
      hheight h).length_le
  · rw [collectSpatial, if_pos (by omega)]
    simp only [List.length_nil, kBmMaxGroup]
    omega

/-- `SpatialMatch`; the blocks 4, 8, 12 and 16 have kernels of their own. -/
def spatialMatch (own : OwnKernel) (requested : Nat) (ref : Int → F32) (stride width height : Int)
    (item : MatchBatchItem) : Found item.group :=
  let maxX := width - item.block
  let maxY := height - item.block
  if width < 1 ∨ height < 1 ∨ item.block < 1 ∨ stride < width ∨ maxX < 0 ∨ maxY < 0 ∨
      item.group < 1 then
    ⟨0, [], fun h => by simp only [List.length_nil, kBmMaxGroup]; omega⟩
  else
    let cx := clampPlace item.bx width item.block
    let cy := clampPlace item.by_ height item.block
    if item.block = 8 ∨ item.block = 4 ∨ item.block = 12 ∨ item.block = 16 then
      own ref stride width height cx cy item.block (max item.bmRange 0) item.group
        (item.avx2Features ||| requested)
    else
      let out := collectSpatial width height cx cy item.block item.bmRange item.group fun x y =>
        ssdBlock ops (loadU ref (cy * stride + cx)) stride (loadU ref (y * stride + x)) stride
          item.block
      ⟨out.length, out, collectSpatial_length width height cx cy item.block item.bmRange
        item.group _⟩

end Single

/-! ## The joint search -/

/-- What `SpatialJoint4` keeps about a job. -/
structure JointSearch where
  cx : Int
  cy : Int
  left : Int
  top : Int
  spanX : Int
  spanY : Int
  wanted : Int
  /-- The pixel of the reference block at `y`, `x`. -/
  reference : Int → Int → F32
  topk : List Match

namespace JointSearch

variable {target : Target} (ops : VectorOps target)

def start (b : Int) (ref : Int → F32) (stride width height : Int) (item : MatchBatchItem) :
    JointSearch :=
  let cx := clampPlace item.bx width b
  let cy := clampPlace item.by_ height b
  let range := max 0 item.bmRange
  let left := cx - min cx range
  let top := cy - min cy range
  { cx := cx
    cy := cy
    left := left
    top := top
    spanX := cx + min (width - b - cx) range - left + 1
    spanY := cy + min (height - b - cy) range - top + 1
    wanted := min item.group kBmMaxGroup
    reference := fun y x => ref ((cy + y) * stride + cx + x)
    topk := [] }

/-- The distances of `valid` candidates from `candidate` on, one in each lane. -/
def distances (b : Int) (ref : Int → F32) (stride candidate valid : Int)
    (reference : Int → Int → F32) : Int → F32 :=
  let buckets : Int → Int → F32 := (Int.range 0 b).foldl
    (fun buckets y => (Int.range 0 b).foldl
      (fun buckets x => Function.update buckets (x % target.lanes)
        (accumulate ops (buckets (x % target.lanes)) (fun _ => reference y x)
          (loadN ref (candidate + y * stride + x) valid))) buckets)
    fun _ _ => F32.zero
  reduceSsdBuckets target (fun _ => F32.zero) (fun v w i => ops.add (v i) (w i)) buckets

/-- One round of the loops over `dy` and `dx` for one job. -/
def visit (b : Int) (ref : Int → F32) (stride dy dx : Int) (s : JointSearch) : JointSearch :=
  if s.wanted ≤ 1 ∨ dy ≥ s.spanY ∨ dx ≥ s.spanX then s
  else
    let valid := min target.lanes (s.spanX - dx)
    let candidate := (s.top + dy) * stride + s.left + dx
    let dist := distances ops b ref stride candidate valid s.reference
    { s with
      topk := (Int.range 0 valid).foldl
        (fun topk i =>
          let x := s.left + dx + i
          let y := s.top + dy
          if x = s.cx ∧ y = s.cy then topk
          else
            let ordinal := ((1 + dy * s.spanX + dx + i) % 2 ^ 32).toNat
            SpatialSortedTopK.add (s.wanted - 1) topk ⟨x, y, 0, dist i, ordinal⟩) s.topk }

/-- The matches of a job. -/
def finish (s : JointSearch) : List Match :=
  ⟨s.cx, s.cy, 0, F32.zero, 0⟩ :: SpatialSortedTopK.finish (s.wanted - 1) s.topk

end JointSearch

section Joint

variable {target : Target} (ops : VectorOps target)

/-- The largest span of the jobs that look for more than their reference. -/
def maxSpan (span : JointSearch → Int) (searches : List JointSearch) : Int :=
  searches.foldl (fun m s => if s.wanted > 1 then max m (span s) else m) 0

/-- `SpatialJoint4<b>`, with the matches of each job. -/
def spatialJoint4 (b : Int) (ref : Int → F32) (stride width height : Int)
    (items : List MatchBatchItem) : List (List Match) :=
  let searches := items.map (JointSearch.start b ref stride width height)
  let searches := (Int.range 0 (maxSpan (·.spanY) searches)).foldl
    (fun ss dy => (strides target.lanes (maxSpan (·.spanX) searches)).foldl
      (fun ss dx => ss.map (JointSearch.visit ops b ref stride dy dx)) ss) searches
  searches.map (·.finish)

/-- The jobs at the start of `items` that are searched jointly. -/
def jointGroup (target : Target) (width height matchStride : Int) (items : List MatchBatchItem) :
    List MatchBatchItem :=
  match items with
  | [] => []
  | first :: _ =>
    let block := first.block
    if target.native ∧ (block = 6 ∨ block = 7 ∨ block = 9) then
      (items.take 4).takeWhile fun item =>
        item.block = block ∧ width ≥ block ∧ height ≥ block ∧ item.group > 0 ∧
          min item.group kBmMaxGroup ≤ matchStride
    else []

/-- The matches of the jobs from `index` on, with their counts. -/
def writeMatches (matchStride : Int) (out : MatchOutput) (index : Nat) :
    List (List Match) → MatchOutput
  | [] => out
  | found :: rest =>
    writeMatches matchStride
      ⟨writeAt out.matchBuf (index * matchStride.toNat) found,
        out.counts.set index found.length⟩ (index + 1) rest

variable (own : OwnKernel) (requested : Nat) (ref : Int → F32)
  (stride width height matchStride : Int)

/-- The loop over the jobs, from job `begin` on. -/
def jointLoop (begin : Nat) (items : List MatchBatchItem) (s : MatchOutput × Nat) :
    MatchOutput × Nat :=
  match items with
  | [] => s
  | item :: rest =>
    match jointGroup target width height matchStride (item :: rest) with
    | first :: others =>
      let found := spatialJoint4 ops item.block ref stride width height (first :: others)
      jointLoop (begin + (others.length + 1)) (rest.drop others.length)
        (writeMatches matchStride s.1 begin found, s.2)
    | [] =>
      let capacity := matchCapacityValid item.group matchStride
      let found := spatialMatch ops own requested ref stride width height
        { item with avx2Features := item.avx2Features ||| requested }
      let out : MatchOutput :=
        if !capacity then { s.1 with counts := s.1.counts.set begin 0 }
        else ⟨writeAt s.1.matchBuf (begin * matchStride.toNat) found.out,
          s.1.counts.set begin found.count⟩
      let failed := !capacity || decide (found.count ≤ 0)
      jointLoop (begin + 1) rest (out, if failed then recordBatchFailure begin s.2 else s.2)
  termination_by items.length
  decreasing_by all_goals simp only [List.length_drop, List.length_cons]; omega

/-- `SpatialMatchJoint` -/
def spatialMatchJoint (items : List MatchBatchItem) (out : MatchOutput) : MatchOutput × Int :=
  if items = [] then (out, 0)
  else if width < 1 ∨ height < 1 ∨ stride < width ∨ matchStride < 1 then (out, -1)
  else
    let (out, firstError) := jointLoop ops own requested ref stride width height matchStride 0
      items (out, 0)
    (out, firstError)

/-- The single search on each job in turn. -/
def searchEach (items : List MatchBatchItem) (out : MatchOutput) : MatchOutput × Int :=
  let (out, firstError) := (List.range items.length).foldl
    (matchItem (spatialMatch ops own requested ref stride width height) matchStride items) (out, 0)
  (out, firstError)

end Joint

/-! ## The distance of a candidate -/

section Distance

variable {target : Target} {ops : VectorOps target} {b : Int}

/-- The squares of the columns `x` with `x % lanes = k`, added to `s` one after another. -/
def columnSum (ops : VectorOps target) (b : Int) (v w : Int → F32) (k : Int) (s : F32) : F32 :=
  (Int.range 0 b).foldl (fun s x =>
    if x % target.lanes = k then ops.mulAdd (ops.sub (v x) (w x)) (ops.sub (v x) (w x)) s
    else s) s

/-- What lane `k` holds behind the rows of two blocks. -/
def bucketSum (ops : VectorOps target) (b : Int) (v w : Int → Int → F32) (k : Int) : F32 :=
  (Int.range 0 b).foldl (fun s y => columnSum ops b (v y) (w y) k s) F32.zero

theorem Accumulated.columnSum {v w : Int → F32} {k : Int} {s : F32}
    (h : Accumulated ops.mulAdd s) : Accumulated ops.mulAdd (columnSum ops b v w k s) := by
  unfold Cpu.columnSum
  refine List.foldlRecOn _ _ h fun s hs x _ => ?_
  split
  · exact .mulAdd _ hs
  · exact hs

theorem ssdRow_lane {pa pb acc : Int → F32} {k : Int} (hk : 0 ≤ k) (hkl : k < target.lanes)
    (hb : 0 ≤ b) (hacc : Accumulated ops.mulAdd (acc k)) :
    ssdRow ops pa pb b acc k = columnSum ops b pa pb k (acc k) := by
  have hl := target.lanes_pos
  have hend : vectorEnd target.lanes 0 b = rounds target.lanes 0 b * target.lanes := by
    simp [vectorEnd]
  obtain ⟨hge, hle⟩ := vectorEnd_le hl hb
  have hlt := lt_vectorEnd hl hb
  -- the whole vectors
  have hrounds : (List.range (rounds target.lanes 0 b)).foldl
      (fun acc (j : Nat) => accumulate ops acc (loadU pa (j * target.lanes))
        (loadU pb (j * target.lanes))) acc k =
      columnSum ops (vectorEnd target.lanes 0 b) pa pb k (acc k) := by
    unfold columnSum
    rw [hend, foldl_lane_rounds hk hkl]
    exact (List.foldl_hom (fun acc : Int → F32 => acc k) fun _ _ => rfl).symm
  have hsplit : columnSum ops b pa pb k (acc k) =
      if vectorEnd target.lanes 0 b + k < b then
        ops.mulAdd (ops.sub (pa (vectorEnd target.lanes 0 b + k))
          (pb (vectorEnd target.lanes 0 b + k))) (ops.sub (pa (vectorEnd target.lanes 0 b + k))
          (pb (vectorEnd target.lanes 0 b + k)))
          (columnSum ops (vectorEnd target.lanes 0 b) pa pb k (acc k))
      else columnSum ops (vectorEnd target.lanes 0 b) pa pb k (acc k) := by
    have hmod : vectorEnd target.lanes 0 b % target.lanes = 0 := by
      rw [hend]
      exact Int.mul_emod_left _ _
    unfold columnSum
    rw [range_append hge hle, List.foldl_append, foldl_lane hk hkl hmod (by omega)]
  rw [hsplit]
  unfold ssdRow
  split
  · -- the rest; the lanes behind it add zeros
    rw [accumulate, hrounds, loadN, loadN]
    by_cases hin : k < b - vectorEnd target.lanes 0 b
    · rw [if_pos hin, if_pos hin, if_pos (by omega)]
    · rw [if_neg hin, if_neg hin, if_neg (by omega), ops.sub_zero,
        ops.mulAdd_zero _ hacc.columnSum]
  · rw [if_neg (by omega), hrounds]

theorem rows_lane {v w : Int → Int → F32} {k : Int} (hk : 0 ≤ k) (hkl : k < target.lanes)
    (hb : 0 ≤ b) (rows : List Int) {acc : Int → F32} (hacc : Accumulated ops.mulAdd (acc k)) :
    rows.foldl (fun acc y => ssdRow ops (v y) (w y) b acc) acc k =
      rows.foldl (fun s y => columnSum ops b (v y) (w y) k s) (acc k) := by
  induction rows generalizing acc with
  | nil => rfl
  | cons y rows ih =>
    have hrow : ssdRow ops (v y) (w y) b acc k = columnSum ops b (v y) (w y) k (acc k) :=
      ssdRow_lane hk hkl hb hacc
    rw [List.foldl_cons, List.foldl_cons, ih (hrow ▸ hacc.columnSum), hrow]

/-- A sum of buckets takes one of each lane. -/
theorem reduceSsdBuckets_hom {V W : Type*} {zero : V} {zero' : W} {add : V → V → V}
    {add' : W → W → W} {values : Int → V} {values' : Int → W} (π : V → W)
    (hnative : target.native = true) (hadd : ∀ v w, π (add v w) = add' (π v) (π w))
    (h : ∀ k, 0 ≤ k → k < target.lanes → π (values k) = values' k) :
    π (reduceSsdBuckets target zero add values) = reduceSsdBuckets target zero' add' values' := by
  cases target with
  | emu128 => exact absurd hnative (by decide)
  | scalar => exact absurd hnative (by decide)
  | neon | avx3 | avx2 | sse =>
    simp only [Target.lanes] at h
    simp only [reduceSsdBuckets, hadd]
    simp (disch := omega) only [h]

theorem ssdBlock_eq {p q : Int → F32} {sp sq : Int} (hb : 1 ≤ b) (hsp : b ≤ sp) (hsq : b ≤ sq)
    (hnative : target.native = true) :
    ssdBlock ops p sp q sq b = reduceSsdBuckets target F32.zero ops.add
      (bucketSum ops b (fun y x => p (y * sp + x)) fun y x => q (y * sq + x)) := by
  rw [ssdBlock, if_neg (by omega), ops.reduceSum_eq hnative]
  exact reduceSsdBuckets_hom id hnative (fun _ _ => rfl) fun k hk hkl =>
    rows_lane hk hkl (by omega) _ .zero

/-- Lane `i` of the joint search has the distance of candidate `i`. -/
theorem distances_eq {ref : Int → F32} {stride candidate valid i : Int}
    {reference : Int → Int → F32} (hi : i < valid) (hnative : target.native = true) :
    JointSearch.distances ops b ref stride candidate valid reference i =
      reduceSsdBuckets target F32.zero ops.add
        (bucketSum ops b reference fun y x => ref (candidate + i + y * stride + x)) := by
  unfold JointSearch.distances
  refine reduceSsdBuckets_hom (fun v : Int → F32 => v i) hnative (fun _ _ => rfl) fun k _ _ => ?_
  unfold bucketSum
  refine (List.foldl_hom (fun buckets : Int → Int → F32 => buckets k i) fun buckets y => ?_).symm
  -- the columns of row `y` in bucket `k`, and of them what is in lane `i`
  have hrow : (Int.range 0 b).foldl (fun buckets x =>
      Function.update buckets (x % target.lanes) (accumulate ops (buckets (x % target.lanes))
        (fun _ => reference y x) (loadN ref (candidate + y * stride + x) valid))) buckets k =
      (Int.range 0 b).foldl (fun v x => if x % target.lanes = k then
        accumulate ops v (fun _ => reference y x) (loadN ref (candidate + y * stride + x) valid)
        else v) (buckets k) := foldl_update_at (· % target.lanes)
          (fun x v => accumulate ops v (fun _ => reference y x)
            (loadN ref (candidate + y * stride + x) valid)) buckets k
  rw [columnSum, hrow]
  refine List.foldl_hom (fun v : Int → F32 => v i) fun v x => ?_
  split
  · simp only [accumulate, loadN, if_pos hi]
    rw [show candidate + i + y * stride + x = candidate + y * stride + x + i by omega]
  · rfl

end Distance
/-! ## A search of a job -/

namespace JointSearch

variable {target : Target} (ops : VectorOps target) {b : Int} {ref : Int → F32} {stride : Int}

/-- The distance of the block at `(x, y)`. -/
def distanceAt (b : Int) (ref : Int → F32) (stride : Int) (s : JointSearch) (x y : Int) : F32 :=
  reduceSsdBuckets target F32.zero ops.add
    (bucketSum ops b s.reference fun dy dx => ref (y * stride + x + dy * stride + dx))

/-- What the candidate at `(dx, dy)` in the window does to the best ones. -/
def consider (b : Int) (ref : Int → F32) (stride : Int) (s : JointSearch) (dy dx : Int)
    (topk : List Match) : List Match :=
  if s.left + dx = s.cx ∧ s.top + dy = s.cy then topk
  else SpatialSortedTopK.add (s.wanted - 1) topk
    ⟨s.left + dx, s.top + dy, 0, s.distanceAt ops b ref stride (s.left + dx) (s.top + dy),
      ((1 + dy * s.spanX + dx) % 2 ^ 32).toNat⟩

variable {ops} (s : JointSearch)

theorem visit_eq (hnative : target.native = true) (hw : 1 < s.wanted) (dy dx : Int)
    (topk : List Match) :
    visit ops b ref stride dy dx { s with topk := topk } =
      { s with
        topk := if dy < s.spanY then
          ((Int.range 0 (min target.lanes (s.spanX - dx))).map (dx + ·)).foldl
            (fun topk x => consider ops b ref stride s dy x topk) topk
          else topk } := by
  unfold visit
  dsimp only
  by_cases hy : dy < s.spanY
  · rw [if_pos hy]
    by_cases hx : dx < s.spanX
    · rw [if_neg (by omega), List.foldl_map]
      congr 1
      refine List.foldl_ext _ _ _ fun topk i hi => ?_
      have hi := (Int.mem_range_iff.mp hi).2
      rw [distances_eq hi hnative, consider, distanceAt, ← Int.add_assoc s.left dx i,
        ← Int.add_assoc (1 + dy * s.spanX) dx i]
      simp only [← Int.add_assoc]
    · rw [if_pos (by omega), range_empty (by omega)]
      rfl
  · rw [if_neg hy, if_pos (by omega)]

/-- The rounds of a row visit it in order. -/
theorem row_eq (hnative : target.native = true) (hw : 1 < s.wanted) {spanX : Int}
    (hsx : s.spanX ≤ spanX) (dy : Int) (topk : List Match) :
    (strides target.lanes spanX).foldl (fun s dx => visit ops b ref stride dy dx s)
      { s with topk := topk } =
      { s with
        topk := if dy < s.spanY then (Int.range 0 s.spanX).foldl
          (fun topk x => consider ops b ref stride s dy x topk) topk else topk } := by
  have key : ∀ (dxs : List Int) (topk : List Match),
      dxs.foldl (fun s dx => visit ops b ref stride dy dx s) { s with topk := topk } =
      { s with
        topk := if dy < s.spanY then
          (dxs.flatMap fun dx => (Int.range 0 (min target.lanes (s.spanX - dx))).map
            (dx + ·)).foldl (fun topk x => consider ops b ref stride s dy x topk) topk
          else topk } := by
    intro dxs
    induction dxs with
    | nil => simp
    | cons dx dxs ih =>
      intro topk
      rw [List.foldl_cons, visit_eq s hnative hw, ih, List.flatMap_cons, List.foldl_append]
      split <;> rfl
  rw [key, strides_flatMap target.lanes_pos hsx]

/-- The joint rounds visit the window of a job in raster order. -/
theorem visits_eq (hnative : target.native = true) (hw : 1 < s.wanted) {spanY spanX : Int}
    (hy : 0 ≤ s.spanY) (hsy : s.spanY ≤ spanY) (hsx : s.spanX ≤ spanX) :
    (Int.range 0 spanY).foldl
      (fun s dy => (strides target.lanes spanX).foldl
        (fun s dx => visit ops b ref stride dy dx s) s) s =
      { s with
        topk := (Int.range 0 s.spanY).foldl
          (fun topk dy => (Int.range 0 s.spanX).foldl
            (fun topk x => consider ops b ref stride s dy x topk) topk) s.topk } := by
  have key : ∀ (dys : List Int) (topk : List Match),
      dys.foldl (fun s dy => (strides target.lanes spanX).foldl
        (fun s dx => visit ops b ref stride dy dx s) s) { s with topk := topk } =
      { s with
        topk := dys.foldl (fun topk dy => if dy < s.spanY then (Int.range 0 s.spanX).foldl
          (fun topk x => consider ops b ref stride s dy x topk) topk else topk) topk } := by
    intro dys
    induction dys with
    | nil => simp
    | cons dy dys ih =>
      intro topk
      rw [List.foldl_cons, row_eq s hnative hw hsx, ih, List.foldl_cons]
  refine (key _ s.topk).trans ?_
  have hin : ∀ topk, (Int.range 0 s.spanY).foldl (fun topk dy =>
      if dy < s.spanY then (Int.range 0 s.spanX).foldl
        (fun topk x => consider ops b ref stride s dy x topk) topk else topk) topk =
      (Int.range 0 s.spanY).foldl (fun topk dy => (Int.range 0 s.spanX).foldl
        (fun topk x => consider ops b ref stride s dy x topk) topk) topk := fun topk =>
    List.foldl_ext _ _ _ fun topk dy hdy => if_pos (Int.mem_range_iff.mp hdy).2
  have hout : ∀ topk, (Int.range s.spanY spanY).foldl (fun topk dy =>
      if dy < s.spanY then (Int.range 0 s.spanX).foldl
        (fun topk x => consider ops b ref stride s dy x topk) topk else topk) topk = topk := by
    intro topk
    refine foldl_range_induct (fun _ t => t = topk) _ hsy rfl fun dy t hdy _ ht => ?_
    rw [if_neg (by omega), ht]
  rw [range_append hy hsy, List.foldl_append, hin, hout]

/-- The window of a job, from its corner on. -/
theorem start_window (ref : Int → F32) (stride : Int) {width height : Int} (item : MatchBatchItem) (hwidth : b ≤ width)
    (hheight : b ≤ height) :
    let s := start b ref stride width height item
    s.left = max (s.cx - max item.bmRange 0) 0 ∧ s.top = max (s.cy - max item.bmRange 0) 0 ∧
      s.left + s.spanX = min (s.cx + max item.bmRange 0) (width - b) + 1 ∧
      s.top + s.spanY = min (s.cy + max item.bmRange 0) (height - b) + 1 ∧
      0 ≤ s.spanX ∧ 0 ≤ s.spanY := by
  have haxis : ∀ {n : Int} (p : Int), b ≤ n → let c := clampPlace p n b
      c - min c (max 0 item.bmRange) = max (c - max item.bmRange 0) 0 ∧
        c + min (n - b - c) (max 0 item.bmRange) = min (c + max item.bmRange 0) (n - b) ∧
        0 ≤ c + min (n - b - c) (max 0 item.bmRange) - (c - min c (max 0 item.bmRange)) := by
    intro n p hn
    simp only [clampPlace]
    omega
  obtain ⟨hleft, hright, hspanX⟩ := haxis item.bx hwidth
  obtain ⟨htop, hbottom, hspanY⟩ := haxis item.by_ hheight
  have hend : ∀ x y : Int, x + (y - x + 1) = y + 1 := by omega
  simp only [start]
  refine ⟨hleft, htop, ?_, ?_, Int.le_add_one hspanX, Int.le_add_one hspanY⟩
  · rw [← hright]
    exact hend _ _
  · rw [← hbottom]
    exact hend _ _

theorem consider_eq {spanY : Int} (hx : 0 ≤ s.spanX) :
    (Int.range 0 spanY).foldl (fun topk dy => (Int.range 0 s.spanX).foldl
      (fun topk x => consider ops b ref stride s dy x topk) topk) [] =
    ((numbered (s.distanceAt ops b ref stride) 0 1
      ((Int.range s.top (s.top + spanY)).flatMap fun y =>
        (Int.range s.left (s.left + s.spanX)).map fun x => (x, y))).filter fun m =>
          ¬(m.x = s.cx ∧ m.y = s.cy)).foldl (SpatialSortedTopK.add (s.wanted - 1)) [] := by
  have hrange : ∀ a n : Int, Int.range a (a + n) = (Int.range 0 n).map (a + ·) := by
    intro a n
    rw [range_map_add, Int.add_zero]
  unfold numbered
  rw [raster_zipIdx (by omega), List.foldl_filter, List.foldl_map, List.foldl_flatMap,
    hrange s.top, List.foldl_map]
  refine List.foldl_ext _ _ _ fun topk dy hdy => ?_
  rw [hrange s.left, List.foldl_map, List.foldl_map]
  refine List.foldl_ext _ _ _ fun topk dx hdx => ?_
  have hdy := (Int.mem_range_iff.mp hdy).1
  have hdx := (Int.mem_range_iff.mp hdx).1
  have hrow : 0 ≤ dy * s.spanX := Int.mul_nonneg hdy hx
  have hord : ((1 + dy * s.spanX + dx) % 2 ^ 32).toNat =
      (1 + ((s.top + dy - s.top) * (s.left + s.spanX - s.left) +
        (s.left + dx - s.left)).toNat) % 2 ^ 32 := by
    rw [show s.top + dy - s.top = dy by omega, show s.left + s.spanX - s.left = s.spanX by omega,
      show s.left + dx - s.left = dx by omega]
    omega
  rw [consider, hord]
  by_cases hself : s.left + dx = s.cx ∧ s.top + dy = s.cy
  · simp [hself]
  · simp [hself]

/-- A job of the joint search finds what the generic search finds. -/
theorem finish_eq {width height spanY spanX : Int} {item : MatchBatchItem}
    (hnative : target.native = true) (hb : 1 ≤ b) (hwidth : b ≤ width) (hheight : b ≤ height)
    (hgroup : 1 ≤ item.group)
    (hspan : 1 < min item.group kBmMaxGroup →
      (start b ref stride width height item).spanY ≤ spanY ∧
      (start b ref stride width height item).spanX ≤ spanX) :
    ((Int.range 0 spanY).foldl
      (fun s dy => (strides target.lanes spanX).foldl
        (fun s dx => visit ops b ref stride dy dx s) s)
      (start b ref stride width height item)).finish =
    collectSpatial width height item.bx item.by_ b item.bmRange item.group
      ((start b ref stride width height item).distanceAt ops b ref stride) := by
  obtain ⟨hleft, htop, hright, hbottom, hx, hy⟩ := start_window ref stride item hwidth
    hheight
  have hplace : (start b ref stride width height item).cx = clampPlace item.bx width b ∧
      (start b ref stride width height item).cy = clampPlace item.by_ height b ∧
      (start b ref stride width height item).wanted = min item.group kBmMaxGroup ∧
      (start b ref stride width height item).topk = [] := ⟨rfl, rfl, rfl, rfl⟩
  rw [collectSpatial_eq hb hwidth hheight hgroup]
  generalize start b ref stride width height item = s at *
  obtain ⟨hcx, hcy, hwanted, htopk⟩ := hplace
  by_cases hw : 1 < s.wanted
  · obtain ⟨hsy, hsx⟩ := hspan (hwanted ▸ hw)
    rw [visits_eq s hnative hw hy hsy hsx, htopk, consider_eq s hx, hbottom, hright, hleft, htop]
    have hrun := @SortedTopK.run (s.wanted - 1) _ (rank_nodup
      (@spatialCandidates_coord_nodup width height s.cx s.cy b (max item.bmRange 0)
        (s.distanceAt ops b ref stride)))
    rw [finish, ← hcx, ← hcy, ← hwanted]
    exact congrArg _ hrun
  · have hvisit : ∀ dy dx, visit ops b ref stride dy dx s = s := fun dy dx =>
      if_pos (Or.inl (by omega))
    have hrow : ∀ dy, (strides target.lanes spanX).foldl
        (fun s dx => visit ops b ref stride dy dx s) s = s := fun dy =>
      List.foldl_fixed' (hvisit dy) _
    have hstay : (Int.range 0 spanY).foldl (fun s dy => (strides target.lanes spanX).foldl
        (fun s dx => visit ops b ref stride dy dx s) s) s = s :=
      List.foldl_fixed' (f := fun s dy => (strides target.lanes spanX).foldl
        (fun s dx => visit ops b ref stride dy dx s) s) hrow _
    have hnone : (min item.group kBmMaxGroup - 1).toNat = 0 := by omega
    rw [hstay, finish, htopk, hcx, hcy, best, hnone]
    rfl

end JointSearch

/-! ## The jobs -/

section Jobs

variable {target : Target} {ops : VectorOps target} {own : OwnKernel} {requested : Nat}
  {ref : Int → F32} {stride width height matchStride b : Int}

theorem le_maxSpan {span : JointSearch → Int} {searches : List JointSearch} {s : JointSearch}
    (hs : s ∈ searches) (hw : s.wanted > 1) : span s ≤ maxSpan span searches := by
  have key : ∀ (l : List JointSearch) (m : Int),
      m ≤ l.foldl (fun m s => if s.wanted > 1 then max m (span s) else m) m ∧
      ∀ s ∈ l, s.wanted > 1 →
        span s ≤ l.foldl (fun m s => if s.wanted > 1 then max m (span s) else m) m := by
    intro l
    induction l with
    | nil => exact fun m => ⟨Int.le_refl m, nofun⟩
    | cons a l ih =>
      intro m
      obtain ⟨hinit, hall⟩ := ih (if a.wanted > 1 then max m (span a) else m)
      rw [List.foldl_cons]
      refine ⟨le_trans ?_ hinit, fun s hs hw => ?_⟩
      · split <;> omega
      · rcases List.mem_cons.mp hs with rfl | hs
        · refine le_trans ?_ hinit
          rw [if_pos hw]
          omega
        · exact hall s hs hw
  exact (key searches 0).2 s hs hw

/-- A job that may be searched jointly. -/
structure Joint (target : Target) (stride width height matchStride b : Int)
    (item : MatchBatchItem) : Prop where
  native : target.native = true
  block : b = 6 ∨ b = 7 ∨ b = 9
  block_eq : item.block = b
  width_le : b ≤ width
  height_le : b ≤ height
  group : 0 < item.group
  capacity : min item.group kBmMaxGroup ≤ matchStride
  stride_le : width ≤ stride

theorem collectSpatial_clamped {block bx by_ bmRange group : Int} {distance : Int → Int → F32}
    (hwidth : block ≤ width) (hheight : block ≤ height) :
    collectSpatial width height (clampPlace bx width block) (clampPlace by_ height block) block
      bmRange group distance =
      collectSpatial width height bx by_ block bmRange group distance := by
  have hclamp : ∀ c size, block ≤ size →
      clampPlace (clampPlace c size block) size block = clampPlace c size block := by
    intro c size hsize
    unfold clampPlace
    omega
  unfold collectSpatial
  rw [hclamp bx width hwidth, hclamp by_ height hheight]

/-- The distance that the joint search computes is `SsdBlock`. -/
theorem distanceAt_eq {item : MatchBatchItem} (hnative : target.native = true) (hb : 1 ≤ b)
    (hstride : b ≤ stride) :
    (JointSearch.start b ref stride width height item).distanceAt ops b ref stride =
      fun x y => ssdBlock ops
        (loadU ref (clampPlace item.by_ height b * stride + clampPlace item.bx width b)) stride
        (loadU ref (y * stride + x)) stride b := by
  funext x y
  rw [ssdBlock_eq hb hstride hstride hnative]
  unfold JointSearch.distanceAt
  congr 2
  · funext dy dx
    simp only [JointSearch.start, loadU]
    congr 1
    rw [Int.add_mul]
    omega
  · funext dy dx
    simp only [loadU]
    congr 1
    omega

/-- The single search of such a job is the generic one. -/
theorem Joint.spatialMatch_eq (ops : VectorOps target) (own : OwnKernel) (requested : Nat)
    (ref : Int → F32) {item : MatchBatchItem}
    (h : Joint target stride width height matchStride b item) :
    let found := spatialMatch ops own requested ref stride width height item
    found.out = collectSpatial width height item.bx item.by_ b item.bmRange item.group
      ((JointSearch.start b ref stride width height item).distanceAt ops b ref stride) ∧
      found.count = found.out.length := by
  obtain ⟨hnative, hblock, rfl, hwidth, hheight, hgroup, hcapacity, hstride⟩ := h
  intro found
  obtain ⟨hfits, heq⟩ : ∃ hfits, found = ⟨_, collectSpatial width height
      (clampPlace item.bx width item.block) (clampPlace item.by_ height item.block) item.block
      item.bmRange item.group fun x y => ssdBlock ops
        (loadU ref (clampPlace item.by_ height item.block * stride +
          clampPlace item.bx width item.block)) stride (loadU ref (y * stride + x)) stride
        item.block, hfits⟩ := by
    simp only [found, spatialMatch]
    rw [if_neg (by omega), if_neg (by omega)]
    exact ⟨collectSpatial_length _ _ _ _ _ _ _ _, rfl⟩
  rw [heq, distanceAt_eq hnative (by omega) (by omega)]
  exact ⟨collectSpatial_clamped hwidth hheight, rfl⟩

/-- The joint search gives each of its jobs what the single one gives it. -/
theorem spatialJoint4_eq (own : OwnKernel) (requested : Nat) {items : List MatchBatchItem}
    (h : ∀ item ∈ items, Joint target stride width height matchStride b item) :
    spatialJoint4 ops b ref stride width height items =
      items.map fun item => (spatialMatch ops own requested ref stride width height item).out := by
  unfold spatialJoint4
  dsimp only
  simp only [foldl_map_each, List.map_map]
  refine List.map_congr_left fun item hitem => ?_
  have hitem' := h item hitem
  rw [(hitem'.spatialMatch_eq ops own requested ref).1]
  have hblock := hitem'.block
  refine JointSearch.finish_eq hitem'.native (by omega) hitem'.width_le hitem'.height_le
    hitem'.group fun hwanted => ?_
  have hmem : JointSearch.start b ref stride width height item ∈
      items.map (JointSearch.start b ref stride width height) := List.mem_map_of_mem hitem
  exact ⟨le_maxSpan hmem hwanted, le_maxSpan hmem hwanted⟩

/-- The single search on each of some jobs that may be searched jointly. -/
theorem foldl_joint {group before after : List MatchBatchItem}
    (h : ∀ item ∈ group, Joint target stride width height matchStride b item)
    (s : MatchOutput × Nat) :
    (List.range' before.length group.length).foldl
      (matchItem (spatialMatch ops own requested ref stride width height) matchStride
        (before ++ group ++ after)) s =
      (writeMatches matchStride s.1 before.length (group.map fun item =>
        (spatialMatch ops own requested ref stride width height item).out), s.2) := by
  induction group generalizing before s with
  | nil => rfl
  | cons item group ih =>
    have hitem := h item List.mem_cons_self
    obtain ⟨hout, hcount⟩ := hitem.spatialMatch_eq ops own requested ref
    have hcapacity : matchCapacityValid item.group matchStride = true := by
      have hgroup := hitem.group
      have hcapacity := hitem.capacity
      simp only [matchCapacityValid, decide_eq_true_eq]
      exact ⟨hgroup, hcapacity⟩
    have hpos : ¬(spatialMatch ops own requested ref stride width height item).count ≤ 0 := by
      have hblock := hitem.block
      rw [hcount, hout, collectSpatial_eq (by omega) hitem.width_le hitem.height_le hitem.group,
        List.length_cons]
      omega
    have hget : (before ++ item :: group ++ after)[before.length]? = some item := by simp
    have hstep : matchItem (spatialMatch ops own requested ref stride width height) matchStride
        (before ++ item :: group ++ after) s before.length =
        (⟨writeAt s.1.matchBuf (before.length * matchStride.toNat)
            (spatialMatch ops own requested ref stride width height item).out,
          s.1.counts.set before.length
            (spatialMatch ops own requested ref stride width height item).out.length⟩, s.2) := by
      simp only [matchItem, hget, hcapacity]
      rw [if_neg hpos, hcount]
      rfl
    have hrest := @ih (before ++ [item]) (fun a ha => h a (List.mem_cons_of_mem _ ha))
    rw [List.length_cons, List.range'_succ, List.foldl_cons, hstep]
    simp only [List.length_append, List.length_singleton, List.append_assoc, List.cons_append,
      List.nil_append] at hrest ⊢
    rw [hrest]
    rfl

/-- The jobs of a group stand at the start of the list, and may be searched jointly. -/
theorem jointGroup_spec (target : Target) (height matchStride : Int) (hstride : width ≤ stride)
    (first : MatchBatchItem) (rest : List MatchBatchItem) :
    (∃ tail, first :: rest =
      jointGroup target width height matchStride (first :: rest) ++ tail) ∧
      ∀ item ∈ jointGroup target width height matchStride (first :: rest),
        Joint target stride width height matchStride first.block item := by
  unfold jointGroup
  dsimp only
  split
  · next hshape =>
    refine ⟨?_, fun item hitem => ?_⟩
    · obtain ⟨tail, htail⟩ := (List.takeWhile_prefix (l := (first :: rest).take 4)
        fun item => item.block = first.block ∧ width ≥ first.block ∧ height ≥ first.block ∧
          item.group > 0 ∧ min item.group kBmMaxGroup ≤ matchStride).trans
        (List.take_prefix 4 (first :: rest))
      exact ⟨tail, htail.symm⟩
    · have hcheck := List.mem_takeWhile_imp hitem
      simp only [decide_eq_true_eq] at hcheck
      obtain ⟨hblock, hwidth, hheight, hgroup, hcapacity⟩ := hcheck
      exact ⟨hshape.1, hshape.2, hblock, hwidth, hheight, hgroup, hcapacity, hstride⟩
  · exact ⟨⟨_, rfl⟩, nofun⟩

/-- Asking for the requested features again changes nothing. -/
theorem spatialMatch_requested (item : MatchBatchItem) :
    spatialMatch ops own requested ref stride width height
      { item with avx2Features := item.avx2Features ||| requested } =
    spatialMatch ops own requested ref stride width height item := by
  unfold spatialMatch
  dsimp only
  rw [Nat.or_assoc, Nat.or_self]

theorem jointLoop_eq (hstride : width ≤ stride) (before items : List MatchBatchItem)
    (s : MatchOutput × Nat) :
    jointLoop ops own requested ref stride width height matchStride before.length items s =
      (List.range' before.length items.length).foldl
        (matchItem (spatialMatch ops own requested ref stride width height) matchStride
          (before ++ items)) s := by
  induction hn : items.length using Nat.strong_induction_on generalizing before items s with
  | _ n ih =>
    cases items with
    | nil =>
      rw [← hn, jointLoop]
      rfl
    | cons item rest =>
      obtain ⟨⟨tail, htail⟩, hjoint⟩ := jointGroup_spec target height matchStride hstride item rest
      rw [jointLoop]
      split
      · next first others hgroup =>
        -- a group of jobs
        rw [hgroup, List.cons_append] at htail
        rw [hgroup] at hjoint
        obtain ⟨rfl, rfl⟩ := List.cons.inj htail
        have hdrop : (others ++ tail).drop others.length = tail := by simp
        have hless : tail.length < n := by
          simp only [← hn, List.length_cons, List.length_append]
          omega
        have hfold := @foldl_joint _ ops own requested ref _ _ _ _ _ _ before tail hjoint s
        have hlen : before.length + (others.length + 1) = (before ++ item :: others).length := by
          simp
        have hsplit : (item :: (others ++ tail)).length = (item :: others).length + tail.length := by
          simp only [List.length_cons, List.length_append]
          omega
        have hlist : before ++ item :: (others ++ tail) = before ++ item :: others ++ tail := by simp
        rw [hdrop, spatialJoint4_eq own requested hjoint, hlen,
          ih tail.length hless _ tail _ rfl, hlist, ← hn, hsplit, ← List.range'_append_1,
          List.foldl_append, hfold]
        simp
      · -- a job by itself
        have hrest := ih rest.length (by rw [← hn]; simp) (before ++ [item]) rest
        have hget : (before ++ item :: rest)[before.length]? = some item := by simp
        have hlen : before.length + 1 = (before ++ [item]).length := by simp
        have hlist : before ++ item :: rest = before ++ [item] ++ rest := by simp
        dsimp only
        rw [hlen, hrest _ rfl, ← hlist, ← hn, List.length_cons, List.range'_succ, List.foldl_cons,
          ← hlen]
        congr 1
        rw [spatialMatch_requested]
        simp only [matchItem, hget]
        cases matchCapacityValid item.group matchStride <;> simp

/-- The joint search against the single search on each job in turn. -/
theorem spatialMatchJoint_eq (ops : VectorOps target) (own : OwnKernel) (requested : Nat)
    (ref : Int → F32) (stride width height matchStride : Int) (items : List MatchBatchItem)
    (out : MatchOutput) :
    spatialMatchJoint ops own requested ref stride width height matchStride items out =
      if items ≠ [] ∧ (width < 1 ∨ height < 1 ∨ stride < width ∨ matchStride < 1) then (out, -1)
      else searchEach ops own requested ref stride width height matchStride items out := by
  unfold spatialMatchJoint searchEach
  by_cases hempty : items = []
  · subst hempty
    rfl
  · rw [if_neg hempty]
    by_cases hframe : width < 1 ∨ height < 1 ∨ stride < width ∨ matchStride < 1
    · rw [if_pos hframe, if_pos ⟨hempty, hframe⟩]
    · have hloop := @jointLoop_eq _ ops own requested ref stride width height matchStride
        (by omega) [] items (out, 0)
      rw [if_neg hframe, if_neg fun h => hframe h.2, List.range_eq_range']
      rw [List.length_nil, List.nil_append] at hloop
      rw [hloop]

/-- Vectors of bit patterns: what the float operations do with zeros. -/
def VectorOps.bits (target : Target) : VectorOps target where
  sub := (· - ·)
  add := (· + ·)
  mulAdd := fun v w a => v * w + a
  reduceSum := reduceSsdBuckets target F32.zero (· + ·)
  sub_zero := by decide
  mulAdd_zero := fun a _ => by simp [F32.zero]
  reduceSum_eq := fun _ _ => rfl

/-- A kernel that finds nothing. -/
def OwnKernel.none : OwnKernel := fun _ _ _ _ _ _ _ _ group _ =>
  ⟨0, [], fun h => by simp only [List.length_nil, kBmMaxGroup]; omega⟩

/-- Rows that overlap are an error of the joint call; the single searches refuse their jobs. -/
theorem searchEach_differs :
    let joint := spatialMatchJoint (VectorOps.bits .avx2) OwnKernel.none 0 (fun _ => F32.zero) 1 2 2
      1 [⟨0, 0, 1, 0, 1, 0⟩] ⟨[⟨5, 5, 5, F32.zero, 5⟩], [7]⟩
    let each := searchEach (VectorOps.bits .avx2) OwnKernel.none 0 (fun _ => F32.zero) 1 2 2
      1 [⟨0, 0, 1, 0, 1, 0⟩] ⟨[⟨5, 5, 5, F32.zero, 5⟩], [7]⟩
    (joint.1.counts, joint.2) = ([7], -1) ∧ (each.1.counts, each.2) = ([0], 1) := by
  decide

end Jobs

end NssFactory.Cpu
