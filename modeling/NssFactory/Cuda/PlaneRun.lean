import NssFactory.Lib.SlidingSum
import NssFactory.Gpu.RollPlan

/-!
# A plane of a rolling chunk on a CUDA slot

`PlaneRun` of `cuda/common/group_driver.cpp`: the device buffers that a rolling state keeps of
a plane, and what each call of the walk does to them. `queuePlane` runs a planned chunk.

The kernels are parameters. `filter` is what the groups of a center contribute to each slot of
its window, from the source frames and the estimates in it; an `Accum` is a kind of sums, in
floats or in fixed point. The streams run in order, so a buffer is its contents.
-/

namespace NssFactory.Cuda

open Rolling

/-- A kind of sums: the empty one, the addition of a slice, and the finished plane. -/
structure Accum (P S B : Type*) where
  zero : S
  add : S → B → S
  finish : S → P → P

/-- A plane (or the unit of `n` channels it carries) of a group filter. -/
structure GroupPlane (n : Nat) (P S B : Type*) where
  fused : Bool
  basicActive : Bool
  basicFused : Bool
  clip : Int → Fin n → P
  guide : Int → Fin n → P
  sums : Accum P S B
  basicSums : Accum P S B
  filter : Int → List (Fin n → P) → Option (List (Fin n → P)) → Int → Fin n → B
  basicFilter : Int → List (Fin n → P) → Int → Fin n → B

structure Driver (n : Nat) (P S B : Type*) extends Geometry where
  name : String
  sharedMatch : Bool
  guideClip : Bool
  channelOut : Fin n → Bool
  basicOut : Fin n → Bool
  planes : Nat → GroupPlane n P S B

/-- The buffers of a rolling state, each cell of a ring by its index. -/
structure RollState (n : Nat) (P S : Type*) where
  resident : Int → Int
  srcFrames : Int → Fin n → P
  refFrames : Int → Fin n → P
  acc : Fin n → Int → S
  basicAcc : Fin n → Int → S

/-- A planned chunk of a plane. -/
structure RollTurn where
  plane : Nat
  start : Int
  count : Int
  carry : Bool
  uploads : List Int

/-- The run of a turn: its state, the uploads made, and the planes written of each frame. -/
structure PlaneRun (n : Nat) (P S : Type*) extends RollState n P S where
  staged : Nat
  uploaded : List Int
  written : List (Int × Fin n × P)

/-- Where the kernels of a center add: `FixedTarget`, less its pointers and pitches. -/
structure FixedTarget where
  sliceBase : Int
  slices : Int
  sliceFirst : Int
  sliceRing : Int

/-- Ring cell of the slice of a patch of window slot `t`. -/
def fixedSlice (target : FixedTarget) (t : Int) : Option Int :=
  let slice := t + target.sliceBase
  if slice < 0 ∨ target.slices ≤ slice then none
  else
    let cell := slice + target.sliceFirst
    some (if cell < target.sliceRing then cell else cell - target.sliceRing)

variable {n : Nat} {P S B : Type*}

namespace Driver

variable (d : Driver n P S B)

def ntemp : Int := 2 * d.radius + 1

def srcRing : Int := (if d.twoStage then 4 * d.radius + 1 else d.ntemp) + 1

/-- A plane's launches get a guide. -/
def wiener : Bool := d.guideClip || d.twoStage

def errorPrefix : String := "nss_cuda." ++ d.name ++ ": "

/-- Logical slice `i` is frame `next + i`, in ring cell `(next + i) % (2R+1)`. -/
def fixedTarget (center next : Int) : FixedTarget where
  sliceBase := center - d.radius - next
  slices := min d.ntemp (d.numFrames - next)
  sliceFirst := next % d.ntemp
  sliceRing := d.ntemp

/-- A fused kernel: every slot of the window that is in the clip adds to its slice. -/
def addFused (accum : Accum P S B) (center next : Int) (slices : Int → B) (cells : Int → S) :
    Int → S :=
  (Int.range (max 0 (d.radius - center))
      (d.radius + min (d.radius + 1) (d.numFrames - center))).foldl
    (fun cells t =>
      match fixedSlice (d.fixedTarget center next) t with
      | none => cells
      | some cell => Function.update cells cell (accum.add (cells cell) (slices t)))
    cells

/-- An ordered plane: the slices of the center are added one after the other. -/
def addOrdered (accum : Accum P S B) (center next : Int) (slices : Int → B) (cells : Int → S) :
    Int → S :=
  (Int.range (max next (center - d.radius))
      (temporalLast center d.radius d.numFrames + 1)).foldl
    (fun cells target => Function.update cells (target % d.ntemp)
      (accum.add (cells (target % d.ntemp)) (slices (target - center + d.radius))))
    cells

/-- What a center adds to the sums of each channel. A joint unit's fused kernel adds to every
channel, written or not. -/
def addCenter (fused : Bool) (out : Fin n → Bool) (accum : Accum P S B) (center next : Int)
    (slices : Int → Fin n → B) (acc : Fin n → Int → S) : Fin n → Int → S :=
  fun c =>
    if fused then
      if d.sharedMatch && !out c then acc c
      else d.addFused accum center next (fun t => slices t c) (acc c)
    else if out c then d.addOrdered accum center next (fun t => slices t c) (acc c)
    else acc c

end Driver

namespace PlaneRun

variable (d : Driver n P S B) (turn : RollTurn) (s : PlaneRun n P S)

/-- A slice is zero before its frame's first center: every one when the chunk starts afresh,
and again once its frame is finished. -/
def clearBasic (cell : Int) : PlaneRun n P S :=
  { s with
    basicAcc := fun c =>
      if d.twoStage && (d.planes turn.plane).basicActive && d.basicOut c then
        Function.update (s.basicAcc c) cell (d.planes turn.plane).basicSums.zero
      else s.basicAcc c }

/-- A joint unit's kernel adds to every channel, written or not. -/
def clearSums (cell : Int) : PlaneRun n P S :=
  { s with
    acc := fun c =>
      if d.sharedMatch && !d.channelOut c then s.acc c
      else Function.update (s.acc c) cell (d.planes turn.plane).sums.zero }

/-- Uploads frame `fn`, the one staged next. -/
def put (fn : Int) : PlaneRun n P S :=
  { s with
    srcFrames := Function.update s.srcFrames (fn % d.srcRing) ((d.planes turn.plane).clip fn)
    refFrames :=
      if d.guideClip then
        Function.update s.refFrames (fn % d.ntemp) ((d.planes turn.plane).guide fn)
      else s.refFrames
    resident := Function.update s.resident (fn % d.srcRing) fn
    staged := s.staged + 1
    uploaded := s.uploaded ++ [fn] }

/-- One window frame of an upload: the staging set holds the frames of `turn.uploads`, so a
frame that is not the next of them cannot be uploaded. -/
def uploadFrame (s : PlaneRun n P S) (fn : Int) : Except String (PlaneRun n P S) :=
  if s.resident (fn % d.srcRing) = fn then .ok s
  else if turn.uploads[s.staged]? ≠ some fn then
    .error (d.errorPrefix ++ "rolling plan and device state disagree")
  else .ok (put d turn s fn)

/-- The window frames of `center` the device does not hold, in the plan's order. -/
def upload (center : Int) : Except String (PlaneRun n P S) :=
  (d.windowFrames center).foldlM (uploadFrame d turn) s

/-- The device's window of `center`. -/
def window (center : Int) : List (Fin n → P) :=
  (d.windowFrames center).map fun fn => s.srcFrames (fn % d.srcRing)

/-- The estimates (or guide frames) of the window of `center`. -/
def estimates (center : Int) : Option (List (Fin n → P)) :=
  if d.wiener then some ((d.windowFrames center).map fun fn => s.refFrames (fn % d.ntemp))
  else none

/-- The kernels of a center of the first stage. -/
def basicKernels (center next : Int) : PlaneRun n P S :=
  if (d.planes turn.plane).basicActive then
    { s with
      basicAcc := d.addCenter (d.planes turn.plane).basicFused d.basicOut
        (d.planes turn.plane).basicSums center next
        ((d.planes turn.plane).basicFilter center (window d s center)) s.basicAcc }
  else s

def basicCenter (center next : Int) : Except String (PlaneRun n P S) := do
  let s ← upload d turn s center
  return basicKernels d turn s center next

/-- Finishes an estimate. A channel the first stage leaves alone is the source. -/
def basicFrame (frame : Int) : PlaneRun n P S :=
  let source := s.srcFrames (frame % d.srcRing)
  let estimate : Fin n → P := fun c =>
    if !(d.planes turn.plane).basicActive || !d.basicOut c then source c
    else (d.planes turn.plane).basicSums.finish (s.basicAcc c (frame % d.ntemp)) (source c)
  -- the cell is the next frame's from here on
  clearBasic d turn
    { s with refFrames := Function.update s.refFrames (frame % d.ntemp) estimate }
    (frame % d.ntemp)

/-- The kernels of a center, all its rounds. -/
def kernels (center next : Int) : PlaneRun n P S :=
  { s with
    acc := d.addCenter (d.planes turn.plane).fused d.channelOut (d.planes turn.plane).sums
      center next
      ((d.planes turn.plane).filter center (window d s center) (estimates d s center)) s.acc }

def center (center next : Int) : Except String (PlaneRun n P S) := do
  let s ← if d.twoStage then pure s else upload d turn s center
  return kernels d turn s center next

/-- Finishes a frame of the chunk into each channel that is written. -/
def output (frame : Int) : PlaneRun n P S :=
  let source := s.srcFrames (frame % d.srcRing)
  let results := ((List.finRange n).filter d.channelOut).map fun c =>
    (frame - turn.start, c,
      (d.planes turn.plane).sums.finish (s.acc c (frame % d.ntemp)) (source c))
  -- the slice is a later frame's from here on
  clearSums d turn { s with written := s.written ++ results } (frame % d.ntemp)

/-- `PlaneRun` as the visitor of the walk. -/
def visit (s : PlaneRun n P S) : Visit → Except String (PlaneRun n P S)
  | .basicCenter c next => basicCenter d turn s c next
  | .basicFrame frame => .ok (basicFrame d turn s frame)
  | .center c next => center d turn s c next
  | .output frame => .ok (output d turn s frame)

/-- The run before the walk: a chunk that starts afresh holds no frame and zeroed sums. -/
def start (state : RollState n P S) : PlaneRun n P S :=
  let run : PlaneRun n P S := { state with staged := 0, uploaded := [], written := [] }
  if turn.carry then run
  else (Int.range 0 d.ntemp).foldl
    (fun run cell => clearSums d turn (clearBasic d turn run cell) cell)
    { run with resident := fun _ => -1 }

/-- The run of a turn through some calls of its walk. -/
def visits (state : RollState n P S) (vs : List Visit) : Except String (PlaneRun n P S) :=
  vs.foldlM (visit d turn) (start d turn state)

end PlaneRun

/-- Queues one plane of a chunk on its slot, in the walk's order. -/
def queuePlane (d : Driver n P S B) (turn : RollTurn) (state : RollState n P S) :
    Except String (PlaneRun n P S) :=
  PlaneRun.visits d turn state (d.walkChunk turn.start turn.count turn.carry)

/-! ## What a center adds -/

variable {d : Driver n P S B}

theorem ring_cell {k a i : Int} (h0 : 0 ≤ i) (h1 : i < k) :
    (if i + a % k < k then i + a % k else i + a % k - k) = (a + i) % k := by
  have h2 := Int.emod_nonneg a (show k ≠ 0 by omega)
  have h3 := Int.emod_lt_of_pos a (show 0 < k by omega)
  have hmod : (a + i) % k = (a % k + i) % k := (Int.emod_add_emod a k i).symm
  rw [hmod]
  generalize a % k = r at h2 h3
  split
  · rw [Int.emod_eq_of_lt (by omega) (by omega), Int.add_comm]
  · rw [← Int.sub_emod_right, Int.emod_eq_of_lt (by omega) (by omega)]
    omega

theorem fixedSlice_mk (base slices first ring t : Int) :
    fixedSlice ⟨base, slices, first, ring⟩ t =
      if t + base < 0 ∨ slices ≤ t + base then none
      else some (if t + base + first < ring then t + base + first else t + base + first - ring) :=
  rfl

/-- Slot `t` of the window of `center` adds to the cell of its frame, unless that is before
`next`. -/
theorem fixedSlice_fixedTarget {center next t : Int} (hn : center ≤ next + d.radius)
    (h1 : t < d.radius + min (d.radius + 1) (d.numFrames - center)) :
    fixedSlice (d.fixedTarget center next) t =
      if center - d.radius + t < next then none
      else some ((center - d.radius + t) % d.ntemp) := by
  have hnt : d.ntemp = 2 * d.radius + 1 := rfl
  rw [Driver.fixedTarget, fixedSlice_mk]
  split
  · rw [if_pos (show center - d.radius + t < next by omega)]
  · rw [if_neg (show ¬center - d.radius + t < next by omega), ring_cell (by omega) (by omega)]
    congr 2
    omega

theorem addFused_eq {center next : Int} (accum : Accum P S B) (slices : Int → B)
    (cells : Int → S) (hn0 : 0 ≤ next) (hlast : next ≤ d.last + 1)
    (hn : center ≤ next + d.radius) (hn' : next ≤ center + d.radius + 1) :
    d.addFused accum center next slices cells =
      putRange d.ntemp (fun t a => accum.add a (slices (t - center + d.radius)))
        (max next (center - d.radius)) (min (center + d.radius) d.last) cells := by
  have hlst : d.last = d.numFrames - 1 := rfl
  rw [Driver.addFused, putRange,
    Loops.range_append (k := max 0 (next - (center - d.radius))) (by omega) (by omega),
    List.foldl_append]
  -- the slots before `next` add nothing
  have hskip : (Int.range (max 0 (d.radius - center)) (max 0 (next - (center - d.radius)))).foldl
      (fun cells t =>
        match fixedSlice (d.fixedTarget center next) t with
        | none => cells
        | some cell => Function.update cells cell (accum.add (cells cell) (slices t)))
      cells = cells := by
    apply List.foldlRecOn (motive := fun cs => cs = cells)
    · rfl
    · rintro cs rfl t ht
      rw [Int.mem_range_iff] at ht
      rw [fixedSlice_fixedTarget hn (by omega), if_pos (by omega)]
  rw [hskip, show max next (center - d.radius) =
      center - d.radius + max 0 (next - (center - d.radius)) by omega,
    show min (center + d.radius) d.last + 1 =
      center - d.radius + (d.radius + min (d.radius + 1) (d.numFrames - center)) by omega,
    ← Loops.range_map_add, List.foldl_map]
  refine List.foldl_ext _ _ _ fun cs t ht => ?_
  rw [Int.mem_range_iff] at ht
  rw [fixedSlice_fixedTarget hn (by omega), if_neg (by omega)]
  simp only
  congr 3
  omega

end NssFactory.Cuda
